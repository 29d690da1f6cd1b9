import AnnotatedHeader.Proofs.DocBlock.Fences
import AnnotatedHeader.Proofs.SourceLine.IgnoredBlocks

/-! How directives are written.

A directive is written with signs, words and a name (`Directive.parts`), and tabs and spaces may
stand around each of them. `Bracket.Spelled` is the form that all directives have, and what is none
of them though it has that form is malformed. So a comment of four slashes is a marker, a fault or,
without that form, a comment (`LineKind.read_eq_marker_iff`, `LineKind.read_eq_malformed_iff`). -/
namespace AnnotatedHeader

open Text

/-! ### Spaced parts -/

namespace Text

/-- The parts one after the other, with tabs and spaces before, between and behind them. -/
inductive Spaced : List String → List Char → Prop where
  | nil {gap : List Char} (blank : ∀ c ∈ gap, isTabOrSpace c = true) : Spaced [] gap
  | cons {gap cs : List Char} {part : String} {parts : List String}
      (blank : ∀ c ∈ gap, isTabOrSpace c = true) (more : Spaced parts cs) :
      Spaced (part :: parts) (gap ++ (part.toList ++ cs))

variable {cs gap : List Char} {part : String} {parts : List String}

theorem spaced_nil_iff : Spaced [] cs ↔ cs.all isTabOrSpace = true := by
  rw [List.all_eq_true]
  constructor
  · intro h
    cases h
    assumption
  · exact .nil

/-- What is behind the tabs and spaces starts with the first part. -/
theorem spaced_cons_iff (visible : part.toList.head?.map isTabOrSpace = some false) :
    Spaced (part :: parts) cs ↔
      ∃ rest, cs.dropWhile isTabOrSpace = part.toList ++ rest ∧ Spaced parts rest := by
  constructor
  · intro h
    cases h with
    | @cons gap rest _ _ blank more =>
      refine ⟨rest, ?_, more⟩
      rw [List.dropWhile_append_of_pos blank]
      cases hpart : part.toList with
      | nil =>
        rw [hpart] at visible
        cases visible
      | cons c ds =>
        rw [hpart] at visible
        exact List.dropWhile_cons_of_neg (by simpa using visible)
  · rintro ⟨rest, hrest, more⟩
    rw [← List.takeWhile_append_dropWhile (p := isTabOrSpace) (l := cs), hrest]
    exact .cons (fun c hc => List.mem_takeWhile_imp hc) more

/-- Tabs and spaces behind the last part can be left out. -/
theorem Spaced.exists_body {last : String} (h : Spaced (parts ++ [last]) cs) :
    ∃ body gap, cs = body ++ gap ∧ (∀ c ∈ gap, isTabOrSpace c = true) ∧
      Spaced (parts ++ [last]) body ∧ last.toList <:+ body := by
  induction parts generalizing cs with
  | nil =>
    cases h with
    | @cons gap gap' _ _ blank more =>
      cases more with
      | nil blank' =>
        refine ⟨gap ++ last.toList, gap', (List.append_assoc ..).symm, blank', ?_,
          List.suffix_append ..⟩
        rw [← List.append_nil last.toList]
        exact .cons blank (.nil (by simp))
  | cons part parts ih =>
    cases h with
    | @cons gap _ _ _ blank more =>
      obtain ⟨body, gap', rfl, blank', more', hlast⟩ := ih more
      refine ⟨gap ++ (part.toList ++ body), gap', ?_, blank', .cons blank more', ?_⟩
      · rw [List.append_assoc, List.append_assoc]
      · exact hlast.trans ((List.suffix_append ..).trans (List.suffix_append ..))

/-! ### What is trimmed -/

theorem isBlank_of_isTabOrSpace (h : ∀ c ∈ gap, isTabOrSpace c = true) : isBlank gap = true :=
  List.all_eq_true.2 fun c hc => isSpace_of_isAsciiSpace (isAsciiSpace_of_isTabOrSpace (h c hc))

/-- What is visible at both ends is not trimmed. -/
theorem trim_eq_self (first : ∀ c ∈ cs.head?, isSpace c = false)
    (last : ∀ c ∈ cs.getLast?, isSpace c = false) : trim cs = cs := by
  have hstart : trimStart cs = cs := by
    cases cs with
    | nil => rfl
    | cons c cs => exact List.dropWhile_cons_of_neg (by simp [first c rfl])
  rw [trim, hstart]
  exact trimEnd_eq_self_iff.2 last

end Text

/-! ### The form of a directive -/

theorem DirectiveWord.read?_eq_some_iff {cs rest : List Char} {word : DirectiveWord} :
    read? cs = some (word, rest) ↔ cs = word.word.toList ++ rest := by
  constructor
  · intro h
    obtain ⟨w, -, hw⟩ := List.exists_of_findSome?_eq_some h
    obtain ⟨tail, htail, heq⟩ := Option.map_eq_some_iff.1 hw
    cases heq
    exact afterLead?_eq_some_iff.1 htail
  · rintro rfl
    cases word with
    | region kind => cases kind <;> rfl
    | inject => rfl
    | ignore => rfl

namespace Bracket

/-- What stands behind a directive's word. -/
def ending : Option String → List String
  | none => ["]"]
  | some argument => [":", argument, "]"]

/-- What stands behind the bracket that opens a directive. -/
def inside (closing : Bool) (word : DirectiveWord) (argument : Option String) : List String :=
  (if closing then ["/"] else []) ++ word.word :: ending argument

theorem exists_inside_eq (closing : Bool) (word : DirectiveWord) (argument : Option String) :
    ∃ parts, inside closing word argument = parts ++ ["]"] := by
  have hending : ∃ parts, ending argument = parts ++ ["]"] := by
    cases argument with
    | none => exact ⟨[], rfl⟩
    | some argument => exact ⟨[":", argument], rfl⟩
  obtain ⟨parts, hparts⟩ := hending
  exact ⟨(if closing then ["/"] else []) ++ word.word :: parts, by simp [inside, hparts]⟩

/-- The text has a directive's form. Its argument may be anything that holds no closing bracket,
and is trimmed. -/
inductive Spelled : Bracket → List Char → Prop where
  | intro {closing : Bool} {word : DirectiveWord} {argument : Option String} {cs : List Char}
      (free : ∀ a ∈ argument, ']' ∉ a.toList) (spaced : Spaced (inside closing word argument) cs) :
      Spelled ⟨closing, word, argument.map trimmed⟩ ('[' :: cs)

variable {b : Bracket} {cs rest : List Char} {word : DirectiveWord} {d : Directive}
  {argument : Option String}

/-- What stands in front of the first closing bracket can be the argument. -/
theorem spaced_argument {tail : List Char} (hclose : rest.dropWhile (· != ']') = ']' :: tail)
    (blank : tail.all isTabOrSpace = true) :
    ']' ∉ rest.takeWhile (· != ']') ∧ Spaced [.ofList (rest.takeWhile (· != ']')), "]"] rest := by
  constructor
  · intro hmem
    simpa using List.mem_takeWhile_imp hmem
  · have hclosing : Spaced ["]"] (']' :: tail) :=
      @Spaced.cons [] _ _ _ (by simp) (spaced_nil_iff.2 blank)
    have hspaced := @Spaced.cons [] _ (.ofList (rest.takeWhile (· != ']'))) _ (by simp) hclosing
    rwa [String.toList_ofList, List.nil_append, ← hclose, List.takeWhile_append_dropWhile] at hspaced

/-- And the argument is what stands there, but for what is trimmed. -/
theorem argument_of_spaced {written : String} (free : ']' ∉ written.toList)
    (h : Spaced [written, "]"] rest) :
    ∃ tail, rest.dropWhile (· != ']') = ']' :: tail ∧ tail.all isTabOrSpace = true ∧
      trim (rest.takeWhile (· != ']')) = trim written.toList := by
  cases h with
  | @cons before _ _ _ hbefore hclosing =>
    cases hclosing with
    | @cons after tail _ _ hafter hblank =>
      have hopen : ∀ c ∈ before ++ (written.toList ++ after), (c != ']') = true := by
        intro c hc
        rw [bne_iff_ne]
        rintro rfl
        simp only [List.mem_append, free, false_or] at hc
        rcases hc with hc | hc
        · exact absurd (hbefore _ hc) (by decide)
        · exact absurd (hafter _ hc) (by decide)
      refine ⟨tail, ?_, spaced_nil_iff.1 hblank, ?_⟩
      · rw [← List.append_assoc written.toList, ← List.append_assoc before,
          List.dropWhile_append_of_pos hopen]
        rfl
      · rw [← List.append_assoc written.toList, ← List.append_assoc before,
          List.takeWhile_append_of_pos hopen]
        show trim (before ++ (written.toList ++ after) ++ []) = _
        rw [List.append_nil, trim_isBlank_append (isBlank_of_isTabOrSpace hbefore),
          trim_append_of_isBlank _ (isBlank_of_isTabOrSpace hafter)]

theorem readArgument?_eq_some_iff :
    readArgument? cs = some argument ↔ ∃ written, argument = Option.map trimmed written ∧
      (∀ a ∈ written, ']' ∉ a.toList) ∧ Spaced (ending written) cs := by
  constructor
  · intro h
    unfold readArgument? at h
    split at h
    · rename_i rest hcolon
      split at h
      · rename_i tail hclose
        split at h
        · rename_i hblank
          cases h
          obtain ⟨free, spaced⟩ := spaced_argument hclose hblank
          refine ⟨some (.ofList (rest.takeWhile (· != ']'))), by simp [trimmed], ?_,
            (spaced_cons_iff (by decide)).2 ⟨rest, hcolon, spaced⟩⟩
          rintro _ ⟨⟩
          rwa [String.toList_ofList]
        · cases h
      · cases h
    · rename_i tail hclose
      split at h
      · rename_i hblank
        cases h
        exact ⟨none, rfl, by simp, (spaced_cons_iff (by decide)).2
          ⟨tail, hclose, spaced_nil_iff.2 hblank⟩⟩
      · cases h
    · cases h
  · rintro ⟨written, rfl, free, spaced⟩
    unfold readArgument?
    cases written with
    | none =>
      obtain ⟨tail, hclose, hblank⟩ := (spaced_cons_iff (by decide)).1 spaced
      rw [hclose]
      exact if_pos (spaced_nil_iff.1 hblank)
    | some written =>
      obtain ⟨rest, hcolon, hrest⟩ := (spaced_cons_iff (by decide)).1 spaced
      obtain ⟨tail, hclose, hblank, htrim⟩ := argument_of_spaced (free written rfl) hrest
      replace hcolon : cs.dropWhile isTabOrSpace = ':' :: rest := hcolon
      simp only [hcolon, hclose, hblank, htrim, if_true]
      rfl

theorem visible_word (word : DirectiveWord) :
    word.word.toList.head?.map isTabOrSpace = some false := by
  cases word with
  | region kind => cases kind <;> rfl
  | inject | ignore => rfl

theorem not_slash_word (word : DirectiveWord) (rest : List Char) :
    ((word.word.toList ++ rest).head? == some '/') = false := by
  cases word with
  | region kind => cases kind <;> rfl
  | inject | ignore => rfl

/-- **The form is decided by reading it.** -/
theorem read?_eq_some_iff : Bracket.read? cs = some b ↔ Spelled b cs := by
  constructor
  · intro h
    unfold Bracket.read? at h
    split at h
    · rename_i cs
      dsimp only at h
      split at h
      · rename_i word rest hword
        obtain ⟨argument, hargument, rfl⟩ := Option.map_eq_some_iff.1 h
        obtain ⟨written, rfl, free, spaced⟩ := readArgument?_eq_some_iff.1 hargument
        refine .intro free ?_
        have hrest := DirectiveWord.read?_eq_some_iff.1 hword
        have hvisible := visible_word word
        cases hclosing : (cs.dropWhile isTabOrSpace).head? == some '/' with
        | false =>
          rw [hclosing, if_neg (by decide)] at hrest
          exact (spaced_cons_iff hvisible).2 ⟨rest, hrest, spaced⟩
        | true =>
          rw [hclosing, if_pos rfl] at hrest
          obtain ⟨tail, htail⟩ := List.head?_eq_some_iff.1 (beq_iff_eq.1 hclosing)
          rw [htail, List.tail_cons] at hrest
          exact (spaced_cons_iff (by decide)).2
            ⟨tail, htail, (spaced_cons_iff hvisible).2 ⟨rest, hrest, spaced⟩⟩
      · cases h
    · cases h
  · intro h
    cases h with
    | @intro closing word written cs free spaced =>
      have hvisible := visible_word word
      unfold Bracket.read?
      cases closing with
      | false =>
        obtain ⟨rest, hrest, hending⟩ := (spaced_cons_iff hvisible).1 spaced
        simp only [hrest, not_slash_word, Bool.false_eq_true, if_false,
          DirectiveWord.read?_eq_some_iff.2 rfl,
          readArgument?_eq_some_iff.2 ⟨written, rfl, free, hending⟩]
        rfl
      | true =>
        obtain ⟨tail, htail, hinside⟩ := (spaced_cons_iff (by decide)).1 spaced
        obtain ⟨rest, hrest, hending⟩ := (spaced_cons_iff hvisible).1 hinside
        replace htail : cs.dropWhile isTabOrSpace = '/' :: tail := htail
        simp only [htail, List.head?_cons, BEq.rfl, if_true, List.tail_cons,
          DirectiveWord.read?_eq_some_iff.2 hrest,
          readArgument?_eq_some_iff.2 ⟨written, rfl, free, hending⟩]
        rfl

end Bracket

/-! ### Directives -/

namespace Directive

/-- The name that a directive gives or asks for. -/
def name? : Directive → Option String
  | .opens _ name => some name
  | .inject proxy => some proxy
  | .closes _ | .ignore | .endIgnore => none

/-- A name in the directive is a letter or underscore, then letters, digits, underscores and
hyphens, all ASCII. -/
def Named (d : Directive) : Prop := ∀ name ∈ d.name?, isRegionName name.toList = true

/-- What the directive is written with. -/
def parts : Directive → List String
  | .opens kind name => ["[", kind.word, ":", name, "]"]
  | .closes kind => ["[", "/", kind.word, "]"]
  | .inject proxy => ["[", "inject", ":", proxy, "]"]
  | .ignore => ["[", "ignore", "]"]
  | .endIgnore => ["[", "/", "ignore", "]"]

/-- What is read of the directive. -/
def bracket : Directive → Bracket
  | .opens kind name => ⟨false, .region kind, some name⟩
  | .closes kind => ⟨true, .region kind, none⟩
  | .inject proxy => ⟨false, .inject, some proxy⟩
  | .ignore => ⟨false, .ignore, none⟩
  | .endIgnore => ⟨true, .ignore, none⟩

variable {d : Directive} {b : Bracket} {cs : List Char}

theorem parts_eq (d : Directive) :
    d.parts = "[" :: Bracket.inside d.bracket.closing d.bracket.word d.bracket.argument := by
  cases d <;> rfl

theorem named_of_name? (h : d.name? = none) : d.Named := by
  intro name hname
  rw [h] at hname
  cases hname

/-- Names are read as they are written. -/
theorem trimmed_of_isRegionName {name : String} (h : isRegionName name.toList = true) :
    trimmed name = name := by
  have hvisible (c : Char) (hc : c ∈ name.toList) : isSpace c = false :=
    DocBlock.not_isSpace_of_isNameRest (DocBlock.isNameRest_of_isRegionName h c hc)
  rw [trimmed, trim_eq_self (fun c hc => hvisible c (List.mem_of_mem_head? hc))
    (fun c hc => hvisible c (List.mem_of_getLast? hc)), String.ofList_toList]

theorem Named.spelled (named : d.Named)
    (spaced : Spaced (Bracket.inside d.bracket.closing d.bracket.word d.bracket.argument) cs) :
    d.bracket.Spelled ('[' :: cs) := by
  have hname (name : String) (h : name ∈ d.bracket.argument) : isRegionName name.toList = true := by
    cases d <;> exact named name h
  have hread : d.bracket.argument.map trimmed = d.bracket.argument := by
    cases hargument : d.bracket.argument with
    | none => rfl
    | some name => exact congrArg some (trimmed_of_isRegionName (hname name hargument))
  have hspelled := Bracket.Spelled.intro (fun name h hmem => ?_) spaced
  · rwa [hread] at hspelled
  · exact absurd (DocBlock.isNameRest_of_isRegionName (hname name h) _ hmem) (by decide)

end Directive

theorem Bracket.name_eq_ok_iff {b : Bracket} {name : String} :
    b.name = .ok name ↔ b.argument = some name ∧ isRegionName name.toList = true := by
  unfold Bracket.name
  constructor
  · intro h
    split at h
    · cases h
    · split at h
      · cases h
        exact ⟨‹_›, ‹_›⟩
      · cases h
  · rintro ⟨hargument, hname⟩
    rw [hargument]
    exact if_pos hname

/-- A bracket is a directive if it is the one that this directive is written with. -/
theorem Bracket.directive_eq_ok_iff {b : Bracket} {d : Directive} :
    b.directive = .ok d ↔ b = d.bracket ∧ d.Named := by
  constructor
  · intro h
    obtain ⟨closing, word, argument⟩ := b
    cases closing with
    | true =>
      cases argument with
      | some name => cases h
      | none =>
        cases word with
        | region kind | ignore =>
          cases h
          exact ⟨rfl, Directive.named_of_name? rfl⟩
        | inject => cases h
    | false =>
      cases word with
      | region kind | inject =>
        obtain ⟨name, hname, rfl⟩ := Except.map_eq_ok.1 h
        obtain ⟨rfl, hvalid⟩ := name_eq_ok_iff.1 hname
        refine ⟨rfl, ?_⟩
        rintro _ ⟨⟩
        exact hvalid
      | ignore =>
        cases argument with
        | some name => cases h
        | none =>
          cases h
          exact ⟨rfl, Directive.named_of_name? rfl⟩
  · rintro ⟨hb, named⟩
    rw [hb]
    cases d with
    | opens kind name =>
      have hname : Bracket.name ⟨false, .region kind, some name⟩ = .ok name :=
        name_eq_ok_iff.2 ⟨rfl, named name rfl⟩
      exact Except.map_eq_ok.2 ⟨name, hname, rfl⟩
    | inject proxy =>
      have hname : Bracket.name ⟨false, .inject, some proxy⟩ = .ok proxy :=
        name_eq_ok_iff.2 ⟨rfl, named proxy rfl⟩
      exact Except.map_eq_ok.2 ⟨proxy, hname, rfl⟩
    | closes kind | ignore | endIgnore => rfl

/-! ### Lines -/

/-- The line is a comment of four slashes, and this is its trimmed text. -/
inductive ToolLine : List Char → List Char → Prop where
  | intro {indent rest : List Char} (blank : ∀ c ∈ indent, isAsciiSpace c = true) :
      ToolLine (indent ++ ("////".toList ++ rest)) (trim rest)

variable {line text : List Char}

/-- The space that is dropped behind the slashes would be trimmed. -/
theorem trim_dropped (c : Char) (cs : List Char) :
    trim (if isAsciiSpace c then cs else c :: cs) = trim (c :: cs) := by
  split
  · rename_i hc
    have hblank : isBlank [c] = true := by simp [isBlank, isSpace_of_isAsciiSpace hc]
    exact (trim_isBlank_append hblank cs).symm
  · rfl

theorem toolLine_iff :
    ToolLine line text ↔ ∃ content, toolText? line = some content ∧ trim content = text := by
  unfold toolText?
  constructor
  · rintro ⟨blank⟩
    rename_i indent rest
    rw [List.dropWhile_append_of_pos blank]
    cases rest with
    | nil => exact ⟨[], rfl, rfl⟩
    | cons c cs => exact ⟨_, rfl, trim_dropped c cs⟩
  · rintro ⟨content, hcontent, rfl⟩
    obtain ⟨rest, hrest, rfl⟩ := Option.map_eq_some_iff.1 hcontent
    have hblank (c : Char) (hc : c ∈ line.takeWhile isAsciiSpace) : isAsciiSpace c = true :=
      List.mem_takeWhile_imp hc
    rw [← List.takeWhile_append_dropWhile (p := isAsciiSpace) (l := line),
      afterLead?_eq_some_iff.1 hrest]
    cases rest with
    | nil => exact .intro hblank
    | cons c cs => exact trim_dropped c cs ▸ .intro hblank

namespace LineKind

variable {d : Directive}

theorem read_eq_marker_iff :
    read line = .ok (.marker d) ↔ ∃ text, ToolLine line text ∧ d.bracket.Spelled text ∧ d.Named := by
  constructor
  · intro h
    unfold read at h
    split at h
    · rename_i content hcontent
      split at h
      · rename_i directive hdirective
        cases h
        obtain ⟨b, hb, hd⟩ := Option.map_eq_some_iff.1 hdirective
        obtain ⟨rfl, named⟩ := Bracket.directive_eq_ok_iff.1 hd
        exact ⟨_, toolLine_iff.2 ⟨content, hcontent, rfl⟩, Bracket.read?_eq_some_iff.1 hb, named⟩
      · cases h
      · cases h
    · split at h <;> cases h
  · rintro ⟨text, hline, spelled, named⟩
    obtain ⟨content, hcontent, rfl⟩ := toolLine_iff.1 hline
    have hdirective : Directive.read? (trim content) = some (.ok d) :=
      Option.map_eq_some_iff.2 ⟨d.bracket, Bracket.read?_eq_some_iff.2 spelled,
        Bracket.directive_eq_ok_iff.2 ⟨rfl, named⟩⟩
    unfold read
    rw [hcontent]
    dsimp only
    rw [hdirective]

theorem read_eq_malformed_iff {cause : Cause} :
    read line = .error cause ↔ ∃ text b flaw, ToolLine line text ∧ Bracket.Spelled b text ∧
      b.directive = .error flaw ∧ cause = .malformedDirective (.ofList text) flaw := by
  rw [IgnoredBlocks.read_eq_error_iff]
  constructor
  · rintro ⟨content, flaw, hcontent, hflaw, rfl⟩
    obtain ⟨b, hb, hflaw⟩ := Option.map_eq_some_iff.1 hflaw
    exact ⟨_, b, flaw, toolLine_iff.2 ⟨content, hcontent, rfl⟩, Bracket.read?_eq_some_iff.1 hb, hflaw,
      rfl⟩
  · rintro ⟨text, b, flaw, hline, spelled, hflaw, rfl⟩
    obtain ⟨content, hcontent, rfl⟩ := toolLine_iff.1 hline
    exact ⟨content, flaw, hcontent,
      Option.map_eq_some_iff.2 ⟨b, Bracket.read?_eq_some_iff.2 spelled, hflaw⟩, rfl⟩

end LineKind

/-- A directive with tabs and spaces around its parts is spelled in the line. -/
theorem Directive.Named.exists_toolLine {d : Directive} (named : d.Named)
    (spaced : Spaced ("////" :: d.parts) line) :
    ∃ text, ToolLine line text ∧ d.bracket.Spelled text := by
  rw [d.parts_eq] at spaced
  cases spaced with
  | @cons indent _ _ _ hindent hparts =>
    cases hparts with
    | @cons gap cs _ _ hgap hinside =>
      obtain ⟨parts, hends⟩ := Bracket.exists_inside_eq d.bracket.closing d.bracket.word
        d.bracket.argument
      rw [hends] at hinside
      obtain ⟨body, after, rfl, hafter, hbody, hlast⟩ := hinside.exists_body
      have htrim : trim (gap ++ ("[".toList ++ (body ++ after))) = '[' :: body := by
        rw [trim_isBlank_append (isBlank_of_isTabOrSpace hgap), ← List.append_assoc,
          trim_append_of_isBlank _ (isBlank_of_isTabOrSpace hafter)]
        refine trim_eq_self ?_ ?_
        · rintro _ ⟨⟩
          rfl
        · obtain ⟨front, rfl⟩ := hlast
          have hclose : ("[".toList ++ (front ++ "]".toList)).getLast? = some ']' := by
            rw [← List.append_assoc]
            exact List.getLast?_concat
          rw [hclose]
          rintro _ ⟨⟩
          rfl
      refine ⟨'[' :: body, ?_, named.spelled (hends ▸ hbody)⟩
      rw [← htrim]
      exact .intro fun c hc => isAsciiSpace_of_isTabOrSpace (hindent c hc)

/-- **Directives are the lines that are written as directives.** With tabs and spaces anywhere around
its parts a directive is read as its marker, every marker has a name of the right form, and a tool
comment that has the form of a directive is a marker or a fault. -/
theorem LineKind.read_directives (line : List Char) :
    (∀ d : Directive, d.Named → Spaced ("////" :: d.parts) line → read line = .ok (.marker d)) ∧
      (∀ d : Directive, read line = .ok (.marker d) → d.Named) ∧
      ∀ (text : List Char) (b : Bracket), ToolLine line text → b.Spelled text →
        (∃ d, read line = .ok (.marker d)) ∨
          ∃ flaw, read line = .error (.malformedDirective (.ofList text) flaw) := by
  refine ⟨fun d named spaced => ?_, fun d h => ?_, fun text b hline spelled => ?_⟩
  · obtain ⟨text, hline, spelled⟩ := named.exists_toolLine spaced
    exact read_eq_marker_iff.2 ⟨text, hline, spelled, named⟩
  · obtain ⟨text, -, -, named⟩ := read_eq_marker_iff.1 h
    exact named
  · cases hb : b.directive with
    | ok d =>
      obtain ⟨rfl, named⟩ := Bracket.directive_eq_ok_iff.1 hb
      exact .inl ⟨d, read_eq_marker_iff.2 ⟨text, hline, spelled, named⟩⟩
    | error flaw =>
      exact .inr ⟨flaw, read_eq_malformed_iff.2 ⟨text, b, flaw, hline, spelled, hb, rfl⟩⟩

/-- A name with a hyphen between tabs and spaces, and an inject that ends. -/
theorem LineKind.read_directives_hyphen :
    Directive.Named (.opens .snippet "make-it") ∧
      Spaced ("////" :: Directive.parts (.opens .snippet "make-it"))
        "\t//// [ snippet :\tmake-it ] ".toList ∧
      read "\t//// [ snippet :\tmake-it ] ".toList = .ok (.marker (.opens .snippet "make-it")) ∧
      ToolLine "////[/inject]".toList "[/inject]".toList ∧
      Bracket.Spelled ⟨true, .inject, none⟩ "[/inject]".toList ∧
      ((∃ d, read "////[/inject]".toList = .ok (.marker d)) ∨
        ∃ flaw, read "////[/inject]".toList = .error (.malformedDirective "[/inject]" flaw)) := by
  have named : Directive.Named (.opens .snippet "make-it") := by
    rintro _ ⟨⟩
    decide
  have spaced : Spaced ("////" :: Directive.parts (.opens .snippet "make-it"))
      "\t//// [ snippet :\tmake-it ] ".toList := by
    refine (spaced_cons_iff (by decide)).2 ⟨_, rfl, ?_⟩
    refine (spaced_cons_iff (by decide)).2 ⟨_, rfl, ?_⟩
    refine (spaced_cons_iff (by decide)).2 ⟨_, rfl, ?_⟩
    refine (spaced_cons_iff (by decide)).2 ⟨_, rfl, ?_⟩
    refine (spaced_cons_iff (by decide)).2 ⟨_, rfl, ?_⟩
    exact (spaced_cons_iff (by decide)).2 ⟨_, rfl, spaced_nil_iff.2 rfl⟩
  have hline : ToolLine "////[/inject]".toList "[/inject]".toList := toolLine_iff.2 ⟨_, rfl, rfl⟩
  have spelled : Bracket.Spelled ⟨true, .inject, none⟩ "[/inject]".toList :=
    Bracket.read?_eq_some_iff.1 (by decide)
  exact ⟨named, spaced, (read_directives _).1 _ named spaced, hline, spelled,
    (read_directives _).2.2 _ _ hline spelled⟩

end AnnotatedHeader
