import AnnotatedHeader.Proofs.Document.ParamLines
import AnnotatedHeader.Proofs.Scope.Takes

/-! Visibility labels.

A record's members are printed one level deeper than its labels, and so is everything printed
of them: whoever reads a record's body line by line knows its labels from those of the records
inside it. `Labelled` says that such a reader, who starts as the parser starts in a body and
switches where the parser does, meets each member with that member's visibility. The parser
switches at labels only (`Scope.keeps_of_turn`), and the two agree in every record that is
printed, however deep (`Declaration.labels_agree`). -/
namespace AnnotatedHeader

/-! ### The parser's visibility -/

namespace Scope

/-- The visibility that an item sets for what follows it, if it is a label. -/
def labelOf? : Piece → List Piece → Option Visibility
  | .token t, ps => if t.kind = .ident then label? t ps else none
  | _, _ => none

/-- Whatever a scope goes on with behind the turn has this visibility. -/
def Turn.Keeps (v : Visibility) : Turn → Prop
  | .closes _ => True
  | .continues b _ => b.visibility = v
  | .opens _ frame _ => ∀ found, (frame.resumed found).visibility = v

theorem State.visibility_added (b : State) (d : Declaration) :
    (b.added d).visibility = b.visibility := by
  unfold added
  split <;> rfl

theorem State.visibility_foldl_added (b : State) (ds : List Declaration) :
    (ds.foldl added b).visibility = b.visibility := by
  induction ds generalizing b with
  | nil => rfl
  | cons d ds ih => rw [List.foldl_cons, ih, visibility_added]

theorem Declares.keeps {s : Scope} {b : State} {ps : List Piece} {u : Turn}
    (h : Declares s b ps u) : u.Keeps b.visibility := by
  cases h with
  | passesOver => rfl
  | opensRecord => exact fun _ => State.visibility_added ..
  | readsEnum | skipsBody => exact State.visibility_added ..
  | announces => exact State.visibility_foldl_added ..

/-- **Labels set a scope's visibility, and nothing else does**: not what it declares, nor the
scopes inside it. -/
theorem keeps_of_turn {s : Scope} {b : State} {p : Piece} {ps : List Piece} {u : Turn}
    (h : (turn s b p ps).result = .ok u) : u.Keeps ((labelOf? p ps).getD b.visibility) := by
  have hno {t : Token} {w : Word} (is : t.kind = .ident → word t ps = w) (hw : ∀ v, w ≠ .label v) :
      (labelOf? (.token t) ps).getD b.visibility = b.visibility := by
    rw [labelOf?]
    split
    · rename_i kind
      cases hlabel : label? t ps with
      | none => rfl
      | some v => exact absurd ((is kind).symm.trans (word_eq_label_iff.2 hlabel)) (hw v)
    · rfl
  cases takes_of_turn h with
  | doc | inject => rfl
  | closes => trivial
  | passes t _ why =>
    rw [hno (w := .inlined) (fun kind => ?_) nofun]
    · rfl
    · rcases why with ⟨hkind, -⟩ | hkind | ⟨-, is⟩
      · cases kind.symm.trans hkind
      · cases kind.symm.trans hkind
      · exact is
  | label kind is =>
    rw [labelOf?, if_pos kind, word_eq_label_iff.1 is]
    rfl
  | template _ is | aliases _ is | endsNamespaceHead _ is | annotates _ is
  | passesOverKeyword _ is | calls _ is =>
    rw [hno (fun _ => is) nofun]
    rfl
  | opensNamespace _ is | opensLinkage _ is =>
    rw [hno (fun _ => is) nofun]
    exact fun _ => rfl
  | declares _ is declares =>
    rw [hno is nofun]
    exact declares.keeps

end Scope

/-! ### Reading lines -/

/-- How many tabs a line starts with. -/
def depthOf (line : String) : Nat := (line.toList.takeWhile (· == '\t')).length

/-- The visibility that a line at this depth sets, by the parser's rule for labels. -/
def labelAt? (depth : Nat) (line : String) : Option Visibility :=
  if depthOf line = depth then
    match (Token.tokenize line 1).map .token with
    | p :: ps => Scope.labelOf? p ps
    | [] => none
  else none

/-- The visibility behind lines, from the one in front of them. -/
def visibilityBehind (depth : Nat) (v : Visibility) (lines : List String) : Visibility :=
  lines.foldl (fun v line => (labelAt? depth line).getD v) v

theorem visibilityBehind_append (depth : Nat) (v : Visibility) (ls ms : List String) :
    visibilityBehind depth v (ls ++ ms) = visibilityBehind depth (visibilityBehind depth v ls) ms :=
  List.foldl_append ..

theorem visibilityBehind_of_no_label {depth : Nat} {lines : List String}
    (h : ∀ line ∈ lines, labelAt? depth line = none) (v : Visibility) :
    visibilityBehind depth v lines = v := by
  induction lines with
  | nil => rfl
  | cons line lines ih =>
    obtain ⟨hline, hlines⟩ := List.forall_mem_cons.1 h
    unfold visibilityBehind
    rw [List.foldl_cons, hline]
    exact ih hlines

/-- The line that sets a visibility in a body at this depth. -/
def labelLine (depth : Nat) (v : Visibility) : String := indented depth (v.word ++ ":")

theorem le_depthOf_indented (depth : Nat) (text : String) :
    depth ≤ depthOf (indented depth text) := by
  unfold depthOf
  rw [toList_indented, List.takeWhile_append_of_pos (by simp), List.length_append,
    List.length_replicate]
  exact Nat.le_add_right ..

theorem depthOf_labelLine (depth : Nat) (v : Visibility) : depthOf (labelLine depth v) = depth := by
  have hword : ((v.word ++ ":").toList.takeWhile (· == '\t')).length = 0 := by
    cases v <;> decide
  unfold depthOf labelLine
  rw [toList_indented, List.takeWhile_append_of_pos (by simp), List.length_append,
    List.length_replicate, hword, Nat.add_zero]

/-- A label is read as its word and a colon. -/
theorem exists_tokenize_labelLine (depth : Nat) (v : Visibility) :
    ∃ t colon, Token.tokenize (labelLine depth v) 1 = [t, colon] ∧ t.kind = .ident ∧
      t.text = v.word ∧ colon.kind = .colon := by
  have hshapes : (Token.tokenize (labelLine depth v) 1).map Token.shape =
      [(.ident, v.word), (.colon, ":")] := by
    rw [Token.map_shape_tokenize, labelLine, toList_indented,
      Lexeme.shapes_gaps (isGap_of_mem_replicate depth)]
    cases v <;> cbv
  obtain ⟨t, ts, hts, ht, hrest⟩ := List.map_eq_cons_iff.1 hshapes
  obtain ⟨colon, tail, rfl, hcolon, hnil⟩ := List.map_eq_cons_iff.1 hrest
  rw [List.map_eq_nil_iff.1 hnil] at hts
  exact ⟨t, colon, hts, congrArg Prod.fst ht, congrArg Prod.snd ht, congrArg Prod.fst hcolon⟩

theorem label?_of_word {t colon : Token} {v : Visibility} (htext : t.text = v.word)
    (hcolon : colon.kind = .colon) (rest : List Piece) :
    Scope.label? t (.token colon :: rest) = some v := by
  have hnext : Scope.nextIs 0 .colon (.token colon :: rest) = true := by
    simp [Scope.nextIs, Piece.hasKind, hcolon]
  rw [Scope.label?, if_pos hnext, htext]
  cases v <;> decide

theorem labelAt?_labelLine (depth : Nat) (v : Visibility) :
    labelAt? depth (labelLine depth v) = some v := by
  obtain ⟨t, colon, htokens, hkind, htext, hcolon⟩ := exists_tokenize_labelLine depth v
  rw [labelAt?, if_pos (depthOf_labelLine depth v), htokens]
  show Scope.labelOf? (.token t) [.token colon] = some v
  rw [Scope.labelOf?, if_pos hkind]
  exact label?_of_word htext hcolon []

/-- The parser of a scope goes on behind a label with the visibility that it sets. -/
theorem turn_labelLine (depth : Nat) (v : Visibility) :
    ∃ t colon, Token.tokenize (labelLine depth v) 1 = [t, colon] ∧ ∀ s b rest,
      (Scope.turn s b (.token t) (.token colon :: rest)).result =
        .ok (.continues { b with visibility := v } rest) := by
  obtain ⟨t, colon, htokens, hkind, htext, hcolon⟩ := exists_tokenize_labelLine depth v
  exact ⟨t, colon, htokens, fun s b rest => Scope.turn_of_takes
    (.label hkind (Scope.word_eq_label_iff.2 (label?_of_word htext hcolon rest)))⟩

/-! ### Deeper lines -/

/-- An empty line, or one at a depth of at least `n`. -/
def IsDeep (n : Nat) (line : String) : Prop :=
  line = "" ∨ ∃ depth text, n ≤ depth ∧ line = indented depth text

theorem isDeep_indented (depth : Nat) (text : String) : IsDeep depth (indented depth text) :=
  .inr ⟨depth, text, Nat.le_refl depth, rfl⟩

theorem IsDeep.mono {n k : Nat} {line : String} (h : IsDeep k line) (hle : n ≤ k) : IsDeep n line :=
  h.imp_right fun ⟨depth, text, hdepth, heq⟩ => ⟨depth, text, Nat.le_trans hle hdepth, heq⟩

/-- Nothing that is deeper is a label. -/
theorem IsDeep.labelAt? {n : Nat} {line : String} (h : IsDeep (n + 1) line) :
    labelAt? n line = none := by
  rcases h with rfl | ⟨depth, text, hdepth, rfl⟩
  · have htokens : Token.tokenize "" 1 = [] := by cbv
    unfold AnnotatedHeader.labelAt?
    rw [htokens]
    exact ite_self _
  · refine if_neg fun hn => ?_
    have hle := le_depthOf_indented depth text
    omega

theorem isDeep_of_mem_docLines {depth : Nat} {doc : Option DocBlock} :
    ∀ line ∈ docLines depth doc, IsDeep depth line := by
  cases doc with
  | none => simp [docLines]
  | some b =>
    intro line hline
    obtain ⟨text, -, rfl⟩ := List.mem_map.1 hline
    exact isDeep_indented ..

theorem Param.isDeep_of_mem_headerLines {depth : Nat} {ps : List Param} :
    ∀ line ∈ headerLines depth ps, IsDeep depth line := by
  induction ps with
  | nil => simp [headerLines]
  | cons p ps ih =>
    rw [headerLines, List.forall_mem_append, List.forall_mem_cons]
    exact ⟨isDeep_of_mem_docLines, isDeep_indented .., ih⟩

theorem FunctionShape.isDeep_of_mem_headerLines {depth : Nat} {name : String}
    {shape : FunctionShape} : ∀ line ∈ shape.headerLines depth name, IsDeep depth line := by
  unfold headerLines
  rw [List.forall_mem_append, List.forall_mem_cons, List.forall_mem_singleton]
  exact ⟨⟨isDeep_indented .., fun line hline =>
    (Param.isDeep_of_mem_headerLines line hline).mono (Nat.le_succ depth)⟩, isDeep_indented ..⟩

namespace Declaration

theorem isDeep_of_mem_leadLines {depth : Nat} {own : Declared} :
    ∀ line ∈ leadLines depth own, IsDeep depth line := by
  unfold leadLines
  rw [List.forall_mem_append, List.forall_mem_append]
  refine ⟨⟨isDeep_of_mem_docLines, ?_⟩, ?_⟩
  · cases own.reflection with
    | none => simp
    | some r => exact List.forall_mem_singleton.2 (isDeep_indented ..)
  · cases own.template with
    | none => simp
    | some text => exact List.forall_mem_singleton.2 (isDeep_indented ..)

theorem isDeep_of_mem_variantLines {depth : Nat} {d : Declaration} :
    ∀ line ∈ variantLines depth d, IsDeep depth line := by
  unfold variantLines
  rw [List.forall_mem_append, List.forall_mem_singleton]
  exact ⟨isDeep_of_mem_docLines, isDeep_indented ..⟩

theorem isDeep_of_mem_bodied {depth : Nat} {signature : String} {body : List String}
    (hbody : ∀ line ∈ body, IsDeep depth line) :
    ∀ line ∈ bodied depth signature body, IsDeep depth line := by
  unfold bodied
  rw [List.forall_mem_append, List.forall_mem_cons, List.forall_mem_cons, List.forall_mem_singleton]
  exact ⟨⟨isDeep_indented .., isDeep_indented .., hbody⟩, isDeep_indented ..⟩

theorem isDeep_of_mem_memberLines {members : List Declaration}
    (each : ∀ m ∈ members, ∀ depth, ∀ line ∈ headerLines depth m, IsDeep depth line)
    (depth : Nat) (current : Visibility) (isFirst : Bool) :
    ∀ line ∈ memberLines depth current isFirst members, IsDeep depth line := by
  induction members generalizing current isFirst with
  | nil => simp [memberLines]
  | cons m ms ih =>
    obtain ⟨hm, hms⟩ := List.forall_mem_cons.1 each
    rw [memberLines, List.forall_mem_append, List.forall_mem_append]
    refine ⟨⟨?_, fun line hline => (hm _ line hline).mono (Nat.le_succ depth)⟩, ih hms _ _⟩
    split
    · exact List.forall_mem_singleton.2 (isDeep_indented ..)
    · split
      · simp
      · exact List.forall_mem_singleton.2 (.inl rfl)

/-- **What is printed of a declaration** is nowhere less deep than the declaration. -/
theorem isDeep_of_mem_headerLines {depth : Nat} {d : Declaration} :
    ∀ line ∈ headerLines depth d, IsDeep depth line := by
  induction d using Declaration.induction generalizing depth with
  | step own members ih =>
    have hplain : ∀ line ∈ [indented depth (terminated own.signature)], IsDeep depth line :=
      List.forall_mem_singleton.2 (isDeep_indented ..)
    rw [headerLines, List.forall_mem_append]
    refine ⟨isDeep_of_mem_leadLines, ?_⟩
    cases own.item with
    | enumeration shape =>
      dsimp only
      split
      · refine isDeep_of_mem_bodied fun line hline => ?_
        obtain ⟨m, -, hline⟩ := List.mem_flatMap.1 hline
        exact (isDeep_of_mem_variantLines line hline).mono (Nat.le_succ depth)
      · exact hplain
    | record key shape =>
      dsimp only
      split
      · exact isDeep_of_mem_bodied (isDeep_of_mem_memberLines (fun m hm _ => ih m hm) _ _ _)
      · exact hplain
    | function shape =>
      dsimp only
      split
      · exact FunctionShape.isDeep_of_mem_headerLines
      · exact hplain
    | property | variant => exact hplain

/-! ### Bodies -/

/-- The lines print the members, and whoever reads them from the visibility `v` on meets each
member with its own. Between two members there is one line at most. -/
inductive Labelled (depth : Nat) : Visibility → List Declaration → List String → Prop where
  | nil (v : Visibility) : Labelled depth v [] []
  | cons {v : Visibility} {m : Declaration} {ms : List Declaration} {gap lines : List String}
      (short : gap.length ≤ 1) (met : visibilityBehind depth v gap = m.visibility)
      (more : Labelled depth (visibilityBehind depth v (gap ++ headerLines (depth + 1) m)) ms
        lines) :
      Labelled depth v (m :: ms) (gap ++ headerLines (depth + 1) m ++ lines)

theorem labelled_memberLines (depth : Nat) (v : Visibility) (isFirst : Bool)
    (members : List Declaration) :
    Labelled depth v members (memberLines depth v isFirst members) := by
  induction members generalizing v isFirst with
  | nil => exact .nil v
  | cons m ms ih =>
    rw [memberLines]
    generalize hgap : (if m.visibility ≠ v then [indented depth (m.visibility.word ++ ":")]
      else if isFirst then [] else [""]) = gap
    have hmet : gap.length ≤ 1 ∧ visibilityBehind depth v gap = m.visibility := by
      rw [← hgap]
      split
      · refine ⟨Nat.le_refl 1, ?_⟩
        show (AnnotatedHeader.labelAt? depth (labelLine depth m.visibility)).getD v = m.visibility
        rw [labelAt?_labelLine]
        rfl
      · rename_i hsame
        rw [ne_eq, Decidable.not_not] at hsame
        rw [hsame]
        split
        · exact ⟨Nat.zero_le 1, rfl⟩
        · refine ⟨Nat.le_refl 1, visibilityBehind_of_no_label ?_ v⟩
          exact List.forall_mem_singleton.2 (IsDeep.labelAt? (.inl rfl))
    -- The member's own labels are deeper and change nothing.
    have hbehind : visibilityBehind depth v (gap ++ headerLines (depth + 1) m) = m.visibility := by
      rw [visibilityBehind_append, hmet.2]
      exact visibilityBehind_of_no_label
        (fun line hline => (isDeep_of_mem_headerLines line hline).labelAt?) _
    exact .cons hmet.1 hmet.2 (hbehind ▸ ih _ _)

/-- At its own level a body holds nothing but labels. -/
theorem eq_labelLine_of_labelAt? {depth : Nat} {current : Visibility} {isFirst : Bool}
    {members : List Declaration} {line : String} {v : Visibility}
    (hline : line ∈ memberLines depth current isFirst members) (h : labelAt? depth line = some v) :
    line = labelLine depth v := by
  induction members generalizing current isFirst with
  | nil => simp [memberLines] at hline
  | cons m ms ih =>
    rw [memberLines] at hline
    rcases List.mem_append.1 hline with hline | hline
    · rcases List.mem_append.1 hline with hline | hline
      · split at hline
        · have hlabel : line = labelLine depth m.visibility := List.mem_singleton.1 hline
          rw [hlabel, labelAt?_labelLine, Option.some.injEq] at h
          rw [hlabel, h]
        · split at hline
          · cases hline
          · rw [IsDeep.labelAt? (.inl (List.mem_singleton.1 hline))] at h
            cases h
      · rw [(isDeep_of_mem_headerLines line hline).labelAt?] at h
        cases h
    · exact ih hline

/-! ### Nested records -/

/-- Printing `d` at the depth `n` prints `r` at the depth `k`, inside the records in between. -/
inductive Prints (r : Declaration) (k : Nat) : Declaration → Nat → Prop where
  | self : Prints r k r k
  | member {d m : Declaration} {n : Nat} {key : RecordKey} {shape : RecordShape}
      (item : d.item = .record key shape) (mem : m ∈ d.members) (inside : Prints r k m (n + 1)) :
      Prints r k d n

theorem headerLines_of_record {d : Declaration} {key : RecordKey} {shape : RecordShape}
    (item : d.item = .record key shape) (hne : d.members ≠ []) (depth : Nat) :
    headerLines depth d = leadLines depth d.toDeclared ++
      bodied depth d.signature (memberLines depth key.visibility true d.members) := by
  obtain ⟨own, members⟩ := d
  have hbody : (shape.hasBody || !members.isEmpty) = true := by
    cases members with
    | nil => exact absurd rfl hne
    | cons => simp
  rw [headerLines]
  dsimp only at item ⊢
  rw [item]
  dsimp only
  rw [if_pos hbody]

theorem Prints.isInfix {d r : Declaration} {n k : Nat} (h : Prints r k d n) :
    headerLines k r <:+: headerLines n d := by
  induction h with
  | self => exact List.infix_rfl
  | @member d m n key shape item mem _ ih =>
    rw [headerLines_of_record item (List.ne_nil_of_mem mem)]
    have hbody : memberLines n key.visibility true d.members <:+:
        bodied n d.signature (memberLines n key.visibility true d.members) :=
      List.infix_append [_, _] _ _
    exact ((ih.trans (headerLines_isInfix_memberLines mem ..)).trans hbody).trans
      (List.suffix_append ..).isInfix

/-- **Printed labels and the parser agree.** In what is printed of any declaration, the body of
a record with members, at whatever depth it stands, is met by a reader who starts as the parser
does in the body of such a record, and switches at the labels of that depth, with the visibility
of each member. Behind each of these labels the parser goes on with the same visibility, and
behind what is no label with the one that it had. -/
theorem labels_agree {d r : Declaration} {n k : Nat} {key : RecordKey} {shape : RecordShape}
    (h : Prints r k d n) (item : r.item = .record key shape) (hne : r.members ≠ []) :
    (∃ above body below, headerLines n d = above ++ bodied k r.signature body ++ below ∧
      Labelled k (Scope.ofRecord r.path r.name key).start.visibility r.members body ∧
      ∀ line ∈ body, ∀ v, labelAt? k line = some v →
        ∃ t colon, Token.tokenize line 1 = [t, colon] ∧ ∀ s b rest,
          (Scope.turn s b (.token t) (.token colon :: rest)).result =
            .ok (.continues { b with visibility := v } rest)) ∧
    ∀ s b p ps u, (Scope.turn s b p ps).result = .ok u →
      u.Keeps ((Scope.labelOf? p ps).getD b.visibility) := by
  obtain ⟨above, below, hlines⟩ := h.isInfix
  rw [headerLines_of_record item hne k, ← List.append_assoc] at hlines
  refine ⟨⟨_, _, below, hlines.symm, labelled_memberLines .., fun line hline v hlabel => ?_⟩,
    fun _ _ _ _ _ => Scope.keeps_of_turn⟩
  rw [eq_labelLine_of_labelAt? hline hlabel]
  exact turn_labelLine k v

/-- A declaration of nothing but its kind, name, visibility and members. -/
def sample (name signature : String) (visibility : Visibility) (item : Item)
    (members : List Declaration) : Declaration :=
  { name, path := name, line := 1, visibility, template := none, reflection := none, signature
    doc := none, item, synthetic := false, members }

/-- A class with a private and a public member. -/
def innerClass : Declaration :=
  sample "C" "class C" .everyone (.record .classKey ⟨none, [], true⟩)
    [sample "A" "int A" .self (.property ⟨"int", none, none, false⟩) [],
      sample "B" "int B" .everyone (.property ⟨"int", none, none, false⟩) []]

/-- A struct with the class in front of a protected member. -/
def outerStruct : Declaration :=
  sample "S" "struct S" .everyone (.record .structKey ⟨none, [], true⟩)
    [innerClass, sample "D" "int D" .derived (.property ⟨"int", none, none, false⟩) []]

/-- The class sets `public`, one level deeper than the struct sets `protected`. -/
theorem labels_agree_nested :
    headerLines 0 outerStruct =
      ["struct S", "\x7b", "\tclass C", "\t\x7b", "\t\tint A;", "\tpublic:", "\t\tint B;",
        "\t\x7d;", "protected:", "\tint D;", "\x7d;"] ∧
    Prints innerClass 1 outerStruct 0 ∧ innerClass.members ≠ [] ∧
    ∃ above body below, headerLines 0 outerStruct =
        above ++ bodied 1 innerClass.signature body ++ below ∧
      Labelled 1 (Scope.ofRecord "C" "C" .classKey).start.visibility innerClass.members body := by
  have hprints : Prints innerClass 1 outerStruct 0 :=
    .member rfl (List.mem_cons_self ..) .self
  have hne : innerClass.members ≠ [] := by simp [innerClass, sample]
  obtain ⟨⟨above, body, below, hlines, hlabelled, -⟩, -⟩ := labels_agree hprints rfl hne
  exact ⟨by decide, hprints, hne, above, body, below, hlines, hlabelled⟩

end Declaration

end AnnotatedHeader
