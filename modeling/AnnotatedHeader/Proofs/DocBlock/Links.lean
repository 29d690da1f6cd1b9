import AnnotatedHeader.Proofs.DocBlock.Parts
import Mathlib.Data.List.TakeWhile

/-! Links as they may be written.

`Linked` is the form of a text with links in it: between them and around them anything but an
opening bracket, in them white space wherever it may stand. `Linked.filterMap_scan` says that the
scanner takes from such a text its links, each with its kind and its path, and nothing else. -/
namespace AnnotatedHeader

open Text

/-! ### White space and words -/

theorem Text.isSpace_of_isIdentRest {c : Char} (h : isIdentRest c = true) : isSpace c = false := by
  delta isIdentRest Char.isAlpha Char.isUpper Char.isLower Char.isDigit at h
  simp only [Bool.or_eq_true, Bool.and_eq_true, decide_eq_true_eq, beq_iff_eq, ge_iff_le,
    UInt32.le_iff_toNat_le] at h
  have hrange : 32 < c.toNat ∧ c.toNat < 128 := by
    rcases h with ((h | h) | h) | rfl
    · exact ⟨Nat.lt_of_lt_of_le (by decide) h.1, Nat.lt_of_le_of_lt h.2 (by decide)⟩
    · exact ⟨Nat.lt_of_lt_of_le (by decide) h.1, Nat.lt_of_le_of_lt h.2 (by decide)⟩
    · exact ⟨Nat.lt_of_lt_of_le (by decide) h.1, Nat.lt_of_le_of_lt h.2 (by decide)⟩
    · decide
  simp [isSpace]
  omega

/-- No white space is part of a word. -/
theorem Text.isSpace_of_isWord {c : Char} (h : isWord c = true) : isSpace c = false := by
  unfold isWord at h
  split at h
  · exact isSpace_of_isIdentRest h
  · rename_i hwide
    have hcodes : ∀ n ∈ [0x85, 0xa0, 0x1680, 0x2000, 0x2001, 0x2002, 0x2003, 0x2004, 0x2005, 0x2006,
        0x2007, 0x2008, 0x2009, 0x200a, 0x2028, 0x2029, 0x202f, 0x205f, 0x3000],
        inRanges wordRanges n = false := by
      decide +kernel
    simp only [List.mem_cons, List.not_mem_nil, or_false] at hcodes
    by_contra hspace
    simp only [isSpace, Bool.not_eq_false, Bool.or_eq_true, Bool.and_eq_true, decide_eq_true_eq,
      beq_iff_eq] at hspace
    rw [hcodes c.toNat (by omega)] at h
    cases h

/-- White space where a link may have some. -/
def Text.IsGap (cs : List Char) : Prop := ∀ c ∈ cs, isAsciiSpace c = true

def Text.IsWordRun (cs : List Char) : Prop := cs ≠ [] ∧ ∀ c ∈ cs, isWord c = true

namespace Link

/-! ### The form of a link -/

/-- Words with `::` between them. -/
inductive IsPath : List Char → Prop where
  | word {w : List Char} (hw : IsWordRun w) : IsPath w
  | cons {w gap gap' path : List Char} (hw : IsWordRun w) (hgap : IsGap gap) (hgap' : IsGap gap')
      (hpath : IsPath path) : IsPath (w ++ gap ++ [':', ':'] ++ gap' ++ path)

/-- A link to a path, `kind` being what it asks for. -/
inductive Written (kind : Kind) (path : List Char) : List Char → Prop where
  | intro {g₁ g₂ g₃ g₄ g₅ g₆ : List Char} (known : kind ∈ Kind.referable) (isPath : IsPath path)
      (h₁ : IsGap g₁) (h₂ : IsGap g₂) (h₃ : IsGap g₃) (h₄ : IsGap g₄) (h₅ : IsGap g₅)
      (h₆ : IsGap g₆) : Written kind path
        (['[', '\x60'] ++ g₁ ++ kind.word.toList ++ g₂ ++ [':'] ++ g₃ ++ path ++ g₄ ++
          ['\x60', ']'] ++ g₅ ++ ['('] ++ g₆ ++ [')'])

/-- A text with links in it, for each of which its kind and its path are listed. -/
inductive Linked : List (Kind × List Char) → List Char → Prop where
  | text {t : List Char} (ht : '[' ∉ t) : Linked [] t
  | link {t l rest path : List Char} {kind : Kind} {links : List (Kind × List Char)} (ht : '[' ∉ t)
      (hl : Written kind path l) (hrest : Linked links rest) :
      Linked ((kind, path) :: links) (t ++ (l ++ rest))

/-- The path without the white space in it. -/
def pathName (path : List Char) : String := .ofList (path.filter (!isSpace ·))

variable {gap w cs rest path : List Char} {c : Char} {kind : Kind}

/-! ### Reading its parts -/

theorem skipSpace_append (hgap : IsGap gap) (cs : List Char) : skipSpace (gap ++ cs) = skipSpace cs :=
  List.dropWhile_append_of_pos hgap

theorem skipSpace_gap (hgap : IsGap gap) (hc : isAsciiSpace c = false) (rest : List Char) :
    skipSpace (gap ++ c :: rest) = c :: rest := by
  rw [skipSpace_append hgap, skipSpace, List.dropWhile_cons_of_neg (by simp [hc])]

theorem sign?_gap (hgap : IsGap gap) (hc : isAsciiSpace c = false) (rest : List Char) :
    sign? c (gap ++ c :: rest) = some rest := by
  rw [sign?, skipSpace_gap hgap hc]
  exact if_pos rfl

theorem isAsciiSpace_of_isWord (h : isWord c = true) : isAsciiSpace c = false := by
  by_contra hspace
  have := isSpace_of_isAsciiSpace (by simpa using hspace)
  rw [isSpace_of_isWord h] at this
  cases this

/-- A word is read up to the first character that cannot be part of it. -/
theorem word?_gap (hgap : IsGap gap) (hw : IsWordRun w) (hrest : ∀ c ∈ rest.head?, isWord c = false) :
    word? (gap ++ (w ++ rest)) = some (w, rest) := by
  obtain ⟨hne, hword⟩ := hw
  have hskip : skipSpace (gap ++ (w ++ rest)) = w ++ rest := by
    rw [skipSpace_append hgap]
    obtain ⟨c, w, rfl⟩ := List.exists_cons_of_ne_nil hne
    rw [skipSpace, List.cons_append, List.dropWhile_cons_of_neg
      (by simp [isAsciiSpace_of_isWord (hword c List.mem_cons_self)])]
  have hstop : rest.takeWhile isWord = [] ∧ rest.dropWhile isWord = rest := by
    cases rest with
    | nil => exact ⟨rfl, rfl⟩
    | cons c rest => simp [hrest c rfl]
  have htake : (w ++ rest).takeWhile isWord = w := by
    rw [List.takeWhile_append_of_pos hword, hstop.1, List.append_nil]
  have hdrop : (w ++ rest).dropWhile isWord = rest := by
    rw [List.dropWhile_append_of_pos hword, hstop.2]
  unfold word?
  simp only [hskip, htake, hdrop]
  exact if_neg (by simpa using hne)

/-- What follows a word is no part of it: a gap, or the sign behind the gap. -/
theorem head?_gap (hgap : IsGap gap) (hc : isWord c = false) (rest : List Char) :
    ∀ d ∈ (gap ++ c :: rest).head?, isWord d = false := by
  intro d hd
  cases gap with
  | nil =>
    cases hd
    exact hc
  | cons e gap =>
    cases hd
    cases hword : isWord d with
    | false => rfl
    | true =>
      have hspace := hgap d List.mem_cons_self
      rw [isAsciiSpace_of_isWord hword] at hspace
      cases hspace

theorem segments_of_end (h : skipSpace cs = '\x60' :: rest) : segments cs = ([], cs) := by
  rw [segments]
  split
  · rename_i hs
    rw [h] at hs
    cases hs
  · rfl

theorem segments_of_word {tail : List Char} (h : skipSpace cs = ':' :: ':' :: rest)
    (hword : word? rest = some (w, tail)) :
    segments cs = (w :: (segments tail).1, (segments tail).2) := by
  rw [segments]
  split
  · rename_i rest' hs
    rw [h] at hs
    cases hs
    split
    · rename_i hread
      rw [hword] at hread
      cases hread
      rfl
    · rename_i hread
      rw [hword] at hread
      cases hread
  · rename_i hs
    exact absurd h (hs rest)

theorem filter_word (hw : IsWordRun w) : w.filter (!isSpace ·) = w :=
  List.filter_eq_self.2 fun c hc => by simp [isSpace_of_isWord (hw.2 c hc)]

theorem filter_gap (hgap : IsGap gap) : gap.filter (!isSpace ·) = [] :=
  List.filter_eq_nil_iff.2 fun c hc => by simp [isSpace_of_isAsciiSpace (hgap c hc)]

theorem pathName_word (hw : IsWordRun w) : pathName w = .ofList w := by
  rw [pathName, filter_word hw]

theorem pathName_cons {gap' : List Char} (hw : IsWordRun w) (hgap : IsGap gap) (hgap' : IsGap gap')
    (path : List Char) :
    pathName (w ++ gap ++ [':', ':'] ++ gap' ++ path) = .ofList w ++ "::" ++ pathName path := by
  have hsign : [':', ':'].filter (!isSpace ·) = [':', ':'] := by decide
  unfold pathName
  simp only [List.filter_append, filter_word hw, filter_gap hgap, filter_gap hgap', hsign,
    List.append_nil, String.ofList_append]

/-- A path is read as its words, up to the sign behind it. -/
theorem IsPath.read (h : IsPath path) (hgap : IsGap gap) {gap' : List Char} (hgap' : IsGap gap')
    (rest : List Char) :
    ∃ first more cs, word? (gap ++ (path ++ (gap' ++ '\x60' :: rest))) = some (first, cs) ∧
      segments cs = (more, gap' ++ '\x60' :: rest) ∧
        "::".intercalate ((first :: more).map .ofList) = pathName path := by
  induction h generalizing gap with
  | @word w hw =>
    refine ⟨w, [], _, word?_gap hgap hw (head?_gap hgap' (by decide) rest), ?_, ?_⟩
    · exact segments_of_end (skipSpace_gap hgap' (by decide) rest)
    · rw [pathName_word hw]
      exact String.intercalate_singleton
  | @cons w g g' path hw hg hg' hpath ih =>
    obtain ⟨first, more, cs, hword, hsegments, hname⟩ := ih hg'
    refine ⟨w, first :: more, g ++ ':' :: ':' :: (g' ++ (path ++ (gap' ++ '\x60' :: rest))), ?_, ?_, ?_⟩
    · simpa using word?_gap hgap hw (head?_gap hg (by decide) _)
    · rw [segments_of_word (skipSpace_gap hg (by decide) _) hword, hsegments]
    · rw [pathName_cons hw hg hg', ← hname]
      exact String.intercalate_cons_cons

/-- A link is read with its kind's word and its path. -/
theorem Written.read? (h : Written kind path cs) (rest : List Char) :
    ∃ tail, cs = '[' :: tail ∧ Link.read? (tail ++ rest) = some (⟨kind.word, pathName path⟩, rest) := by
  cases h with
  | @intro g₁ g₂ g₃ g₄ g₅ g₆ known isPath h₁ h₂ h₃ h₄ h₅ h₆ =>
    have hkind : IsWordRun kind.word.toList := by
      refine ⟨by cases kind <;> simp [Kind.word], List.all_eq_true.1 ?_⟩
      cases kind <;> decide
    obtain ⟨first, more, cs, hfirst, hmore, hname⟩ :=
      isPath.read h₃ h₄ (']' :: (g₅ ++ '(' :: (g₆ ++ ')' :: rest)))
    have hhint := word?_gap h₁ hkind (head?_gap (c := ':') h₂ (by decide)
      (g₃ ++ (path ++ (g₄ ++ '\x60' :: ']' :: (g₅ ++ '(' :: (g₆ ++ ')' :: rest))))))
    refine ⟨'\x60' :: (g₁ ++ (kind.word.toList ++ (g₂ ++ ':' :: (g₃ ++ (path ++ (g₄ ++ '\x60' :: ']' ::
      (g₅ ++ '(' :: (g₆ ++ [')'])))))))), by simp, ?_⟩
    simp only [List.append_assoc, List.cons_append, List.nil_append]
    have hcolon := sign?_gap (c := ':') h₂ (by decide)
      (g₃ ++ (path ++ (g₄ ++ '\x60' :: ']' :: (g₅ ++ '(' :: (g₆ ++ ')' :: rest)))))
    have hend := sign?_gap (c := '\x60') h₄ (by decide) (']' :: (g₅ ++ '(' :: (g₆ ++ ')' :: rest)))
    have hopen := sign?_gap (c := '(') h₅ (by decide) (g₆ ++ ')' :: rest)
    have hclose := sign?_gap (c := ')') h₆ (by decide) rest
    unfold Link.read?
    simp only [Option.bind_eq_bind, hhint, hcolon, hfirst, hmore, hend, hopen, hclose,
      Option.bind_some, Option.pure_def, hname, String.ofList_toList]

theorem scan_append_of_not_mem (h : '[' ∉ cs) (rest : List Char) : scan (cs ++ rest) = scan rest := by
  induction cs with
  | nil => rfl
  | cons c cs ih =>
    obtain ⟨hc, hcs⟩ := not_or.1 (mt List.mem_cons.2 h)
    rw [List.cons_append, scan, if_neg (Ne.symm hc), ih hcs]

/-- What a link that is read comes to. -/
def referenceTo (line : Nat) (link : Kind × List Char) : CrossReference :=
  ⟨link.1, pathName link.2, line, none⟩

/-- Of a text with links in it the links are read, in order, and nothing else. -/
theorem Linked.filterMap_scan {links : List (Kind × List Char)} (h : Linked links cs) (line : Nat) :
    (scan cs).filterMap (·.reference? line) = links.map (referenceTo line) := by
  induction h with
  | text ht =>
    have hscan := scan_append_of_not_mem ht []
    rw [List.append_nil] at hscan
    rw [hscan, scan]
    rfl
  | @link t l rest path kind links ht hl hrest ih =>
    obtain ⟨tail, rfl, hread⟩ := hl.read? rest
    have hknown : Kind.ofHint? kind.word = some kind := by
      cases hl with
      | intro known => exact Kind.ofHint?_eq_some_iff.2 ⟨known, rfl⟩
    rw [scan_append_of_not_mem ht, List.cons_append, scan_of_read? hread, List.filterMap_cons_some
      (by rw [reference?, hknown, Option.map_some]), ih]
    rfl

end Link

end AnnotatedHeader
