import AnnotatedHeader.Proofs.Document.OfLines
import AnnotatedHeader.Proofs.SourceLine.Classified
import Mathlib

/-! Ignored text says nothing.

A line strictly inside an ignored block may hold anything that a source may hold
there: `ofSource_eq_of_sameOutside` says that two headers which agree outside their
ignored blocks have one outcome. Every reader of lines answers the same on lines and
on lines `masked`, and headers that agree have the same masked lines
(`map_masked_eq_of_sameOutside`). -/
namespace AnnotatedHeader

/-! ### Lines without what is ignored -/

namespace SourceLine

/-- The line with nothing but its number left if it is ignored. No line keeps its
offset, which nothing reads. -/
def masked (l : SourceLine) : SourceLine :=
  if l.ignored then ⟨l.line, 0, "", .code, true⟩ else { l with offset := 0 }

theorem masked_of_ignored {l : SourceLine} (h : l.ignored = true) :
    l.masked = ⟨l.line, 0, "", .code, true⟩ := by
  simp [masked, h]

theorem masked_of_seen {l : SourceLine} (h : l.ignored = false) :
    l.masked = { l with offset := 0 } := by
  simp [masked, h]

@[simp] theorem line_masked (l : SourceLine) : l.masked.line = l.line := by
  unfold masked
  split <;> rfl

@[simp] theorem isVisible_masked (l : SourceLine) : l.masked.isVisible = l.isVisible := by
  unfold masked isVisible
  split <;> simp_all

theorem masked_of_isVisible {l : SourceLine} (h : l.isVisible = true) :
    l.masked = { l with offset := 0 } := masked_of_seen (by simpa [isVisible] using h)

end SourceLine

open SourceLine

/-! ### Regions -/

namespace Regions

theorem Capture.step_of_ignored (c : Capture) {l : SourceLine} (h : l.ignored = true)
    (hb : ¬ l.kind.IsBorder) : c.step l = .ok c := by
  have hv : l.isVisible = false := by simp [isVisible, h]
  unfold Capture.step
  split
  · rename_i kind name hk
    exact absurd (.inl ⟨kind, name, hk⟩) hb
  · rename_i kind hk
    exact absurd (.inr ⟨kind, hk⟩) hb
  · rfl
  · simp [hv]
  · simp [hv]
  · simp [hv]

theorem Capture.step_masked (c : Capture) {l : SourceLine} (hb : l.ignored = true → ¬ l.kind.IsBorder) :
    c.step l.masked = c.step l := by
  cases h : l.ignored with
  | true =>
    rw [step_of_ignored c h (hb h), masked_of_ignored h]
    rfl
  | false =>
    rw [masked_of_seen h]
    rfl

theorem extract_map_masked {ls : List SourceLine} (hb : ∀ l ∈ ls, l.ignored = true → ¬ l.kind.IsBorder) :
    extract (ls.map masked) = extract ls := by
  have hfold (c : Capture) : (ls.map masked).foldlM Capture.step c = ls.foldlM Capture.step c := by
    induction ls generalizing c with
    | nil => rfl
    | cons l ls ih =>
      rw [List.map_cons, List.foldlM_cons, List.foldlM_cons,
        Capture.step_masked c (hb l (List.mem_cons_self ..))]
      exact congrArg _ (funext fun c' => ih (fun m hm => hb m (List.mem_cons_of_mem _ hm)) c')
  unfold extract
  rw [hfold]

end Regions

/-! ### Comment blocks -/

namespace CommentBlock

theorem filter_isVisible_map_masked (ls : List SourceLine) :
    (ls.map masked).filter (·.isVisible) =
      (ls.filter (·.isVisible)).map fun l => { l with offset := 0 } := by
  induction ls with
  | nil => rfl
  | cons l ls ih =>
    rw [List.map_cons, List.filter_cons, List.filter_cons, isVisible_masked, ih]
    cases h : l.isVisible with
    | true => simp [masked_of_isVisible h]
    | false => simp

/-- Where a line starts is nothing to a comment block. -/
theorem groupFrom_map_offset (run : List NumberedLine) (ls : List SourceLine) :
    groupFrom run (ls.map fun l => { l with offset := 0 }) = groupFrom run ls := by
  have hfollower (ls : List SourceLine) :
      follower? (ls.map fun l => { l with offset := 0 }) = follower? ls := by
    unfold follower?
    rw [List.find?_map]
    cases h : ls.find? (!·.isBlank) <;> simp_all [Function.comp_def, isBlank]
  induction ls generalizing run with
  | nil => rfl
  | cons l ls ih =>
    have hnext := hfollower (l :: ls)
    rw [List.map_cons] at hnext ⊢
    rw [groupFrom, groupFrom, hnext]
    simp only [ih]

theorem group_map_masked (ls : List SourceLine) : group (ls.map masked) = group ls := by
  unfold group
  rw [filter_isVisible_map_masked, groupFrom_map_offset]

end CommentBlock

/-! ### Pieces -/

namespace Piece

theorem codeOf_masked (l : SourceLine) : codeOf l.masked = codeOf l := by
  cases h : l.ignored with
  | true => simp [codeOf, masked_of_ignored h, isVisible, h]
  | false => simp [codeOf, masked_of_seen h, isVisible, h]

theorem inject?_masked (l : SourceLine) : inject? l.masked = inject? l := by
  cases h : l.ignored with
  | true =>
    have hv : l.isVisible = false := by simp [isVisible, h]
    rw [masked_of_ignored h]
    unfold inject?
    cases hk : l.kind with
    | marker directive => cases directive <;> simp [hv]
    | _ => rfl
  | false =>
    rw [masked_of_seen h]
    rfl

theorem code_map_masked (ls : List SourceLine) : code (ls.map masked) = code ls := by
  unfold code
  rw [List.map_map]
  exact congrArg _ (List.map_congr_left fun l _ => codeOf_masked l)

theorem ofLines_map_masked (ls : List SourceLine) (blocks : List CommentBlock) :
    ofLines (ls.map masked) blocks = ofLines ls blocks := by
  have hfirst : firstLine (ls.map masked) = firstLine ls := by cases ls <;> simp [firstLine]
  have hinjects : (ls.map masked).filterMap inject? = ls.filterMap inject? := by
    rw [List.filterMap_map]
    exact congrFun (congrArg _ (funext inject?_masked)) ls
  simp only [ofLines, code_map_masked, hfirst, hinjects]

end Piece

/-! ### Documents of masked lines -/

theorem Scope.Contents.ofLines_map_masked (ls : List SourceLine) (blocks : List CommentBlock) :
    ofLines (ls.map masked) blocks = ofLines ls blocks := by
  simp only [ofLines, Piece.ofLines_map_masked, Piece.noticesOf, Piece.code_map_masked]

theorem Document.ofLines_map_masked (file : String) {ls : List SourceLine}
    (hb : ∀ l ∈ ls, l.ignored = true → ¬ l.kind.IsBorder) :
    ofLines file (ls.map masked) = ofLines file ls := by
  simp only [ofLines, Regions.extract_map_masked hb, CommentBlock.group_map_masked, List.length_map,
    Scope.Contents.ofLines_map_masked]

/-! ### Headers that agree -/

namespace SourceLine

/-- For each of the lines, whether it stands strictly inside an ignored block: behind
an `[ignore]` and before the next `[/ignore]`. The first of them does if `inside` and
it is no such marker itself. -/
def hiddenFrom (inside : Bool) : List SourceLine → List Bool
  | [] => []
  | l :: ls =>
    match l.kind with
    | .marker .ignore => false :: hiddenFrom true ls
    | .marker .endIgnore => false :: hiddenFrom false ls
    | _ => inside :: hiddenFrom inside ls

/-- Two headers have as many lines, `[ignore]` and `[/ignore]` on the same ones, and the
same text on every line that is not hidden. -/
structure SameOutside (inside : Bool) (as bs : List SourceLine) : Prop where
  length : as.length = bs.length
  opening : ∀ (i : Nat) (a b : SourceLine), as[i]? = some a → bs[i]? = some b →
    (a.kind = .marker .ignore ↔ b.kind = .marker .ignore)
  closing : ∀ (i : Nat) (a b : SourceLine), as[i]? = some a → bs[i]? = some b →
    (a.kind = .marker .endIgnore ↔ b.kind = .marker .endIgnore)
  text : ∀ (i : Nat) (a b : SourceLine), as[i]? = some a → bs[i]? = some b →
    (hiddenFrom inside as)[i]? = some false → a.text = b.text

/-- Whether what follows a line of this kind is inside an ignored block. -/
def insideAfter (inside : Bool) : LineKind → Bool
  | .marker .ignore => true
  | .marker .endIgnore => false
  | _ => inside

theorem hiddenFrom_cons_succ (inside : Bool) (l : SourceLine) (ls : List SourceLine) (i : Nat) :
    (hiddenFrom inside (l :: ls))[i + 1]? = (hiddenFrom (insideAfter inside l.kind) ls)[i]? := by
  rw [hiddenFrom]
  unfold insideAfter
  split <;> rfl

theorem SameOutside.tail {inside : Bool} {a b : SourceLine} {as bs : List SourceLine}
    (h : SameOutside inside (a :: as) (b :: bs)) : SameOutside (insideAfter inside a.kind) as bs where
  length := Nat.succ.inj h.length
  opening := fun i a b ha hb => h.opening (i + 1) a b ha hb
  closing := fun i a b ha hb => h.closing (i + 1) a b ha hb
  text := fun i a b ha hb hseen => h.text (i + 1) a b ha hb (by rw [hiddenFrom_cons_succ]; exact hseen)

theorem SameOutside.nil (inside : Bool) : SameOutside inside [] [] where
  length := rfl
  opening := fun i a b ha => by simp at ha
  closing := fun i a b ha => by simp at ha
  text := fun i a b ha => by simp at ha

/-- Headers that agree may start with one more line each, if these agree. -/
theorem SameOutside.cons {inside : Bool} {a b : SourceLine} {as bs : List SourceLine}
    (h : SameOutside (insideAfter inside a.kind) as bs)
    (opening : a.kind = .marker .ignore ↔ b.kind = .marker .ignore)
    (closing : a.kind = .marker .endIgnore ↔ b.kind = .marker .endIgnore)
    (text : (hiddenFrom inside (a :: as))[0]? = some false → a.text = b.text) :
    SameOutside inside (a :: as) (b :: bs) where
  length := congrArg (· + 1) h.length
  opening := by
    intro i a' b' ha hb
    cases i with
    | zero =>
      cases ha
      cases hb
      exact opening
    | succ i => exact h.opening i a' b' ha hb
  closing := by
    intro i a' b' ha hb
    cases i with
    | zero =>
      cases ha
      cases hb
      exact closing
    | succ i => exact h.closing i a' b' ha hb
  text := by
    intro i a' b' ha hb hseen
    cases i with
    | zero =>
      cases ha
      cases hb
      exact text hseen
    | succ i =>
      rw [hiddenFrom_cons_succ] at hseen
      exact h.text i a' b' ha hb hseen

/-- What an ignored block does to lines is told by its markers alone. -/
theorem ignoring_eq_of_sameMarkers {opened opened₁ opened₂ : Option Nat} {line : Nat}
    {text text' : List Char} {k k' : LineKind} {ignored ignored' : Bool}
    (hi : ignoring opened line text k = .ok (ignored, opened₁))
    (hi' : ignoring opened line text' k' = .ok (ignored', opened₂))
    (hopening : k = .marker .ignore ↔ k' = .marker .ignore)
    (hclosing : k = .marker .endIgnore ↔ k' = .marker .endIgnore) :
    ignored = ignored' ∧ opened₁ = opened₂ ∧ opened₁.isSome = insideAfter opened.isSome k := by
  rcases ignoring_eq_ok hi with ⟨rfl, -, rfl, rfl⟩ | ⟨rfl, -, rfl, rfl⟩ | ⟨hk, hk', rfl, rfl, -⟩
  · rw [hopening.1 rfl] at hi'
    rcases ignoring_eq_ok hi' with ⟨-, -, rfl, rfl⟩ | ⟨h, -⟩ | ⟨h, -⟩
    · exact ⟨rfl, rfl, rfl⟩
    · cases h
    · exact absurd rfl h
  · rw [hclosing.1 rfl] at hi'
    rcases ignoring_eq_ok hi' with ⟨h, -⟩ | ⟨-, -, rfl, rfl⟩ | ⟨-, h, -⟩
    · cases h
    · exact ⟨rfl, rfl, rfl⟩
    · exact absurd rfl h
  · have hinside : insideAfter opened₁.isSome k = opened₁.isSome := by
      unfold insideAfter
      split
      · exact absurd rfl hk
      · exact absurd rfl hk'
      · rfl
    rcases ignoring_eq_ok hi' with ⟨h, -⟩ | ⟨h, -⟩ | ⟨-, -, rfl, rfl, -⟩
    · exact absurd (hopening.2 h) hk
    · exact absurd (hclosing.2 h) hk'
    · exact ⟨rfl, rfl, hinside.symm⟩

/-- A line that is not ignored is not hidden either. -/
theorem hiddenFrom_zero_of_seen {opened opened' : Option Nat} {line offset : Nat} {text : List Char}
    {k : LineKind} {t : String} (hi : ignoring opened line text k = .ok (false, opened'))
    (ls : List SourceLine) :
    (hiddenFrom opened.isSome (⟨line, offset, t, k, false⟩ :: ls))[0]? = some false := by
  rcases ignoring_eq_ok hi with ⟨-, -, h, -⟩ | ⟨-, -, h, -⟩ | ⟨-, -, h, -⟩
  · cases h
  · cases h
  · rw [hiddenFrom, ← h]
    split <;> rfl

/-- Lines that are classified and agree differ in nothing but where they start and what
is hidden. -/
theorem map_masked_eq_of_sameOutside {opened : Option Nat} {line offset offset' : Nat}
    {raws raws' : List (List Char)} {as bs : List SourceLine}
    (ha : classifyFrom opened line offset raws = .ok as)
    (hb : classifyFrom opened line offset' raws' = .ok bs)
    (h : SameOutside opened.isSome as bs) : as.map masked = bs.map masked := by
  induction raws generalizing opened line offset offset' raws' as bs with
  | nil =>
    obtain ⟨-, rfl⟩ := classifyFrom_nil_eq_ok ha
    have : bs = [] := List.length_eq_zero_iff.1 h.length.symm
    rw [this]
  | cons raw raws ih =>
    obtain ⟨k, ignored, opened₁, as, hk, hi, has, rfl⟩ := classifyFrom_cons_eq_ok ha
    cases raws' with
    | nil =>
      obtain ⟨-, rfl⟩ := classifyFrom_nil_eq_ok hb
      exact absurd h.length (by simp)
    | cons raw' raws' =>
      obtain ⟨k', ignored', opened₂, bs, hk', hi', hbs, rfl⟩ := classifyFrom_cons_eq_ok hb
      obtain ⟨rfl, rfl, hinside⟩ := ignoring_eq_of_sameMarkers hi hi' (h.opening 0 _ _ rfl rfl)
        (h.closing 0 _ _ rfl rfl)
      have htail := h.tail
      rw [← hinside] at htail
      rw [List.map_cons, List.map_cons, ih has hbs htail]
      congr 1
      cases ignored with
      | true => rfl
      | false =>
        have htext := h.text 0 _ _ rfl rfl (hiddenFrom_zero_of_seen hi as)
        have hraw := String.ofList_injective htext
        rw [hraw, hk'] at hk
        cases hk
        rw [masked_of_seen rfl, masked_of_seen rfl, hraw]

end SourceLine

/-- **Ignored text does not influence the outcome.** Two sources whose lines can be
classified and agree outside the ignored blocks have the same document or the same
fault, and give the same notices, whatever their ignored lines hold. -/
theorem Document.ofSource_eq_of_sameOutside (file : String) {a b : String} {as bs : List SourceLine}
    (ha : classify (Text.withoutMark a) = .ok as) (hb : classify (Text.withoutMark b) = .ok bs)
    (h : SameOutside false as bs) : ofSource file a = ofSource file b := by
  rw [ofSource_eq_of_classify ha, ofSource_eq_of_classify hb,
    ← ofLines_map_masked file (not_isBorder_of_classifyFrom ha),
    ← ofLines_map_masked file (not_isBorder_of_classifyFrom hb),
    map_masked_eq_of_sameOutside ha hb h]

/-- An open brace or the marker of an inject, both ignored. -/
theorem Document.ofSource_eq_hidden_marker :
    ofSource "t.h" "//// [ignore]\nint x; \x7b\n//// [/ignore]\nstruct S;\n" =
      ofSource "t.h" "//// [ignore]\n//// [inject: p]\n//// [/ignore]\nstruct S;\n" := by
  have ha : classify (Text.withoutMark "//// [ignore]\nint x; \x7b\n//// [/ignore]\nstruct S;\n") =
      .ok [⟨1, 0, "//// [ignore]", .marker .ignore, true⟩, ⟨2, 14, "int x; \x7b", .code, true⟩,
        ⟨3, 23, "//// [/ignore]", .marker .endIgnore, true⟩, ⟨4, 38, "struct S;", .code, false⟩] := by
    cbv
  have hb : classify
        (Text.withoutMark "//// [ignore]\n//// [inject: p]\n//// [/ignore]\nstruct S;\n") =
      .ok [⟨1, 0, "//// [ignore]", .marker .ignore, true⟩,
        ⟨2, 14, "//// [inject: p]", .marker (.inject "p"), true⟩,
        ⟨3, 31, "//// [/ignore]", .marker .endIgnore, true⟩, ⟨4, 46, "struct S;", .code, false⟩] := by
    cbv
  refine ofSource_eq_of_sameOutside "t.h" ha hb ?_
  -- Only the second line differs, and it is hidden.
  refine .cons ?_ .rfl .rfl fun _ => rfl
  refine .cons ?_ (by decide) (by decide) fun hseen => by cases hseen
  refine .cons ?_ .rfl .rfl fun _ => rfl
  exact .cons (.nil false) .rfl .rfl fun _ => rfl

end AnnotatedHeader
