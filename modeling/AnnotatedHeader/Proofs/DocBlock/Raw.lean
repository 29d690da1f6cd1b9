import AnnotatedHeader.Proofs.Scope.Nodes

/-! Doc blocks as they are read.

A comment names what it refers to and shows; which declaration and which text that is
is decided later. What the pieces of a header declare has only such blocks. -/
namespace AnnotatedHeader

/-- Nothing in the block has been looked up. -/
structure DocBlock.Raw (b : DocBlock) : Prop where
  references : ∀ r ∈ b.references, r.target = none
  examples : ∀ x ∈ b.examples, x.code = none

namespace DocBlock

theorem target_of_mem_references {p : Part} {r : CrossReference} (hr : r ∈ p.references) :
    r.target = none := by
  cases p with
  | prose line text =>
    obtain ⟨link, -, hlink⟩ := List.mem_filterMap.1 hr
    obtain ⟨kind, -, rfl⟩ := Option.map_eq_some_iff.1 hlink
    rfl
  | verbatim => cases hr
  | unnamed => cases hr
  | shown => cases hr

theorem code_of_mem_segmentsFrom {run : List String} {ps : List Part} {x : Example}
    (hx : .shown x ∈ segmentsFrom run ps) : x.code = none := by
  have hend (run : List String) : .shown x ∉ segmentsFrom run [] := by
    rw [segmentsFrom]
    split <;> simp
  induction ps generalizing run with
  | nil => exact absurd hx (hend run)
  | cons p ps ih =>
    cases p with
    | prose line text =>
      rw [segmentsFrom] at hx
      exact ih hx
    | verbatim text =>
      rw [segmentsFrom] at hx
      exact ih hx
    | unnamed line text =>
      rw [segmentsFrom] at hx
      exact ih hx
    | shown snippet line =>
      rw [segmentsFrom] at hx
      rcases List.mem_append.1 hx with hx | hx
      · exact absurd hx (hend run)
      · rcases List.mem_cons.1 hx with hx | hx
        · cases hx
          rfl
        · exact ih hx

theorem mem_examples {b : DocBlock} {x : Example} : x ∈ b.examples ↔ .shown x ∈ b.segments := by
  unfold examples
  rw [List.mem_filterMap]
  constructor
  · rintro ⟨s, hs, he⟩
    cases s with
    | markdown => cases he
    | shown y =>
      cases he
      exact hs
  · intro hx
    exact ⟨.shown x, hx, rfl⟩

theorem raw_ofLines (ls : List NumberedLine) : (ofLines ls).Raw where
  references r hr := by
    obtain ⟨p, -, hr⟩ := List.mem_flatMap.1 hr
    exact target_of_mem_references hr
  examples x hx := code_of_mem_segmentsFrom (mem_examples.1 hx)

end DocBlock

/-! ### Declarations -/

/-- All of the declaration's doc blocks are in `D`. -/
def Declared.DocsIn (D : DocBlock → Prop) (d : Declared) : Prop := ∀ e ∈ d.docs, D e.1

theorem Declared.docsIn_iff {D : DocBlock → Prop} {d : Declared} :
    d.DocsIn D ↔ (∀ b ∈ d.doc, D b) ∧ ∀ b ∈ d.item.docs, D b := by
  unfold DocsIn docs
  simp only [List.forall_mem_map, List.mem_append, Option.mem_toList]
  constructor
  · intro h
    exact ⟨fun b hb => h b (.inl hb), fun b hb => h b (.inr hb)⟩
  · rintro ⟨hdoc, hitem⟩ b (hb | hb)
    · exact hdoc b hb
    · exact hitem b hb

/-- A declaration documents itself and its parameters with blocks of its header. -/
theorem nodeInvariant_docsIn (D : DocBlock → Prop) : NodeInvariant D (Declared.DocsIn D) where
  ofHead visibility line hhead hh hwaiting hparams := by
    refine Declared.docsIn_iff.2 ⟨hwaiting, ?_⟩
    intro b hb
    obtain ⟨e, he, rfl⟩ := Head.docs_of_classify hhead hh b hb
    exact hparams e he
  ofEntry hdoc hentry := by
    obtain ⟨name, _, _, rfl, -, rfl⟩ := EnumBody.eq_of_variant hentry
    exact Declared.docsIn_iff.2 ⟨hdoc, by simp [Item.docs]⟩
  inherits := by
    intro winner loser _ hw hl
    obtain ⟨hdoc, hitem⟩ := Declared.docsIn_iff.1 hw
    refine Declared.docsIn_iff.2 ⟨?_, hitem⟩
    intro b hb
    change b ∈ (winner.doc <|> loser.doc) at hb
    cases hw' : winner.doc with
    | some c =>
      rw [hw'] at hb
      exact hdoc b (hw' ▸ hb)
    | none =>
      rw [hw'] at hb
      exact (Declared.docsIn_iff.1 hl).1 b hb

theorem Piece.block_of_mem_ofLines {lines : List SourceLine} {blocks : List CommentBlock}
    {b : DocBlock} (hb : .doc b ∈ ofLines lines blocks) : ∃ c ∈ blocks, b = c.toDoc := by
  unfold ofLines at hb
  rcases List.mem_append.1 (List.mem_mergeSort.1 hb) with hb | hb
  · rcases List.mem_append.1 hb with hb | hb
    · obtain ⟨t, -, ht⟩ := List.mem_map.1 hb
      cases ht
    · obtain ⟨c, hc, he⟩ := List.mem_map.1 hb
      cases he
      exact ⟨c, (List.mem_filter.1 hc).1, rfl⟩
  · obtain ⟨l, -, hl⟩ := List.mem_filterMap.1 hb
    unfold inject? at hl
    split at hl
    · split at hl <;> cases hl
    · cases hl

/-- The doc blocks of what a header declares are those of its comments. -/
theorem Scope.Contents.docsIn_of_ofLines {D : DocBlock → Prop} {lines : List SourceLine}
    {blocks : List CommentBlock} {found : Contents} (hblocks : ∀ c ∈ blocks, D c.toDoc)
    (h : (ofLines lines blocks).result = .ok found) :
    ∀ d ∈ found.declarations, d.Every (Declared.DocsIn D) := by
  obtain ⟨rest, hreads⟩ := result_ofLines_eq_ok.1 h
  refine hreads.every_of_start (nodeInvariant_docsIn _) ?_
  intro b hb
  obtain ⟨c, hc, rfl⟩ := Piece.block_of_mem_ofLines hb
  exact hblocks c hc

theorem Scope.Contents.raw_of_ofLines {lines : List SourceLine} {blocks : List CommentBlock}
    {found : Contents} (h : (ofLines lines blocks).result = .ok found) :
    ∀ d ∈ found.declarations, d.Every (Declared.DocsIn DocBlock.Raw) :=
  docsIn_of_ofLines (fun _ _ => DocBlock.raw_ofLines _) h

/-- Code on its own has no doc blocks. -/
theorem Declaration.docsIn_of_ofFragment (D : DocBlock → Prop) {text owner : String}
    {firstLine : Nat} {ds : List Declaration}
    (h : (ofFragment text firstLine owner).result = .ok ds) :
    ∀ d ∈ ds, d.Every (Declared.DocsIn D) := by
  obtain ⟨injects, rest, hreads⟩ := reads_of_ofFragment h
  refine hreads.every_of_start (nodeInvariant_docsIn _) ?_
  intro b hb
  obtain ⟨t, -, ht⟩ := List.mem_map.1 hb
  cases ht

end AnnotatedHeader
