import AnnotatedHeader.Declaration.Docs
import AnnotatedHeader.Proofs.Statement.Forms
import AnnotatedHeader.Statement.Collect

/-! What a statement is made of: pieces of its scope (`Statement.pieces_subset_of_read`).

So the doc blocks of parameters are among those pieces, too (`Head.docs_of_classify`). -/
namespace AnnotatedHeader

namespace Statement

/-- What the statement has taken from the pieces of its scope. -/
def pieces (s : Statement) : List Piece :=
  s.tokens.map .token ++ s.paramDocs.map fun e => .doc e.2

theorem token_mem_pieces {s : Statement} {t : Token} (h : t ∈ s.tokens) : .token t ∈ s.pieces :=
  List.mem_append_left _ (List.mem_map_of_mem h)

theorem doc_mem_pieces {s : Statement} {e : Nat × DocBlock} (h : e ∈ s.paramDocs) :
    .doc e.2 ∈ s.pieces :=
  List.mem_append_right _ (List.mem_map.2 ⟨e, h, rfl⟩)

theorem mem_pieces_push {s : Statement} {t : Token} {p : Piece} (h : p ∈ (s.push t).pieces) :
    p ∈ s.pieces ∨ p = .token t := by
  simp only [pieces, push, List.map_append, List.mem_append, List.map_cons, List.map_nil,
    List.mem_singleton] at h ⊢
  rcases h with (h | h) | h
  · exact .inl (.inl h)
  · exact .inr h
  · exact .inl (.inr h)

theorem mem_pieces_pushDoc {s : Statement} {b : DocBlock} {p : Piece}
    (h : p ∈ (s.pushDoc b).pieces) : p ∈ s.pieces ∨ p = .doc b := by
  simp only [pieces, pushDoc, List.map_append, List.mem_append, List.map_cons, List.map_nil,
    List.mem_singleton] at h ⊢
  rcases h with h | h | h
  · exact .inl (.inl h)
  · exact .inl (.inr h)
  · exact .inr h

theorem mem_pieces_of_collect {depth braces : Nat} {s s' : Statement}
    {ps rest : List Piece} (h : (collect depth braces s ps).result = .ok (s', rest)) :
    ∀ p ∈ s'.pieces, p ∈ s.pieces ∨ p ∈ ps := by
  induction ps generalizing depth braces s with
  | nil =>
    rw [collect] at h
    split at h <;> cases h <;> exact fun p hp => .inl hp
  | cons q ps ih =>
    have hlater {t : Statement} (ht : ∀ p ∈ t.pieces, p ∈ s.pieces ∨ p = q) {depth' braces' : Nat}
        (h : (collect depth' braces' t ps).result = .ok (s', rest)) :
        ∀ p ∈ s'.pieces, p ∈ s.pieces ∨ p ∈ q :: ps := by
      intro p hp
      rcases ih h p hp with hp | hp
      · rcases ht p hp with hp | rfl
        · exact .inl hp
        · exact .inr (List.mem_cons_self ..)
      · exact .inr (List.mem_cons_of_mem _ hp)
    cases q with
    | inject proxy line => cases h
    | doc b =>
      rw [collect] at h
      split at h
      · exact hlater (fun p hp => .inl hp) h
      · split at h
        · exact hlater (fun p hp => mem_pieces_pushDoc hp) h
        · obtain ⟨-, -, h⟩ := Outcome.result_bind_eq_ok.1 h
          exact hlater (fun p hp => .inl hp) h
    | token t =>
      rw [collect] at h
      split at h
      · cases h
        exact fun p hp => .inl hp
      · cases h
        exact fun p hp => .inl hp
      · cases h
        exact fun p hp => .inl hp
      · exact hlater (fun p hp => mem_pieces_push hp) h

theorem pieces_subset_of_read {stmt : Statement} {ps rest : List Piece}
    (h : (read ps).result = .ok (stmt, rest)) : stmt.pieces ⊆ ps := by
  intro p hp
  simpa [pieces] using mem_pieces_of_collect h p hp

end Statement

namespace Head

theorem doc_param (ts : List Token) (doc : Option DocBlock) : (param ts doc).doc = doc := by
  unfold param
  dsimp only
  split <;> rfl

theorem doc_of_mem_paramsOf {docs : List (Nat × DocBlock)} {stop : Nat}
    {parts : List (Nat × List Token)} {p : Param} {b : DocBlock}
    (hp : p ∈ paramsOf docs stop parts) (hb : p.doc = some b) : ∃ e ∈ docs, e.2 = b := by
  induction parts with
  | nil => cases hp
  | cons part parts ih =>
    obtain ⟨start, ts⟩ := part
    rw [paramsOf] at hp
    rcases List.mem_cons.1 hp with rfl | hp
    · rw [doc_param] at hb
      obtain ⟨e, he, heb⟩ := Option.map_eq_some_iff.1 hb
      exact ⟨e, (List.mem_filter.1 (List.mem_of_getLast? he)).1, heb⟩
    · exact ih hp

theorem params_eq (docs : List (Nat × DocBlock)) (start : Nat) (inside : List Token) :
    params docs start inside = [] ∨
      params docs start inside = paramsOf docs (start + inside.length)
        ((commaParts inside).map fun e => (start + e.1, e.2)) := by
  unfold params
  dsimp only
  split
  · exact .inl rfl
  · split
    · exact .inl rfl
    · exact .inr rfl
  · exact .inr rfl

theorem docs_params {docs : List (Nat × DocBlock)} {start : Nat} {inside : List Token}
    {b : DocBlock} (hb : b ∈ (params docs start inside).filterMap (·.doc)) : ∃ e ∈ docs, e.2 = b := by
  obtain ⟨p, hp, hdoc⟩ := List.mem_filterMap.1 hb
  rcases params_eq docs start inside with h | h
  · rw [h] at hp
    cases hp
  · exact doc_of_mem_paramsOf (h ▸ hp) hdoc

/-- A head documents its parameters with doc blocks of its statement, and nothing else. -/
theorem docs_of_classify {stmt : Statement} {record : Option String} {first h : Heading}
    {others : List Heading} (hc : classify stmt record = .declares first others)
    (hh : h ∈ first :: others) : ∀ b ∈ h.item.docs, ∃ e ∈ stmt.paramDocs, e.2 = b := by
  intro b hb
  cases form_of_classify hc with
  | enumeration =>
    rw [List.mem_singleton] at hh
    subst hh
    cases hb
  | record tokens head =>
    obtain ⟨rfl, name, key, shape, -, -, -, rfl⟩ := eq_of_recordHead head
    rw [List.mem_singleton] at hh
    subst hh
    cases hb
  | function call head =>
    obtain ⟨rfl, inside, behind, name, lead, special, -, -, rfl⟩ := eq_of_functionHead head
    rw [List.mem_singleton] at hh
    subst hh
    exact docs_params hb
  | properties within head =>
    obtain ⟨us, -, hproperty⟩ := exists_of_propertyHeads head h hh
    obtain ⟨vs, d, shape, -, -, rfl⟩ := eq_of_property? hproperty
    cases hb

end Head

end AnnotatedHeader
