import AnnotatedHeader.Scope.Turn

/-! Every turn makes progress.

`turn_suffix`: what a turn leaves is a suffix of the pieces behind the one it
started with. Each reader of part of an item comes with such a lemma. -/
namespace AnnotatedHeader.Scope

/-! ### Parts of items -/

theorem argumentTokens_suffix {depth : Nat} {ps rest : List Piece} {ts : List Token}
    (h : argumentTokens depth ps = some (ts, rest)) : rest <:+ ps := by
  fun_induction argumentTokens depth ps generalizing ts with
  | case1 => cases h
  | case2 t ps =>
    cases h
    exact List.suffix_cons ..
  | case3 t ps depth _ ih | case4 depth t ps _ ih | case8 depth t ps _ _ _ _ _ _ ih =>
    obtain ⟨⟨us, r⟩, hr, he⟩ := Option.map_eq_some_iff.1 h
    cases he
    exact (ih hr).trans (List.suffix_cons ..)
  | case5 => cases h
  | case6 => cases h
  | case7 => cases h
  | case9 depth b ps ih => exact (ih h).trans (List.suffix_cons ..)
  | case10 depth proxy line ps ih => exact (ih h).trans (List.suffix_cons ..)

theorem callEnd?_suffix {depth line : Nat} {ps rest : List Piece}
    (h : callEnd? depth ps = some (line, rest)) : rest <:+ ps := by
  fun_induction callEnd? depth ps with
  | case1 t ps =>
    cases h
    exact List.suffix_cons ..
  | case2 t ps depth _ ih | case3 depth t ps _ ih | case7 depth t ps _ _ _ _ _ _ ih =>
    exact (ih h).trans (List.suffix_cons ..)
  | case4 => cases h
  | case5 => cases h
  | case6 => cases h
  | case8 => cases h

theorem templateTokens_suffix (angle : Nat) (ps : List Piece) :
    (templateTokens angle ps).2 <:+ ps := by
  fun_induction templateTokens angle ps with
  | case1 => exact List.suffix_refl _
  | case2 => exact List.suffix_cons ..
  | case3 angle t ps _ angle' more ih => exact ih.trans (List.suffix_cons ..)
  | case4 angle b ps ih => exact ih.trans (List.suffix_cons ..)
  | case5 angle proxy line ps ih => exact ih.trans (List.suffix_cons ..)

def NamespaceHead.rest : NamespaceHead → List Piece
  | .body _ rest | .alias rest | .nothing rest => rest

theorem namespaceHead_suffix (name : String) (ps : List Piece) :
    (namespaceHead name ps).rest <:+ ps := by
  fun_induction namespaceHead name ps with
  | case1 => exact List.suffix_cons ..
  | case2 name t ps _ ih => exact ih.trans (List.suffix_cons ..)
  | case3 name t ps _ ih => exact ih.trans (List.suffix_cons ..)
  | case4 => exact List.suffix_refl _
  | case5 => exact List.suffix_refl _

theorem afterMacroCall?_suffix {t : Token} {ps rest : List Piece}
    (h : afterMacroCall? t ps = some rest) : rest <:+ ps := by
  unfold afterMacroCall? at h
  split at h
  · dsimp only at h
    split at h
    · rename_i line tail he
      split at h
      · cases h
      · injection h with h
        subst h
        split at he
        · split at he
          · exact (callEnd?_suffix he).trans (List.suffix_cons ..)
          · cases he
            exact List.suffix_refl _
        · cases he
          exact List.suffix_refl _
    · cases h
  · cases h

theorem readReflection_suffix {t : Token} {ps rest : List Piece} {r : Reflection}
    (h : (readReflection t ps).result = .ok (r, rest)) : rest <:+ ps := by
  unfold readReflection at h
  split at h
  · rename_i p tail
    split at h
    · split at h
      · rename_i ts after ha
        split at h
        · cases h
          exact (argumentTokens_suffix ha).trans (List.suffix_cons ..)
        · cases h
      · cases h
    · cases h
  · cases h

/-! ### Items -/

theorem passOver_suffix {b : State} {stmt : Statement} {reason : SkipReason} {ps : List Piece}
    {t : Turn} (h : (passOver b stmt reason ps).result = .ok t) : t.rest <:+ ps := by
  unfold passOver at h
  split at h
  · cases h
  · obtain ⟨-, -, h⟩ := Outcome.result_bind_eq_ok.1 h
    obtain ⟨rest, hrest, h⟩ := Outcome.result_bind_eq_ok.1 h
    obtain ⟨b', -, h⟩ := Outcome.result_bind_eq_ok.1 h
    cases h
    exact stmt.skipBodyOf_suffix hrest

theorem openBody_suffix {b : State} {own : Declared} {ps : List Piece} {t : Turn}
    (h : (openBody b own ps).result = .ok t) : t.rest <:+ ps := by
  unfold openBody at h
  split at h
  · cases h
    exact List.suffix_refl _
  · obtain ⟨⟨members, rest⟩, hrest, h⟩ := Outcome.result_bind_eq_ok.1 h
    obtain ⟨b', -, h⟩ := Outcome.result_bind_eq_ok.1 h
    cases h
    exact EnumBody.read_suffix hrest
  · obtain ⟨rest, hrest, h⟩ := Outcome.result_bind_eq_ok.1 h
    obtain ⟨b', -, h⟩ := Outcome.result_bind_eq_ok.1 h
    cases h
    exact skipBody_suffix hrest

theorem declare_suffix {s : Scope} {b : State} {first : Token} {ps : List Piece} {t : Turn}
    (hfirst : first.kind ≠ .rbrace)
    (h : (declare s b (.token first :: ps)).result = .ok t) : t.rest <:+ ps := by
  unfold declare at h
  obtain ⟨⟨stmt, rest⟩, hread, h⟩ := Outcome.result_bind_eq_ok.1 h
  have hrest := Statement.read_suffix_of_token hfirst hread
  dsimp only at h
  split at h
  · exact (passOver_suffix h).trans hrest
  · obtain ⟨-, -, h⟩ := Outcome.result_bind_eq_ok.1 h
    split at h
    · exact (openBody_suffix h).trans hrest
    · obtain ⟨b', -, h⟩ := Outcome.result_bind_eq_ok.1 h
      cases h
      exact hrest

theorem readNamespace_suffix {s : Scope} {b : State} {ps : List Piece} {t : Turn}
    (h : (readNamespace s b ps).result = .ok t) : t.rest <:+ ps := by
  unfold readNamespace at h
  obtain ⟨b', -, h⟩ := Outcome.result_bind_eq_ok.1 h
  have hhead := namespaceHead_suffix "" ps
  split at h <;> rename_i hn <;> rw [hn] at hhead
  · cases h
    exact hhead
  · obtain ⟨⟨stmt, rest⟩, hread, h⟩ := Outcome.result_bind_eq_ok.1 h
    obtain ⟨-, -, h⟩ := Outcome.result_bind_eq_ok.1 h
    cases h
    exact (Statement.read_suffix hread).trans hhead
  · cases h
    exact hhead

theorem annotate_suffix {b : State} {t : Token} {ps : List Piece} {u : Turn}
    (h : (annotate b t ps).result = .ok u) : u.rest <:+ ps := by
  unfold annotate at h
  split at h
  · cases h
  · obtain ⟨⟨r, rest⟩, hread, h⟩ := Outcome.result_bind_eq_ok.1 h
    cases h
    exact readReflection_suffix hread

theorem passOverKeyword_suffix {b : State} {first : Token} {ps : List Piece} {t : Turn}
    (hfirst : first.kind ≠ .rbrace)
    (h : (passOverKeyword b (.token first :: ps)).result = .ok t) : t.rest <:+ ps := by
  unfold passOverKeyword at h
  obtain ⟨⟨stmt, rest⟩, hread, h⟩ := Outcome.result_bind_eq_ok.1 h
  obtain ⟨-, -, h⟩ := Outcome.result_bind_eq_ok.1 h
  obtain ⟨rest', hrest, h⟩ := Outcome.result_bind_eq_ok.1 h
  cases h
  exact (stmt.skipBodyOf_suffix hrest).trans (Statement.read_suffix_of_token hfirst hread)

theorem word_macroCall {t : Token} {ps rest : List Piece} (h : word t ps = .macroCall rest) :
    afterMacroCall? t ps = some rest := by
  unfold word at h
  split at h
  · cases h
  · split at h
    · cases h
    split at h
    · cases h
    split at h
    · cases h
    split at h
    · cases h
    split at h
    · cases h
    split at h
    · cases h
    split at h
    · rename_i hm
      cases h
      exact hm
    · cases h

theorem readWord_suffix {s : Scope} {b : State} {t : Token} {ps : List Piece} {u : Turn}
    (ht : t.kind ≠ .rbrace) (h : (readWord s b t ps).result = .ok u) : u.rest <:+ ps := by
  unfold readWord at h
  split at h
  · cases h
    exact List.drop_suffix ..
  · cases h
    exact templateTokens_suffix ..
  · cases h
    exact List.suffix_refl _
  · exact readNamespace_suffix h
  · cases h
    exact List.drop_suffix ..
  · exact annotate_suffix h
  · exact passOverKeyword_suffix ht h
  · rename_i rest hw
    obtain ⟨-, -, h⟩ := Outcome.result_bind_eq_ok.1 h
    cases h
    exact afterMacroCall?_suffix (word_macroCall hw)
  · exact declare_suffix ht h

theorem turn_suffix {s : Scope} {b : State} {p : Piece} {ps : List Piece} {t : Turn}
    (h : (turn s b p ps).result = .ok t) : t.rest <:+ ps := by
  unfold turn at h
  split at h
  · obtain ⟨b', -, h⟩ := Outcome.result_bind_eq_ok.1 h
    cases h
    exact List.suffix_refl _
  · split at h <;> cases h
    exact List.suffix_refl _
  · rename_i t
    split at h
    · split at h
      · cases h
        exact List.suffix_refl _
      · obtain ⟨-, -, h⟩ := Outcome.result_bind_eq_ok.1 h
        cases h
        exact List.suffix_refl _
    · cases h
      exact List.suffix_refl _
    · rename_i hk
      exact readWord_suffix (by simp [hk]) h
    · rename_i hk _ _
      exact declare_suffix hk h

end AnnotatedHeader.Scope
