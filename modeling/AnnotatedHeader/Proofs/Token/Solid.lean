import AnnotatedHeader.Proofs.Token.Written
import AnnotatedHeader.Token.Spacing

/-! The characters of a text that are no gaps.

Spaces come and go when tokens are joined, the other characters stay (`solid_join`): they tell
texts apart that are made of different tokens. -/
namespace AnnotatedHeader.Token

open Lexeme

def solid (text : String) : List Char := text.toList.filter (!isGap ·)

theorem solid_append (a b : String) : solid (a ++ b) = solid a ++ solid b := by
  rw [solid, String.toList_append, List.filter_append, solid, solid]

theorem solid_joinAfter (before : Option Token) (prev : Token) (ts : List Token) :
    solid (joinAfter before prev ts) = ts.flatMap fun t => solid t.text := by
  induction ts generalizing before prev with
  | nil => rfl
  | cons t ts ih =>
    rw [joinAfter, solid_append, solid_append, ih, List.flatMap_cons]
    split <;> rfl

theorem solid_join (ts : List Token) : solid (join ts) = ts.flatMap fun t => solid t.text := by
  cases ts with
  | nil => rfl
  | cons t ts => rw [join, solid_append, solid_joinAfter, List.flatMap_cons]

theorem solid_ne_nil {t : Token} (h : Written t.kind t.text.toList) : solid t.text ≠ [] := by
  obtain ⟨c, cs, htext, hc⟩ := h.exists_cons
  rw [solid, htext, List.filter_cons_of_pos (by simp [hc])]
  exact List.cons_ne_nil _ _

end AnnotatedHeader.Token
