import AnnotatedHeader.Proofs.Statement.Nested

/-! Nested brackets.

Each bracket that is opened is closed by its own sign before one that was open around it is
(`Bracketed`), in tokens as in what tokens stand among. -/
namespace AnnotatedHeader

/-- The sign that closes what the sign opens. -/
def TokenKind.closer? : TokenKind → Option TokenKind
  | .lparen => some .rparen
  | .lbracket => some .rbracket
  | .lbrace => some .rbrace
  | _ => none

theorem TokenKind.opens_of_closer? {kind closer : TokenKind} (h : kind.closer? = some closer) :
    kind.opens = true ∧ closer.closes = true := by
  cases kind <;> cases h <;> exact ⟨rfl, rfl⟩

/-- Brackets are nested, with what is `bare` in them, and what is `lone` stands outside them. -/
inductive Bracketed {α : Type} (pairs : α → α → Prop) (bare : α → Prop) : (α → Prop) → List α → Prop where
  | nil {lone : α → Prop} : Bracketed pairs bare lone []
  | single {lone : α → Prop} {a : α} {as : List α} (alone : lone a) (rest : Bracketed pairs bare lone as) :
      Bracketed pairs bare lone (a :: as)
  | group {lone : α → Prop} {opening closing : α} {as bs : List α} (pair : pairs opening closing)
      (within : Bracketed pairs bare bare as) (rest : Bracketed pairs bare lone bs) :
      Bracketed pairs bare lone (opening :: (as ++ closing :: bs))

namespace Bracketed
variable {α : Type} {pairs : α → α → Prop} {bare lone lone' : α → Prop} {as bs : List α}

theorem append (has : Bracketed pairs bare lone as) (hbs : Bracketed pairs bare lone bs) :
    Bracketed pairs bare lone (as ++ bs) := by
  induction has with
  | nil => exact hbs
  | single alone _ ih => exact .single alone (ih hbs)
  | group pair within _ _ ihRest =>
    rw [List.cons_append, List.append_assoc]
    exact .group pair within (ihRest hbs)

theorem mono (h : ∀ a, lone a → lone' a) (has : Bracketed pairs bare lone as) :
    Bracketed pairs bare lone' as := by
  induction has with
  | nil => exact .nil
  | single alone _ ih => exact .single (h _ alone) (ih h)
  | group pair within _ _ ihRest => exact .group pair within (ihRest h)

/-- What comes first stands alone, or opens a bracket that is closed further on. -/
theorem of_cons {a : α} (h : Bracketed pairs bare lone (a :: as)) :
    (lone a ∧ Bracketed pairs bare lone as) ∨
      ∃ inside closing rest, as = inside ++ closing :: rest ∧ pairs a closing ∧
        Bracketed pairs bare bare inside ∧ Bracketed pairs bare lone rest := by
  cases h with
  | single alone rest => exact .inl ⟨alone, rest⟩
  | group pair within rest => exact .inr ⟨_, _, _, rfl, pair, within, rest⟩

end Bracketed

namespace Token

/-- A token that is no bracket. -/
def IsBare (t : Token) : Prop := t.kind.opens = false ∧ t.kind.closes = false

def Pairs (opening closing : Token) : Prop := opening.kind.closer? = some closing.kind

theorem Pairs.kinds {opening closing : Token} (h : opening.Pairs closing) :
    (opening.kind = .lparen ∧ closing.kind = .rparen) ∨
      (opening.kind = .lbracket ∧ closing.kind = .rbracket) ∨
      (opening.kind = .lbrace ∧ closing.kind = .rbrace) := by
  unfold Pairs TokenKind.closer? at h
  split at h <;> simp_all

/-- Brackets are nested, and commas stand in them, unless the whole does. -/
def Nested (inside : Bool) (ts : List Token) : Prop :=
  Bracketed Pairs IsBare (fun t => t.IsBare ∧ (t.kind = .comma → inside = true)) ts

namespace Nested
variable {inside : Bool} {t opening closing : Token} {ts us : List Token}

theorem nil : Nested inside [] := Bracketed.nil

theorem sign (opens : t.kind.opens = false) (closes : t.kind.closes = false)
    (comma : t.kind = .comma → inside = true) (rest : Nested inside ts) : Nested inside (t :: ts) :=
  Bracketed.single ⟨⟨opens, closes⟩, comma⟩ rest

theorem group (pair : opening.kind.closer? = some closing.kind) (within : Nested true ts)
    (rest : Nested inside us) : Nested inside (opening :: (ts ++ closing :: us)) :=
  Bracketed.group pair (within.mono fun _ h => h.1) rest

theorem append (h : Nested inside ts) (hus : Nested inside us) : Nested inside (ts ++ us) :=
  Bracketed.append h hus

end Nested

end Token

end AnnotatedHeader
