import AnnotatedHeader.Notice

/-! Outcomes: a result or a fault, with the notices given on the way.

Notices survive a fault. They never decide anything: `result` carries `pure` to
`pure` and `>>=` to `>>=` (`result_pure`, `result_bind`), so what a computation
answers can be reasoned about with its notices left out. -/
namespace AnnotatedHeader

structure Outcome (α : Type) where
  notices : List Notice
  result : Except Fault α

namespace Outcome
variable {α β γ : Type}

@[ext] theorem ext {x y : Outcome α} (hn : x.notices = y.notices) (hr : x.result = y.result) :
    x = y := by
  cases x; cases y; simp_all

protected def bind (x : Outcome α) (f : α → Outcome β) : Outcome β :=
  match x.result with
  | .ok a => ⟨x.notices ++ (f a).notices, (f a).result⟩
  | .error e => ⟨x.notices, .error e⟩

instance : Monad Outcome where
  pure a := ⟨[], .ok a⟩
  bind := Outcome.bind

def fail (line : Nat) (cause : Cause) : Outcome α := ⟨[], .error ⟨line, cause⟩⟩

def note (n : Notice) : Outcome Unit := ⟨[n], .ok ()⟩

def noteAll (ns : List Notice) : Outcome Unit := ⟨ns, .ok ()⟩

def ofExcept (r : Except Fault α) : Outcome α := ⟨[], r⟩

@[simp] theorem result_pure (a : α) : (pure a : Outcome α).result = .ok a := rfl

@[simp] theorem notices_pure (a : α) : (pure a : Outcome α).notices = [] := rfl

@[simp] theorem result_fail (line : Nat) (cause : Cause) :
    (fail line cause : Outcome α).result = .error ⟨line, cause⟩ := rfl

@[simp] theorem result_note (n : Notice) : (note n).result = .ok () := rfl

@[simp] theorem result_noteAll (ns : List Notice) : (noteAll ns).result = .ok () := rfl

@[simp] theorem result_ofExcept (r : Except Fault α) : (ofExcept r).result = r := rfl

@[simp] theorem result_bind (x : Outcome α) (f : α → Outcome β) :
    (x >>= f).result = x.result >>= fun a => (f a).result := by
  show (Outcome.bind x f).result = _
  rcases x with ⟨ns, _ | a⟩ <;> rfl

theorem bind_eq_of_ok {x : Outcome α} {a : α} (h : x.result = .ok a) (f : α → Outcome β) :
    x >>= f = ⟨x.notices ++ (f a).notices, (f a).result⟩ := by
  show Outcome.bind x f = _
  rw [Outcome.bind, h]

theorem bind_eq_of_error {x : Outcome α} {e : Fault} (h : x.result = .error e)
    (f : α → Outcome β) : x >>= f = ⟨x.notices, .error e⟩ := by
  show Outcome.bind x f = _
  rw [Outcome.bind, h]

/-- A computation succeeds when each of its steps does. -/
theorem result_bind_eq_ok {x : Outcome α} {f : α → Outcome β} {b : β} :
    (x >>= f).result = .ok b ↔ ∃ a, x.result = .ok a ∧ (f a).result = .ok b := by
  rw [result_bind]
  cases x.result with
  | error e =>
    constructor
    · intro h
      cases h
    · rintro ⟨_, h, -⟩
      cases h
  | ok a =>
    constructor
    · intro h
      exact ⟨a, rfl, h⟩
    · rintro ⟨_, h, hf⟩
      cases h
      exact hf

instance : LawfulMonad Outcome := LawfulMonad.mk' _
  (fun x => by
    rcases x with ⟨ns, _ | a⟩
    · rfl
    · exact ext (List.append_nil ns) rfl)
  (fun _ _ => rfl)
  (fun x f g => by
    rcases x with ⟨ns, _ | a⟩
    · rfl
    · show Outcome.bind (Outcome.bind _ f) g = Outcome.bind _ fun a => Outcome.bind (f a) g
      rcases hfa : f a with ⟨ms, _ | b⟩ <;> simp [Outcome.bind, hfa])

/-- The result together with a proof of what it satisfies. -/
def attach (x : Outcome α) (P : α → Prop) (h : ∀ a, x.result = .ok a → P a) :
    Outcome { a // P a } :=
  match hx : x.result with
  | .ok a => ⟨x.notices, .ok ⟨a, h a hx⟩⟩
  | .error e => ⟨x.notices, .error e⟩

@[simp] theorem notices_attach (x : Outcome α) (P : α → Prop) (h : ∀ a, x.result = .ok a → P a) :
    (x.attach P h).notices = x.notices := by
  unfold attach
  split <;> rfl

@[simp] theorem result_map_attach (x : Outcome α) (P : α → Prop)
    (h : ∀ a, x.result = .ok a → P a) :
    (x.attach P h).result.map Subtype.val = x.result := by
  unfold attach
  split <;> rename_i hx <;> simp [hx, Except.map]

end Outcome

end AnnotatedHeader
