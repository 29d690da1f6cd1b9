import AnnotatedHeader.Json
import Mathlib.Data.List.Basic

/-! A compact text can be read in one way only.

`UniqueAt` says of a value that where its text stands no other value's text stands, and
that what follows is the same; only behind a number it matters what follows. It holds of a
list once it holds of each item (`unique_tail`), so it holds of every JSON value
(`unique_compact`) and the compact text determines the value (`compact_injective`). -/
namespace AnnotatedHeader.Json

theorem induction {P : Json → Prop} (null : P .null) (bool : ∀ b, P (.bool b))
    (number : ∀ n, P (.number n)) (text : ∀ s, P (.text s))
    (list : ∀ vs, (∀ v ∈ vs, P v) → P (.list vs))
    (object : ∀ es, (∀ e ∈ es, P e.2) → P (.object es)) (v : Json) : P v := by
  refine Json.rec (motive_1 := P) (motive_2 := fun vs => ∀ v ∈ vs, P v)
    (motive_3 := fun es => ∀ e ∈ es, P e.2) (motive_4 := fun e => P e.2)
    null bool number text list object ?_ ?_ ?_ ?_ ?_ v
  · intro v hv
    cases hv
  · intro v vs hv hvs
    exact List.forall_mem_cons.2 ⟨hv, hvs⟩
  · intro e he
    cases he
  · intro e es he hes
    exact List.forall_mem_cons.2 ⟨he, hes⟩
  · intro key v hv
    exact hv

/-! ### Characters -/

def valueOfHex (c : Char) : Nat := if c.isDigit then c.toNat - 48 else c.toNat - 87

/-- The character whose escaped form stands in front, and what follows it. -/
def readChar? : List Char → Option (Char × List Char)
  | '\\' :: 'u' :: '0' :: '0' :: a :: b :: cs => some (.ofNat (16 * valueOfHex a + valueOfHex b), cs)
  | '\\' :: c :: cs =>
    match c with
    | 'b' => some ('\x08', cs)
    | 'f' => some ('\x0c', cs)
    | 'n' => some ('\n', cs)
    | 'r' => some ('\r', cs)
    | 't' => some ('\t', cs)
    | c => some (c, cs)
  | c :: cs => some (c, cs)
  | [] => none

theorem readChar?_of_hex {n : Nat} (h : n < 32) (cs : List Char) :
    readChar? ('\\' :: 'u' :: '0' :: '0' :: hexDigit (n / 16) :: hexDigit (n % 16) :: cs) =
      some (.ofNat n, cs) := by
  have hvalue : ∀ n < 32, 16 * valueOfHex (hexDigit (n / 16)) + valueOfHex (hexDigit (n % 16)) = n := by
    decide
  rw [readChar?, hvalue n h]

theorem readChar?_escapedChar (c : Char) (cs : List Char) :
    readChar? (escapedChar c ++ cs) = some (c, cs) := by
  unfold escapedChar
  split_ifs with hquote hslash hb hf hn hr ht hcontrol
  · subst hquote; rfl
  · subst hslash; rfl
  · subst hb; rfl
  · subst hf; rfl
  · subst hn; rfl
  · subst hr; rfl
  · subst ht; rfl
  · refine (readChar?_of_hex hcontrol cs).trans ?_
    rw [Char.ofNat_toNat]
  · rw [List.singleton_append]
    unfold readChar?
    split <;> simp_all

/-- No escaped character starts like the end of a text. -/
theorem quote_not_head_escapedChar (c : Char) : (escapedChar c).head? ≠ some '"' := by
  unfold escapedChar
  split_ifs <;> simp_all

/-! ### What can be read in one way -/

/-- The text goes on with something that is no digit, or it ends. -/
def Stops (cs : List Char) : Prop := ∀ c ∈ cs.head?, c.isDigit = false

theorem stops_cons {c : Char} {cs : List Char} (h : c.isDigit = false) : Stops (c :: cs) := by
  intro c' hc'
  cases hc'
  exact h

/-- Where the text of `a` stands, no other value's text stands. -/
def UniqueAt {α : Type} (enc : α → List Char) (a : α) : Prop :=
  ∀ b s t, Stops s → Stops t → enc a ++ s = enc b ++ t → a = b ∧ s = t

/-- The characters of a text up to its end. -/
theorem flatMap_escapedChar_inj {cs ds s t : List Char}
    (h : cs.flatMap escapedChar ++ '"' :: s = ds.flatMap escapedChar ++ '"' :: t) :
    cs = ds ∧ s = t := by
  have hends (c : Char) (cs s t : List Char) :
      (c :: cs).flatMap escapedChar ++ s ≠ '"' :: t := by
    intro h
    rw [List.flatMap_cons, List.append_assoc] at h
    refine quote_not_head_escapedChar c ?_
    cases hc : escapedChar c with
    | nil =>
      have hread := readChar?_escapedChar c []
      rw [hc] at hread
      cases hread
    | cons d ds =>
      rw [hc, List.cons_append] at h
      rw [List.head?_cons, (List.cons.inj h).1]
  induction cs generalizing ds with
  | nil =>
    cases ds with
    | nil => exact ⟨rfl, (List.cons.inj h).2⟩
    | cons d ds => exact absurd h.symm (hends d ds _ _)
  | cons c cs ih =>
    cases ds with
    | nil => exact absurd h (hends c cs _ _)
    | cons d ds =>
      rw [List.flatMap_cons, List.flatMap_cons, List.append_assoc, List.append_assoc] at h
      have hread := congrArg readChar? h
      rw [readChar?_escapedChar, readChar?_escapedChar] at hread
      simp only [Option.some.injEq, Prod.mk.injEq] at hread
      obtain ⟨rfl, hrest⟩ := hread
      obtain ⟨rfl, hst⟩ := ih hrest
      exact ⟨rfl, hst⟩

theorem toList_quote (s : String) :
    (quote s).toList = '"' :: (s.toList.flatMap escapedChar ++ ['"']) := by
  unfold quote
  rw [String.toList_ofList, List.cons_append]

theorem quote_append_inj {a b : String} {s t : List Char}
    (h : (quote a).toList ++ s = (quote b).toList ++ t) : a = b ∧ s = t := by
  simp only [toList_quote, List.cons_append, List.append_assoc, List.nil_append, List.cons.injEq,
    true_and] at h
  obtain ⟨hchars, hst⟩ := flatMap_escapedChar_inj h
  exact ⟨String.toList_inj.1 hchars, hst⟩

theorem takeWhile_digits (n : Nat) {s : List Char} (h : Stops s) :
    (Nat.toDigits 10 n ++ s).takeWhile Char.isDigit = Nat.toDigits 10 n := by
  have hdigits : ∀ c ∈ Nat.toDigits 10 n, c.isDigit = true := fun c hc =>
    Nat.isDigit_of_mem_toDigits (by decide) (by decide) hc
  have hrest : s.takeWhile Char.isDigit = [] := by
    cases s with
    | nil => rfl
    | cons c cs => exact List.takeWhile_cons_of_neg (by simpa using h c rfl)
  rw [List.takeWhile_append_of_pos hdigits, hrest, List.append_nil]

theorem unique_number (n : Nat) : UniqueAt (Nat.toDigits 10) n := by
  intro m s t hs ht h
  have hdigits := congrArg (List.takeWhile Char.isDigit) h
  rw [takeWhile_digits n hs, takeWhile_digits m ht] at hdigits
  rw [hdigits] at h
  refine ⟨?_, List.append_cancel_left h⟩
  rw [← Nat.ofDigitChars_ten_toDigits (n := n), hdigits, Nat.ofDigitChars_ten_toDigits]

/-! ### Lists -/

section
variable {α : Type} {enc : α → List Char} {close : Char}

/-- The items behind the first, each behind its comma. -/
def tail (enc : α → List Char) (as : List α) : List Char := as.flatMap fun a => ',' :: enc a

/-- Items up to the closing bracket. -/
def items (enc : α → List Char) : List α → List Char
  | [] => []
  | a :: as => enc a ++ tail enc as

theorem intercalate_eq_items (as : List α) : [','].intercalate (as.map enc) = items enc as := by
  cases as with
  | nil => rfl
  | cons a as =>
    induction as generalizing a with
    | nil => simp [items, tail]
    | cons b bs ih =>
      rw [List.map_cons, List.map_cons, List.intercalate_cons_cons, ← List.map_cons, ih]
      simp [items, tail]

theorem stops_tail (hclose : close.isDigit = false) (as : List α) (s : List Char) :
    Stops (tail enc as ++ close :: s) := by
  cases as with
  | nil => exact stops_cons hclose
  | cons a as => exact stops_cons (by decide)

variable (hclose : close.isDigit = false) (hcomma : close ≠ ',')

include hclose hcomma

theorem unique_tail {as bs : List α} {s t : List Char} (each : ∀ a ∈ as, UniqueAt enc a)
    (h : tail enc as ++ close :: s = tail enc bs ++ close :: t) : as = bs ∧ s = t := by
  induction as generalizing bs with
  | nil =>
    cases bs with
    | nil => exact ⟨rfl, (List.cons.inj h).2⟩
    | cons b bs => exact absurd (List.cons.inj h).1 hcomma
  | cons a as ih =>
    obtain ⟨ha, has⟩ := List.forall_mem_cons.1 each
    cases bs with
    | nil => exact absurd (List.cons.inj h).1.symm hcomma
    | cons b bs =>
      simp only [tail, List.flatMap_cons, List.cons_append, List.append_assoc, List.cons.injEq,
        true_and] at h
      obtain ⟨rfl, hrest⟩ := ha b _ _ (stops_tail hclose as s) (stops_tail hclose bs t) h
      obtain ⟨rfl, hst⟩ := ih has hrest
      exact ⟨rfl, hst⟩

theorem unique_items {as bs : List α} {s t : List Char}
    (hstart : ∀ a t, ∃ c cs, enc a ++ t = c :: cs ∧ c ≠ close) (each : ∀ a ∈ as, UniqueAt enc a)
    (h : items enc as ++ close :: s = items enc bs ++ close :: t) : as = bs ∧ s = t := by
  have hends (a : α) (as : List α) (s t : List Char) : items enc (a :: as) ++ s ≠ close :: t := by
    intro h
    obtain ⟨c, cs, hc, hne⟩ := hstart a (tail enc as ++ s)
    rw [items, List.append_assoc, hc] at h
    exact hne (List.cons.inj h).1
  cases as with
  | nil =>
    cases bs with
    | nil => exact ⟨rfl, (List.cons.inj h).2⟩
    | cons b bs => exact absurd h.symm (hends b bs _ _)
  | cons a as =>
    obtain ⟨ha, has⟩ := List.forall_mem_cons.1 each
    cases bs with
    | nil => exact absurd h (hends a as _ _)
    | cons b bs =>
      rw [items, items, List.append_assoc, List.append_assoc] at h
      obtain ⟨rfl, hrest⟩ := ha b _ _ (stops_tail hclose as s) (stops_tail hclose bs t) h
      obtain ⟨rfl, hst⟩ := unique_tail hclose hcomma has hrest
      exact ⟨rfl, hst⟩

end

/-! ### Values -/

def entryChars (e : String × Json) : List Char := (quote e.1).toList ++ ':' :: e.2.compact.toList

theorem compactAll_eq_map (vs : List Json) : compactAll vs = vs.map compact := by
  induction vs with
  | nil => rfl
  | cons v vs ih => rw [compactAll, ih, List.map_cons]

theorem toList_compact_list (vs : List Json) :
    (Json.list vs).compact.toList = '[' :: (items (fun v => v.compact.toList) vs ++ [']']) := by
  rw [← intercalate_eq_items, compact, String.toList_append, String.toList_append,
    String.toList_intercalate, compactAll_eq_map, List.map_map]
  rfl

theorem toList_compact_object (es : List (String × Json)) :
    (Json.object es).compact.toList = '\x7b' :: (items entryChars es ++ ['\x7d']) := by
  have hentries : (compactEntries es).map String.toList = es.map entryChars := by
    induction es with
    | nil => rfl
    | cons e es ih =>
      obtain ⟨key, v⟩ := e
      rw [compactEntries, List.map_cons, List.map_cons, ih, String.toList_append,
        String.toList_append]
      simp [entryChars]
  rw [← intercalate_eq_items, compact, String.toList_append, String.toList_append,
    String.toList_intercalate, hentries]
  rfl

/-- The first character of a value's text tells which of the six forms it has. -/
def form : Json → Nat
  | .null => 0
  | .bool _ => 1
  | .number _ => 2
  | .text _ => 3
  | .list _ => 4
  | .object _ => 5

def formOf (c : Char) : Nat :=
  if c = 'n' then 0
  else if c = 't' ∨ c = 'f' then 1
  else if c.isDigit then 2
  else if c = '"' then 3
  else if c = '[' then 4
  else if c = '\x7b' then 5
  else 6

theorem exists_first (v : Json) (s : List Char) :
    ∃ c cs, v.compact.toList ++ s = c :: cs ∧ formOf c = v.form := by
  cases v with
  | null => exact ⟨'n', "ull".toList ++ s, rfl, rfl⟩
  | bool b =>
    cases b with
    | false => exact ⟨'f', "alse".toList ++ s, rfl, rfl⟩
    | true => exact ⟨'t', "rue".toList ++ s, rfl, rfl⟩
  | number n =>
    have hdigits : (Json.number n).compact.toList = Nat.toDigits 10 n := Nat.toList_repr
    obtain ⟨c, cs, hc⟩ := List.exists_cons_of_ne_nil (Nat.toDigits_ne_nil (n := n) (b := 10))
    have hdigit : c.isDigit = true :=
      Nat.isDigit_of_mem_toDigits (by decide) (by decide) (hc ▸ List.mem_cons_self ..)
    refine ⟨c, cs ++ s, by rw [hdigits, hc, List.cons_append], ?_⟩
    have hne (d : Char) (hd : d.isDigit = false) : c ≠ d := by
      rintro rfl
      rw [hdigit] at hd
      cases hd
    simp [formOf, form, hdigit, hne 'n' (by decide), hne 't' (by decide), hne 'f' (by decide)]
  | text a => exact ⟨'"', _, by rw [compact, toList_quote, List.cons_append], rfl⟩
  | list vs => exact ⟨'[', _, by rw [toList_compact_list, List.cons_append], rfl⟩
  | object es => exact ⟨'\x7b', _, by rw [toList_compact_object, List.cons_append], rfl⟩

theorem form_eq_of_append_eq {v w : Json} {s t : List Char}
    (h : v.compact.toList ++ s = w.compact.toList ++ t) : v.form = w.form := by
  obtain ⟨c, cs, hc, hv⟩ := exists_first v s
  obtain ⟨d, ds, hd, hw⟩ := exists_first w t
  rw [hc, hd] at h
  rw [← hv, ← hw, (List.cons.inj h).1]

theorem unique_entry {e : String × Json} (h : UniqueAt (fun v => v.compact.toList) e.2) :
    UniqueAt entryChars e := by
  rintro ⟨key, v⟩ s t hs ht heq
  obtain ⟨key', v'⟩ := e
  simp only [entryChars, List.append_assoc, List.cons_append] at heq
  obtain ⟨rfl, hrest⟩ := quote_append_inj heq
  obtain ⟨rfl, hst⟩ := h v s t hs ht (List.cons.inj hrest).2
  exact ⟨rfl, hst⟩

theorem first_ne_of_form {v : Json} {close : Char} (h : formOf close = 6) (s : List Char) :
    ∃ c cs, v.compact.toList ++ s = c :: cs ∧ c ≠ close := by
  obtain ⟨c, cs, hc, hv⟩ := exists_first v s
  refine ⟨c, cs, hc, ?_⟩
  rintro rfl
  rw [h] at hv
  cases v <;> cases hv

/-- **The text of a value stands where no other value's text can stand.** -/
theorem unique_compact (v : Json) : UniqueAt (fun v => v.compact.toList) v := by
  induction v using Json.induction with
  | null =>
    intro w s t _ _ h
    have hform := form_eq_of_append_eq h
    cases w <;> cases hform
    exact ⟨rfl, List.append_cancel_left h⟩
  | bool b =>
    intro w s t _ _ h
    have hform := form_eq_of_append_eq h
    cases w <;> cases hform
    rename_i b'
    cases b <;> cases b' <;> simp [compact] at h ⊢ <;> exact h
  | number n =>
    intro w s t hs ht h
    have hform := form_eq_of_append_eq h
    cases w <;> cases hform
    rename_i m
    obtain ⟨rfl, hst⟩ := unique_number n m s t hs ht (by simpa [compact] using h)
    exact ⟨rfl, hst⟩
  | text a =>
    intro w s t _ _ h
    have hform := form_eq_of_append_eq h
    cases w <;> cases hform
    rename_i b
    obtain ⟨rfl, hst⟩ := quote_append_inj h
    exact ⟨rfl, hst⟩
  | list vs ih =>
    intro w s t _ _ h
    have hform := form_eq_of_append_eq h
    cases w <;> cases hform
    rename_i ws
    simp only [toList_compact_list, List.cons_append, List.append_assoc, List.nil_append,
      List.cons.injEq, true_and] at h
    obtain ⟨rfl, hst⟩ := unique_items (by decide) (by decide)
      (fun _ => first_ne_of_form (by decide)) ih h
    exact ⟨rfl, hst⟩
  | object es ih =>
    intro w s t _ _ h
    have hform := form_eq_of_append_eq h
    cases w <;> cases hform
    rename_i fs
    simp only [toList_compact_object, List.cons_append, List.append_assoc, List.nil_append,
      List.cons.injEq, true_and] at h
    have hstart (e : String × Json) (t : List Char) :
        ∃ c cs, entryChars e ++ t = c :: cs ∧ c ≠ '\x7d' :=
      ⟨'"', _, by rw [entryChars, toList_quote, List.cons_append, List.cons_append], by decide⟩
    obtain ⟨rfl, hst⟩ := unique_items (by decide) (by decide) hstart
      (fun e he => unique_entry (ih e he)) h
    exact ⟨rfl, hst⟩

/-- **The compact text determines the value.** -/
theorem compact_injective {v w : Json} (h : v.compact = w.compact) : v = w := by
  have hends : Stops [] := by simp [Stops]
  exact (unique_compact v w [] [] hends hends (congrArg (·.toList ++ []) h)).1

end AnnotatedHeader.Json
