import AnnotatedHeader.Proofs.Metadata.Cuts
import AnnotatedHeader.Proofs.Token.Cut

/-! Printed metadata stands on one line.

What is read as metadata from tokens without line feeds is printed without any
(`Metadata.not_mem_toSource`): keys and values are joined tokens or what is left of one. -/
namespace AnnotatedHeader.Metadata

/-! ### Texts -/

theorem unescaped_subset (cs : List Char) : unescaped cs ⊆ cs := by
  fun_induction unescaped cs with
  | case1 c cs ih =>
    exact List.cons_subset.2 ⟨by simp, fun d hd => by simp [ih hd]⟩
  | case2 => exact List.nil_subset _
  | case3 c cs _ _ ih => exact List.cons_subset_cons c ih
  | case4 => exact List.nil_subset _

theorem unquoted_subset (cs : List Char) : unquoted cs ⊆ cs := by
  unfold unquoted
  split
  · rename_i quote rest hrest
    have hsubset : rest ⊆ cs := by
      intro c hc
      exact (List.dropWhile_suffix _).subset (hrest ▸ List.mem_cons_of_mem quote hc)
    split
    · exact fun c hc => hsubset (List.dropLast_subset _ (unescaped_subset _ hc))
    · exact unescaped_subset cs
  · exact unescaped_subset cs

theorem not_mem_valueText {ts : List Token} (h : ∀ t ∈ ts, '\n' ∉ t.text.toList) :
    '\n' ∉ (valueText ts).toList := by
  unfold valueText
  split
  · rename_i t
    have ht := h t (List.mem_singleton_self t)
    split
    · rw [String.toList_ofList]
      exact fun hmem => ht (unquoted_subset _ hmem)
    · exact ht
  · exact Token.not_mem_join h

theorem not_mem_textArgument {text : String} (h : '\n' ∉ text.toList) :
    '\n' ∉ (textArgument text).toList := by
  unfold textArgument
  split
  · exact h
  · rw [String.toList_ofList, quotedText]
    intro hmem
    rcases List.mem_append.1 hmem with hmem | hmem
    · rcases List.mem_cons.1 hmem with hmem | hmem
      · cases hmem
      · obtain ⟨c, hc, hmem⟩ := List.mem_flatMap.1 hmem
        split at hmem
        · simp at hmem
        · exact h (List.mem_singleton.1 hmem ▸ hc)
    · simp at hmem

theorem not_mem_intercalate {separator : String} (hseparator : '\n' ∉ separator.toList)
    {texts : List String} (h : ∀ text ∈ texts, '\n' ∉ text.toList) :
    '\n' ∉ (separator.intercalate texts).toList := by
  rw [String.toList_intercalate]
  induction texts with
  | nil => exact List.not_mem_nil
  | cons text texts ih =>
    obtain ⟨htext, htexts⟩ := List.forall_mem_cons.1 h
    cases texts with
    | nil => simpa using htext
    | cons next texts =>
      rw [List.map_cons, List.map_cons, List.intercalate_cons_cons, List.mem_append, List.mem_append,
        not_or, not_or]
      exact ⟨⟨htext, hseparator⟩, ih htexts⟩

/-! ### Reading -/

theorem splitTop?_subset {depth : Nat} {ts : List Token} {parts : List (List Token)}
    (h : splitTop? depth ts = some parts) : ∀ part ∈ parts, part ⊆ ts := by
  have hcons {t : Token} {ts : List Token} {parts : List (List Token)}
      (h : ∀ part ∈ parts, part ⊆ ts) : ∀ part ∈ consToken t parts, part ⊆ t :: ts := by
    cases parts with
    | nil => simp [consToken]
    | cons part parts =>
      obtain ⟨hpart, hparts⟩ := List.forall_mem_cons.1 h
      refine List.forall_mem_cons.2 ⟨List.cons_subset_cons t hpart, fun p hp => ?_⟩
      exact List.subset_cons_of_subset t (hparts p hp)
  fun_induction splitTop? depth ts generalizing parts with
  | case1 =>
    cases h
    simp
  | case2 => cases h
  | case3 t ts _ ih =>
    obtain ⟨parts', hparts, rfl⟩ := Option.map_eq_some_iff.1 h
    refine List.forall_mem_cons.2 ⟨List.nil_subset _, fun p hp => ?_⟩
    exact List.subset_cons_of_subset t (ih hparts p hp)
  | case4 t ts depth _ ih =>
    obtain ⟨parts', hparts, rfl⟩ := Option.map_eq_some_iff.1 h
    exact hcons (ih hparts)
  | case5 => cases h
  | case6 t ts depth _ ih =>
    obtain ⟨parts', hparts, rfl⟩ := Option.map_eq_some_iff.1 h
    exact hcons (ih hparts)
  | case7 t ts depth _ _ _ _ ih =>
    obtain ⟨parts', hparts, rfl⟩ := Option.map_eq_some_iff.1 h
    exact hcons (ih hparts)

theorem insideGroup?_subset {depth : Nat} {ts inside : List Token}
    (h : insideGroup? depth ts = some inside) : inside ⊆ ts := by
  fun_induction insideGroup? depth ts generalizing inside with
  | case1 => cases h
  | case2 t ts depth _ ih | case5 t ts depth _ ih =>
    obtain ⟨inside', hinside, rfl⟩ := Option.map_eq_some_iff.1 h
    exact List.cons_subset_cons t (ih hinside)
  | case3 =>
    cases h
    exact List.nil_subset _
  | case4 => cases h
  | case6 t ts depth _ _ _ ih =>
    obtain ⟨inside', hinside, rfl⟩ := Option.map_eq_some_iff.1 h
    exact List.cons_subset_cons t (ih hinside)

theorem group?_subset {ts inside : List Token} (h : group? ts = some inside) : inside ⊆ ts := by
  cases ts with
  | nil => cases h
  | cons t ts =>
    rw [group?] at h
    split at h
    · exact List.subset_cons_of_subset t (insideGroup?_subset h)
    · cases h

theorem arguments_eq_map (m : Metadata) : arguments m = m.map fun e => e.2.argument e.1 := by
  induction m with
  | nil => rfl
  | cons e m ih => rw [arguments, ih, List.map_cons]

/-- Entries that are read of tokens on one line are printed on one, if their values are. -/
theorem not_mem_arguments_of_values {ts : List Token} (hts : ∀ t ∈ ts, '\n' ∉ t.text.toList)
    {m : Metadata} (h : read ts = .ok m)
    (values : ∀ e ∈ m, ∀ value, (∀ t ∈ value, '\n' ∉ t.text.toList) → readValue value = .ok e.2 →
      ∀ key : String, '\n' ∉ key.toList → '\n' ∉ (e.2.argument key).toList) :
    ∀ text ∈ arguments m, '\n' ∉ text.toList := by
  obtain ⟨parts, hparts, -, hgiven⟩ := exists_parts_of_read h
  rw [arguments_eq_map]
  refine List.forall_mem_map.2 fun e he => ?_
  obtain ⟨part, hpart, -, hgives⟩ := hgiven e he
  have hunbroken : ∀ t ∈ part, '\n' ∉ t.text.toList :=
    fun t ht => hts t (splitTop?_subset hparts part hpart ht)
  cases hgives with
  | flag plain =>
    rw [MetaValue.argument]
    exact Token.not_mem_join hunbroken
  | value cut reads =>
    obtain ⟨⟨equals, -, rfl⟩, -⟩ := cut
    obtain ⟨hkey, hvalue⟩ := List.forall_mem_append.1 hunbroken
    exact values _ he _ (List.forall_mem_cons.1 hvalue).2 reads _ (Token.not_mem_join hkey)

theorem not_mem_argument (v : MetaValue) : ∀ value, (∀ t ∈ value, '\n' ∉ t.text.toList) →
    readValue value = .ok v → ∀ key : String, '\n' ∉ key.toList → '\n' ∉ (v.argument key).toList := by
  induction v using MetaValue.induction with
  | flag =>
    intro value _ _ key hkey
    rwa [MetaValue.argument]
  | text text =>
    intro value hunbroken h key hkey
    have htext : text = valueText value := by
      rw [readValue] at h
      split at h
      · obtain ⟨es, -, hes⟩ := Except.map_eq_ok.1 h
        cases hes
      · cases h
        rfl
    rw [MetaValue.argument, htext]
    simpa using ⟨hkey, not_mem_textArgument (not_mem_valueText hunbroken)⟩
  | group es ih =>
    intro value hunbroken h key hkey
    obtain ⟨inner, hinner, hread⟩ := readValue_eq_group_iff.1 h
    have hargs : '\n' ∉ (", ".intercalate (arguments es)).toList := not_mem_intercalate (by decide)
      (not_mem_arguments_of_values (fun t ht => hunbroken t (group?_subset hinner ht)) hread ih)
    rw [MetaValue.argument]
    simp only [String.toList_append, List.mem_append, not_or]
    exact ⟨⟨⟨hkey, by decide⟩, hargs⟩, by decide⟩

/-! ### Macros -/

theorem toList_toSource (r : Reflection) :
    r.toSource.toList = r.macroName.toList ++ '(' :: r.metadata.toArgs.toList ++ [')'] := by
  unfold Reflection.toSource
  simp [toString]

/-- A macro whose name and arguments are on one line is printed on one. -/
theorem not_mem_toSource {name : String} (hname : '\n' ∉ name.toList) {ts : List Token}
    (hts : ∀ t ∈ ts, '\n' ∉ t.text.toList) {m : Metadata} (h : read ts = .ok m) (line : Nat) :
    '\n' ∉ (Reflection.toSource ⟨name, m, line⟩).toList := by
  have hargs : '\n' ∉ m.toArgs.toList :=
    not_mem_intercalate (by decide) (not_mem_arguments_of_values hts h fun e _ => not_mem_argument e.2)
  rw [toList_toSource]
  simp [hname, hargs]

end AnnotatedHeader.Metadata
