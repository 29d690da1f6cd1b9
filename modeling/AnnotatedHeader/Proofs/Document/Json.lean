import AnnotatedHeader.Document.Json
import AnnotatedHeader.Proofs.Json.Compact

/-! A document's JSON tells everything about it.

Each part of a document can be read off its JSON, so each `toJson` is injective, from
references up to trees. The fields of an item stand among those of its declaration: its kind
comes before them and says which ones they are (`Item.eq_of_entries`). With the compact text,
which determines the JSON, two documents of one text are one document
(`Document.compact_toJson_inj`). -/
namespace AnnotatedHeader

open Json (ofOption)

/-! ### Values that may be missing, and lists -/

theorem Json.ofOption_injective {α : Type} {f : α → Json} (hf : Function.Injective f)
    (hnull : ∀ a, f a ≠ .null) : Function.Injective (ofOption f) := by
  intro a b h
  cases a with
  | none =>
    cases b with
    | none => rfl
    | some b => exact absurd h.symm (hnull b)
  | some a =>
    cases b with
    | none => exact absurd h (hnull a)
    | some b => rw [hf h]

theorem Json.text_injective : Function.Injective Json.text := by
  intro a b h
  cases h
  rfl

theorem Json.ofOption_text_inj {a b : Option String} :
    ofOption Json.text a = ofOption Json.text b ↔ a = b :=
  (Json.ofOption_injective Json.text_injective fun _ => nofun).eq_iff

/-- Lists are equal when their images are and equal images come from equal items. -/
theorem eq_of_map_eq {α β : Type} {f : α → β} {as bs : List α}
    (each : ∀ a ∈ as, ∀ b, f a = f b → a = b) (h : as.map f = bs.map f) : as = bs := by
  induction as generalizing bs with
  | nil => exact (List.map_eq_nil_iff.1 h.symm).symm
  | cons a as ih =>
    obtain ⟨ha, has⟩ := List.forall_mem_cons.1 each
    cases bs with
    | nil => cases h
    | cons b bs =>
      obtain ⟨hab, hrest⟩ := List.cons.inj h
      rw [ha b hab, ih has hrest]

/-! ### Metadata -/

theorem Metadata.entriesToJson_eq_map (m : Metadata) :
    entriesToJson m = m.map fun e => (e.1, e.2.toJson) := by
  induction m with
  | nil => rfl
  | cons e m ih =>
    obtain ⟨key, value⟩ := e
    rw [entriesToJson, ih, List.map_cons]

theorem Metadata.eq_of_entriesToJson {m n : Metadata}
    (each : ∀ e ∈ m, ∀ w : MetaValue, e.2.toJson = w.toJson → e.2 = w)
    (h : entriesToJson m = entriesToJson n) : m = n := by
  rw [entriesToJson_eq_map, entriesToJson_eq_map] at h
  refine eq_of_map_eq (fun e he e' hee' => ?_) h
  obtain ⟨hkey, hvalue⟩ := Prod.mk.inj hee'
  exact Prod.ext hkey (each e he _ hvalue)

theorem MetaValue.toJson_injective : Function.Injective MetaValue.toJson := by
  intro v
  induction v using MetaValue.induction with
  | flag =>
    intro w h
    cases w <;> cases h
    rfl
  | text t =>
    intro w h
    cases w <;> cases h
    rfl
  | group es ih =>
    intro w h
    cases w with
    | group fs => rw [Metadata.eq_of_entriesToJson (fun e he w => @ih e he w) (Json.object.inj h)]
    | flag | text => cases h

theorem Metadata.toJson_injective : Function.Injective Metadata.toJson := by
  intro m n h
  exact eq_of_entriesToJson (fun _ _ _ h => MetaValue.toJson_injective h) (Json.object.inj h)

theorem Reflection.toJson_injective : Function.Injective Reflection.toJson := by
  rintro ⟨name, metadata, line⟩ ⟨name', metadata', line'⟩ h
  simp only [toJson, Json.object.injEq, List.cons.injEq, Prod.mk.injEq, Json.text.injEq,
    Json.number.injEq, true_and, and_true] at h
  obtain ⟨rfl, hmetadata, rfl⟩ := h
  rw [Metadata.toJson_injective hmetadata]

/-! ### Doc blocks -/

theorem Example.toJson_injective : Function.Injective Example.toJson := by
  rintro ⟨snippet, line, code⟩ ⟨snippet', line', code'⟩ h
  simp only [toJson, Json.object.injEq, List.cons.injEq, Prod.mk.injEq, Json.text.injEq,
    Json.number.injEq, Json.ofOption_text_inj, true_and, and_true] at h
  obtain ⟨rfl, rfl, rfl⟩ := h
  rfl

theorem Segment.toJson_injective : Function.Injective Segment.toJson := by
  intro a b h
  cases a with
  | markdown text =>
    cases b with
    | markdown text' =>
      cases h
      rfl
    | shown x => simp [toJson] at h
  | shown x =>
    cases b with
    | markdown text => simp [toJson] at h
    | shown y =>
      simp only [toJson, Json.object.injEq, List.cons.injEq, Prod.mk.injEq, true_and, and_true] at h
      rw [Example.toJson_injective h]

theorem CrossReference.toJson_injective : Function.Injective CrossReference.toJson := by
  rintro ⟨kind, path, line, target⟩ ⟨kind', path', line', target'⟩ h
  simp only [toJson, Json.object.injEq, List.cons.injEq, Prod.mk.injEq, Json.text.injEq,
    Json.number.injEq, Json.ofOption_text_inj, true_and, and_true] at h
  obtain ⟨hkind, rfl, rfl, rfl⟩ := h
  rw [Kind.word_injective hkind]

theorem DocBlock.toJson_injective : Function.Injective DocBlock.toJson := by
  rintro ⟨line, segments, references⟩ ⟨line', segments', references'⟩ h
  simp only [toJson, Json.object.injEq, List.cons.injEq, Prod.mk.injEq, Json.list.injEq,
    Json.number.injEq, true_and, and_true] at h
  obtain ⟨rfl, hsegments, hreferences⟩ := h
  rw [Segment.toJson_injective.list_map hsegments,
    CrossReference.toJson_injective.list_map hreferences]

theorem DocBlock.ofOption_toJson_injective : Function.Injective (ofOption DocBlock.toJson) :=
  Json.ofOption_injective DocBlock.toJson_injective fun _ => nofun

/-! ### Declarations -/

theorem Visibility.word_injective {v w : Visibility} (h : v.word = w.word) : v = w := by
  cases v <;> cases w <;> simp_all [word]

theorem Param.toJson_injective : Function.Injective Param.toJson := by
  rintro ⟨name, type, default, doc⟩ ⟨name', type', default', doc'⟩ h
  simp only [toJson, Json.object.injEq, List.cons.injEq, Prod.mk.injEq, Json.text.injEq,
    Json.ofOption_text_inj, true_and, and_true] at h
  obtain ⟨rfl, rfl, rfl, hdoc⟩ := h
  rw [DocBlock.ofOption_toJson_injective hdoc]

/-- The kind of an item says which of the entries are its own. -/
theorem Item.eq_of_entries {a b : Item} {more more' : List (String × Json)} (hkind : a.kind = b.kind)
    (h : a.entries ++ more = b.entries ++ more') : a = b ∧ more = more' := by
  cases a with
  | enumeration shape =>
    cases b with
    | enumeration shape' =>
      obtain ⟨isScoped, underlying, hasBody⟩ := shape
      obtain ⟨isScoped', underlying', hasBody'⟩ := shape'
      simpa [entries, Json.ofOption_text_inj, and_assoc] using h
    | record key => cases key <;> cases hkind
    | function | property | variant => cases hkind
  | record key shape =>
    cases b with
    | record key' shape' =>
      have hkey : key = key' := by
        cases key <;> cases key' <;> first | rfl | cases hkind
      obtain ⟨api, bases, hasBody⟩ := shape
      obtain ⟨api', bases', hasBody'⟩ := shape'
      simpa [entries, Json.ofOption_text_inj, Json.text_injective.list_map.eq_iff, and_assoc, hkey]
        using h
    | enumeration | function | property | variant => cases key <;> cases hkind
  | function shape =>
    cases b with
    | function shape' =>
      obtain ⟨lead, params, qualifiers, special, hasBody⟩ := shape
      obtain ⟨lead', params', qualifiers', special', hasBody'⟩ := shape'
      simpa [entries, Json.ofOption_text_inj, Param.toJson_injective.list_map.eq_iff, and_assoc]
        using h
    | record key => cases key <;> cases hkind
    | enumeration | property | variant => cases hkind
  | property shape =>
    cases b with
    | property shape' =>
      obtain ⟨type, array, default, isStatic⟩ := shape
      obtain ⟨type', array', default', isStatic'⟩ := shape'
      simpa [entries, Json.ofOption_text_inj, and_assoc] using h
    | record key => cases key <;> cases hkind
    | enumeration | function | variant => cases hkind
  | variant value =>
    cases b with
    | variant value' => simpa [entries, Json.ofOption_text_inj] using h
    | record key => cases key <;> cases hkind
    | enumeration | function | property => cases hkind

namespace Declaration

theorem listToJson_eq_map (ds : List Declaration) : listToJson ds = ds.map toJson := by
  induction ds with
  | nil => rfl
  | cons d ds ih => rw [listToJson, ih, List.map_cons]

/-- What the entries of two declarations have in common they have in their fields. -/
theorem eq_of_entries {own own' : Declared} {members members' : List Json}
    (h : own.entries ++ ("members", .list members) ::
        (if own.synthetic then [("synthetic", .bool true)] else []) =
      own'.entries ++ ("members", .list members') ::
        (if own'.synthetic then [("synthetic", .bool true)] else [])) :
    own = own' ∧ members = members' := by
  obtain ⟨name, path, line, visibility, template, reflection, signature, doc, item, synthetic⟩ := own
  obtain ⟨name', path', line', visibility', template', reflection', signature', doc', item',
    synthetic'⟩ := own'
  simp only [Declared.entries, List.cons_append, List.nil_append, List.cons.injEq, Prod.mk.injEq,
    Json.text.injEq, Json.number.injEq, Json.ofOption_text_inj, true_and] at h
  obtain ⟨rfl, rfl, rfl, hvisibility, rfl, hreflection, rfl, hdoc, hkind, hentries⟩ := h
  obtain ⟨rfl, hmore⟩ := Item.eq_of_entries (Kind.word_injective hkind) hentries
  simp only [List.cons.injEq, Prod.mk.injEq, Json.list.injEq, true_and] at hmore
  obtain ⟨hmembers, hsynthetic⟩ := hmore
  have hreflections : Function.Injective (ofOption Reflection.toJson) :=
    Json.ofOption_injective Reflection.toJson_injective fun _ => nofun
  have hflag : synthetic = synthetic' := by
    cases synthetic <;> cases synthetic' <;> first | rfl | cases hsynthetic
  refine ⟨?_, hmembers⟩
  rw [Visibility.word_injective hvisibility, hreflections hreflection,
    DocBlock.ofOption_toJson_injective hdoc, hflag]

theorem toJson_injective : Function.Injective toJson := by
  intro d
  induction d using Declaration.induction with
  | step own members ih =>
    rintro ⟨own', members'⟩ h
    rw [toJson, toJson] at h
    obtain ⟨rfl, hmembers⟩ := eq_of_entries (Json.object.inj h)
    rw [listToJson_eq_map, listToJson_eq_map] at hmembers
    rw [eq_of_map_eq (fun m hm m' => @ih m hm m') hmembers]

end Declaration

/-! ### Documents -/

theorem Document.toJson_injective : Function.Injective Document.toJson := by
  rintro ⟨file, declarations, snippets⟩ ⟨file', declarations', snippets'⟩ h
  simp only [toJson, Json.object.injEq, List.cons.injEq, Prod.mk.injEq, Json.text.injEq,
    Json.list.injEq, Declaration.listToJson_eq_map, true_and, and_true] at h
  obtain ⟨rfl, hdeclarations, hsnippets⟩ := h
  have hsnippet : Function.Injective fun s : String × String => (s.1, Json.text s.2) := by
    rintro ⟨name, text⟩ ⟨name', text'⟩ h
    simpa using h
  rw [Declaration.toJson_injective.list_map hdeclarations, hsnippet.list_map hsnippets]

/-- **Two documents of one compact text are one document.** -/
theorem Document.compact_toJson_inj (d e : Document) :
    d.toJson.compact = e.toJson.compact ↔ d = e := by
  constructor
  · intro h
    exact toJson_injective (Json.compact_injective h)
  · rintro rfl
    rfl

end AnnotatedHeader
