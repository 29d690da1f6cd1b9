import AnnotatedHeader.Proofs.Declaration.Forest
import AnnotatedHeader.Proofs.Result
import AnnotatedHeader.Proofs.Scope.Reads
import AnnotatedHeader.Proofs.Scope.Nodes
import AnnotatedHeader.Proofs.Statement.ParamDocs
import Mathlib

/-! Scopes read sound forests.

Each declaration of a scope is sound with all that is below it, stands under the path of
the scope and is of a kind that may stand there: `Declaration.FitsIn`. A turn keeps this
of what has been read (`Takes.sound`), whatever it merges and whichever scope it opens,
so it holds of the whole scope (`Reads.fits`) and makes a file a forest
(`Contents.forest_of_ofLines`). -/
namespace AnnotatedHeader

open QualifiedPath

/-- What holds of a declaration that stands in a scope. -/
structure Declaration.FitsIn (s : Scope) (d : Declaration) : Prop where
  sound : ∀ m ∈ d.walk, m.Sound
  notVariant : d.kind ≠ .variant
  property : d.kind = .property → s.record.isSome = true
  named : d.path ≠ ""
  under : s.path ≠ "" → Under s.path d.path

namespace Declaration

theorem forall_walk_inherit {winner loser : Declaration}
    (same : sameEntity winner loser = true) (hw : ∀ m ∈ winner.walk, m.Sound)
    (hl : ∀ m ∈ loser.walk, m.Sound) : ∀ m ∈ (Declaration.inherit winner loser).walk, m.Sound := by
  obtain ⟨hown, hbelow⟩ := forall_walk_iff.1 hw
  exact forall_walk_iff.2 ⟨hown.inherit same (forall_walk_iff.1 hl).1, hbelow⟩

theorem FitsIn.inherit {s : Scope} {winner loser : Declaration}
    (same : sameEntity winner loser = true) (hw : winner.FitsIn s) (hl : loser.FitsIn s) :
    (Declaration.inherit winner loser).FitsIn s :=
  ⟨forall_walk_inherit same hw.sound hl.sound, hw.notVariant, hw.property, hw.named, hw.under⟩

end Declaration

/-! ### Enum bodies -/

/-- What holds of the members of the enum at `path`. -/
structure Declaration.IsVariantOf (path : String) (d : Declaration) : Prop where
  sound : ∀ m ∈ d.walk, m.Sound
  kind : d.kind = .variant
  under : path ≠ "" → Under path d.path

theorem Declaration.IsVariantOf.inherit {path : String} {winner loser : Declaration}
    (same : sameEntity winner loser = true) (hw : winner.IsVariantOf path)
    (hl : loser.IsVariantOf path) : (Declaration.inherit winner loser).IsVariantOf path :=
  ⟨forall_walk_inherit same hw.sound hl.sound, hw.kind, hw.under⟩

namespace EnumBody

theorem macroName_of_reflection {t : Token} {args : List Token} {r : Reflection}
    (h : reflection t args = .ok r) : r.macroName = metaMacro := by
  unfold reflection at h
  split at h
  · split at h
    · split at h
      · cases h
        rfl
      · cases h
    · cases h
  · cases h

theorem macroName_of_variant {path : String} {doc : Option DocBlock} {ts : List Token}
    {member : Declaration} (h : variant path doc ts = .ok (some member)) :
    ∀ r ∈ member.reflection, r.macroName = metaMacro := by
  unfold variant at h
  split at h
  · split at h
    · split at h
      · obtain ⟨r, hr, h⟩ := Except.bind_eq_ok.1 h
        cases h
        obtain ⟨r', hr', rfl⟩ := Except.map_eq_ok.1 hr
        intro r hr
        cases hr
        exact macroName_of_reflection hr'
      · cases h
        simp
    · cases h
  · cases h

theorem isVariantOf_of_variant {path : String} {doc : Option DocBlock} {ts : List Token}
    {member : Declaration} (h : variant path doc ts = .ok (some member)) :
    member.IsVariantOf path := by
  have hmarks := macroName_of_variant h
  obtain ⟨name, rest, reflection, -, -, rfl⟩ := eq_of_variant h
  refine ⟨Declaration.forall_walk_iff.2 ⟨?_, by simp⟩, rfl, under_join⟩
  refine ⟨Declaration.apart_nil, by simp, by simp, by simp, by simp, ?_, rfl⟩
  intro r hr
  exact Kind.markedBy_variant.2 (hmarks r hr)

/-- The variants that an enum's body declares. -/
theorem variants_of_read {path : String} {members found : List Declaration}
    {doc : Option DocBlock} {ps rest : List Piece} (hapart : Declaration.Apart members)
    (hmembers : ∀ m ∈ members, m.IsVariantOf path)
    (h : (read path members doc ps).result = .ok (found, rest)) :
    Declaration.Apart found ∧ ∀ m ∈ found, m.IsVariantOf path := by
  fun_induction read path members doc ps with
  | case1 members doc =>
    cases h
    exact ⟨hapart, hmembers⟩
  | case2 members doc b ps ih => exact ih hapart hmembers h
  | case3 => cases h
  | case4 members doc t ps =>
    cases h
    exact ⟨hapart, hmembers⟩
  | case5 members doc t ps _ ih => exact ih hapart hmembers h
  | case6 members doc t ps more _ _ ih =>
    obtain ⟨members', hentry, h⟩ := Outcome.result_bind_eq_ok.1 h
    unfold addEntry at hentry
    obtain ⟨entry, hvariant, hentry⟩ := Outcome.result_bind_eq_ok.1 hentry
    rw [Outcome.result_ofExcept] at hvariant
    split at hentry
    · rename_i member
      rw [Declaration.result_mergeInto] at hentry
      cases hentry
      exact ih _ (Declaration.apart_merged hapart member)
        (Declaration.forall_merged Declaration.IsVariantOf.inherit hmembers
          (isVariantOf_of_variant hvariant)) h
    · obtain ⟨-, -, hentry⟩ := Outcome.result_bind_eq_ok.1 hentry
      cases hentry
      exact ih _ hapart hmembers h

end EnumBody

/-! ### Heads -/

/-- A head declares no variant, properties only inside records, and an enum or a record
with a body only in front of one. -/
theorem Head.item_of_classify {stmt : Statement} {record : Option String} {first h : Heading}
    {others : List Heading} (hc : classify stmt record = .declares first others)
    (hh : h ∈ first :: others) :
    h.item.kind ≠ .variant ∧ (h.item.kind = .property → record.isSome = true) ∧
      (∀ shape, h.item = .enumeration shape → shape.hasBody = stmt.hasBody) ∧
      (∀ key shape, h.item = .record key shape → shape.hasBody = stmt.hasBody) := by
  cases form_of_classify hc with
  | enumeration =>
    rw [List.mem_singleton] at hh
    subst hh
    refine ⟨by simp [enumHead, Item.kind], by simp [enumHead, Item.kind], ?_, by simp [enumHead]⟩
    rintro shape ⟨⟩
    rfl
  | record tokens head =>
    obtain ⟨rfl, name, key, shape, -, -, hbody, rfl⟩ := eq_of_recordHead head
    rw [List.mem_singleton] at hh
    subst hh
    refine ⟨by cases key <;> simp [Item.kind, RecordKey.kind],
      by cases key <;> simp [Item.kind, RecordKey.kind], by simp, ?_⟩
    rintro key' shape' ⟨⟩
    exact hbody
  | function call head =>
    obtain ⟨rfl, inside, behind, name, lead, special, -, -, rfl⟩ := eq_of_functionHead head
    rw [List.mem_singleton] at hh
    subst hh
    exact ⟨by simp [Item.kind], by simp [Item.kind], by simp, by simp⟩
  | properties within head =>
    obtain ⟨us, -, hproperty⟩ := exists_of_propertyHeads head h hh
    obtain ⟨vs, d, shape, -, -, rfl⟩ := eq_of_property? hproperty
    exact ⟨by simp [Item.kind], fun _ => within, by simp, by simp⟩

/-! ### Scopes -/

namespace Scope

theorem markedBy_of_checked {h : Heading} {reflection : Option Reflection}
    (hkind : h.item.kind ≠ .variant)
    (hc : (checkReflection h reflection).result = .ok ()) :
    ∀ r ∈ reflection, h.item.kind.MarkedBy r.macroName := by
  intro r hr
  cases hr
  unfold checkReflection at hc
  dsimp only at hc
  split at hc
  · rename_i hmarked
    unfold Kind.MarkedBy
    rw [if_neg hkind]
    obtain ⟨e, he, hek⟩ := Option.map_eq_some_iff.1 hmarked
    have hname : e.1 = r.macroName := by simpa using List.find?_some he
    rw [← hname, ← hek]
    exact List.mem_of_find?_eq_some he
  · cases hc

section
variable {s : Scope} {stmt : Statement} {first h : Heading} {others : List Heading}
  {waiting : Pending} {visibility : Visibility} {line : Nat}

/-- What a head declares has a place in its scope as soon as it has a name and its members
fit. -/
theorem fitsIn_declared {members : List Declaration}
    (hc : Head.classify stmt s.record = .declares first others) (hh : h ∈ first :: others)
    (checked : (checkReflection h waiting.reflection).result = .ok ()) (hname : h.name ≠ "")
    (apart : Declaration.Apart members)
    (holds : members ≠ [] → h.item.kind = .enumType ∨ h.item.kind = .structType ∨
      h.item.kind = .classType)
    (variants : ∀ m ∈ members, m.kind = .variant ↔ h.item.kind = .enumType)
    (bodiless : h.item.hasBody = false → members = [])
    (under : ∀ m ∈ members, Under (QualifiedPath.join s.path h.name) m.path)
    (below : ∀ m ∈ members, ∀ n ∈ m.walk, n.Sound) :
    Declaration.FitsIn s ⟨s.declared visibility line waiting h, members⟩ := by
  obtain ⟨hkind, hproperty, -, -⟩ := Head.item_of_classify hc hh
  refine ⟨Declaration.forall_walk_iff.2 ⟨?_, below⟩, hkind, hproperty, join_ne_empty hname,
    under_join⟩
  exact ⟨apart, holds, variants, bodiless, under, markedBy_of_checked hkind checked, rfl⟩

theorem fitsIn_declared_leaf (hc : Head.classify stmt s.record = .declares first others)
    (hh : h ∈ first :: others)
    (checked : (checkReflection h waiting.reflection).result = .ok ()) (hname : h.name ≠ "") :
    Declaration.FitsIn s ⟨s.declared visibility line waiting h, []⟩ :=
  fitsIn_declared hc hh checked hname Declaration.apart_nil (by simp) (by simp) (by simp) (by simp) (by simp)

end

/-- The same of what has been read of a scope. -/
structure State.Sound (s : Scope) (b : State) : Prop where
  apart : Declaration.Apart b.members
  fits : ∀ d ∈ b.members, d.FitsIn s

theorem State.Sound.added {s : Scope} {b : State} (hb : b.Sound s) {d : Declaration}
    (hd : d.name ≠ "" → d.FitsIn s) : (b.added d).Sound s := by
  unfold State.added
  split
  · exact hb
  · rename_i hname
    exact ⟨Declaration.apart_merged hb.apart d,
      Declaration.forall_merged Declaration.FitsIn.inherit hb.fits (hd (by simpa using hname))⟩

theorem State.Sound.foldl_added {s : Scope} {b : State} (hb : b.Sound s) {ds : List Declaration}
    (hds : ∀ d ∈ ds, d.name ≠ "" → d.FitsIn s) : (ds.foldl State.added b).Sound s := by
  induction ds generalizing b with
  | nil => exact hb
  | cons d ds ih =>
    obtain ⟨hd, hds⟩ := List.forall_mem_cons.1 hds
    exact ih (hb.added hd) hds

/-- What the scope `inner` holds has its place in `s` once it has closed. -/
def Frame.Sound (s inner : Scope) : Frame → Prop
  | .transparent b => b.Sound s ∧ ∀ d : Declaration, d.FitsIn inner → d.FitsIn s
  | .memberOf b own =>
    b.Sound s ∧ ∀ members, Declaration.Apart members → (∀ m ∈ members, m.FitsIn inner) →
      own.name ≠ "" → Declaration.FitsIn s ⟨own, members⟩

theorem Frame.Sound.resumed {s inner : Scope} {f : Frame} (hf : f.Sound s inner)
    {found : Contents} (apart : Declaration.Apart found.declarations)
    (fits : ∀ d ∈ found.declarations, d.FitsIn inner) : (f.resumed found).Sound s := by
  cases f with
  | transparent b =>
    obtain ⟨hb, outer⟩ := hf
    exact ⟨Declaration.apart_foldl_merged hb.apart _,
      Declaration.forall_foldl_merged Declaration.FitsIn.inherit hb.fits
        fun d hd => outer d (fits d hd)⟩
  | memberOf b own =>
    obtain ⟨hb, outer⟩ := hf
    refine State.Sound.added (b := { b with injects := b.injects ++ found.injects })
      ⟨hb.apart, hb.fits⟩ ?_
    exact outer found.declarations apart fits

/-- The same of what a turn leaves. -/
def Turn.Sound (s : Scope) : Turn → Prop
  | .closes _ => True
  | .continues b _ => b.Sound s
  | .opens inner frame _ => frame.Sound s inner

theorem Declares.sound {s : Scope} {b : State} {ps : List Piece} {u : Turn} (hb : b.Sound s)
    (h : Declares s b ps u) : u.Sound s := by
  have hempty : State.Sound s { b with pending := {} } := ⟨hb.apart, hb.fits⟩
  cases h with
  | passesOver read head free skipped => exact hempty
  | @opensRecord stmt first others rest key shape read head checked body item =>
    refine ⟨hempty, ?_⟩
    intro members apart fits hname
    have hfirst := Head.item_of_classify head (List.mem_cons_self ..)
    have hrecord : first.item.kind = .structType ∨ first.item.kind = .classType := by
      rw [item]
      cases key <;> simp [Item.kind, RecordKey.kind]
    refine fitsIn_declared head (List.mem_cons_self ..) checked hname apart (fun _ => .inr hrecord)
      ?_ ?_ (fun m hm => (fits m hm).under (join_ne_empty hname)) fun m hm => (fits m hm).sound
    · intro m hm
      refine iff_of_false (fits m hm).notVariant ?_
      rcases hrecord with hk | hk <;> simp [hk]
    · intro hbodiless
      rw [item] at hbodiless
      change shape.hasBody = false at hbodiless
      rw [hfirst.2.2.2 key shape item, body] at hbodiless
      cases hbodiless
  | @readsEnum stmt first others rest rest' shape members read head checked body item entries =>
    refine hempty.added fun hname => ?_
    have hfirst := Head.item_of_classify head (List.mem_cons_self ..)
    have henum : first.item.kind = .enumType := by rw [item]; rfl
    obtain ⟨apart, variants⟩ := EnumBody.variants_of_read Declaration.apart_nil (by simp) entries
    refine fitsIn_declared head (List.mem_cons_self ..) checked hname apart (fun _ => .inl henum)
      ?_ ?_ (fun m hm => (variants m hm).under (join_ne_empty hname))
      fun m hm => (variants m hm).sound
    · exact fun m hm => iff_of_true (variants m hm).kind henum
    · intro hbodiless
      rw [item] at hbodiless
      change shape.hasBody = false at hbodiless
      rw [hfirst.2.2.1 shape item, body] at hbodiless
      cases hbodiless
  | skipsBody read head checked body record enum skipped =>
    exact hempty.added (fitsIn_declared_leaf head (List.mem_cons_self ..) checked)
  | announces read head checked bodiless =>
    refine hempty.foldl_added (List.forall_mem_cons.2 ⟨?_, ?_⟩)
    · exact fitsIn_declared_leaf head (List.mem_cons_self ..) checked
    · intro d hd
      obtain ⟨h, hh, rfl⟩ := List.mem_map.1 hd
      exact fitsIn_declared_leaf head (List.mem_cons_of_mem _ hh) rfl

theorem fitsIn_of_inNamespace {s : Scope} {name : String} {d : Declaration}
    (h : d.FitsIn (s.inNamespace name)) : d.FitsIn s := by
  refine ⟨h.sound, h.notVariant, fun hk => ?_, h.named, fun hs => ?_⟩
  · cases h.property hk
  · have hunder := h.under
    unfold inNamespace at hunder
    by_cases hname : name.isEmpty = true
    · rw [if_pos hname] at hunder
      exact hunder hs
    · rw [if_neg hname] at hunder
      have hinner : Under s.path (QualifiedPath.join s.path name) := under_join hs
      exact hinner.trans (hunder hinner.ne_empty)

theorem Takes.sound {s : Scope} {b : State} {p : Piece} {ps : List Piece} {u : Turn}
    (hb : b.Sound s) (h : Takes s b p ps u) : u.Sound s := by
  cases h with
  | closes => trivial
  | passes | aliases | endsNamespaceHead | passesOverKeyword | calls => exact ⟨hb.apart, hb.fits⟩
  | doc | inject | label | template | annotates => exact ⟨hb.apart, hb.fits⟩
  | opensNamespace => exact ⟨⟨hb.apart, hb.fits⟩, fun _ => fitsIn_of_inNamespace⟩
  | opensLinkage =>
    refine ⟨⟨hb.apart, hb.fits⟩, fun d hd => ?_⟩
    exact ⟨hd.sound, hd.notVariant, hd.property, hd.named, hd.under⟩
  | declares _ _ h => exact h.sound hb

/-- **Everything that a scope declares has its place in it.** -/
theorem Reads.fits {s : Scope} {b : State} {ps rest : List Piece} {found : Contents}
    (hb : b.Sound s) (h : Reads s b ps found rest) :
    Declaration.Apart found.declarations ∧ ∀ d ∈ found.declarations, d.FitsIn s := by
  have hstart (s : Scope) : s.start.Sound s := ⟨Declaration.apart_nil, by simp [start]⟩
  induction h with
  | ends => exact ⟨hb.apart, hb.fits⟩
  | closes => exact ⟨hb.apart, hb.fits⟩
  | continues taken _ ih => exact ih ((takes_of_turn taken).sound hb)
  | @opens s inner b p ps rest _ _ frame _ _ taken inside _ ihInside ihMore =>
    have hframe : frame.Sound s inner := (takes_of_turn taken).sound hb
    obtain ⟨apart, fits⟩ := ihInside (hstart inner)
    exact ihMore (hframe.resumed apart fits)

theorem Reads.fits_of_start {s : Scope} {ps rest : List Piece} {found : Contents}
    (h : Reads s s.start ps found rest) :
    Declaration.Apart found.declarations ∧ ∀ d ∈ found.declarations, d.FitsIn s :=
  h.fits ⟨Declaration.apart_nil, by simp [start]⟩

/-- **What a header declares is a forest**, whatever its lines and comment blocks are: no
two siblings of one entity, members only in bodies and below the path of what holds them,
macros only where they are registered, and nothing synthetic. -/
theorem Contents.forest_of_ofLines {lines : List SourceLine} {blocks : List CommentBlock}
    {found : Contents} (h : (ofLines lines blocks).result = .ok found) :
    Declaration.Forest found.declarations := by
  obtain ⟨rest, hreads⟩ := Contents.result_ofLines_eq_ok.1 h
  obtain ⟨apart, fits⟩ := hreads.fits_of_start
  refine ⟨apart, fun d hd => ⟨(fits d hd).notVariant, fun hk => ?_⟩, ?_⟩
  · cases (fits d hd).property hk
  · rw [Declaration.walkAll_eq_flatMap]
    exact List.forall_mem_flatMap.2 fun d hd => (fits d hd).sound

/-- An enum that is announced first and has a variant twice. -/
theorem Contents.forest_of_ofLines_enum :
    ∃ found, (ofLines [⟨1, 0, "enum E; UENUM()", .code, false⟩,
        ⟨2, 16, "enum E \x7b A UMETA(), A \x7d;", .code, false⟩] []).result = .ok found ∧
      (Declaration.walkAll found.declarations).map (fun d => (d.kind, d.path, d.line)) =
        [(.enumType, "E", 2), (.variant, "E::A", 2)] ∧
      Declaration.Forest found.declarations := by
  have hfound : (ofLines [⟨1, 0, "enum E; UENUM()", .code, false⟩,
        ⟨2, 16, "enum E \x7b A UMETA(), A \x7d;", .code, false⟩] []).result.map
        (fun found =>
          (Declaration.walkAll found.declarations).map fun d => (d.kind, d.path, d.line)) =
      .ok [(.enumType, "E", 2), (.variant, "E::A", 2)] := by
    cbv
  obtain ⟨found, hfound, hwalk⟩ := Except.map_eq_ok.1 hfound
  exact ⟨found, hfound, hwalk, forest_of_ofLines hfound⟩

end Scope

end AnnotatedHeader
