import AnnotatedHeader.Declaration.Docs
import AnnotatedHeader.Outcome
import AnnotatedHeader.Proofs.Declaration.Every
import Mathlib.Data.List.Forall2

/-! What a traversal of the doc blocks of trees leaves.

A traversal that succeeds leaves every declaration at its place, and of each it maps
the doc blocks one by one and touches nothing else (`mapped_of_mapDocsAll`). -/
namespace AnnotatedHeader

open List (Forall₂)

namespace Outcome
variable {α β : Type}

theorem result_mapM_eq_ok {f : α → Outcome β} {xs : List α} {ys : List β} :
    (xs.mapM f).result = .ok ys ↔ Forall₂ (fun x y => (f x).result = .ok y) xs ys := by
  induction xs generalizing ys with
  | nil =>
    rw [List.mapM_nil, List.forall₂_nil_left_iff, result_pure]
    constructor
    · intro h
      cases h
      rfl
    · rintro rfl
      rfl
  | cons x xs ih =>
    rw [List.mapM_cons, List.forall₂_cons_left_iff]
    constructor
    · intro h
      obtain ⟨y, hy, h⟩ := result_bind_eq_ok.1 h
      obtain ⟨ys', hys, h⟩ := result_bind_eq_ok.1 h
      cases h
      exact ⟨y, ys', hy, ih.1 hys, rfl⟩
    · rintro ⟨y, ys', hy, hys, rfl⟩
      exact result_bind_eq_ok.2 ⟨y, hy, result_bind_eq_ok.2 ⟨ys', ih.2 hys, rfl⟩⟩

theorem rel_of_optionMapM {f : α → Outcome β} {o : Option α} {o' : Option β}
    (h : (o.mapM f).result = .ok o') : Option.Rel (fun x y => (f x).result = .ok y) o o' := by
  cases o with
  | none =>
    cases h
    exact .none
  | some a =>
    obtain ⟨b, hb, h⟩ := result_bind_eq_ok.1 h
    cases h
    exact .some hb

end Outcome

theorem forall₂_toList {α β : Type} {R : α → β → Prop} {o : Option α} {o' : Option β}
    (h : Option.Rel R o o') : Forall₂ R o.toList o'.toList := by
  cases h with
  | none => exact .nil
  | some h => exact .cons h .nil

theorem exists_left_of_forall₂ {α β : Type} {R : α → β → Prop} {xs : List α} {ys : List β}
    (h : Forall₂ R xs ys) {y : β} (hy : y ∈ ys) : ∃ x ∈ xs, R x y := by
  induction h with
  | nil => cases hy
  | cons hxy _ ih =>
    rcases List.mem_cons.1 hy with rfl | hy
    · exact ⟨_, List.mem_cons_self .., hxy⟩
    · obtain ⟨x, hx, hr⟩ := ih hy
      exact ⟨x, List.mem_cons_of_mem _ hx, hr⟩

/-! ### One declaration -/

/-- `d'` is `d` with its doc blocks mapped by `f`, each in the context of its path. -/
structure Declared.Mapped (f : DocBlock → String → Outcome DocBlock) (d d' : Declared) : Prop where
  own : d' = { d with doc := d'.doc, item := d'.item }
  kind : d'.item.kind = d.item.kind
  docs : Forall₂ (fun b b' => b'.2 = b.2 ∧ (f b.1 b.2).result = .ok b'.1) d.docs d'.docs

namespace Declared.Mapped
variable {f : DocBlock → String → Outcome DocBlock} {d d' : Declared}

theorem path (h : d.Mapped f d') : d'.path = d.path := by
  rw [h.own]

theorem synthetic (h : d.Mapped f d') : d'.synthetic = d.synthetic := by
  rw [h.own]

end Declared.Mapped

theorem Param.doc_of_mapDoc {f : DocBlock → Outcome DocBlock} {p p' : Param}
    (h : (p.mapDoc f).result = .ok p') :
    Option.Rel (fun b b' => (f b).result = .ok b') p.doc p'.doc := by
  obtain ⟨doc, hdoc, h⟩ := Outcome.result_bind_eq_ok.1 h
  cases h
  exact Outcome.rel_of_optionMapM hdoc

theorem Item.docs_of_mapDocs {f : DocBlock → Outcome DocBlock} {item item' : Item}
    (h : (item.mapDocs f).result = .ok item') :
    item'.kind = item.kind ∧ Forall₂ (fun b b' => (f b).result = .ok b') item.docs item'.docs := by
  cases item with
  | function shape =>
    obtain ⟨params, hparams, h⟩ := Outcome.result_bind_eq_ok.1 h
    cases h
    exact ⟨rfl, List.rel_filterMap (fun _ _ => Param.doc_of_mapDoc)
      (Outcome.result_mapM_eq_ok.1 hparams)⟩
  | enumeration | record | property | variant =>
    cases h
    exact ⟨rfl, .nil⟩

theorem Item.hasBody_of_mapDocs {f : DocBlock → Outcome DocBlock} {item item' : Item}
    (h : (item.mapDocs f).result = .ok item') : item'.hasBody = item.hasBody := by
  cases item with
  | function shape =>
    obtain ⟨params, -, h⟩ := Outcome.result_bind_eq_ok.1 h
    cases h
    rfl
  | enumeration | record | property | variant =>
    cases h
    rfl

theorem Declared.mapped_of_mapDocs {f : DocBlock → String → Outcome DocBlock} {d d' : Declared}
    (h : (d.mapDocs f).result = .ok d') : d.Mapped f d' := by
  obtain ⟨doc, hdoc, h⟩ := Outcome.result_bind_eq_ok.1 h
  obtain ⟨item, hitem, h⟩ := Outcome.result_bind_eq_ok.1 h
  cases h
  obtain ⟨hkind, hitem⟩ := Item.docs_of_mapDocs hitem
  refine ⟨rfl, hkind, ?_⟩
  unfold Declared.docs
  rw [List.forall₂_map_left_iff, List.forall₂_map_right_iff]
  have hown := forall₂_toList (Outcome.rel_of_optionMapM hdoc)
  exact (List.rel_append hown hitem).imp fun _ _ hb => ⟨rfl, hb⟩

/-! ### Trees -/

namespace Declaration

variable {f : DocBlock → String → Outcome DocBlock}

theorem forall₂_of_each {ds ds' : List Declaration}
    (each : ∀ d ∈ ds, ∀ d', (d.mapDocs f).result = .ok d' →
      Forall₂ (fun m m' => (m.toDeclared.mapDocs f).result = .ok m'.toDeclared) d.walk d'.walk)
    (h : (mapDocsAll f ds).result = .ok ds') :
    Forall₂ (fun m m' => (m.toDeclared.mapDocs f).result = .ok m'.toDeclared)
      (walkAll ds) (walkAll ds') := by
  induction ds generalizing ds' with
  | nil =>
    rw [mapDocsAll] at h
    cases h
    exact .nil
  | cons d ds ih =>
    rw [mapDocsAll] at h
    obtain ⟨e, he, h⟩ := Outcome.result_bind_eq_ok.1 h
    obtain ⟨es, hes, h⟩ := Outcome.result_bind_eq_ok.1 h
    cases h
    obtain ⟨hd, hds⟩ := List.forall_mem_cons.1 each
    rw [walkAll, walkAll]
    exact List.rel_append (hd e he) (ih hds hes)

theorem forall₂_of_mapDocs {d d' : Declaration} (h : (d.mapDocs f).result = .ok d') :
    Forall₂ (fun m m' => (m.toDeclared.mapDocs f).result = .ok m'.toDeclared) d.walk d'.walk := by
  induction d using Declaration.induction generalizing d' with
  | step own members ih =>
    rw [mapDocs] at h
    obtain ⟨own', hown, h⟩ := Outcome.result_bind_eq_ok.1 h
    obtain ⟨members', hmembers, h⟩ := Outcome.result_bind_eq_ok.1 h
    cases h
    rw [walk, walk]
    exact .cons hown (forall₂_of_each (fun m hm _ hm' => ih m hm hm') hmembers)

/-- A traversal visits every declaration at its place. -/
theorem forall₂_of_mapDocsAll {ds ds' : List Declaration} (h : (mapDocsAll f ds).result = .ok ds') :
    Forall₂ (fun m m' => (m.toDeclared.mapDocs f).result = .ok m'.toDeclared)
      (walkAll ds) (walkAll ds') :=
  forall₂_of_each (fun _ _ _ hd => forall₂_of_mapDocs hd) h

/-- Of every declaration a traversal maps the doc blocks and nothing else. -/
theorem mapped_of_mapDocsAll {ds ds' : List Declaration} (h : (mapDocsAll f ds).result = .ok ds') :
    Forall₂ (fun m m' => m.toDeclared.Mapped f m'.toDeclared) (walkAll ds) (walkAll ds') :=
  (forall₂_of_mapDocsAll h).imp fun _ _ => Declared.mapped_of_mapDocs

/-- What a declaration keeps when its doc blocks are mapped all of them keep. -/
theorem every_of_mapDocsAll {Q : Declared → Prop}
    (hQ : ∀ {d d' : Declared}, (d.mapDocs f).result = .ok d' → Q d → Q d')
    {ds ds' : List Declaration} (h : (mapDocsAll f ds).result = .ok ds')
    (hds : ∀ d ∈ ds, d.Every Q) : ∀ d ∈ ds', d.Every Q := by
  refine forall_mem_walkAll.1 fun m' hm' => ?_
  obtain ⟨m, hm, hmap⟩ := exists_left_of_forall₂ (forall₂_of_mapDocsAll h) hm'
  exact hQ hmap (forall_mem_walkAll.2 hds m hm)

theorem map_of_mapDocsAll {α : Type} {g : Declaration → α} {ds ds' : List Declaration}
    (hg : ∀ m m' : Declaration, m.toDeclared.Mapped f m'.toDeclared → g m = g m')
    (h : (mapDocsAll f ds).result = .ok ds') : (walkAll ds).map g = (walkAll ds').map g := by
  have hvalues : Forall₂ (· = ·) ((walkAll ds).map g) ((walkAll ds').map g) := by
    rw [List.forall₂_map_left_iff, List.forall₂_map_right_iff]
    exact (mapped_of_mapDocsAll h).imp hg
  rwa [List.forall₂_eq_eq_eq] at hvalues

theorem paths_of_mapDocsAll {ds ds' : List Declaration} (h : (mapDocsAll f ds).result = .ok ds') :
    (walkAll ds).map (·.path) = (walkAll ds').map (·.path) :=
  map_of_mapDocsAll (fun _ _ hm => hm.path.symm) h

theorem synthetic_of_mapDocsAll {ds ds' : List Declaration}
    (h : (mapDocsAll f ds).result = .ok ds') :
    (walkAll ds).map (·.synthetic) = (walkAll ds').map (·.synthetic) :=
  map_of_mapDocsAll (fun _ _ hm => hm.synthetic.symm) h

/-- What a declaration says of itself and what its members say, as `g` sees it. -/
def outline {α : Type} (g : Declared → α) (d : Declaration) : α × List α :=
  (g d.toDeclared, d.members.map (g ·.toDeclared))

section
variable {α : Type} {g : Declared → α}

theorem outlines_of_each {ds ds' : List Declaration}
    (each : ∀ d ∈ ds, ∀ d', (d.mapDocs f).result = .ok d' →
      g d.toDeclared = g d'.toDeclared ∧ d.walk.map (outline g) = d'.walk.map (outline g))
    (h : (mapDocsAll f ds).result = .ok ds') :
    ds.map (g ·.toDeclared) = ds'.map (g ·.toDeclared) ∧
      (walkAll ds).map (outline g) = (walkAll ds').map (outline g) := by
  induction ds generalizing ds' with
  | nil =>
    rw [mapDocsAll] at h
    cases h
    exact ⟨rfl, rfl⟩
  | cons d ds ih =>
    rw [mapDocsAll] at h
    obtain ⟨e, he, h⟩ := Outcome.result_bind_eq_ok.1 h
    obtain ⟨es, hes, h⟩ := Outcome.result_bind_eq_ok.1 h
    cases h
    obtain ⟨hd, hds⟩ := List.forall_mem_cons.1 each
    obtain ⟨hown, hwalk⟩ := hd e he
    obtain ⟨howns, hwalks⟩ := ih hds hes
    refine ⟨by rw [List.map_cons, List.map_cons, hown, howns], ?_⟩
    rw [walkAll, walkAll, List.map_append, List.map_append, hwalk, hwalks]

variable (hg : ∀ {d d' : Declared}, (d.mapDocs f).result = .ok d' → g d = g d')

include hg

theorem outlines_of_mapDocs {d d' : Declaration} (h : (d.mapDocs f).result = .ok d') :
    g d.toDeclared = g d'.toDeclared ∧ d.walk.map (outline g) = d'.walk.map (outline g) := by
  induction d using Declaration.induction generalizing d' with
  | step own members ih =>
    rw [mapDocs] at h
    obtain ⟨own', hown, h⟩ := Outcome.result_bind_eq_ok.1 h
    obtain ⟨members', hmembers, h⟩ := Outcome.result_bind_eq_ok.1 h
    cases h
    obtain ⟨howns, hwalks⟩ := outlines_of_each (fun m hm _ hm' => ih m hm hm') hmembers
    refine ⟨hg hown, ?_⟩
    rw [walk, walk, List.map_cons, List.map_cons, hwalks]
    simp only [outline, hg hown, howns]

/-- What a traversal leaves of one declaration it leaves of each and of its members. -/
theorem outlines_of_mapDocsAll {ds ds' : List Declaration}
    (h : (mapDocsAll f ds).result = .ok ds') :
    (walkAll ds).map (outline g) = (walkAll ds').map (outline g) :=
  (outlines_of_each (fun _ _ _ hd => outlines_of_mapDocs hg hd) h).2

end

/-- A block behind a traversal is one before it, mapped. -/
theorem exists_doc_of_mapDocsAll {ds ds' : List Declaration} {m' : Declaration}
    {e' : DocBlock × String} (h : (mapDocsAll f ds).result = .ok ds') (hm' : m' ∈ walkAll ds')
    (he' : e' ∈ m'.toDeclared.docs) :
    ∃ m ∈ walkAll ds, ∃ e ∈ m.toDeclared.docs, e'.2 = e.2 ∧ (f e.1 e.2).result = .ok e'.1 := by
  obtain ⟨m, hm, hmapped⟩ := exists_left_of_forall₂ (mapped_of_mapDocsAll h) hm'
  obtain ⟨e, he, hmap⟩ := exists_left_of_forall₂ hmapped.docs he'
  exact ⟨m, hm, e, he, hmap⟩

end Declaration

end AnnotatedHeader
