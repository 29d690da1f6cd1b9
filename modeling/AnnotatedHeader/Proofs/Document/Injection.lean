import AnnotatedHeader.Document.Build
import AnnotatedHeader.Proofs.Declaration.MapDocs
import Mathlib.Data.List.Forall2

/-! Building a document, stage by stage.

`result_build_eq_ok` names what each stage has answered when there is a document. An
injected member is put into its owner and everything else stays: `perm_of_injects` says
so of what the declarations say of themselves, and `outlines_of_injects` of what each of them
holds. -/
namespace AnnotatedHeader

namespace Declaration

/-- What the declarations of trees say of themselves. -/
def nodes (ds : List Declaration) : List Declared := (walkAll ds).map (·.toDeclared)

theorem nodes_cons (d : Declaration) (ds : List Declaration) :
    nodes (d :: ds) = d.toDeclared :: (nodes d.members ++ nodes ds) := by
  unfold nodes
  rw [walkAll, walk_eq, walkAll_eq_flatMap d.members]
  simp

theorem nodes_append (ds es : List Declaration) : nodes (ds ++ es) = nodes ds ++ nodes es := by
  unfold nodes
  simp only [walkAll_eq_flatMap, List.flatMap_append, List.map_append]

theorem forall_mem_nodes {Q : Declared → Prop} {ds : List Declaration} :
    (∀ n ∈ nodes ds, Q n) ↔ ∀ d ∈ ds, d.Every Q := by
  rw [← forall_mem_walkAll]
  exact List.forall_mem_map

/-! ### One more member -/

variable {path : String} {member : Declaration}

theorem perm_of_each {ds ds' : List Declaration}
    (each : ∀ d ∈ ds, ∀ d', withMember? path member d = some d' →
      (nodes [d']).Perm (nodes [member] ++ nodes [d]))
    (h : withMemberAmong? path member ds = some ds') :
    (nodes ds').Perm (nodes [member] ++ nodes ds) := by
  induction ds generalizing ds' with
  | nil =>
    rw [withMemberAmong?] at h
    cases h
  | cons d ds ih =>
    obtain ⟨hd, hds⟩ := List.forall_mem_cons.1 each
    rw [withMemberAmong?] at h
    split at h
    · rename_i d' hd'
      cases h
      rw [← List.singleton_append (l := ds), ← List.singleton_append (l := ds), nodes_append,
        nodes_append, ← List.append_assoc]
      exact (hd d' hd').append_right _
    · obtain ⟨es, hes, rfl⟩ := Option.map_eq_some_iff.1 h
      have hmore := (ih hds hes).append_left (nodes [d])
      rw [← List.singleton_append (l := es), ← List.singleton_append (l := ds), nodes_append,
        nodes_append]
      refine hmore.trans ?_
      rw [← List.append_assoc, ← List.append_assoc]
      exact List.perm_append_comm.append_right _

theorem perm_of_withMember? {d d' : Declaration} (h : withMember? path member d = some d') :
    (nodes [d']).Perm (nodes [member] ++ nodes [d]) := by
  induction d using Declaration.induction generalizing d' with
  | step own members ih =>
    have hcons {members' : List Declaration}
        (hm : (nodes members').Perm (nodes [member] ++ nodes members)) :
        (nodes [⟨own, members'⟩]).Perm (nodes [member] ++ nodes [⟨own, members⟩]) := by
      rw [nodes_cons ⟨own, members'⟩, nodes_cons ⟨own, members⟩]
      simp only [show nodes [] = [] from rfl, List.append_nil]
      exact (hm.cons own).trans List.perm_middle.symm
    rw [withMember?] at h
    split at h
    · cases h
      refine hcons ?_
      rw [nodes_append]
      exact List.perm_append_comm
    · split at h
      · obtain ⟨members', hmembers, rfl⟩ := Option.map_eq_some_iff.1 h
        exact hcons (perm_of_each (fun m hm _ hm' => ih m hm hm') hmembers)
      · cases h

theorem perm_of_withMemberAmong? {ds ds' : List Declaration}
    (h : withMemberAmong? path member ds = some ds') :
    (nodes ds').Perm (nodes [member] ++ nodes ds) :=
  perm_of_each (fun _ _ _ hd => perm_of_withMember? hd) h

/-! ### One more member, and who holds what -/

section
variable {α : Type} {g : Declared → α} {P : α × List α → Prop}

theorem map_of_map_toDeclared {ds ds' : List Declaration}
    (h : ds'.map (·.toDeclared) = ds.map (·.toDeclared)) :
    ds'.map (g ·.toDeclared) = ds.map (g ·.toDeclared) := by
  have := congrArg (List.map g) h
  rw [List.map_map, List.map_map] at this
  exact this

/-- Whoever receives `member` still satisfies `P`, and so does all that is in `member`. -/
structure Joins (g : Declared → α) (P : α × List α → Prop) (member : Declaration) : Prop where
  joined : ∀ own said, P (own, said) → P (own, said ++ [g member.toDeclared])
  within : ∀ m ∈ member.walk, P (m.outline g)

theorem outlines_of_each_withMember? {ds ds' : List Declaration}
    (each : ∀ d ∈ ds, ∀ d', withMember? path member d = some d' →
      d'.toDeclared = d.toDeclared ∧ ∀ m ∈ d'.walk, P (m.outline g))
    (hds : ∀ d ∈ ds, ∀ m ∈ d.walk, P (m.outline g))
    (h : withMemberAmong? path member ds = some ds') :
    ds'.map (·.toDeclared) = ds.map (·.toDeclared) ∧ ∀ d ∈ ds', ∀ m ∈ d.walk, P (m.outline g) := by
  induction ds generalizing ds' with
  | nil => cases h
  | cons d ds ih =>
    obtain ⟨heach, heachs⟩ := List.forall_mem_cons.1 each
    obtain ⟨hd, hds⟩ := List.forall_mem_cons.1 hds
    rw [withMemberAmong?] at h
    split at h
    · rename_i d' hd'
      cases h
      obtain ⟨hown, hwalk⟩ := heach d' hd'
      exact ⟨by rw [List.map_cons, List.map_cons, hown], List.forall_mem_cons.2 ⟨hwalk, hds⟩⟩
    · obtain ⟨es, hes, rfl⟩ := Option.map_eq_some_iff.1 h
      obtain ⟨howns, hwalks⟩ := ih heachs hds hes
      exact ⟨by rw [List.map_cons, List.map_cons, howns], List.forall_mem_cons.2 ⟨hd, hwalks⟩⟩

theorem outlines_of_withMember? (hmember : Joins g P member) {d d' : Declaration}
    (hd : ∀ m ∈ d.walk, P (m.outline g)) (h : withMember? path member d = some d') :
    d'.toDeclared = d.toDeclared ∧ ∀ m ∈ d'.walk, P (m.outline g) := by
  induction d using Declaration.induction generalizing d' with
  | step own members ih =>
    obtain ⟨hown, hbelow⟩ := forall_walk_iff.1 hd
    rw [withMember?] at h
    split at h
    · cases h
      refine ⟨rfl, forall_walk_iff.2 ⟨?_, ?_⟩⟩
      · rw [outline, List.map_append]
        exact hmember.joined _ _ hown
      · exact List.forall_mem_append.2 ⟨hbelow, List.forall_mem_singleton.2 hmember.within⟩
    · split at h
      · obtain ⟨members', hmembers, rfl⟩ := Option.map_eq_some_iff.1 h
        obtain ⟨howns, hbelow⟩ := outlines_of_each_withMember?
          (fun m hm _ hm' => ih m hm (hbelow m hm) hm') hbelow hmembers
        refine ⟨rfl, forall_walk_iff.2 ⟨?_, hbelow⟩⟩
        rw [outline, map_of_map_toDeclared howns]
        exact hown
      · cases h

/-- One more member leaves what holds of each declaration and its members. -/
theorem outlines_of_withMemberAmong? (hmember : Joins g P member) {ds ds' : List Declaration}
    (hds : ∀ d ∈ ds, ∀ m ∈ d.walk, P (m.outline g)) (h : withMemberAmong? path member ds = some ds') :
    ds'.map (·.toDeclared) = ds.map (·.toDeclared) ∧ ∀ d ∈ ds', ∀ m ∈ d.walk, P (m.outline g) :=
  outlines_of_each_withMember? (fun d hd _ hd' => outlines_of_withMember? hmember (hds d hd) hd') hds h

end

theorem map_toDeclared_of_withMemberAmong? {ds ds' : List Declaration}
    (h : withMemberAmong? path member ds = some ds') :
    ds'.map (·.toDeclared) = ds.map (·.toDeclared) := by
  have hmember : Joins id (fun _ => True) member := ⟨fun _ _ => id, fun _ _ => trivial⟩
  exact (outlines_of_withMemberAmong? hmember (fun _ _ _ _ => trivial) h).1

/-! ### Injecting -/

/-- An injected member is the first thing that its proxy's code declares. -/
theorem result_ofProxy_eq_ok {proxy : Region} {doc : Option DocBlock} {site : InjectSite}
    {member : Declaration} (h : (ofProxy proxy doc site).result = .ok member) :
    ∃ first others signature,
      (ofFragment proxy.text (proxy.line + 1) site.owner).result = .ok (first :: others) ∧
      member = { first with
        line := site.line, visibility := .everyone, signature, doc, synthetic := true } := by
  unfold ofProxy at h
  split at h
  · cases h
  · rename_i signature _
    obtain ⟨ds, hds, h⟩ := Outcome.result_bind_eq_ok.1 h
    split at h
    · cases h
    · rename_i first others
      cases h
      exact ⟨first, others, signature, hds, rfl⟩

/-- Its signature is the first line of the proxy, as it stands there. -/
theorem signature_of_ofProxy {proxy : Region} {doc : Option DocBlock} {site : InjectSite}
    {member : Declaration} (h : (ofProxy proxy doc site).result = .ok member) :
    proxy.firstLine? = some member.signature := by
  unfold ofProxy at h
  split at h
  · cases h
  · rename_i signature hsignature
    obtain ⟨ds, -, h⟩ := Outcome.result_bind_eq_ok.1 h
    split at h <;> cases h
    exact hsignature

theorem result_inject_eq_ok {regions : Regions} {docOf : String → Option DocBlock}
    {ds ds' : List Declaration} {site : InjectSite}
    (h : (inject regions docOf ds site).result = .ok ds') :
    ∃ proxy member, regions.get? .proxy site.proxy = some proxy ∧
      (ofProxy proxy (docOf proxy.name) site).result = .ok member ∧
      withMemberAmong? site.owner member ds = some ds' := by
  unfold inject at h
  split at h
  · cases h
  · rename_i proxy hproxy
    obtain ⟨member, hmember, h⟩ := Outcome.result_bind_eq_ok.1 h
    split at h
    · rename_i ds'' hds
      cases h
      exact ⟨proxy, member, hproxy, hmember, hds⟩
    · cases h

/-- What holds of a proxy's member and of what is declared holds once it is injected. -/
theorem every_of_injects {Q : Declared → Prop} {regions : Regions}
    {docOf : String → Option DocBlock} {ds ds' : List Declaration} {sites : List InjectSite}
    (hmember : ∀ {site : InjectSite} {proxy : Region} {member : Declaration},
      regions.get? .proxy site.proxy = some proxy →
      (ofProxy proxy (docOf proxy.name) site).result = .ok member → member.Every Q)
    (hds : ∀ d ∈ ds, d.Every Q) (h : (sites.foldlM (inject regions docOf) ds).result = .ok ds') :
    ∀ d ∈ ds', d.Every Q := by
  induction sites generalizing ds with
  | nil =>
    cases h
    exact hds
  | cons site sites ih =>
    rw [List.foldlM_cons] at h
    obtain ⟨ds₁, hinject, h⟩ := Outcome.result_bind_eq_ok.1 h
    obtain ⟨proxy, member, hproxy, hmade, hplaced⟩ := result_inject_eq_ok hinject
    refine ih (forall_mem_nodes.1 fun n hn => ?_) h
    rcases List.mem_append.1 ((perm_of_withMemberAmong? hplaced).subset hn) with hn | hn
    · exact forall_mem_nodes.2 (List.forall_mem_singleton.2 (hmember hproxy hmade)) n hn
    · exact forall_mem_nodes.2 hds n hn

/-- Injecting leaves what holds of each declaration and its members, and what is at the top. -/
theorem outlines_of_injects {α : Type} {g : Declared → α} {P : α × List α → Prop} {regions : Regions}
    {docOf : String → Option DocBlock} {ds ds' : List Declaration} {sites : List InjectSite}
    (hmember : ∀ {site : InjectSite} {proxy : Region} {member : Declaration},
      (ofProxy proxy (docOf proxy.name) site).result = .ok member → Joins g P member)
    (hds : ∀ d ∈ ds, ∀ m ∈ d.walk, P (m.outline g))
    (h : (sites.foldlM (inject regions docOf) ds).result = .ok ds') :
    ds'.map (·.toDeclared) = ds.map (·.toDeclared) ∧ ∀ d ∈ ds', ∀ m ∈ d.walk, P (m.outline g) := by
  induction sites generalizing ds with
  | nil =>
    cases h
    exact ⟨rfl, hds⟩
  | cons site sites ih =>
    rw [List.foldlM_cons] at h
    obtain ⟨ds₁, hinject, h⟩ := Outcome.result_bind_eq_ok.1 h
    obtain ⟨proxy, member, -, hmade, hplaced⟩ := result_inject_eq_ok hinject
    obtain ⟨hown, hwalk⟩ := outlines_of_withMemberAmong? (hmember hmade) hds hplaced
    obtain ⟨howns, hwalks⟩ := ih hwalk h
    exact ⟨howns.trans hown, hwalks⟩

/-- Injecting adds one member for each site and what is in it, and drops nothing. -/
theorem perm_of_injects {regions : Regions} {docOf : String → Option DocBlock}
    {ds ds' : List Declaration} {sites : List InjectSite}
    (h : (sites.foldlM (inject regions docOf) ds).result = .ok ds') :
    ∃ members,
      List.Forall₂ (fun site member =>
        ∃ proxy, (ofProxy proxy (docOf proxy.name) site).result = .ok member) sites members ∧
      (nodes ds').Perm (nodes members ++ nodes ds) := by
  induction sites generalizing ds with
  | nil =>
    cases h
    exact ⟨[], .nil, .refl _⟩
  | cons site sites ih =>
    rw [List.foldlM_cons] at h
    obtain ⟨ds₁, hinject, h⟩ := Outcome.result_bind_eq_ok.1 h
    obtain ⟨proxy, member, -, hmember, hplaced⟩ := result_inject_eq_ok hinject
    obtain ⟨members, hmembers, hperm⟩ := ih h
    refine ⟨member :: members, .cons ⟨proxy, hmember⟩ hmembers, ?_⟩
    rw [← List.singleton_append (l := members), nodes_append]
    refine hperm.trans (((perm_of_withMemberAmong? hplaced).append_left _).trans ?_)
    rw [← List.append_assoc]
    exact List.perm_append_comm.append_right _

end Declaration

/-! ### Stages -/

namespace Document

theorem result_build_eq_ok {file : String} {found : Scope.Contents} {regions : Regions}
    {docOf : String → Option DocBlock} {d : Document}
    (h : (build file found regions docOf).result = .ok d) :
    ∃ injected resolved,
      (found.injects.foldlM (Declaration.inject regions docOf) found.declarations).result =
        .ok injected ∧
      (Declaration.mapDocsAll (SymbolTable.ofTrees injected).resolveDoc injected).result =
        .ok resolved ∧
      (Declaration.mapDocsAll (DocBlock.fill regions) resolved).result = .ok d.declarations ∧
      d.snippets = (regions.ofKind .snippet).map fun r => (r.name, r.text) := by
  unfold build at h
  obtain ⟨injected, hinjected, h⟩ := Outcome.result_bind_eq_ok.1 h
  obtain ⟨-, -, h⟩ := Outcome.result_bind_eq_ok.1 h
  obtain ⟨resolved, hresolved, h⟩ := Outcome.result_bind_eq_ok.1 h
  obtain ⟨filled, hfilled, h⟩ := Outcome.result_bind_eq_ok.1 h
  cases h
  exact ⟨injected, resolved, hinjected, hresolved, hfilled, rfl⟩

end Document

end AnnotatedHeader
