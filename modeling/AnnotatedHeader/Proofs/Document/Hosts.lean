import AnnotatedHeader.Proofs.Declaration.MapDocs
import AnnotatedHeader.Proofs.Document.Injection
import AnnotatedHeader.Proofs.Document.OfLines
import AnnotatedHeader.Proofs.Scope.Forest

/-! Who receives an injected member.

A marker is remembered by the path of its record, and the member goes to the first
declaration at that path, in depth-first order (`intoFirst_of_withMemberAmong?`): in a tree
whose members stand below the path of what holds them, no search by prefixes passes over
one. That declaration need not be the record. `synthetic_in_records_iff` says exactly when
all injected members end up in records with a body. -/
namespace AnnotatedHeader

/-- What counts of a declaration as a host and as a member. -/
structure Role where
  path : String
  /-- Whether it is a struct or a class with a body. -/
  definesRecord : Bool
  synthetic : Bool

def Declared.role (d : Declared) : Role where
  path := d.path
  definesRecord := (d.item.kind == .structType || d.item.kind == .classType) && d.item.hasBody
  synthetic := d.synthetic

theorem Declared.role_of_mapDocs {f : DocBlock → String → Outcome DocBlock} {d d' : Declared}
    (h : (d.mapDocs f).result = .ok d') : d.role = d'.role := by
  obtain ⟨doc, -, h⟩ := Outcome.result_bind_eq_ok.1 h
  obtain ⟨item, hitem, h⟩ := Outcome.result_bind_eq_ok.1 h
  cases h
  unfold role
  rw [(Item.docs_of_mapDocs hitem).1, Item.hasBody_of_mapDocs hitem]

namespace Declaration

/-! ### Roles -/

/-- The declaration's role and those of its members. -/
def roles : Declaration → Role × List Role := outline Declared.role

theorem snd_roles (d : Declaration) : d.roles.2 = d.members.map (·.role) := rfl

/-- The declaration has a path, and its members stand below it. -/
structure Placed (o : Role × List Role) : Prop where
  named : o.1.path ≠ ""
  under : ∀ m ∈ o.2, QualifiedPath.Under o.1.path m.path

/-- Who has a synthetic member defines a record. -/
def WellHosted (o : Role × List Role) : Prop :=
  (∃ m ∈ o.2, m.synthetic = true) → o.1.definesRecord = true

/-- Who has a synthetic member stands where a marker stands. -/
def HostsFor (sites : List InjectSite) (o : Role × List Role) : Prop :=
  (∃ m ∈ o.2, m.synthetic = true) → ∃ site ∈ sites, site.owner = o.1.path

theorem forall_members_of_walk {P : Declaration → Prop} {d : Declaration}
    (h : ∀ m ∈ d.walk, P m) : ∀ m ∈ d.walk, ∀ n ∈ m.members, P n := by
  induction d using Declaration.induction with
  | step own members ih =>
    obtain ⟨-, hbelow⟩ := forall_walk_iff.1 h
    refine forall_walk_iff.2 ⟨fun n hn => ?_, fun n hn => ih n hn (hbelow n hn)⟩
    exact (forall_walk_iff.1 (hbelow n hn)).1

theorem placed_of_sound {d : Declaration} (named : d.path ≠ "") (h : ∀ m ∈ d.walk, m.Sound) :
    ∀ m ∈ d.walk, Placed m.roles := by
  induction d using Declaration.induction with
  | step own members ih =>
    obtain ⟨hown, hbelow⟩ := forall_walk_iff.1 h
    refine forall_walk_iff.2 ⟨⟨named, ?_⟩, fun n hn => ?_⟩
    · exact List.forall_mem_map.2 fun n hn => hown.under n hn
    · exact ih n hn (hown.under n hn).ne_empty (hbelow n hn)

theorem not_synthetic_of_sound {d : Declaration} (h : ∀ m ∈ d.walk, m.Sound) :
    ∀ m ∈ d.walk, ∀ n ∈ m.roles.2, n.synthetic = false := fun m hm =>
  List.forall_mem_map.2 fun n hn => (forall_members_of_walk h m hm n hn).real

theorem prefix_of_mem_walk {d : Declaration} (h : ∀ m ∈ d.walk, Placed m.roles) :
    ∀ m ∈ d.walk, d.path.toList <+: m.path.toList := by
  induction d using Declaration.induction with
  | step own members ih =>
    obtain ⟨hown, hbelow⟩ := forall_walk_iff.1 h
    refine forall_walk_iff.2 ⟨List.prefix_refl _, fun n hn m hm => ?_⟩
    obtain ⟨rest, hrest⟩ := List.forall_mem_map.1 hown.under n hn
    refine List.IsPrefix.trans ?_ (ih n hn (hbelow n hn) m hm)
    change own.path.toList <+: n.path.toList
    rw [show n.path = own.path ++ QualifiedPath.separator ++ rest from hrest,
      String.toList_append, String.toList_append, List.append_assoc]
    exact List.prefix_append ..

/-! ### The first declaration at a path -/

variable {path : String} {member : Declaration}

/-- `nodes'` is `nodes` with `member` put into `host`, the first of them at `path`. -/
def IntoFirst (path : String) (member host : Declaration) (nodes nodes' : List Declaration) : Prop :=
  ∃ before after, nodes = before ++ host :: after ∧ (∀ m ∈ before, m.path ≠ path) ∧
    host.path = path ∧
    (nodes'.map roles).Perm (member.walk.map roles ++ (before.map roles ++
      (host.role, host.roles.2 ++ [member.role]) :: after.map roles))

theorem IntoFirst.append_right {host : Declaration} {nodes nodes' : List Declaration}
    (h : IntoFirst path member host nodes nodes') (more : List Declaration) :
    IntoFirst path member host (nodes ++ more) (nodes' ++ more) := by
  obtain ⟨before, after, rfl, hbefore, hhost, hperm⟩ := h
  refine ⟨before, after ++ more, by simp, hbefore, hhost, ?_⟩
  rw [List.map_append, List.map_append]
  refine (hperm.append_right _).trans ?_
  simp only [List.append_assoc, List.cons_append]
  exact .refl _

/-- Ahead of the host nothing is at the path, and outlines stay. -/
theorem IntoFirst.append_left {host : Declaration} {nodes nodes' ahead ahead' : List Declaration}
    (h : IntoFirst path member host nodes nodes') (hahead : ∀ m ∈ ahead, m.path ≠ path)
    (same : ahead'.map roles = ahead.map roles) :
    IntoFirst path member host (ahead ++ nodes) (ahead' ++ nodes') := by
  obtain ⟨before, after, rfl, hbefore, hhost, hperm⟩ := h
  refine ⟨ahead ++ before, after, by simp, ?_, hhost, ?_⟩
  · exact List.forall_mem_append.2 ⟨hahead, hbefore⟩
  · have hcomm := List.perm_append_comm_assoc (ahead.map roles)
    rw [List.map_append, List.map_append, same, List.append_assoc]
    exact (hperm.append_left _).trans (hcomm _ _)

theorem IntoFirst.find? {host : Declaration} {nodes nodes' : List Declaration}
    (h : IntoFirst path member host nodes nodes') : nodes.find? (·.path == path) = some host := by
  obtain ⟨before, after, rfl, hbefore, hhost, -⟩ := h
  rw [List.find?_eq_some_iff_append]
  exact ⟨by simpa using hhost, before, after, rfl, by simpa using hbefore⟩

theorem IntoFirst.path_eq {host : Declaration} {nodes nodes' : List Declaration}
    (h : IntoFirst path member host nodes nodes') : host.path = path := by
  obtain ⟨-, -, -, -, hhost, -⟩ := h
  exact hhost

/-- An outline that is there behind an injection is the host's with the member, or it is the
member's, or it was there before. -/
theorem IntoFirst.forall_iff {Q : Role × List Role → Prop} {host : Declaration}
    {nodes nodes' : List Declaration} (h : IntoFirst path member host nodes nodes')
    (hmember : ∀ m ∈ member.walk, Q m.roles)
    (hhost : Q (host.role, host.roles.2 ++ [member.role]) → Q host.roles) :
    (∀ m ∈ nodes', Q m.roles) ↔
      (∀ m ∈ nodes, Q m.roles) ∧
        Q (host.role, host.roles.2 ++ [member.role]) := by
  obtain ⟨before, after, rfl, -, -, hperm⟩ := h
  rw [← List.forall_mem_map]
  simp only [hperm.mem_iff]
  simp only [List.forall_mem_append, List.forall_mem_cons, List.forall_mem_map]
  constructor
  · rintro ⟨-, hbefore, hnew, hafter⟩
    exact ⟨⟨hbefore, hhost hnew, hafter⟩, hnew⟩
  · rintro ⟨⟨hbefore, -, hafter⟩, hnew⟩
    exact ⟨hmember, hbefore, hnew, hafter⟩

/-! ### Searching -/

theorem ne_path_of_each {ds : List Declaration}
    (each : ∀ d ∈ ds, withMember? path member d = none → ∀ m ∈ d.walk, m.path ≠ path)
    (h : withMemberAmong? path member ds = none) : ∀ m ∈ walkAll ds, m.path ≠ path := by
  induction ds with
  | nil => simp [walkAll]
  | cons d ds ih =>
    obtain ⟨hd, hds⟩ := List.forall_mem_cons.1 each
    rw [withMemberAmong?] at h
    split at h
    · cases h
    · rename_i hnone
      rw [walkAll]
      exact List.forall_mem_append.2 ⟨hd hnone, ih hds (Option.map_eq_none_iff.1 h)⟩

/-- A search that fails has missed nothing. -/
theorem ne_path_of_withMember?_eq_none {d : Declaration}
    (placed : ∀ m ∈ d.walk, Placed m.roles) (h : withMember? path member d = none) :
    ∀ m ∈ d.walk, m.path ≠ path := by
  induction d using Declaration.induction with
  | step own members ih =>
    rw [withMember?] at h
    split at h
    · cases h
    · rename_i hpath
      split at h
      · refine forall_walk_iff.2 ⟨by simpa using hpath, ?_⟩
        have hmembers := Option.map_eq_none_iff.1 h
        have hbelow := (forall_walk_iff.1 placed).2
        have := ne_path_of_each (fun m hm => ih m hm (hbelow m hm)) hmembers
        rw [walkAll_eq_flatMap] at this
        exact List.forall_mem_flatMap.1 this
      · rename_i hstarts
        intro m hm hm'
        have := prefix_of_mem_walk placed m hm
        rw [hm'] at this
        exact hstarts (List.isPrefixOf_iff_prefix.2 this)

theorem intoFirst_of_each {ds ds' : List Declaration}
    (placed : ∀ m ∈ walkAll ds, Placed m.roles)
    (each : ∀ d ∈ ds, ∀ d', withMember? path member d = some d' →
      d'.role = d.role ∧ ∃ host, IntoFirst path member host d.walk d'.walk)
    (h : withMemberAmong? path member ds = some ds') :
    ds'.map (·.role) = ds.map (·.role) ∧
      ∃ host, IntoFirst path member host (walkAll ds) (walkAll ds') := by
  induction ds generalizing ds' with
  | nil => cases h
  | cons d ds ih =>
    obtain ⟨hd, hds⟩ := List.forall_mem_cons.1 each
    rw [walkAll] at placed
    obtain ⟨hplaced, hplaceds⟩ := List.forall_mem_append.1 placed
    rw [withMemberAmong?] at h
    split at h
    · rename_i d' hd'
      cases h
      obtain ⟨hown, host, hinto⟩ := hd d' hd'
      refine ⟨by rw [List.map_cons, List.map_cons, hown], host, ?_⟩
      rw [walkAll, walkAll]
      exact hinto.append_right _
    · rename_i hnone
      obtain ⟨es, hes, rfl⟩ := Option.map_eq_some_iff.1 h
      obtain ⟨howns, host, hinto⟩ := ih hplaceds hds hes
      refine ⟨by rw [List.map_cons, List.map_cons, howns], host, ?_⟩
      rw [walkAll, walkAll]
      exact hinto.append_left (ne_path_of_withMember?_eq_none hplaced hnone) rfl

theorem intoFirst_of_withMember? {d d' : Declaration}
    (placed : ∀ m ∈ d.walk, Placed m.roles) (h : withMember? path member d = some d') :
    d'.role = d.role ∧ ∃ host, IntoFirst path member host d.walk d'.walk := by
  induction d using Declaration.induction generalizing d' with
  | step own members ih =>
    have hbelow := (forall_walk_iff.1 placed).2
    rw [withMember?] at h
    split at h
    · rename_i hpath
      cases h
      refine ⟨rfl, ⟨own, members⟩, [], walkAll members, by rw [walk]; rfl, by simp,
        by simpa using hpath, ?_⟩
      rw [walk, walkAll_eq_flatMap, List.flatMap_append, ← walkAll_eq_flatMap]
      simp only [List.map_cons, List.map_append, List.flatMap_cons, List.flatMap_nil,
        List.append_nil, List.nil_append, List.map_nil]
      have howns : roles ⟨own, members ++ [member]⟩ =
          (own.role, (roles ⟨own, members⟩).2 ++ [member.role]) := by
        simp [roles, outline]
      rw [howns]
      exact (List.perm_append_comm.cons _).trans List.perm_middle.symm
    · rename_i hpath
      split at h
      · obtain ⟨members', hmembers, rfl⟩ := Option.map_eq_some_iff.1 h
        have hplaced : ∀ m ∈ walkAll members, Placed m.roles := by
          rw [walkAll_eq_flatMap]
          exact List.forall_mem_flatMap.2 hbelow
        obtain ⟨howns, host, hinto⟩ := intoFirst_of_each hplaced
          (fun m hm _ hm' => ih m hm (hbelow m hm) hm') hmembers
        refine ⟨rfl, host, ?_⟩
        rw [walk, walk]
        have hown : roles ⟨own, members'⟩ = roles ⟨own, members⟩ := by
          simp only [roles, outline, howns]
        have hown' : [(⟨own, members'⟩ : Declaration)].map roles =
            [(⟨own, members⟩ : Declaration)].map roles := by
          rw [List.map_singleton, List.map_singleton, hown]
        refine hinto.append_left ?_ hown'
        simpa using hpath
      · cases h

/-- **An injected member goes to the first declaration at the path of its marker.** -/
theorem intoFirst_of_withMemberAmong? {ds ds' : List Declaration}
    (placed : ∀ m ∈ walkAll ds, Placed m.roles)
    (h : withMemberAmong? path member ds = some ds') :
    ∃ host, IntoFirst path member host (walkAll ds) (walkAll ds') := by
  refine (intoFirst_of_each placed (fun d hd _ hd' => intoFirst_of_withMember? ?_ hd') h).2
  rw [walkAll_eq_flatMap] at placed
  exact List.forall_mem_flatMap.1 placed d hd

/-! ### Injecting -/

variable {regions : Regions} {docOf : String → Option DocBlock}

/-- What is injected at `owner`: one synthetic member, and nothing synthetic in it. -/
structure Injected (owner : String) (member : Declaration) : Prop where
  synthetic : member.synthetic = true
  under : owner ≠ "" → QualifiedPath.Under owner member.path
  placed : ∀ m ∈ member.walk, Placed m.roles
  real : ∀ m ∈ member.walk, ∀ n ∈ m.roles.2, n.synthetic = false

theorem injected_of_ofProxy {proxy : Region} {doc : Option DocBlock} {site : InjectSite}
    (h : (ofProxy proxy doc site).result = .ok member) : Injected site.owner member := by
  obtain ⟨first, others, signature, hfragment, rfl⟩ := result_ofProxy_eq_ok h
  obtain ⟨injects, rest, hreads⟩ := reads_of_ofFragment hfragment
  have hfirst := hreads.fits_of_start.2 first (List.mem_cons_self ..)
  obtain ⟨hown, hbelow⟩ := forall_walk_iff.1 (placed_of_sound hfirst.named hfirst.sound)
  obtain ⟨hreal, hreals⟩ := forall_walk_iff.1 (not_synthetic_of_sound hfirst.sound)
  exact ⟨rfl, hfirst.under, forall_walk_iff.2 ⟨⟨hown.named, hown.under⟩, hbelow⟩,
    forall_walk_iff.2 ⟨hreal, hreals⟩⟩

theorem intoFirst_of_inject {ds ds' : List Declaration} {site : InjectSite}
    (placed : ∀ m ∈ walkAll ds, Placed m.roles)
    (h : (inject regions docOf ds site).result = .ok ds') :
    ∃ member host, Injected site.owner member ∧
      IntoFirst site.owner member host (walkAll ds) (walkAll ds') := by
  obtain ⟨proxy, member, -, hmember, hds'⟩ := result_inject_eq_ok h
  obtain ⟨host, hinto⟩ := intoFirst_of_withMemberAmong? placed hds'
  exact ⟨member, host, injected_of_ofProxy hmember, hinto⟩

theorem IntoFirst.placed {host : Declaration} {nodes nodes' : List Declaration}
    (h : IntoFirst path member host nodes nodes') (hmember : Injected path member)
    (placed : ∀ m ∈ nodes, Placed m.roles) : ∀ m ∈ nodes', Placed m.roles := by
  have hhost := placed host (List.mem_of_find?_eq_some h.find?)
  have hunder := hmember.under (h.path_eq ▸ hhost.named)
  rw [← h.path_eq] at hunder
  refine (h.forall_iff hmember.placed fun _ => hhost).2 ⟨placed, hhost.named, ?_⟩
  exact List.forall_mem_append.2 ⟨hhost.under, List.forall_mem_singleton.2 hunder⟩

theorem Injected.wellHosted (h : Injected path member) :
    ∀ m ∈ member.walk, WellHosted m.roles := by
  rintro m hm ⟨n, hn, hsynthetic⟩
  rw [h.real m hm n hn] at hsynthetic
  cases hsynthetic

/-- All synthetic members are in records with a body if and only if they were and the host
is one. -/
theorem IntoFirst.wellHosted_iff {host : Declaration} {nodes nodes' : List Declaration}
    (h : IntoFirst path member host nodes nodes') (hmember : Injected path member) :
    (∀ m ∈ nodes', WellHosted m.roles) ↔
      (∀ m ∈ nodes, WellHosted m.roles) ∧ host.role.definesRecord = true := by
  have hnew : WellHosted (host.role, host.roles.2 ++ [member.role]) ↔
      host.role.definesRecord = true := by
    have hsynthetic : member.role.synthetic = true := hmember.synthetic
    unfold WellHosted
    simp [hsynthetic]
  rw [h.forall_iff hmember.wellHosted fun hh _ => hnew.1 hh, hnew]

theorem IntoFirst.hostsFor {host : Declaration} {nodes nodes' : List Declaration}
    {sites : List InjectSite} (h : IntoFirst path member host nodes nodes')
    (hmember : Injected path member) (hsite : ∃ site ∈ sites, site.owner = path)
    (hosts : ∀ m ∈ nodes, HostsFor sites m.roles) :
    ∀ m ∈ nodes', HostsFor sites m.roles := by
  rw [← h.path_eq] at hsite
  refine (h.forall_iff ?_ fun _ _ => hsite).2 ⟨hosts, fun _ => hsite⟩
  rintro m hm ⟨n, hn, hsynthetic⟩
  rw [hmember.real m hm n hn] at hsynthetic
  cases hsynthetic

/-- Each marker finds a record with a body first at its path when its turn comes. -/
def FindsRecords (regions : Regions) (docOf : String → Option DocBlock) :
    List InjectSite → List Declaration → Prop
  | [], _ => True
  | site :: sites, ds =>
    (∃ host, (walkAll ds).find? (·.path == site.owner) = some host ∧ host.role.definesRecord = true) ∧
      ∀ ds', (inject regions docOf ds site).result = .ok ds' → FindsRecords regions docOf sites ds'

theorem wellHosted_of_injects {ds ds' : List Declaration} {sites : List InjectSite}
    (placed : ∀ m ∈ walkAll ds, Placed m.roles)
    (h : (sites.foldlM (inject regions docOf) ds).result = .ok ds') :
    (∀ m ∈ walkAll ds', WellHosted m.roles) ↔
      (∀ m ∈ walkAll ds, WellHosted m.roles) ∧ FindsRecords regions docOf sites ds := by
  induction sites generalizing ds with
  | nil =>
    cases h
    simp [FindsRecords]
  | cons site sites ih =>
    rw [List.foldlM_cons] at h
    obtain ⟨ds₁, hinject, h⟩ := Outcome.result_bind_eq_ok.1 h
    obtain ⟨member, host, hmember, hinto⟩ := intoFirst_of_inject placed hinject
    rw [ih (hinto.placed hmember placed) h, hinto.wellHosted_iff hmember, and_assoc]
    refine and_congr_right fun _ => ?_
    rw [FindsRecords, hinto.find?]
    simp only [hinject, Option.some.injEq, exists_eq_left', Except.ok.injEq, forall_eq']

theorem hostsFor_of_injects {ds ds' : List Declaration} {all sites : List InjectSite}
    (hsites : ∀ site ∈ sites, site ∈ all) (placed : ∀ m ∈ walkAll ds, Placed m.roles)
    (hosts : ∀ m ∈ walkAll ds, HostsFor all m.roles)
    (h : (sites.foldlM (inject regions docOf) ds).result = .ok ds') :
    ∀ m ∈ walkAll ds', HostsFor all m.roles := by
  induction sites generalizing ds with
  | nil =>
    cases h
    exact hosts
  | cons site sites ih =>
    rw [List.foldlM_cons] at h
    obtain ⟨hsite, hsites⟩ := List.forall_mem_cons.1 hsites
    obtain ⟨ds₁, hinject, h⟩ := Outcome.result_bind_eq_ok.1 h
    obtain ⟨member, host, hmember, hinto⟩ := intoFirst_of_inject placed hinject
    exact ih hsites (hinto.placed hmember placed) (hinto.hostsFor hmember ⟨site, hsite, rfl⟩ hosts) h

end Declaration

/-! ### Documents -/

namespace Document

/-- What a header declares is placed, and nothing in it is synthetic. -/
theorem placed_of_ofLines {lines : List SourceLine} {blocks : List CommentBlock}
    {found : Scope.Contents} (h : (Scope.Contents.ofLines lines blocks).result = .ok found) :
    ∀ m ∈ Declaration.walkAll found.declarations,
      Declaration.Placed m.roles ∧ ∀ n ∈ m.roles.2, n.synthetic = false := by
  obtain ⟨rest, hreads⟩ := Scope.Contents.result_ofLines_eq_ok.1 h
  have hfits := hreads.fits_of_start.2
  rw [Declaration.walkAll_eq_flatMap]
  refine List.forall_mem_flatMap.2 fun d hd m hm => ⟨?_, ?_⟩
  · exact Declaration.placed_of_sound (hfits d hd).named (hfits d hd).sound m hm
  · exact Declaration.not_synthetic_of_sound (hfits d hd).sound m hm

/-- Of hosts and members a document has what the injections have left. -/
theorem roles_of_build {file : String} {found : Scope.Contents} {regions : Regions}
    {docOf : String → Option DocBlock} {d : Document}
    (h : (build file found regions docOf).result = .ok d) :
    ∃ injected, (found.injects.foldlM (Declaration.inject regions docOf) found.declarations).result =
        .ok injected ∧
      (Declaration.walkAll injected).map Declaration.roles = d.walk.map Declaration.roles := by
  obtain ⟨injected, resolved, hinjected, hresolved, hfilled, -⟩ := result_build_eq_ok h
  refine ⟨injected, hinjected, ?_⟩
  exact (Declaration.outlines_of_mapDocsAll Declared.role_of_mapDocs hresolved).trans
    (Declaration.outlines_of_mapDocsAll Declared.role_of_mapDocs hfilled)

/-- Who holds a synthetic member of the document is a record with a body. -/
def SyntheticInRecords (d : Document) : Prop :=
  ∀ m ∈ d.walk, (∃ n ∈ m.members, n.synthetic = true) → m.role.definesRecord = true

/-- **Synthetic members are in records with a body if and only if each marker finds one.**
They are always at the path of a marker, whatever stands there first. -/
theorem synthetic_in_records_iff {file source : String} {lines : List SourceLine} {regions : Regions}
    {found : Scope.Contents} {d : Document}
    (hlines : SourceLine.classify (Text.withoutMark source) = .ok lines)
    (hregions : Regions.extract lines = .ok regions)
    (hfound : (Scope.Contents.ofLines lines (CommentBlock.group lines)).result = .ok found)
    (h : (ofSource file source).result = .ok d) :
    (∀ m ∈ d.walk, (∃ n ∈ m.members, n.synthetic = true) →
        ∃ site ∈ found.injects, site.owner = m.path) ∧
      (d.SyntheticInRecords ↔
        Declaration.FindsRecords regions (proxyDoc? (CommentBlock.group lines)) found.injects
          found.declarations) := by
  obtain ⟨lines', regions', found', hlines', hregions', hfound', hbuild⟩ := result_ofSource_eq_ok.1 h
  cases hlines.symm.trans hlines'
  cases hregions.symm.trans hregions'
  cases hfound.symm.trans hfound'
  obtain ⟨injected, hinjected, hroles⟩ := roles_of_build hbuild
  have hplaced := fun m hm => (placed_of_ofLines hfound m hm).1
  have hreal : ∀ m ∈ Declaration.walkAll found.declarations,
      ¬ ∃ n ∈ m.roles.2, n.synthetic = true := by
    rintro m hm ⟨n, hn, hsynthetic⟩
    rw [(placed_of_ofLines hfound m hm).2 n hn] at hsynthetic
    cases hsynthetic
  have hhosts := Declaration.hostsFor_of_injects (fun _ hsite => hsite) hplaced
    (fun m hm hany => absurd hany (hreal m hm)) hinjected
  have hwell := Declaration.wellHosted_of_injects hplaced hinjected
  have hiff (P : Role × List Role → Prop) :
      (∀ m ∈ Declaration.walkAll injected, P m.roles) ↔ ∀ m ∈ d.walk, P m.roles := by
    rw [← List.forall_mem_map, hroles, List.forall_mem_map]
  have hsynthetic (m : Declaration) :
      (∃ n ∈ m.members, n.synthetic = true) ↔ ∃ n ∈ m.roles.2, n.synthetic = true := by
    simp [Declaration.snd_roles, Declared.role]
  refine ⟨fun m hm hany => ?_, ?_⟩
  · exact (hiff _).1 hhosts m hm ((hsynthetic m).1 hany)
  · unfold SyntheticInRecords
    simp only [hsynthetic]
    refine (hiff Declaration.WellHosted).symm.trans (hwell.trans (and_iff_right ?_))
    exact fun m hm hany => absurd hany (hreal m hm)

/-! ### A function at the path of a record -/

def sharedPathSource : String :=
  "void S(); struct S \x7b\n//// [inject: p]\n\x7d;\n//// [proxy: p]\n//// int M;\n//// [/proxy]"

def sharedPathLines : List SourceLine :=
  [⟨1, 0, "void S(); struct S \x7b", .code, false⟩,
    ⟨2, 21, "//// [inject: p]", .marker (.inject "p"), false⟩, ⟨3, 38, "\x7d;", .code, false⟩,
    ⟨4, 41, "//// [proxy: p]", .marker (.opens .proxy "p"), false⟩,
    ⟨5, 57, "//// int M;", .tool "int M;", false⟩,
    ⟨6, 69, "//// [/proxy]", .marker (.closes .proxy), false⟩]

def sharedPathRegions : Regions := ⟨[⟨.proxy, "p", 4, ["int M;"]⟩]⟩

/-- Something that is called `S`. -/
def sharingPath (signature : String) (item : Item) : Declaration :=
  ⟨⟨"S", "S", 1, .everyone, none, none, signature, none, item, false⟩, []⟩

/-- A function, and behind it the record that holds the marker. -/
def sharedPath : Scope.Contents :=
  ⟨[sharingPath "void S()" (.function ⟨some "void", [], none, false, false⟩),
    sharingPath "struct S" (.record .structKey ⟨none, [], true⟩)], [⟨"p", "S", 2⟩]⟩

theorem classify_sharedPath :
    SourceLine.classify (Text.withoutMark sharedPathSource) = .ok sharedPathLines := by
  cbv

theorem extract_sharedPath : Regions.extract sharedPathLines = .ok sharedPathRegions := by
  cbv

theorem found_sharedPath : (Scope.Contents.ofLines sharedPathLines []).result = .ok sharedPath := by
  have hpieces : Piece.ofLines sharedPathLines [] =
      [.token ⟨.ident, "void", 1⟩, .token ⟨.ident, "S", 1⟩, .token ⟨.lparen, "(", 1⟩,
        .token ⟨.rparen, ")", 1⟩, .token ⟨.semi, ";", 1⟩, .token ⟨.ident, "struct", 1⟩,
        .token ⟨.ident, "S", 1⟩, .token ⟨.lbrace, "\x7b", 1⟩, .inject "p" 2,
        .token ⟨.rbrace, "\x7d", 3⟩, .token ⟨.semi, ";", 3⟩] := by
    cbv
  have hinside : Scope.Reads (.ofRecord "S" "S" .structKey) (Scope.ofRecord "S" "S" .structKey).start
      [.inject "p" 2, .token ⟨.rbrace, "\x7d", 3⟩, .token ⟨.semi, ";", 3⟩]
      ⟨[], [⟨"p", "S", 2⟩]⟩ [.token ⟨.semi, ";", 3⟩] :=
    .continues rfl (.closes rfl rfl)
  refine Scope.Contents.result_ofLines_eq_ok.2 ⟨[], ?_⟩
  rw [hpieces]
  exact .continues rfl (.opens rfl hinside (.continues rfl (.ends rfl)))

theorem result_sharedPath :
    ∃ d, (ofSource "t.h" sharedPathSource).result = .ok d ∧
      d.walk.map (fun m => (m.kind, m.path, m.members.map (·.synthetic))) =
        [(.function, "S", [true]), (.property, "S::M", []), (.structType, "S", [])] := by
  rw [result_ofSource_of_stages _ _ classify_sharedPath extract_sharedPath (by cbv) found_sharedPath]
  refine Except.map_eq_ok.1 ?_
  cbv

theorem not_syntheticInRecords_sharedPath :
    ∃ d, (ofSource "t.h" sharedPathSource).result = .ok d ∧ ¬ d.SyntheticInRecords := by
  obtain ⟨d, hd, hwalk⟩ := result_sharedPath
  refine ⟨d, hd, fun hrecords => ?_⟩
  obtain ⟨m, hm, hown⟩ := List.mem_map.1
    (hwalk ▸ List.mem_cons_self .. : (Kind.function, "S", [true]) ∈ d.walk.map _)
  simp only [Prod.mk.injEq] at hown
  obtain ⟨hkind, -, hsynthetic⟩ := hown
  obtain ⟨n, hn, hreal⟩ := List.mem_map.1 (hsynthetic ▸ List.mem_singleton_self true)
  have hrecord := hrecords m hm ⟨n, hn, hreal⟩
  change ((m.kind == .structType || m.kind == .classType) && _) = true at hrecord
  rw [hkind] at hrecord
  cases hrecord

/-- The member is the function's: it comes before the record that holds the marker. -/
theorem exists_not_syntheticInRecords :
    ¬ ∀ (file source : String) (d : Document), (ofSource file source).result = .ok d →
      d.SyntheticInRecords := by
  intro hall
  obtain ⟨d, hd, hnot⟩ := not_syntheticInRecords_sharedPath
  exact hnot (hall _ _ d hd)

theorem not_findsRecords_sharedPath :
    SourceLine.classify (Text.withoutMark sharedPathSource) = .ok sharedPathLines ∧
      Regions.extract sharedPathLines = .ok sharedPathRegions ∧
      (Scope.Contents.ofLines sharedPathLines (CommentBlock.group sharedPathLines)).result =
        .ok sharedPath ∧
      (∃ d, (ofSource "t.h" sharedPathSource).result = .ok d) ∧
      ¬ Declaration.FindsRecords sharedPathRegions (proxyDoc? (CommentBlock.group sharedPathLines))
        sharedPath.injects sharedPath.declarations := by
  have hblocks : CommentBlock.group sharedPathLines = [] := by
    cbv
  have hfound : (Scope.Contents.ofLines sharedPathLines
      (CommentBlock.group sharedPathLines)).result = .ok sharedPath := by
    rw [hblocks]
    exact found_sharedPath
  obtain ⟨d, hd, hnot⟩ := not_syntheticInRecords_sharedPath
  refine ⟨classify_sharedPath, extract_sharedPath, hfound, ⟨d, hd⟩, fun hfinds => hnot ?_⟩
  exact (synthetic_in_records_iff classify_sharedPath extract_sharedPath hfound hd).2.2 hfinds

end Document

end AnnotatedHeader
