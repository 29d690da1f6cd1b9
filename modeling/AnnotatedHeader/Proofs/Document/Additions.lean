import AnnotatedHeader.Proofs.DocBlock.Parts
import AnnotatedHeader.Proofs.DocBlock.Raw
import AnnotatedHeader.Proofs.Document.Hosts
import AnnotatedHeader.Proofs.Document.Markers

/-! Building only adds.

Building puts synthetic members into the trees that were read and looks things up in their
doc blocks. Without both a document is what was read: `original_of_build` takes the synthetic
subtrees, the targets and the codes away again. An injected member stands behind all that its
host had (`Declaration.SyntheticLast`). -/
namespace AnnotatedHeader

/-! ### Nothing looked up -/

def CrossReference.bare (r : CrossReference) : CrossReference := { r with target := none }

def Segment.bare : Segment → Segment
  | .markdown text => .markdown text
  | .shown x => .shown { x with code := none }

/-- The block without the targets of its references and the codes of its examples. -/
def DocBlock.bare (b : DocBlock) : DocBlock :=
  { b with segments := b.segments.map Segment.bare, references := b.references.map CrossReference.bare }

def Param.bare (p : Param) : Param := { p with doc := p.doc.map DocBlock.bare }

def Item.bare : Item → Item
  | .function shape => .function { shape with params := shape.params.map Param.bare }
  | item => item

def Declared.bare (d : Declared) : Declared :=
  { d with doc := d.doc.map DocBlock.bare, item := d.item.bare }

namespace Declaration

mutual

/-- The tree without the synthetic ones of its subtrees and with nothing looked up. -/
def original : Declaration → Declaration
  | ⟨own, members⟩ => ⟨own.bare, originalAll members⟩

/-- The trees whose roots are not synthetic, and of these what is `original`. -/
def originalAll : List Declaration → List Declaration
  | [] => []
  | d :: ds => if d.synthetic then originalAll ds else d.original :: originalAll ds

end

/-- No member stands behind a synthetic one unless it is synthetic, too. -/
def SyntheticLast (d : Declaration) : Prop :=
  d.members.Pairwise fun a b => a.synthetic = true → b.synthetic = true

end Declaration

/-! ### What has been read -/

theorem DocBlock.Raw.bare {b : DocBlock} (h : b.Raw) : b.bare = b := by
  have hsegment : ∀ s ∈ b.segments, s.bare = s := by
    intro s hs
    cases s with
    | markdown text => rfl
    | shown x =>
      have hcode := h.examples x (mem_examples.2 hs)
      cases x
      cases hcode
      rfl
  have hreference : ∀ r ∈ b.references, r.bare = r := by
    intro r hr
    have htarget := h.references r hr
    cases r
    cases htarget
    rfl
  unfold DocBlock.bare
  rw [List.map_congr_left hsegment, List.map_congr_left hreference, List.map_id', List.map_id']

theorem map_bare_of_raw {doc : Option DocBlock} (h : ∀ b ∈ doc, b.Raw) :
    doc.map DocBlock.bare = doc := by
  cases doc with
  | none => rfl
  | some b => rw [Option.map_some, (h b rfl).bare]

theorem Item.bare_of_raw {item : Item} (h : ∀ b ∈ item.docs, b.Raw) : item.bare = item := by
  cases item with
  | function shape =>
    have hparam : ∀ p ∈ shape.params, p.bare = p := by
      intro p hp
      unfold Param.bare
      rw [map_bare_of_raw fun b hb => h b (List.mem_filterMap.2 ⟨p, hp, hb⟩)]
    change Item.function { shape with params := shape.params.map Param.bare } = _
    rw [List.map_congr_left hparam, List.map_id']
  | enumeration | record | property | variant => rfl

/-- Real, with nothing looked up. -/
structure Declared.AsRead (d : Declared) : Prop where
  real : d.synthetic = false
  docs : d.DocsIn DocBlock.Raw

theorem Declared.AsRead.bare {d : Declared} (h : d.AsRead) : d.bare = d := by
  obtain ⟨hdoc, hitem⟩ := Declared.docsIn_iff.1 h.docs
  unfold Declared.bare
  rw [map_bare_of_raw hdoc, Item.bare_of_raw hitem]

namespace Declaration

theorem originalAll_of_each {ds : List Declaration} (real : ∀ d ∈ ds, d.synthetic = false)
    (each : ∀ d ∈ ds, d.original = d) : originalAll ds = ds := by
  induction ds with
  | nil => rfl
  | cons d ds ih =>
    obtain ⟨hreal, hreals⟩ := List.forall_mem_cons.1 real
    obtain ⟨hd, hds⟩ := List.forall_mem_cons.1 each
    rw [originalAll, if_neg (by simp [hreal]), hd, ih hreals hds]

theorem original_of_asRead {d : Declaration} (h : d.Every Declared.AsRead) : d.original = d := by
  induction d using Declaration.induction with
  | step own members ih =>
    obtain ⟨hown, hmembers⟩ := every_iff.1 h
    have hall : originalAll members = members :=
      originalAll_of_each (fun m hm => (every_iff.1 (hmembers m hm)).1.real)
        fun m hm => ih m hm (hmembers m hm)
    rw [original, hown.bare, hall]

theorem originalAll_of_asRead {ds : List Declaration} (h : ∀ d ∈ ds, d.Every Declared.AsRead) :
    originalAll ds = ds :=
  originalAll_of_each (fun d hd => (every_iff.1 (h d hd)).1.real) fun d hd => original_of_asRead (h d hd)

/-- Where nothing is synthetic nothing stands behind what is. -/
theorem syntheticLast_of_real {d : Declaration} (h : ∀ m ∈ d.members, m.synthetic = false) :
    d.SyntheticLast := by
  refine List.Pairwise.imp_of_mem (R := fun _ _ => True) ?_ (List.pairwise_of_forall fun _ _ => trivial)
  intro a b ha _ _ hsynthetic
  rw [h a ha] at hsynthetic
  cases hsynthetic

/-! ### Injecting -/

section
variable {path : String} {member : Declaration}

theorem originalAll_of_each_withMember? {ds ds' : List Declaration}
    (each : ∀ d ∈ ds, ∀ d', withMember? path member d = some d' →
      d'.synthetic = d.synthetic ∧ d'.original = d.original)
    (h : withMemberAmong? path member ds = some ds') : originalAll ds' = originalAll ds := by
  induction ds generalizing ds' with
  | nil => cases h
  | cons d ds ih =>
    obtain ⟨hd, hds⟩ := List.forall_mem_cons.1 each
    rw [withMemberAmong?] at h
    split at h
    · rename_i d' hd'
      cases h
      obtain ⟨hsynthetic, horiginal⟩ := hd d' hd'
      rw [originalAll, originalAll, hsynthetic, horiginal]
    · obtain ⟨es, hes, rfl⟩ := Option.map_eq_some_iff.1 h
      rw [originalAll, originalAll, ih hds hes]

theorem originalAll_append_of_synthetic (hmember : member.synthetic = true) (ds : List Declaration) :
    originalAll (ds ++ [member]) = originalAll ds := by
  induction ds with
  | nil => simp [originalAll, hmember]
  | cons d ds ih => rw [List.cons_append, originalAll, originalAll, ih]

/-- One more synthetic member leaves what was read. -/
theorem original_of_withMember? (hmember : member.synthetic = true) {d d' : Declaration}
    (h : withMember? path member d = some d') :
    d'.synthetic = d.synthetic ∧ d'.original = d.original := by
  induction d using Declaration.induction generalizing d' with
  | step own members ih =>
    rw [withMember?] at h
    split at h
    · cases h
      refine ⟨rfl, ?_⟩
      rw [original, original, originalAll_append_of_synthetic hmember]
    · split at h
      · obtain ⟨members', hmembers, rfl⟩ := Option.map_eq_some_iff.1 h
        refine ⟨rfl, ?_⟩
        rw [original, original,
          originalAll_of_each_withMember? (fun m hm _ hm' => ih m hm hm') hmembers]
      · cases h

theorem originalAll_of_withMemberAmong? (hmember : member.synthetic = true) {ds ds' : List Declaration}
    (h : withMemberAmong? path member ds = some ds') : originalAll ds' = originalAll ds :=
  originalAll_of_each_withMember? (fun _ _ _ hd' => original_of_withMember? hmember hd') h

end

/-! ### Injecting, and the order of members -/

theorem syntheticLast_iff {d : Declaration} :
    d.SyntheticLast ↔ (d.outline (·.synthetic)).2.Pairwise fun a b => a = true → b = true := by
  show _ ↔ (d.members.map (·.synthetic)).Pairwise _
  rw [List.pairwise_map]
  rfl

/-- A synthetic member is put last. -/
theorem joins_of_synthetic {member : Declaration} (hmember : member.synthetic = true)
    (hwithin : ∀ m ∈ member.walk, m.SyntheticLast) :
    Joins (·.synthetic) (fun o => o.2.Pairwise fun a b => a = true → b = true) member := by
  refine ⟨fun own said hsaid => ?_, fun m hm => syntheticLast_iff.1 (hwithin m hm)⟩
  refine List.pairwise_append.2 ⟨hsaid, List.pairwise_singleton .., ?_⟩
  intro _ _ b hb _
  rwa [List.mem_singleton.1 hb]

/-- What an injection keeps: what was read, and the order of members. -/
structure AddedTo (ds ds' : List Declaration) : Prop where
  original : originalAll ds' = originalAll ds
  top : ds'.map (·.synthetic) = ds.map (·.synthetic)
  last : (∀ d ∈ ds, ∀ m ∈ d.walk, m.SyntheticLast) → ∀ d ∈ ds', ∀ m ∈ d.walk, m.SyntheticLast

theorem AddedTo.refl (ds : List Declaration) : AddedTo ds ds := ⟨rfl, rfl, id⟩

theorem AddedTo.trans {ds ds₁ ds₂ : List Declaration} (h₁ : AddedTo ds ds₁)
    (h₂ : AddedTo ds₁ ds₂) : AddedTo ds ds₂ :=
  ⟨h₂.original.trans h₁.original, h₂.top.trans h₁.top, h₂.last ∘ h₁.last⟩

theorem syntheticLast_of_ofProxy {proxy : Region} {doc : Option DocBlock} {site : InjectSite}
    {member : Declaration} (h : (ofProxy proxy doc site).result = .ok member) :
    member.synthetic = true ∧ ∀ m ∈ member.walk, m.SyntheticLast := by
  obtain ⟨first, others, signature, hfragment, rfl⟩ := result_ofProxy_eq_ok h
  obtain ⟨injects, rest, hreads⟩ := reads_of_ofFragment hfragment
  have hfirst := hreads.every_of_start nodeInvariant_real (by simp) first (List.mem_cons_self ..)
  have hreal : ∀ m ∈ first.walk, m.SyntheticLast := fun m hm =>
    syntheticLast_of_real fun n hn =>
      forall_members_of_walk (P := fun n => n.synthetic = false) hfirst m hm n hn
  obtain ⟨hown, hmembers⟩ := forall_walk_iff.1 hreal
  exact ⟨rfl, forall_walk_iff.2 ⟨hown, hmembers⟩⟩

theorem addedTo_of_inject {regions : Regions} {docOf : String → Option DocBlock}
    {ds ds' : List Declaration} {site : InjectSite}
    (h : (inject regions docOf ds site).result = .ok ds') : AddedTo ds ds' := by
  obtain ⟨proxy, member, -, hproxy, hds'⟩ := result_inject_eq_ok h
  obtain ⟨hmember, hwithin⟩ := syntheticLast_of_ofProxy hproxy
  refine ⟨originalAll_of_withMemberAmong? hmember hds', ?_, fun hds => ?_⟩
  · exact map_of_map_toDeclared (map_toDeclared_of_withMemberAmong? hds')
  · simp only [syntheticLast_iff] at hds ⊢
    exact (outlines_of_withMemberAmong? (joins_of_synthetic hmember hwithin) hds hds').2

theorem addedTo_of_injects {regions : Regions} {docOf : String → Option DocBlock}
    {ds ds' : List Declaration} {sites : List InjectSite}
    (h : (sites.foldlM (inject regions docOf) ds).result = .ok ds') : AddedTo ds ds' := by
  induction sites generalizing ds with
  | nil =>
    cases h
    exact .refl _
  | cons site sites ih =>
    rw [List.foldlM_cons] at h
    obtain ⟨ds₁, hinject, h⟩ := Outcome.result_bind_eq_ok.1 h
    exact (addedTo_of_inject hinject).trans (ih h)

end Declaration

/-! ### Looking up -/

section
variable {α β γ : Type} {f : α → Outcome β} {before : α → γ} {after : β → γ}
  (hf : ∀ x y, (f x).result = .ok y → after y = before x)

include hf

theorem Outcome.map_of_mapM {xs : List α} {ys : List β} (h : (xs.mapM f).result = .ok ys) :
    ys.map after = xs.map before := by
  have hpairs := Outcome.result_mapM_eq_ok.1 h
  clear h
  induction hpairs with
  | nil => rfl
  | cons hxy _ ih => rw [List.map_cons, List.map_cons, hf _ _ hxy, ih]

theorem Outcome.map_of_optionMapM {o : Option α} {o' : Option β} (h : (o.mapM f).result = .ok o') :
    o'.map after = o.map before := by
  cases Outcome.rel_of_optionMapM h with
  | none => rfl
  | some hxy => rw [Option.map_some, Option.map_some, hf _ _ hxy]

end

theorem CrossReference.bare_of_resolveReference {table : SymbolTable} {context : String}
    {r r' : CrossReference} (h : (table.resolveReference context r).result = .ok r') :
    r'.bare = r.bare := by
  unfold SymbolTable.resolveReference at h
  split at h
  · cases h
    rfl
  split at h
  · obtain ⟨-, -, h⟩ := Outcome.result_bind_eq_ok.1 h
    cases h
    rfl
  · cases h
  · cases h

theorem DocBlock.bare_of_resolveDoc {table : SymbolTable} {b : DocBlock} {context : String}
    {b' : DocBlock} (h : (table.resolveDoc b context).result = .ok b') : b'.bare = b.bare := by
  obtain ⟨references, hreferences, h⟩ := Outcome.result_bind_eq_ok.1 h
  cases h
  unfold bare
  rw [Outcome.map_of_mapM (fun _ _ => CrossReference.bare_of_resolveReference) hreferences]

theorem Segment.bare_of_fill {regions : Regions} {context : String} {s s' : Segment}
    (h : (s.fill regions context).result = .ok s') : s'.bare = s.bare := by
  cases s with
  | markdown text =>
    cases h
    rfl
  | shown x =>
    unfold fill at h
    dsimp only at h
    split at h
    · cases h
      rfl
    split at h
    · cases h
      rfl
    · cases h

theorem DocBlock.bare_of_fill {regions : Regions} {b : DocBlock} {context : String} {b' : DocBlock}
    (h : (b.fill regions context).result = .ok b') : b'.bare = b.bare := by
  obtain ⟨segments, hsegments, h⟩ := Outcome.result_bind_eq_ok.1 h
  cases h
  unfold bare
  rw [Outcome.map_of_mapM (fun _ _ => Segment.bare_of_fill) hsegments]

/-! A traversal that keeps what a block says keeps what trees say. -/

section
variable {f : DocBlock → Outcome DocBlock} (hf : ∀ b b', (f b).result = .ok b' → b'.bare = b.bare)

include hf

theorem Param.bare_of_mapDoc {p p' : Param} (h : (p.mapDoc f).result = .ok p') : p'.bare = p.bare := by
  obtain ⟨doc, hdoc, h⟩ := Outcome.result_bind_eq_ok.1 h
  cases h
  unfold bare
  rw [Outcome.map_of_optionMapM hf hdoc]

theorem Item.bare_of_mapDocs {item item' : Item} (h : (item.mapDocs f).result = .ok item') :
    item'.bare = item.bare := by
  cases item with
  | function shape =>
    obtain ⟨params, hparams, h⟩ := Outcome.result_bind_eq_ok.1 h
    cases h
    unfold bare
    dsimp only
    rw [Outcome.map_of_mapM (fun _ _ => Param.bare_of_mapDoc hf) hparams]
  | enumeration | record | property | variant =>
    cases h
    rfl

end

theorem Declaration.originalAll_of_each_mapDocs {f : DocBlock → String → Outcome DocBlock}
    {ds ds' : List Declaration} (each : ∀ d ∈ ds, ∀ d', (d.mapDocs f).result = .ok d' →
      d'.synthetic = d.synthetic ∧ d'.original = d.original)
    (h : (mapDocsAll f ds).result = .ok ds') : originalAll ds' = originalAll ds := by
  induction ds generalizing ds' with
  | nil =>
    rw [mapDocsAll] at h
    cases h
    rfl
  | cons d ds ih =>
    rw [mapDocsAll] at h
    obtain ⟨e, he, h⟩ := Outcome.result_bind_eq_ok.1 h
    obtain ⟨es, hes, h⟩ := Outcome.result_bind_eq_ok.1 h
    cases h
    obtain ⟨hd, hds⟩ := List.forall_mem_cons.1 each
    obtain ⟨hsynthetic, horiginal⟩ := hd e he
    rw [originalAll, originalAll, hsynthetic, horiginal, ih hds hes]

section
variable {f : DocBlock → String → Outcome DocBlock}
  (hf : ∀ b context b', (f b context).result = .ok b' → b'.bare = b.bare)

include hf

theorem Declared.bare_of_mapDocs {d d' : Declared} (h : (d.mapDocs f).result = .ok d') :
    d'.bare = d.bare := by
  obtain ⟨doc, hdoc, h⟩ := Outcome.result_bind_eq_ok.1 h
  obtain ⟨item, hitem, h⟩ := Outcome.result_bind_eq_ok.1 h
  cases h
  unfold bare
  rw [Outcome.map_of_optionMapM (fun b => hf b d.path) hdoc,
    Item.bare_of_mapDocs (fun b => hf b d.path) hitem]

namespace Declaration

theorem original_of_mapDocs {d d' : Declaration} (h : (d.mapDocs f).result = .ok d') :
    d'.synthetic = d.synthetic ∧ d'.original = d.original := by
  induction d using Declaration.induction generalizing d' with
  | step own members ih =>
    rw [mapDocs] at h
    obtain ⟨own', hown, h⟩ := Outcome.result_bind_eq_ok.1 h
    obtain ⟨members', hmembers, h⟩ := Outcome.result_bind_eq_ok.1 h
    cases h
    refine ⟨(Declared.mapped_of_mapDocs hown).synthetic, ?_⟩
    rw [original, original, Declared.bare_of_mapDocs hf hown,
      originalAll_of_each_mapDocs (fun m hm _ hm' => ih m hm hm') hmembers]

theorem addedTo_of_mapDocsAll {ds ds' : List Declaration} (h : (mapDocsAll f ds).result = .ok ds') :
    AddedTo ds ds' := by
  have hsynthetic {d d' : Declared} (hd : (d.mapDocs f).result = .ok d') : d.synthetic = d'.synthetic :=
    (Declared.mapped_of_mapDocs hd).synthetic.symm
  obtain ⟨htop, hwalk⟩ := outlines_of_each (g := (·.synthetic))
    (fun _ _ _ hd => outlines_of_mapDocs hsynthetic hd) h
  refine ⟨originalAll_of_each_mapDocs (fun _ _ _ => original_of_mapDocs hf) h, htop.symm, ?_⟩
  intro hds
  rw [← List.forall_mem_flatMap, ← walkAll_eq_flatMap] at hds ⊢
  simp only [syntheticLast_iff] at hds ⊢
  have hiff := List.forall_mem_map (f := outline (·.synthetic)) (l := walkAll ds')
    (P := fun o => o.2.Pairwise fun a b => a = true → b = true)
  rw [← hwalk, List.forall_mem_map] at hiff
  exact hiff.1 hds

end Declaration

end

/-! ### Documents -/

namespace Document

/-- **A document without what is synthetic and what was looked up is what was read.** It has
one synthetic declaration for each marker, none of them at the top, and each stands behind
all real members of what holds it. -/
theorem original_of_build {file : String} {lines : List SourceLine} {blocks : List CommentBlock}
    {found : Scope.Contents} {regions : Regions} {docOf : String → Option DocBlock} {d : Document}
    (hfound : (Scope.Contents.ofLines lines blocks).result = .ok found)
    (h : (build file found regions docOf).result = .ok d) :
    Declaration.originalAll d.declarations = found.declarations ∧
      d.walk.countP (·.synthetic) = found.injects.length ∧
      (∀ m ∈ d.declarations, m.synthetic = false) ∧ ∀ m ∈ d.walk, m.SyntheticLast := by
  obtain ⟨rest, hreads⟩ := Scope.Contents.result_ofLines_eq_ok.1 hfound
  have hreal := hreads.every_of_start nodeInvariant_real (by simp)
  have hasRead : ∀ m ∈ found.declarations, m.Every Declared.AsRead := fun m hm n hn =>
    ⟨hreal m hm n hn, Scope.Contents.raw_of_ofLines hfound m hm n hn⟩
  have htop : ∀ m ∈ found.declarations, m.synthetic = false := fun m hm =>
    (Declaration.every_iff.1 (hreal m hm)).1
  have hlast : ∀ m ∈ found.declarations, ∀ n ∈ m.walk, n.SyntheticLast := fun m hm n hn =>
    Declaration.syntheticLast_of_real fun k hk =>
      Declaration.forall_members_of_walk (P := fun k => k.synthetic = false) (hreal m hm) n hn k hk
  obtain ⟨injected, resolved, hinjected, hresolved, hfilled, -⟩ := result_build_eq_ok h
  have hadded := ((Declaration.addedTo_of_injects hinjected).trans
    (Declaration.addedTo_of_mapDocsAll (fun _ _ _ => DocBlock.bare_of_resolveDoc) hresolved)).trans
    (Declaration.addedTo_of_mapDocsAll (fun _ _ _ => DocBlock.bare_of_fill) hfilled)
  refine ⟨?_, synthetic_of_build hreal h, ?_, ?_⟩
  · rw [hadded.original, Declaration.originalAll_of_asRead hasRead]
  · have hflags : ∀ b ∈ d.declarations.map (·.synthetic), b = false := by
      rw [hadded.top]
      exact List.forall_mem_map.2 htop
    exact List.forall_mem_map.1 hflags
  · rw [walk, Declaration.walkAll_eq_flatMap]
    exact List.forall_mem_flatMap.2 (hadded.last hlast)

/-! ### A record with a marker -/

def extendedLines : List SourceLine :=
  [⟨1, 0, "/// [\x60struct: S\x60]()", .doc "[\x60struct: S\x60]()", false⟩,
    ⟨2, 20, "struct S \x7b int A;", .code, false⟩,
    ⟨3, 38, "//// [inject: p]", .marker (.inject "p"), false⟩, ⟨4, 55, "\x7d;", .code, false⟩]

def extendedRegions : Regions := ⟨[⟨.proxy, "p", 5, ["int M;"]⟩]⟩

/-- The record with its reference's target and with `members`. -/
def extended (target : Option String) (members : List Declaration) : Declaration :=
  ⟨⟨"S", "S", 2, .everyone, none, none, "struct S",
    some ⟨1, [.markdown "[\x60struct: S\x60]()"], [⟨.structType, "S", 1, target⟩]⟩,
    .record .structKey ⟨none, [], true⟩, false⟩, members⟩

def extendedMember (name signature : String) (line : Nat) (synthetic : Bool) : Declaration :=
  ⟨⟨name, "S::" ++ name, line, .everyone, none, none, signature, none,
    .property ⟨"int", none, none, false⟩, synthetic⟩, []⟩

theorem found_extended :
    (Scope.Contents.ofLines extendedLines (CommentBlock.group extendedLines)).result =
      .ok ⟨[extended none [extendedMember "A" "int A" 2 false]], [⟨"p", "S", 3⟩]⟩ := by
  have hdoc : DocBlock.ofLines [(1, "[\x60struct: S\x60]()")] =
      ⟨1, [.markdown "[\x60struct: S\x60]()"], [⟨.structType, "S", 1, none⟩]⟩ :=
    DocBlock.ofLines_link "\x60struct: S\x60]()".toList ⟨"struct", "S"⟩ rfl
      (by cbv) (by cbv) (by cbv) (by cbv)
  have hblocks : CommentBlock.group extendedLines = [⟨[(1, "[\x60struct: S\x60]()")], none⟩] := by
    cbv
  have hpieces : Piece.ofLines extendedLines [⟨[(1, "[\x60struct: S\x60]()")], none⟩] =
      [.doc ⟨1, [.markdown "[\x60struct: S\x60]()"], [⟨.structType, "S", 1, none⟩]⟩,
        .token ⟨.ident, "struct", 2⟩, .token ⟨.ident, "S", 2⟩, .token ⟨.lbrace, "\x7b", 2⟩,
        .token ⟨.ident, "int", 2⟩, .token ⟨.ident, "A", 2⟩, .token ⟨.semi, ";", 2⟩,
        .inject "p" 3, .token ⟨.rbrace, "\x7d", 4⟩, .token ⟨.semi, ";", 4⟩] := by
    rw [Piece.ofLines_of_block _ hdoc]
    cbv
  have hproperty : ((Scope.ofRecord "S" "S" .structKey).turn
      (Scope.ofRecord "S" "S" .structKey).start (.token ⟨.ident, "int", 2⟩)
      [.token ⟨.ident, "A", 2⟩, .token ⟨.semi, ";", 2⟩, .inject "p" 3,
        .token ⟨.rbrace, "\x7d", 4⟩, .token ⟨.semi, ";", 4⟩]).result =
      .ok (.continues ⟨.everyone, {}, [extendedMember "A" "int A" 2 false], []⟩
        [.inject "p" 3, .token ⟨.rbrace, "\x7d", 4⟩, .token ⟨.semi, ";", 4⟩]) := by
    cbv
  have hinside : Scope.Reads (.ofRecord "S" "S" .structKey) (Scope.ofRecord "S" "S" .structKey).start
      [.token ⟨.ident, "int", 2⟩, .token ⟨.ident, "A", 2⟩, .token ⟨.semi, ";", 2⟩,
        .inject "p" 3, .token ⟨.rbrace, "\x7d", 4⟩, .token ⟨.semi, ";", 4⟩]
      ⟨[extendedMember "A" "int A" 2 false], [⟨"p", "S", 3⟩]⟩ [.token ⟨.semi, ";", 4⟩] := by
    refine .continues hproperty ?_
    exact .continues rfl (.closes rfl rfl)
  refine Scope.Contents.result_ofLines_eq_ok.2 ⟨[], ?_⟩
  rw [hblocks, hpieces]
  exact .continues rfl (.opens rfl hinside (.continues rfl (.ends rfl)))

theorem result_build_extended :
    (build "t.h" ⟨[extended none [extendedMember "A" "int A" 2 false]], [⟨"p", "S", 3⟩]⟩
      extendedRegions fun _ => none).result =
      .ok ⟨"t.h", [extended (some "S")
        [extendedMember "A" "int A" 2 false, extendedMember "M" "int M;" 3 true]], []⟩ := by
  cbv

/-- A target and a member are added to the record, and nothing else. -/
theorem original_of_build_extended :
    Declaration.originalAll [extended (some "S")
        [extendedMember "A" "int A" 2 false, extendedMember "M" "int M;" 3 true]] =
      [extended none [extendedMember "A" "int A" 2 false]] :=
  (original_of_build found_extended result_build_extended).1

end Document

end AnnotatedHeader
