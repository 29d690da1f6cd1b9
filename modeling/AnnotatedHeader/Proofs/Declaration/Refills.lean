import AnnotatedHeader.Declaration.Docs
import Mathlib.Data.List.Basic

/-! Trees with other doc blocks.

A tree is its doc blocks in order and all the rest of it (`Declaration.blanked`); `withDocs` puts
other blocks in the places of its own and leaves the rest alone (`Declaration.refills`). A
traversal is nothing but its calls, one after the other, with the answers put in
(`mapDocs_eq`): it is so in every monad, and what holds of a list of calls holds of a tree. -/
namespace AnnotatedHeader

universe u

/-! ### Lists of calls -/

section
variable {m : Type → Type u} [Monad m] [LawfulMonad m] {ε β α α' γ : Type} {f : ε → m β}

/-- There are as many answers as calls. -/
theorem mapM_bind_congr {es : List ε} {k k' : List β → m γ}
    (h : ∀ bs, bs.length = es.length → k bs = k' bs) : es.mapM f >>= k = es.mapM f >>= k' := by
  induction es generalizing k k' with
  | nil =>
    rw [List.mapM_nil, pure_bind, pure_bind]
    exact h [] rfl
  | cons e es ih =>
    simp only [List.mapM_cons, bind_assoc, pure_bind]
    refine bind_congr fun b => ih fun bs hbs => h (b :: bs) ?_
    rw [List.length_cons, List.length_cons, hbs]

/-- Two lists of calls in a row are one. -/
theorem map_mapM_bind (es es' : List ε) (g : List β → α) (g' : List β → α') (k : α → α' → γ) :
    (do
      let a ← g <$> es.mapM f
      let b ← g' <$> es'.mapM f
      return k a b) =
      (fun bs => k (g (bs.take es.length)) (g' (bs.drop es.length))) <$> (es ++ es').mapM f := by
  simp only [map_eq_pure_bind, List.mapM_append, bind_assoc, pure_bind]
  refine mapM_bind_congr fun bs hbs => bind_congr fun bs' => ?_
  rw [← hbs, List.take_left, List.drop_left]

end

/-! ### What is left alone -/

/-- A block that stands for any. -/
def DocBlock.blank : DocBlock := ⟨0, [], []⟩

/-- Only whether there is a block. -/
def blankedDoc (doc : Option DocBlock) : Option DocBlock := doc.map fun _ => DocBlock.blank

def Param.blanked (p : Param) : Param := { p with doc := blankedDoc p.doc }

def Item.blanked : Item → Item
  | .function shape => .function { shape with params := shape.params.map Param.blanked }
  | item => item

def Declared.blanked (d : Declared) : Declared :=
  { d with doc := blankedDoc d.doc, item := d.item.blanked }

/-! ### Blocks put in -/

/-- The parameters with other blocks in the places of their own. -/
def paramsWith : List Param → List DocBlock → List Param
  | [], _ => []
  | p :: ps, bs =>
    { p with doc := (bs.take p.doc.toList.length).head? } :: paramsWith ps (bs.drop p.doc.toList.length)

def Item.withDocs : Item → List DocBlock → Item
  | .function shape, bs => .function { shape with params := paramsWith shape.params bs }
  | item, _ => item

def Declared.withDocs (d : Declared) (bs : List DocBlock) : Declared :=
  { d with
    doc := (bs.take d.doc.toList.length).head?
    item := d.item.withDocs (bs.drop d.doc.toList.length) }

namespace Declaration

mutual

/-- The tree with a blank in the place of every block. -/
def blanked : Declaration → Declaration
  | ⟨own, members⟩ => ⟨own.blanked, blankedAll members⟩

def blankedAll : List Declaration → List Declaration
  | [] => []
  | d :: ds => d.blanked :: blankedAll ds

end

mutual

/-- The tree with other blocks in the places of its own. -/
def withDocs : Declaration → List DocBlock → Declaration
  | ⟨own, members⟩, bs =>
    ⟨own.withDocs (bs.take own.docs.length), withDocsAll members (bs.drop own.docs.length)⟩

def withDocsAll : List Declaration → List DocBlock → List Declaration
  | [], _ => []
  | d :: ds, bs => d.withDocs (bs.take d.docs.length) :: withDocsAll ds (bs.drop d.docs.length)

end

/-- A declaration's own blocks come first, then those of its members. -/
theorem docs_mk (own : Declared) (members : List Declaration) :
    docs ⟨own, members⟩ = own.docs ++ members.flatMap docs := by
  unfold docs
  rw [walk_eq, List.flatMap_cons, List.flatMap_assoc]

end Declaration

theorem filterMap_doc_cons (p : Param) (ps : List Param) :
    (p :: ps).filterMap (·.doc) = p.doc.toList ++ ps.filterMap (·.doc) := by
  cases hp : p.doc <;> simp [hp]

/-! ### A traversal is its calls -/

section
variable {m : Type → Type u} [Monad m] [LawfulMonad m]

theorem mapM_doc_eq (f : DocBlock → m DocBlock) (doc : Option DocBlock) :
    doc.mapM f = List.head? <$> doc.toList.mapM f := by
  cases doc with
  | none => simp
  | some b => simp

theorem Param.mapDoc_eq (f : DocBlock → m DocBlock) (p : Param) :
    p.mapDoc f = (fun bs => { p with doc := bs.head? }) <$> p.doc.toList.mapM f := by
  rw [Param.mapDoc, mapM_doc_eq, bind_map_left, map_eq_pure_bind]

theorem mapM_mapDoc_eq (f : DocBlock → m DocBlock) (ps : List Param) :
    ps.mapM (·.mapDoc f) = paramsWith ps <$> (ps.filterMap (·.doc)).mapM f := by
  induction ps with
  | nil => rw [List.mapM_nil, List.filterMap_nil, List.mapM_nil, map_pure]; rfl
  | cons p ps ih =>
    rw [List.mapM_cons, ih, Param.mapDoc_eq, filterMap_doc_cons]
    exact map_mapM_bind _ _ _ _ List.cons

theorem Item.mapDocs_eq (f : DocBlock → m DocBlock) (item : Item) :
    item.mapDocs f = item.withDocs <$> item.docs.mapM f := by
  cases item with
  | function shape =>
    rw [Item.mapDocs, mapM_mapDoc_eq, bind_map_left, map_eq_pure_bind]
    rfl
  | enumeration | record | property | variant =>
    show pure _ = _ <$> List.mapM f []
    rw [List.mapM_nil, map_pure]
    rfl

theorem Declared.mapDocs_eq (f : DocBlock → String → m DocBlock) (d : Declared) :
    d.mapDocs f = d.withDocs <$> d.docs.mapM fun e => f e.1 e.2 := by
  rw [Declared.docs, List.mapM_map, Declared.mapDocs, mapM_doc_eq, Item.mapDocs_eq]
  exact map_mapM_bind _ _ _ _ fun (doc : Option DocBlock) item => ({ d with doc, item } : Declared)

namespace Declaration

theorem mapDocsAll_eq_of_each (f : DocBlock → String → m DocBlock) {ds : List Declaration}
    (each : ∀ d ∈ ds, d.mapDocs f = d.withDocs <$> d.docs.mapM fun e => f e.1 e.2) :
    mapDocsAll f ds = withDocsAll ds <$> (ds.flatMap docs).mapM fun e => f e.1 e.2 := by
  induction ds with
  | nil =>
    rw [mapDocsAll, List.flatMap_nil, List.mapM_nil, map_pure]
    rfl
  | cons d ds ih =>
    obtain ⟨hd, hds⟩ := List.forall_mem_cons.1 each
    rw [mapDocsAll, hd, ih hds, List.flatMap_cons]
    exact map_mapM_bind _ _ _ _ List.cons

/-- **A traversal calls its function once for each block**, in order and with the path of the
declaration that it documents, and puts the answers in. -/
theorem mapDocs_eq (f : DocBlock → String → m DocBlock) (d : Declaration) :
    d.mapDocs f = d.withDocs <$> d.docs.mapM fun e => f e.1 e.2 := by
  induction d using Declaration.induction with
  | step own members ih =>
    rw [mapDocs, Declared.mapDocs_eq, mapDocsAll_eq_of_each f ih, docs_mk]
    exact map_mapM_bind _ _ _ _ Declaration.mk

end Declaration

end

/-! ### A tree is its blocks and the rest of it -/

/-- With blocks put in, `a` has them in the places of its own and is the same in all the rest;
and what is the same in all the rest is `a` with that one's blocks put in. -/
structure Refills {α : Type} (blocks : α → List DocBlock) (rest : α → α)
    (put : α → List DocBlock → α) (a : α) : Prop where
  blocks_put (bs : List DocBlock) (fits : bs.length = (blocks a).length) : blocks (put a bs) = bs
  rest_put (bs : List DocBlock) (fits : bs.length = (blocks a).length) : rest (put a bs) = rest a
  put_blocks (a' : α) (same : rest a' = rest a) : put a (blocks a') = a'
  length_blocks (a' : α) (same : rest a' = rest a) : (blocks a').length = (blocks a).length

namespace Refills
variable {α β γ : Type} {blocksα : α → List DocBlock} {restα : α → α} {putα : α → List DocBlock → α}
  {blocksβ : β → List DocBlock} {restβ : β → β} {putβ : β → List DocBlock → β}
  {blocks : γ → List DocBlock} {rest : γ → γ} {put : γ → List DocBlock → γ} {a : α} {b : β} {c : γ}

/-- Without places for blocks there is only the rest. -/
theorem none (nothing : ∀ c', rest c' = rest c → c' = c ∧ blocks c' = []) (keeps : put c [] = c) :
    Refills blocks rest put c := by
  have hnil := (nothing c rfl).2
  refine ⟨fun bs fits => ?_, fun bs fits => ?_, fun c' same => ?_, fun c' same => ?_⟩
  · obtain rfl := List.eq_nil_of_length_eq_zero (by rw [fits, hnil]; rfl)
    rw [keeps, hnil]
  · obtain rfl := List.eq_nil_of_length_eq_zero (by rw [fits, hnil]; rfl)
    rw [keeps]
  · rw [(nothing c' same).2, keeps, (nothing c' same).1]
  · rw [(nothing c' same).1]

/-- What is made of two has the blocks of the one in front of those of the other. -/
theorem both (mk : α → β → γ) (ha : Refills blocksα restα putα a) (hb : Refills blocksβ restβ putβ b)
    (hblocks : ∀ a b, blocks (mk a b) = blocksα a ++ blocksβ b)
    (hput : ∀ front back, front.length = (blocksα a).length →
      put (mk a b) (front ++ back) = mk (putα a front) (putβ b back))
    (hrest : ∀ a' b', restα a' = restα a → restβ b' = restβ b → rest (mk a' b') = rest (mk a b))
    (hparts : ∀ c', rest c' = rest (mk a b) → ∃ a' b', c' = mk a' b' ∧ restα a' = restα a ∧ restβ b' = restβ b) :
    Refills blocks rest put (mk a b) := by
  have hcut {bs : List DocBlock} (fits : bs.length = (blocks (mk a b)).length) :
      ∃ front back, bs = front ++ back ∧ front.length = (blocksα a).length ∧
        back.length = (blocksβ b).length := by
    rw [hblocks, List.length_append] at fits
    refine ⟨_, _, (List.take_append_drop (blocksα a).length bs).symm, ?_, ?_⟩
    · exact List.length_take_of_le (by omega)
    · rw [List.length_drop]
      omega
  refine ⟨fun bs fits => ?_, fun bs fits => ?_, fun c' same => ?_, fun c' same => ?_⟩
  · obtain ⟨front, back, rfl, hfront, hback⟩ := hcut fits
    rw [hput front back hfront, hblocks, ha.blocks_put front hfront, hb.blocks_put back hback]
  · obtain ⟨front, back, rfl, hfront, hback⟩ := hcut fits
    rw [hput front back hfront, hrest _ _ (ha.rest_put front hfront) (hb.rest_put back hback)]
  · obtain ⟨a', b', rfl, hsame, hsame'⟩ := hparts c' same
    rw [hblocks, hput _ _ (ha.length_blocks a' hsame), ha.put_blocks a' hsame, hb.put_blocks b' hsame']
  · obtain ⟨a', b', rfl, hsame, hsame'⟩ := hparts c' same
    rw [hblocks, hblocks, List.length_append, List.length_append, ha.length_blocks a' hsame,
      hb.length_blocks b' hsame']

end Refills

theorem refills_doc (doc : Option DocBlock) :
    Refills Option.toList blankedDoc (fun _ => List.head?) doc := by
  cases doc with
  | none =>
    refine .none (fun doc same => ?_) rfl
    obtain rfl := Option.map_eq_none_iff.1 same
    exact ⟨rfl, rfl⟩
  | some b =>
    have hsome {bs : List DocBlock} (fits : bs.length = (some b).toList.length) : ∃ b', bs = [b'] :=
      List.length_eq_one_iff.1 fits
    refine ⟨fun bs fits => ?_, fun bs fits => ?_, fun doc same => ?_, fun doc same => ?_⟩
    · obtain ⟨b', rfl⟩ := hsome fits
      rfl
    · obtain ⟨b', rfl⟩ := hsome fits
      rfl
    · cases doc <;> rfl
    · obtain ⟨b', rfl, -⟩ := Option.map_eq_some_iff.1 same
      rfl

theorem refills_params (ps : List Param) :
    Refills (List.filterMap (·.doc)) (List.map Param.blanked) paramsWith ps := by
  induction ps with
  | nil =>
    refine .none (fun ps same => ?_) rfl
    obtain rfl := List.map_eq_nil_iff.1 same
    exact ⟨rfl, rfl⟩
  | cons p ps ih =>
    refine Refills.both (fun doc ps => { p with doc } :: ps) (refills_doc p.doc) ih
      (fun doc ps => filterMap_doc_cons _ _) (fun front back hfront => ?_) (fun doc ps' hdoc hps => ?_)
      fun ps' same => ?_
    · rw [paramsWith, ← hfront, List.take_left, List.drop_left]
    · show { p with doc := blankedDoc doc } :: ps'.map Param.blanked = _
      rw [hdoc, hps]
      rfl
    · obtain ⟨⟨name, type, default, doc⟩, ps', rfl, hp, hps⟩ := List.map_eq_cons_iff.1 same
      obtain ⟨rfl, rfl, rfl, hdoc⟩ := Param.mk.inj hp
      exact ⟨doc, ps', rfl, hdoc, hps⟩

theorem refills_item (item : Item) : Refills Item.docs Item.blanked Item.withDocs item := by
  cases item with
  | function shape =>
    have hparams := refills_params shape.params
    have hparts {item : Item} (same : item.blanked = Item.blanked (.function shape)) :
        ∃ params, item = .function { shape with params } ∧
          params.map Param.blanked = shape.params.map Param.blanked := by
      cases item with
      | function shape' =>
        obtain ⟨lead, params, qualifiers, special, hasBody⟩ := shape'
        obtain ⟨rfl, hsame, rfl, rfl, rfl⟩ := FunctionShape.mk.inj (Item.function.inj same)
        exact ⟨params, rfl, hsame⟩
      | enumeration | record | property | variant => cases same
    refine ⟨hparams.blocks_put, fun bs fits => ?_, fun item same => ?_, fun item same => ?_⟩
    · show Item.function { shape with params := (paramsWith shape.params bs).map Param.blanked } = _
      rw [hparams.rest_put bs fits]
      rfl
    · obtain ⟨params, rfl, hsame⟩ := hparts same
      show Item.function { shape with params := paramsWith shape.params (params.filterMap (·.doc)) } = _
      rw [hparams.put_blocks params hsame]
    · obtain ⟨params, rfl, hsame⟩ := hparts same
      exact hparams.length_blocks params hsame
  | enumeration | record | property | variant =>
    refine .none (fun item same => ?_) rfl
    cases item <;> first | exact ⟨same, rfl⟩ | cases same

/-- A declaration's own block and those of its parameters. -/
def Declared.blocks (d : Declared) : List DocBlock := d.docs.map Prod.fst

theorem Declared.length_blocks (d : Declared) : d.blocks.length = d.docs.length := List.length_map _

theorem Declared.blocks_eq (d : Declared) : d.blocks = d.doc.toList ++ d.item.docs := by
  rw [blocks, docs, List.map_map]
  exact List.map_id _

theorem Declared.refills (d : Declared) : Refills blocks blanked withDocs d := by
  refine Refills.both (fun doc item => { d with doc, item }) (refills_doc d.doc) (refills_item d.item)
    (fun doc item => blocks_eq { d with doc, item }) (fun front back hfront => ?_)
    (fun doc item hdoc hitem => ?_) ?_
  · rw [withDocs, ← hfront, List.take_left, List.drop_left]
  · show { d with doc := blankedDoc doc, item := item.blanked } = _
    rw [hdoc, hitem]
    rfl
  · rintro ⟨name, path, line, visibility, template, reflection, signature, doc, item, synthetic⟩ same
    obtain ⟨rfl, rfl, rfl, rfl, rfl, rfl, rfl, hdoc, hitem, rfl⟩ := Declared.mk.inj same
    exact ⟨doc, item, rfl, hdoc, hitem⟩

namespace Declaration

/-- The blocks of a tree in the order of a traversal. -/
def docBlocks (d : Declaration) : List DocBlock := d.docs.map Prod.fst

theorem length_docBlocks (d : Declaration) : d.docBlocks.length = d.docs.length := List.length_map _

theorem docBlocks_mk (own : Declared) (members : List Declaration) :
    docBlocks ⟨own, members⟩ = own.blocks ++ members.flatMap docBlocks := by
  rw [docBlocks, docs_mk, List.map_append, List.map_flatMap]
  rfl

theorem refillsAll_of_each {ds : List Declaration} (each : ∀ d ∈ ds, Refills docBlocks blanked withDocs d) :
    Refills (List.flatMap docBlocks) blankedAll withDocsAll ds := by
  induction ds with
  | nil =>
    refine .none (fun ds same => ?_) rfl
    cases ds with
    | nil => exact ⟨rfl, rfl⟩
    | cons => cases same
  | cons d ds ih =>
    obtain ⟨hd, hds⟩ := List.forall_mem_cons.1 each
    refine Refills.both List.cons hd (ih hds) (fun d ds => List.flatMap_cons)
      (fun front back hfront => ?_) (fun d' ds' hsame hmore => ?_) fun ds' same => ?_
    · rw [withDocsAll, ← length_docBlocks, ← hfront, List.take_left, List.drop_left]
    · rw [blankedAll, hsame, hmore]
      rfl
    · cases ds' with
      | nil => cases same
      | cons d' more => exact ⟨d', more, rfl, (List.cons.inj same).1, (List.cons.inj same).2⟩

theorem refills (d : Declaration) : Refills docBlocks blanked withDocs d := by
  induction d using Declaration.induction with
  | step own members ih =>
    refine Refills.both Declaration.mk own.refills (refillsAll_of_each ih) docBlocks_mk
      (fun front back hfront => ?_) (fun own' members' hsame hmore => ?_) ?_
    · rw [withDocs, ← own.length_blocks, ← hfront, List.take_left, List.drop_left]
    · rw [blanked, hsame, hmore]
      rfl
    · rintro ⟨own', members'⟩ same
      obtain ⟨hsame, hmore⟩ := Declaration.mk.inj same
      exact ⟨own', members', rfl, hsame, hmore⟩

end Declaration

/-! ### What the rest tells of the blocks -/

theorem Item.docs_blanked (item : Item) : item.blanked.docs = item.docs.map fun _ => DocBlock.blank := by
  cases item with
  | function shape =>
    show (shape.params.map Param.blanked).filterMap (·.doc) = (shape.params.filterMap (·.doc)).map _
    rw [List.filterMap_map, List.map_filterMap]
    rfl
  | enumeration | record | property | variant => rfl

theorem Declared.docs_blanked (d : Declared) :
    d.blanked.docs = d.docs.map fun e => (DocBlock.blank, e.2) := by
  show ((blankedDoc d.doc).toList ++ d.item.blanked.docs).map (·, d.path) =
    ((d.doc.toList ++ d.item.docs).map (·, d.path)).map _
  rw [Item.docs_blanked, List.map_append, List.map_append, List.map_append, List.map_map, List.map_map,
    List.map_map]
  cases d.doc <;> rfl

namespace Declaration

theorem flatMap_docs_of_each {ds : List Declaration}
    (each : ∀ d ∈ ds, d.blanked.docs = d.docs.map fun e => (DocBlock.blank, e.2)) :
    (blankedAll ds).flatMap docs = (ds.flatMap docs).map fun e => (DocBlock.blank, e.2) := by
  induction ds with
  | nil => rfl
  | cons d ds ih =>
    obtain ⟨hd, hds⟩ := List.forall_mem_cons.1 each
    rw [blankedAll, List.flatMap_cons, List.flatMap_cons, List.map_append, hd, ih hds]

theorem docs_blanked (d : Declaration) :
    d.blanked.docs = d.docs.map fun e => (DocBlock.blank, e.2) := by
  induction d using Declaration.induction with
  | step own members ih =>
    rw [blanked, docs_mk, docs_mk, Declared.docs_blanked, flatMap_docs_of_each ih, List.map_append]

/-- The paths belong to the rest. -/
theorem docs_of_blanked {d d' : Declaration} (same : d'.blanked = d.blanked) :
    d'.docs = d'.docBlocks.zip (d.docs.map Prod.snd) := by
  have hpaths (d : Declaration) : d.docs.map Prod.snd = d.blanked.docs.map Prod.snd := by
    rw [docs_blanked, List.map_map]
    rfl
  rw [hpaths d, ← same, ← hpaths]
  exact List.zip_of_prod rfl rfl

end Declaration

end AnnotatedHeader
