import AnnotatedHeader.Proofs.Declaration.Refills
import AnnotatedHeader.Proofs.Numbering.Lines
import AnnotatedHeader.Proofs.Scope.Nodes
import Mathlib

/-! A doc block has one owner.

Each comment of a header is one piece, and each piece is read once: what a turn gives to
declarations, keeps waiting or leaves unread holds no block more often than what was there
before (`Takes.count_blocks_le`). A parameter takes its block from its own part of the list,
so no two parameters share one (`Head.count_params_le`). Hence
`Scope.Contents.blocks_distinct_of_ofLines`: the blocks of a header's declarations start on
different lines, and each is one of its comments. -/
namespace AnnotatedHeader

/-! ### Inventories -/

/-- The blocks of trees, at every depth. -/
def Declaration.blocks (ds : List Declaration) : List DocBlock :=
  (walkAll ds).flatMap (·.toDeclared.blocks)

theorem Declaration.blocks_nil : blocks [] = [] := rfl

theorem Declaration.blocks_cons (d : Declaration) (ds : List Declaration) :
    blocks (d :: ds) = d.toDeclared.blocks ++ (blocks d.members ++ blocks ds) := by
  unfold blocks
  rw [walkAll, walk_eq, ← walkAll_eq_flatMap]
  simp

namespace Piece

def doc? : Piece → Option DocBlock
  | .doc b => some b
  | _ => none

def docs (ps : List Piece) : List DocBlock := ps.filterMap doc?

@[simp] theorem docs_nil : docs [] = [] := rfl

@[simp] theorem docs_token (t : Token) (ps : List Piece) : docs (.token t :: ps) = docs ps := rfl

@[simp] theorem docs_doc (b : DocBlock) (ps : List Piece) : docs (.doc b :: ps) = b :: docs ps := rfl

@[simp] theorem docs_inject (proxy : String) (line : Nat) (ps : List Piece) :
    docs (.inject proxy line :: ps) = docs ps := rfl

theorem count_docs_of_suffix {ps rest : List Piece} (x : DocBlock) (h : rest <:+ ps) :
    (docs rest).count x ≤ (docs ps).count x :=
  (h.sublist.filterMap doc?).count_le x

end Piece

open Piece (docs count_docs_of_suffix)

/-! ### Parameters -/

theorem Nesting.sorted_partsFrom (n : Nesting) (offset : Nat) (ts : List Token) :
    ((partsFrom n offset ts).map Prod.fst).Pairwise (· ≤ ·) ∧
      ∀ p ∈ partsFrom n offset ts, offset ≤ p.1 := by
  induction ts generalizing n offset with
  | nil => simp [partsFrom]
  | cons t ts ih =>
    obtain ⟨hsorted, hle⟩ := ih (n.step t) (offset + 1)
    rw [partsFrom]
    split
    · refine ⟨?_, ?_⟩
      · rw [List.map_cons, List.pairwise_cons, List.forall_mem_map]
        exact ⟨fun p hp => Nat.le_of_succ_le (hle p hp), hsorted⟩
      · exact List.forall_mem_cons.2 ⟨Nat.le_refl _, fun p hp => Nat.le_of_succ_le (hle p hp)⟩
    · cases hparts : partsFrom (n.step t) (offset + 1) ts with
      | nil => simp [consToken]
      | cons part parts =>
        rw [hparts] at hsorted hle
        have hle' : ∀ p ∈ parts, offset ≤ p.1 :=
          fun p hp => Nat.le_of_succ_le (hle p (List.mem_cons_of_mem _ hp))
        refine ⟨?_, List.forall_mem_cons.2 ⟨Nat.le_refl _, hle'⟩⟩
        rw [consToken, List.map_cons, List.pairwise_cons, List.forall_mem_map]
        exact ⟨hle', (List.pairwise_cons.1 hsorted).2⟩

namespace Head

/-- Blocks placed in two ranges that do not meet are placed, all together, in one that holds both. -/
theorem count_filter_add_le (x : DocBlock) (docs : List (Nat × DocBlock)) {p q r : Nat → Bool}
    (hpq : ∀ i, p i = true → q i = false) (hpr : ∀ i, p i = true → r i = true)
    (hqr : ∀ i, q i = true → r i = true) :
    ((docs.filter (p ·.1)).map Prod.snd).count x + ((docs.filter (q ·.1)).map Prod.snd).count x ≤
      ((docs.filter (r ·.1)).map Prod.snd).count x := by
  induction docs with
  | nil => simp
  | cons e docs ih =>
    simp only [List.filter_cons]
    cases hp : p e.1 with
    | true =>
      simp only [hpq _ hp, hpr _ hp, if_true, Bool.false_eq_true, if_false, List.map_cons,
        List.count_cons]
      omega
    | false =>
      cases hq : q e.1 with
      | true =>
        simp only [hqr _ hq, if_true, Bool.false_eq_true, if_false, List.map_cons, List.count_cons]
        omega
      | false =>
        cases r e.1 with
        | true =>
          simp only [if_true, Bool.false_eq_true, if_false, List.map_cons, List.count_cons]
          omega
        | false => simpa only [Bool.false_eq_true, if_false] using ih

/-- Parts that follow one another share no block: each takes its own from its own range. -/
theorem count_paramsOf_le (x : DocBlock) (docs : List (Nat × DocBlock)) (low stop : Nat)
    {parts : List (Nat × List Token)} (hsorted : (parts.map Prod.fst).Pairwise (· ≤ ·))
    (hlow : ∀ p ∈ parts, low ≤ p.1) :
    ((paramsOf docs stop parts).filterMap (·.doc)).count x ≤
      ((docs.filter (low ≤ ·.1)).map Prod.snd).count x := by
  induction parts generalizing low with
  | nil => simp [paramsOf]
  | cons part parts ih =>
    obtain ⟨start, ts⟩ := part
    rw [List.map_cons, List.pairwise_cons, List.forall_mem_map] at hsorted
    obtain ⟨hstart, hsorted⟩ := hsorted
    have hle : low ≤ start := hlow _ (List.mem_cons_self ..)
    have hown (limit : Nat) :
        ((docs.filter fun e => start ≤ e.1 && e.1 < limit).getLast?.map Prod.snd).toList.count x ≤
          ((docs.filter fun e => start ≤ e.1 && e.1 < limit).map Prod.snd).count x := by
      refine List.Sublist.count_le x ?_
      cases hlast : (docs.filter fun e => start ≤ e.1 && e.1 < limit).getLast? with
      | none => exact List.nil_sublist _
      | some e => exact List.singleton_sublist.2 (List.mem_map_of_mem (List.mem_of_getLast? hlast))
    have hcons (doc : Option DocBlock) (ps : List Param) :
        ((param ts doc :: ps).filterMap (·.doc)).count x =
          doc.toList.count x + (ps.filterMap (·.doc)).count x := by
      rw [← List.singleton_append, List.filterMap_append, List.count_append]
      cases doc <;> simp [doc_param]
    rw [paramsOf]
    dsimp only
    rw [hcons]
    cases parts with
    | nil =>
      refine (hown stop).trans (((List.monotone_filter_right docs fun e he => ?_).map _).count_le x)
      simp only [Bool.and_eq_true, decide_eq_true_eq] at he ⊢
      omega
    | cons next parts =>
      have hrest := ih next.1 hsorted fun p hp => by
        rcases List.mem_cons.1 hp with rfl | hp
        · exact Nat.le_refl _
        · exact (List.pairwise_cons.1 hsorted).1 _ (List.mem_map_of_mem hp)
      have hnext : start ≤ next.1 := hstart _ (List.mem_cons_self ..)
      refine (Nat.add_le_add (hown _) hrest).trans ?_
      exact count_filter_add_le x docs (p := fun i => start ≤ i && i < next.1)
        (q := fun i => next.1 ≤ i) (r := fun i => low ≤ i) (by simp) (by simp; omega)
        (by simp; omega)

/-- **No two parameters of a function have one block.** -/
theorem count_params_le (x : DocBlock) (docs : List (Nat × DocBlock)) (start : Nat)
    (inside : List Token) :
    ((params docs start inside).filterMap (·.doc)).count x ≤ (docs.map Prod.snd).count x := by
  rcases params_eq docs start inside with h | h
  · rw [h]
    exact Nat.zero_le _
  · rw [h]
    refine (count_paramsOf_le x docs 0 _ ?_ fun _ _ => Nat.zero_le _).trans
      (((List.filter_sublist ..).map _).count_le x)
    rw [List.pairwise_map, List.pairwise_map]
    refine (List.pairwise_map.1 (Nesting.sorted_partsFrom {} 0 inside).1).imp ?_
    exact fun h => Nat.add_le_add_left h start

/-- The headings of a statement take each of its blocks at most once. -/
theorem count_classify_le (x : DocBlock) {stmt : Statement} {record : Option String}
    {first : Heading} {others : List Heading}
    (hc : classify stmt record = .declares first others) :
    ((first :: others).flatMap (·.item.docs)).count x ≤ (stmt.paramDocs.map Prod.snd).count x := by
  have hnone {hs : List Heading} (h : ∀ h ∈ hs, h.item.docs = []) :
      (hs.flatMap (·.item.docs)).count x ≤ (stmt.paramDocs.map Prod.snd).count x := by
    rw [List.flatMap_eq_nil_iff.2 h]
    exact Nat.zero_le _
  cases form_of_classify hc with
  | enumeration => exact hnone (by simp [enumHead, Item.docs])
  | record tokens head =>
    obtain ⟨rfl, name, key, shape, -, -, -, rfl⟩ := eq_of_recordHead head
    exact hnone (by simp [Item.docs])
  | function call head =>
    obtain ⟨rfl, inside, behind, name, lead, special, -, -, rfl⟩ := eq_of_functionHead head
    rw [List.flatMap_singleton]
    exact count_params_le x ..
  | properties within head =>
    refine hnone fun h hh => ?_
    obtain ⟨us, -, hproperty⟩ := exists_of_propertyHeads head h hh
    obtain ⟨vs, d, shape, -, -, rfl⟩ := eq_of_property? hproperty
    rfl

end Head

/-! ### Statements -/

namespace Statement

theorem count_of_collect (x : DocBlock) {depth braces : Nat} {s s' : Statement}
    {ps rest : List Piece} (h : (collect depth braces s ps).result = .ok (s', rest)) :
    (s'.paramDocs.map Prod.snd).count x + (docs rest).count x ≤
      (s.paramDocs.map Prod.snd).count x + (docs ps).count x := by
  induction ps generalizing depth braces s with
  | nil =>
    rw [collect] at h
    split at h <;> cases h <;> exact Nat.le_refl _
  | cons p ps ih =>
    cases p with
    | inject proxy line => cases h
    | doc b =>
      rw [collect] at h
      rw [Piece.docs_doc, List.count_cons]
      split at h
      · exact (ih h).trans (by omega)
      · split at h
        · have := ih h
          simp only [pushDoc, List.map_append, List.map_cons, List.map_nil, List.count_append,
            List.count_cons, List.count_nil] at this
          omega
        · obtain ⟨-, -, h⟩ := Outcome.result_bind_eq_ok.1 h
          exact (ih h).trans (by omega)
    | token t =>
      rw [collect] at h
      rw [Piece.docs_token]
      split at h
      · cases h
        exact Nat.le_refl _
      · cases h
        exact Nat.le_refl _
      · cases h
        exact Nat.le_refl _
      · exact ih (s := s.push t) h

theorem count_of_read (x : DocBlock) {stmt : Statement} {ps rest : List Piece}
    (h : (read ps).result = .ok (stmt, rest)) :
    (stmt.paramDocs.map Prod.snd).count x + (docs rest).count x ≤ (docs ps).count x := by
  simpa using count_of_collect x h

end Statement

/-! ### Merging -/

theorem Declared.count_blocks (x : DocBlock) (d : Declared) :
    d.blocks.count x = d.doc.toList.count x + d.item.docs.count x := by
  rw [blocks_eq, List.count_append]

namespace Declaration

theorem count_blocks_node (x : DocBlock) (d : Declaration) :
    (blocks [d]).count x = d.toDeclared.blocks.count x + (blocks d.members).count x := by
  rw [blocks_cons, blocks_nil, List.append_nil, List.count_append]

theorem count_blocks_cons (x : DocBlock) (d : Declaration) (ds : List Declaration) :
    (blocks (d :: ds)).count x = (blocks [d]).count x + (blocks ds).count x := by
  rw [blocks_cons, count_blocks_node, List.count_append, List.count_append, Nat.add_assoc]

/-- The winner takes the loser's block only where it has none. -/
theorem count_blocks_inherit (x : DocBlock) (winner loser : Declaration) :
    (blocks [inherit winner loser]).count x ≤
      (blocks [winner]).count x + (blocks [loser]).count x := by
  have hdoc : (winner.doc <|> loser.doc).toList.count x ≤
      winner.doc.toList.count x + loser.doc.toList.count x := by
    cases winner.doc with
    | none => simp
    | some b => simp
  simp only [count_blocks_node, Declared.count_blocks, inherit]
  omega

theorem count_blocks_combine (x : DocBlock) (earlier later : Declaration) :
    (blocks [combine earlier later]).count x ≤
      (blocks [earlier]).count x + (blocks [later]).count x := by
  unfold combine
  split
  · exact count_blocks_inherit x earlier later
  · exact (count_blocks_inherit x later earlier).trans (Nat.le_of_eq (Nat.add_comm ..))

theorem count_blocks_merged (x : DocBlock) (ds : List Declaration) (later : Declaration) :
    (blocks (merged ds later)).count x ≤ (blocks ds).count x + (blocks [later]).count x := by
  induction ds with
  | nil => exact Nat.le_add_left ..
  | cons d ds ih =>
    rw [merged]
    split
    · have hcombine := count_blocks_combine x d later
      rw [count_blocks_cons, count_blocks_cons x d ds]
      omega
    · rw [count_blocks_cons, count_blocks_cons x d ds]
      omega

theorem count_blocks_foldl_merged (x : DocBlock) (ds more : List Declaration) :
    (blocks (more.foldl merged ds)).count x ≤ (blocks ds).count x + (blocks more).count x := by
  induction more generalizing ds with
  | nil => exact Nat.le_add_right ..
  | cons d more ih =>
    have hmerged := count_blocks_merged x ds d
    have hrest := ih (merged ds d)
    rw [List.foldl_cons, count_blocks_cons]
    omega

end Declaration

open Declaration

/-! ### Enum bodies -/

theorem EnumBody.count_of_read (x : DocBlock) {path : String} {members found : List Declaration}
    {doc : Option DocBlock} {ps rest : List Piece}
    (h : (read path members doc ps).result = .ok (found, rest)) :
    (blocks found).count x + (docs rest).count x ≤
      (blocks members).count x + doc.toList.count x + (docs ps).count x := by
  fun_induction read path members doc ps with
  | case1 members doc =>
    cases h
    omega
  | case2 members doc b ps ih =>
    have hrest := ih h
    rw [Piece.docs_doc, List.count_cons]
    rw [Option.toList_some, List.count_singleton] at hrest
    omega
  | case3 => cases h
  | case4 members doc t ps =>
    cases h
    rw [Piece.docs_token]
    omega
  | case5 members doc t ps _ ih => exact ih h
  | case6 members doc t ps more _ _ ih =>
    obtain ⟨members', hentry, h⟩ := Outcome.result_bind_eq_ok.1 h
    have hrest := ih members' h
    have hmore := count_docs_of_suffix x (entryTokens_suffix (bracketDepth 0 t.kind) ps)
    have hmembers : (blocks members').count x ≤ (blocks members).count x + doc.toList.count x := by
      unfold addEntry at hentry
      obtain ⟨entry, hvariant, hentry⟩ := Outcome.result_bind_eq_ok.1 hentry
      split at hentry
      · rename_i member
        rw [result_mergeInto] at hentry
        cases hentry
        rw [Outcome.result_ofExcept] at hvariant
        obtain ⟨name, _, _, -, -, rfl⟩ := eq_of_variant hvariant
        refine (count_blocks_merged x members _).trans (Nat.le_of_eq ?_)
        simp [count_blocks_node, Declared.count_blocks, blocks_nil, Item.docs]
      · obtain ⟨-, -, hentry⟩ := Outcome.result_bind_eq_ok.1 hentry
        cases hentry
        omega
    rw [Option.toList_none, List.count_nil] at hrest
    rw [Piece.docs_token]
    exact hrest.trans (Nat.add_le_add hmembers hmore)

/-! ### Scopes -/

namespace Scope

/-- The block that waits and those of what has been declared. -/
def State.blocks (b : State) : List DocBlock := b.pending.doc.toList ++ Declaration.blocks b.members

def Frame.blocks : Frame → List DocBlock
  | .transparent b => b.blocks
  | .memberOf b own => own.blocks ++ b.blocks

def Turn.blocks : Turn → List DocBlock
  | .closes _ => []
  | .continues b _ => b.blocks
  | .opens _ frame _ => frame.blocks

theorem State.count_blocks (x : DocBlock) (b : State) :
    b.blocks.count x = b.pending.doc.toList.count x + (Declaration.blocks b.members).count x :=
  List.count_append

theorem State.count_blocks_members_le (x : DocBlock) (b : State) :
    (Declaration.blocks b.members).count x ≤ b.blocks.count x :=
  (List.sublist_append_right ..).count_le x

theorem State.count_blocks_added (x : DocBlock) (b : State) (d : Declaration) :
    (b.added d).blocks.count x ≤ b.blocks.count x + (Declaration.blocks [d]).count x := by
  unfold State.added
  split
  · exact Nat.le_add_right ..
  · have hmerged := count_blocks_merged x b.members d
    simp only [State.count_blocks] at hmerged ⊢
    omega

theorem State.count_blocks_foldl_added (x : DocBlock) (b : State) (ds : List Declaration) :
    (ds.foldl State.added b).blocks.count x ≤ b.blocks.count x + (Declaration.blocks ds).count x := by
  induction ds generalizing b with
  | nil => exact Nat.le_add_right ..
  | cons d ds ih =>
    have hadded := State.count_blocks_added x b d
    have hrest := ih (b.added d)
    rw [List.foldl_cons, count_blocks_cons]
    omega

theorem Frame.count_blocks_resumed (x : DocBlock) (f : Frame) (found : Contents) :
    (f.resumed found).blocks.count x ≤
      f.blocks.count x + (Declaration.blocks found.declarations).count x := by
  cases f with
  | transparent b =>
    have hmerged := count_blocks_foldl_merged x b.members found.declarations
    simp only [resumed, Frame.blocks, State.count_blocks]
    omega
  | memberOf b own =>
    refine (State.count_blocks_added x _ _).trans (Nat.le_of_eq ?_)
    simp only [Frame.blocks, State.count_blocks, count_blocks_node, List.count_append]
    omega

/-- What waits goes to the first heading, and the blocks of the statement to parameters. -/
theorem count_blocks_of_classify (x : DocBlock) {s : Scope} {stmt : Statement} {first : Heading}
    {others : List Heading} {ps rest : List Piece} (visibility : Visibility) (waiting : Pending)
    (read : (Statement.read ps).result = .ok (stmt, rest))
    (head : Head.classify stmt s.record = .declares first others) :
    (s.declared visibility stmt.line waiting first).blocks.count x +
        (Declaration.blocks (others.map fun h =>
          ⟨s.declared visibility stmt.line {} h, []⟩)).count x + (docs rest).count x ≤
      waiting.doc.toList.count x + (docs ps).count x := by
  have hothers (hs : List Heading) : (Declaration.blocks (hs.map fun h =>
      ⟨s.declared visibility stmt.line {} h, []⟩)).count x = (hs.flatMap (·.item.docs)).count x := by
    induction hs with
    | nil => rfl
    | cons h hs ih =>
      rw [List.map_cons, count_blocks_cons, count_blocks_node, Declared.count_blocks, ih,
        List.flatMap_cons, List.count_append]
      simp [declared, blocks_nil]
  have hread := Statement.count_of_read x read
  have hhead := Head.count_classify_le x head
  rw [List.flatMap_cons, List.count_append] at hhead
  rw [hothers, Declared.count_blocks]
  simp only [declared]
  omega

theorem Declares.count_blocks_le (x : DocBlock) {s : Scope} {b : State} {ps : List Piece}
    {u : Turn} (h : Declares s b ps u) :
    u.blocks.count x + (docs u.rest).count x ≤ b.blocks.count x + (docs ps).count x := by
  have hfreed : b.blocks.count x =
      (State.blocks { b with pending := {} }).count x + b.pending.doc.toList.count x := by
    simp only [State.count_blocks, Option.toList_none, List.count_nil]
    omega
  have hclassify {stmt : Statement} {first : Heading} {others : List Heading} {rest : List Piece}
      (read : (Statement.read ps).result = .ok (stmt, rest))
      (head : Head.classify stmt s.record = .declares first others) :=
    count_blocks_of_classify x b.visibility b.pending read head
  cases h with
  | passesOver read head free skipped =>
    have hread := Statement.count_of_read x read
    have hskipped := count_docs_of_suffix x (Statement.skipBodyOf_suffix skipped)
    simp only [Turn.blocks, Turn.rest]
    omega
  | opensRecord read head checked body item =>
    have hown := hclassify read head
    simp only [Turn.blocks, Turn.rest, Frame.blocks, List.count_append]
    omega
  | @readsEnum stmt first others rest rest' shape members read head checked body item entries =>
    have hown := hclassify read head
    have hentries := EnumBody.count_of_read x entries
    have hadded := State.count_blocks_added x { b with pending := {} }
      ⟨s.declared b.visibility stmt.line b.pending first, members⟩
    simp only [count_blocks_node] at hadded
    rw [blocks_nil, Option.toList_none, List.count_nil] at hentries
    simp only [Turn.blocks, Turn.rest]
    omega
  | @skipsBody stmt first others rest rest' read head checked body record enum skipped =>
    have hown := hclassify read head
    have hskipped := count_docs_of_suffix x (skipBody_suffix skipped)
    have hadded := State.count_blocks_added x { b with pending := {} }
      ⟨s.declared b.visibility stmt.line b.pending first, []⟩
    simp only [count_blocks_node, blocks_nil, List.count_nil] at hadded
    simp only [Turn.blocks, Turn.rest]
    omega
  | @announces stmt first others rest read head checked bodiless =>
    have hown := hclassify read head
    have hadded := State.count_blocks_foldl_added x { b with pending := {} }
      (⟨s.declared b.visibility stmt.line b.pending first, []⟩ ::
        others.map fun h => ⟨s.declared b.visibility stmt.line {} h, []⟩)
    rw [count_blocks_cons] at hadded
    simp only [count_blocks_node, blocks_nil, List.count_nil] at hadded
    simp only [Turn.blocks, Turn.rest]
    omega

/-- **A turn uses a block once**: what it gives to declarations, keeps waiting and leaves
unread was there before. -/
theorem Takes.count_blocks_le (x : DocBlock) {s : Scope} {b : State} {p : Piece} {ps : List Piece}
    {u : Turn} (h : Takes s b p ps u) :
    u.blocks.count x + (docs u.rest).count x ≤ b.blocks.count x + (docs (p :: ps)).count x := by
  have hfreed : b.withoutDoc.blocks.count x ≤ b.blocks.count x := by
    simp only [State.count_blocks, State.withoutDoc, Option.toList_none, List.count_nil]
    omega
  -- What a token's turn leaves unread is less than what was behind the token.
  have hkeeps {b' : State} {t : Token} {rest : List Piece}
      (hb : b'.blocks.count x ≤ b.blocks.count x) (hrest : rest <:+ ps) :
      b'.blocks.count x + (docs rest).count x ≤
        b.blocks.count x + (docs (.token t :: ps)).count x := by
    rw [Piece.docs_token]
    exact Nat.add_le_add hb (count_docs_of_suffix x hrest)
  cases h with
  | doc block =>
    simp only [Turn.blocks, Turn.rest, State.count_blocks, Option.toList_some, Piece.docs_doc,
      List.count_cons, List.count_nil]
    omega
  | inject => exact Nat.le_refl _
  | closes => exact Nat.le_add_left_of_le (Nat.zero_add _).le
  | passes => exact Nat.le_refl _
  | label => exact hkeeps (Nat.le_refl _) (List.drop_suffix ..)
  | template => exact hkeeps (Nat.le_refl _) (templateTokens_suffix ..)
  | opensNamespace kind is head =>
    have hsuffix := namespaceHead_suffix "" ps
    rw [head] at hsuffix
    exact hkeeps hfreed hsuffix
  | aliases kind is head read =>
    have hsuffix := namespaceHead_suffix "" ps
    rw [head] at hsuffix
    exact hkeeps hfreed ((Statement.read_suffix read).trans hsuffix)
  | endsNamespaceHead kind is head =>
    have hsuffix := namespaceHead_suffix "" ps
    rw [head] at hsuffix
    exact hkeeps hfreed hsuffix
  | opensLinkage => exact hkeeps (Nat.le_refl _) (List.drop_suffix ..)
  | annotates kind is free read => exact hkeeps (Nat.le_refl _) (readReflection_suffix read)
  | passesOverKeyword kind is read skipped =>
    refine hkeeps (Nat.le_refl _) ((Statement.skipBodyOf_suffix skipped).trans ?_)
    exact Statement.read_suffix_of_token (by simp [kind]) read
  | calls kind is => exact hkeeps (Nat.le_refl _) (afterMacroCall?_suffix (word_macroCall is))
  | declares _ _ h => exact h.count_blocks_le x

/-- **And so does the reading of a scope.** -/
theorem Reads.count_blocks_le (x : DocBlock) {s : Scope} {b : State} {ps rest : List Piece}
    {found : Contents} (h : Reads s b ps found rest) :
    (Declaration.blocks found.declarations).count x + (docs rest).count x ≤
      b.blocks.count x + (docs ps).count x := by
  induction h with
  | ends => exact Nat.add_le_add_right (State.count_blocks_members_le x _) _
  | closes taken _ =>
    refine Nat.add_le_add (State.count_blocks_members_le x _) (count_docs_of_suffix x ?_)
    exact (turn_suffix taken).trans (List.suffix_cons ..)
  | continues taken _ ih => exact ih.trans ((takes_of_turn taken).count_blocks_le x)
  | @opens s inner b p ps rest _ _ frame within _ taken inside _ ihInside ihMore =>
    have hturn := (takes_of_turn taken).count_blocks_le x
    have hresumed := Frame.count_blocks_resumed x frame within
    have hstart : inner.start.blocks.count x = 0 := rfl
    simp only [Turn.blocks, Turn.rest] at hturn
    omega

end Scope

/-! ### Headers -/

/-- Comments that are grouped from lines start on different ones. -/
theorem CommentBlock.lines_groupFrom_sublist (run : List NumberedLine) (ls : List SourceLine) :
    ((groupFrom run ls).map line).Sublist ((run.head?.map Prod.fst).toList ++ ls.map (·.line)) := by
  induction ls generalizing run with
  | nil =>
    rw [groupFrom]
    cases run <;> simp [line]
  | cons l ls ih =>
    have hadded (text : String) :
        ((groupFrom (run ++ [(l.line, text)]) ls).map line).Sublist
          ((run.head?.map Prod.fst).toList ++ (l :: ls).map (·.line)) := by
      refine (ih _).trans ?_
      cases run with
      | nil => exact List.Sublist.refl _
      | cons r run => exact ((List.sublist_cons_self ..).append_left _)
    have hrest : ((groupFrom [] ls).map line).Sublist ((l :: ls).map (·.line)) :=
      (ih []).trans (List.sublist_cons_self ..)
    rw [groupFrom]
    split
    · exact hadded _
    · split
      · exact hrest.trans (List.sublist_append_right ..)
      · rename_i hrun
        split
        · exact hadded _
        · obtain ⟨r, rest, rfl⟩ := List.exists_cons_of_ne_nil (by simpa using hrun)
          exact hrest.cons_cons _

theorem CommentBlock.nodup_line_group {source : String} {lines : List SourceLine}
    (h : SourceLine.classify source = .ok lines) : ((group lines).map line).Nodup := by
  have hlines : (lines.map (·.line)).Nodup := by
    rw [(SourceLine.map_line_of_classifyFrom h).1]
    exact List.nodup_range'
  exact ((lines_groupFrom_sublist [] _).trans ((List.filter_sublist ..).map _)).nodup hlines

theorem Piece.perm_docs_ofLines (lines : List SourceLine) (blocks : List CommentBlock) :
    (docs (ofLines lines blocks)).Perm ((declarationBlocks blocks).map (·.toDoc)) := by
  unfold ofLines
  refine ((List.mergeSort_perm ..).filterMap doc?).trans (.of_eq ?_)
  have htokens (ts : List Token) : (ts.map Piece.token).filterMap doc? = [] := by
    simp [doc?]
  have hinjects : (lines.filterMap inject?).filterMap doc? = [] := by
    rw [List.filterMap_filterMap, List.filterMap_eq_nil_iff]
    intro l _
    unfold inject?
    split
    · split <;> rfl
    · rfl
  rw [List.filterMap_append, List.filterMap_append, htokens, hinjects]
  simp [Function.comp_def, doc?]

/-- **A doc block has one owner.** The blocks of a header's declarations and of their
parameters start on different lines, and each is one of the header's comments that document
declarations. -/
theorem Scope.Contents.blocks_distinct_of_ofLines {source : String} {lines : List SourceLine}
    {found : Scope.Contents} (hlines : SourceLine.classify source = .ok lines)
    (h : (ofLines lines (CommentBlock.group lines)).result = .ok found) :
    ((Declaration.blocks found.declarations).map (·.line)).Nodup ∧
      ∀ b ∈ Declaration.blocks found.declarations,
        ∃ c ∈ CommentBlock.group lines, c.proxy = none ∧ b = c.toDoc := by
  obtain ⟨rest, hreads⟩ := Contents.result_ofLines_eq_ok.1 h
  have hsubperm : (Declaration.blocks found.declarations).Subperm
      ((Piece.declarationBlocks (CommentBlock.group lines)).map (·.toDoc)) := by
    refine List.subperm_ext_iff.2 fun x _ => ?_
    rw [← (Piece.perm_docs_ofLines lines _).count_eq]
    have hcount := hreads.count_blocks_le x
    have hstart : Scope.file.start.blocks.count x = 0 := rfl
    omega
  refine ⟨?_, fun b hb => ?_⟩
  · obtain ⟨l, hperm, hsublist⟩ := List.subperm_iff.1 hsubperm
    refine (hsublist.map _).nodup ((hperm.map _).nodup_iff.2 ?_)
    rw [List.map_map]
    exact ((List.filter_sublist ..).map CommentBlock.line).nodup (CommentBlock.nodup_line_group hlines)
  · obtain ⟨c, hc, rfl⟩ := List.mem_map.1 (hsubperm.subset hb)
    obtain ⟨hc, hproxy⟩ := List.mem_filter.1 hc
    exact ⟨c, hc, Option.isNone_iff_eq_none.1 hproxy, rfl⟩

/-- A function and its parameter, each with a block of its own. -/
theorem Scope.Contents.blocks_distinct_of_ofLines_param :
    ∃ lines found, SourceLine.classify "/// A\nvoid F(\n/// B\nint X);" = .ok lines ∧
      (ofLines lines (CommentBlock.group lines)).result = .ok found ∧
      (Declaration.blocks found.declarations).map (fun b => (b.line, b.markdown)) =
        [(1, "A"), (3, "B")] ∧
      ((Declaration.blocks found.declarations).map (·.line)).Nodup ∧
      ∀ b ∈ Declaration.blocks found.declarations,
        ∃ c ∈ CommentBlock.group lines, c.proxy = none ∧ b = c.toDoc := by
  have hfound : (SourceLine.classify "/// A\nvoid F(\n/// B\nint X);" >>= fun lines =>
        (ofLines lines (CommentBlock.group lines)).result).map
          (fun found => (Declaration.blocks found.declarations).map fun b => (b.line, b.markdown)) =
      .ok [(1, "A"), (3, "B")] := by
    cbv
  obtain ⟨found, hfound, hblocks⟩ := Except.map_eq_ok.1 hfound
  obtain ⟨lines, hlines, hfound⟩ := Except.bind_eq_ok.1 hfound
  exact ⟨lines, found, hlines, hfound, hblocks, blocks_distinct_of_ofLines hlines hfound⟩

end AnnotatedHeader
