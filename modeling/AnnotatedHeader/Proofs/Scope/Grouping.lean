import AnnotatedHeader.Proofs.Declaration.Grouping
import AnnotatedHeader.Proofs.Scope.Reads

/-! Blocks that group declarations.

What stands in a linkage block or in a namespace is merged there before it is merged into the
scope around it. A run is pieces that declare the same wherever they stand (`Runs`); in a block
it declares what that makes when merged (`Runs.block`). So blocks group what they hold, and
`grouping_keeps_entries` says what becomes of the entries when a linkage block is put around
declarations or a namespace is closed and opened again. -/
namespace AnnotatedHeader.Scope

open List (Forall₂)
open Declaration (merged occurrences defines ranked firstSaid askedOf askedOf_singly singly inGroups
  inGroups_singly inGroups_among inGroups_entries inGroups_eq_iff SameButPassed AskedAlike)

/-! ### Runs -/

/-- Where nothing waits the pieces declare `found`, one by one, and look no further. -/
def Runs (s : Scope) (ps : List Piece) (found : Contents) : Prop :=
  ∀ (braced : Bool) (b : State) (rest : List Piece), b.visibility = s.visibility → b.pending = {} →
    readOn { s with braced } b (ps ++ rest) =
      readOn { s with braced } ((Frame.transparent b).resumed found) rest

/-- The pieces open `inner`, and what is declared there is declared in `s`. -/
def OpensBlock (s inner : Scope) (ahead : List Piece) : Prop :=
  ∀ (braced : Bool) (b : State) (rest : List Piece), b.pending = {} →
    ∃ p ps, ahead ++ rest = p :: ps ∧
      (turn { s with braced } b p ps).result = .ok (.opens inner (.transparent b) rest)

def closing (line : Nat) : Piece := .token ⟨.rbrace, "\x7d", line⟩

namespace Runs
variable {s inner : Scope} {ps qs ahead : List Piece} {found more : Contents}

theorem append (hps : Runs s ps found) (hqs : Runs s qs more) :
    Runs s (ps ++ qs) ⟨found.declarations ++ more.declarations, found.injects ++ more.injects⟩ := by
  intro braced b rest hvisible hfree
  rw [List.append_assoc, hps braced b _ hvisible hfree,
    hqs braced ((Frame.transparent b).resumed found) rest hvisible hfree]
  simp only [Frame.resumed, List.foldl_append, List.append_assoc]

/-- One turn that adds one declaration. -/
theorem of_turn {p : Piece} {d : Declaration}
    (h : ∀ (braced : Bool) (members : List Declaration) (injects : List InjectSite) (rest : List Piece),
      (turn { s with braced } ⟨s.visibility, {}, members, injects⟩ p (ps ++ rest)).result =
        .ok (.continues ⟨s.visibility, {}, merged members d, injects⟩ rest)) :
    Runs s (p :: ps) ⟨[d], []⟩ := by
  rintro braced ⟨visibility, pending, members, injects⟩ rest hvisible hfree
  cases hvisible
  cases hfree
  rw [List.cons_append, readOn_cons, h]
  simp only [Frame.resumed, List.foldl_cons, List.foldl_nil, List.append_nil]
  rfl

/-- What is declared where there is nothing else. -/
theorem read (h : Runs s ps found) :
    (s.read ps).result = .ok ⟨found.declarations.foldl merged [], found.injects⟩ := by
  have hread := h s.braced s.start [] rfl rfl
  rw [List.append_nil] at hread
  rw [result_read, hread, readOn_nil, result_finish_eq_ok.2 ⟨rfl, rfl⟩]
  rfl

/-- **A block declares what it holds, merged.** -/
theorem block (hopens : OpensBlock s inner ahead) (hbraced : inner.braced = true)
    (h : Runs inner ps found) (line : Nat) :
    Runs s (ahead ++ ps ++ [closing line]) ⟨found.declarations.foldl merged [], found.injects⟩ := by
  intro braced b rest _ hfree
  have hinside : readOn inner inner.start (ps ++ closing line :: rest) =
      .ok (⟨found.declarations.foldl merged [], found.injects⟩, rest) := by
    have hread := h inner.braced inner.start (closing line :: rest) rfl rfl
    rw [hread]
    exact readOn_of_reads (.closes (turn_of_takes (.closes _ rest rfl hbraced)) rfl)
  obtain ⟨p, qs, hahead, hturn⟩ := hopens braced b (ps ++ closing line :: rest) hfree
  rw [List.append_assoc, List.append_assoc, List.singleton_append, hahead, readOn_cons, hturn]
  show readOn inner inner.start (ps ++ closing line :: rest) >>= _ = _
  rw [hinside]
  rfl

end Runs

/-! ### Blocks -/

section
variable {s : Scope}

/-- What opens a linkage block. -/
def linkageHead (text : String) (first second third : Nat) : List Piece :=
  [.token ⟨.ident, "extern", first⟩, .token ⟨.string, text, second⟩, .token ⟨.lbrace, "\x7b", third⟩]

theorem opensBlock_linkage (text : String) (first second third : Nat) :
    OpensBlock s { s with braced := true } (linkageHead text first second third) := by
  intro braced b rest _
  exact ⟨_, _, rfl, turn_of_takes (.opensLinkage rfl rfl)⟩

theorem word_namespace (line : Nat) (ps : List Piece) :
    word ⟨.ident, "namespace", line⟩ ps = .namespace := by
  have hlabel : label? ⟨.ident, "namespace", line⟩ ps = none := by
    unfold label?
    split <;> rfl
  unfold word
  rw [hlabel]
  simp

theorem opensBlock_namespace {name : String} {head : List Piece}
    (h : ∀ rest, namespaceHead "" (head ++ rest) = .body name rest) (line : Nat) :
    OpensBlock s (s.inNamespace name) (.token ⟨.ident, "namespace", line⟩ :: head) := by
  rintro braced ⟨visibility, pending, members, injects⟩ rest hfree
  cases hfree
  exact ⟨_, _, rfl, turn_of_takes (.opensNamespace rfl (word_namespace line _) (h rest))⟩

/-- A namespace with its pieces, from the line of its keyword to that of its last brace. -/
def namespaceBlock (head : List Piece) (first : Nat) (ps : List Piece) (last : Nat) : List Piece :=
  .token ⟨.ident, "namespace", first⟩ :: head ++ ps ++ [closing last]

/-- A linkage block with its pieces, and the lines of its own tokens. -/
def linkageBlock (text : String) (first second third : Nat) (ps : List Piece) (last : Nat) :
    List Piece :=
  linkageHead text first second third ++ ps ++ [closing last]

theorem Runs.linkage {ps : List Piece} {found : Contents} (h : Runs s ps found) (text : String)
    (first second third last : Nat) :
    Runs s (linkageBlock text first second third ps last)
      ⟨found.declarations.foldl merged [], found.injects⟩ :=
  .block (opensBlock_linkage text first second third) rfl (fun braced => h braced) last

theorem Runs.inNamespace {name : String} {head ps : List Piece} {found : Contents}
    (hhead : ∀ rest, namespaceHead "" (head ++ rest) = .body name rest)
    (h : Runs (s.inNamespace name) ps found) (first last : Nat) :
    Runs s (namespaceBlock head first ps last) ⟨found.declarations.foldl merged [], found.injects⟩ :=
  .block (opensBlock_namespace hhead first) rfl h last

end

/-! ### What blocks change -/

/-- **Blocks change nothing but what an entry does not say itself**, and not whether it says it.
A linkage block around `ys`, and a namespace that is closed behind `xs` and opened again: the
entries of one entity differ at most in doc block, macro and template, and they are the same if
and only if the first declaration that has one says the same in both orders of asking. -/
theorem grouping_keeps_entries (xs ys zs : List Declaration) :
    (Forall₂ SameButPassed ((xs ++ ys ++ zs).foldl merged [])
        (zs.foldl merged ((ys.foldl merged []).foldl merged (xs.foldl merged []))) ∧
      ((xs ++ ys ++ zs).foldl merged [] =
          zs.foldl merged ((ys.foldl merged []).foldl merged (xs.foldl merged [])) ↔
        ∀ e, firstSaid (ranked defines (occurrences e (xs ++ ys ++ zs))) =
          firstSaid (askedOf e (singly xs ++ [ys] ++ singly zs)))) ∧
    (∀ {s : Scope} {X Y Z : List Piece} {i j k : List InjectSite}, Runs s X ⟨xs, i⟩ →
      Runs s Y ⟨ys, j⟩ → Runs s Z ⟨zs, k⟩ → ∀ (text : String) (first second third last : Nat),
        (s.read (X ++ Y ++ Z)).result = .ok ⟨(xs ++ ys ++ zs).foldl merged [], i ++ j ++ k⟩ ∧
        (s.read (X ++ linkageBlock text first second third Y last ++ Z)).result =
          .ok ⟨zs.foldl merged ((ys.foldl merged []).foldl merged (xs.foldl merged [])),
            i ++ j ++ k⟩) ∧
    ∀ {s : Scope} {name : String} {head W X Y Z : List Piece} {ws : List Declaration}
      {h i j k : List InjectSite}, (∀ rest, namespaceHead "" (head ++ rest) = .body name rest) →
      Runs s W ⟨ws, h⟩ → Runs (s.inNamespace name) X ⟨xs, i⟩ → Runs (s.inNamespace name) Y ⟨ys, j⟩ →
      Runs s Z ⟨zs, k⟩ → ∀ first last first' last' : Nat,
        ∃ whole split,
          (s.read (W ++ namespaceBlock head first (X ++ Y) last ++ Z)).result =
            .ok ⟨whole, h ++ (i ++ j) ++ k⟩ ∧
          (s.read (W ++ (namespaceBlock head first X last ++ namespaceBlock head first' Y last') ++
            Z)).result = .ok ⟨split, h ++ (i ++ j) ++ k⟩ ∧
          Forall₂ SameButPassed whole split ∧
          (whole = split ↔
            AskedAlike (singly ws ++ [xs ++ ys] ++ singly zs) (singly ws ++ [xs, ys] ++ singly zs)) := by
  refine ⟨?_, ?_, ?_⟩
  · have hsame : (singly (xs ++ ys ++ zs)).flatten = (singly xs ++ [ys] ++ singly zs).flatten := by
      simp
    have hgrouped : inGroups (singly xs ++ [ys] ++ singly zs) =
        zs.foldl merged ((ys.foldl merged []).foldl merged (xs.foldl merged [])) := by
      rw [inGroups_among, List.flatMap_singleton, List.foldl_append, List.foldl_append]
    rw [← hgrouped, ← inGroups_singly (xs ++ ys ++ zs)]
    refine ⟨inGroups_entries hsame, (inGroups_eq_iff hsame).trans ?_⟩
    simp only [AskedAlike, askedOf_singly]
  · intro s X Y Z i j k hX hY hZ text first second third last
    refine ⟨((hX.append hY).append hZ).read, ?_⟩
    have hread := ((hX.append (hY.linkage text first second third last)).append hZ).read
    simpa only [List.foldl_append] using hread
  · intro s name head W X Y Z ws h i j k hhead hW hX hY hZ first last first' last'
    have hsame : (singly ws ++ [xs ++ ys] ++ singly zs).flatten =
        (singly ws ++ [xs, ys] ++ singly zs).flatten := by
      simp
    refine ⟨_, _, ?_, ?_, inGroups_entries hsame, inGroups_eq_iff hsame⟩
    · have hread := ((hW.append ((hX.append hY).inNamespace hhead first last)).append hZ).read
      rw [inGroups_among, List.flatMap_singleton]
      exact hread
    · have hsplit := (hX.inNamespace hhead first last).append (hY.inNamespace hhead first' last')
      have hread := ((hW.append hsplit).append hZ).read
      rw [inGroups_among, List.flatMap_cons, List.flatMap_singleton]
      exact hread

/-! ### One struct, announced again and again -/

def announcement (line : Nat) : List Piece :=
  [.token ⟨.ident, "struct", line⟩, .token ⟨.ident, "S", line⟩, .token ⟨.semi, ";", line⟩]

def announced (path : String) (line : Nat) : Declaration :=
  ⟨⟨"S", path, line, .everyone, none, none, "struct S", none,
    .record .structKey ⟨none, [], false⟩, false⟩, []⟩

theorem runs_announcement (line : Nat) : Runs .file (announcement line) ⟨[announced "S" line], []⟩ := by
  refine .of_turn fun _ _ _ _ => ?_
  cbv

theorem runs_announcement_inNamespace (line : Nat) :
    Runs (file.inNamespace "N") (announcement line) ⟨[announced "N::S" line], []⟩ := by
  refine .of_turn fun _ _ _ _ => ?_
  cbv

def namedN : List Piece := [.token ⟨.ident, "N", 2⟩, .token ⟨.lbrace, "\x7b", 2⟩]

theorem namespaceHead_namedN (rest : List Piece) :
    namespaceHead "" (namedN ++ rest) = .body "N" rest := rfl

theorem grouping_keeps_entries_announced :
    (file.read (announcement 1 ++ linkageBlock "\"C\"" 2 2 2 (announcement 3) 4 ++
        announcement 5)).result = .ok ⟨[announced "S" 5], []⟩ ∧
      ∃ whole split,
        (file.read (announcement 1 ++ namespaceBlock namedN 2 (announcement 3 ++ announcement 4) 5 ++
            announcement 7)).result = .ok ⟨whole, []⟩ ∧
          (file.read (announcement 1 ++ (namespaceBlock namedN 2 (announcement 3) 5 ++
            namespaceBlock namedN 6 (announcement 4) 6) ++ announcement 7)).result = .ok ⟨split, []⟩ ∧
          Forall₂ SameButPassed whole split := by
  obtain ⟨-, hlinkage, -⟩ :=
    grouping_keeps_entries [announced "S" 1] [announced "S" 3] [announced "S" 5]
  obtain ⟨-, -, hnamespace⟩ :=
    grouping_keeps_entries [announced "N::S" 3] [announced "N::S" 4] [announced "S" 7]
  obtain ⟨whole, split, hwhole, hsplit, hsame, -⟩ := hnamespace namespaceHead_namedN
    (runs_announcement 1) (runs_announcement_inNamespace 3) (runs_announcement_inNamespace 4)
    (runs_announcement 7) 2 5 6 6
  refine ⟨?_, whole, split, hwhole, hsplit, hsame⟩
  exact (hlinkage (runs_announcement 1) (runs_announcement 3) (runs_announcement 5) "\"C\"" 2 2 2 4).2

end AnnotatedHeader.Scope
