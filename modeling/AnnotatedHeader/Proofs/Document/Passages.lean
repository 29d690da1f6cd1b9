import AnnotatedHeader.Proofs.Document.Comments
import AnnotatedHeader.Proofs.Document.ParamLines
import AnnotatedHeader.Proofs.Document.Signatures
import AnnotatedHeader.Proofs.Numbering.Relative
import AnnotatedHeader.Proofs.Piece
import AnnotatedHeader.Proofs.Token.LineByLine
import Mathlib

/-! Headers passage by passage.

What is printed is doc comments and lines of code, one below the other (`Passage`). A line of
code that is nothing else and leaves nothing open (`IsCodeRow`) has the tokens that it has
alone, at whatever depth it stands, and a comment right in front of such a line is a block of
its own. So the pieces of a header that is made of these are those of its passages, one after
the other: `Legible.classified` says so, and that there is nothing else in it. -/
namespace AnnotatedHeader

open Text

/-! ### Passages -/

/-- A stretch of a printed header. -/
inductive Passage where
  | comment (depth : Nat) (texts : List String)
  | code (depth : Nat) (text : String)

/-- Texts with the numbers of their lines, from `n` on. -/
def numbered (n : Nat) : List String → List NumberedLine
  | [] => []
  | text :: texts => (n, text) :: numbered (n + 1) texts

namespace Passage

def lines : Passage → List String
  | comment depth texts => texts.map (commentLine depth)
  | code depth text => [indented depth text]

/-- What a passage that starts on line `n` is read as. The depth makes no difference. -/
def pieces (n : Nat) : Passage → List Piece
  | comment _ texts => [.doc (DocBlock.ofLines (numbered n texts))]
  | code _ text => (Token.tokenize text n).map .token

/-- The lines of passages one below the other. -/
def linesOf (ps : List Passage) : List String := ps.flatMap lines

/-- The pieces of passages one below the other, the first of which starts on line `n`. -/
def piecesOf (n : Nat) : List Passage → List Piece
  | [] => []
  | p :: ps => p.pieces n ++ piecesOf (n + p.lines.length) ps

theorem linesOf_cons (p : Passage) (ps : List Passage) : linesOf (p :: ps) = p.lines ++ linesOf ps :=
  List.flatMap_cons

theorem linesOf_append (ps qs : List Passage) : linesOf (ps ++ qs) = linesOf ps ++ linesOf qs :=
  List.flatMap_append

theorem piecesOf_append (n : Nat) (ps qs : List Passage) :
    piecesOf n (ps ++ qs) = piecesOf n ps ++ piecesOf (n + (linesOf ps).length) qs := by
  induction ps generalizing n with
  | nil => rfl
  | cons p ps ih =>
    have hlength : (linesOf (p :: ps)).length = p.lines.length + (linesOf ps).length := by
      rw [linesOf, List.flatMap_cons, List.length_append]
      rfl
    rw [List.cons_append, piecesOf, piecesOf, ih, hlength, List.append_assoc, Nat.add_assoc]

end Passage

/-! ### Rows of code -/

/-- Code on a line of its own that leaves nothing open. -/
structure IsCodeRow (text : String) : Prop where
  unbroken : '\n' ∉ text.toList
  code : LineKind.read text.toList = .ok .code
  closed : ∀ l ∈ Lexeme.scan text.toList, l.kind ≠ .openComment
  /-- The line feed behind it is not escaped, and no carriage return precedes it. -/
  ends : text.toList.getLast? ≠ some '\\' ∧ text.toList.getLast? ≠ some '\r'
  unmarked : text.toList.head? ≠ some '\ufeff'

theorem isCodeRow_empty : IsCodeRow "" where
  unbroken := by decide
  code := by decide
  closed := by simp [Lexeme.scan]
  ends := by decide
  unmarked := by decide

theorem dropWhile_indented (depth : Nat) (text : String) :
    (indented depth text).toList.dropWhile isAsciiSpace = text.toList.dropWhile isAsciiSpace := by
  rw [toList_indented, List.dropWhile_append_of_pos]
  intro c hc
  rw [List.eq_of_mem_replicate hc]
  rfl

theorem head?_tabs_append {cs : List Char} (h : cs.head? ≠ some '\ufeff') (depth : Nat) :
    (List.replicate depth '\t' ++ cs).head? ≠ some '\ufeff' := by
  cases depth with
  | zero => exact h
  | succ depth => simp [List.replicate_succ]

/-- What a line is does not depend on its depth. -/
theorem LineKind.read_indented (depth : Nat) (text : String) :
    read (indented depth text).toList = read text.toList := by
  simp only [read, toolText?, docText?, dropWhile_indented]

theorem Token.tokenize_empty (n : Nat) : tokenize "" n = [] := by
  simp [tokenize, Lexeme.scan, Lexeme.tokens]

namespace IsCodeRow
variable {text : String}

theorem withoutFinal_indented (h : IsCodeRow text) (depth : Nat) :
    withoutFinal '\r' (indented depth text).toList = (indented depth text).toList := by
  refine if_neg fun hlast => ?_
  rw [toList_indented, List.getLast?_append, Option.or_eq_some_iff] at hlast
  rcases hlast with hlast | ⟨-, hlast⟩
  · exact h.ends.2 hlast
  · have htab := List.eq_of_mem_replicate (List.mem_of_getLast? hlast)
    cases htab

/-- The tokens of an indented row, and those behind it from the next line on. -/
theorem tokens_indented (h : IsCodeRow text) (depth n : Nat) (ds : List Char) :
    Lexeme.tokens n (Lexeme.scan ((indented depth text).toList ++ '\n' :: ds)) =
      Token.tokenize text n ++ Lexeme.tokens (n + 1) (Lexeme.scan ds) := by
  obtain ⟨later, htokens, -, hlater⟩ :=
    Lexeme.exists_tokens_append (fun _ => h.ends.1) n ds
  have hcount : text.toList.count '\n' = 0 := List.count_eq_zero.2 h.unbroken
  have htabs : (List.replicate depth '\t').count '\n' = 0 := by
    rw [List.count_replicate]
    rfl
  rw [toList_indented, List.append_assoc,
    Lexeme.tokens_scan_append_of_isGap (isGap_of_mem_replicate depth), htabs, Nat.add_zero, htokens,
    hlater h.closed, hcount, Nat.add_zero]
  rfl

theorem tokenize_indented (depth n : Nat) :
    Token.tokenize (indented depth text) n = Token.tokenize text n := by
  have htabs : (List.replicate depth '\t').count '\n' = 0 := by
    rw [List.count_replicate]
    rfl
  unfold Token.tokenize
  rw [toList_indented, Lexeme.tokens_scan_append_of_isGap (isGap_of_mem_replicate depth), htabs,
    Nat.add_zero]

/-- An indented row is cut into tokens by itself. -/
theorem tokenize_joinLines (h : IsCodeRow text) (depth n : Nat) (texts : List String) :
    Token.tokenize (joinLines (indented depth text :: texts)) n =
      Token.tokenize text n ++ Token.tokenize (joinLines texts) (n + 1) := by
  cases texts with
  | nil =>
    have hnone : Token.tokenize (joinLines []) (n + 1) = [] := Token.tokenize_empty _
    rw [joinLines_singleton, tokenize_indented, hnone, List.append_nil]
  | cons next texts =>
    have htext : (joinLines (indented depth text :: next :: texts)).toList =
        (indented depth text).toList ++ '\n' :: (joinLines (next :: texts)).toList := by
      rw [← List.singleton_append, joinLines_append (by simp) (by simp), joinLines_singleton,
        String.toList_append, String.toList_append, List.append_assoc]
      rfl
    unfold Token.tokenize
    rw [htext]
    exact h.tokens_indented depth n _

end IsCodeRow

/-! ### Lines of a header -/

/-- Tokens are not looked at. -/
theorem Piece.filterMap_map_token {β : Type} {f : Piece → Option β} (h : ∀ t, f (.token t) = none)
    (ts : List Token) (ps : List Piece) :
    (ts.map Piece.token ++ ps).filterMap f = ps.filterMap f := by
  rw [List.filterMap_append, List.filterMap_map]
  exact congrArg (· ++ ps.filterMap f) (List.filterMap_eq_nil_iff.2 fun t _ => h t)

theorem length_numbered (n : Nat) (texts : List String) :
    (numbered n texts).length = texts.length := by
  induction texts generalizing n with
  | nil => rfl
  | cons text texts ih => rw [numbered, List.length_cons, List.length_cons, ih]

theorem numbered_renumber (n k : Nat) (texts : List String) :
    numbered (n + k) texts = (numbered n texts).map (renumber (· + k)) := by
  induction texts generalizing n with
  | nil => rfl
  | cons text texts ih =>
    rw [numbered, numbered, List.map_cons, ← ih, Nat.add_right_comm]
    rfl

theorem map_snd_numbered (n : Nat) (texts : List String) : (numbered n texts).map Prod.snd = texts := by
  induction texts generalizing n with
  | nil => rfl
  | cons text texts ih => rw [numbered, List.map_cons, ih]

theorem CommentBlock.groupFrom_docs_append {ds : List SourceLine} (h : ∀ d ∈ ds, d.IsDoc)
    {run : List NumberedLine} (ls : List SourceLine) :
    groupFrom run (ds ++ ls) = groupFrom (run ++ ds.map SourceLine.entry) ls := by
  induction ds generalizing run with
  | nil => rw [List.map_nil, List.append_nil, List.nil_append]
  | cons d ds ih =>
    obtain ⟨⟨text, hkind⟩, hds⟩ := List.forall_mem_cons.1 h
    rw [List.cons_append, groupFrom_cons_of_doc hkind, ih hds, List.map_cons,
      SourceLine.entry_of_doc hkind, List.append_assoc, List.singleton_append]

/-- Doc comments count lines and are no code. -/
theorem Piece.tokenize_code_of_docs {ds : List SourceLine} (h : ∀ d ∈ ds, d.IsDoc) (n : Nat)
    (ls : List SourceLine) :
    Token.tokenize (code (ds ++ ls)) n = Token.tokenize (code ls) (n + ds.length) := by
  induction ds generalizing n with
  | nil => rfl
  | cons d ds ih =>
    obtain ⟨⟨text, hkind⟩, hds⟩ := List.forall_mem_cons.1 h
    have hcode : codeOf d = indented 0 "" := by simp [codeOf, hkind, indented]
    have hline := isCodeRow_empty.tokenize_joinLines 0 n ((ds ++ ls).map codeOf)
    rw [Token.tokenize_empty, List.nil_append, ← hcode, ← List.map_cons] at hline
    exact hline.trans ((ih hds (n + 1)).trans (by rw [List.length_cons, Nat.add_right_comm n 1]; rfl))

theorem Piece.mem_of_mem_tokens {ps : List Piece} {t : Token} (h : t ∈ ps.filterMap token?) :
    .token t ∈ ps := by
  obtain ⟨p, hp, ht⟩ := List.mem_filterMap.1 h
  cases p with
  | token t' =>
    cases ht
    exact hp
  | doc b | inject proxy line => cases ht

theorem Piece.mem_of_mem_docs {ps : List Piece} {b : DocBlock} (h : b ∈ docs ps) : .doc b ∈ ps := by
  obtain ⟨p, hp, hb⟩ := List.mem_filterMap.1 h
  cases p with
  | doc b' =>
    cases hb
    exact hp
  | token t | inject proxy line => cases hb

/-- Pieces in the order of their lines, no block on a line with a token, are one list of tokens and
one of blocks. -/
theorem Piece.eq_of_parts {ps qs : List Piece} (hps : ps.Pairwise (·.line ≤ ·.line))
    (hqs : qs.Pairwise (·.line ≤ ·.line)) (tokens : ps.filterMap token? = qs.filterMap token?)
    (docs : docs ps = docs qs) (markers : markers ps = []) (markers' : Piece.markers qs = [])
    (apart : ∀ t b, .token t ∈ ps → .doc b ∈ ps → t.line ≠ b.line) : ps = qs := by
  induction ps generalizing qs with
  | nil =>
    cases qs with
    | nil => rfl
    | cons q qs =>
      cases q with
      | token t => cases tokens
      | doc b => cases docs
      | inject proxy line => cases markers'
  | cons p ps ih =>
    obtain ⟨hp, hmore⟩ := List.pairwise_cons.1 hps
    have hapart : ∀ t b, .token t ∈ ps → .doc b ∈ ps → t.line ≠ b.line := fun t b ht hb =>
      apart t b (List.mem_cons_of_mem p ht) (List.mem_cons_of_mem p hb)
    cases qs with
    | nil =>
      cases p with
      | token t => cases tokens
      | doc b => cases docs
      | inject proxy line => cases markers
    | cons q qs =>
      obtain ⟨hq, hmore'⟩ := List.pairwise_cons.1 hqs
      match p, q with
      | .inject .., _ => cases markers
      | _, .inject .. => cases markers'
      | .token t, .token t' =>
        obtain ⟨rfl, htokens⟩ := List.cons.inj tokens
        rw [ih hmore hmore' htokens docs markers markers' hapart]
      | .doc b, .doc b' =>
        obtain ⟨rfl, hdocs⟩ := List.cons.inj docs
        rw [ih hmore hmore' tokens hdocs markers markers' hapart]
      | .token t, .doc b =>
        have hb : .doc b ∈ ps := mem_of_mem_docs (docs ▸ List.mem_cons_self : b ∈ Piece.docs ps)
        have ht : .token t ∈ qs := mem_of_mem_tokens (tokens ▸ List.mem_cons_self)
        exact absurd (Nat.le_antisymm (hp _ hb) (hq _ ht))
          (apart t b List.mem_cons_self (List.mem_cons_of_mem _ hb))
      | .doc b, .token t =>
        have ht : .token t ∈ ps :=
          mem_of_mem_tokens (tokens ▸ List.mem_cons_self : t ∈ ps.filterMap token?)
        have hb : .doc b ∈ qs := mem_of_mem_docs (docs ▸ List.mem_cons_self)
        exact absurd (Nat.le_antisymm (hq _ hb) (hp _ ht))
          (apart t b (List.mem_cons_of_mem _ ht) List.mem_cons_self)

/-- The lines from line `n` on are code and doc comments, and are read as the pieces `ps`. -/
structure Reading (n : Nat) (ls : List SourceLine) (ps : List Piece) : Prop where
  seen : ∀ l ∈ ls, l.ignored = false ∧ (l.kind = .code ∨ l.IsDoc)
  tokens : ps.filterMap Piece.token? = Token.tokenize (Piece.code ls) n
  docs : Piece.docs ps = (CommentBlock.groupFrom [] ls).map (·.toDoc)
  proxies : ∀ c ∈ CommentBlock.groupFrom [] ls, c.proxy = none
  unmarked : Piece.markers ps = []
  behind : ∀ p ∈ ps, n ≤ p.line
  sorted : ps.Pairwise (·.line ≤ ·.line)

namespace Reading
variable {n : Nat} {ls : List SourceLine} {ps : List Piece}

theorem nil (n : Nat) : Reading n [] [] where
  seen := by simp
  tokens := by simp [Piece.code, joinLines, Token.tokenize, Lexeme.scan, Lexeme.tokens]
  docs := rfl
  proxies := by simp [CommentBlock.groupFrom]
  unmarked := rfl
  behind := by simp
  sorted := .nil

theorem code {text : String} (row : IsCodeRow text) (depth offset : Nat) (h : Reading (n + 1) ls ps) :
    Reading n (⟨n, offset, indented depth text, .code, false⟩ :: ls)
      ((Token.tokenize text n).map .token ++ ps) := by
  have hgroup : CommentBlock.groupFrom [] (⟨n, offset, indented depth text, .code, false⟩ :: ls) =
      CommentBlock.groupFrom [] ls := CommentBlock.groupFrom_nil_cons (by rintro ⟨_, ⟨⟩⟩) ls
  have hline : ∀ p ∈ (Token.tokenize text n).map Piece.token, p.line = n :=
    List.forall_mem_map.2 fun t ht => Token.line_of_mem_tokenize row.unbroken ht
  refine ⟨List.forall_mem_cons.2 ⟨⟨rfl, .inl rfl⟩, h.seen⟩, ?_, ?_, ?_, ?_, ?_, ?_⟩
  · have htokens : ((Token.tokenize text n).map Piece.token).filterMap Piece.token? =
        Token.tokenize text n := by
      rw [List.filterMap_map]
      exact List.filterMap_some
    rw [List.filterMap_append, htokens, h.tokens]
    exact (row.tokenize_joinLines depth n (ls.map Piece.codeOf)).symm
  · rw [hgroup, ← h.docs]
    exact Piece.filterMap_map_token (fun _ => rfl) _ ps
  · rw [hgroup]
    exact h.proxies
  · rw [← h.unmarked]
    exact Piece.filterMap_map_token (fun _ => rfl) _ ps
  · refine List.forall_mem_append.2 ⟨fun p hp => (hline p hp).ge, fun p hp => ?_⟩
    exact (Nat.le_succ n).trans (h.behind p hp)
  · refine List.pairwise_append.2 ⟨?_, h.sorted, fun p hp q hq => ?_⟩
    · exact List.pairwise_of_forall_mem_list fun p hp q hq => ((hline p hp).trans (hline q hq).symm).le
    · rw [hline p hp]
      exact (Nat.le_succ n).trans (h.behind q hq)

/-- A comment in front of a line of code. -/
theorem comment {ds : List SourceLine} {l : SourceLine} {texts : List String}
    (docs : ∀ d ∈ ds, d.ignored = false ∧ d.IsDoc) (entries : ds.map SourceLine.entry = numbered n texts)
    (hne : texts ≠ []) (kind : l.kind = .code) (visible : l.isBlank = false)
    (h : Reading (n + texts.length) (l :: ls) ps) :
    Reading n (ds ++ l :: ls) (.doc (DocBlock.ofLines (numbered n texts)) :: ps) := by
  have hl : ¬ l.IsDoc := by
    rintro ⟨text, hdoc⟩
    cases kind.symm.trans hdoc
  have hgroup : CommentBlock.groupFrom [] (ds ++ l :: ls) =
      ⟨numbered n texts, none⟩ :: CommentBlock.groupFrom [] (l :: ls) := by
    have hnumbered : numbered n texts ≠ [] := by
      cases texts with
      | nil => exact absurd rfl hne
      | cons text texts => exact List.cons_ne_nil _ _
    have hfollower : CommentBlock.follower? (l :: ls) = some .code :=
      (CommentBlock.follower?_cons_of_not_isBlank visible ls).trans (congrArg some kind)
    rw [CommentBlock.groupFrom_docs_append (fun d hd => (docs d hd).2), List.nil_append, entries,
      CommentBlock.groupFrom_cons_of_ended hl hnumbered (fun text => by rw [hfollower]; simp),
      CommentBlock.groupFrom_nil_cons hl, hfollower]
    rfl
  have hdoc : (DocBlock.ofLines (numbered n texts)).line = n := by
    cases texts with
    | nil => exact absurd rfl hne
    | cons text texts => rfl
  have hcode : Token.tokenize (Piece.code (ds ++ l :: ls)) n =
      Token.tokenize (Piece.code (l :: ls)) (n + texts.length) := by
    have hlength : texts.length = ds.length := by
      rw [← length_numbered n texts, ← entries, List.length_map]
    rw [hlength]
    exact Piece.tokenize_code_of_docs (fun d hd => (docs d hd).2) n _
  refine ⟨?_, ?_, ?_, ?_, h.unmarked, ?_, ?_⟩
  · exact List.forall_mem_append.2 ⟨fun d hd => ⟨(docs d hd).1, .inr (docs d hd).2⟩, h.seen⟩
  · rw [hcode, ← h.tokens]
    rfl
  · rw [hgroup, List.map_cons, ← h.docs]
    rfl
  · rw [hgroup]
    exact List.forall_mem_cons.2 ⟨rfl, h.proxies⟩
  · exact List.forall_mem_cons.2 ⟨hdoc.ge, fun p hp => (Nat.le_add_right ..).trans (h.behind p hp)⟩
  · refine List.pairwise_cons.2 ⟨fun p hp => ?_, h.sorted⟩
    rw [show (Piece.doc (DocBlock.ofLines (numbered n texts))).line = n from hdoc]
    exact (Nat.le_add_right ..).trans (h.behind p hp)

/-- The lines of a whole header are read as these pieces and no others. -/
theorem ofLines_eq {source : String} (classified : SourceLine.classify source = .ok ls)
    (h : Reading 1 ls ps) : Piece.ofLines ls (CommentBlock.group ls) = ps := by
  have hgroup : CommentBlock.group ls = CommentBlock.groupFrom [] ls := by
    rw [CommentBlock.group, List.filter_eq_self.2 fun l hl => by
      simp [SourceLine.isVisible, (h.seen l hl).1]]
  have hblocks : Piece.declarationBlocks (CommentBlock.group ls) = CommentBlock.groupFrom [] ls := by
    rw [hgroup, Piece.declarationBlocks, List.filter_eq_self.2 fun c hc => by simp [h.proxies c hc]]
  have hincreasing := SourceLine.pairwise_line_of_classify classified
  have hfirst : Token.tokenize (Piece.code ls) (Piece.firstLine ls) =
      Token.tokenize (Piece.code ls) 1 := by
    cases ls with
    | nil => rfl
    | cons l ls =>
      rw [Piece.firstLine_of_lines (List.cons_ne_nil l ls) (SourceLine.map_line_of_classifyFrom classified).1]
  refine Piece.eq_of_parts (Piece.pairwise_line_ofLines _ _) h.sorted ?_ ?_ ?_ h.unmarked ?_
  · rw [Piece.filterMap_token?_ofLines, h.tokens, hfirst]
  · rw [Piece.docs_ofLines hincreasing, hblocks, h.docs]
  · rw [Piece.markers_ofLines hincreasing, List.filterMap_eq_nil_iff]
    intro l hl
    unfold Piece.injected?
    rcases (h.seen l hl).2 with hkind | ⟨text, hkind⟩ <;> rw [hkind]
  · intro t b ht hb
    exact Piece.line_ne_of_token classified ht hb rfl

/-- There is no region in them. -/
theorem extract_eq (h : Reading n ls ps) : Regions.extract ls = .ok {} := by
  have hcaptured : ls.foldlM Regions.Capture.step {} = .ok {} := by
    have hseen := h.seen
    clear h
    induction ls with
    | nil => rfl
    | cons l ls ih =>
      obtain ⟨⟨hvisible, hkind⟩, hls⟩ := List.forall_mem_cons.1 hseen
      have hstep : Regions.Capture.step {} l = .ok {} := by
        unfold Regions.Capture.step SourceLine.isVisible
        rcases hkind with hkind | ⟨text, hkind⟩ <;> rw [hkind, hvisible] <;> rfl
      rw [List.foldlM_cons, hstep]
      exact ih hls
  rw [Regions.extract, hcaptured]
  rfl

end Reading

/-! ### Legible passages -/

/-- Rows of code, and comments that each stand right in front of one that is not blank. -/
inductive Passage.Legible : List Passage → Prop where
  | nil : Legible []
  | code {depth : Nat} {text : String} {ps : List Passage} (row : IsCodeRow text) (more : Legible ps) :
      Legible (.code depth text :: ps)
  | comment {depth depth' : Nat} {texts : List String} {text : String} {ps : List Passage}
      (hne : texts ≠ []) (each : ∀ line ∈ texts, IsCommentText line)
      (visible : isBlank text.toList = false) (more : Legible (.code depth' text :: ps)) :
      Legible (.comment depth texts :: .code depth' text :: ps)

namespace Passage
variable {ps qs : List Passage}

/-- A line holds no line feed and does not start with a byte order mark. -/
theorem Legible.plain (h : Legible ps) :
    ∀ line ∈ linesOf ps, '\n' ∉ line.toList ∧ line.toList.head? ≠ some '\ufeff' := by
  induction h with
  | nil => simp [linesOf]
  | @code depth text ps row _ ih =>
    refine List.forall_mem_cons.2 ⟨⟨not_mem_indented row.unbroken depth, ?_⟩, ih⟩
    rw [toList_indented]
    exact head?_tabs_append row.unmarked depth
  | @comment depth _ texts _ _ _ each _ _ ih =>
    refine List.forall_mem_append.2 ⟨List.forall_mem_map.2 fun text htext => ⟨?_, ?_⟩, ih⟩
    · refine not_mem_indented ?_ depth
      split
      · decide
      · simpa using (each text htext).unbroken
    · rw [toList_commentLine]
      exact head?_tabs_append (by simp) depth

theorem Legible.append (hps : Legible ps) (hqs : Legible qs) : Legible (ps ++ qs) := by
  induction hps with
  | nil => exact hqs
  | code row _ ih => exact .code row ih
  | comment hne each visible _ ih => exact .comment hne each visible ih

/-- The lines of a printed comment, and what is behind them. -/
theorem exists_classifyFrom_comment {texts : List String} (h : ∀ text ∈ texts, IsCommentText text)
    (depth n offset : Nat) (raws : List (List Char)) :
    ∃ ds offset', ds.map SourceLine.entry = numbered n texts ∧
      (∀ d ∈ ds, d.ignored = false ∧ d.IsDoc) ∧
      SourceLine.classifyFrom none n offset
          (texts.map (fun text => (commentLine depth text).toList) ++ raws) =
        (SourceLine.classifyFrom none (n + texts.length) offset' raws).map (ds ++ ·) := by
  induction texts generalizing n offset with
  | nil =>
    refine ⟨[], offset, rfl, by simp, ?_⟩
    show SourceLine.classifyFrom none n offset raws =
      (SourceLine.classifyFrom none n offset raws).map id
    cases SourceLine.classifyFrom none n offset raws <;> rfl
  | cons text texts ih =>
    obtain ⟨htext, htexts⟩ := List.forall_mem_cons.1 h
    obtain ⟨ds, offset', hentries, hdocs, hclassified⟩ :=
      ih htexts (n + 1) (offset + SourceLine.byteLength (commentLine depth text).toList)
    refine ⟨⟨n, offset, commentLine depth text, .doc text, false⟩ :: ds, offset', ?_, ?_, ?_⟩
    · rw [List.map_cons, hentries]
      rfl
    · exact List.forall_mem_cons.2 ⟨⟨rfl, text, rfl⟩, hdocs⟩
    · rw [List.map_cons, List.cons_append, SourceLine.classifyFrom_cons,
        withoutFinal_commentLine htext, read_commentLine htext]
      dsimp only
      rw [ignoring_of_not_isMarker rfl]
      dsimp only
      rw [Option.isSome_none, hclassified, String.ofList_toList, List.length_cons,
        Nat.add_right_comm n 1]
      show _ = (SourceLine.classifyFrom none (n + texts.length + 1) offset' raws).map _
      cases SourceLine.classifyFrom none (n + texts.length + 1) offset' raws <;> rfl

theorem Legible.exists_reading (h : Legible ps) (n offset : Nat) :
    ∃ ls, SourceLine.classifyFrom none n offset ((linesOf ps).map String.toList) = .ok ls ∧
      Reading n ls (piecesOf n ps) := by
  induction h generalizing n offset with
  | nil => exact ⟨[], rfl, .nil n⟩
  | @code depth text ps row _ ih =>
    obtain ⟨ls, hclassified, hreading⟩ :=
      ih (n + 1) (offset + SourceLine.byteLength (indented depth text).toList)
    refine ⟨_, ?_, hreading.code row depth offset⟩
    show SourceLine.classifyFrom none n offset
      ((indented depth text).toList :: (linesOf ps).map String.toList) = _
    rw [SourceLine.classifyFrom_cons, row.withoutFinal_indented, LineKind.read_indented, row.code]
    dsimp only
    rw [ignoring_of_not_isMarker rfl]
    dsimp only
    rw [Option.isSome_none, hclassified, String.ofList_toList]
    rfl
  | @comment depth depth' texts text ps hne each visible more ih =>
    obtain ⟨ds, offset', hentries, hdocs, hclassified⟩ := exists_classifyFrom_comment each depth n offset
      ((linesOf (.code depth' text :: ps)).map String.toList)
    obtain ⟨ls, hls, hreading⟩ := ih (n + texts.length) offset'
    refine ⟨ds ++ ls, ?_, ?_⟩
    · have hlines : (linesOf (.comment depth texts :: .code depth' text :: ps)).map String.toList =
          texts.map (fun text => (commentLine depth text).toList) ++
            (linesOf (.code depth' text :: ps)).map String.toList := by
        rw [linesOf, List.flatMap_cons, List.map_append, lines, List.map_map]
        rfl
      rw [hlines, hclassified, hls]
      rfl
    · cases more with
      | code row _ =>
        obtain ⟨k, ignored, opened, rest, hread, -, -, rfl⟩ := SourceLine.classifyFrom_cons_eq_ok hls
        rw [row.withoutFinal_indented, LineKind.read_indented, row.code] at hread
        cases hread
        have hblank : SourceLine.isBlank ⟨n + texts.length, offset',
            .ofList (withoutFinal '\r' (indented depth' text).toList), .code, ignored⟩ = false := by
          rw [SourceLine.isBlank, row.withoutFinal_indented, String.ofList_toList, toList_indented,
            isBlank_append, visible, Bool.and_false, Bool.and_false]
        have hcomment := Reading.comment hdocs hentries hne rfl hblank hreading
        rw [piecesOf, pieces, lines, List.length_map]
        exact hcomment

/-- No byte order mark is taken off. -/
theorem Legible.withoutMark_printed (h : Legible ps) :
    withoutMark (printed (linesOf ps)) = printed (linesOf ps) := by
  refine withoutMark_of_head? ?_
  have hplain := h.plain
  generalize linesOf ps = lines at hplain
  cases lines with
  | nil => decide
  | cons line lines =>
    rw [toList_printed_cons]
    cases hline : line.toList with
    | nil => simp
    | cons c cs => simpa [hline] using (hplain line List.mem_cons_self).2

/-- **A header that is made of passages is read passage by passage**, and no region is in it. -/
theorem Legible.classified (h : Legible ps) :
    ∃ ls, SourceLine.classify (withoutMark (printed (linesOf ps))) = .ok ls ∧
      Regions.extract ls = .ok {} ∧ Piece.ofLines ls (CommentBlock.group ls) = piecesOf 1 ps := by
  by_cases hempty : ps = []
  · -- A file has a line even if nothing is printed.
    subst hempty
    exact ⟨[⟨1, 0, "", .code, false⟩], by cbv, by cbv, by cbv⟩
  obtain ⟨ls, hls, hreading⟩ := h.exists_reading 1 0
  have hnonempty : linesOf ps ≠ [] := by
    cases h with
    | nil => exact absurd rfl hempty
    | code => exact List.cons_ne_nil _ _
    | comment htexts => simp [linesOf, lines, htexts]
  have hraws : fileLines (printed (linesOf ps)).toList = (linesOf ps).map String.toList := by
    rw [printed, toList_join_lines]
    exact fileLines_flatMap (by simpa using hnonempty)
      (List.forall_mem_map.2 fun line hline => (h.plain line hline).1)
  have hclassified : SourceLine.classify (printed (linesOf ps)) = .ok ls := by
    rw [SourceLine.classify, hraws, hls]
  rw [h.withoutMark_printed]
  exact ⟨ls, hclassified, hreading.extract_eq, hreading.ofLines_eq hclassified⟩

end Passage

end AnnotatedHeader
