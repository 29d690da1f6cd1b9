import AnnotatedHeader.Proofs.Metadata.Entries
import AnnotatedHeader.Proofs.Metadata.Texts
import AnnotatedHeader.Proofs.Token.Lexes

/-! Printing metadata and reading it again.

What is printed of metadata whose keys and texts can be told apart in print (`Legible`) is
read again entry by entry (`read_toArgs`): the entries keep their order and their nesting,
a key and a bare text come back as their tokens joined, and a text between quotes without
its backslashes. So nothing is changed if and only if each key and each text is left alone by
that (`read_toArgs_iff`). -/
namespace AnnotatedHeader

namespace Metadata

open Lexeme Token

/-! ### What can be told apart in print -/

/-- A key that is read as a whole wherever it stands. -/
structure IsKey (key : String) : Prop where
  plain : ∀ l ∈ scan key.toList, l.isPlain = true
  nonempty : tokenize key 1 ≠ []
  entry : splitTop? 0 (tokenize key 1) = some [tokenize key 1]
  noEquals : ∀ t ∈ tokenize key 1, t.kind ≠ .equals

/-- The text needs no quotes, or its quotes hold it. -/
def Closes (text : String) : Prop :=
  isBareText text.toList = true ∨ Inside '"' (escaped text.toList)

/-- A text as it is read again. -/
def rereadText (text : String) : String :=
  if isBareText text.toList then join (tokenize text 1)
  else .ofList (unescaped (escaped text.toList))

/-! ### What is read of a piece of code -/

/-- The code is read as the value. -/
def ReadsValue (cs : List Char) (v : MetaValue) : Prop :=
  ∃ ss, Lexes cs ss ∧ ss ≠ [] ∧ depthAfter? false 0 (ss.map (·.1)) = some 0 ∧
    ∀ ts, ts.map shape = ss → readValue ts = .ok v

/-- The code is read as the entry, in front of whatever entries. -/
def ReadsEntry (cs : List Char) (e : String × MetaValue) : Prop :=
  ∃ ss, Lexes cs ss ∧ depthAfter? false 0 (ss.map (·.1)) = some 0 ∧
    ∀ ts parts, ts.map shape = ss → readEntries (ts :: parts) = (readEntries parts).map (e :: ·)

/-- The code is read as the entries. -/
def ReadsEntries (cs : List Char) (es : Metadata) : Prop :=
  ∃ ss, Lexes cs ss ∧ depthAfter? true 0 (ss.map (·.1)) = some 0 ∧
    ∀ ts, ts.map shape = ss → read ts = .ok es

theorem map_kind_of_map_shape {ts : List Token} {ss : List (TokenKind × String)}
    (h : ts.map shape = ss) : ts.map (·.kind) = ss.map (·.1) := by
  rw [← h, List.map_map]
  rfl

theorem read_eq_ok {ts : List Token} {es : Metadata} :
    read ts = .ok es ↔ ∃ parts, splitTop? 0 ts = some parts ∧ readEntries parts = .ok es := by
  rw [read]
  split
  · rename_i parts hparts
    simp [hparts]
  · rename_i hnone
    simp [hnone]

theorem lexes_sign (sign : String) {kind : TokenKind} (listed : (sign, kind) ∈ signs)
    {cs : List Char} {ss : List (TokenKind × String)} (rest : Lexes cs ss)
    (ends : first? (sign.toList ++ cs) = some ⟨.token kind, sign.toList⟩) :
    Lexes (sign.toList ++ cs) ((kind, sign) :: ss) := by
  have h := Lexes.token (.sign listed) ends rest
  rwa [String.ofList_toList] at h

theorem scan_word {word : String} (h : Written .ident word.toList) :
    scan word.toList = [⟨.token .ident, word.toList⟩] := by
  have hfirst : first? (word.toList ++ []) = some ⟨.token .ident, word.toList⟩ :=
    h.first?_of_breaks (by simp)
  have hscan := scan_append hfirst
  rwa [List.append_nil, scan] at hscan

theorem tokenize_word {word : String} (h : Written .ident word.toList) (line : Nat) :
    tokenize word line = [⟨.ident, word, line⟩] := by
  rw [tokenize, scan_word h]
  simp [tokens, tokenKind?, TokenKind.isTrivia]

theorem join_word {word : String} (h : Written .ident word.toList) : join (tokenize word 1) = word := by
  rw [tokenize_word h]
  simp [join, joinAfter]

/-- A word is a key. -/
theorem isKey_of_word {word : String} (h : Written .ident word.toList) : IsKey word := by
  refine ⟨?_, ?_, ?_, ?_⟩
  · rw [scan_word h, List.forall_mem_singleton]
    rfl
  · rw [tokenize_word h]
    simp
  · rw [tokenize_word h]
    rfl
  · rw [tokenize_word h, List.forall_mem_singleton]
    simp

/-! ### Values -/

theorem ReadsEntries.readsValue {cs : List Char} {es : Metadata} (h : ReadsEntries cs es) :
    ReadsValue ('(' :: (cs ++ [')'])) (.group es) := by
  obtain ⟨ss, hlexes, hdepth, hread⟩ := h
  have hclosing : Lexes [')'] [(.rparen, ")")] :=
    lexes_sign ")" (by decide) .nil (first?_of_solid (by decide) (by decide) _)
  have hopening : Lexes ('(' :: (cs ++ [')'])) ((.lparen, "(") :: (ss ++ [(.rparen, ")")])) :=
    lexes_sign "(" (by decide) (hlexes.append hclosing (by rintro c ⟨⟩; decide))
      (first?_of_solid (by decide) (by decide) _)
  refine ⟨_, hopening, by simp, ?_, fun ts hts => ?_⟩
  · rw [List.map_cons, List.map_append]
    refine depthAfter?_cons.2 ⟨1, rfl, ?_⟩
    rw [depthAfter?_append (depthAfter?_succ hdepth)]
    rfl
  · obtain ⟨opening, behind, rfl, hopen, hbehind⟩ := List.map_eq_cons_iff.1 hts
    obtain ⟨inside, last, rfl, hinside, hlast⟩ := List.map_eq_append_iff.1 hbehind
    obtain ⟨closing, rfl, hclose⟩ := List.map_eq_singleton_iff.1 hlast
    have hkind : opening.kind = .lparen ∧ closing.kind = .rparen :=
      ⟨congrArg Prod.fst hopen, congrArg Prod.fst hclose⟩
    rw [readValue_group hkind.1 hkind.2 (by rw [map_kind_of_map_shape hinside]; exact hdepth),
      hread inside hinside]
    rfl

theorem bare_shapes {text : String} (h : isBareText text.toList = true) :
    (tokenize text 1).map shape ≠ [] ∧
      ∀ s ∈ (tokenize text 1).map shape, s.1 = .ident ∨ s.1 = .number ∨ s.1 = .op := by
  have hshape (l : Lexeme) (hl : l ∈ scan text.toList) :
      ∃ k, l.shape? = some (k, .ofList l.text) ∧ (k = .ident ∨ k = .number ∨ k = .op) := by
    obtain ⟨k, hkind, hk⟩ := bare_lexemes h l hl
    refine ⟨k, ?_, hk⟩
    rcases hk with rfl | rfl | rfl <;> simp [shape?, tokenKind?, hkind, TokenKind.isTrivia]
  rw [map_shape_tokenize]
  constructor
  · intro hnil
    have htext := flatMap_text_scan text.toList
    cases hscan : scan text.toList with
    | nil =>
      rw [hscan] at htext
      exact (isBareText_iff.1 h).1 htext.symm
    | cons l ls =>
      obtain ⟨k, hl, -⟩ := hshape l (hscan ▸ List.mem_cons_self ..)
      rw [hscan, List.filterMap_cons_some hl] at hnil
      cases hnil
  · intro s hs
    obtain ⟨l, hl, hls⟩ := List.mem_filterMap.1 hs
    obtain ⟨k, hk, hkind⟩ := hshape l hl
    rw [hk] at hls
    cases hls
    exact hkind

theorem readsValue_bare {text : String} (h : isBareText text.toList = true) :
    ReadsValue text.toList (.text (join (tokenize text 1))) := by
  obtain ⟨hne, hkinds⟩ := bare_shapes h
  have hplain : ∀ l ∈ scan text.toList, l.isPlain = true := by
    intro l hl
    obtain ⟨k, hkind, hk⟩ := bare_lexemes h l hl
    rcases hk with rfl | rfl | rfl <;> simp [isPlain, hkind, TokenKind.isTrivia]
  refine ⟨_, map_shape_tokenize text 1 ▸ lexes_of_scan hplain, hne, ?_, fun ts hts => ?_⟩
  · refine depthAfter?_of_plain fun k hk => ?_
    obtain ⟨s, hs, rfl⟩ := List.mem_map.1 hk
    rcases hkinds s hs with h | h | h <;> simp [h]
  · have hkind (t : Token) (ht : t ∈ ts) : t.kind = .ident ∨ t.kind = .number ∨ t.kind = .op :=
      hkinds _ (hts ▸ List.mem_map_of_mem ht)
    have hstring (t : Token) (ht : t ∈ ts) : t.kind ≠ .string := by
      rcases hkind t ht with h | h | h <;> simp [h]
    have hparen (t : Token) (ht : t ∈ ts.head?) : t.kind ≠ .lparen := by
      rcases hkind t (List.mem_of_mem_head? ht) with h | h | h <;> simp [h]
    rw [readValue_text hparen, valueText_eq_join hstring, join_congr hts]

theorem readsValue_quoted {text : String} (h : Inside '"' (escaped text.toList)) :
    ReadsValue (quotedText text.toList) (.text (.ofList (unescaped (escaped text.toList)))) := by
  have hlexes : Lexes (quotedText text.toList ++ []) [(.string, .ofList (quotedText text.toList))] :=
    .token (.string (List.mem_cons_self ..) h) (first?_string (List.mem_cons_self ..) h) .nil
  rw [List.append_nil] at hlexes
  refine ⟨_, hlexes, by simp, rfl, fun ts hts => ?_⟩
  obtain ⟨t, rfl, hshape⟩ := List.map_eq_singleton_iff.1 hts
  obtain ⟨hkind, htext⟩ := Prod.mk.inj hshape
  rw [readValue_text (by rintro u ⟨⟩; simp [hkind]), valueText, if_pos hkind, htext,
    String.toList_ofList, unquoted_quotedText]

theorem readsValue_text {text : String} (h : Closes text) :
    ReadsValue (textArgument text).toList (.text (rereadText text)) := by
  unfold textArgument rereadText
  by_cases hbare : isBareText text.toList = true
  · rw [if_pos hbare, if_pos hbare]
    exact readsValue_bare hbare
  · rw [if_neg hbare, if_neg hbare, String.toList_ofList]
    exact readsValue_quoted (h.resolve_left hbare)

/-! ### Entries -/

theorem IsKey.lexes {key : String} (h : IsKey key) :
    Lexes key.toList ((tokenize key 1).map shape) := by
  rw [map_shape_tokenize]
  exact lexes_of_scan h.plain

theorem IsKey.depthAfter? {key : String} (h : IsKey key) :
    depthAfter? false 0 (((tokenize key 1).map shape).map (·.1)) = some 0 := by
  rw [← map_kind_of_map_shape rfl]
  exact depthAfter?_of_splitTop? h.entry

theorem IsKey.join_ne_empty {key : String} (h : IsKey key) : join (tokenize key 1) ≠ "" := by
  have hclean : ∀ l ∈ scan key.toList, l.kind ≠ .stray := fun l hl hstray => by
    have hplain := h.plain l hl
    rw [isPlain, hstray] at hplain
    cases hplain
  have hwritten : ∀ t ∈ tokenize key 1, Written t.kind t.text.toList := written_of_mem_tokenize hclean
  cases hts : tokenize key 1 with
  | nil => exact absurd hts h.nonempty
  | cons t ts =>
    obtain ⟨c, cs, htext, -⟩ := (hwritten t (hts ▸ List.mem_cons_self ..)).exists_cons
    intro hempty
    have hlist := congrArg String.toList hempty
    rw [join, String.toList_append, htext] at hlist
    cases hlist

theorem plain_of_map_shape {ts ts' : List Token} (h : ts.map shape = ts'.map shape)
    (plain : ∀ t ∈ ts', t.kind ≠ .equals) : ∀ t ∈ ts, t.kind ≠ .equals := by
  intro t ht
  have hmem : shape t ∈ ts'.map shape := h ▸ List.mem_map_of_mem ht
  obtain ⟨t', ht', hshape⟩ := List.mem_map.1 hmem
  have hkind : t'.kind = t.kind := congrArg Prod.fst hshape
  exact hkind ▸ plain t' ht'

theorem IsKey.readsEntry {key : String} (h : IsKey key) :
    ReadsEntry key.toList (join (tokenize key 1), .flag) := by
  refine ⟨_, h.lexes, h.depthAfter?, fun ts parts hts => ?_⟩
  have hne : ts ≠ [] := by
    rintro rfl
    exact h.nonempty (List.map_eq_nil_iff.1 hts.symm)
  rw [readEntries_flag hne (plain_of_map_shape hts h.noEquals), join_congr hts]

theorem ReadsValue.readsEntry {key : String} {cs : List Char} {v : MetaValue} (hkey : IsKey key)
    (h : ReadsValue cs v) :
    ReadsEntry (key.toList ++ " = ".toList ++ cs) (join (tokenize key 1), v) := by
  obtain ⟨ss, hlexes, hne, hdepth, hread⟩ := h
  have hequals : Lexes (" = ".toList ++ cs) ((.equals, "=") :: ss) :=
    .gap (by decide) (lexes_sign "=" (by decide) (.gap (by decide) hlexes)
      ((Written.sign (by decide)).first?_of_breaks (by rintro c ⟨⟩; decide)))
  rw [List.append_assoc]
  refine ⟨_, hkey.lexes.append hequals (by rintro c ⟨⟩; decide), ?_, fun ts parts hts => ?_⟩
  · rw [List.map_append, List.map_cons, depthAfter?_append hkey.depthAfter?]
    exact depthAfter?_cons.2 ⟨0, rfl, hdepth⟩
  · obtain ⟨ks, behind, rfl, hks, hbehind⟩ := List.map_eq_append_iff.1 hts
    obtain ⟨equals, vs, rfl, hshape, hvs⟩ := List.map_eq_cons_iff.1 hbehind
    have hvalue : vs ≠ [] := by
      rintro rfl
      exact hne hvs.symm
    have hkind : equals.kind = .equals := congrArg Prod.fst hshape
    have hjoin := join_congr hks
    rw [readEntries_value hkind (plain_of_map_shape hks hkey.noEquals) (hjoin ▸ hkey.join_ne_empty)
      hvalue (hread vs hvs), hjoin]

/-! ### All entries -/

theorem readsEntries_nil : ReadsEntries [] [] := by
  refine ⟨[], .nil, rfl, fun ts hts => ?_⟩
  rw [List.map_eq_nil_iff] at hts
  subst hts
  simp [read, splitTop?, readEntries]

theorem ReadsEntry.readsEntries {cs : List Char} {e : String × MetaValue} (h : ReadsEntry cs e) :
    ReadsEntries cs [e] := by
  obtain ⟨ss, hlexes, hdepth, hread⟩ := h
  refine ⟨ss, hlexes, depthAfter?_true hdepth, fun ts hts => ?_⟩
  have hone : IsOneEntry ts := by
    rw [IsOneEntry, map_kind_of_map_shape hts]
    exact hdepth
  refine read_eq_ok.2 ⟨[ts], hone.splitTop?, ?_⟩
  rw [hread ts [] hts, readEntries]
  rfl

theorem ReadsEntry.cons {cs cs' : List Char} {e : String × MetaValue} {es : Metadata}
    (h : ReadsEntry cs e) (more : ReadsEntries cs' es) :
    ReadsEntries (cs ++ ", ".toList ++ cs') (e :: es) := by
  obtain ⟨ss, hlexes, hdepth, hread⟩ := h
  obtain ⟨ss', hlexes', hdepth', hread'⟩ := more
  have hcomma : Lexes (", ".toList ++ cs') ((.comma, ",") :: ss') :=
    lexes_sign "," (by decide) (.gap (by decide) hlexes')
      (first?_of_solid (by decide) (by decide) _)
  rw [List.append_assoc]
  refine ⟨_, hlexes.append hcomma (by rintro c ⟨⟩; decide), ?_, fun ts hts => ?_⟩
  · rw [List.map_append, List.map_cons, depthAfter?_append (depthAfter?_true hdepth)]
    exact depthAfter?_cons.2 ⟨0, rfl, hdepth'⟩
  · obtain ⟨entry, behind, rfl, hentry, hbehind⟩ := List.map_eq_append_iff.1 hts
    obtain ⟨comma, others, rfl, hshape, hothers⟩ := List.map_eq_cons_iff.1 hbehind
    have hone : IsOneEntry entry := by
      rw [IsOneEntry, map_kind_of_map_shape hentry]
      exact hdepth
    obtain ⟨parts, hparts, hentries⟩ := read_eq_ok.1 (hread' others hothers)
    have hkind : comma.kind = .comma := congrArg Prod.fst hshape
    refine read_eq_ok.2 ⟨entry :: parts, ?_, ?_⟩
    · rw [hone.splitTop?_append hkind, hparts]
      rfl
    · rw [hread entry parts hentry, hentries]
      rfl

end Metadata

/-! ### Metadata as a whole -/

mutual

/-- The entries in a value, those in groups included. -/
def MetaValue.inner : MetaValue → List (String × MetaValue)
  | .group entries => Metadata.walk entries
  | .flag | .text _ => []

/-- The entries and all below them. -/
def Metadata.walk : List (String × MetaValue) → List (String × MetaValue)
  | [] => []
  | (key, value) :: rest => (key, value) :: (value.inner ++ Metadata.walk rest)

end

mutual

/-- A value as it is read again. -/
def MetaValue.reread : MetaValue → MetaValue
  | .flag => .flag
  | .text text => .text (Metadata.rereadText text)
  | .group entries => .group (Metadata.reread entries)

/-- The entries as they are read again. -/
def Metadata.reread : List (String × MetaValue) → List (String × MetaValue)
  | [] => []
  | (key, value) :: rest =>
    (Token.join (Token.tokenize key 1), value.reread) :: Metadata.reread rest

end

namespace Metadata

open Lexeme Token

/-- Key and text of the entry can be told apart in print. -/
structure Legible (e : String × MetaValue) : Prop where
  key : IsKey e.1
  text : ∀ t, e.2 = .text t → Closes t

/-- Words and texts of one line without backslashes can be told apart. -/
theorem legible_of_word {e : String × MetaValue} (hkey : Written .ident e.1.toList)
    (htext : ∀ t, e.2 = .text t → ∀ c ∈ t.toList, c ≠ '\\' ∧ c ≠ '\n') : Legible e :=
  ⟨isKey_of_word hkey, fun t ht => .inr (inside_escaped (htext t ht))⟩

/-- Whether a text is left alone. -/
def KeepsText (v : MetaValue) : Prop :=
  ∀ t, v = .text t → if isBareText t.toList then join (tokenize t 1) = t else '\\' ∉ t.toList

/-- Key and text of the entry are left alone. -/
structure Kept (e : String × MetaValue) : Prop where
  key : join (tokenize e.1 1) = e.1
  text : KeepsText e.2

theorem forall_mem_walk {P : String × MetaValue → Prop} {m : Metadata} :
    (∀ e ∈ walk m, P e) ↔ ∀ e ∈ m, P e ∧ ∀ e' ∈ e.2.inner, P e' := by
  induction m with
  | nil => simp [walk]
  | cons e m ih =>
    rw [walk, List.forall_mem_cons, List.forall_mem_append, ih, List.forall_mem_cons, and_assoc]

theorem toArgs_cons (e e' : String × MetaValue) (m : Metadata) :
    toArgs (e :: e' :: m) = e.2.argument e.1 ++ ", " ++ toArgs (e' :: m) := by
  simp only [toArgs, arguments]
  exact String.intercalate_cons_cons

theorem readsEntries_of_each {m : Metadata}
    (each : ∀ e ∈ m, ReadsEntry (e.2.argument e.1).toList (join (tokenize e.1 1), e.2.reread)) :
    ReadsEntries (toArgs m).toList (reread m) := by
  induction m with
  | nil => exact readsEntries_nil
  | cons e m ih =>
    obtain ⟨he, hm⟩ := List.forall_mem_cons.1 each
    rw [reread]
    cases m with
    | nil =>
      have hargs : toArgs [e] = e.2.argument e.1 := by
        simp only [toArgs, arguments]
        exact String.intercalate_singleton
      rw [hargs]
      exact he.readsEntries
    | cons e' m =>
      rw [toArgs_cons, String.toList_append, String.toList_append]
      exact he.cons (ih hm)

theorem readsEntry_of_legible (v : MetaValue) {key : String} (h : Legible (key, v))
    (inner : ∀ e ∈ v.inner, Legible e) :
    ReadsEntry (v.argument key).toList (join (tokenize key 1), v.reread) := by
  induction v using MetaValue.induction generalizing key with
  | flag => exact h.key.readsEntry
  | text t =>
    rw [MetaValue.argument, String.toList_append, String.toList_append]
    exact (readsValue_text (h.text t rfl)).readsEntry h.key
  | group entries ih =>
    have hentries : ReadsEntries (toArgs entries).toList (reread entries) := by
      refine readsEntries_of_each fun e he => ?_
      obtain ⟨hlegible, hinner⟩ := forall_mem_walk.1 inner e he
      exact ih e he hlegible hinner
    have hargument : (MetaValue.argument key (.group entries)).toList =
        key.toList ++ " = ".toList ++ '(' :: ((toArgs entries).toList ++ [')']) := by
      simp [MetaValue.argument, toArgs]
    rw [hargument]
    exact hentries.readsValue.readsEntry h.key

/-- **What is printed is read again entry by entry.** -/
theorem read_toArgs {m : Metadata} (h : ∀ e ∈ walk m, Legible e) (line : Nat) :
    read (tokenize (toArgs m) line) = .ok (reread m) := by
  obtain ⟨ss, hlexes, -, hread⟩ : ReadsEntries (toArgs m).toList (reread m) := by
    refine readsEntries_of_each fun e he => ?_
    obtain ⟨hlegible, hinner⟩ := forall_mem_walk.1 h e he
    exact readsEntry_of_legible e.2 hlegible hinner
  refine hread _ ?_
  rw [map_shape_tokenize, hlexes.shapes]

theorem rereadText_eq_iff {text : String} (h : Closes text) :
    rereadText text = text ↔
      if isBareText text.toList then join (tokenize text 1) = text else '\\' ∉ text.toList := by
  unfold rereadText
  by_cases hbare : isBareText text.toList = true
  · rw [if_pos hbare, if_pos hbare]
  · rw [if_neg hbare, if_neg hbare, ← unescaped_escaped_iff (h.resolve_left hbare),
      ← String.toList_inj, String.toList_ofList]

theorem reread_eq_iff_of_each {m : Metadata}
    (each : ∀ e ∈ m, e.2.reread = e.2 ↔ KeepsText e.2 ∧ ∀ e' ∈ e.2.inner, Kept e') :
    reread m = m ↔ ∀ e ∈ walk m, Kept e := by
  induction m with
  | nil => simp [reread, walk]
  | cons e m ih =>
    obtain ⟨he, hm⟩ := List.forall_mem_cons.1 each
    have hentry : (join (tokenize e.1 1), e.2.reread) = e ↔ Kept e ∧ ∀ e' ∈ e.2.inner, Kept e' := by
      rw [Prod.ext_iff, he, ← and_assoc]
      exact and_congr_left fun _ => ⟨fun h => ⟨h.1, h.2⟩, fun h => ⟨h.key, h.text⟩⟩
    rw [reread, List.cons.injEq, hentry, ih hm, walk, List.forall_mem_cons, List.forall_mem_append,
      and_assoc]

theorem reread_value_eq_iff (v : MetaValue) (closes : ∀ t, v = .text t → Closes t)
    (inner : ∀ e ∈ v.inner, Legible e) :
    v.reread = v ↔ KeepsText v ∧ ∀ e ∈ v.inner, Kept e := by
  induction v using MetaValue.induction with
  | flag => simp [MetaValue.reread, MetaValue.inner, KeepsText]
  | text t =>
    rw [MetaValue.reread, MetaValue.text.injEq, rereadText_eq_iff (closes t rfl)]
    simp [MetaValue.inner, KeepsText]
  | group entries ih =>
    have hentries : reread entries = entries ↔ ∀ e ∈ walk entries, Kept e := by
      refine reread_eq_iff_of_each fun e he => ?_
      obtain ⟨hlegible, hinner⟩ := forall_mem_walk.1 inner e he
      exact ih e he hlegible.text hinner
    rw [MetaValue.reread, MetaValue.group.injEq, hentries]
    simp [MetaValue.inner, KeepsText]

/-- **Metadata survives printing if and only if its keys and texts do.** -/
theorem read_toArgs_iff {m : Metadata} (h : ∀ e ∈ walk m, Legible e) (line : Nat) :
    read (tokenize (toArgs m) line) = .ok m ↔ ∀ e ∈ walk m, Kept e := by
  rw [read_toArgs h, Except.ok.injEq]
  refine reread_eq_iff_of_each fun e he => ?_
  obtain ⟨hlegible, hinner⟩ := forall_mem_walk.1 h e he
  exact reread_value_eq_iff e.2 hlegible.text hinner

/-- A group, and a text that needs its quotes. -/
theorem read_toArgs_group :
    (∀ e ∈ walk [("Meta", .group [("Foo", .text "Bar")]), ("Category", .text "A|B")], Legible e) ∧
      read (tokenize (toArgs [("Meta", .group [("Foo", .text "Bar")]), ("Category", .text "A|B")]) 1) =
        .ok [("Meta", .group [("Foo", .text "Bar")]), ("Category", .text "A|B")] := by
  have hmeta : Written .ident "Meta".toList := .ident (by decide) (List.all_eq_true.1 (by decide))
  have hfoo : Written .ident "Foo".toList := .ident (by decide) (List.all_eq_true.1 (by decide))
  have hbar : Written .ident "Bar".toList := .ident (by decide) (List.all_eq_true.1 (by decide))
  have hcategory : Written .ident "Category".toList := .ident (by decide) (List.all_eq_true.1 (by decide))
  have hlegible : ∀ e ∈ walk [("Meta", .group [("Foo", .text "Bar")]), ("Category", .text "A|B")],
      Legible e := by
    simp only [walk, MetaValue.inner, List.append_nil, List.nil_append, List.cons_append,
      List.forall_mem_cons]
    refine ⟨legible_of_word hmeta nofun, legible_of_word hfoo ?_, legible_of_word hcategory ?_, nofun⟩
    · rintro t ⟨⟩
      simp
    · rintro t ⟨⟩
      simp
  refine ⟨hlegible, (read_toArgs_iff hlegible 1).2 ?_⟩
  simp only [walk, MetaValue.inner, List.append_nil, List.nil_append, List.cons_append,
    List.forall_mem_cons]
  refine ⟨⟨join_word hmeta, nofun⟩, ⟨join_word hfoo, ?_⟩, ⟨join_word hcategory, ?_⟩, nofun⟩
  · rintro t ⟨⟩
    rw [if_pos (by decide)]
    exact join_word hbar
  · rintro t ⟨⟩
    rw [if_neg (by decide)]
    decide

/-- A bare text comes back with spaces around its hyphen. -/
theorem exists_read_toArgs_ne :
    ¬ ∀ (source : String) (line : Nat) (m : Metadata), read (tokenize source line) = .ok m →
      read (tokenize (toArgs m) 1) = .ok m := by
  intro hall
  have hread : read (tokenize "DisplayName = \"Read-Only\"" 1) =
      .ok [("DisplayName", .text "Read-Only")] := by
    cbv
  have hagain : read (tokenize (toArgs [("DisplayName", .text "Read-Only")]) 1) =
      .ok [("DisplayName", .text "Read - Only")] := by
    cbv
  have hsame := hall _ _ _ hread
  rw [hagain] at hsame
  simp at hsame

end Metadata

end AnnotatedHeader
