import AnnotatedHeader.Proofs.Declaration.MapDocs
import AnnotatedHeader.Proofs.Document.Injection
import AnnotatedHeader.Proofs.Metadata.Unbroken
import AnnotatedHeader.Proofs.Numbering.Lines
import AnnotatedHeader.Proofs.Piece
import AnnotatedHeader.Proofs.Region.Distinct
import AnnotatedHeader.Proofs.Scope.Nodes
import AnnotatedHeader.Proofs.Statement.Texts

/-! What the texts of a document's declarations are like.

All that is printed of a declaration stands on one line. What code declares is also spelled
as code, so that no comment starts it; a proxy's first line stands in its document as it is
(`Document.spelled_of_ofSource`). -/
namespace AnnotatedHeader

/-- What is printed of a declaration can be printed on lines of its own. -/
structure Declared.Spelled (own : Declared) : Prop where
  template : ∀ text ∈ own.template, IsCodeLine text
  reflection : ∀ r ∈ own.reflection, '\n' ∉ r.toSource.toList
  signature : '\n' ∉ own.signature.toList
  code : own.synthetic = false → IsCodeLine own.signature
  function : own.synthetic = false → ∀ shape, own.item = .function shape →
    '\n' ∉ own.name.toList ∧ shape.Spelled

/-! ### Code -/

/-- Tokens that are cut from code. -/
def Material.code : Material where
  piece p := ∀ t, p = .token t → t.IsCut
  template := IsCodeLine
  reflection r := '\n' ∉ r.toSource.toList

theorem Scope.token_mem_of_argumentTokens {depth : Nat} {ps rest : List Piece} {ts : List Token}
    (h : argumentTokens depth ps = some (ts, rest)) : ∀ t ∈ ts, .token t ∈ ps := by
  fun_induction argumentTokens depth ps generalizing ts with
  | case1 => cases h
  | case2 =>
    cases h
    simp
  | case3 t ps depth _ ih | case4 depth t ps _ ih | case8 depth t ps _ _ _ _ _ _ ih =>
    obtain ⟨⟨us, r⟩, hr, he⟩ := Option.map_eq_some_iff.1 h
    cases he
    refine List.forall_mem_cons.2 ⟨List.mem_cons_self .., fun u hu => ?_⟩
    exact List.mem_cons_of_mem _ (ih hr u hu)
  | case5 => cases h
  | case6 => cases h
  | case7 => cases h
  | case9 depth b ps ih => exact fun u hu => List.mem_cons_of_mem _ (ih h u hu)
  | case10 depth proxy line ps ih => exact fun u hu => List.mem_cons_of_mem _ (ih h u hu)

theorem Scope.not_mem_of_readReflection {t : Token} {ps rest : List Piece} {r : Reflection}
    (hps : ∀ p ∈ .token t :: ps, Material.code.piece p)
    (h : (readReflection t ps).result = .ok (r, rest)) : '\n' ∉ r.toSource.toList := by
  obtain ⟨ht, hps⟩ := List.forall_mem_cons.1 hps
  unfold readReflection at h
  split at h
  · split at h
    · split at h
      · rename_i opening ps _ _ ts _ hargs
        split at h <;> cases h
        rename_i metadata hmetadata
        refine Metadata.not_mem_toSource (ht t rfl).unbroken (fun u hu => ?_) hmetadata t.line
        exact (hps _ (List.mem_cons_of_mem _ (token_mem_of_argumentTokens hargs u hu)) u rfl).unbroken
      · cases h
    · cases h
  · cases h

theorem EnumBody.not_mem_of_reflection {t : Token} {args : List Token} {r : Reflection}
    (hargs : ∀ u ∈ args, u.IsCut) (h : reflection t args = .ok r) : '\n' ∉ r.toSource.toList := by
  unfold reflection at h
  dsimp only at h
  split at h
  · rename_i opening rest
    split at h
    · split at h <;> cases h
      rename_i metadata hmetadata
      refine Metadata.not_mem_toSource (by decide) (fun u hu => ?_) hmetadata t.line
      exact (hargs u (List.mem_cons_of_mem _ (List.dropLast_subset _ hu))).unbroken
    · cases h
  · cases h

theorem EnumBody.not_mem_of_variant {path : String} {doc : Option DocBlock} {ts : List Token}
    {member : Declaration} (hts : ∀ t ∈ ts, t.IsCut) (h : variant path doc ts = .ok (some member)) :
    ∀ r ∈ member.reflection, '\n' ∉ r.toSource.toList := by
  unfold variant at h
  split at h
  · rename_i name rest
    dsimp only at h
    split at h
    · split at h
      · rename_i t args hargs
        have hsubset : t :: args ⊆ name :: rest := hargs ▸ (List.dropWhile_suffix _).subset
        obtain ⟨found, hfound, h⟩ := Except.bind_eq_ok.1 h
        obtain ⟨r, hr, rfl⟩ := Except.map_eq_ok.1 hfound
        cases h
        rintro r ⟨⟩
        exact not_mem_of_reflection (fun u hu => hts u (hsubset (List.mem_cons_of_mem _ hu))) hr
      · cases h
        rintro r ⟨⟩
    · cases h
  · cases h

theorem Material.makes_spelled : Material.code.Makes Declared.Spelled where
  template h := Token.isCodeLine_join fun t ht => h t ht t rfl
  reflection := Scope.not_mem_of_readReflection
  ofHead {s stmt first h others waiting} visibility line hhead hh _ hwaiting hpieces := by
    have hheading := Head.spelled_of_classify
      (fun t ht => hpieces _ (Statement.token_mem_pieces ht) t rfl) hhead h hh
    exact ⟨hwaiting.template, hwaiting.reflection, hheading.signature.unbroken,
      fun _ => hheading.signature, fun _ => hheading.function⟩
  ofEntry {path doc ts member} hdoc hts hentry := by
    have hcut : ∀ t ∈ ts, t.IsCut := fun t ht => hts t ht t rfl
    have hreflection := EnumBody.not_mem_of_variant hcut hentry
    obtain ⟨name, rest, reflection, rfl, -, rfl⟩ := EnumBody.eq_of_variant hentry
    have hcode : IsCodeLine (Token.join ((name :: rest).takeWhile (!·.isIdent EnumBody.metaMacro))) :=
      Token.isCodeLine_join fun t ht => hcut t (List.takeWhile_subset _ ht)
    refine ⟨?_, hreflection, hcode.unbroken, fun _ => hcode, ?_⟩
    · rintro text ⟨⟩
    · rintro - shape ⟨⟩
  inherits := by
    intro winner loser _ hw hl
    refine ⟨?_, ?_, hw.signature, hw.code, hw.function⟩
    · intro text htext
      change text ∈ (winner.template <|> loser.template) at htext
      rcases (Option.orElse_eq_some ..).1 htext with h | ⟨-, h⟩
      · exact hw.template text h
      · exact hl.template text h
    · intro r hr
      change r ∈ (winner.reflection <|> loser.reflection) at hr
      rcases (Option.orElse_eq_some ..).1 hr with h | ⟨-, h⟩
      · exact hw.reflection r h
      · exact hl.reflection r h

theorem Scope.Contents.spelled_of_ofLines {lines : List SourceLine} {blocks : List CommentBlock}
    {found : Contents} (h : (ofLines lines blocks).result = .ok found) :
    ∀ d ∈ found.declarations, d.Every Declared.Spelled := by
  obtain ⟨rest, hreads⟩ := result_ofLines_eq_ok.1 h
  refine hreads.every Material.makes_spelled ?_ (.start ..)
  rintro p hp t rfl
  exact Token.isCut_of_mem_tokenize t (Piece.mem_tokenize_of_mem hp)

theorem Declaration.spelled_of_ofFragment {text owner : String} {firstLine : Nat}
    {ds : List Declaration} (h : (ofFragment text firstLine owner).result = .ok ds) :
    ∀ d ∈ ds, d.Every Declared.Spelled := by
  obtain ⟨injects, rest, hreads⟩ := reads_of_ofFragment h
  refine hreads.every Material.makes_spelled ?_ (.start ..)
  rintro p hp t rfl
  obtain ⟨u, hu, heq⟩ := List.mem_map.1 hp
  cases heq
  exact Token.isCut_of_mem_tokenize t hu

/-! ### Proxies -/

theorem Region.not_mem_of_firstLine? {r : Region} {text : String}
    (h : ∀ l ∈ r.lines, '\n' ∉ l.toList) (htext : r.firstLine? = some text) : '\n' ∉ text.toList := by
  obtain ⟨l, hl, rfl⟩ := List.mem_map.1 (List.mem_of_find?_eq_some htext)
  rw [Text.trimmed, String.toList_ofList]
  exact fun hmem => h l hl ((List.dropWhile_suffix _).subset ((Text.trimEnd_isPrefix _).subset hmem))

theorem Declaration.spelled_of_ofProxy {proxy : Region} {doc : Option DocBlock} {site : InjectSite}
    {member : Declaration} (hproxy : ∀ l ∈ proxy.lines, '\n' ∉ l.toList)
    (h : (ofProxy proxy doc site).result = .ok member) : member.Every Declared.Spelled := by
  have hsignature := Region.not_mem_of_firstLine? hproxy (signature_of_ofProxy h)
  obtain ⟨first, others, signature, hfragment, rfl⟩ := result_ofProxy_eq_ok h
  have hfirst := spelled_of_ofFragment hfragment first (List.mem_cons_self ..)
  obtain ⟨hown, hmembers⟩ := every_iff.1 hfirst
  refine every_iff.2 ⟨⟨hown.template, hown.reflection, hsignature, ?_, ?_⟩, hmembers⟩
  · rintro ⟨⟩
  · rintro ⟨⟩

/-! ### Documents -/

theorem Param.signature_of_mapDoc {f : DocBlock → Outcome DocBlock} {p p' : Param}
    (h : (p.mapDoc f).result = .ok p') : p'.signature = p.signature := by
  obtain ⟨doc, -, h⟩ := Outcome.result_bind_eq_ok.1 h
  cases h
  rfl

theorem Declared.spelled_of_mapDocs {f : DocBlock → String → Outcome DocBlock} {d d' : Declared}
    (h : (d.mapDocs f).result = .ok d') (hd : d.Spelled) : d'.Spelled := by
  obtain ⟨doc, -, h⟩ := Outcome.result_bind_eq_ok.1 h
  obtain ⟨item, hitem, h⟩ := Outcome.result_bind_eq_ok.1 h
  cases h
  refine ⟨hd.template, hd.reflection, hd.signature, hd.code, ?_⟩
  rintro hreal shape' rfl
  cases hd' : d.item with
  | function shape =>
    rw [hd'] at hitem
    obtain ⟨params, hparams, h⟩ := Outcome.result_bind_eq_ok.1 hitem
    cases h
    obtain ⟨hname, hshape⟩ := hd.function hreal shape hd'
    refine ⟨hname, hshape.lead, fun p' hp' => ?_, hshape.qualifiers⟩
    obtain ⟨p, hp, hmap⟩ := exists_left_of_forall₂ (Outcome.result_mapM_eq_ok.1 hparams) hp'
    rw [Param.signature_of_mapDoc hmap]
    exact hshape.params p hp
  | enumeration | record | property | variant =>
    rw [hd'] at hitem
    cases hitem

theorem Document.spelled_of_ofSource {file source : String} {d : Document}
    (h : (ofSource file source).result = .ok d) : ∀ m ∈ d.declarations, m.Every Declared.Spelled := by
  obtain ⟨lines, regions, found, hlines, hregions, hfound, hbuild⟩ := result_ofSource_eq_ok.1 h
  obtain ⟨injected, resolved, hinjected, hresolved, hfilled, -⟩ := result_build_eq_ok hbuild
  have hunbroken : ∀ l ∈ lines, l.Unbroken :=
    SourceLine.unbroken_of_classifyFrom (fun raw hraw => Text.not_mem_of_mem_fileLines hraw) hlines
  have hwithin := Regions.within_of_extract (SourceLine.map_line_of_classifyFrom hlines).1 hunbroken
    hregions
  have hinjected := Declaration.every_of_injects (fun hproxy hmade =>
    Declaration.spelled_of_ofProxy (hwithin _ (Regions.get?_eq_some hproxy).1).unbroken hmade)
    (Scope.Contents.spelled_of_ofLines hfound) hinjected
  exact Declaration.every_of_mapDocsAll Declared.spelled_of_mapDocs hfilled
    (Declaration.every_of_mapDocsAll Declared.spelled_of_mapDocs hresolved hinjected)

end AnnotatedHeader
