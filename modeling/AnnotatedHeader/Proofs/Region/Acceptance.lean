import AnnotatedHeader.Proofs.Region.Openings

/-! Which lines have regions, and what is wrong with the others.

Lines are accepted when the begin and end markers of each kind take turns and end with an end,
when no two regions of a kind are begun with one name, and when no doc comment stands in a proxy.
A line can break one of these by what stands before it (`Breaks`), and then the first line that
does is the fault; where none does, it is a region that is left open. `extract_decides` says so
of all lines. -/
namespace AnnotatedHeader.Regions

/-- What a line breaks behind the lines before it. -/
inductive Breaks (before : List SourceLine) (l : SourceLine) : Fault → Prop where
  | nested {kind : RegionKind} {name outer : String} {line : Nat}
      (is : l.kind = .marker (.opens kind name)) (opened : opened? kind before = some (outer, line)) :
      Breaks before l ⟨l.line, .nested (.region kind name) (.region kind outer) line⟩
  | unmatched {kind : RegionKind} (is : l.kind = .marker (.closes kind))
      (free : opened? kind before = none) :
      Breaks before l ⟨l.line, .unmatchedEnd (.region kind)⟩
  /-- The fault names the begin marker, and the one that took the name. -/
  | taken {kind : RegionKind} {name : String} {line first : Nat}
      (is : l.kind = .marker (.closes kind)) (opened : opened? kind before = some (name, line))
      (taken : (name, first) ∈ (openings kind before).dropLast) :
      Breaks before l ⟨line, .duplicateName kind name first⟩
  | documented {text name : String} {line : Nat} (is : l.kind = .doc text)
      (seen : l.ignored = false) (opened : opened? .proxy before = some (name, line)) :
      Breaks before l ⟨l.line, .emptyProxy name⟩

/-- No line breaks a rule by what stands before it. -/
def Unbroken (lines : List SourceLine) : Prop :=
  ∀ before l after f, lines = before ++ l :: after → ¬ Breaks before l f

/-- What is left open behind the last line, a snippet before a proxy. -/
inductive LeftOpen (lines : List SourceLine) : Fault → Prop where
  | snippet {name : String} {line : Nat} (opened : opened? .snippet lines = some (name, line)) :
      LeftOpen lines ⟨line, .unterminated (.region .snippet name)⟩
  | proxy {name : String} {line : Nat} (closed : opened? .snippet lines = none)
      (opened : opened? .proxy lines = some (name, line)) :
      LeftOpen lines ⟨line, .unterminated (.region .proxy name)⟩

/-- The rules for all lines together: begin and end take turns and the last border ends, the names
that are begun differ, and no doc comment that is not ignored stands in a proxy. -/
structure Accepted (lines : List SourceLine) : Prop where
  alternate (kind : RegionKind) : Border.Alternating (borders kind lines)
  ends (kind : RegionKind) : ∀ b ∈ (borders kind lines).getLast?, b = .closes
  names (kind : RegionKind) : ((openings kind lines).map Prod.fst).Nodup
  undocumented : ∀ before l after text, lines = before ++ l :: after → l.kind = .doc text →
    l.ignored = false → opened? .proxy before = none

variable {kind : RegionKind} {before lines : List SourceLine} {l : SourceLine} {f : Fault}
  {name : String} {line : Nat}

/-! ### The line that breaks a rule -/

namespace Capture
variable {c : Capture}

theorem Follows.exists_opened (hc : c.Follows before kind)
    (h : opened? kind before = some (name, line)) :
    ∃ o, c.opened kind = some o ∧ o.name = name ∧ o.line = line := by
  rw [← hc.opened] at h
  obtain ⟨o, hopened, heading⟩ := Option.map_eq_some_iff.1 h
  cases heading
  exact ⟨o, hopened, rfl, rfl⟩

theorem Follows.dropLast_openings (hc : c.Follows before kind)
    (h : opened? kind before = some (name, line)) :
    (Regions.openings kind before).dropLast = c.regions.headings kind := by
  rw [← hc.openings, h, Option.toList_some, List.dropLast_concat]

/-- A step fails exactly where its line breaks a rule behind the lines that have been read. -/
theorem step_eq_error_iff (hread : before.foldlM step {} = .ok c) :
    c.step l = .error f ↔ Breaks before l f := by
  have hc := follows_of_foldlM hread
  have hdistinct := distinct_of_foldlM hread
  constructor
  · intro h
    have hsteps := steps_step c l
    rw [h] at hsteps
    cases hsteps with
    | @nested kind _ _ is opened => exact .nested is ((hc kind).opened_eq opened)
    | @unmatched kind is free => exact .unmatched is ((hc kind).opened_eq_none_iff.1 free)
    | @taken kind o first is opened taken =>
      have hopened := (hc kind).opened_eq opened
      refine .taken is hopened ?_
      rw [(hc kind).dropLast_openings hopened]
      exact (mem_headings_iff hdistinct).2 ⟨first, taken, rfl⟩
    | documented is seen opened => exact .documented is seen ((hc .proxy).opened_eq opened)
  · intro h
    cases h with
    | @nested kind _ _ _ is opened =>
      obtain ⟨o, hopened, rfl, rfl⟩ := (hc kind).exists_opened opened
      simp only [step, is, Capture.open, hopened]
    | @unmatched kind is free =>
      have hfree := (hc kind).opened_eq_none_iff.2 free
      simp only [step, is, close, hfree]
    | @taken kind _ _ _ is opened taken =>
      rw [(hc kind).dropLast_openings opened] at taken
      obtain ⟨r, hget, rfl⟩ := (mem_headings_iff hdistinct).1 taken
      obtain ⟨o, hopened, rfl, rfl⟩ := (hc kind).exists_opened opened
      simp only [step, is, close, hopened, hget]
    | documented is seen opened =>
      obtain ⟨o, hopened, rfl, rfl⟩ := (hc .proxy).exists_opened opened
      have hproxy : c.proxy = some o := hopened
      simp only [step, is, SourceLine.isVisible, seen, hproxy]
      rfl

theorem finish_eq_error_iff (hc : ∀ kind, c.Follows lines kind) :
    c.finish = .error f ↔ LeftOpen lines f := by
  constructor
  · intro h
    unfold finish at h
    split at h
    · rename_i o hopened
      cases h
      exact .snippet ((hc .snippet).opened_eq hopened)
    · rename_i o hclosed hopened
      cases h
      exact .proxy ((hc .snippet).opened_eq_none_iff.1 hclosed) ((hc .proxy).opened_eq hopened)
    · cases h
  · intro h
    cases h with
    | snippet opened =>
      obtain ⟨o, hopened, rfl, rfl⟩ := (hc .snippet).exists_opened opened
      have hsnippet : c.snippet = some o := hopened
      simp only [finish, hsnippet]
    | proxy closed opened =>
      have hclosed := (hc .snippet).opened_eq_none_iff.2 closed
      obtain ⟨o, hopened, rfl, rfl⟩ := (hc .proxy).exists_opened opened
      have hsnippet : c.snippet = none := hclosed
      have hproxy : c.proxy = some o := hopened
      simp only [finish, hsnippet, hproxy]

/-! ### The first of them -/

theorem exists_foldlM_iff : (∃ c, lines.foldlM step {} = .ok c) ↔ Unbroken lines :=
  Except.exists_foldlM_iff_of_steps fun _ _ _ _ => step_eq_error_iff

theorem foldlM_eq_error_iff :
    lines.foldlM step {} = .error f ↔
      ∃ before l after, lines = before ++ l :: after ∧ Unbroken before ∧ Breaks before l f :=
  Except.foldlM_eq_error_iff_of_steps fun _ _ _ _ => step_eq_error_iff

end Capture

/-! ### Acceptance -/

/-- Where the lines are accepted no line breaks a rule. -/
theorem Accepted.unbroken (h : Accepted lines) : Unbroken lines := by
  rintro before l after f rfl hbreaks
  have hborder {kind : RegionKind} {b : Border} (hb : l.border? kind = some b) :
      b.isBegin = (opened? kind before).isNone := by
    have halternate := h.alternate kind
    rw [List.append_cons, borders_append, borders_concat, hb] at halternate
    exact (Border.alternating_concat_iff.1 halternate.of_append).2
  cases hbreaks with
  | nested is opened =>
    have hturn := hborder (SourceLine.border?_eq_opens_iff.2 ⟨is, rfl⟩)
    rw [opened] at hturn
    cases hturn
  | unmatched is free =>
    have hturn := hborder (SourceLine.border?_eq_closes_iff.2 is)
    rw [free] at hturn
    cases hturn
  | @taken kind name line first is opened taken =>
    have hnames := h.names kind
    rw [openings_append, openings_of_opened opened, List.map_append, List.map_append] at hnames
    have hapart := (List.nodup_append.1 (List.nodup_append.1 hnames).1).2.2
    exact hapart name (List.mem_map_of_mem taken) name (by simp) rfl
  | documented is seen opened =>
    rw [h.undocumented before l after _ rfl is seen] at opened
    cases opened

theorem exists_extract_iff : (∃ rs, extract lines = .ok rs) ↔ Accepted lines := by
  constructor
  · rintro ⟨rs, h⟩
    have hdistinct := distinct_of_extract h
    obtain ⟨c, hfold, hclosed, rfl⟩ := extract_eq_ok_iff.1 h
    have hfollows := Capture.follows_of_foldlM hfold
    have hunbroken := Capture.exists_foldlM_iff.1 ⟨c, hfold⟩
    have hends (kind : RegionKind) : opened? kind lines = none :=
      (hfollows kind).opened_eq_none_iff.1 (hclosed kind)
    refine ⟨fun kind => (hfollows kind).alternate, fun kind => opened?_eq_none_iff.1 (hends kind),
      ?_, ?_⟩
    · intro kind
      rw [← (hfollows kind).headings_eq (hclosed kind)]
      exact nodup_headings hdistinct kind
    · intro before l after text hlines is seen
      cases hopened : opened? .proxy before with
      | none => rfl
      | some x => exact absurd (.documented is seen hopened) (hunbroken before l after _ hlines)
  · intro h
    obtain ⟨c, hfold⟩ := Capture.exists_foldlM_iff.2 h.unbroken
    have hfollows := Capture.follows_of_foldlM hfold
    have hclosed (kind : RegionKind) : c.opened kind = none :=
      (hfollows kind).opened_eq_none_iff.2 (opened?_eq_none_iff.2 (h.ends kind))
    exact ⟨c.regions, extract_eq_ok_iff.2 ⟨c, hfold, hclosed, rfl⟩⟩

/-- Lines have regions exactly when they are accepted, and else the fault is that of the first
line that breaks a rule, or that of a region that is left open where no line does. -/
theorem extract_decides (lines : List SourceLine) :
    ((∃ rs, extract lines = .ok rs) ↔ Accepted lines) ∧
      ∀ f, extract lines = .error f ↔
        (∃ before l after, lines = before ++ l :: after ∧ Unbroken before ∧ Breaks before l f) ∨
          (Unbroken lines ∧ LeftOpen lines f) := by
  refine ⟨exists_extract_iff, fun f => ?_⟩
  unfold extract
  rw [Except.bind_eq_error, Capture.foldlM_eq_error_iff]
  refine or_congr_right ?_
  constructor
  · rintro ⟨c, hfold, hfinish⟩
    exact ⟨Capture.exists_foldlM_iff.1 ⟨c, hfold⟩,
      (Capture.finish_eq_error_iff (Capture.follows_of_foldlM hfold)).1 hfinish⟩
  · rintro ⟨hunbroken, hopen⟩
    obtain ⟨c, hfold⟩ := Capture.exists_foldlM_iff.2 hunbroken
    exact ⟨c, hfold, (Capture.finish_eq_error_iff (Capture.follows_of_foldlM hfold)).2 hopen⟩

/-- That a name is taken shows at the end, and the fault is at the begin marker. -/
example : extract [⟨1, 0, "", .marker (.opens .snippet "a"), false⟩,
    ⟨2, 0, "", .marker (.closes .snippet), false⟩, ⟨3, 0, "", .marker (.opens .snippet "a"), false⟩,
    ⟨4, 0, "", .marker (.closes .snippet), false⟩] = .error ⟨3, .duplicateName .snippet "a" 1⟩ := by
  rfl

end AnnotatedHeader.Regions
