import AnnotatedHeader.Proofs.Region.Borders

/-! What one line does to the regions that are being captured.

`Capture.Steps` lists what can come of a line, with what is known of the line and of the regions
in each case, and `steps_step` says that nothing else does. What is proved of a step is proved
by these cases. -/
namespace AnnotatedHeader.Regions

/-- The region with what it captures of one more line. -/
def Open.taking (o : Open) (text? : Option String) : Open :=
  { o with lines := o.lines ++ text?.toList }

theorem Open.taking_none (o : Open) : o.taking none = o := by
  unfold taking
  rw [Option.toList_none, List.append_nil]

namespace Capture
variable {c : Capture} {l : SourceLine}

theorem opened_setOpened (c : Capture) (kind kind' : RegionKind) (o : Option Open) :
    (c.setOpened kind o).opened kind' = if kind' = kind then o else c.opened kind' := by
  cases kind <;> cases kind' <;> rfl

theorem regions_setOpened (c : Capture) (kind : RegionKind) (o : Option Open) :
    (c.setOpened kind o).regions = c.regions := by
  cases kind <;> rfl

/-- The open regions with what they capture of one more line. -/
def capturing (c : Capture) (l : SourceLine) : Capture :=
  { c with
    snippet := c.snippet.map (·.taking (l.captured? .snippet))
    proxy := c.proxy.map (·.taking (l.captured? .proxy)) }

theorem opened_capturing (c : Capture) (l : SourceLine) (kind : RegionKind) :
    (c.capturing l).opened kind = (c.opened kind).map (·.taking (l.captured? kind)) := by
  cases kind <;> rfl

/-- All that can come of a line: a border opens or closes a region of its kind and leaves the
other kind as it is, and any other line is captured by the regions that are open. -/
inductive Steps (c : Capture) (l : SourceLine) : Except Fault Capture → Prop where
  | begins {kind : RegionKind} {name : String} (is : l.kind = .marker (.opens kind name))
      (free : c.opened kind = none) :
      Steps c l (.ok (c.setOpened kind (some { name, line := l.line })))
  | nested {kind : RegionKind} {name : String} {outer : Open}
      (is : l.kind = .marker (.opens kind name)) (opened : c.opened kind = some outer) :
      Steps c l
        (.error ⟨l.line, .nested (.region kind name) (.region kind outer.name) outer.line⟩)
  | ends {kind : RegionKind} {o : Open} (is : l.kind = .marker (.closes kind))
      (opened : c.opened kind = some o) (fresh : c.regions.get? kind o.name = none) :
      Steps c l
        (.ok { c.setOpened kind none with regions := ⟨c.regions.closed ++ [o.close kind]⟩ })
  | unmatched {kind : RegionKind} (is : l.kind = .marker (.closes kind))
      (free : c.opened kind = none) : Steps c l (.error ⟨l.line, .unmatchedEnd (.region kind)⟩)
  | taken {kind : RegionKind} {o : Open} {first : Region} (is : l.kind = .marker (.closes kind))
      (opened : c.opened kind = some o) (taken : c.regions.get? kind o.name = some first) :
      Steps c l (.error ⟨o.line, .duplicateName kind o.name first.line⟩)
  | documented {text : String} {o : Open} (is : l.kind = .doc text) (seen : l.ignored = false)
      (opened : c.opened .proxy = some o) : Steps c l (.error ⟨l.line, .emptyProxy o.name⟩)
  | captures (passed : ∀ kind, l.border? kind = none)
      (undocumented : ∀ text, l.kind = .doc text → l.ignored = false → c.opened .proxy = none) :
      Steps c l (.ok (c.capturing l))

/-! ### Lines that are captured -/

theorem map_taking_none (o? : Option Open) : o?.map (·.taking none) = o? := by
  simp only [Open.taking_none, Option.map_id_fun', id]

theorem capturing_of_ignored (c : Capture) (h : l.ignored = true) : c.capturing l = c := by
  have hnone (kind : RegionKind) : l.captured? kind = none := by
    unfold SourceLine.captured?
    rw [if_pos h]
  rw [capturing, hnone, hnone, map_taking_none, map_taking_none]

/-- A marker of another kind is passed over, and everything else that is not ignored is captured
where it is asked for. -/
theorem step_of_passed (passed : ∀ kind, l.border? kind = none)
    (undocumented : ∀ text, l.kind = .doc text → l.ignored = false → c.opened .proxy = none) :
    c.step l = .ok (c.capturing l) := by
  by_cases hi : l.ignored = true
  · rw [capturing_of_ignored c hi]
    unfold step
    split <;> simp_all [SourceLine.border?, SourceLine.isVisible]
  · have hi : l.ignored = false := by simpa using hi
    cases is : l.kind with
    | code =>
      have hcaptured (kind : RegionKind) : l.captured? kind = some l.text := by
        simp [SourceLine.captured?, hi, is]
      simp only [step, is, SourceLine.isVisible, hi, capturing, hcaptured]
      rfl
    | doc text =>
      have hfree : c.proxy = none := undocumented text is hi
      have hcaptured : l.captured? .snippet = some l.text := by
        simp [SourceLine.captured?, hi, is]
      simp only [step, is, SourceLine.isVisible, hi, capturing, hcaptured, hfree]
      rfl
    | tool text =>
      have hproxy : l.captured? .proxy = some text := by simp [SourceLine.captured?, hi, is]
      have hsnippet : l.captured? .snippet = none := by simp [SourceLine.captured?, hi, is]
      simp only [step, is, SourceLine.isVisible, hi, capturing, hproxy, hsnippet, map_taking_none]
      rfl
    | marker directive =>
      have hcaptured (kind : RegionKind) : l.captured? kind = none := SourceLine.captured?_marker is
      rw [capturing, hcaptured, hcaptured, map_taking_none, map_taking_none]
      cases directive with
      | opens kind name => simpa [SourceLine.border?, is] using passed kind
      | closes kind => simpa [SourceLine.border?, is] using passed kind
      | inject _ => rw [step, is]
      | ignore => rw [step, is]
      | endIgnore => rw [step, is]

/-! ### All lines -/

theorem steps_step (c : Capture) (l : SourceLine) : c.Steps l (c.step l) := by
  by_cases passed : ∀ kind, l.border? kind = none
  · by_cases undocumented : ∀ text, l.kind = .doc text → l.ignored = false → c.opened .proxy = none
    · rw [step_of_passed passed undocumented]
      exact .captures passed undocumented
    · push Not at undocumented
      obtain ⟨text, is, seen, hopened⟩ := undocumented
      obtain ⟨o, hopened⟩ := Option.ne_none_iff_exists'.1 hopened
      have hstep : c.step l = .error ⟨l.line, .emptyProxy o.name⟩ := by
        rw [opened] at hopened
        simp only [step, is, SourceLine.isVisible, seen, hopened]
        rfl
      rw [hstep]
      exact .documented is seen hopened
  · push Not at passed
    obtain ⟨kind, hborder⟩ := passed
    obtain ⟨border, hborder⟩ := Option.ne_none_iff_exists'.1 hborder
    cases border with
    | opens name line =>
      obtain ⟨is, rfl⟩ := SourceLine.border?_eq_opens_iff.1 hborder
      have hstep : c.step l = c.open kind name l.line := by rw [step, is]
      rw [hstep, Capture.open]
      split
      · exact .nested is ‹_›
      · exact .begins is ‹_›
    | closes =>
      have is := SourceLine.border?_eq_closes_iff.1 hborder
      have hstep : c.step l = c.close kind l.line := by rw [step, is]
      rw [hstep, close]
      split
      · exact .unmatched is ‹_›
      · split
        · exact .taken is ‹_› ‹_›
        · exact .ends is ‹_› ‹_›

end Capture

end AnnotatedHeader.Regions
