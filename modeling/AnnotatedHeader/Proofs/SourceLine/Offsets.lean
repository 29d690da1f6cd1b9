import AnnotatedHeader.Proofs.SourceLine.Classified
import AnnotatedHeader.Proofs.Text.Lines
import Mathlib

/-! Where the lines of a source stand in it.

A line's offset counts the bytes of all that stands before it, what ends the lines included. So a
source that is classified can be put together again from its lines: they follow each other with
only a line end between any two (`SourceLine.makeUp_of_classify`). -/
namespace AnnotatedHeader

open Text

namespace Text

/-! ### Bytes -/

/-- The bytes of `s` from `start` on are those of `part`, as far as it goes. -/
structure StandsAt (s : String) (start : Nat) (part : String) : Prop where
  bytes : s.toUTF8.extract start (start + part.utf8ByteSize) = part.toUTF8
  inside : start + part.utf8ByteSize ≤ s.utf8ByteSize

theorem extract_between (before part after : ByteArray) :
    (before ++ (part ++ after)).extract before.size (before.size + part.size) = part :=
  calc (before ++ (part ++ after)).extract (before.size + 0) (before.size + part.size)
      = (part ++ after).extract 0 part.size := ByteArray.extract_append_size_add
    _ = part := ByteArray.extract_append_eq_left rfl

theorem utf8ByteSize_ofList_append (cs ds : List Char) :
    (String.ofList (cs ++ ds)).utf8ByteSize =
      (String.ofList cs).utf8ByteSize + (String.ofList ds).utf8ByteSize := by
  rw [String.ofList_append, String.utf8ByteSize_append]

theorem standsAt_of_toList {s : String} {before part after : List Char}
    (h : s.toList = before ++ (part ++ after)) :
    StandsAt s (String.ofList before).utf8ByteSize (.ofList part) := by
  obtain rfl : s = .ofList before ++ (.ofList part ++ .ofList after) := by
    rw [← String.ofList_append, ← String.ofList_append, ← h, String.ofList_toList]
  constructor
  · rw [String.toUTF8_eq_toByteArray, String.toUTF8_eq_toByteArray, String.toByteArray_append,
      String.toByteArray_append, ← String.size_toByteArray, ← String.size_toByteArray]
    exact extract_between ..
  · rw [String.utf8ByteSize_append, String.utf8ByteSize_append]
    omega

/-! ### Line ends -/

/-- Of a line's end only the carriage return is cut off with its text. -/
theorem exists_withoutFinal (c : Char) (cs : List Char) :
    ∃ final ∈ [[], [c]], cs = withoutFinal c cs ++ final := by
  unfold withoutFinal
  split
  · rename_i h
    obtain ⟨init, rfl⟩ := List.getLast?_eq_some_iff.1 h
    exact ⟨[c], by simp, by rw [List.dropLast_concat]⟩
  · exact ⟨[], by simp, (List.append_nil cs).symm⟩

end Text

namespace SourceLine

/-! ### What stands around a line -/

/-- Where the text of the line ends, in bytes. -/
def stop (l : SourceLine) : Nat := l.offset + l.text.utf8ByteSize

/-- Of the source only a line end stands between the two lines. -/
def Precedes (source : String) (a b : SourceLine) : Prop :=
  ∃ gap ∈ ["\n", "\r\n"], StandsAt source a.stop gap ∧ b.offset = a.stop + gap.utf8ByteSize

/-- Of the source at most a line end stands behind the line. -/
def Ends (source : String) (l : SourceLine) : Prop :=
  ∃ rest ∈ ["", "\r", "\n", "\r\n"], StandsAt source l.stop rest ∧
    source.utf8ByteSize = l.stop + rest.utf8ByteSize

/-- The source is what the lines make up, line ends put between them. -/
structure MakeUp (source : String) (lines : List SourceLine) : Prop where
  numbers : lines.map (·.line) = List.range' 1 lines.length
  first : lines.head?.map (·.offset) = some 0
  texts : ∀ l ∈ lines, StandsAt source l.offset l.text ∧ '\n' ∉ l.text.toList
  between : lines.IsChain (Precedes source)
  last : ∀ l ∈ lines.getLast?, Ends source l
  /-- There are as many lines as line feeds, and one more if the last line has none. -/
  count : lines.length + (if source.toList.getLast? = some '\n' then 1 else 0) =
    source.toList.count '\n' + 1

variable {source : String}

theorem precedes_of_toList {a b : SourceLine} {before gap after : List Char}
    (hstop : a.stop = (String.ofList before).utf8ByteSize)
    (hnext : b.offset = (String.ofList (before ++ gap)).utf8ByteSize)
    (hgap : String.ofList gap ∈ ["\n", "\r\n"]) (h : source.toList = before ++ (gap ++ after)) :
    Precedes source a b := by
  refine ⟨.ofList gap, hgap, ?_, ?_⟩
  · rw [hstop]
    exact standsAt_of_toList h
  · rw [hnext, hstop, utf8ByteSize_ofList_append]

theorem ends_of_toList {l : SourceLine} {before rest : List Char}
    (hstop : l.stop = (String.ofList before).utf8ByteSize)
    (hrest : String.ofList rest ∈ ["", "\r", "\n", "\r\n"]) (h : source.toList = before ++ rest) :
    Ends source l := by
  refine ⟨.ofList rest, hrest, ?_, ?_⟩
  · have hbehind : source.toList = before ++ (rest ++ []) := by rw [h, List.append_nil]
    rw [hstop]
    exact standsAt_of_toList hbehind
  · rw [hstop, ← utf8ByteSize_ofList_append, ← h, String.ofList_toList]

/-! ### Classified lines -/

/-- What is classified from `offset` on stands there. -/
theorem places_of_classifyFrom {before rest : List Char} {raws : List (List Char)}
    {opened : Option Nat} {line : Nat} {ls : List SourceLine} (hrest : rest ∈ [[], ['\n']])
    (hraws : ∀ raw ∈ raws, '\n' ∉ raw)
    (hsource : source.toList = before ++ (['\n'].intercalate raws ++ rest))
    (h : classifyFrom opened line (String.ofList before).utf8ByteSize raws = .ok ls) :
    (∀ l ∈ ls.head?, l.offset = (String.ofList before).utf8ByteSize) ∧
      (∀ l ∈ ls, StandsAt source l.offset l.text ∧ '\n' ∉ l.text.toList) ∧
      ls.IsChain (Precedes source) ∧ ∀ l ∈ ls.getLast?, Ends source l := by
  induction raws generalizing opened line before ls with
  | nil =>
    obtain ⟨-, rfl⟩ := classifyFrom_nil_eq_ok h
    simp
  | cons raw raws ih =>
    obtain ⟨hraw, hraws⟩ := List.forall_mem_cons.1 hraws
    obtain ⟨k, ignored, opened', ls, -, -, hls, rfl⟩ := classifyFrom_cons_eq_ok h
    obtain ⟨final, hfinal, hcut⟩ := exists_withoutFinal '\r' raw
    generalize withoutFinal '\r' raw = text at hcut
    simp only [List.mem_cons, List.not_mem_nil, or_false] at hfinal hrest
    generalize hl : (⟨line, _, .ofList text, k, ignored⟩ : SourceLine) = l
    have hstop : l.stop = (String.ofList (before ++ text)).utf8ByteSize := by
      rw [← hl, utf8ByteSize_ofList_append]
      rfl
    have htext (after : List Char) (hafter : source.toList = before ++ (text ++ after)) :
        StandsAt source l.offset l.text ∧ '\n' ∉ l.text.toList := by
      rw [← hl, String.toList_ofList]
      exact ⟨standsAt_of_toList hafter, fun hmem => hraw (hcut ▸ List.mem_append_left final hmem)⟩
    cases raws with
    | nil =>
      obtain ⟨-, rfl⟩ := classifyFrom_nil_eq_ok hls
      rw [List.intercalate_singleton, hcut, List.append_assoc] at hsource
      refine ⟨by simp [← hl], List.forall_mem_singleton.2 (htext _ hsource), .singleton _, ?_⟩
      rintro _ ⟨⟩
      rw [← List.append_assoc] at hsource
      refine ends_of_toList hstop ?_ hsource
      rcases hfinal with rfl | rfl <;> rcases hrest with rfl | rfl <;> decide
    | cons next raws =>
      have hnext : (String.ofList before).utf8ByteSize + byteLength raw =
          (String.ofList (before ++ (raw ++ ['\n']))).utf8ByteSize := by
        rw [utf8ByteSize_ofList_append, utf8ByteSize_ofList_append]
        rfl
      rw [List.intercalate_cons_cons, List.append_assoc, List.append_assoc] at hsource
      rw [hnext] at hls
      obtain ⟨hfirst, htexts, hbetween, hlast⟩ := ih hraws (by simpa using hsource) hls
      obtain ⟨k', ignored', opened'', ls, -, -, -, rfl⟩ := classifyFrom_cons_eq_ok hls
      rw [hcut, List.append_assoc] at hsource
      refine ⟨by simp [← hl], List.forall_mem_cons.2 ⟨htext _ hsource, htexts⟩, ?_, hlast⟩
      refine List.isChain_cons_cons.2 ⟨?_, hbetween⟩
      have hgap : String.ofList (final ++ ['\n']) ∈ ["\n", "\r\n"] := by
        rcases hfinal with rfl | rfl <;> decide
      refine precedes_of_toList hstop ?_ hgap (by simpa using hsource)
      rw [hcut]
      simp

theorem makeUp_of_classify {lines : List SourceLine} (h : classify source = .ok lines) :
    MakeUp source lines := by
  have hraws (raw : List Char) (hraw : raw ∈ fileLines source.toList) : '\n' ∉ raw :=
    not_mem_of_mem_fileLines hraw
  have hsource := fileLines_eq source.toList
  obtain ⟨hnumbers, hlength⟩ := map_line_of_classifyFrom h
  obtain ⟨hfirst, htexts, hbetween, hlast⟩ :=
    places_of_classifyFrom (by split <;> simp) hraws (hsource.trans (List.nil_append _).symm) h
  have hne : 0 < lines.length := hlength ▸ List.length_pos_iff.2 (fileLines_ne_nil _)
  refine ⟨hnumbers, ?_, htexts, hbetween, hlast, ?_⟩
  · obtain ⟨l, ls, rfl⟩ := List.exists_cons_of_length_pos hne
    exact congrArg some (hfirst l rfl)
  · have hcount := congrArg (List.count '\n') hsource
    rw [List.count_append, count_intercalate hraws, ← hlength] at hcount
    by_cases hends : source.toList.getLast? = some '\n'
    · rw [if_pos hends, List.count_singleton_self] at hcount
      rw [if_pos hends]
      omega
    · rw [if_neg hends, List.count_nil] at hcount
      rw [if_neg hends]
      omega

/-- A letter of two bytes, and a carriage return that is no part of its line. -/
theorem makeUp_of_classify_wide :
    classify "\u00e9;\r\n\nb\n" =
        .ok [⟨1, 0, "\u00e9;", .code, false⟩, ⟨2, 5, "", .code, false⟩, ⟨3, 6, "b", .code, false⟩] ∧
      MakeUp "\u00e9;\r\n\nb\n"
        [⟨1, 0, "\u00e9;", .code, false⟩, ⟨2, 5, "", .code, false⟩, ⟨3, 6, "b", .code, false⟩] := by
  have h : classify "\u00e9;\r\n\nb\n" = .ok
      [⟨1, 0, "\u00e9;", .code, false⟩, ⟨2, 5, "", .code, false⟩, ⟨3, 6, "b", .code, false⟩] := by
    cbv
  exact ⟨h, makeUp_of_classify h⟩

end SourceLine

end AnnotatedHeader
