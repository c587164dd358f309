/-
Candidates written as lines of the input. Reading gives back what has been written, whichever of its
two forms each line end has, so the program does the same with candidates on the command line and with
the same candidates on lines.
-/
import Mathlib.Tactic.SplitIfs
import PathGlob.CommandLine.Filter

namespace PathGlob.CommandLine

/-! ## Lines of bytes -/

/-- The bytes up to a line feed are a line. -/
theorem byteLines_line {line : List UInt8} (h : 10 ∉ line) (rest : List UInt8) :
    byteLines (line ++ 10 :: rest) = (line, true) :: byteLines rest := by
  induction line with
  | nil => rfl
  | cons b line ih =>
    simp only [List.mem_cons, not_or] at h
    calc byteLines (b :: line ++ 10 :: rest)
      _ = consByte b (byteLines (line ++ 10 :: rest)) := rfl
      _ = consByte b ((line, true) :: byteLines rest) := by rw [ih h.2]
      _ = (b :: line, true) :: byteLines rest := if_neg (Ne.symm h.1)

/-! ## Bytes of texts -/

/-- The bytes of a text. -/
def encoded (s : String) : List UInt8 := s.toUTF8.data.toList

theorem encoded_append (s t : String) : encoded (s ++ t) = encoded s ++ encoded t := by
  simp [encoded]

theorem encoded_eq_flatMap (s : String) : encoded s = s.toList.flatMap String.utf8EncodeChar := by
  rw [encoded, String.toUTF8_eq_toByteArray, ← String.utf8Encode_toList, List.utf8Encode,
    List.toList_data_toByteArray]

/-- A line feed is the only character with the byte of a line feed: all bytes of the characters that
take several are large. -/
theorem eq_feed_of_mem_utf8EncodeChar {c : Char} (h : 10 ∈ String.utf8EncodeChar c) : c = '\n' := by
  have hten (n : Nat) (hn : (10 : UInt8) = UInt8.ofNat n) : n % 256 = 10 := by
    simpa using (congrArg UInt8.toNat hn).symm
  simp only [String.utf8EncodeChar] at h
  split_ifs at h with hone htwo hthree <;>
    simp only [List.mem_cons, List.not_mem_nil, or_false] at h
  · -- one byte, which is the character itself; in all other cases the bytes are 128 or more
    have hc := hten _ h
    exact Char.ext (UInt32.toNat_inj.1 (show c.val.toNat = 10 by omega))
  · rcases h with h | h <;> have := hten _ h <;> omega
  · rcases h with h | h | h <;> have := hten _ h <;> omega
  · rcases h with h | h | h | h <;> have := hten _ h <;> omega

theorem feed_notMem_encoded {s : String} (h : '\n' ∉ s.toList) : 10 ∉ encoded s := by
  rw [encoded_eq_flatMap, List.mem_flatMap]
  rintro ⟨c, hc, hten⟩
  exact h (eq_feed_of_mem_utf8EncodeChar hten ▸ hc)

theorem decoded_encoded (s : String) (isEnded : Bool) :
    decoded (encoded s, isEnded) = .ok (if isEnded then withoutReturn s else s) := by
  have hs : String.fromUTF8? (ByteArray.mk (encoded s).toArray) = some s := by
    simp only [encoded, Array.toArray_toList, String.toUTF8_eq_toByteArray]
    rw [String.fromUTF8?, dif_pos s.isValidUTF8]
    rfl
  rw [decoded, hs]

/-! ## Written lines -/

/-- What ends a line. -/
inductive LineEnd where
  | feed
  | returnFeed
  deriving DecidableEq, Repr

/-- What a line end has before its line feed. -/
def LineEnd.mark : LineEnd → String
  | .feed => ""
  | .returnFeed => "\r"

/-- A line with its end. -/
def LineEnd.line (e : LineEnd) (candidate : String) : String := candidate ++ e.mark ++ "\n"

/-- The bytes of an input that holds candidates, each on a line of its own. -/
def written (lines : List (String × LineEnd)) : List UInt8 :=
  encoded (String.join (lines.map fun l => l.2.line l.1))

/-- What can stand on a line: it has no line feed in it and no carriage return at its end. -/
structure FitsLine (candidate : String) : Prop where
  unbroken : '\n' ∉ candidate.toList
  unreturned : candidate.toList.getLast? ≠ some '\r'

/-- What precedes the line feed of a line is taken off again. -/
theorem FitsLine.withoutReturn_mark {c : String} (h : FitsLine c) (e : LineEnd) :
    withoutReturn (c ++ e.mark) = c := by
  cases e with
  | feed =>
    rw [LineEnd.mark, String.append_empty, withoutReturn]
    split
    · next cs hcs =>
      exact absurd (by rw [← List.head?_reverse, hcs, List.head?_cons]) h.unreturned
    · rfl
  | returnFeed => simp [withoutReturn, LineEnd.mark]

/-- One line is read back: the step of reading what has been written. -/
theorem FitsLine.ofBytes_line {c : String} (h : FitsLine c) (e : LineEnd) (rest : List UInt8) :
    Lines.ofBytes (encoded (e.line c) ++ rest) = .ok c :: Lines.ofBytes rest := by
  have hline : 10 ∉ encoded (c ++ e.mark) := by
    refine feed_notMem_encoded ?_
    cases e <;> simp [LineEnd.mark, h.unbroken]
  have hsplit : encoded (e.line c) ++ rest = encoded (c ++ e.mark) ++ 10 :: rest := by
    rw [LineEnd.line, encoded_append, List.append_assoc]
    rfl
  rw [hsplit, Lines.ofBytes, byteLines_line hline, List.map_cons, decoded_encoded, if_pos rfl,
    h.withoutReturn_mark]
  rfl

/-- Written candidates are read back, however their lines end. -/
theorem ofBytes_written {lines : List (String × LineEnd)} (h : ∀ l ∈ lines, FitsLine l.1) :
    Lines.ofBytes (written lines) = lines.map fun l => .ok l.1 := by
  induction lines with
  | nil => rfl
  | cons l lines ih =>
    rw [List.forall_mem_cons] at h
    rw [written, List.map_cons, String.join_cons, encoded_append, h.1.ofBytes_line, ← written, ih h.2,
      List.map_cons]

/-- A run offered candidates on the command line is the run offered them on lines. -/
theorem run_written (e : Engine) (v : Invocation) (settings : Except Failure Settings) (elsewhere : Lines)
    {lines : List (String × LineEnd)} (hsome : lines ≠ []) (h : ∀ l ∈ lines, FitsLine l.1) :
    run e { v with candidates := lines.map (·.1) } settings elsewhere =
      run e { v with candidates := [] } settings (Lines.ofBytes (written lines)) := by
  have hoffered : Invocation.offered { v with candidates := lines.map (·.1) } elsewhere =
      Invocation.offered { v with candidates := [] } (Lines.ofBytes (written lines)) := by
    simp [Invocation.offered, ofBytes_written h, hsome]
  rw [run, run, hoffered]
  rfl

/-- Candidates may be given on the command line or as lines of the input: the run is the same, and the
program leaves the same status and the same texts. -/
theorem report_written (e : Engine) (v : Invocation) {lines : List (String × LineEnd)} (hsome : lines ≠ [])
    (h : ∀ l ∈ lines, FitsLine l.1) :
    (∀ settings elsewhere, run e { v with candidates := lines.map (·.1) } settings elsewhere =
      run e { v with candidates := [] } settings (Lines.ofBytes (written lines))) ∧
    ∀ environment user file words words' elsewhere,
      Invocation.ofWords environment words = .ok { v with candidates := lines.map (·.1) } →
      Invocation.ofWords environment words' = .ok { v with candidates := [] } →
      report e environment user file words elsewhere =
        report e environment user file words' (written lines) := by
  refine ⟨fun settings elsewhere => run_written e v settings elsewhere hsome h, ?_⟩
  intro environment user file words words' elsewhere hwords hwords'
  rw [report, report, hwords, hwords']
  exact congrArg (·.report Failure.plain) (run_written e v _ _ hsome h)

/-- Three candidates, one of them empty and one with a carriage return inside. -/
theorem report_written_inverted :
    let v : Invocation := { pattern := "a*", invert := true }
    let lines : List (String × LineEnd) := [("ab", .returnFeed), ("", .feed), ("b\rb", .returnFeed)]
    let words := ["a*", "-v", "ab", "", "b\rb"]
    Invocation.ofWords (fun _ => none) words = .ok { v with candidates := lines.map (·.1) } ∧
      Invocation.ofWords (fun _ => none) ["a*", "-v"] = .ok { v with candidates := [] } ∧
      (∀ l ∈ lines, FitsLine l.1) ∧
      run .standard { v with candidates := lines.map (·.1) } (.ok {}) [] =
        run .standard { v with candidates := [] } (.ok {}) (Lines.ofBytes (written lines)) ∧
      report .standard (fun _ => none) none (fun _ => none) words [] =
        report .standard (fun _ => none) none (fun _ => none) ["a*", "-v"] (written lines) ∧
      report .standard (fun _ => none) none (fun _ => none) ["a*", "-v"] (written lines) =
        { status := 0, output := "\nb\rb\n" } := by
  intro v lines words
  have hlines : ∀ l ∈ lines, FitsLine l.1 := by
    simp only [lines, List.forall_mem_cons]
    exact ⟨⟨by decide, by decide⟩, ⟨by decide, by decide⟩, ⟨by decide, by decide⟩, by simp⟩
  obtain ⟨hrun, hreport⟩ := report_written .standard v (by decide) hlines
  exact ⟨rfl, rfl, hlines, hrun _ _, hreport _ _ _ _ _ _ rfl rfl, by decide +kernel⟩

end PathGlob.CommandLine
