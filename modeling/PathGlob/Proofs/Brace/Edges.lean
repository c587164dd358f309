/-
Numeric ranges up to the edges of 64 bits with a sign. A range has as many values as strides fit between
its ends, each at its multiple of the stride from the first end and none beyond the last. The distance of
the ends, a stride and its multiples fit into 64 bits, and what they are added to into 128 with a sign,
so that no step of the computation wraps. Where an end is written with a zero that its value does not
need, all values take the room of the longer end, for none of them needs more.
-/
import PathGlob.Proofs.Brace.Length
import PathGlob.Proofs.Brace.Tree

namespace PathGlob.Brace

/-! ## Decimals -/

theorem digitsValue_zeroPadded (width n : Nat) : digitsValue (zeroPadded width n) = n := by
  change Nat.ofDigitChars 10 (zeroPadded width n) 0 = n
  rw [zeroPadded, List.leftpad, Nat.ofDigitChars_append, Nat.ofDigitChars_replicate_zero, Nat.mul_zero,
    Nat.ofDigitChars_ten_toDigits]

theorem zeroPadded_ne_nil (width n : Nat) : zeroPadded width n ≠ [] := by
  rw [zeroPadded, List.leftpad]
  exact List.append_ne_nil_of_right_ne_nil _ Nat.toDigits_ne_nil

/-- An integer is written as a numeral of its own. -/
theorem exists_numeral_written (width : Nat) {n : Int}
    (h : Int64.minValue.toInt ≤ n ∧ n ≤ Int64.maxValue.toInt) :
    ∃ m : Numeral, m.text = written width n ∧ m.value = n := by
  have hdigit (width n : Nat) : (zeroPadded width n).all Char.isDigit = true :=
    List.all_eq_true.2 fun c hc => isDigit_of_mem_zeroPadded hc
  unfold written
  split
  · rename_i hneg
    have hvalue : signed true (digitsValue (zeroPadded (width - 1) n.natAbs)) = n := by
      rw [digitsValue_zeroPadded, signed, if_pos rfl]
      omega
    exact ⟨⟨true, _, zeroPadded_ne_nil _ _, hdigit _ _, by rwa [hvalue]⟩, rfl, hvalue⟩
  · rename_i hpos
    have hvalue : signed false (digitsValue (zeroPadded width n.natAbs)) = n := by
      rw [digitsValue_zeroPadded, signed, if_neg Bool.false_ne_true]
      omega
    exact ⟨⟨false, _, zeroPadded_ne_nil _ _, hdigit _ _, by rwa [hvalue]⟩, rfl, hvalue⟩

theorem value?_written (width : Nat) {n : Int}
    (h : Int64.minValue.toInt ≤ n ∧ n ≤ Int64.maxValue.toInt) : value? (written width n) = some n := by
  obtain ⟨m, htext, rfl⟩ := exists_numeral_written width h
  rw [← htext, m.value?_text]

/-- Without padding an integer is written as usual. -/
theorem ofList_written_zero (n : Int) : String.ofList (written 0 n) = toString n := by
  have hdigits (n : Nat) : zeroPadded 0 n = n.repr.toList := by
    rw [zeroPadded, List.leftpad, Nat.zero_sub, List.replicate_zero, List.nil_append, Nat.toList_repr]
  unfold written
  rw [Nat.zero_sub, hdigits]
  cases n with
  | ofNat n => exact String.ofList_toList
  | negSucc n =>
    rw [if_pos (Int.negSucc_lt_zero n)]
    apply String.toList_inj.1
    change _ = ("-" ++ (n + 1).repr).toList
    rw [String.toList_ofList, String.toList_append]
    rfl

theorem le_length_zeroPadded (width n : Nat) : width ≤ (zeroPadded width n).length := by
  rw [zeroPadded, List.length_leftpad]
  exact Nat.le_max_left ..

/-- What fits is padded to just the width. -/
theorem length_written {k : Nat} {n : Int} (hk : 0 < k) (hn : FitsIn k n) :
    (written k n).length = k := by
  apply Nat.le_antisymm (length_written_le (Nat.le_refl k) hk hn)
  unfold written
  split
  · have hpadded := le_length_zeroPadded (k - 1) n.natAbs
    rw [List.length_cons]
    omega
  · exact le_length_zeroPadded k n.natAbs

/-- A numeral has a zero in front that its value does not need. -/
def Numeral.HasSpareZero (n : Numeral) : Prop := ∃ d ds, n.digits = '0' :: d :: ds

theorem Numeral.isPadded_text (n : Numeral) : isPadded n.text = true ↔ n.HasSpareZero := by
  obtain ⟨d, ds, hd, hne⟩ := n.digits_cons
  have hdigits : n.text.dropWhile (· = '-') = n.digits := by
    rw [text, hd]
    cases n.isNegative <;> simp [hne]
  unfold isPadded HasSpareZero
  rw [hdigits]
  constructor
  · intro h
    split at h
    · rename_i heq
      exact ⟨_, _, heq⟩
    · cases h
  · rintro ⟨d, ds, h⟩
    rw [h]
    rfl

/-! ## Machine words -/

/-- A number that 64 bits hold. -/
def word? (n : Nat) : Option Nat := if n < 2 ^ 64 then some n else none

/-- An integer that 128 bits with a sign hold. -/
def wide? (n : Int) : Option Int := if -2 ^ 127 ≤ n ∧ n < 2 ^ 127 then some n else none

theorem word?_of_lt {n : Nat} (h : n < 2 ^ 64) : word? n = some n := if_pos h

theorem wide?_of_between {n : Int} (h : -2 ^ 127 ≤ n ∧ n < 2 ^ 127) : wide? n = some n := if_pos h

namespace NumberSet

/-- The distance of neighbouring values. -/
def gap (s : NumberSet) : Nat := Brace.stride s.stride

/-- How often the gap fits between the ends. -/
def steps (s : NumberSet) : Nat := (s.first.value - s.last.value).natAbs / s.gap

/-- The value that is a number of steps away from the first end, towards the last. -/
def value (s : NumberSet) (k : Nat) : Int :=
  if s.first.value ≤ s.last.value then s.first.value + k * s.gap else s.first.value - k * s.gap

/-- The value some steps away from the first end, computed in machine words: distances, counts and
offsets have 64 bits, the sums 128 with a sign. There is none if a step wraps, divides by zero or finds
more values than the limit. -/
def wordValue? (s : NumberSet) (limit k : Nat) : Option Int := do
  let distance ← word? (s.first.value - s.last.value).natAbs
  let gap ← word? s.gap
  guard (gap ≠ 0)
  guard (distance / gap < limit)
  let count ← word? (distance / gap + 1)
  guard (k < count)
  let offset ← word? (k * gap)
  let signed ← wide? ((if s.first.value ≤ s.last.value then 1 else -1) * offset)
  wide? (s.first.value + signed)

theorem gap_pos (s : NumberSet) : 0 < s.gap := by
  unfold gap Brace.stride
  cases s.stride with
  | none => exact Nat.one_pos
  | some n => exact Nat.le_max_right ..

/-- The distance between neighbours is the size of an integer of 64 bits with a sign, or one. -/
theorem gap_le (s : NumberSet) : s.gap ≤ 2 ^ 63 := by
  unfold gap Brace.stride
  cases s.stride with
  | none => decide
  | some n =>
    have hfits : -2 ^ 63 ≤ n.value ∧ n.value ≤ 2 ^ 63 - 1 := n.fits
    apply Nat.max_le.2
    omega

theorem mul_gap_le {s : NumberSet} {k : Nat} (hk : k ≤ s.steps) :
    k * s.gap ≤ (s.first.value - s.last.value).natAbs := Nat.mul_le_of_le_div _ _ _ hk

/-- No value is beyond the ends. -/
theorem value_between {s : NumberSet} {k : Nat} (hk : k ≤ s.steps) :
    min s.first.value s.last.value ≤ s.value k ∧ s.value k ≤ max s.first.value s.last.value := by
  have hle := mul_gap_le hk
  unfold value
  split <;> omega

theorem value_fits {s : NumberSet} {k : Nat} (hk : k ≤ s.steps) :
    Int64.minValue.toInt ≤ s.value k ∧ s.value k ≤ Int64.maxValue.toInt := by
  obtain ⟨hlow, hhigh⟩ := value_between hk
  have hfirst := s.first.fits
  have hlast := s.last.fits
  exact ⟨Int.le_trans (Int.le_min.2 ⟨hfirst.1, hlast.1⟩) hlow,
    Int.le_trans hhigh (Int.max_le.2 ⟨hfirst.2, hlast.2⟩)⟩

/-- No step of the computation wraps. -/
theorem wordValue?_eq {s : NumberSet} {limit k : Nat} (hlimit : s.steps < limit)
    (hword : limit < 2 ^ 64) (hk : k ≤ s.steps) : s.wordValue? limit k = some (s.value k) := by
  have hfirst : -2 ^ 63 ≤ s.first.value ∧ s.first.value ≤ 2 ^ 63 - 1 := s.first.fits
  have hlast : -2 ^ 63 ≤ s.last.value ∧ s.last.value ≤ 2 ^ 63 - 1 := s.last.fits
  have hgap := s.gap_le
  have hoffset := mul_gap_le hk
  have hvalue : s.first.value + (if s.first.value ≤ s.last.value then 1 else -1) * (k * s.gap : Nat) =
      s.value k := by
    unfold value
    split <;> push_cast <;> ring
  have hbetween := value_between hk
  have hdistance := word?_of_lt (n := (s.first.value - s.last.value).natAbs) (by omega)
  have hcount := word?_of_lt (n := s.steps + 1) (by omega)
  have hproduct := word?_of_lt (n := k * s.gap) (by omega)
  have hsigned := wide?_of_between
    (n := (if s.first.value ≤ s.last.value then 1 else -1) * (k * s.gap : Nat)) (by split <;> omega)
  have hsum := wide?_of_between (n := s.value k) (by omega)
  unfold steps at hcount hlimit hk
  simp only [wordValue?, hdistance, word?_of_lt (Nat.lt_of_le_of_lt hgap (by decide)), hcount, hproduct,
    hsigned, hvalue, hsum, guard, Option.bind_eq_bind, Option.bind_some, if_pos s.gap_pos.ne',
    if_pos hlimit, if_pos (Nat.lt_succ_of_le hk)]
  rfl

theorem width_pos (s : NumberSet) : 0 < max s.first.text.length s.last.text.length :=
  Nat.lt_of_lt_of_le s.first.length_text_pos (Nat.le_max_left ..)

/-- Every value fits where the longer end does. -/
theorem fitsIn_value {s : NumberSet} {k : Nat} (hk : k ≤ s.steps) :
    FitsIn (max s.first.text.length s.last.text.length) (s.value k) := by
  have hbetween := value_between hk
  apply (s.first.fitsIn.mono (Nat.le_max_left ..)).between (s.last.fitsIn.mono (Nat.le_max_right ..))
  omega

/-- The room for each value, if an end has a zero to spare. -/
theorem width_of_spareZero {s : NumberSet} (h : s.first.HasSpareZero ∨ s.last.HasSpareZero) :
    s.width = max s.first.text.length s.last.text.length := by
  rw [← Numeral.isPadded_text, ← Numeral.isPadded_text, ← Bool.or_eq_true] at h
  exact if_pos h

theorem width_of_plain {s : NumberSet} (h : ¬ (s.first.HasSpareZero ∨ s.last.HasSpareZero)) :
    s.width = 0 := by
  rw [← Numeral.isPadded_text, ← Numeral.isPadded_text, ← Bool.or_eq_true] at h
  exact if_neg h

theorem values_eq (s : NumberSet) :
    s.values = (List.range (s.steps + 1)).map fun k => written s.width (s.value k) := by
  rw [← s.values_range]
  rfl

/-- A range between braces stands for its values and for nothing else. -/
theorem patterns_text (s : NumberSet) : patterns (String.ofList (Tree.numbers s).text) =
    (List.range (s.steps + 1)).map fun k => String.ofList (written s.width (s.value k)) := by
  have hall := (Tree.numbers s).expansions_text []
  have hempty : expansions [] = [[]] := expansions_of_none rfl
  rw [List.append_nil, hempty, product_nil_right, Tree.values, values_eq] at hall
  rw [patterns, String.toList_ofList, hall, List.map_map]
  rfl

/-- A range of integers of 64 bits is exact up to their edges. Under every limit above the number of its
steps it expands to one value more than that, of which the `k`-th is `k` strides away from the first end
towards the last and not beyond it; none of the machine words of the computation wraps; and the values
all have the length of the longer end if an end has a zero to spare in front, and are plain decimals
otherwise. -/
theorem expand?_steps (s : NumberSet) (limit : Nat) (h : s.steps < limit) :
    ∃ vs, expand? limit (String.ofList (Tree.numbers s).text) = some vs ∧
      vs.length = s.steps + 1 ∧
      (limit < 2 ^ 64 → ∀ k ≤ s.steps, s.wordValue? limit k = some (s.value k)) ∧
      ∀ (k : Nat) (hk : k < vs.length),
        value? vs[k].toList = some (s.value k) ∧
        min s.first.value s.last.value ≤ s.value k ∧ s.value k ≤ max s.first.value s.last.value ∧
        (s.first.HasSpareZero ∨ s.last.HasSpareZero →
          vs[k].length = max s.first.text.length s.last.text.length) ∧
        (¬ (s.first.HasSpareZero ∨ s.last.HasSpareZero) → vs[k] = toString (s.value k)) := by
  have hlength : (patterns (String.ofList (Tree.numbers s).text)).length = s.steps + 1 := by
    rw [patterns_text, List.length_map, List.length_range]
  refine ⟨patterns (String.ofList (Tree.numbers s).text), ?_, hlength,
    fun hword k hk => wordValue?_eq h hword hk, fun k hk => ?_⟩
  · rw [expand?_eq, hlength, if_pos (Nat.succ_le_of_lt h)]
  · have hk : k ≤ s.steps := Nat.le_of_lt_succ (by rwa [hlength] at hk)
    obtain ⟨hlow, hhigh⟩ := value_between hk
    simp only [patterns_text, List.getElem_map, List.getElem_range, String.toList_ofList,
      String.length_ofList]
    refine ⟨value?_written _ (value_fits hk), hlow, hhigh, fun hspare => ?_, fun hplain => ?_⟩
    · rw [width_of_spareZero hspare]
      exact length_written s.width_pos (fitsIn_value hk)
    · rw [width_of_plain hplain]
      exact ofList_written_zero _

/-- From the least to the greatest integer of 64 bits, at the largest stride there is. -/
def widest : NumberSet where
  first := ⟨true, ['9', '2', '2', '3', '3', '7', '2', '0', '3', '6', '8', '5', '4', '7', '7', '5', '8',
    '0', '8'], by decide, by decide, by decide⟩
  last := ⟨false, ['0', '9', '2', '2', '3', '3', '7', '2', '0', '3', '6', '8', '5', '4', '7', '7', '5',
    '8', '0', '7'], by decide, by decide, by decide⟩
  stride := some ⟨true, ['9', '2', '2', '3', '3', '7', '2', '0', '3', '6', '8', '5', '4', '7', '7', '5',
    '8', '0', '8'], by decide, by decide, by decide⟩

theorem expand?_widest : widest.steps < 2 ∧
    ∃ v w, expand? 2 "{-9223372036854775808..09223372036854775807..-9223372036854775808}" = some [v, w] ∧
      v.length = 20 ∧ value? v.toList = some (-9223372036854775808) ∧
      w.length = 20 ∧ value? w.toList = some 0 ∧ widest.wordValue? 2 1 = some 0 := by
  have htext : String.ofList (Tree.numbers widest).text =
      "{-9223372036854775808..09223372036854775807..-9223372036854775808}" := by cbv
  have hsteps : widest.steps = 1 := by decide +kernel
  have hspare : widest.first.HasSpareZero ∨ widest.last.HasSpareZero := .inr ⟨_, _, rfl⟩
  have hless : widest.steps < 2 := by rw [hsteps]; decide
  obtain ⟨vs, hvs, hlength, hword, hvalue⟩ := widest.expand?_steps 2 hless
  obtain ⟨v, w, rfl⟩ := List.length_eq_two.1 (hlength.trans (congrArg (· + 1) hsteps))
  rw [htext] at hvs
  obtain ⟨hv, -, -, hvwidth, -⟩ := hvalue 0 Nat.two_pos
  obtain ⟨hw, -, -, hwwidth, -⟩ := hvalue 1 Nat.one_lt_two
  exact ⟨hless, v, w, hvs, hvwidth hspare, hv, hwwidth hspare, hw, hword (by decide) 1 hsteps.ge⟩

end NumberSet
end PathGlob.Brace
