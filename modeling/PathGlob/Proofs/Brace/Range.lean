/-
Ranges by what they are made of: numerals or letters at the ends and a numeral for the stride. What a
range consists of is what its text is read as, and its values are those between its ends, in order
from the first, whose distance from the first end is a multiple of the stride.
-/
import Mathlib.Data.List.TakeWhile
import PathGlob.Brace.Set

namespace PathGlob.Brace

/-! ## Plain characters -/

/-- Whether a character means nothing to brace sets. -/
def isPlain (c : Char) : Bool := c ∉ ['\\', '\x7b', '\x7d', ',']

theorem isPlain_iff {c : Char} :
    isPlain c = true ↔ c ≠ '\\' ∧ c ≠ '\x7b' ∧ c ≠ '\x7d' ∧ c ≠ ',' := by
  simp [isPlain]

theorem isPlain_of_isAlphanum {c : Char} (h : c.isAlphanum = true) : isPlain c = true := by
  rw [isPlain_iff]
  refine ⟨?_, ?_, ?_, ?_⟩
  all_goals
    rintro rfl
    exact absurd h (by decide)

theorem isAlphanum_of_isDigit {c : Char} (h : c.isDigit = true) : c.isAlphanum = true := by
  rw [Char.isAlphanum, h, Bool.or_true]

theorem isAlphanum_of_isAlpha {c : Char} (h : c.isAlpha = true) : c.isAlphanum = true := by
  rw [Char.isAlphanum, h, Bool.true_or]

theorem bounds_of_isAlpha {c : Char} (h : c.isAlpha = true) :
    'A'.toNat ≤ c.toNat ∧ c.toNat ≤ 'z'.toNat := by
  rcases Bool.or_eq_true_iff.1 h with hupper | hlower
  · have hrange : c.val ≥ 'A'.val ∧ c.val ≤ 'Z'.val := of_decide_eq_true hupper
    exact ⟨UInt32.le_iff_toNat_le.1 hrange.1,
      Nat.le_trans (UInt32.le_iff_toNat_le.1 hrange.2) (by decide)⟩
  · have hrange : decide (c.val ≥ 'a'.val) = true ∧ decide (c.val ≤ 'z'.val) = true :=
      Bool.and_eq_true_iff.1 hlower
    exact ⟨Nat.le_trans (by decide) (UInt32.le_iff_toNat_le.1 (of_decide_eq_true hrange.1)),
      UInt32.le_iff_toNat_le.1 (of_decide_eq_true hrange.2)⟩

theorem bounds_of_isDigit {c : Char} (h : c.isDigit = true) :
    '0'.toNat ≤ c.toNat ∧ c.toNat ≤ '9'.toNat := by
  have hrange : decide (c.val ≥ '0'.val) = true ∧ decide (c.val ≤ '9'.val) = true :=
    Bool.and_eq_true_iff.1 h
  exact ⟨UInt32.le_iff_toNat_le.1 (of_decide_eq_true hrange.1),
    UInt32.le_iff_toNat_le.1 (of_decide_eq_true hrange.2)⟩

theorem isDigit_of_isAlpha {c : Char} (h : c.isAlpha = true) : c.isDigit = false := by
  rw [Bool.eq_false_iff]
  intro hdigit
  have hdisjoint : '9'.toNat < 'A'.toNat := by decide
  exact absurd (Nat.le_trans (bounds_of_isAlpha h).1 (bounds_of_isDigit hdigit).2)
    (Nat.not_le_of_lt hdisjoint)

theorem isDigit_of_mem_zeroPadded {width n : Nat} {c : Char} (h : c ∈ zeroPadded width n) :
    c.isDigit = true := by
  simp only [zeroPadded, List.leftpad, List.mem_append, List.mem_replicate] at h
  rcases h with ⟨-, rfl⟩ | h
  · decide
  · exact Nat.isDigit_of_mem_toDigits (by decide) (by decide) h

/-! ## Numerals -/

theorem numeral?_unsigned {cs : List Char} (h : cs.head? ≠ some '-') : numeral? cs =
    if (cs.takeWhile Char.isDigit).isEmpty then none
    else some (cs.takeWhile Char.isDigit, cs.dropWhile Char.isDigit) := by
  rcases cs with _ | ⟨c, cs⟩
  · rfl
  · unfold numeral?
    split
    rename_i heq
    split at heq
    · rename_i hminus
      rw [hminus] at h
      exact absurd rfl h
    · cases heq
      rfl

/-- The integer of a sign and a magnitude. -/
def signed (isNegative : Bool) (n : Nat) : Int := if isNegative then -(n : Int) else n

/-- A decimal numeral, with any zeros in front, of an integer that 64 bits with a sign hold. -/
structure Numeral where
  isNegative : Bool := false
  digits : List Char
  ne_nil : digits ≠ []
  isDigit : digits.all Char.isDigit = true
  fits : Int64.minValue.toInt ≤ signed isNegative (digitsValue digits) ∧
    signed isNegative (digitsValue digits) ≤ Int64.maxValue.toInt

namespace Numeral

/-- The text of a numeral. -/
def text (n : Numeral) : List Char := (if n.isNegative then ['-'] else []) ++ n.digits

/-- The integer of a numeral. -/
def value (n : Numeral) : Int := signed n.isNegative (digitsValue n.digits)

theorem digits_cons (n : Numeral) : ∃ d ds, n.digits = d :: ds ∧ d ≠ '-' := by
  obtain ⟨d, ds, hd⟩ := List.exists_cons_of_ne_nil n.ne_nil
  refine ⟨d, ds, hd, ?_⟩
  rintro rfl
  exact absurd (List.all_eq_true.1 n.isDigit '-' (by rw [hd]; exact List.mem_cons_self)) (by decide)

theorem value?_text (n : Numeral) : value? n.text = some n.value := by
  obtain ⟨d, ds, hd, hne⟩ := n.digits_cons
  have hvalue : value? n.text =
      if Int64.minValue.toInt ≤ n.value ∧ n.value ≤ Int64.maxValue.toInt then some n.value else none := by
    unfold value? text value signed
    cases n.isNegative with
    | true => rfl
    | false =>
      simp only [Bool.false_eq_true, if_false, List.nil_append, hd]
      split
      · rename_i heq
        cases heq
        exact absurd rfl hne
      · rfl
  rw [hvalue]
  exact if_pos n.fits

/-- A numeral is read up to the first character that is no digit. -/
theorem numeral?_text (n : Numeral) (rest : List Char) (h : rest.head?.all (!·.isDigit) = true) :
    numeral? (n.text ++ rest) = some (n.text, rest) := by
  obtain ⟨d, ds, hd, hne⟩ := n.digits_cons
  have hnil : n.digits.isEmpty = false := by rw [hd]; rfl
  have hspan : (n.digits ++ rest).takeWhile Char.isDigit = n.digits ∧
      (n.digits ++ rest).dropWhile Char.isDigit = rest := by
    have hdigits := List.all_eq_true.1 n.isDigit
    rw [List.takeWhile_append_of_pos hdigits, List.dropWhile_append_of_pos hdigits]
    cases rest with
    | nil => exact ⟨List.append_nil _, rfl⟩
    | cons c cs =>
      have hc : ¬ c.isDigit = true := by simpa using h
      rw [List.takeWhile_cons_of_neg hc, List.dropWhile_cons_of_neg hc, List.append_nil]
      exact ⟨rfl, rfl⟩
  cases hs : n.isNegative with
  | true =>
    have htext : n.text = '-' :: n.digits := by unfold text; rw [hs]; rfl
    rw [htext, List.cons_append]
    unfold numeral?
    simp only [hspan.1, hspan.2, hnil]
    rfl
  | false =>
    have htext : n.text = n.digits := by unfold text; rw [hs]; rfl
    rw [htext, numeral?_unsigned (by rw [hd]; simpa using hne), hspan.1, hspan.2, hnil]
    rfl

end Numeral

/-- What is read as a numeral is plain. -/
theorem numeral?_eq {cs n rest : List Char} (h : numeral? cs = some (n, rest)) :
    cs = n ++ rest ∧ ∀ c ∈ n, isPlain c = true := by
  have hdigits (ds : List Char) : ∀ c ∈ ds.takeWhile Char.isDigit, isPlain c = true := by
    intro c hc
    exact isPlain_of_isAlphanum (isAlphanum_of_isDigit (List.mem_takeWhile_imp hc))
  by_cases hminus : cs.head? = some '-'
  · obtain ⟨ds, rfl⟩ := List.head?_eq_some_iff.1 hminus
    unfold numeral? at h
    simp only at h
    split at h
    · cases h
    · cases h
      refine ⟨by simp [List.takeWhile_append_dropWhile], ?_⟩
      intro c hc
      rcases List.mem_cons.1 hc with rfl | hc
      · decide
      · exact hdigits ds c hc
  · rw [numeral?_unsigned hminus] at h
    split at h
    · cases h
    · cases h
      exact ⟨List.takeWhile_append_dropWhile.symm, hdigits cs⟩

/-! ## Strides -/

/-- The text of a stride, which may be left out. -/
def strideText (n : Option Numeral) : List Char := (n.map fun n => '.' :: '.' :: n.text).getD []

/-- The distance of neighbouring values; the sign of a stride and a stride of zero mean nothing. -/
def stride (n : Option Numeral) : Nat := (n.map fun n => max n.value.natAbs 1).getD 1

theorem stride?_strideText (n : Option Numeral) : stride? (strideText n) = some (stride n) := by
  cases n with
  | none => rfl
  | some n =>
    have hread := n.numeral?_text [] rfl
    rw [List.append_nil] at hread
    change stride? ('.' :: '.' :: n.text) = _
    unfold stride?
    simp only [hread, n.value?_text, Option.map_some]
    rfl

theorem isPlain_of_stride? {cs : List Char} {k : Nat} (h : stride? cs = some k) :
    ∀ c ∈ cs, isPlain c = true := by
  unfold stride? at h
  split at h
  · simp
  · split at h
    · rename_i hn
      obtain ⟨hcs, hplain⟩ := numeral?_eq hn
      rw [hcs]
      intro c hc
      simp only [List.append_nil, List.mem_cons] at hc
      rcases hc with rfl | rfl | hc
      · decide
      · decide
      · exact hplain c hc
    · cases h
  · cases h

/-- The multiples of a stride up to a span, in order. -/
def distances (span stride : Nat) : List Nat := (List.range (span + 1)).filter (stride ∣ ·)

theorem distances_eq (span stride : Nat) :
    distances span stride = (List.range (span / stride + 1)).map (· * stride) := by
  unfold distances
  induction span with
  | zero => simp
  | succ n ih =>
    rw [List.range_succ, List.filter_append, ih, Nat.succ_div]
    by_cases hdvd : stride ∣ n + 1
    · have hlast : (n / stride + 1) * stride = n + 1 := by
        rw [← Nat.div_mul_cancel hdvd, Nat.succ_div, if_pos hdvd]
      rw [if_pos hdvd, List.range_succ (n := n / stride + 1), List.map_append]
      simp [hdvd, hlast]
    · rw [if_neg hdvd]
      simp [hdvd]

/-! ## Numeric ranges -/

theorem NumberRange.isPlain_of_ofText? {cs : List Char} {r : NumberRange}
    (h : ofText? cs = some r) : ∀ c ∈ cs, isPlain c = true := by
  unfold ofText? at h
  split at h
  · rename_i hfirst
    split at h
    · rename_i hlast
      split at h
      · rename_i hstride
        obtain ⟨hcs, hfirst⟩ := numeral?_eq hfirst
        obtain ⟨hds, hlast⟩ := numeral?_eq hlast
        have hstride := isPlain_of_stride? hstride
        rw [hcs, hds]
        intro c hc
        simp only [List.mem_append, List.mem_cons] at hc
        rcases hc with hc | rfl | rfl | hc | hc
        · exact hfirst c hc
        · decide
        · decide
        · exact hlast c hc
        · exact hstride c hc
      · cases h
    · cases h
  · cases h

/-- A numeric range between braces. -/
structure NumberSet where
  first : Numeral
  last : Numeral
  stride : Option Numeral := none

namespace NumberSet

/-- The text between the braces. -/
def text (s : NumberSet) : List Char := s.first.text ++ '.' :: '.' :: s.last.text ++ strideText s.stride

/-- The values are padded if one of the ends is. -/
def width (s : NumberSet) : Nat :=
  if isPadded s.first.text || isPadded s.last.text then max s.first.text.length s.last.text.length
  else 0

/-- The values, from the first end towards the last. -/
def values (s : NumberSet) : List (List Char) :=
  (distances (s.first.value - s.last.value).natAbs (Brace.stride s.stride)).map fun (k : Nat) =>
    written s.width (if s.first.value ≤ s.last.value then s.first.value + k else s.first.value - k)

/-- What the text is read as. -/
def range (s : NumberSet) : NumberRange where
  first := s.first.value
  last := s.last.value
  stride := Brace.stride s.stride
  width := s.width

theorem values_range (s : NumberSet) : s.range.values = s.values := by
  unfold NumberRange.values NumberRange.size NumberRange.value values range
  rw [distances_eq, List.map_map]
  rfl

theorem head?_strideText (n : Option Numeral) : (strideText n).head?.all (!·.isDigit) = true := by
  cases n <;> rfl

theorem ofText?_text (s : NumberSet) : NumberRange.ofText? s.text = some s.range := by
  have hfirst := s.first.numeral?_text ('.' :: '.' :: s.last.text ++ strideText s.stride) rfl
  have hlast := s.last.numeral?_text _ (head?_strideText s.stride)
  unfold NumberRange.ofText? text
  rw [List.append_assoc, hfirst]
  simp only [List.cons_append, hlast, Numeral.value?_text, stride?_strideText]
  rfl

end NumberSet

/-! ## Letter ranges -/

theorem LetterRange.isPlain_of_ofText? {cs : List Char} {r : LetterRange}
    (h : ofText? cs = some r) : ∀ c ∈ cs, isPlain c = true := by
  unfold ofText? at h
  split at h
  · split at h
    · rename_i hab
      obtain ⟨k, hk, -⟩ := Option.map_eq_some_iff.1 h
      simp only [Bool.and_eq_true] at hab
      intro c hc
      simp only [List.mem_cons] at hc
      rcases hc with rfl | rfl | rfl | rfl | hc
      · exact isPlain_of_isAlphanum (isAlphanum_of_isAlpha hab.1)
      · decide
      · decide
      · exact isPlain_of_isAlphanum (isAlphanum_of_isAlpha hab.2)
      · exact isPlain_of_stride? hk c hc
    · cases h
  · cases h

/-- A range of letters between braces. -/
structure LetterSet where
  first : Char
  last : Char
  stride : Option Numeral := none
  isAlpha : first.isAlpha = true ∧ last.isAlpha = true

namespace LetterSet

/-- The text between the braces. -/
def text (s : LetterSet) : List Char := s.first :: '.' :: '.' :: s.last :: strideText s.stride

/-- The values, from the first end towards the last; what is no letter is escaped. -/
def values (s : LetterSet) : List (List Char) :=
  (distances ((s.first.toNat : Int) - s.last.toNat).natAbs (Brace.stride s.stride)).map fun k =>
    let c := Char.ofNat
      (if s.first.toNat ≤ s.last.toNat then s.first.toNat + k else s.first.toNat - k)
    if c.isAlphanum then [c] else ['\\', c]

/-- What the text is read as. -/
def range (s : LetterSet) : LetterRange := ⟨s.first, s.last, Brace.stride s.stride⟩

theorem values_range (s : LetterSet) : s.range.values = s.values := by
  unfold LetterRange.values LetterRange.size LetterRange.value values range
  rw [distances_eq, List.map_map]
  rfl

theorem ofText?_text (s : LetterSet) : LetterRange.ofText? s.text = some s.range := by
  unfold LetterRange.ofText? text
  simp only [s.isAlpha, Bool.and_self, if_true, stride?_strideText]
  rfl

/-- A letter begins no numeral, so a range of letters is none of numbers. -/
theorem not_number (s : LetterSet) : NumberRange.ofText? s.text = none := by
  have hdigit := isDigit_of_isAlpha s.isAlpha.1
  have hminus : s.first ≠ '-' := by
    intro h
    exact absurd s.isAlpha.1 (by rw [h]; decide)
  have hnumeral : numeral? s.text = none := by
    unfold text
    rw [numeral?_unsigned (by simpa using hminus), List.takeWhile_cons_of_neg (by rw [hdigit]; decide)]
    rfl
  unfold NumberRange.ofText?
  rw [hnumeral]

end LetterSet
end PathGlob.Brace
