/-
Ranges between braces: `1..10`, `01..10..3`, `a..e`. A numeric range holds its two ends, the
distance of its values and the width they are padded to; its values lie between the ends.
-/

namespace PathGlob.Brace

/-! ## Numbers -/

/-- A number's text, with its sign, at the start of a text, and what is behind it. -/
def numeral? (cs : List Char) : Option (List Char × List Char) :=
  let (sign, cs) := match cs with
    | '-' :: cs => (['-'], cs)
    | cs => ([], cs)
  let digits := cs.takeWhile Char.isDigit
  if digits.isEmpty then none else some (sign ++ digits, cs.dropWhile Char.isDigit)

def digitsValue (digits : List Char) : Nat :=
  digits.foldl (fun n c => 10 * n + (c.toNat - '0'.toNat)) 0

/-- The integer that a numeral denotes, if it fits into 64 bits with a sign. -/
def value? (numeral : List Char) : Option Int :=
  let n : Int := match numeral with
    | '-' :: digits => -(digitsValue digits : Int)
    | digits => digitsValue digits
  if Int64.minValue.toInt ≤ n ∧ n ≤ Int64.maxValue.toInt then some n else none

/-- The distance of the values of a range, read behind its ends: `..` and a numeral, the sign and
zero of which mean nothing, or nothing for one. -/
def stride? : List Char → Option Nat
  | [] => some 1
  | '.' :: '.' :: cs =>
    match numeral? cs with
    | some (numeral, []) => (value? numeral).map fun n => max n.natAbs 1
    | _ => none
  | _ => none

/-- Whether a numeral has a zero in front that its value does not need. -/
def isPadded (numeral : List Char) : Bool :=
  match numeral.dropWhile (· = '-') with
  | '0' :: _ :: _ => true
  | _ => false

def zeroPadded (width n : Nat) : List Char := (Nat.toDigits 10 n).leftpad width '0'

/-- An integer as text, padded to a width that includes its sign. -/
def written (width : Nat) (n : Int) : List Char :=
  if n < 0 then '-' :: zeroPadded (width - 1) n.natAbs else zeroPadded width n.natAbs

/-! ## Ranges -/

structure NumberRange where
  first : Int
  last : Int
  stride : Nat
  width : Nat
  deriving DecidableEq, Repr

namespace NumberRange

def ofText? (cs : List Char) : Option NumberRange :=
  match numeral? cs with
  | some (a, '.' :: '.' :: cs) =>
    match numeral? cs with
    | some (b, cs) =>
      match value? a, value? b, stride? cs with
      | some first, some last, some stride =>
        let width := if isPadded a || isPadded b then max a.length b.length else 0
        some { first, last, stride, width }
      | _, _, _ => none
    | none => none
  | _ => none

def size (r : NumberRange) : Nat := (r.first - r.last).natAbs / r.stride + 1

/-- The `k`-th value, on the way from the first end to the last. -/
def value (r : NumberRange) (k : Nat) : Int :=
  if r.first ≤ r.last then r.first + (k * r.stride : Nat) else r.first - (k * r.stride : Nat)

def values (r : NumberRange) : List (List Char) :=
  (List.range r.size).map fun k => written r.width (r.value k)

end NumberRange

structure LetterRange where
  first : Char
  last : Char
  stride : Nat
  deriving DecidableEq, Repr

namespace LetterRange

def ofText? : List Char → Option LetterRange
  | a :: '.' :: '.' :: b :: cs =>
    if a.isAlpha && b.isAlpha then (stride? cs).map fun stride => ⟨a, b, stride⟩ else none
  | _ => none

def size (r : LetterRange) : Nat :=
  ((r.first.toNat : Int) - r.last.toNat).natAbs / r.stride + 1

def value (r : LetterRange) (k : Nat) : Char :=
  Char.ofNat (if r.first.toNat ≤ r.last.toNat then r.first.toNat + k * r.stride
    else r.first.toNat - k * r.stride)

/-- The values as text; the signs between the capital and the small letters are escaped. -/
def values (r : LetterRange) : List (List Char) :=
  (List.range r.size).map fun k =>
    let c := r.value k
    if c.isAlphanum then [c] else ['\\', c]

end LetterRange
end PathGlob.Brace
