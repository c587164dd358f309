/-
Numbers in configuration documents.
-/
import PathGlob.Config.Datum

namespace PathGlob.Config

def natOfDigits (base : Nat) (digits : List Nat) : Nat := digits.foldl (fun n d => base * n + d) 0

def natOfDecimal (cs : List Char) : Nat := natOfDigits 10 (cs.map fun c => c.toNat - '0'.toNat)

def isDecimal (cs : List Char) : Bool := !cs.isEmpty && cs.all Char.isDigit

/-- A number without its sign, and whether the sign is a minus. -/
def signed : List Char → Bool × List Char
  | '-' :: cs => (true, cs)
  | '+' :: cs => (false, cs)
  | cs => (false, cs)

def fitsSigned (n : Int) : Bool := Int64.minValue.toInt ≤ n && n ≤ Int64.maxValue.toInt

def withSign (minus : Bool) (n : Nat) : Int := if minus then -(n : Int) else n

def int64? (cs : List Char) : Option Int :=
  let (minus, digits) := signed cs
  let n := withSign minus (natOfDecimal digits)
  if isDecimal digits && fitsSigned n then some n else none

/-! ## Numerals -/

/-- A decimal numeral: an optional sign, digits, and a fraction and an exponent if their marks are
there. -/
structure Numeral where
  sign : Option Char
  whole : List Char
  fraction : Option (List Char)
  exponent : Option (List Char)

namespace Numeral

/-- The parts of a text; what is behind the mark of the exponent is all taken for it. -/
def ofChars? (cs : List Char) : Option Numeral :=
  let (sign, cs) := match cs with
    | '-' :: cs => (some '-', cs)
    | '+' :: cs => (some '+', cs)
    | cs => (none, cs)
  let whole := cs.takeWhile Char.isDigit
  let (fraction, cs) := match cs.dropWhile Char.isDigit with
    | '.' :: cs => (some (cs.takeWhile Char.isDigit), cs.dropWhile Char.isDigit)
    | cs => (none, cs)
  match cs with
  | [] => some ⟨sign, whole, fraction, none⟩
  | 'e' :: cs | 'E' :: cs =>
    if isDecimal (signed cs).2 then some ⟨sign, whole, fraction, some cs⟩ else none
  | _ => none

def hasDigit (n : Numeral) : Bool := !n.whole.isEmpty || n.fraction.any (!·.isEmpty)

/-- Whether digits stand on both sides of the point, with no needless zero in front. -/
def isStrict (n : Numeral) : Bool :=
  n.fraction.all (!·.isEmpty) &&
    match n.whole with
    | [] => false
    | '0' :: _ :: _ => false
    | _ => true

/-- Whether there is neither a fraction nor an exponent. -/
def isWhole (n : Numeral) : Bool := n.fraction.isNone && n.exponent.isNone

def toFloat (n : Numeral) : Float :=
  let fraction := n.fraction.getD []
  let (minus, digits) := signed (n.exponent.getD [])
  let e := withSign minus (natOfDecimal digits) - fraction.length
  let e := max (-5000) (min 5000 e)
  let x := Float.ofScientific (natOfDecimal (n.whole ++ fraction)) (e < 0) e.natAbs
  if n.sign = some '-' then -x else x

end Numeral
end PathGlob.Config
