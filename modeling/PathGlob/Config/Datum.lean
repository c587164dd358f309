/-
Data as configuration documents hold them.
-/

namespace PathGlob

inductive Datum where
  | null
  | bool (b : Bool)
  | int (n : Int)
  | real (x : Float)
  | text (s : String)
  | list (ds : List Datum)
  | map (fields : List (String × Datum))
  deriving Inhabited

namespace Datum

/-- The number of sizes: they are unsigned with 64 bits. -/
def sizeBound : Nat := UInt64.size

/-! ## Exact readings -/

def bool? : Datum → Option Bool
  | bool b => some b
  | _ => none

def optionalText? : Datum → Option (Option String)
  | null => some none
  | text s => some (some s)
  | _ => none

def size? : Datum → Option Nat
  | int n => if 0 ≤ n ∧ n < sizeBound then some n.toNat else none
  | _ => none

/-! ## Lenient readings -/

def lowered (s : String) : String := s.map Char.toLower

/-- A truth value, also given as a number, which is false if zero, or as a word. -/
def toBool? : Datum → Option Bool
  | bool b => some b
  | int n => some (n != 0)
  | real x => some (x != 0)
  | text s =>
    if lowered s ∈ ["1", "true", "on", "yes"] then some true
    else if lowered s ∈ ["0", "false", "off", "no"] then some false
    else none
  | _ => none

def digits? (cs : List Char) : Option Nat :=
  if cs.isEmpty || !cs.all Char.isDigit then none
  else
    let n := cs.foldl (fun n c => 10 * n + (c.toNat - '0'.toNat)) 0
    if n < sizeBound then some n else none

/-- A size, also given as a truth value, a number with a fraction, which is rounded, or a word. -/
def toSize? : Datum → Option Nat
  | bool b => some b.toNat
  | int n => (int n).size?
  | real x => some x.round.toUInt64.toNat
  | text s =>
    if lowered s ∈ ["true", "on", "yes"] then some 1
    else if lowered s ∈ ["false", "off", "no"] then some 0
    else
      match s.toList with
      | '+' :: cs => digits? cs
      | cs => digits? cs
  | _ => none

end Datum
end PathGlob
