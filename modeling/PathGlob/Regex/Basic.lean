/-
Regular expressions over characters: literals, character sets, absolute anchors, alternatives,
greedy, lazy and possessive loops, and lookaround.
-/
import PathGlob.Regex.CharSet

namespace PathGlob

/-- The side on which a lookaround looks, and whether it asks for a match or for none. -/
inductive Look where
  | ahead
  | notAhead
  | behind
  | notBehind
  deriving DecidableEq, Repr

inductive Regex where
  | empty
  | char (c : Char)
  /-- One character other than a line feed. -/
  | any
  | set (s : CharSet)
  | start
  | stop
  | seq (a b : Regex)
  | alt (a b : Regex)
  /-- A capturing group; it matches as its body does. -/
  | capture (r : Regex)
  /-- At least `lo` and at most `hi` repetitions, preferring many or, when lazy, few. -/
  | loop (r : Regex) (lo : Nat) (hi : Option Nat) (isLazy : Bool)
  /-- The preferred match of the body and no other. -/
  | atomic (r : Regex)
  | look (k : Look) (r : Regex)
  deriving DecidableEq, Repr

namespace Regex

/-- Sequence in which empty texts leave no trace. -/
def append (a b : Regex) : Regex :=
  if a = .empty then b else if b = .empty then a else .seq a b

def alts : Regex → List Regex → Regex
  | r, [] => r
  | r, s :: rs => .alt r (alts s rs)

/-- A quantifier may follow anything but an empty text and a mere condition on the position. -/
def isRepeatable : Regex → Bool
  | .empty | .start | .stop | .look .. => false
  | _ => true

end Regex
end PathGlob
