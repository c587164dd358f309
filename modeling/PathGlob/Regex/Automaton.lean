/-
The automaton of an expression without lookaround: states that take one character or check the
position, and forks of which one way is tried before the other. A search that visits no state twice
at one position decides which match is preferred, also where the body of a loop can match the empty
text: a fork met again before a further character is taken leads nowhere.
-/
import PathGlob.Regex.Basic

namespace PathGlob.Regex

/-- Whether the expression is one that automata cover: without lookaround and inner preference. -/
def isPlain : Regex → Bool
  | .seq a b | .alt a b => a.isPlain && b.isPlain
  | .capture r | .loop r .. => r.isPlain
  | .atomic _ | .look .. => false
  | _ => true

/-- Whether the expression can match the empty text, conditions on the position left aside. -/
def isNullable : Regex → Bool
  | .empty | .start | .stop | .look .. => true
  | .char _ | .any | .set _ => false
  | .seq a b => a.isNullable && b.isNullable
  | .alt a b => a.isNullable || b.isNullable
  | .capture r | .atomic r => r.isNullable
  | .loop r lo _ _ => lo = 0 || r.isNullable

/-- A state of an automaton; other states are given by their numbers. -/
inductive Node where
  | accept
  /-- Takes what the expression, a single character or condition, takes. -/
  | take (r : Regex) (next : Nat)
  /-- Two ways on, the preferred one first. -/
  | fork (first second : Nat)
  deriving DecidableEq, Repr

/-- The states of an automaton. The one that accepts has the number 0. -/
abbrev Automaton := Array Node

namespace Automaton

def accepting : Automaton := #[.accept]

def loopFork (isLazy : Bool) (body out : Nat) : Node :=
  if isLazy then .fork out body else .fork body out

/-- A way to add states for a text that leads to the given state; it gives the number of the state
where that text starts. -/
abbrev Builder := Nat → Automaton → Nat × Automaton

/-- Adds a loop without upper bound: a fork behind the body leads back to it, and the body of a
loop that need not run has a fork in front. The two forks are one unless the body is nullable. -/
def addLoop (body : Builder) (lo : Nat) (isNullable isLazy : Bool) : Builder := fun next a =>
  let fork := a.size
  let (first, a) := body fork (a.push .accept)
  let a := a.set! fork (loopFork isLazy first next)
  match lo with
  | 0 => if isNullable then (a.size, a.push (loopFork isLazy first next)) else (fork, a)
  | lo + 1 => Nat.repeat (fun (q, a) => body q a) lo (first, a)

/-- Adds `n` optional runs of a body, each of which only follows the one before. -/
def addOptional (body : Builder) (isLazy : Bool) (n : Nat) : Builder := fun next a =>
  Nat.repeat (fun (q, a) =>
    let (first, a) := body q a
    (a.size, a.push (loopFork isLazy first next))) n (next, a)

def add : Regex → Builder
  | .empty, next, a => (next, a)
  | .seq r s, next, a =>
    let (q, a) := add s next a
    add r q a
  | .alt r s, next, a =>
    let (first, a) := add r next a
    let (second, a) := add s next a
    (a.size, a.push (.fork first second))
  | .capture r, next, a => add r next a
  | .loop r lo none isLazy, next, a => addLoop (add r) lo r.isNullable isLazy next a
  | .loop r lo (some hi) isLazy, next, a =>
    Nat.repeat (fun (q, a) => add r q a) lo (addOptional (add r) isLazy (hi - lo) next a)
  | r, next, a => (a.size, a.push (.take r next))

/-- Searches from the places on a stack, that is states with positions, the preferred one on top.
`visited` has a bit for each place, `width` of them for each state, set once the place is left. -/
def search (a : Automaton) (single : Regex → Nat → List Nat) (width : Nat) :
    (fuel visited : Nat) → List (Nat × Nat) → Option Nat
  | 0, _, _ | _, _, [] => none
  | fuel + 1, visited, (q, i) :: places =>
    let bit := q * width + i
    if visited.testBit bit then search a single width fuel visited places
    else
      let visited := visited ||| 1 <<< bit
      match a[q]? with
      | none => search a single width fuel visited places
      | some .accept => some i
      | some (.take r next) =>
        search a single width fuel visited ((single r i).map (next, ·) ++ places)
      | some (.fork first second) =>
        search a single width fuel visited ((first, i) :: (second, i) :: places)

end Automaton

/-- The end of the preferred match that starts at a position. `single` says what single characters
and conditions take, and `width` is the number of positions. Every place is left once and puts at
most two on the stack, which bounds the search. -/
def preferredEnd? (r : Regex) (single : Regex → Nat → List Nat) (width i : Nat) : Option Nat :=
  let (q, a) := Automaton.add r 0 Automaton.accepting
  Automaton.search a single width (2 * a.size * width + 2) 0 [(q, i)]

end PathGlob.Regex
