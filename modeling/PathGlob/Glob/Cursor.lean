/-
A position in a pattern: what has been read, latest first, and what is left.
-/

namespace PathGlob

structure Cursor where
  behind : List Char
  rest : List Char
  deriving DecidableEq, Repr

namespace Cursor

/-- The pattern without one leading `./`. -/
def relative : List Char → List Char
  | '.' :: '/' :: cs => cs
  | cs => cs

/-- The start of a pattern, behind a leading `./`. -/
def ofPattern (pattern : String) : Cursor := ⟨[], relative pattern.toList⟩

def next? (c : Cursor) : Option (Char × Cursor) :=
  match c.rest with
  | [] => none
  | x :: xs => some (x, ⟨x :: c.behind, xs⟩)

def advance (c : Cursor) : Cursor := (c.next?.map (·.2)).getD c

/-- The character `n` places ahead; the first of them is the next one. -/
def peek (c : Cursor) (n : Nat) : Option Char := if n = 0 then none else c.rest[n - 1]?

def nextIs (c : Cursor) (x : Char) : Bool := c.peek 1 = some x

def atEnd (c : Cursor) : Bool := c.rest.isEmpty

def last (c : Cursor) : Option Char := c.behind[1]?

def beforeLast (c : Cursor) : Option Char := c.behind[2]?

def isFirst (c : Cursor) : Bool := c.behind.length = 1

/-- The position `n` characters further on, or at the end. -/
def skip (c : Cursor) (n : Nat) : Cursor := ⟨(c.rest.take n).reverse ++ c.behind, c.rest.drop n⟩

def skipRun (c : Cursor) (x : Char) : Cursor := c.skip (c.rest.takeWhile (· = x)).length

theorem next?_rest {c c' : Cursor} {x : Char} (h : c.next? = some (x, c')) : c.rest = x :: c'.rest := by
  unfold next? at h
  split at h <;> cases h
  assumption

theorem rest_skip_le (c : Cursor) (n : Nat) : (c.skip n).rest.length ≤ c.rest.length := by
  simp [skip]

end Cursor
end PathGlob
