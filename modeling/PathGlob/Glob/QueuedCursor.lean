/-
A position in a pattern that comes from a source one character at a time. Characters that are looked at
before their turn wait in a queue, and of those consumed the latest three are kept.
-/
import PathGlob.Glob.Cursor

namespace PathGlob

/-- A position in a pattern, with the characters that have been looked at but not consumed. -/
structure QueuedCursor where
  queue : List Char := []
  source : List Char
  /-- The character consumed last. -/
  current : Option Char := none
  /-- The one before it. -/
  last : Option Char := none
  /-- The one before that. -/
  beforeLast : Option Char := none
  consumed : Nat := 0
  deriving DecidableEq, Repr

namespace QueuedCursor

def ofPattern (pattern : String) : QueuedCursor := { source := Cursor.relative pattern.toList }

def consume (c : QueuedCursor) (x : Char) : QueuedCursor :=
  { c with current := some x, last := c.current, beforeLast := c.last, consumed := c.consumed + 1 }

/-- Consumes the next character, from the queue if one waits there. -/
def next? (c : QueuedCursor) : Option (Char × QueuedCursor) :=
  match c.queue, c.source with
  | x :: queue, source => some (x, { c.consume x with queue, source })
  | [], x :: source => some (x, { c.consume x with queue := [], source })
  | [], [] => none

/-- Moves characters from a source to the end of a queue until the queue holds `n` or the source is
empty. -/
def filled (n : Nat) (queue : List Char) : List Char → List Char × List Char
  | [] => (queue, [])
  | x :: source => if queue.length < n then filled n (queue ++ [x]) source else (queue, x :: source)

/-- The character `n` places ahead, which is queued if it is not yet; the first of them is the next
one. -/
def peek (c : QueuedCursor) (n : Nat) : Option Char × QueuedCursor :=
  let (queue, source) := filled n c.queue c.source
  (if n = 0 then none else queue[n - 1]?, { c with queue, source })

def nextIs (c : QueuedCursor) (x : Char) : Bool × QueuedCursor :=
  let (next, c) := c.peek 1
  (next = some x, c)

def atEnd (c : QueuedCursor) : Bool × QueuedCursor :=
  let (next, c) := c.peek 1
  (next.isNone, c)

def isFirst (c : QueuedCursor) : Bool := c.consumed = 1

/-- What is left, the queued characters first. -/
def rest (c : QueuedCursor) : List Char := c.queue ++ c.source

/-- Whether what is left begins with the given character; nothing is queued for it. -/
def restStartsWith (c : QueuedCursor) (x : Char) : Bool := c.rest.head? = some x

end QueuedCursor
end PathGlob
