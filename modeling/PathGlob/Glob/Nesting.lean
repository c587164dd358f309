/-
The delimiters open at a place in a pattern. Parentheses, angles, braces and brackets are frames on
one stack; quotes are kept apart and never count towards the depth. A tally by kind answers at once
whether a kind is open.
-/
import PathGlob.Glob.Delimiter

namespace PathGlob

/-- An open delimiter: the regular expression text written since it was opened and, for a bracket
expression, the pattern's own characters with their escapes resolved. -/
structure Frame where
  delimiter : Delimiter
  opener : Char
  text : String := ""
  raw : String := ""
  deriving DecidableEq, Repr

structure Tally where
  paren : Nat := 0
  angle : Nat := 0
  brace : Nat := 0
  bracket : Nat := 0
  quote : Nat := 0
  deriving DecidableEq, Repr

namespace Tally

def get (t : Tally) : Delimiter → Nat
  | .paren => t.paren
  | .angle => t.angle
  | .brace => t.brace
  | .bracket => t.bracket
  | .quote => t.quote

def modify (t : Tally) (f : Nat → Nat) : Delimiter → Tally
  | .paren => { t with paren := f t.paren }
  | .angle => { t with angle := f t.angle }
  | .brace => { t with brace := f t.brace }
  | .bracket => { t with bracket := f t.bracket }
  | .quote => { t with quote := f t.quote }

def raise (t : Tally) (k : Delimiter) : Tally := t.modify (· + 1) k

def lower (t : Tally) (k : Delimiter) : Tally := t.modify (· - 1) k

theorem get_modify (t : Tally) (f : Nat → Nat) (k l : Delimiter) :
    (t.modify f k).get l = if k = l then f (t.get l) else t.get l := by
  cases k <;> cases l <;> rfl

end Tally

structure Nesting where
  frames : List Frame := []
  tally : Tally := {}
  quotes : List Frame := []
  deriving DecidableEq, Repr

namespace Nesting

def depth (n : Nesting) : Nat := n.frames.length

def isInside (n : Nesting) (k : Delimiter) : Bool := n.tally.get k != 0

def top? (n : Nesting) : Option Frame := n.frames.head?

def topKind? (n : Nesting) : Option Delimiter := n.top?.map (·.delimiter)

def push (n : Nesting) (k : Delimiter) (opener : Char) : Nesting :=
  { n with frames := ⟨k, opener, "", ""⟩ :: n.frames, tally := n.tally.raise k }

def pop (n : Nesting) (k : Delimiter) : Except MissingOpening (Frame × Nesting) :=
  match n.frames with
  | [] => .error ⟨k.opener⟩
  | f :: fs =>
    if f.delimiter = k then .ok (f, { n with frames := fs, tally := n.tally.lower k })
    else .error ⟨k.opener⟩

def modifyTop (n : Nesting) (change : Frame → Frame) : Nesting :=
  { n with frames := n.frames.modifyHead change }

def append (n : Nesting) (text : String) : Nesting :=
  n.modifyTop fun f => { f with text := f.text ++ text }

/-- Adds characters of the pattern to the innermost frame. -/
def note (n : Nesting) (raw : String) : Nesting :=
  n.modifyTop fun f => { f with raw := f.raw ++ raw }

def openQuote (n : Nesting) (c : Char) : Nesting :=
  { n with quotes := ⟨.quote, c, "", ""⟩ :: n.quotes, tally := n.tally.raise .quote }

/-- Closes the innermost quote, whatever opened it. -/
def closeQuote (n : Nesting) : Option Frame × Nesting :=
  match n.quotes with
  | [] => (none, n)
  | q :: qs => (some q, { n with quotes := qs, tally := n.tally.lower .quote })

/-- Closes the innermost quote if it was opened by the same character, else opens one. -/
def toggleQuote (n : Nesting) (c : Char) : Nesting :=
  if n.quotes.head?.map (·.opener) = some c then n.closeQuote.2 else n.openQuote c

/-- The characters that opened the frames, outermost first. -/
def openers (n : Nesting) : List Char := n.frames.reverse.map (·.opener)

@[simp] theorem frames_append_length (n : Nesting) (text : String) :
    (n.append text).frames.length = n.frames.length := by
  simp [append, modifyTop]

end Nesting
end PathGlob
