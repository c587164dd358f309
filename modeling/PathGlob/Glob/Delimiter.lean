/-
The paired characters of a glob, and the error of closing what was never opened.
-/

namespace PathGlob

inductive Delimiter where
  | paren
  | angle
  | brace
  | bracket
  | quote
  deriving DecidableEq, Repr

namespace Delimiter

/-- The pair that a character opens; quotes are told apart elsewhere. -/
def ofOpener? : Char → Option Delimiter
  | '(' => some .paren
  | '<' => some .angle
  | '{' => some .brace
  | '[' => some .bracket
  | _ => none

def ofCloser? : Char → Option Delimiter
  | ')' => some .paren
  | '>' => some .angle
  | '}' => some .brace
  | ']' => some .bracket
  | _ => none

def opener : Delimiter → Char
  | .paren => '('
  | .angle => '<'
  | .brace => '{'
  | .bracket => '['
  | .quote => '"'

def closer : Delimiter → Char
  | .paren => ')'
  | .angle => '>'
  | .brace => '}'
  | .bracket => ']'
  | .quote => '"'

theorem ofOpener?_opener {c : Char} {k : Delimiter} (h : ofOpener? c = some k) : k.opener = c := by
  unfold ofOpener? at h
  split at h <;> cases h <;> rfl

theorem ofCloser?_closer {c : Char} {k : Delimiter} (h : ofCloser? c = some k) : k.closer = c := by
  unfold ofCloser? at h
  split at h <;> cases h <;> rfl

end Delimiter

/-- A closing character was found where nothing is open; it wanted this opening one. -/
structure MissingOpening where
  opener : Char
  deriving DecidableEq, Repr

end PathGlob
