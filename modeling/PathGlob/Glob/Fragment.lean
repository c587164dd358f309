/-
The regular expression texts that the parts of a glob stand for, and the escaping of characters
that stand for themselves.
-/

namespace PathGlob.Fragment

/-! ## Wildcards and separators -/

def qmark : String := "[^/]"

/-- `?` at the start of a component: no dot either. -/
def qmarkNoDot : String := "[^./]"

/-- `*`: any characters of one component. -/
def star : String := "[^/]*?"

/-- No dot may follow; or, where dots are allowed, no component `.` or `..`. -/
def dotGuard (dots : Bool) : String := if dots then "(?!\\.\x7b1,2\x7d(?:$|\\/))" else "(?!\\.)"

/-- `**`: any text without a component that begins with a dot; or, where dots are allowed, without
a component `.` or `..`. -/
def globstar (dots : Bool) : String :=
  if dots then "(?:(?!(?:\\/|^)\\.\x7b1,2\x7d(?:$|\\/)).)*?" else "(?:(?!(?:\\/|^)\\.).)*?"

/-- `/`; behind a globstar it may be left out at the start or right behind another. -/
def separator (isOptional : Bool) : String :=
  if isOptional then "(?:\\/|^|(?<=\\/))" else "\\/"

/-! ## Characters that stand for themselves -/

/-- The characters with a meaning in a regular expression, and the separator. -/
def isMeta (c : Char) : Bool :=
  c ∈ ['\\', '.', '+', '*', '?', '(', ')', '|', '[', ']', '\x7b', '\x7d', '^', '$', '/']

def char (escape : Bool) (c : Char) : String :=
  if escape then "\\".push c else String.singleton c

def literal (c : Char) : String := char (isMeta c) c

/-- A member of a bracket expression that stands for itself. -/
def member (c : Char) : String := char (c ∈ ['\\', '[', ']', '^', '&', '~']) c

def literals (cs : List Char) : String := String.join (cs.map literal)

end PathGlob.Fragment
