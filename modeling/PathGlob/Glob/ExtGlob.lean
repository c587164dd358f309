/-
Extended groups: a sigil before a parenthesis says how often the group may match, or that it must
not. Each has a text that opens and one that closes its regular expression.
-/

namespace PathGlob

/-- An extended group, named for what it asks of its alternatives. -/
inductive ExtGlob where
  | negate
  | zeroOrMore
  | oneOrMore
  | zeroOrOne
  | exactlyOne
  deriving DecidableEq, Repr

namespace ExtGlob

def ofSigil? : Char → Option ExtGlob
  | '!' => some .negate
  | '*' => some .zeroOrMore
  | '+' => some .oneOrMore
  | '?' => some .zeroOrOne
  | '@' => some .exactlyOne
  | _ => none

def sigil : ExtGlob → Char
  | .negate => '!'
  | .zeroOrMore => '*'
  | .oneOrMore => '+'
  | .zeroOrOne => '?'
  | .exactlyOne => '@'

def opening : ExtGlob → String
  | .negate => "(?:(?!(?:"
  | _ => "(?:"

/-- What stands for the closing parenthesis. A negated group excludes its alternatives, up to the
end of the text if nothing follows it in the pattern, and then takes what `star` takes. -/
def closing (g : ExtGlob) (atEnd : Bool) (star : String) : String :=
  match g with
  | .negate => ")" ++ (if atEnd then "$" else "") ++ ")" ++ star ++ ")"
  | .zeroOrMore | .oneOrMore | .zeroOrOne => ")" ++ String.singleton g.sigil
  | .exactlyOne => ")"

/-- A group that must match exactly once counts as a plain capture. -/
def isCapture (g : ExtGlob) : Bool := g = .exactlyOne

theorem ofSigil?_sigil (g : ExtGlob) : ofSigil? g.sigil = some g := by
  cases g <;> rfl

/-! ## Announced groups -/

/-- The groups announced by a sigil and not yet closed, latest first. -/
structure Pending where
  groups : List ExtGlob := []
  deriving DecidableEq, Repr

def Pending.push (p : Pending) (g : ExtGlob) : Pending := ⟨g :: p.groups⟩

def Pending.pop (p : Pending) : Option ExtGlob × Pending := (p.groups.head?, ⟨p.groups.tail⟩)

def Pending.last? (p : Pending) : Option ExtGlob := p.groups.head?

end ExtGlob
end PathGlob
