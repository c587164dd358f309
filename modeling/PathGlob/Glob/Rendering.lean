/-
What a glob is rendered as: a regular expression, in parts, that an unanchored search uses.
-/
import PathGlob.Glob.Component

namespace PathGlob

/-- How wildcards are written: whether they match components that begin with a dot, texts that
stand behind the leading and before the trailing anchor, and one that stands for `*`. -/
structure Dialect where
  dot : Bool := false
  lead : Option String := none
  trail : Option String := none
  star : Option String := none
  deriving DecidableEq, Repr

/-- A rendered glob. The unclosed openers stand outermost first. -/
structure Rendering where
  negated : Bool
  lead : String
  trail : String
  hasGlobstar : Bool
  components : List Component
  unclosed : List Char
  deriving DecidableEq, Repr

namespace Rendering

def body (r : Rendering) : String := String.join (r.components.map (·.text))

/-- The whole regular expression. A negated glob matches what its body does not. -/
def source (r : Rendering) : String :=
  r.lead ++ (if r.negated then "(?!" ++ r.body ++ "$).*" else r.body) ++ r.trail

def isWellFormed (r : Rendering) : Bool := r.unclosed.isEmpty

end Rendering
end PathGlob
