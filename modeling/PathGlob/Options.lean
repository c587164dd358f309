/-
The option set of a matcher, its defaults, and how it is read from a datum.
-/
import PathGlob.Config.Datum
import PathGlob.Glob.Rendering

namespace PathGlob

structure Options where
  /-- Wildcards match components that begin with a dot. -/
  dot : Bool := false
  nocase : Bool := false
  /-- Brace sets stand for themselves. -/
  nobrace : Bool := false
  /-- A pattern must close what it opens. -/
  strictBrackets : Bool := false
  /-- Backslashes in candidates are separators. -/
  windows : Bool := false
  /-- Matchers are built anew each time. -/
  nocache : Bool := false
  lead : Option String := none
  trail : Option String := none
  star : Option String := none
  /-- The greatest length of a pattern, in characters. -/
  maxLength : Nat := 65536
  /-- The greatest number of patterns that brace sets may expand to. -/
  maxExpansions : Nat := 4096
  deriving DecidableEq, Repr

namespace Options

def dialect (o : Options) : Dialect := { dot := o.dot, lead := o.lead, trail := o.trail, star := o.star }

/-! ## Reading -/

/-- The names of the options, in the order in which a list gives their values. -/
def names : List String :=
  ["dot", "nocase", "nobrace", "strict-brackets", "windows", "nocache", "prefix", "suffix", "star",
    "max-length", "max-expansions"]

/-- Sets an option by its name; the value must be of the option's kind. -/
def set? (o : Options) (name : String) (value : Datum) : Option Options :=
  match name with
  | "dot" => value.bool?.map ({ o with dot := · })
  | "nocase" => value.bool?.map ({ o with nocase := · })
  | "nobrace" => value.bool?.map ({ o with nobrace := · })
  | "strict-brackets" => value.bool?.map ({ o with strictBrackets := · })
  | "windows" => value.bool?.map ({ o with windows := · })
  | "nocache" => value.bool?.map ({ o with nocache := · })
  | "prefix" => value.optionalText?.map ({ o with lead := · })
  | "suffix" => value.optionalText?.map ({ o with trail := · })
  | "star" => value.optionalText?.map ({ o with star := · })
  | "max-length" => value.size?.map ({ o with maxLength := · })
  | "max-expansions" => value.size?.map ({ o with maxExpansions := · })
  | _ => some o

/-- Reads an option set: a map from names to values, of which unknown ones are passed over, or a list
of values for the first options. -/
def ofDatum? : Datum → Option Options
  | .map fields => fields.foldlM (fun o (name, value) => o.set? name value) {}
  | .list values =>
    if values.length ≤ names.length then
      (names.zip values).foldlM (fun o (name, value) => o.set? name value) {}
    else none
  | _ => none

end Options
end PathGlob
