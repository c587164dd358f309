/-
Configuration documents: their format goes by the ending of the file's name.
-/
import PathGlob.Config.Json
import PathGlob.Config.Toml
import PathGlob.Config.Yaml

namespace PathGlob.Config

inductive Format where
  | json
  | toml
  | yaml
  deriving DecidableEq, Repr

def Format.ofPath? (path : String) : Option Format :=
  let ending := (path.toList.reverse.takeWhile fun c => c != '.' && c != '/').reverse
  if path.toList.all (· != '.') then none
  else if ending = "json".toList then some .json
  else if ending = "toml".toList then some .toml
  else if ending = "yaml".toList ∨ ending = "yml".toList then some .yaml
  else none

/-- A text without the mark that may stand at the start of a file to tell its encoding. -/
def unmarked (text : String) : String :=
  match text.toList with
  | '\ufeff' :: cs => String.ofList cs
  | _ => text

/-! ## Names that lead into a field -/

/-- Where the reading of a path is: before or in a name, before, behind the sign of or in an index,
or behind an index. -/
inductive PathPoint where
  | beforeName
  | inName
  | beforeIndex
  | behindSign
  | inIndex
  | behindIndex
  deriving DecidableEq, Repr

namespace PathPoint

def isNameChar (c : Char) : Bool := c.isAlphanum || c = '_' || c = '-'

def next? (p : PathPoint) (c : Char) : Option PathPoint :=
  match p, c with
  | .inName, '.' | .behindIndex, '.' => some .beforeName
  | .inName, '[' | .behindIndex, '[' => some .beforeIndex
  | .beforeIndex, '-' => some .behindSign
  | .inIndex, ']' => some .behindIndex
  | .beforeName, c | .inName, c => if isNameChar c then some .inName else none
  | .beforeIndex, c | .behindSign, c | .inIndex, c => if c.isDigit then some .inIndex else none
  | .behindIndex, _ => none

def isEnd : PathPoint → Bool
  | inName | behindIndex => true
  | _ => false

end PathPoint

/-- Whether a text is a path: names set off by points, with indices in brackets behind them. -/
def isPath (text : String) : Bool :=
  (text.toList.foldlM PathPoint.next? .beforeName).any PathPoint.isEnd

/-- A field, or for one whose name is a path into a field, such as `a.b` or `a[0]`, the field that
the path leads into. That one is a map or a list, so none of the kinds that settings have; what
stands in it does not matter. -/
def outermost (field : String × Datum) : String × Datum :=
  let root := String.ofList (field.1.toList.takeWhile PathPoint.isNameChar)
  if root ≠ field.1 ∧ isPath field.1 then (root, .map []) else field

/-! ## Fields -/

/-- The fields of a document, which must be a map. -/
def fields? (f : Format) (text : String) : Option (List (String × Datum)) :=
  let text := unmarked text
  let fields :=
    match f with
    | .json =>
      match Json.ofText? text with
      | some (.map fields) => some fields
      | _ => none
    | .toml => Toml.ofText? text
    | .yaml => Yaml.ofText? text
  fields.map (·.map outermost)

end PathGlob.Config
