/-
Settings: defaults, over which come the user's configuration file, if there is one, and then the one
given explicitly, which must exist. Later values replace earlier ones.
-/
import PathGlob.Config.Document
import PathGlob.Failure
import PathGlob.Options

namespace PathGlob

structure Settings where
  dot : Bool := false
  nocase : Bool := false
  brace : Bool := true
  strictBrackets : Bool := false
  windows : Bool := false
  maxLength : Nat := 65536
  maxExpansions : Nat := 4096
  deriving DecidableEq, Repr

structure ConfigFile where
  path : String
  content : Option String
  deriving DecidableEq, Repr

namespace Settings

def options (s : Settings) : Options :=
  { dot := s.dot
    nocase := s.nocase
    nobrace := !s.brace
    strictBrackets := s.strictBrackets
    windows := s.windows
    maxLength := s.maxLength
    maxExpansions := s.maxExpansions }

/-- Sets what a field of a configuration file names; other fields are passed over. -/
def set? (s : Settings) (name : String) (value : Datum) : Option Settings :=
  match name with
  | "dot" => value.toBool?.map ({ s with dot := · })
  | "nocase" => value.toBool?.map ({ s with nocase := · })
  | "brace" => value.toBool?.map ({ s with brace := · })
  | "strict-brackets" => value.toBool?.map ({ s with strictBrackets := · })
  | "windows" => value.toBool?.map ({ s with windows := · })
  | "max-length" => value.toSize?.map ({ s with maxLength := · })
  | "max-expansions" => value.toSize?.map ({ s with maxExpansions := · })
  | _ => some s

/-- The fields of several layers, each name with its last value. -/
def merged (fields : List (String × Datum)) : List (String × Datum) :=
  fields.foldr (fun f later => if later.any (·.1 = f.1) then later else f :: later) []

/-- The fields of a file, which must exist and have a known format. -/
def fieldsOf? (f : ConfigFile) : Option (List (String × Datum)) := do
  Config.fields? (← Config.Format.ofPath? f.path) (← f.content)

/-- Loads settings: the user's file, in YAML, is read if it exists, and an explicit one must be
readable. A value that is replaced need not be of the right kind. -/
def load (user : Option String) (explicit : Option ConfigFile) : Except Failure Settings :=
  let fields := do
    let first ← match user with
      | some text => Config.fields? .yaml text
      | none => some []
    let second ← match explicit with
      | some f => fieldsOf? f
      | none => some []
    (merged (first ++ second)).foldlM (fun s (name, value) => set? s name value) {}
  match fields with
  | some s => .ok s
  | none => .error .badConfiguration

end Settings
end PathGlob
