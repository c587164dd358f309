/-
The command line's words, read as options, flags and positional values: the first positional value
is the pattern, the others are candidates. As long as the pattern is missing, a word with a hyphen
that is no known flag is taken for a value.
-/
import PathGlob.Settings

namespace PathGlob.CommandLine

structure Invocation where
  config : Option String := none
  dot : Bool := false
  nocase : Bool := false
  noBrace : Bool := false
  strictBrackets : Bool := false
  windows : Bool := false
  lead : Option String := none
  trail : Option String := none
  star : Option String := none
  source : Bool := false
  invert : Bool := false
  pattern : String
  candidates : List String := []
  deriving DecidableEq, Repr

def Invocation.options (v : Invocation) (s : Settings) : Options :=
  let o := s.options
  { o with
    dot := o.dot || v.dot
    nocase := o.nocase || v.nocase
    nobrace := o.nobrace || v.noBrace
    strictBrackets := o.strictBrackets || v.strictBrackets
    windows := o.windows || v.windows
    lead := v.lead
    trail := v.trail
    star := v.star }

inductive Stop where
  | help
  | version
  | missingPattern
  | unknownArgument (word : String)
  | invalidValue (argument : String)
  | repeated (argument : String)
  | needlessValue (argument : String)
  deriving DecidableEq, Repr

/-! ## Arguments -/

/-- A flag: it takes no value. -/
inductive Flag where
  | dot
  | nocase
  | noBrace
  | strictBrackets
  | windows
  | source
  | invert
  deriving DecidableEq, Repr

inductive Setting where
  | config
  | lead
  | trail
  | star
  deriving DecidableEq, Repr

inductive Argument where
  | flag (f : Flag)
  | setting (s : Setting)
  | help
  | version
  deriving DecidableEq, Repr

def Argument.ofName? : String → Option Argument
  | "dot" => some (.flag .dot)
  | "nocase" => some (.flag .nocase)
  | "no-brace" => some (.flag .noBrace)
  | "strict-brackets" => some (.flag .strictBrackets)
  | "windows" => some (.flag .windows)
  | "source" => some (.flag .source)
  | "invert" => some (.flag .invert)
  | "config" => some (.setting .config)
  | "prefix" => some (.setting .lead)
  | "suffix" => some (.setting .trail)
  | "star" => some (.setting .star)
  | "help" => some .help
  | "version" => some .version
  | _ => none

def Argument.ofLetter? : Char → Option Argument
  | 'i' => some (.flag .nocase)
  | 'v' => some (.flag .invert)
  | 'h' => some .help
  | 'V' => some .version
  | _ => none

def Flag.name : Flag → String
  | .dot => "dot"
  | .nocase => "nocase"
  | .noBrace => "no-brace"
  | .strictBrackets => "strict-brackets"
  | .windows => "windows"
  | .source => "source"
  | .invert => "invert"

def Setting.name : Setting → String
  | .config => "config"
  | .lead => "prefix"
  | .trail => "suffix"
  | .star => "star"

def Flag.mayRepeat (f : Flag) : Bool := f != .source && f != .invert

/-- Whether an option may be given more than once; its last value counts. -/
def Setting.mayRepeat (s : Setting) : Bool := s = .config

/-- Whether an option takes the next word whatever it begins with. -/
def Setting.takesHyphens (s : Setting) : Bool := s != .config

def Flag.variable? : Flag → Option String
  | .dot => some "GLOBCRAFT_DOT"
  | .nocase => some "GLOBCRAFT_NOCASE"
  | .strictBrackets => some "GLOBCRAFT_STRICT_BRACKETS"
  | .windows => some "GLOBCRAFT_WINDOWS"
  | _ => none

def configVariable : String := "GLOBCRAFT_CONFIG"

/-! ## Reading the words -/

/-- Words read so far: flags and values given, the pattern and the candidates, whether only
positional values may follow, and an option that still waits for its value or whose value has not
been looked at. -/
structure Reading where
  flags : List Flag := []
  values : List (Setting × String) := []
  pattern : Option String := none
  candidates : List String := []
  onlyPositional : Bool := false
  waiting : Option (Setting × Option String) := none

namespace Reading

/-- Gives an option its value. A configuration file needs a name. -/
def give (r : Reading) (s : Setting) (value : Option String) : Except Stop Reading :=
  match value with
  | none => .error (.invalidValue s.name)
  | some v =>
    if r.values.any (·.1 = s) && !s.mayRepeat then .error (.repeated s.name)
    else if s = .config && v.isEmpty then .error (.invalidValue s.name)
    else .ok { r with values := (s, v) :: r.values.filter (·.1 != s) }

/-- Looks at the option that waits. -/
def settle (r : Reading) : Except Stop Reading :=
  match r.waiting with
  | none => .ok r
  | some (s, value) => give { r with waiting := none } s value

def take (r : Reading) (a : Argument) (attached : Option String) : Except Stop Reading :=
  match a, attached with
  | .flag f, some _ => .error (.needlessValue f.name)
  | .help, some _ => .error (.needlessValue "help")
  | .version, some _ => .error (.needlessValue "version")
  | .flag f, none => do
    let r ← r.settle
    if f ∈ r.flags && !f.mayRepeat then .error (.repeated f.name)
    else return { r with flags := f :: r.flags }
  | .help, none => do
    let _ ← r.settle
    .error .help
  | .version, none => do
    let _ ← r.settle
    .error .version
  | .setting s, none => do
    let r ← r.settle
    return { r with waiting := some (s, none) }
  | .setting s, some v => do
    let r ← r.settle
    r.give s (some v)

def positional (r : Reading) (word : String) : Except Stop Reading := do
  let r ← r.settle
  match r.pattern with
  | none => return { r with pattern := some word }
  | some _ => return { r with candidates := r.candidates ++ [word] }

/-- Takes a word that is no known argument: the value of an option that waits, else a positional
value. -/
def value (r : Reading) (word : String) : Except Stop Reading :=
  match r.waiting with
  | some (s, none) => .ok { r with waiting := some (s, some word) }
  | _ => r.positional word

def letters (r : Reading) (word : String) : List Char → Except Stop Reading
  | [] => .ok r
  | c :: cs =>
    match Argument.ofLetter? c with
    | some a => do (← r.take a none).letters word cs
    | none => .error (.unknownArgument word)

/-- A long argument's name, and the value attached to it with an equals sign. -/
def named (cs : List Char) : String × Option String :=
  match cs.dropWhile (· != '=') with
  | _ :: value => (String.ofList (cs.takeWhile (· != '=')), some (String.ofList value))
  | [] => (String.ofList cs, none)

def word (r : Reading) (w : String) : Except Stop Reading :=
  let isOptionValue := match r.waiting with
    | some (s, none) => s.takesHyphens
    | _ => false
  if r.onlyPositional then r.positional w
  else if isOptionValue then r.value w
  else
    match w.toList with
    | ['-', '-'] => .ok { r with onlyPositional := true }
    | '-' :: '-' :: cs =>
      let (name, attached) := named cs
      match Argument.ofName? name with
      | some a => r.take a attached
      | none => if r.pattern.isNone then r.value w else .error (.unknownArgument w)
    | '-' :: c :: cs =>
      if r.pattern.isNone && (c :: cs).any (Argument.ofLetter? · |>.isNone) then r.value w
      else r.letters w (c :: cs)
    | _ => r.value w

/-- Adds what the environment says of arguments that were not given: a flag is `true` or `false`. -/
def withEnvironment (r : Reading) (environment : String → Option String) :
    Except Stop Reading := do
  let r ← match environment configVariable with
    | some v => if r.values.any (·.1 = .config) then pure r else r.give .config (some v)
    | none => pure r
  [Flag.dot, .nocase, .strictBrackets, .windows].foldlM (fun r f =>
    match f.variable?.bind environment with
    | some v =>
      if f ∈ r.flags || v = "false" then .ok r
      else if v = "true" then .ok { r with flags := f :: r.flags }
      else .error (.invalidValue f.name)
    | none => .ok r) r

/-- What was asked for, once all words are read; there must be a pattern. -/
def finish (r : Reading) : Except Stop Invocation :=
  match r.pattern with
  | none => .error .missingPattern
  | some pattern =>
    .ok {
      config := r.values.lookup .config
      dot := .dot ∈ r.flags
      nocase := .nocase ∈ r.flags
      noBrace := .noBrace ∈ r.flags
      strictBrackets := .strictBrackets ∈ r.flags
      windows := .windows ∈ r.flags
      lead := r.values.lookup .lead
      trail := r.values.lookup .trail
      star := r.values.lookup .star
      source := .source ∈ r.flags
      invert := .invert ∈ r.flags
      pattern
      candidates := r.candidates }

end Reading

def Invocation.ofWords (environment : String → Option String) (words : List String) :
    Except Stop Invocation := do
  let r ← words.foldlM Reading.word {}
  let r ← r.settle
  let r ← r.withEnvironment environment
  r.finish

end PathGlob.CommandLine
