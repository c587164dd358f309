/-
Single values in YAML: what a text without quotes stands for, with a tag in front or not, and how
texts in quotes are read. A number that is not finite can be written and is no value here.
-/
import PathGlob.Config.Quoted

namespace PathGlob.Config.Yaml

/-! ## Without quotes -/

def nonFinite : List String :=
  [".inf", ".Inf", ".INF", "+.inf", "+.Inf", "+.INF", "-.inf", "-.Inf", "-.INF",
    ".nan", ".NaN", ".NAN"]

def based? (base : Nat) (cs : List Char) : Option Int := do
  let (minus, cs) := signed cs
  let digits ← cs.mapM Regex.hexValue?
  let n := withSign minus (natOfDigits base digits)
  if !cs.isEmpty && digits.all (· < base) && fitsSigned n then some n else none

/-- An integer in any of its spellings; of several signs the first must be a plus. -/
def integer? : List Char → Option Int
  | '0' :: 'x' :: cs => based? 16 cs
  | '0' :: 'o' :: cs => based? 8 cs
  | '+' :: cs => int64? cs
  | cs => int64? cs

/-- A number with a fraction or an exponent, or an integer that is too large for one. -/
def real? (cs : List Char) : Option Float := do
  let n ← Numeral.ofChars? cs
  if n.hasDigit then some n.toFloat else none

def plain? (s : String) : Option Datum :=
  if s ∈ ["", "~", "null"] then some .null
  else if s ∈ ["true", "True", "TRUE"] then some (.bool true)
  else if s ∈ ["false", "False", "FALSE"] then some (.bool false)
  else if s ∈ nonFinite then none
  else
    match integer? s.toList, real? s.toList with
    | some n, _ => some (.int n)
    | none, some x => some (.real x)
    | none, none => some (.text s)

/-- The datum that a text without quotes stands for behind a tag. A text that does not fit a tag for
a kind of data is nothing, and any other tag makes it a text. -/
def tagged? (tag : Option String) (s : String) : Option Datum :=
  match tag with
  | none => plain? s
  | some "!bool" => some (if s = "true" then .bool true else if s = "false" then .bool false else .null)
  | some "!int" => some (((int64? s.toList).map .int).getD .null)
  | some "!float" =>
    if s ∈ nonFinite then none else some (((real? s.toList).map .real).getD .null)
  | some "!null" => some .null
  | some _ => some (.text s)

/-- A key: its name, and whether it is a text; keys of different kinds differ. -/
structure Key where
  name : String
  isText : Bool
  deriving DecidableEq

/-- The key that a text without quotes stands for; there is none for nothing. -/
def Key.plain? (s : String) : Option Key :=
  match Yaml.plain? s with
  | some .null => none
  | some (.int n) => some ⟨toString n, false⟩
  | some (.bool b) => some ⟨toString b, false⟩
  | some (.text _) => some ⟨s, true⟩
  | _ => some ⟨s, false⟩

/-! ## In quotes -/

def isBlank (c : Char) : Bool := c = ' ' || c = '\t'

def signEscape? : Char → Option Char
  | '0' => some '\x00'
  | 'a' => some '\x07'
  | 'v' => some '\x0b'
  | 'e' => some '\x1b'
  | 'N' => some '\u0085'
  | '_' => some '\u00a0'
  | 'L' => some '\u2028'
  | 'P' => some '\u2029'
  | c => if c ∈ [' ', '\t', '"', '/', '\\'] then some c else letterEscape? c

/-- The character as it stands; a line end stands for a blank. -/
def unfolded (c : Char) : Option Char := some (if c = '\n' then ' ' else c)

/-- Texts in double quotes. A backslash at the end of a line joins it with the next one. -/
def style : QuoteStyle where
  escape?
    | 'x' :: rest => (hexChar? 2 rest).map fun (c, rest) => ([c], rest)
    | 'u' :: rest => (hexChar? 4 rest).map fun (c, rest) => ([c], rest)
    | 'U' :: rest => (hexChar? 8 rest).map fun (c, rest) => ([c], rest)
    | '\n' :: rest => some ([], rest.dropWhile isBlank)
    | c :: rest => (signEscape? c).map fun c => ([c], rest)
    | [] => none
  plain? := unfolded

def quotedText? : List Char → Option (String × List Char)
  | '"' :: rest => doubleQuoted? style rest
  | '\'' :: rest => (singleQuoted? true unfolded rest).map fun (s, rest) => (String.ofList s, rest)
  | _ => none

/-! ## Properties -/

def isFlowSign (c : Char) : Bool := c ∈ [',', '[', ']', '\x7b', '\x7d']

/-- What may stand in front of a value: a tag for its kind, and a name to remember it under. -/
structure Properties where
  tag : Option String := none
  anchor : Option String := none

def Properties.isEmpty (p : Properties) : Bool := p.tag.isNone && p.anchor.isNone

def isAnchorChar (c : Char) : Bool := !(isBlank c || c = '\n' || isFlowSign c)

/-- Reads at most `n` properties behind those given, each kind once. Only tags without a declared
handle are known. -/
def properties? : (n : Nat) → Properties → List Char → Option (Properties × List Char)
  | n + 1, p, '&' :: cs =>
    let (name, rest) := cs.span isAnchorChar
    if name.isEmpty || p.anchor.isSome then none
    else properties? n { p with anchor := some (String.ofList name) } (rest.dropWhile isBlank)
  | n + 1, p, '!' :: cs =>
    let (name, rest) := cs.span fun c => !isBlank c && c != '\n'
    if (name.drop 1).contains '!' || p.tag.isSome then none
    else properties? n { p with tag := some (String.ofList name) } (rest.dropWhile isBlank)
  | _, p, cs => some (p, cs)

/-! ## Remembered values -/

/-- A reading that may fail and goes by the values remembered so far, latest first. -/
abbrev Reading (α : Type) := StateT (List (String × Datum)) Option α

/-- Remembers a value under the name in front of it, if there is one. -/
def Properties.remember (p : Properties) (d : Datum) : Reading Unit :=
  match p.anchor with
  | some name => modify ((name, d) :: ·)
  | none => return

/-- The value remembered under the name behind a star. -/
def recalled? (cs : List Char) : Reading (Datum × List Char) := do
  let (name, rest) := cs.span isAnchorChar
  return (← (← get).lookup (String.ofList name), rest)

end PathGlob.Config.Yaml
