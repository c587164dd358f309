/-
Single values in TOML: numbers, dates and times, and texts in quotes.
-/
import PathGlob.Config.Quoted

namespace PathGlob.Config.Toml

def isBlank (c : Char) : Bool := c = ' ' || c = '\t'

def skipBlanks (cs : List Char) : List Char := cs.dropWhile isBlank

/-! ## Numbers -/

/-- A number without its underscores, each of which must stand between two digits. -/
def joined? (isDigit : Char → Bool) : List Char → Option (List Char)
  | [] => some []
  | '_' :: _ => none
  | c :: '_' :: d :: cs =>
    if isDigit c && isDigit d then (joined? isDigit (d :: cs)).map (c :: ·) else none
  | c :: cs => (joined? isDigit cs).map (c :: ·)

def based? (base : Nat) (cs : List Char) : Option Datum := do
  let cs ← joined? (fun c => (Regex.hexValue? c).isSome) cs
  let digits ← cs.mapM Regex.hexValue?
  let n := natOfDigits base digits
  if !cs.isEmpty && digits.all (· < base) && fitsSigned n then some (.int n) else none

/-- An integer, which must fit into 64 bits with a sign, or a number with a fraction or an exponent,
which must be finite unless it is written as infinite. -/
def number? (cs : List Char) : Option Datum :=
  match cs with
  | '0' :: 'x' :: cs => based? 16 cs
  | '0' :: 'o' :: cs => based? 8 cs
  | '0' :: 'b' :: cs => based? 2 cs
  | cs =>
    let (minus, unsigned) := signed cs
    if unsigned = "inf".toList then some (.real (if minus then -1.0 / 0.0 else 1.0 / 0.0))
    else if unsigned = "nan".toList then some (.real (0.0 / 0.0))
    else do
      let n ← Numeral.ofChars? (← joined? Char.isDigit cs)
      if !n.isStrict then none
      else if n.isWhole then
        let i := withSign minus (natOfDecimal n.whole)
        if fitsSigned i then some (.int i) else none
      else if n.toFloat.isFinite then some (.real n.toFloat)
      else none

/-! ## Dates and times -/

/-- The number that the next `n` decimal digits denote, within bounds, and what is behind them. -/
def field? (n lo hi : Nat) (cs : List Char) : Option (Nat × List Char) :=
  let digits := cs.take n
  let value := natOfDecimal digits
  if digits.length = n && digits.all Char.isDigit && lo ≤ value && value ≤ hi then
    some (value, cs.drop n)
  else none

def behind? (sign : Char) : List Char → Option (List Char)
  | c :: cs => if c = sign then some cs else none
  | [] => none

def daysOf (year month : Nat) : Nat :=
  if month = 2 then
    if year % 4 = 0 && (year % 100 != 0 || year % 400 = 0) then 29 else 28
  else if month ∈ [4, 6, 9, 11] then 30
  else 31

def date? (cs : List Char) : Option (List Char) := do
  let (year, cs) ← field? 4 0 9999 cs
  let (month, cs) ← field? 2 1 12 (← behind? '-' cs)
  let (_, cs) ← field? 2 1 (daysOf year month) (← behind? '-' cs)
  return cs

/-- The text behind a time of day, which may have a fraction of a second. -/
def time? (cs : List Char) : Option (List Char) := do
  let (_, cs) ← field? 2 0 23 cs
  let (_, cs) ← field? 2 0 59 (← behind? ':' cs)
  let (_, cs) ← field? 2 0 60 (← behind? ':' cs)
  match cs with
  | '.' :: cs => if cs.head?.any Char.isDigit then some (cs.dropWhile Char.isDigit) else none
  | cs => some cs

def isOffset : List Char → Bool
  | [] | ['Z'] | ['z'] => true
  | '+' :: cs | '-' :: cs =>
    ((field? 2 0 23 cs).bind fun (_, cs) => (behind? ':' cs).bind (field? 2 0 59 ·)).any
      fun (_, cs) => cs.isEmpty
  | _ => false

def isDateTime (cs : List Char) : Bool :=
  match date? cs with
  | some [] => true
  | some (c :: cs) => c ∈ ['T', 't', ' '] && (time? cs).any isOffset
  | none => (time? cs).any (·.isEmpty)

/-- A value without quotes or brackets, and what is behind it. A blank may stand between a date and
a time. -/
def plain? (cs : List Char) : Option (Datum × List Char) :=
  let isPlain := fun c : Char => c.isAlphanum || c ∈ ['_', '+', '-', '.', ':']
  let (s, rest) := cs.span isPlain
  let (s, rest) := match date? s, rest with
    | some [], ' ' :: c :: more =>
      if c.isDigit then
        let (t, rest) := (c :: more).span isPlain
        (s ++ ' ' :: t, rest)
      else (s, rest)
    | _, _ => (s, rest)
  let d :=
    if s = "true".toList then some (.bool true)
    else if s = "false".toList then some (.bool false)
    else if isDateTime s then some (.text (String.ofList s))
    else number? s
  d.map (·, rest)

/-! ## Texts -/

/-- The character as it stands; a text of one line holds no line end. -/
def ofLine (c : Char) : Option Char := if c = '\n' then none else some c

def escape? : List Char → Option (List Char × List Char)
  | 'u' :: rest => (hexChar? 4 rest).map fun (c, rest) => ([c], rest)
  | 'U' :: rest => (hexChar? 8 rest).map fun (c, rest) => ([c], rest)
  | c :: rest =>
    if c ∈ ['"', '\\'] then some ([c], rest) else (letterEscape? c).map fun c => ([c], rest)
  | [] => none

def style : QuoteStyle := ⟨escape?, ofLine⟩

/-- What the signs behind a backslash stand for in a text of several lines, where a line end behind
it and all blanks and line ends that follow stand for nothing. -/
def longEscape? (cs : List Char) : Option (List Char × List Char) :=
  match skipBlanks cs with
  | '\n' :: rest => some ([], rest.dropWhile fun c => isBlank c || c = '\n')
  | _ => escape? cs

/-- Reads a text of several lines up to its three closing quotes, before which one or two more may
stand; `room` bounds its length. -/
def long? (quote : Char) : (room : Nat) → List Char → Option (List Char × List Char)
  | 0, _ | _, [] => none
  | room + 1, c :: cs =>
    if c = quote && cs.take 2 = [quote, quote] then
      let more := ((cs.drop 2).takeWhile (· = quote)).take 2
      some (more, (cs.drop 2).drop more.length)
    else if c = '\\' && quote = '"' then do
      let (s, rest) ← longEscape? cs
      let (t, rest) ← long? quote room rest
      return (s ++ t, rest)
    else do
      let (s, rest) ← long? quote room cs
      return (c :: s, rest)

def shortText? : List Char → Option (String × List Char)
  | '"' :: rest => doubleQuoted? style rest
  | '\'' :: rest => (singleQuoted? false ofLine rest).map fun (s, rest) => (String.ofList s, rest)
  | _ => none

/-- Reads a text in quotes, from its opening quotes on. A line end right behind three opening quotes
does not count. -/
def text? (cs : List Char) : Option (String × List Char) :=
  match cs with
  | '"' :: '"' :: '"' :: rest => longText? '"' rest
  | '\'' :: '\'' :: '\'' :: rest => longText? '\'' rest
  | _ => shortText? cs
where
  longText? (quote : Char) (cs : List Char) : Option (String × List Char) :=
    let cs := match cs with
      | '\n' :: cs => cs
      | cs => cs
    (long? quote (cs.length + 1) cs).map fun (s, rest) => (String.ofList s, rest)

/-! ## Keys -/

def keyPart? (cs : List Char) : Option (String × List Char) :=
  match shortText? cs with
  | some r => some r
  | none =>
    let (key, rest) := cs.span fun c => c.isAlphanum || c = '_' || c = '-'
    if key.isEmpty then none else some (String.ofList key, rest)

/-- Reads a key, the parts of which have dots between them, and the blanks behind it; `room` bounds
the number of its parts. -/
def key? : (room : Nat) → List Char → Option (List String × List Char)
  | 0, _ => none
  | room + 1, cs => do
    let (part, rest) ← keyPart? (skipBlanks cs)
    match skipBlanks rest with
    | '.' :: rest =>
      let (parts, rest) ← key? room rest
      return (part :: parts, rest)
    | rest => return ([part], rest)

end PathGlob.Config.Toml
