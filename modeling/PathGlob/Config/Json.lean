/-
Configuration documents in JSON.
-/
import PathGlob.Config.Number
import PathGlob.Config.Quoted

namespace PathGlob.Config.Json

def skipBlanks (cs : List Char) : List Char :=
  cs.dropWhile fun c => c = ' ' || c = '\t' || c = '\n' || c = '\r'

/-- The number that a text denotes: an integer if it has neither fraction nor exponent and fits into
64 bits with a sign, else the nearest double, which must be finite. -/
def number? (cs : List Char) : Option Datum := do
  let n ← Numeral.ofChars? cs
  if n.isStrict && n.sign != some '+' then
    match if n.isWhole then int64? cs else none with
    | some i => some (.int i)
    | none => if n.toFloat.isFinite then some (.real n.toFloat) else none
  else none

/-- Texts in quotes: no control characters, and escapes with one letter or four digits. -/
def style : QuoteStyle where
  escape?
    | 'u' :: rest => (pairedChar? rest).map fun (c, rest) => ([c], rest)
    | c :: rest =>
      if c ∈ ['"', '\\', '/'] then some ([c], rest)
      else (letterEscape? c).map fun c => ([c], rest)
    | [] => none
  plain? := allowing ['\x7f']

def isNumberChar (c : Char) : Bool := c.isDigit || c ∈ ['+', '-', '.', 'e', 'E']

mutual

/-- Reads a value; `room` bounds how much there is to read. -/
def value? : (room : Nat) → List Char → Option (Datum × List Char)
  | 0, _ => none
  | room + 1, cs =>
    match skipBlanks cs with
    | 'n' :: 'u' :: 'l' :: 'l' :: rest => some (.null, rest)
    | 't' :: 'r' :: 'u' :: 'e' :: rest => some (.bool true, rest)
    | 'f' :: 'a' :: 'l' :: 's' :: 'e' :: rest => some (.bool false, rest)
    | '"' :: rest => (doubleQuoted? style rest).map fun (s, rest) => (.text s, rest)
    | '[' :: rest =>
      match skipBlanks rest with
      | ']' :: rest => some (.list [], rest)
      | rest => (elements? room rest).map fun (ds, rest) => (.list ds, rest)
    | '\x7b' :: rest =>
      match skipBlanks rest with
      | '\x7d' :: rest => some (.map [], rest)
      | rest => (members? room rest).map fun (fs, rest) => (.map fs, rest)
    | cs =>
      (number? (cs.takeWhile isNumberChar)).map fun d => (d, cs.dropWhile isNumberChar)

def elements? : (room : Nat) → List Char → Option (List Datum × List Char)
  | 0, _ => none
  | room + 1, cs => do
    let (d, rest) ← value? room cs
    match skipBlanks rest with
    | ',' :: rest =>
      let (ds, rest) ← elements? room rest
      return (d :: ds, rest)
    | ']' :: rest => return ([d], rest)
    | _ => none

def members? : (room : Nat) → List Char → Option (List (String × Datum) × List Char)
  | 0, _ => none
  | room + 1, cs =>
    match skipBlanks cs with
    | '"' :: rest => do
      let (key, rest) ← doubleQuoted? style rest
      match skipBlanks rest with
      | ':' :: rest =>
        let (d, rest) ← value? room rest
        match skipBlanks rest with
        | ',' :: rest =>
          let (fs, rest) ← members? room rest
          return ((key, d) :: fs, rest)
        | '\x7d' :: rest => return ([(key, d)], rest)
        | _ => none
      | _ => none
    | _ => none

end

def ofText? (text : String) : Option Datum :=
  match value? (2 * text.length + 1) text.toList with
  | some (d, rest) => if (skipBlanks rest).isEmpty then some d else none
  | none => none

end PathGlob.Config.Json
