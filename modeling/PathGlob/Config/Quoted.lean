/-
Texts in quotes, as configuration documents write them.
-/
import PathGlob.Config.Number
import PathGlob.Regex.Lexeme

namespace PathGlob.Config

open Regex (hexValue?)

/-! ## Escapes -/

def hexNumber? (n : Nat) (cs : List Char) : Option (Nat × List Char) := do
  let digits ← (cs.take n).mapM hexValue?
  if digits.length = n then some (natOfDigits 16 digits, cs.drop n) else none

def hexChar? (n : Nat) (cs : List Char) : Option (Char × List Char) := do
  let (code, rest) ← hexNumber? n cs
  if code.isValidChar then some (Char.ofNat code, rest) else none

/-- The character behind `\u` where characters beyond four digits are written as two halves. -/
def pairedChar? (cs : List Char) : Option (Char × List Char) := do
  let (hi, rest) ← hexNumber? 4 cs
  if 0xd800 ≤ hi ∧ hi < 0xdc00 then
    match rest with
    | '\\' :: 'u' :: rest =>
      let (lo, rest) ← hexNumber? 4 rest
      if 0xdc00 ≤ lo ∧ lo < 0xe000 then
        some (Char.ofNat (0x10000 + (hi - 0xd800) * 0x400 + (lo - 0xdc00)), rest)
      else none
    | _ => none
  else hexChar? 4 cs

/-- The control characters that all formats name by a letter. -/
def letterEscape? : Char → Option Char
  | 'b' => some '\x08'
  | 'f' => some '\x0c'
  | 'n' => some '\n'
  | 'r' => some '\r'
  | 't' => some '\t'
  | _ => none

/-! ## Quotes -/

/-- How a format reads a text in double quotes: what the signs behind a backslash stand for, and
what a character that is not escaped does, if it is allowed. -/
structure QuoteStyle where
  escape? : List Char → Option (List Char × List Char)
  plain? : Char → Option Char

/-- Reads a text up to its closing double quote; `room` bounds its length. -/
def quoted? (style : QuoteStyle) : (room : Nat) → List Char → Option (List Char × List Char)
  | 0, _ | _, [] => none
  | _, '"' :: rest => some ([], rest)
  | room + 1, '\\' :: rest => do
    let (s, rest) ← style.escape? rest
    let (t, rest) ← quoted? style room rest
    return (s ++ t, rest)
  | room + 1, c :: rest => do
    let c ← style.plain? c
    let (s, rest) ← quoted? style room rest
    return (c :: s, rest)

def doubleQuoted? (style : QuoteStyle) (cs : List Char) : Option (String × List Char) :=
  (quoted? style (cs.length + 1) cs).map fun (s, rest) => (String.ofList s, rest)

/-- Reads a text in single quotes behind its opening quote; two quotes stand for one where that is
the custom. -/
def singleQuoted? (doubling : Bool) (plain? : Char → Option Char) :
    List Char → Option (List Char × List Char)
  | [] => none
  | '\'' :: '\'' :: rest =>
    if doubling then
      (singleQuoted? doubling plain? rest).map fun (s, rest) => ('\'' :: s, rest)
    else some ([], '\'' :: rest)
  | '\'' :: rest => some ([], rest)
  | c :: rest => do
    let c ← plain? c
    let (s, rest) ← singleQuoted? doubling plain? rest
    return (c :: s, rest)

/-- A character that may stand in a text as it is, unless it is a control character other than those
given. -/
def allowing (controls : List Char) (c : Char) : Option Char :=
  if ' ' ≤ c ∧ c ≠ '\x7f' ∨ c ∈ controls then some c else none

end PathGlob.Config
