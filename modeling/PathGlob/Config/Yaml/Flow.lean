/-
Lists and maps in brackets and braces, which may go over several lines.
-/
import PathGlob.Config.Yaml.Scalar

namespace PathGlob.Config.Yaml

def trimmed (cs : List Char) : List Char :=
  ((cs.dropWhile isBlank).reverse.dropWhile isBlank).reverse

/-- The text behind blanks, line ends and comments. A comment begins with a number sign behind a
blank or at the start of a line. -/
def skipVoid (inComment canComment : Bool) : List Char → List Char
  | [] => []
  | '\n' :: cs => skipVoid false true cs
  | c :: cs =>
    if inComment then skipVoid true true cs
    else if isBlank c then skipVoid false true cs
    else if c = '#' && canComment then skipVoid true true cs
    else c :: cs

def endsPlain : List Char → Bool
  | [] => true
  | ':' :: cs => cs.head?.all fun d => isBlank d || d = '\n' || isFlowSign d
  | ' ' :: '#' :: _ | '\t' :: '#' :: _ => true
  | c :: _ => isFlowSign c || c = '\n'

def plainInside : List Char → List Char × List Char
  | [] => ([], [])
  | c :: cs =>
    if endsPlain (c :: cs) then ([], c :: cs)
    else let (s, rest) := plainInside cs; (c :: s, rest)

def startsPlain : List Char → Bool
  | [] => false
  | c :: cs =>
    if c = '-' || c = '?' then cs.head?.any fun d => !(isBlank d || d = '\n' || isFlowSign d)
    else !(c ∈ ['#', '&', '*', '!', '"', '\'', '%', '@', '\x60'] || endsPlain (c :: cs))

def keyInside? (cs : List Char) : Option (Key × List Char) :=
  match quotedText? cs with
  | some (s, rest) => some (⟨s, true⟩, rest)
  | none =>
    if startsPlain cs then do
      let (s, rest) := plainInside cs
      some (← Key.plain? (String.ofList (trimmed s)), rest)
    else none

def named (fields : List (Key × Datum)) : List (String × Datum) :=
  fields.map fun (k, d) => (k.name, d)

mutual

/-- Reads a value inside brackets; `room` bounds how much there is to read. Inside the value its own
name stands for nothing. -/
def inside? : (room : Nat) → List Char → Reading (Datum × List Char)
  | 0, _ => failure
  | room + 1, cs => do
    let (p, cs) ← properties? 2 {} (skipVoid false false cs)
    p.remember .null
    let (d, rest) ← match cs with
      | '[' :: rest => do
        let (ds, rest) ← items? room rest
        pure (Datum.list ds, rest)
      | '\x7b' :: rest => do
        let (fs, rest) ← fields? room rest
        pure (Datum.map (named fs), rest)
      | '"' :: _ | '\'' :: _ => do
        let (s, rest) ← quotedText? cs
        pure (Datum.text s, rest)
      | '*' :: rest => if p.isEmpty then recalled? rest else failure
      | _ =>
        if startsPlain cs then do
          let (s, rest) := plainInside cs
          pure (← tagged? p.tag (String.ofList (trimmed s)), rest)
        else if p.isEmpty then failure
        else do pure (← tagged? p.tag "", cs)
    p.remember d
    return (d, rest)

/-- Reads the values of a list up to its end. A value with a colon behind it is a map of one. -/
def items? : (room : Nat) → List Char → Reading (List Datum × List Char)
  | 0, _ => failure
  | room + 1, cs =>
    match skipVoid false false cs with
    | ']' :: rest => return ([], rest)
    | cs => do
      let (d, rest) ← inside? room cs
      let (d, rest) ← match skipVoid false false rest with
        | ':' :: rest => do
          let (e, rest) ← inside? room rest
          pure (Datum.map [("", e)], rest)
        | rest => pure (d, rest)
      match skipVoid false false rest with
      | ',' :: rest =>
        let (ds, rest) ← items? room rest
        return (d :: ds, rest)
      | ']' :: rest => return ([d], rest)
      | _ => failure

/-- Reads the fields of a map up to its end; a key may be given only once. -/
def fields? : (room : Nat) → List Char → Reading (List (Key × Datum) × List Char)
  | 0, _ => failure
  | room + 1, cs =>
    match skipVoid false false cs with
    | '\x7d' :: rest => return ([], rest)
    | cs => do
      let (key, rest) ← keyInside? cs
      let (d, rest) ← match skipVoid false false rest with
        | ':' :: rest =>
          match skipVoid false false rest with
          | ',' :: _ | '\x7d' :: _ => pure (.null, rest)
          | _ => inside? room rest
        | rest => pure (.null, rest)
      match skipVoid false false rest with
      | ',' :: rest =>
        let (fs, rest) ← fields? room rest
        if fs.any (·.1 = key) then failure else return ((key, d) :: fs, rest)
      | '\x7d' :: rest => return ([(key, d)], rest)
      | _ => failure

end

def closedValue? (cs : List Char) : Reading Datum := do
  let (d, rest) ← inside? (2 * cs.length + 1) cs
  if (skipVoid false false rest).isEmpty then return d else failure

end PathGlob.Config.Yaml
