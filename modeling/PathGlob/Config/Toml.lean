/-
Configuration documents in TOML: keys with values, one a line, and tables, which are noticed so far
as they take names.
-/
import PathGlob.Config.Toml.Scalar

namespace PathGlob.Config.Toml

/-! ## What is defined -/

/-- What a path of names is defined as: a value, a table with a heading of its own, a list of such
tables, a table on the way to a headed one, or a table on the way to a value with a dotted key. -/
inductive Entry where
  | value (d : Datum)
  | table
  | tables
  | implied
  | dotted

namespace Entry

def isHeadable : Entry → Bool
  | .value _ => false
  | _ => true

/-- Whether a dotted key may lead on into what is defined. Tables that headings began are closed to
dotted keys from outside. -/
def isDotted : Entry → Bool
  | .dotted => true
  | _ => false

end Entry

/-- The paths defined so far, latest first. A path is there only behind all paths that lead to it. -/
abbrev Entries := List (List String × Entry)

/-- The paths that lead from a table to a key in it, without the ends. -/
def ways (table : List String) : (key : List String) → List (List String)
  | [] => []
  | [_] => []
  | name :: names => (table ++ [name]) :: ways (table ++ [name]) names

namespace Entries

/-- Walks paths. Those not yet defined are, as `fresh`; the others must be such as can be entered. -/
def walk? (es : Entries) (fresh : Entry) (canEnter : Entry → Bool) (paths : List (List String)) :
    Option Entries :=
  paths.foldlM (fun es path =>
    match es.lookup path with
    | none => some ((path, fresh) :: es)
    | some e => if canEnter e then some es else none) es

def addValue? (es : Entries) (table key : List String) (d : Datum) : Option Entries := do
  let es ← es.walk? .dotted Entry.isDotted (ways table key)
  match es.lookup (table ++ key) with
  | none => return (table ++ key, .value d) :: es
  | some _ => none

/-- Begins a table, which may be begun only once. -/
def addTable? (es : Entries) (path : List String) : Option Entries := do
  let es ← es.walk? .implied Entry.isHeadable (ways [] path)
  match es.lookup path with
  | none | some .implied => return (path, .table) :: es
  | some _ => none

/-- Begins a further table of a list of tables, in which nothing is defined yet. -/
def addListed? (es : Entries) (path : List String) : Option Entries := do
  let es ← es.walk? .implied Entry.isHeadable (ways [] path)
  match es.lookup path with
  | none | some .tables => return (path, .tables) :: es.filter fun (p, _) => !path.isPrefixOf p
  | some _ => none

/-- The fields of the outermost table, in order, each name once. -/
def fields (es : Entries) : List (String × Datum) :=
  es.reverse.foldr (fun (path, e) rest =>
    match path, e with
    | [name], .value d => (name, d) :: rest
    | name :: _, _ => if rest.any (·.1 = name) then rest else (name, .map []) :: rest
    | [], _ => rest) []

end Entries

/-! ## Values -/

def skipLines (inComment : Bool) : List Char → List Char
  | [] => []
  | '\n' :: cs => skipLines false cs
  | c :: cs =>
    if inComment then skipLines true cs
    else if isBlank c then skipLines false cs
    else if c = '#' then skipLines true cs
    else c :: cs

mutual

/-- Reads a value; `room` bounds how much there is to read. -/
def value? : (room : Nat) → List Char → Option (Datum × List Char)
  | 0, _ => none
  | room + 1, cs =>
    match skipBlanks cs with
    | '[' :: rest => (items? room rest).map fun (ds, rest) => (.list ds, rest)
    | '\x7b' :: rest =>
      match skipBlanks rest with
      | '\x7d' :: rest => some (.map [], rest)
      | rest => (pairs? room [] rest).map fun (es, rest) => (.map es.fields, rest)
    | '"' :: rest => (text? ('"' :: rest)).map fun (s, rest) => (.text s, rest)
    | '\'' :: rest => (text? ('\'' :: rest)).map fun (s, rest) => (.text s, rest)
    | cs => plain? cs

def items? : (room : Nat) → List Char → Option (List Datum × List Char)
  | 0, _ => none
  | room + 1, cs =>
    match skipLines false cs with
    | ']' :: rest => some ([], rest)
    | cs => do
      let (d, rest) ← value? room cs
      match skipLines false rest with
      | ',' :: rest =>
        let (ds, rest) ← items? room rest
        return (d :: ds, rest)
      | ']' :: rest => return ([d], rest)
      | _ => none

def pairs? : (room : Nat) → Entries → List Char → Option (Entries × List Char)
  | 0, _, _ => none
  | room + 1, es, cs => do
    let (path, rest) ← key? (cs.length + 1) cs
    let (d, rest) ← value? room (← behind? '=' rest)
    let es ← es.addValue? [] path d
    match skipBlanks rest with
    | ',' :: rest => pairs? room es rest
    | '\x7d' :: rest => return (es, rest)
    | _ => none

end

/-! ## Documents -/

/-- The text behind the end of a line, before which blanks and a comment may stand. -/
def lineEnd? (cs : List Char) : Option (List Char) :=
  match skipBlanks cs with
  | [] => some []
  | '\n' :: cs => some cs
  | '#' :: cs => some ((cs.dropWhile (· != '\n')).drop 1)
  | _ => none

/-- Reads the lines of a document into the table with the given path; `room` bounds their number. -/
def lines? : (room : Nat) → (table : List String) → Entries → List Char → Option Entries
  | 0, _, _, _ => none
  | room + 1, table, es, cs =>
    match skipLines false cs with
    | [] => some es
    | '[' :: '[' :: rest => do
      let (path, rest) ← key? (rest.length + 1) rest
      let rest ← lineEnd? (← behind? ']' (← behind? ']' rest))
      lines? room path (← es.addListed? path) rest
    | '[' :: rest => do
      let (path, rest) ← key? (rest.length + 1) rest
      let rest ← lineEnd? (← behind? ']' rest)
      lines? room path (← es.addTable? path) rest
    | cs => do
      let (path, rest) ← key? (cs.length + 1) cs
      let rest ← behind? '=' rest
      let (d, rest) ← value? (2 * rest.length + 2) rest
      lines? room table (← es.addValue? table path d) (← lineEnd? rest)

/-- A text with every line ended by a line feed alone. No other control characters than tabs may
stand in it. -/
def cleaned? : List Char → Option (List Char)
  | [] => some []
  | '\r' :: '\n' :: cs => (cleaned? cs).map ('\n' :: ·)
  | c :: cs => do return (← allowing ['\t', '\n'] c) :: (← cleaned? cs)

def ofText? (text : String) : Option (List (String × Datum)) := do
  let cs ← cleaned? text.toList
  (lines? (cs.length + 1) [] [] cs).map (·.fields)

end PathGlob.Config.Toml
