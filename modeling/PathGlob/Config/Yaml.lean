/-
Configuration documents in YAML: blocks of lines whose columns say what belongs together. A key has
its value on its own line or on the lines behind it that are indented further.
-/
import PathGlob.Config.Yaml.Flow

namespace PathGlob.Config.Yaml

/-! ## Lines -/

abbrev Line := List Char

def lines : List Char → List Line
  | [] => [[]]
  | '\r' :: '\n' :: cs | '\n' :: cs | '\r' :: cs => [] :: lines cs
  | c :: cs =>
    match lines cs with
    | [] => [[c]]
    | l :: ls => (c :: l) :: ls

def column (l : Line) : Nat := (l.takeWhile (· = ' ')).length

def isVoid (l : Line) : Bool :=
  match l.dropWhile isBlank with
  | [] | '#' :: _ => true
  | _ => false

/-- A text up to a comment, which a blank and a number sign begin. -/
def uncommented : List Char → List Char
  | [] => []
  | ' ' :: '#' :: _ | '\t' :: '#' :: _ => []
  | c :: cs => c :: uncommented cs

/-- Whether a sign stands first, with a blank or nothing behind it. -/
def leads (sign : Char) : List Char → Bool
  | c :: cs => c = sign && cs.head?.all isBlank
  | [] => false

def isItem (cs : List Char) : Bool := leads '-' cs

/-- Whether a text has a colon with a blank or nothing behind it. -/
def hasKeyColon : List Char → Bool
  | [] => false
  | c :: cs => leads ':' (c :: cs) || hasKeyColon cs

def startsPlainLine (cs : List Char) : Bool :=
  !(leads '-' cs || leads '?' cs || leads ':' cs) &&
    cs.head?.all fun c =>
      !(isFlowSign c || c ∈ ['#', '&', '*', '!', '|', '>', '"', '\'', '%', '@', '\x60'])

/-! ## Keys -/

def plainKey : List Char → List Char × List Char
  | [] => ([], [])
  | ' ' :: '#' :: cs => ([], ' ' :: '#' :: cs)
  | c :: cs =>
    if leads ':' (c :: cs) then ([], c :: cs)
    else let (key, rest) := plainKey cs; (c :: key, rest)

/-- The text behind the colon of a key. Behind tabs alone no word may follow. -/
def afterColon? (cs : List Char) : Option (List Char) :=
  match cs.dropWhile isBlank with
  | ':' :: rest =>
    let (blanks, value) := rest.span isBlank
    let isWord := value.head?.any fun c => c.isAlphanum || c = '_' || c = '-'
    if blanks.isEmpty && !value.isEmpty || blanks.head? = some '\t' && !blanks.contains ' ' && isWord
    then none else some value
  | _ => none

def keyed? (cs : List Char) : Option (Key × List Char) :=
  match quotedText? cs with
  | some (s, rest) => (afterColon? rest).map fun rest => (⟨s, true⟩, rest)
  | none =>
    if startsPlainLine cs && !(cs.head?.all isBlank) then do
      let (s, rest) := plainKey cs
      let rest ← afterColon? rest
      return (← Key.plain? (String.ofList (trimmed s)), rest)
    else none

def wholeKey? (cs : List Char) : Option Key :=
  match quotedText? cs with
  | some (s, rest) => if isVoid rest then some ⟨s, true⟩ else none
  | none =>
    let key := trimmed (uncommented cs)
    if startsPlainLine key && !hasKeyColon key then Key.plain? (String.ofList key) else none

/-- Whether a line begins with a key. A key may also stand on a line of its own behind a question
mark, with its value behind a colon on the next line. -/
def beginsField (cs : List Char) : Bool := leads '?' cs || (keyed? cs).isSome

/-- The key with which a line in a column begins, the text behind its colon and the lines behind. -/
def field? (m : Nat) (cs : List Char) (ls : List Line) : Option (Key × List Char × List Line) :=
  if leads '?' cs then do
    let key ← wholeKey? ((cs.drop 1).dropWhile isBlank)
    match ls.dropWhile isVoid with
    | [] => some (key, [], [])
    | l :: ls =>
      if column l ≠ m || isItem (l.drop m) then none
      else if leads ':' (l.drop m) then some (key, l.drop (m + 1), ls)
      else some (key, [], l :: ls)
  else (keyed? cs).map fun (key, head) => (key, head, ls)

/-! ## Scalars of several lines -/

/-- Joins a text without quotes with the lines behind it. A comment ends it, and a colon that would
make a key of it must not occur. -/
def plainLines? (head : List Char) (tail : List Line) : Option (List Char) :=
  let piece := uncommented head
  if hasKeyColon (trimmed piece) then none
  else
    match tail with
    | [] => some (trimmed piece)
    | l :: ls =>
      if (tail.all isVoid) then some (trimmed piece)
      else if piece.length < head.length || (isVoid l && !l.all isBlank) then none
      else (plainLines? l ls).map fun more => trimmed piece ++ ' ' :: more

/-- Whether what stands behind `|` or `>` is at most one digit and one sign, and a comment. -/
def isBlockHeader (cs : List Char) : Bool :=
  let (marks, rest) := cs.span fun c => c.isDigit || c = '+' || c = '-'
  marks.countP Char.isDigit ≤ 1 && marks.countP (!·.isDigit) ≤ 1 && !marks.contains '0' &&
    (trimmed (uncommented rest)).isEmpty

/-- The text of the indented lines behind `|` or `>`: without their common indentation and, at a
minus sign, without the last line end. -/
def blockText? (header : List Char) (least : Nat) (ls : List Line) : Option String :=
  let isEmpty := fun l : Line => l.all (· = ' ')
  let indent := match header.find? Char.isDigit with
    | some c => least - 1 + (c.toNat - '0'.toNat)
    | none => ((ls.find? fun l => !isEmpty l).map column).getD least
  let (body, rest) := ls.span fun l => isEmpty l || indent ≤ column l
  let body := (body.reverse.dropWhile isEmpty).reverse.map (·.drop indent)
  let joint := if header.head? = some '>' then " " else "\n"
  let text := joint.intercalate (body.map String.ofList)
  if !isBlockHeader (header.drop 1) || !rest.all isVoid then none
  else some (if body.isEmpty || header.contains '-' then text else text ++ "\n")

/-! ## Blocks -/

/-- The lines that belong to the value of a key or item in a column: those further right and, if a
list may stand in the column itself, its items. -/
def region (m : Nat) (withItems : Bool) (ls : List Line) : List Line × List Line :=
  ls.span fun l => isVoid l || m < column l || withItems && column l = m && isItem (l.drop m)

mutual

/-- Reads a block of lines that begins in the least column or further right. An item may stand one
column before it. `room` bounds how much there is to read. -/
def block? : (room least : Nat) → List Line → Reading Datum
  | 0, _, _ => failure
  | room + 1, least, ls =>
    match ls.dropWhile isVoid with
    | [] => return .null
    | l :: ls =>
      let m := column l
      let cs := l.drop m
      if isItem cs then
        if least ≤ m + 1 then return .list (← listItems? room m (l :: ls)) else failure
      else if m < least then failure
      else if beginsField cs then return .map (named (← blockFields? room m (l :: ls)))
      else value? room least cs ls

/-- Reads a value that begins on its line and may go on behind it. Inside the value its own name
stands for nothing. -/
def value? : (room least : Nat) → List Char → List Line → Reading Datum
  | 0, _, _, _ => failure
  | room + 1, least, head, tail => do
    let (p, cs) ← properties? 2 {} (head.dropWhile isBlank)
    p.remember .null
    let d ←
      if isVoid cs then
        if tail.all isVoid then tagged? p.tag "" else block? room least tail
      else
        match cs with
        | '"' :: _ | '\'' :: _ | '[' :: _ | '\x7b' :: _ =>
          closedValue? (cs ++ tail.flatMap ('\n' :: ·))
        | '|' :: _ | '>' :: _ => pure (.text (← blockText? cs least tail))
        | '*' :: name => do
          let (d, rest) ← recalled? name
          if p.isEmpty && isVoid rest && tail.all isVoid then pure d else failure
        | _ =>
          if startsPlainLine cs then do tagged? p.tag (String.ofList (← plainLines? cs tail))
          else failure
    p.remember d
    return d

def listItems? : (room m : Nat) → List Line → Reading (List Datum)
  | 0, _, _ => failure
  | room + 1, m, ls =>
    match ls.dropWhile isVoid with
    | [] => return []
    | l :: ls =>
      if column l = m && isItem (l.drop m) then do
        let (own, rest) := region m false ls
        let d ← block? room (m + 1) ((List.replicate (m + 1) ' ' ++ l.drop (m + 1)) :: own)
        let ds ← listItems? room m rest
        return d :: ds
      else failure

/-- Reads the fields of a map in a column; a key may be given only once. -/
def blockFields? : (room m : Nat) → List Line → Reading (List (Key × Datum))
  | 0, _, _ => failure
  | room + 1, m, ls =>
    match ls.dropWhile isVoid with
    | [] => return []
    | l :: ls =>
      if column l = m then do
        let (key, head, ls) ← field? m (l.drop m) ls
        let (own, rest) := region m (isVoid (← properties? 2 {} (head.dropWhile isBlank)).2) ls
        let d ← value? room (m + 1) head own
        let fs ← blockFields? room m rest
        if fs.any (·.1 = key) then failure else return (key, d) :: fs
      else failure

end

/-! ## Documents -/

def marked? (mark : String) (l : Line) : Option (List Char) :=
  let n := mark.length
  if l.take n = mark.toList && (l.drop n).head?.all isBlank then some (l.drop n) else none

def isEnd (l : Line) : Bool := (marked? "..." l).any isVoid

/-- The lines of the only document, without its marks, and whether it has a mark at its start. The
text on the line of that mark is the first line. Directives need the mark. -/
def document? (ls : List Line) : Option (Bool × List Line) :=
  let isDirective := fun l : Line => l.head? = some '%'
  let ls := ls.dropWhile fun l => isVoid l || isEnd l
  let hasDirective := ls.head?.any isDirective
  let begun := ls.dropWhile fun l => isVoid l || isDirective l
  let (isBegun, ls) := match begun with
    | l :: rest =>
      match marked? "---" l with
      | some first => (true, first :: rest)
      | none => (false, ls)
    | [] => (false, ls)
  let (own, rest) := ls.span fun l => !isEnd l
  if hasDirective && !isBegun || !rest.all (fun l => isVoid l || isEnd l) ||
    own.any (fun l => (marked? "---" l).isSome) then none
  else some (isBegun, own)

def withoutTabs (ls : List Line) : List Line :=
  match ls.dropWhile isVoid with
  | [] => []
  | l :: ls =>
    let (blanks, cs) := l.span isBlank
    (List.replicate blanks.length ' ' ++ cs) :: ls

/-- The fields that a text holds. A text without content has none, but a document that is only begun
is no map, and no key can stand on the line of its mark. -/
def ofText? (text : String) : Option (List (String × Datum)) := do
  let ls := lines text.toList
  let (isBegun, ls) ← document? ls
  if ls.all isVoid then if isBegun then none else some []
  else
    let isKeyOnMark := isBegun && ls.head?.any fun l => beginsField (l.dropWhile isBlank)
    if isKeyOnMark then none
    else
      match (block? (4 * text.length + 4) 0 (withoutTabs ls)).run' [] with
      | some (.map fields) => some fields
      | _ => none

end PathGlob.Config.Yaml
