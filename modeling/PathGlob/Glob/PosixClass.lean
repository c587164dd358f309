/-
The named character classes of bracket expressions, `[:alpha:]` and its like, as ranges of ASCII
characters.
-/
import PathGlob.Glob.Cursor

namespace PathGlob.PosixClass

/-- The members of a named class, written as in a bracket expression. -/
def ranges? : String → Option String
  | "alnum" => some "a-zA-Z0-9"
  | "alpha" => some "a-zA-Z"
  | "ascii" => some "\\x00-\\x7F"
  | "blank" => some " \\t"
  | "cntrl" => some "\\x00-\\x1F\\x7F"
  | "digit" => some "0-9"
  | "graph" => some "\\x21-\\x7E"
  | "lower" => some "a-z"
  | "print" => some "\\x20-\\x7E"
  | "punct" => some "!-/:-@\\[-`\x7b-~"
  | "space" => some " \\t\\r\\n\\x0B\\x0C"
  | "upper" => some "A-Z"
  | "word" => some "A-Za-z0-9_"
  | "xdigit" => some "A-Fa-f0-9"
  | _ => none

structure Named where
  name : String
  ranges : String
  deriving DecidableEq, Repr

def Named.text (n : Named) : String := "[:" ++ n.name ++ ":]"

def at? (c : Cursor) : Option Named :=
  match c.rest with
  | ':' :: cs =>
    let name := cs.takeWhile (fun x => 'a' ≤ x ∧ x ≤ 'z')
    match cs.drop name.length with
    | ':' :: ']' :: _ =>
      (ranges? (String.ofList name)).map fun ranges => ⟨String.ofList name, ranges⟩
    | _ => none
  | _ => none

end PathGlob.PosixClass
