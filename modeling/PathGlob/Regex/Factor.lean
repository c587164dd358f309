/-
Alternatives that begin alike, with the shared beginning written once in front of what differs.
The texts that match stay the same, but not always which match is preferred: a loop in the shared
beginning is then run once for all alternatives, not once for each.
-/
import PathGlob.Regex.Basic

namespace PathGlob.Regex

/-- The longest list with which both lists begin. -/
def sharedStart : List Regex → List Regex → List Regex
  | a :: as, b :: bs => if a = b then a :: sharedStart as bs else []
  | _, _ => []

def operands : Regex → List Regex
  | .empty => []
  | .seq a b => a.operands ++ b.operands
  | r => [r]

def sequence (rs : List Regex) : Regex := rs.foldr append .empty

/-- Whether an expression is a character without case variants, or one of which the letter case
counts. -/
def isExactChar (nocase : Bool) : Regex → Bool
  | .char c => !nocase || CaseFold.orbit c = [c]
  | _ => false

/-- The parts of an alternative: its operands, where neighbouring exact characters make one word. -/
def parts (nocase : Bool) (r : Regex) : List Regex :=
  (r.operands.splitBy fun a b => a.isExactChar nocase && b.isExactChar nocase).map sequence

/-- Alternatives with their shared beginning in front. One that has a single part shares nothing. -/
def factor (nocase : Bool) (rs : List Regex) : Regex :=
  match rs.map (parts nocase) with
  | [] => .empty
  | p :: ps =>
    let shared := if (p :: ps).all (2 ≤ ·.length) then ps.foldl sharedStart p else []
    let rest := fun q => sequence (q.drop shared.length)
    (sequence shared).append (alts (rest p) (ps.map rest))

/-- The alternatives of an expression, every part of them factored; where letter case is ignored,
characters are given in folded form, so that equal parts look alike. -/
def branches (nocase : Bool) : Regex → List Regex
  | .char c => [.char (if nocase then CaseFold.fold c else c)]
  | .seq a b => [(factor nocase (a.branches nocase)).append (factor nocase (b.branches nocase))]
  | .alt a b => a.branches nocase ++ b.branches nocase
  | .capture r => [.capture (factor nocase (r.branches nocase))]
  | .loop r lo hi isLazy => [.loop (factor nocase (r.branches nocase)) lo hi isLazy]
  | .atomic r => [.atomic (factor nocase (r.branches nocase))]
  | .look k r => [.look k (factor nocase (r.branches nocase))]
  | r => [r]

def factored (nocase : Bool) (r : Regex) : Regex := factor nocase (r.branches nocase)

end PathGlob.Regex
