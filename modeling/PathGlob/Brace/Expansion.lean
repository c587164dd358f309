/-
The expansion of brace sets: the first set is replaced by each of its alternatives in turn, and so
on in what results. The patterns found and those still to come are counted, so that an expansion
that would pass the limit stops before its alternatives are listed.
-/
import PathGlob.Brace.Set

namespace PathGlob.Brace

/-- An expansion under way: the patterns found, latest first, their number, and the number of those
still waiting to be looked at. -/
structure Progress where
  found : List (List Char) := []
  count : Nat := 0
  waiting : Nat

/-- Expands one pattern out of those waiting. There is no result when there are more patterns than
the limit. -/
def expandNext (limit : Nat) (p : Progress) (pattern : List Char) : Option Progress :=
  match _h : firstSet? pattern with
  | none =>
    if p.count + p.waiting ≤ limit then
      some { found := pattern :: p.found, count := p.count + 1, waiting := p.waiting - 1 }
    else none
  | some l =>
    let waiting := p.waiting - 1 + l.alternatives.size
    if p.count + waiting ≤ limit then
      l.alternatives.values.attach.foldlM
        (fun p v => expandNext limit p (l.replaced v.1)) { p with waiting }
    else none
termination_by braces pattern
decreasing_by exact firstSet?_braces _h v.2

/-- The patterns that a pattern's brace sets expand to, the first set varying slowest, or nothing if
they are more than the limit. -/
def expand? (limit : Nat) (pattern : String) : Option (List String) :=
  (expandNext limit { waiting := 1 } pattern.toList).map fun p =>
    p.found.reverse.map String.ofList

end PathGlob.Brace
