/-
Sets of characters as a bracket expression of a regular expression spells them. When letter case
is ignored, a range holds the case variants of its members; differences and complements are taken
after that.
-/
import PathGlob.Text.CaseFold

namespace PathGlob

inductive CharSet where
  | empty
  | range (lo hi : Char)
  | union (a b : CharSet)
  | diff (a b : CharSet)
  | compl (a : CharSet)
  deriving DecidableEq, Repr

namespace CharSet

def single (c : Char) : CharSet := .range c c

/-- Membership, with the letter case of the character ignored or not. -/
def contains (nocase : Bool) : CharSet → Char → Bool
  | .empty, _ => false
  | .range lo hi, c =>
    if nocase then (CaseFold.orbit c).any fun d => lo ≤ d && d ≤ hi else lo ≤ c && c ≤ hi
  | .union a b, c => a.contains nocase c || b.contains nocase c
  | .diff a b, c => a.contains nocase c && !b.contains nocase c
  | .compl a, c => !a.contains nocase c

/-- With case ignored, case variants are members of the same sets. -/
theorem contains_congr (s : CharSet) {c d : Char} (h : CaseFold.fold c = CaseFold.fold d) :
    s.contains true c = s.contains true d := by
  induction s with
  | empty => rfl
  | range lo hi => simp [contains, CaseFold.orbit_congr h]
  | union a b iha ihb => simp [contains, iha, ihb]
  | diff a b iha ihb => simp [contains, iha, ihb]
  | compl a iha => simp [contains, iha]

end CharSet
end PathGlob
