/-
The set of a bracket expression. As long as no hyphen is a member the regular expression's own rules for
bracket expressions find nothing to do, and its set is the union of what the members stand for.
-/
import PathGlob.Proofs.Glob.Grammar
import PathGlob.Proofs.Glob.Operand
import PathGlob.Proofs.Regex.Ranges

namespace PathGlob

open Regex (SpellsRanges spelled? member?)

/-! ## Named classes -/

namespace PosixClass

/-- Whether a character is in the named class of ASCII characters. -/
def contains (name : String) (c : Char) : Bool :=
  match name with
  | "alnum" => c.isAlphanum
  | "alpha" => c.isAlpha
  | "ascii" => c.toNat < 0x80
  | "blank" => c = ' ' || c = '\t'
  | "cntrl" => c.toNat < 0x20 || c.toNat = 0x7F
  | "digit" => c.isDigit
  | "graph" => 0x20 < c.toNat && c.toNat < 0x7F
  | "lower" => c.isLower
  | "print" => 0x20 ≤ c.toNat && c.toNat < 0x7F
  | "punct" => 0x20 < c.toNat && c.toNat < 0x7F && !c.isAlphanum
  | "space" => c ∈ [' ', '\t', '\n', '\r', '\x0B', '\x0C']
  | "upper" => c.isUpper
  | "word" => c.isAlphanum || c = '_'
  | "xdigit" => c.isDigit || 'a' ≤ c && c ≤ 'f' || 'A' ≤ c && c ≤ 'F'
  | _ => false

/-- The ranges of a named class. -/
def intervals : String → List (Char × Char)
  | "alnum" => [('a', 'z'), ('A', 'Z'), ('0', '9')]
  | "alpha" => [('a', 'z'), ('A', 'Z')]
  | "ascii" => [('\x00', '\x7F')]
  | "blank" => [(' ', ' '), ('\t', '\t')]
  | "cntrl" => [('\x00', '\x1F'), ('\x7F', '\x7F')]
  | "digit" => [('0', '9')]
  | "graph" => [('!', '~')]
  | "lower" => [('a', 'z')]
  | "print" => [(' ', '~')]
  | "punct" => [('!', '/'), (':', '@'), ('[', '\x60'), ('\x7b', '~')]
  | "space" =>
    [(' ', ' '), ('\t', '\t'), ('\r', '\r'), ('\n', '\n'), ('\x0B', '\x0B'), ('\x0C', '\x0C')]
  | "upper" => [('A', 'Z')]
  | "word" => [('A', 'Z'), ('a', 'z'), ('0', '9'), ('_', '_')]
  | "xdigit" => [('A', 'F'), ('a', 'f'), ('0', '9')]
  | _ => []

theorem spelled?_ranges {name ranges : String} (h : ranges? name = some ranges) :
    spelled? ranges.toList = some (intervals name) := by
  unfold ranges? at h
  split at h
  case h_15 => cases h
  all_goals
    cases h
    decide +kernel

theorem any_intervals {name : String} (h : name ∈ names) (c : Char) :
    ((intervals name).any fun r => r.1 ≤ c && c ≤ r.2) = contains name c := by
  -- everything is said in code points, where it is linear arithmetic
  have hle (d : Char) : (c ≤ d ↔ c.toNat ≤ d.toNat) ∧ (d ≤ c ↔ d.toNat ≤ c.toNat) := ⟨Iff.rfl, Iff.rfl⟩
  have heq (d : Char) : c = d ↔ c.toNat = d.toNat := Char.toNat_inj.symm
  have hupper : c.isUpper = decide (65 ≤ c.toNat ∧ c.toNat ≤ 90) := rfl
  have hlower : c.isLower = (97 ≤ c.toNat && c.toNat ≤ 122) := rfl
  have hdigit : c.isDigit = (48 ≤ c.toNat && c.toNat ≤ 57) := rfl
  have halpha : c.isAlpha = (c.isUpper || c.isLower) := rfl
  have halphanum : c.isAlphanum = (c.isAlpha || c.isDigit) := rfl
  rw [Bool.eq_iff_iff]
  simp only [names, List.mem_cons, List.not_mem_nil, or_false] at h
  rcases h with rfl | rfl | rfl | rfl | rfl | rfl | rfl | rfl | rfl | rfl | rfl | rfl | rfl | rfl
  all_goals
    simp [intervals, contains, halphanum, halpha, hupper, hlower, hdigit, hle, heq] <;> omega

end PosixClass

/-! ## Members -/

namespace Member

/-- The ranges that a member stands for. -/
def ranges : Member → List (Char × Char)
  | char c => [(c, c)]
  | named n _ => PosixClass.intervals n.name

theorem member?_text (c : Char) : member? (Fragment.member c).toList = some (c, []) := by
  unfold Fragment.member Fragment.char
  split
  · rename_i h
    have hsign : c.isAlphanum = false := by
      simp only [decide_eq_true_eq, List.mem_cons, List.not_mem_nil, or_false] at h
      rcases h with rfl | rfl | rfl | rfl | rfl | rfl <;> rfl
    rw [String.toList_push]
    exact Regex.escaped?_sign hsign []
  · rename_i h
    simp only [decide_eq_true_eq, List.mem_cons, List.not_mem_nil, or_false, not_or] at h
    rw [String.toList_singleton]
    unfold member?
    split
    · rename_i heq; cases heq; exact absurd rfl h.1
    · rename_i heq; cases heq; exact absurd rfl h.2.1
    · rename_i heq; cases heq; rfl
    · rename_i heq; cases heq

/-- A member written so is no closing bracket and, if not itself one, no hyphen. -/
theorem head?_text {c : Char} (h : c ≠ '-') :
    (Fragment.member c).toList.head? ≠ some '-' ∧ (Fragment.member c).toList.head? ≠ some ']' := by
  unfold Fragment.member Fragment.char
  split
  · simp
  · rename_i hc
    simp only [decide_eq_true_eq, List.mem_cons, List.not_mem_nil, or_false, not_or] at hc
    simp [h, hc]

theorem spells_ranges {m : Member} (h : m ≠ .char '-') : SpellsRanges m.text.toList m.ranges := by
  cases m with
  | char c => exact .single (member?_text c) (head?_text fun hc => h (by rw [hc]))
  | named n hn => exact .of_spelled? (PosixClass.spelled?_ranges hn)

end Member

/-! ## Bracket expressions -/

namespace Bracket

/-- The ranges of a bracket expression; one that is cut off while empty holds an opening bracket. -/
def ranges (b : Bracket) (isClosed : Bool) : List (Char × Char) :=
  b.members.flatMap Member.ranges ++ if !isClosed && b.members.isEmpty then [('[', '[')] else []

theorem spells_ranges {b : Bracket} (h : ∀ m ∈ b.members, m ≠ .char '-') (isClosed : Bool) :
    SpellsRanges (b.content isClosed) (b.ranges isClosed) := by
  refine .append (.flatMap fun m hm => m.spells_ranges (h m hm)) ?_
  split
  · exact .of_spelled? (by decide +kernel)
  · exact .nil

/-- A bracket expression that spells ranges is their union, or the complement of that. -/
theorem set?_spelled {b : Bracket} {isClosed : Bool} {rs : List (Char × Char)}
    (hfilled : isClosed = true → b.members ≠ []) (h : SpellsRanges (b.content isClosed) rs) :
    b.set? isClosed =
      some (if b.sign.isSome then .compl (.addRanges .empty rs) else .addRanges .empty rs) := by
  obtain ⟨c, cs, hc, hne⟩ := content_cons hfilled
  have hread := Regex.bracket?_ranges b.sign.isSome h (by rw [hc]; simp)
    (by rw [hc]; simpa using hne) []
  rw [set?, hread]
  rfl

end Bracket
end PathGlob
