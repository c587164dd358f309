/-
The patterns that brace sets stand for, however many there are, and what the limit makes of them. The
expansion counts patterns that it has not looked at yet; as each of them stands for one pattern at
least, it never stops too early, and it goes through only if all that it finds are within the limit.
-/
import Mathlib.Algebra.BigOperators.Group.List.Basic
import PathGlob.Matcher

namespace PathGlob.Brace

/-! ## Sets offer something -/

/-- A list has two parts at least, and a range has its first value. -/
theorem Alternatives.size_pos {cs : List Char} {a : Alternatives} (h : ofText? cs = some a) :
    0 < a.size := by
  unfold ofText? at h
  split at h
  · cases h
    exact Nat.succ_pos _
  · split at h
    · cases h
      exact Nat.succ_pos _
    · split at h
      · cases h
        exact Nat.succ_pos _
      · cases h

/-- A set is what some text between two braces offers. -/
theorem exists_ofText?_of_firstSet? {cs : List Char} {l : Located} (h : firstSet? cs = some l) :
    ∃ body, Alternatives.ofText? body = some l.alternatives := by
  fun_induction firstSet? cs generalizing l with
  | case1 => cases h
  | case3 cs l' hs =>
    cases h
    unfold setHere? at hs
    split at hs
    · rename_i body tail _
      obtain ⟨a, ha, rfl⟩ := Option.map_eq_some_iff.1 hs
      exact ⟨body, ha⟩
    · cases hs
  | _ =>
    rename_i ih
    obtain ⟨l', hl', rfl⟩ := Option.map_eq_some_iff.1 h
    obtain ⟨body, hbody⟩ := ih hl'
    exact ⟨body, hbody⟩

/-- The patterns that have the alternatives of a set in its place, in order. -/
def Located.patterns (l : Located) : List (List Char) := l.alternatives.values.map l.replaced

@[simp] theorem Located.length_patterns (l : Located) : l.patterns.length = l.alternatives.size := by
  rw [patterns, List.length_map, Alternatives.length_values]

theorem Located.length_patterns_pos {cs : List Char} {l : Located} (h : firstSet? cs = some l) :
    0 < l.patterns.length := by
  obtain ⟨body, hbody⟩ := exists_ofText?_of_firstSet? h
  rw [length_patterns]
  exact Alternatives.size_pos hbody

theorem Located.braces_of_mem_patterns {cs q : List Char} {l : Located} (h : firstSet? cs = some l)
    (hq : q ∈ l.patterns) : braces q < braces cs := by
  obtain ⟨v, hv, rfl⟩ := List.mem_map.1 hq
  exact firstSet?_braces h hv

/-! ## Expansions without a limit -/

/-- The patterns that a pattern stands for: the alternatives of its first set are put in its place,
one after the other, and so on in what results. -/
def expansions (pattern : List Char) : List (List Char) :=
  match _h : firstSet? pattern with
  | none => [pattern]
  | some l => l.patterns.attach.flatMap fun q => expansions q.1
termination_by braces pattern
decreasing_by exact Located.braces_of_mem_patterns _h q.2

theorem expansions_of_none {pattern : List Char} (h : firstSet? pattern = none) :
    expansions pattern = [pattern] := by
  rw [expansions]
  split
  · rfl
  · rename_i hsome
    rw [h] at hsome
    cases hsome

theorem expansions_of_some {pattern : List Char} {l : Located} (h : firstSet? pattern = some l) :
    expansions pattern = l.patterns.flatMap expansions := by
  rw [expansions]
  split
  · rename_i hnone
    rw [h] at hnone
    cases hnone
  · rename_i l' hsome
    cases h.symm.trans hsome
    rw [List.flatMap_subtype (g := expansions) (by intros; rfl), List.unattach_attach]

/-- What is shown of a pattern may be taken as shown of those that its first set makes of it. -/
theorem expansions_induction {P : List Char → Prop}
    (plain : ∀ pattern, firstSet? pattern = none → P pattern)
    (set : ∀ pattern l, firstSet? pattern = some l → (∀ q ∈ l.patterns, P q) → P pattern)
    (pattern : List Char) : P pattern := by
  induction hn : braces pattern using Nat.strongRecOn generalizing pattern with
  | _ n ih =>
    cases h : firstSet? pattern with
    | none => exact plain pattern h
    | some l =>
      refine set pattern l h fun q hq => ih _ ?_ _ rfl
      rw [← hn]
      exact Located.braces_of_mem_patterns h hq

/-- A pattern stands for one pattern at least. -/
theorem length_expansions_pos (pattern : List Char) : 0 < (expansions pattern).length := by
  induction pattern using expansions_induction with
  | plain pattern h =>
    rw [expansions_of_none h]
    exact Nat.one_pos
  | set pattern l h ih =>
    obtain ⟨q, qs, hqs⟩ := List.exists_cons_of_length_pos (Located.length_patterns_pos h)
    have hq := ih q (by rw [hqs]; exact List.mem_cons_self)
    rw [expansions_of_some h, hqs, List.flatMap_cons, List.length_append]
    omega

theorem length_le_flatMap_expansions (ps : List (List Char)) :
    ps.length ≤ (ps.flatMap expansions).length := by
  have h := (ps.map fun q => (expansions q).length).length_le_sum_of_one_le fun n hn => by
    obtain ⟨q, -, rfl⟩ := List.mem_map.1 hn
    exact length_expansions_pos q
  rwa [List.length_map, ← List.length_flatMap] at h

/-! ## Expansions under a limit -/

theorem expandNext_of_none {pattern : List Char} (h : firstSet? pattern = none) (limit : Nat)
    (p : Progress) : expandNext limit p pattern =
      if p.count + p.waiting ≤ limit then
        some { found := pattern :: p.found, count := p.count + 1, waiting := p.waiting - 1 }
      else none := by
  rw [expandNext]
  split
  · rfl
  · rename_i hsome
    rw [h] at hsome
    cases hsome

theorem expandNext_of_some {pattern : List Char} {l : Located} (h : firstSet? pattern = some l)
    (limit : Nat) (p : Progress) : expandNext limit p pattern =
      if p.count + (p.waiting - 1 + l.patterns.length) ≤ limit then
        l.patterns.foldlM (expandNext limit) { p with waiting := p.waiting - 1 + l.patterns.length }
      else none := by
  rw [expandNext, Located.length_patterns]
  split
  · rename_i hnone
    rw [h] at hnone
    cases hnone
  · rename_i l' hsome
    cases h.symm.trans hsome
    simp only [Located.patterns, List.foldlM_map]
    rw [List.foldlM_subtype (g := fun p v => expandNext limit p (l.replaced v)) (by intros; rfl),
      List.unattach_attach]

/-- An expansion under way that has looked at some of the waiting patterns and found others for
them, if all are within the limit. -/
def Progress.found? (limit : Nat) (p : Progress) (looked : Nat) (found : List (List Char)) :
    Option Progress :=
  if p.count + found.length + (p.waiting - looked) ≤ limit then
    some {
      found := found.reverse ++ p.found
      count := p.count + found.length
      waiting := p.waiting - looked }
  else none

/-- A pattern is expanded to all that it stands for, unless those and the patterns still waiting are
more than the limit. -/
def Expands (limit : Nat) (pattern : List Char) : Prop :=
  ∀ p : Progress, 0 < p.waiting →
    expandNext limit p pattern = p.found? limit 1 (expansions pattern)

/-- Waiting patterns are expanded one after the other. -/
theorem foldlM_expandNext {limit : Nat} {ps : List (List Char)} (h : ∀ q ∈ ps, Expands limit q)
    {p : Progress} (hwaiting : ps.length ≤ p.waiting) (hp : p.count + p.waiting ≤ limit) :
    ps.foldlM (expandNext limit) p = p.found? limit ps.length (ps.flatMap expansions) := by
  unfold Progress.found?
  induction ps generalizing p with
  | nil =>
    rw [if_pos (by simpa using hp)]
    rfl
  | cons q ps ih =>
    rw [List.length_cons] at hwaiting
    have hps : ∀ r ∈ ps, Expands limit r := fun r hr => h r (List.mem_cons_of_mem _ hr)
    -- the patterns behind this one stand for as many at least
    have hmore := length_le_flatMap_expansions ps
    rw [List.foldlM_cons, h q List.mem_cons_self p (by omega), Progress.found?]
    simp only [List.flatMap_cons, List.length_append, List.length_cons, Option.bind_eq_bind]
    by_cases hle : p.count + (expansions q).length + (p.waiting - 1) ≤ limit
    · rw [if_pos hle, Option.bind_some, ih hps (by simp only; omega) hle]
      simp only [List.reverse_append, List.append_assoc, Nat.sub_sub, Nat.add_assoc,
        Nat.add_comm 1 ps.length]
    · rw [if_neg hle, if_neg (by omega)]
      rfl

theorem expands (limit : Nat) (pattern : List Char) : Expands limit pattern := by
  induction pattern using expansions_induction with
  | plain pattern h =>
    intro p hp
    have hsame : p.count + 1 + (p.waiting - 1) = p.count + p.waiting := by omega
    rw [expandNext_of_none h, expansions_of_none h, Progress.found?, List.length_singleton, hsame]
    rfl
  | set pattern l h ih =>
    intro p hp
    have hmore := length_le_flatMap_expansions l.patterns
    rw [expandNext_of_some h, expansions_of_some h]
    by_cases hle : p.count + (p.waiting - 1 + l.patterns.length) ≤ limit
    · have hleft : p.waiting - 1 + l.patterns.length - l.patterns.length = p.waiting - 1 :=
        Nat.add_sub_cancel _ _
      rw [if_pos hle, foldlM_expandNext ih (Nat.le_add_left _ _) hle, Progress.found?, hleft]
      rfl
    · rw [if_neg hle, Progress.found?, if_neg (by omega)]

/-- The patterns that a pattern stands for, however many. -/
def patterns (pattern : String) : List String := (expansions pattern.toList).map String.ofList

theorem expand?_eq (limit : Nat) (pattern : String) : expand? limit pattern =
    if (patterns pattern).length ≤ limit then some (patterns pattern) else none := by
  unfold expand? patterns
  rw [expands limit pattern.toList _ Nat.one_pos, Progress.found?, List.length_map]
  simp only [Nat.zero_add, Nat.sub_self, Nat.add_zero, List.append_nil]
  split
  · rw [Option.map_some, List.reverse_reverse]
  · rfl

theorem eq_patterns_of_expand? {limit : Nat} {pattern : String} {ps : List String}
    (h : expand? limit pattern = some ps) : ps = patterns pattern := by
  rw [expand?_eq, Option.ite_none_right_eq_some] at h
  exact (Option.some.inj h.2).symm

/-- The limit is exact: a pattern stands for one pattern at least, all that it stands for are found if
they are within the limit, and otherwise it is refused, with the limit in the report. So a larger
limit changes nothing once an expansion goes through. -/
theorem expand?_exact (pattern : String) :
    patterns pattern ≠ [] ∧
    (∀ limit, expand? limit pattern =
      if (patterns pattern).length ≤ limit then some (patterns pattern) else none) ∧
    (∀ o : Options, Group.expansions { o with nobrace := false } pattern =
      if (patterns pattern).length ≤ o.maxExpansions then .ok (patterns pattern)
      else .error (.tooManyExpansions o.maxExpansions)) ∧
    ∀ limit ps, expand? limit pattern = some ps → ∀ larger, limit ≤ larger →
      expand? larger pattern = some ps := by
  refine ⟨?_, fun limit => expand?_eq limit pattern, fun o => ?_, ?_⟩
  · rw [← List.length_pos_iff, patterns, List.length_map]
    exact length_expansions_pos _
  · unfold Group.expansions
    rw [if_neg Bool.false_ne_true, expand?_eq]
    by_cases hle : (patterns pattern).length ≤ o.maxExpansions
    · rw [if_pos hle, if_pos hle]
    · rw [if_neg hle, if_neg hle]
  · intro limit ps h larger hlarger
    rw [expand?_eq] at h ⊢
    split at h
    · rename_i hle
      rw [if_pos (by omega), h]
    · cases h

/-- Three patterns go through under a limit of three, and under the largest one there is. -/
theorem expand?_three : expand? 3 "{a,{b,c}}" = some ["a", "b", "c"] ∧
    expand? 2 "{a,{b,c}}" = none ∧ expand? (2 ^ 64 - 1) "{a,{b,c}}" = some ["a", "b", "c"] := by
  have hpatterns : patterns "{a,{b,c}}" = ["a", "b", "c"] := by decide +kernel
  obtain ⟨-, hexact, -, hlarger⟩ := expand?_exact "{a,{b,c}}"
  have hthree : expand? 3 "{a,{b,c}}" = some ["a", "b", "c"] := by
    rw [hexact, hpatterns]
    rfl
  refine ⟨hthree, ?_, hlarger 3 _ hthree _ (by decide)⟩
  rw [hexact, hpatterns]
  rfl

end PathGlob.Brace
