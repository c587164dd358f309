/-
Expansion as a loop over a worklist: the next pattern is taken off, and unless it is found for want of a
set the patterns that its first set makes of it are put on in its place. What is put on is shorter than
what it was made from, so the loop ends, whatever the limit, and it ends in what the expansion gives. No
pattern that is found is longer than the one that was given.
-/
import Mathlib.Data.Multiset.DershowitzManna
import PathGlob.Proofs.Brace.Length

namespace PathGlob.Brace

/-- The patterns that have been found, in order, and those that wait to be looked at, the next one
first. -/
structure Worklist where
  found : List (List Char) := []
  waiting : List (List Char)

namespace Worklist

/-- The worklist of a whole pattern. -/
def ofPattern (pattern : String) : Worklist := { waiting := [pattern.toList] }

/-- What a turn of the loop comes to. -/
inductive Turn where
  | done (found : List (List Char))
  /-- There are more patterns than the limit. -/
  | refused
  | next (w : Worklist)

/-- The worklist once a pattern, just taken off, has been looked at. -/
def lookAt (w : Worklist) (pattern : List Char) : Worklist :=
  match firstSet? pattern with
  | none => { w with found := w.found ++ [pattern] }
  | some l => { w with waiting := l.patterns ++ w.waiting }

/-- A turn of the loop. Here the patterns of a set are counted with the others, so a range of more values
than the limit is refused where a list of as many would be. -/
def turn (limit : Nat) (w : Worklist) : Turn :=
  match w.waiting with
  | [] => .done w.found
  | pattern :: rest =>
    let w := lookAt { w with waiting := rest } pattern
    if w.found.length + w.waiting.length ≤ limit then .next w else .refused

/-- Up to so many turns of the loop. -/
def turns (limit : Nat) : Nat → Worklist → Turn
  | 0, w => .next w
  | n + 1, w =>
    match w.turn limit with
    | .next w => w.turns limit n
    | t => t

variable {limit : Nat} {w w' : Worklist}

/-! ## The loop ends -/

/-- What a turn takes off and what it puts on instead. -/
theorem exists_of_turn (h : w.turn limit = .next w') : ∃ pattern rest,
    w.waiting = pattern :: rest ∧ w' = lookAt { w with waiting := rest } pattern ∧
      w'.found.length + w'.waiting.length ≤ limit := by
  unfold turn at h
  split at h
  · cases h
  · rename_i pattern rest hwaiting
    simp only at h
    split at h <;> cases h
    exact ⟨pattern, rest, hwaiting, rfl, by assumption⟩

/-- Each pattern that a turn puts on is shorter than the one that it took off. -/
theorem shorter_of_turn (h : w.turn limit = .next w') : ∃ pattern rest pushed,
    w.waiting = pattern :: rest ∧ w'.waiting = pushed ++ rest ∧
      ∀ q ∈ pushed, q.length < pattern.length := by
  obtain ⟨pattern, rest, hwaiting, rfl, -⟩ := exists_of_turn h
  unfold lookAt
  cases hset : firstSet? pattern with
  | none => exact ⟨pattern, rest, [], hwaiting, rfl, nofun⟩
  | some l =>
    refine ⟨pattern, rest, l.patterns, hwaiting, rfl, fun q hq => ?_⟩
    obtain ⟨v, hv, rfl⟩ := List.mem_map.1 hq
    exact firstSet?_shorter hset hv

/-- The lengths of the patterns that wait. -/
def lengths (w : Worklist) : Multiset Nat := (w.waiting.map List.length : Multiset Nat)

/-- A turn replaces a length by any number of smaller ones. -/
theorem lengths_of_turn (h : w.turn limit = .next w') : w'.lengths.IsDershowitzMannaLT w.lengths := by
  obtain ⟨pattern, rest, pushed, hwaiting, hwaiting', hshorter⟩ := shorter_of_turn h
  refine ⟨(rest.map List.length : Multiset Nat), (pushed.map List.length : Multiset Nat),
    {pattern.length}, Multiset.singleton_ne_zero _, ?_, ?_, ?_⟩
  · rw [lengths, hwaiting', List.map_append, ← Multiset.coe_add, add_comm]
  · rw [lengths, hwaiting, List.map_cons, ← Multiset.cons_coe, ← Multiset.singleton_add, add_comm]
  · intro n hn
    obtain ⟨q, hq, rfl⟩ := List.mem_map.1 (Multiset.mem_coe.1 hn)
    exact ⟨pattern.length, Multiset.mem_singleton_self _, hshorter q hq⟩

theorem wellFounded_turn (limit : Nat) : WellFounded fun w' w : Worklist => w.turn limit = .next w' :=
  (InvImage.wf lengths Multiset.wellFounded_isDershowitzMannaLT).mono fun _ _ h => lengths_of_turn h

theorem turns_succ_of_next (h : w.turn limit = .next w') (n : Nat) :
    w.turns limit (n + 1) = w'.turns limit n := by
  rw [turns, h]

theorem exists_turns_end (limit : Nat) (w : Worklist) : ∃ n, ∀ w', w.turns limit n ≠ .next w' := by
  induction w using (wellFounded_turn limit).induction with
  | _ w ih =>
    cases hturn : w.turn limit with
    | next w' =>
      obtain ⟨n, hn⟩ := ih w' hturn
      exact ⟨n + 1, fun u => by rw [turns_succ_of_next hturn]; exact hn u⟩
    | done found => exact ⟨1, fun u => by rw [turns, hturn]; exact nofun⟩
    | refused => exact ⟨1, fun u => by rw [turns, hturn]; exact nofun⟩

/-! ## What it ends in -/

/-- All that a worklist comes to, however much it is. -/
def total (w : Worklist) : List (List Char) := w.found ++ w.waiting.flatMap expansions

theorem length_le_total (w : Worklist) : w.found.length + w.waiting.length ≤ w.total.length := by
  rw [total, List.length_append]
  exact Nat.add_le_add_left (length_le_flatMap_expansions _) _

theorem total_lookAt (w : Worklist) (pattern : List Char) :
    (w.lookAt pattern).total = w.found ++ (expansions pattern ++ w.waiting.flatMap expansions) := by
  unfold lookAt total
  cases hset : firstSet? pattern with
  | none => rw [expansions_of_none hset, List.append_assoc]
  | some l => rw [expansions_of_some hset, List.flatMap_append]

theorem total_of_waiting {pattern : List Char} {rest : List (List Char)}
    (h : w.waiting = pattern :: rest) : (lookAt { w with waiting := rest } pattern).total = w.total := by
  rw [total_lookAt, total, h, List.flatMap_cons]

theorem total_of_turn (h : w.turn limit = .next w') : w'.total = w.total := by
  obtain ⟨pattern, rest, hwaiting, rfl, -⟩ := exists_of_turn h
  exact total_of_waiting hwaiting

/-- The loop gives all that a worklist comes to, and refuses what is more than the limit. It asks for the
limit in each turn, so not where nothing waits from the start. -/
theorem turns_eq_total {n : Nat} (hsize : w.waiting = [] → w.found.length ≤ limit)
    (hend : ∀ w', w.turns limit n ≠ .next w') :
    w.turns limit n = if w.total.length ≤ limit then .done w.total else .refused := by
  induction n generalizing w with
  | zero => exact absurd rfl (hend w)
  | succ n ih =>
    cases hturn : w.turn limit with
    | next w' =>
      rw [turns_succ_of_next hturn] at hend ⊢
      obtain ⟨-, -, -, -, hsize'⟩ := exists_of_turn hturn
      rw [ih (fun _ => Nat.le_of_add_right_le hsize') hend, total_of_turn hturn]
    | done found =>
      unfold turn at hturn
      split at hturn
      · rename_i hwaiting
        cases hturn
        have htotal : w.total = w.found := by rw [total, hwaiting, List.flatMap_nil, List.append_nil]
        rw [turns, turn, hwaiting, htotal, if_pos (hsize hwaiting)]
      · simp only at hturn
        split at hturn <;> cases hturn
    | refused =>
      rw [turns, hturn]
      unfold turn at hturn
      split at hturn
      · cases hturn
      · rename_i pattern rest hwaiting
        simp only at hturn
        split at hturn
        · cases hturn
        · rename_i hsize'
          have hmore := length_le_total (lookAt { w with waiting := rest } pattern)
          rw [total_of_waiting hwaiting] at hmore
          rw [if_neg (by omega)]

end Worklist

/-- The expansion of a pattern is a loop that ends, whatever its worklist and limit: each pattern that it
puts on is shorter than the one that it took off. No pattern that it gives is longer than the one that
was given, so none is refused for its length where that one is not. -/
theorem expand?_loop (limit : Nat) (pattern : String) :
    (∀ w w' : Worklist, w.turn limit = .next w' → ∃ item rest pushed,
      w.waiting = item :: rest ∧ w'.waiting = pushed ++ rest ∧ ∀ q ∈ pushed, q.length < item.length) ∧
    (∀ w : Worklist, ∃ n, ∀ w', w.turns limit n ≠ .next w') ∧
    (∃ n, (Worklist.ofPattern pattern).turns limit n =
      match expand? limit pattern with
      | some ps => .done (ps.map String.toList)
      | none => .refused) ∧
    ∀ ps, expand? limit pattern = some ps → ∀ p ∈ ps, p.length ≤ pattern.length ∧
      ∀ o : Options, checkLength o pattern = .ok () → checkLength o p = .ok () := by
  refine ⟨fun w w' h => Worklist.shorter_of_turn h, Worklist.exists_turns_end limit, ?_, ?_⟩
  · obtain ⟨n, hn⟩ := Worklist.exists_turns_end limit (.ofPattern pattern)
    have hwaiting : (Worklist.ofPattern pattern).waiting ≠ [] := List.cons_ne_nil _ _
    have htotal : (Worklist.ofPattern pattern).total = expansions pattern.toList := by
      simp [Worklist.total, Worklist.ofPattern]
    have hpatterns : (patterns pattern).map String.toList = expansions pattern.toList := by
      simp [patterns]
    have hlength : (patterns pattern).length = (expansions pattern.toList).length := List.length_map _
    refine ⟨n, ?_⟩
    rw [Worklist.turns_eq_total (fun h => absurd h hwaiting) hn, htotal, expand?_eq, hlength]
    split
    · simp only [hpatterns]
    · rfl
  · intro ps hps p hp
    have hle := length_le_of_mem_expand? hps hp
    refine ⟨hle, fun o ho => ?_⟩
    unfold checkLength at ho ⊢
    split at ho
    · rename_i hmax
      rw [if_pos (Nat.le_trans hle hmax)]
    · cases ho

/-- A range within a list, under the largest limit there is. -/
theorem expand?_loop_range : expand? (2 ^ 64 - 1) "{08..10},{a,b}" =
      some ["08,a", "08,b", "09,a", "09,b", "10,a", "10,b"] ∧
    (∃ n, (Worklist.ofPattern "{08..10},{a,b}").turns (2 ^ 64 - 1) n = .done
      (["08,a", "08,b", "09,a", "09,b", "10,a", "10,b"].map String.toList)) ∧
    checkLength { maxLength := 14 } "09,b" = .ok () := by
  have hexpand : expand? (2 ^ 64 - 1) "{08..10},{a,b}" =
      some ["08,a", "08,b", "09,a", "09,b", "10,a", "10,b"] := by decide +kernel
  obtain ⟨-, -, hloop, hlength⟩ := expand?_loop (2 ^ 64 - 1) "{08..10},{a,b}"
  rw [hexpand] at hloop
  exact ⟨hexpand, hloop, (hlength _ hexpand "09,b" (by simp)).2 { maxLength := 14 } rfl⟩

end PathGlob.Brace
