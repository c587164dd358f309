/-
Expressions that lead to the same places behind the start of a text, and in the same order. All operators
keep this relation, also those for which it counts which match is preferred.
-/
import Mathlib.Data.List.Forall2
import PathGlob.Proofs.Glob.Meaning

namespace PathGlob.Regex

/-! ## Searches behind the start -/

/-- A place of a text of `n` characters, behind its start. -/
def IsInside (n i : Nat) : Prop := 0 < i ∧ i ≤ n

section Searches

variable {f g : Nat → List Nat} {n i j m : Nat} {is : List Nat}

theorem IsInside.onward (hi : IsInside n i) (hf : Onward f n) (hj : j ∈ f i) : IsInside n j := by
  obtain ⟨hpos, hle⟩ := hi
  obtain ⟨hij, hjn⟩ := hf i j hle hj
  exact ⟨Nat.lt_of_lt_of_le hpos hij, hjn⟩

theorem after_congr (h : ∀ i ∈ is, f i = g i) : after is f = after is g := by
  unfold after
  rw [List.flatMap_congr h]

/-- A visit goes only forward, so it depends on no place at or before the start. -/
theorem visit_congr (hf : Onward f n) (h : ∀ i, IsInside n i → g i = f i) (isLazy : Bool) (room : Nat)
    (t : Tour) (hi : IsInside n i) : Tour.visit g isLazy room t i = Tour.visit f isLazy room t i := by
  induction room generalizing t i with
  | zero => rfl
  | succ room ih =>
    have hfollow (u : Tour) : (f i).foldl (Tour.follow g isLazy room i) u =
        (f i).foldl (Tour.follow f isLazy room i) u := by
      apply List.foldl_ext
      intro u j hj
      -- what is found from a place is behind the start as well
      unfold Tour.follow
      split
      · exact ih u (hi.onward hf hj)
      · rfl
    rw [Tour.visit_succ, Tour.visit_succ, h i hi, hfollow]

theorem repeatAny_congr (hf : Onward f n) (h : ∀ i, IsInside n i → g i = f i) (isLazy : Bool)
    (room : Nat) (his : ∀ i ∈ is, IsInside n i) :
    repeatAny g isLazy room is = repeatAny f isLazy room is := by
  have hvisits : is.foldl (Tour.visit g isLazy room) {} = is.foldl (Tour.visit f isLazy room) {} := by
    apply List.foldl_ext
    intro t i hi
    exact visit_congr hf h isLazy room t (his i hi)
  rw [repeatAny, repeatAny, hvisits]

theorem repeatExactly_congr (hf : Onward f n) (h : ∀ i, IsInside n i → g i = f i)
    (his : ∀ i ∈ is, IsInside n i) : repeatExactly g m is = repeatExactly f m is := by
  induction m generalizing is with
  | zero => rfl
  | succ m ih =>
    have hafter : after is g = after is f := after_congr fun i hi => h i (his i hi)
    rw [repeatExactly, repeatExactly, hafter]
    apply ih
    intro j hj
    obtain ⟨i, hi, hj⟩ := mem_after.1 hj
    exact (his i hi).onward hf hj

theorem repeatUpTo_congr (hf : Onward f n) (h : ∀ i, IsInside n i → g i = f i) (isLazy : Bool)
    (hi : IsInside n i) : repeatUpTo g isLazy m i = repeatUpTo f isLazy m i := by
  induction m generalizing i with
  | zero => rfl
  | succ m ih =>
    have hafter : after (f i) (repeatUpTo g isLazy m) = after (f i) (repeatUpTo f isLazy m) :=
      after_congr fun j hj => ih (hi.onward hf hj)
    rw [repeatUpTo, repeatUpTo, h i hi, hafter]

end Searches

/-! ## Expressions -/

/-- Two expressions lead to the same places from everywhere behind the start of a text, and nothing else
tells them apart: neither can be told by an automaton unless they are the same. -/
structure Agrees (nocase : Bool) (s : Array Char) (r r' : Regex) : Prop where
  isPlain : r'.isPlain = r.isPlain
  eq_of_isPlain : r.isPlain = true → r' = r
  isRepeatable : r'.isRepeatable = r.isRepeatable
  ends : ∀ i, IsInside s.size i → r'.ends nocase s i = r.ends nocase s i

namespace Agrees

variable {nocase : Bool} {s : Array Char} {r r' a a' b b' : Regex}

theorem refl (r : Regex) : Agrees nocase s r r := ⟨rfl, fun _ => rfl, rfl, fun _ _ => rfl⟩

theorem eq_empty_iff (h : Agrees nocase s r r') : r' = .empty ↔ r = .empty := by
  constructor
  · rintro rfl
    exact (h.eq_of_isPlain h.isPlain.symm).symm
  · rintro rfl
    exact h.eq_of_isPlain rfl

theorem seq (ha : Agrees nocase s a a') (hb : Agrees nocase s b b') :
    Agrees nocase s (.seq a b) (.seq a' b') := by
  constructor
  · rw [Regex.isPlain, Regex.isPlain, ha.isPlain, hb.isPlain]
  · intro hplain
    obtain ⟨hpa, hpb⟩ := (Bool.and_eq_true _ _).mp hplain
    rw [ha.eq_of_isPlain hpa, hb.eq_of_isPlain hpb]
  · rfl
  · intro i hi
    rw [Regex.ends, Regex.ends, ha.ends i hi]
    exact after_congr fun j hj => hb.ends j (hi.onward (onward_ends nocase s a) hj)

theorem append (ha : Agrees nocase s a a') (hb : Agrees nocase s b b') :
    Agrees nocase s (a.append b) (a'.append b') := by
  unfold Regex.append
  simp only [ha.eq_empty_iff, hb.eq_empty_iff]
  split
  · exact hb
  · split
    · exact ha
    · exact ha.seq hb

theorem alt (ha : Agrees nocase s a a') (hb : Agrees nocase s b b') :
    Agrees nocase s (.alt a b) (.alt a' b') := by
  constructor
  · rw [Regex.isPlain, Regex.isPlain, ha.isPlain, hb.isPlain]
  · intro hplain
    obtain ⟨hpa, hpb⟩ := (Bool.and_eq_true _ _).mp hplain
    rw [ha.eq_of_isPlain hpa, hb.eq_of_isPlain hpb]
  · rfl
  · intro i hi
    rw [Regex.ends, Regex.ends, ha.ends i hi, hb.ends i hi]

theorem alts {as as' : List Regex} (h : Agrees nocase s a a')
    (hs : List.Forall₂ (Agrees nocase s) as as') : Agrees nocase s (.alts a as) (.alts a' as') := by
  induction hs generalizing a a' with
  | nil => exact h
  | cons hb _ ih => exact h.alt (ih hb)

theorem capture (h : Agrees nocase s r r') : Agrees nocase s (.capture r) (.capture r') :=
  ⟨h.isPlain, fun hplain => congrArg Regex.capture (h.eq_of_isPlain hplain), rfl, h.ends⟩

theorem loop (h : Agrees nocase s r r') (lo : Nat) (hi : Option Nat) (isLazy : Bool) :
    Agrees nocase s (.loop r lo hi isLazy) (.loop r' lo hi isLazy) := by
  refine ⟨h.isPlain, fun hplain => ?_, rfl, fun i hinside => ?_⟩
  · rw [h.eq_of_isPlain hplain]
  · have honward := onward_ends nocase s r
    have hfirst : ∀ k ∈ repeatExactly (r.ends nocase s) lo [i], IsInside s.size k := by
      intro k hk
      obtain ⟨i', hi', hruns⟩ := mem_repeatExactly.1 hk
      rw [List.mem_singleton.1 hi'] at hruns
      obtain ⟨hik, hks⟩ := hruns.onward honward hinside.2
      exact ⟨Nat.lt_of_lt_of_le hinside.1 hik, hks⟩
    have hruns : repeatExactly (r'.ends nocase s) lo [i] = repeatExactly (r.ends nocase s) lo [i] :=
      repeatExactly_congr honward h.ends (List.forall_mem_singleton.2 hinside)
    cases hi with
    | none =>
      rw [Regex.ends, Regex.ends, hruns]
      exact repeatAny_congr honward h.ends isLazy _ hfirst
    | some hi =>
      rw [Regex.ends, Regex.ends, hruns]
      exact after_congr fun k hk => repeatUpTo_congr honward h.ends isLazy (hfirst k hk)

theorem atomic (h : Agrees nocase s r r') : Agrees nocase s (.atomic r) (.atomic r') := by
  refine ⟨rfl, nofun, rfl, fun i hi => ?_⟩
  rw [Regex.ends, Regex.ends, h.ends i hi, preferred, preferred, h.isPlain]
  split
  · rename_i hplain
    rw [h.eq_of_isPlain hplain]
  · rfl

theorem notAhead (h : Agrees nocase s r r') :
    Agrees nocase s (.look .notAhead r) (.look .notAhead r') := by
  refine ⟨rfl, nofun, rfl, fun i hi => ?_⟩
  rw [Regex.ends, Regex.ends, h.ends i hi]

end Agrees

/-- Sequences match the same from everywhere behind the start if their expressions agree one by one. -/
theorem spansAll_congr {nocase : Bool} {s : Array Char} {rs rs' : List Regex}
    (h : List.Forall₂ (Agrees nocase s) rs rs') {i j : Nat} (hi : IsInside s.size i) :
    SpansAll nocase s rs' i j ↔ SpansAll nocase s rs i j := by
  induction h generalizing i with
  | nil => rfl
  | @cons r r' rs rs' hr _ ih =>
    have hspans (k : Nat) : Spans nocase s r' i k ↔ Spans nocase s r i k := by
      unfold Spans
      rw [hr.ends i hi]
    rw [spansAll_cons, spansAll_cons]
    refine exists_congr fun k => ?_
    rw [hspans]
    exact and_congr_right fun hk => ih (hi.onward (onward_ends nocase s r) hk)

end PathGlob.Regex
