/-
What wildcards match. A glob of characters, `?`, `*` and components `**` is matched component by
component: `?` stands for a character and `*` for any characters of one component, and a component
`**` for any number of whole components. On candidates without hidden components this is what the
regular expression of such a glob finds, whatever guards it holds.
-/
import Mathlib.Data.List.Infix
import PathGlob.Proofs.Matcher.Answered
import PathGlob.Proofs.Path.Components

namespace PathGlob

open Regex PathGlob.Path

/-! ## Matching by components -/

namespace Wildcard

/-- Whether a component is a globstar, a run of two or more `*`. -/
def isGlobstar (p : List Char) : Bool := 2 ≤ p.length && p.all (· = '*')

/-- Whether two `*` stand next to each other. -/
def hasRun : List Char → Bool
  | [] => false
  | c :: cs => (c = '*' && cs.head? = some '*') || hasRun cs

/-- Matching of a component: `?` takes a character, `*` any characters, and every other character
itself. -/
def matchesComponent : List Char → List Char → Bool
  | [], c => c.isEmpty
  | '*' :: p, c => c.tails.any (matchesComponent p)
  | '?' :: _, [] => false
  | '?' :: p, _ :: c => matchesComponent p c
  | _ :: _, [] => false
  | x :: p, y :: c => x = y && matchesComponent p c

/-- Matching of the components of a path: a globstar takes any number of components, and at least
one if it comes last; every other component takes one. -/
def matchesPath : List (List Char) → List (List Char) → Bool
  | [], cs => cs.isEmpty
  | p :: ps, cs =>
    if isGlobstar p then if ps.isEmpty then !cs.isEmpty else cs.tails.any (matchesPath ps)
    else
      match cs with
      | [] => false
      | c :: cs => matchesComponent p c && matchesPath ps cs

/-- Only a glob without components matches a path without components. -/
theorem matchesPath_nil {ps : List (List Char)} (h : ps ≠ []) : matchesPath ps [] = false := by
  induction ps with
  | nil => exact absurd rfl h
  | cons p ps ih =>
    unfold matchesPath
    split
    · split
      · rfl
      · rename_i hps
        simpa using ih (by simpa using hps)
    · rfl

/-- A component without a run is matched on its own. -/
theorem matchesPath_cons {p : List Char} (hp : hasRun p = false) (ps : List (List Char))
    (c : List Char) (cs : List (List Char)) :
    matchesPath (p :: ps) (c :: cs) = (matchesComponent p c && matchesPath ps cs) := by
  have hglob : isGlobstar p = false := by
    match p with
    | [] | [_] => rfl
    | a :: b :: p =>
      simp only [hasRun, List.head?_cons, Option.some.injEq, Bool.or_eq_false_iff,
        Bool.and_eq_false_iff, decide_eq_false_iff_not] at hp
      simp only [isGlobstar, List.all_cons, Bool.and_eq_false_iff, decide_eq_false_iff_not]
      exact .inr (hp.1.imp id .inl)
  rw [matchesPath, hglob, if_neg (by decide)]

theorem hasRun_tail {c : Char} {p : List Char} (h : hasRun (c :: p) = false) : hasRun p = false := by
  rw [hasRun, Bool.or_eq_false_iff] at h
  exact h.2

/-- A separator in a glob is a separator in the text. -/
theorem matchesPath_separator {ps : List (List Char)} (hps : ps ≠ []) (t : List Char) :
    matchesPath ([] :: ps) (components t) = true ↔
      t.head? = some '/' ∧ matchesPath ps (components t.tail) = true := by
  have hnil : hasRun [] = false := rfl
  cases t with
  | nil => simp [matchesPath_cons hnil, matchesPath_nil hps]
  | cons x t =>
    by_cases hx : x = '/'
    · subst hx
      simp [matchesPath_cons hnil, matchesComponent]
    · obtain ⟨c, cs, hc⟩ := components_cons t
      simp [components_char hx hc, matchesPath_cons hnil, matchesComponent, hx]

/-- A `?` takes one character of a component. -/
theorem matchesPath_qmark {p : List Char} (hp : hasRun p = false) (ps : List (List Char))
    (t : List Char) : matchesPath (('?' :: p) :: ps) (components t) = true ↔
      (∃ x, t.head? = some x ∧ x ≠ '/') ∧ matchesPath (p :: ps) (components t.tail) = true := by
  have hq : hasRun ('?' :: p) = false := by rw [hasRun, hp]; rfl
  cases t with
  | nil => simp [matchesPath_cons hq, matchesComponent]
  | cons x t =>
    by_cases hx : x = '/'
    · subst hx
      simp [matchesPath_cons hq, matchesComponent]
    · obtain ⟨c, cs, hc⟩ := components_cons t
      simp [components_char hx hc, hc, matchesPath_cons hq, matchesPath_cons hp, matchesComponent, hx]

/-- Any other character takes itself. -/
theorem matchesPath_char {x : Char} {p : List Char} (hsep : x ≠ '/') (hstar : x ≠ '*')
    (hqmark : x ≠ '?') (hp : hasRun p = false) (ps : List (List Char)) (t : List Char) :
    matchesPath ((x :: p) :: ps) (components t) = true ↔
      t.head? = some x ∧ matchesPath (p :: ps) (components t.tail) = true := by
  have hx : hasRun (x :: p) = false := by rw [hasRun, hp]; simp [hstar]
  have hcons (c : List Char) : matchesComponent (x :: p) c =
      match c with
      | [] => false
      | y :: c => x = y && matchesComponent p c := by
    rw [matchesComponent.eq_def]
    split <;> simp_all
  cases t with
  | nil => simp [matchesPath_cons hx, hcons]
  | cons y t =>
    by_cases hy : y = '/'
    · subst hy
      simp [matchesPath_cons hx, hcons, Ne.symm hsep]
    · obtain ⟨c, cs, hc⟩ := components_cons t
      simp [components_char hy hc, hc, matchesPath_cons hx, matchesPath_cons hp, hcons, and_assoc,
        @eq_comm _ x]

/-- A `*` takes any characters up to the next separator. -/
theorem matchesPath_star {p : List Char} (hp : hasRun ('*' :: p) = false) (ps : List (List Char))
    (t : List Char) : matchesPath (('*' :: p) :: ps) (components t) = true ↔
      ∃ n ≤ t.length, (∀ k < n, t[k]? ≠ some '/') ∧
        matchesPath (p :: ps) (components (t.drop n)) = true := by
  obtain ⟨w, ws, hw⟩ := components_cons t
  obtain ⟨hhead, hmem⟩ := components_head hw
  -- the first component is the text up to its first separator
  have hle : w.length ≤ t.length ∧ ∀ k < w.length, t[k]? = w[k]? := by
    rcases hhead with ⟨-, rfl⟩ | ⟨rest, rfl, -⟩
    · exact ⟨Nat.le_refl _, fun _ _ => rfl⟩
    · exact ⟨by simp, fun k hk => List.getElem?_append_left hk⟩
  have hdrop {n : Nat} (hn : n ≤ w.length) : components (t.drop n) = w.drop n :: ws :=
    components_drop hw hn
  rw [hw, matchesPath_cons hp, Bool.and_eq_true, matchesComponent, List.any_eq_true]
  constructor
  · rintro ⟨⟨w', hw', hmatch⟩, hrest⟩
    obtain ⟨before, rfl⟩ := (List.mem_tails _ _).1 hw'
    refine ⟨before.length, by simp at hle; omega, fun k hk hsep => ?_, ?_⟩
    · rw [hle.2 k (by simp; omega)] at hsep
      exact hmem (List.mem_of_getElem? hsep)
    · rw [hdrop (by simp), List.drop_left, matchesPath_cons (hasRun_tail hp), hmatch, hrest]
      rfl
  · rintro ⟨n, hn, hsep, hmatch⟩
    have hlt : n ≤ w.length := by
      rcases hhead with ⟨-, rfl⟩ | ⟨rest, rfl, -⟩
      · exact hn
      · by_contra hgt
        exact hsep w.length (by omega) (by simp)
    rw [hdrop hlt, matchesPath_cons (hasRun_tail hp), Bool.and_eq_true] at hmatch
    exact ⟨⟨w.drop n, (List.mem_tails _ _).2 (List.drop_suffix _ _), hmatch.1⟩, hmatch.2⟩

/-- A globstar with something behind it takes any number of whole components. -/
theorem matchesPath_globstar {p : List Char} (hp : isGlobstar p = true) {ps : List (List Char)}
    (hps : ps ≠ []) (t : List Char) : matchesPath (p :: ps) (components t) = true ↔
      ∃ n ≤ t.length, StartsAt t n ∧ matchesPath ps (components (t.drop n)) = true := by
  rw [matchesPath.eq_def]
  simp only [hp, if_true, List.isEmpty_iff, hps, if_false, List.any_eq_true]
  obtain ⟨c, cs, hc⟩ := components_cons t
  constructor
  · rintro ⟨cs', hsuffix, hmatch⟩
    have hne : cs' ≠ [] := by
      rintro rfl
      rw [matchesPath_nil hps] at hmatch
      cases hmatch
    rw [List.mem_tails, hc, List.suffix_cons_iff] at hsuffix
    rcases hsuffix with rfl | hsuffix
    · exact ⟨0, Nat.zero_le _, .inl rfl, by rwa [List.drop_zero, hc]⟩
    · have htail := (suffix_tail_components t hne).1 (by rwa [hc])
      obtain ⟨n, hn, rfl⟩ := htail
      exact ⟨n + 1, (List.getElem?_eq_some_iff.1 hn).1, .inr ⟨n, rfl, hn⟩, hmatch⟩
  · rintro ⟨n, -, rfl | ⟨k, rfl, hk⟩, hmatch⟩
    · exact ⟨_, (List.mem_tails _ _).2 (List.suffix_refl _), hmatch⟩
    · obtain ⟨q, qs, hq⟩ := components_cons (t.drop (k + 1))
      refine ⟨_, (List.mem_tails _ _).2 ?_, hmatch⟩
      have hsuffix := (suffix_tail_components t (by rw [hq]; simp)).2 ⟨k, hk, rfl⟩
      exact hsuffix.trans (List.tail_suffix _)

end Wildcard

/-! ## Signs on candidates without hidden components -/

section Visible

variable {dot : Bool} {l : List Char} {i j : Nat}

/-- No component begins with a dot. -/
def Path.IsVisible (l : List Char) : Prop := ∀ i, StartsAt l i → l[i]? ≠ some '.'

/-- No guard refuses such a candidate. -/
theorem Path.IsVisible.not_hides (h : IsVisible l) (hi : StartsAt l i) :
    ¬ Fragment.Hides dot l.toArray i := fun hh => h i hi (by simpa using hh.1)

theorem Path.IsVisible.not_blocks (h : IsVisible l) : ¬ Fragment.Blocks dot l.toArray i := by
  rintro (⟨hsep, hh⟩ | ⟨-, hh⟩)
  · exact h.not_hides (.inr ⟨i, rfl, by simpa using hsep⟩) hh
  · exact h.not_hides (.inl rfl) hh

/-- On such a candidate a guard makes no difference. -/
theorem Path.IsVisible.spans_star (h : IsVisible l) {isGuarded : Bool}
    (hg : isGuarded = true → StartsAt l i) (hi : i ≤ l.length) :
    SpansAll false l.toArray (Glyph.regexes dot (.star isGuarded)) i j ↔
      i ≤ j ∧ j ≤ l.length ∧ ∀ k, i ≤ k → k < j → ∃ c, l[k]? = some c ∧ c ≠ '/' := by
  rw [Glyph.spans_star hi]
  exact and_iff_right fun hguarded => h.not_hides (hg hguarded)

theorem Path.IsVisible.spans_qmark (h : IsVisible l) {isFirst : Bool}
    (hg : isFirst = true → StartsAt l i) :
    SpansAll false l.toArray (Glyph.regexes dot (.qmark isFirst)) i j ↔
      (∃ c, l[i]? = some c ∧ c ≠ '/') ∧ j = i + 1 := by
  rw [Glyph.spans_qmark]
  refine and_congr_left fun _ => exists_congr fun c => and_congr_right fun hc => ?_
  refine and_iff_left fun hfirst _ => ?_
  rintro rfl
  exact h i (hg hfirst) hc

theorem Path.IsVisible.spans_globstar (h : IsVisible l) (hnl : ∀ c ∈ l, c ≠ '\n') {dots : Bool}
    (hi : i ≤ l.length) : SpansAll false l.toArray (Glyph.regexes dot (.globstar dots)) i j ↔
      i ≤ j ∧ j ≤ l.length := by
  rw [Glyph.spans_globstar hi]
  refine and_congr_right fun _ => and_iff_left_of_imp fun hj k _ hk => ⟨?_, h.not_blocks⟩
  exact ⟨l[k], List.getElem?_eq_getElem (by omega), hnl _ (List.getElem_mem _)⟩

/-! ## Globs and their components -/

/-- Expressions match the rest of a candidate if and only if components match those of the rest. -/
def Wildcard.Agrees (l : List Char) (rs : List Regex) (ps : List (List Char)) (i : Nat) : Prop :=
  SpansAll false l.toArray rs i l.length ↔ matchesPath ps (components (l.drop i)) = true

namespace Wildcard.Agrees

variable {rs os : List Regex} {p : List Char} {ps qs : List (List Char)}

theorem empty (hi : i ≤ l.length) : Agrees l [] [[]] i := by
  unfold Agrees
  obtain ⟨c, cs, hc⟩ := components_cons (l.drop i)
  have hnil : l.drop i = [] ↔ i = l.length := by
    rw [List.drop_eq_nil_iff]
    omega
  rw [spansAll_nil, ← hnil, ← components_eq_nil, hc, matchesPath_cons rfl]
  simp [matchesComponent, matchesPath]

/-- A sign that takes a single character. -/
theorem single {P : Prop} (hP : P → i < l.length)
    (hspans : ∀ j, SpansAll false l.toArray os i j ↔ P ∧ j = i + 1)
    (hmatches : matchesPath qs (components (l.drop i)) = true ↔
      P ∧ matchesPath ps (components (l.drop i).tail) = true)
    (h : P → i + 1 ≤ l.length → Agrees l rs ps (i + 1)) : Agrees l (os ++ rs) qs i := by
  unfold Agrees
  rw [hmatches, spansAll_append, List.tail_drop]
  constructor
  · rintro ⟨k, hk, hspans'⟩
    obtain ⟨hp, rfl⟩ := (hspans k).1 hk
    exact ⟨hp, (h hp (hP hp)).1 hspans'⟩
  · rintro ⟨hp, hmatch⟩
    exact ⟨i + 1, (hspans _).2 ⟨hp, rfl⟩, (h hp (hP hp)).2 hmatch⟩

theorem separator (hps : ps ≠ [])
    (h : ∀ k ≤ l.length, StartsAt l k → Agrees l rs ps k) :
    Agrees l (Glyph.regexes dot (.separator false) ++ rs) ([] :: ps) i := by
  refine single (P := l[i]? = some '/') (fun hsep => (List.getElem?_eq_some_iff.1 hsep).1)
    (fun j => ?_) ?_ fun hsep hi => h _ hi (.inr ⟨i, rfl, hsep⟩)
  · rw [Glyph.spans_separator]
    simp
  · rw [matchesPath_separator hps, List.head?_drop]

theorem char {c : Char} (hsep : c ≠ '/') (hstar : c ≠ '*') (hqmark : c ≠ '?')
    (hp : hasRun p = false) (h : ∀ k ≤ l.length, Agrees l rs (p :: ps) k) :
    Agrees l (Glyph.regexes dot (.char c) ++ rs) ((c :: p) :: ps) i := by
  refine single (P := l[i]? = some c) (fun hc => (List.getElem?_eq_some_iff.1 hc).1)
    (fun j => Glyph.spans_char) ?_ fun _ hi => h _ hi
  rw [matchesPath_char hsep hstar hqmark hp, List.head?_drop]

theorem qmark (hvisible : IsVisible l) {isFirst : Bool} (hfirst : isFirst = true → StartsAt l i)
    (hp : hasRun p = false) (h : ∀ k ≤ l.length, Agrees l rs (p :: ps) k) :
    Agrees l (Glyph.regexes dot (.qmark isFirst) ++ rs) (('?' :: p) :: ps) i := by
  refine single (P := ∃ c, l[i]? = some c ∧ c ≠ '/') ?_
    (fun j => hvisible.spans_qmark hfirst) ?_ fun _ hi => h _ hi
  · rintro ⟨c, hc, -⟩
    exact (List.getElem?_eq_some_iff.1 hc).1
  · rw [matchesPath_qmark hp, List.head?_drop]

theorem star (hvisible : IsVisible l) {isGuarded : Bool} (hguard : isGuarded = true → StartsAt l i)
    (hi : i ≤ l.length) (hp : hasRun ('*' :: p) = false)
    (h : ∀ k ≤ l.length, Agrees l rs (p :: ps) k) :
    Agrees l (Glyph.regexes dot (.star isGuarded) ++ rs) (('*' :: p) :: ps) i := by
  unfold Agrees
  rw [matchesPath_star hp, spansAll_append]
  simp only [hvisible.spans_star hguard hi, List.length_drop, List.drop_drop]
  constructor
  · rintro ⟨k, ⟨hik, hk, hsep⟩, hspans⟩
    refine ⟨k - i, by omega, fun m hm => ?_, ?_⟩
    · obtain ⟨x, hx, hne⟩ := hsep (i + m) (by omega) (by omega)
      rw [List.getElem?_drop, hx]
      simpa using hne
    · rw [Nat.add_sub_cancel' hik]
      exact (h k hk).1 hspans
  · rintro ⟨n, hn, hsep, hmatch⟩
    refine ⟨i + n, ⟨by omega, by omega, fun m him hm => ?_⟩, (h _ (by omega)).2 hmatch⟩
    have hlt : m < l.length := by omega
    refine ⟨l[m], List.getElem?_eq_getElem hlt, fun hx => hsep (m - i) (by omega) ?_⟩
    rw [List.getElem?_drop, Nat.add_sub_cancel' him, List.getElem?_eq_getElem hlt, hx]

/-- A globstar with its separator takes characters up to the start of a component. -/
theorem globstar (hvisible : IsVisible l) (hnl : ∀ c ∈ l, c ≠ '\n') {dots : Bool}
    (hi : i ≤ l.length) (hstart : StartsAt l i) (hp : isGlobstar p = true) (hps : ps ≠ [])
    (h : ∀ k ≤ l.length, StartsAt l k → Agrees l rs ps k) :
    Agrees l (Glyph.regexes dot (.globstar dots) ++ (Glyph.regexes dot (.separator true) ++ rs))
      (p :: ps) i := by
  unfold Agrees
  rw [matchesPath_globstar hp hps]
  simp only [spansAll_append, hvisible.spans_globstar hnl hi, Glyph.spans_separator, List.drop_drop]
  constructor
  · rintro ⟨k, ⟨hik, hk⟩, k', hk', hspans⟩
    obtain ⟨hik', hk'l, hs⟩ : i ≤ k' ∧ k' ≤ l.length ∧ StartsAt l k' := by
      rcases hk' with ⟨hsep, rfl⟩ | ⟨-, hs, rfl⟩
      · exact ⟨by omega, (List.getElem?_eq_some_iff.1 hsep).1, .inr ⟨k, rfl, hsep⟩⟩
      · exact ⟨hik, hk, hs⟩
    refine ⟨k' - i, by simp; omega, (startsAt_drop hstart _).2 ?_, ?_⟩
    · rwa [Nat.add_sub_cancel' hik']
    · rw [Nat.add_sub_cancel' hik']
      exact (h k' hk'l hs).1 hspans
  · rintro ⟨k, hk, hs, hmatch⟩
    rw [List.length_drop] at hk
    rw [startsAt_drop hstart] at hs
    exact ⟨i + k, ⟨Nat.le_add_right _ _, by omega⟩, i + k, .inr ⟨trivial, hs, rfl⟩,
      (h _ (by omega) hs).2 hmatch⟩

end Wildcard.Agrees

end Visible

/-! ## Matchers of globs of wildcards -/

end PathGlob
