/-
What matchers are made of. Each pattern and each of its expansions is compiled by itself, so a matcher
is built where each of them compiles, and what it accepts is said by the matchers of its patterns.
-/
import Mathlib.Data.List.Forall2
import PathGlob.Matcher

namespace PathGlob

/-! ## Lists of results -/

section Lists

variable {α β γ ε : Type} {f : α → Except ε β} {xs : List α} {ys : List β}

theorem mapM_cons_ok_iff {x : α} {zs : List β} : (x :: xs).mapM f = .ok zs ↔
    ∃ y ys, f x = .ok y ∧ xs.mapM f = .ok ys ∧ zs = y :: ys := by
  rw [List.mapM_cons]
  cases f x with
  | error e => simp [bind, Except.bind]
  | ok y =>
    cases xs.mapM f with
    | error e => simp [bind, Except.bind]
    | ok ys => simp [bind, Except.bind, pure, Except.pure, eq_comm]

/-- A list of results is there when each of them is. -/
theorem exists_mapM_ok_iff : (∃ ys, xs.mapM f = .ok ys) ↔ ∀ x ∈ xs, ∃ y, f x = .ok y := by
  induction xs with
  | nil => simp [pure, Except.pure]
  | cons x xs ih =>
    simp only [mapM_cons_ok_iff, List.forall_mem_cons, ← ih]
    constructor
    · rintro ⟨_, y, ys, hy, hys, -⟩
      exact ⟨⟨y, hy⟩, ys, hys⟩
    · rintro ⟨⟨y, hy⟩, ys, hys⟩
      exact ⟨_, y, ys, hy, hys, rfl⟩

/-- Results that are there one by one are those of the items. -/
theorem exists_mem_of_mapM_ok (h : xs.mapM f = .ok ys) (P : β → Prop) :
    (∃ y ∈ ys, P y) ↔ ∃ x ∈ xs, ∃ y, f x = .ok y ∧ P y := by
  induction xs generalizing ys with
  | nil =>
    cases h
    simp
  | cons x xs ih =>
    obtain ⟨y, ys, hy, hys, rfl⟩ := mapM_cons_ok_iff.1 h
    simp only [List.mem_cons, exists_eq_or_imp, ih hys, hy, Except.ok.injEq, exists_eq_left']

theorem mem_of_mapM_ok (h : xs.mapM f = .ok ys) {y : β} (hy : y ∈ ys) : ∃ x ∈ xs, f x = .ok y := by
  simpa using (exists_mem_of_mapM_ok h (· = y)).1 ⟨y, hy, rfl⟩

theorem forall_mem_of_mapM_ok (h : xs.mapM f = .ok ys) (P : β → Prop) :
    (∀ y ∈ ys, P y) ↔ ∀ x ∈ xs, ∃ y, f x = .ok y ∧ P y := by
  induction xs generalizing ys with
  | nil =>
    cases h
    simp
  | cons x xs ih =>
    obtain ⟨y, ys, hy, hys, rfl⟩ := mapM_cons_ok_iff.1 h
    simp only [List.forall_mem_cons, ih hys, hy, Except.ok.injEq, exists_eq_left']

theorem all_congr_left {p q : α → Bool} (h : ∀ x ∈ xs, p x = q x) : xs.all p = xs.all q := by
  simpa [List.all_map] using congrArg (List.all · id) (List.map_congr_left h)

theorem any_congr_left {p q : α → Bool} (h : ∀ x ∈ xs, p x = q x) : xs.any p = xs.any q := by
  simpa [List.any_map] using congrArg (List.any · id) (List.map_congr_left h)

theorem length_of_mapM_ok (h : xs.mapM f = .ok ys) : ys.length = xs.length := by
  induction xs generalizing ys with
  | nil =>
    cases h
    rfl
  | cons x xs ih =>
    obtain ⟨y, ys, -, hys, rfl⟩ := mapM_cons_ok_iff.1 h
    rw [List.length_cons, List.length_cons, ih hys]

/-- Results may be completed with their items one by one or all at the end. -/
theorem mapM_zipWith {h : α → Except ε γ} {g : α → β → γ} (hg : ∀ x ∈ xs, h x = (f x).map (g x)) :
    xs.mapM h = (xs.mapM f).map (List.zipWith g xs) := by
  induction xs with
  | nil => rfl
  | cons x xs ih =>
    rw [List.mapM_cons, List.mapM_cons, hg x (by simp), ih fun x hx => hg x (by simp [hx])]
    cases f x with
    | error e => rfl
    | ok y => cases xs.mapM f <;> rfl

/-- Two results go together: both are there and related, or both are missing for the same reason. -/
def Alike (R : β → γ → Prop) : Except ε β → Except ε γ → Prop
  | .ok y, .ok z => R y z
  | .error e, .error e' => e = e'
  | _, _ => False

section Alike

variable {δ ζ : Type} {R : β → γ → Prop} {S : δ → ζ → Prop} {x : Except ε β} {y : Except ε γ}

theorem Alike.bind (h : Alike R x y) {u : β → Except ε δ} {v : γ → Except ε ζ}
    (hS : ∀ a b, R a b → Alike S (u a) (v b)) : Alike S (x >>= u) (y >>= v) := by
  cases x with
  | error e =>
    cases y with
    | error e' => exact h
    | ok b => exact h.elim
  | ok a =>
    cases y with
    | error e => exact h.elim
    | ok b => exact hS a b h

theorem Alike.and_ok (h : Alike R x y) : Alike (fun a b => x = .ok a ∧ y = .ok b ∧ R a b) x y := by
  cases x with
  | error e => cases y <;> exact h
  | ok a =>
    cases y with
    | error e => exact h
    | ok b => exact ⟨rfl, rfl, h⟩

theorem Alike.exists_ok (h : Alike R x y) {a : β} (hx : x = .ok a) : ∃ b, y = .ok b ∧ R a b := by
  subst hx
  cases y with
  | error e => exact h.elim
  | ok b => exact ⟨b, rfl, h⟩

/-- Results that go together are both values or both the same error. -/
theorem Alike.cases (h : Alike R x y) :
    (∃ a b, x = .ok a ∧ y = .ok b ∧ R a b) ∨ ∃ e, x = .error e ∧ y = .error e := by
  cases x with
  | error e =>
    cases y with
    | error e' =>
      obtain rfl : e = e' := h
      exact .inr ⟨e, rfl, rfl⟩
    | ok b => exact h.elim
  | ok a =>
    cases y with
    | error e => exact h.elim
    | ok b => exact .inl ⟨a, b, rfl, rfl, h⟩

theorem Alike.mono {T : β → γ → Prop} (h : Alike R x y) (hT : ∀ a b, R a b → T a b) : Alike T x y := by
  rcases h.cases with ⟨a, b, rfl, rfl, hab⟩ | ⟨e, rfl, rfl⟩
  · exact hT a b hab
  · rfl

/-- Results that both go with a third go together. -/
theorem Alike.join {η : Type} {T : η → γ → Prop} {z : Except ε η} (h : Alike R x y) (h' : Alike T z y) :
    Alike (fun a c => ∃ b, y = .ok b ∧ R a b ∧ T c b) x z := by
  rcases h.cases with ⟨a, b, rfl, rfl, hab⟩ | ⟨e, rfl, rfl⟩
  · cases z with
    | error e => exact h'.elim
    | ok c => exact ⟨b, rfl, hab, h'⟩
  · cases z with
    | error e' => exact h'.symm
    | ok c => exact h'.elim

theorem Alike.map (h : Alike R x y) {u : β → δ} {v : γ → ζ} (hS : ∀ a b, R a b → S (u a) (v b)) :
    Alike S (x.map u) (y.map v) := by
  have hbind : Alike S (x >>= fun a => .ok (u a)) (y >>= fun b => .ok (v b)) := h.bind hS
  cases x <;> cases y <;> exact hbind

end Alike

/-- Lists of results go together if their items do. -/
theorem mapM_alike {R : β → γ → Prop} {g : α → Except ε γ} (h : ∀ x ∈ xs, Alike R (f x) (g x)) :
    Alike (List.Forall₂ R) (xs.mapM f) (xs.mapM g) := by
  induction xs with
  | nil => exact .nil
  | cons x xs ih =>
    have hx := h x (by simp)
    have hxs := ih fun x hx => h x (by simp [hx])
    rw [List.mapM_cons, List.mapM_cons]
    exact hx.bind fun _ _ hyz => hxs.bind fun _ _ htail => .cons hyz htail

end Lists

theorem exists_ok_of_any {α ε : Type} {x : Except ε α} {p : α → Bool}
    (h : x.toOption.any p = true) : ∃ a, x = .ok a ∧ p a = true := by
  cases x with
  | error e => cases h
  | ok a => exact ⟨a, rfl, h⟩

/-! ## Groups -/

namespace Group

variable {o : Options} {pattern : String}

/-- The group of a pattern that stands for itself. -/
def single (pattern : String) (q : Rendering × Program) : Group := { pattern, members := [q] }

@[simp] theorem accepts_single (q : Rendering × Program) (candidate : String) :
    (single pattern q).accepts candidate = q.2.accepts candidate := by
  simp [single, accepts_eq]

theorem expansions_ok_iff (hbrace : o.nobrace = false) {ps : List String} :
    expansions o pattern = .ok ps ↔ Brace.expand? o.maxExpansions pattern = some ps := by
  rw [expansions, hbrace, if_neg (by decide)]
  cases Brace.expand? o.maxExpansions pattern <;> simp

theorem member_ok_iff {q : Rendering × Program} : member o pattern = .ok q ↔
    render o pattern = .ok q.1 ∧ Program.compile o pattern q.1 = .ok q.2 := by
  unfold member
  cases render o pattern with
  | error e => simp [bind, Except.bind]
  | ok r =>
    cases hp : Program.compile o pattern r with
    | error e =>
      simp only [bind, Except.bind, hp, reduceCtorEq, Except.ok.injEq, false_iff, not_and]
      rintro rfl h
      cases hp.symm.trans h
    | ok p =>
      simp only [bind, Except.bind, hp, pure, Except.pure, Except.ok.injEq, Prod.ext_iff]
      refine and_congr_right ?_
      rintro rfl
      simp [hp]

/-- A pattern is compiled by compiling its expansions. -/
theorem compile_eq {ps : List String} (hps : expansions o pattern = .ok ps)
    (hlength : pattern.length ≤ o.maxLength) :
    compile o pattern = (ps.mapM (member o)).map ({ pattern, members := · }) := by
  unfold compile
  rw [hps, checkLength, if_pos hlength]
  cases h : ps.mapM (member o) <;> simp [bind, Except.bind, h, Except.map, pure, Except.pure]

/-- Where brace sets stand for themselves a pattern has one member. -/
theorem compile_nobrace (hlength : pattern.length ≤ o.maxLength) :
    compile { o with nobrace := true } pattern = (member o pattern).map (single pattern) := by
  have hps : expansions { o with nobrace := true } pattern = .ok [pattern] := rfl
  rw [compile_eq hps hlength, List.mapM_cons]
  change Except.map _ (member o pattern >>= _) = _
  cases member o pattern <;> rfl

section Verdicts

variable {members : List (Rendering × Program)}

/-- Unless all members are negated, any of them may accept. -/
theorem accepts_of_positive (h : ∃ q ∈ members, q.1.negated = false) (path : String) :
    accepts { pattern, members } path = members.any (·.2.accepts path) := by
  have hnegated : isNegated { pattern, members } = false := by
    obtain ⟨q, hq, hpositive⟩ := h
    rw [isNegated, Bool.and_eq_false_iff, List.all_eq_false]
    exact .inr ⟨q, hq, by simp [hpositive]⟩
  rw [accepts_eq, hnegated, if_neg (by decide)]

theorem accepts_of_all_positive (h : ∀ q ∈ members, q.1.negated = false) (path : String) :
    accepts { pattern, members } path = members.any (·.2.accepts path) := by
  cases members with
  | nil => rfl
  | cons q members => exact accepts_of_positive ⟨q, List.mem_cons_self, h q List.mem_cons_self⟩ path

/-- If all members are negated, all of them must accept. -/
theorem accepts_of_negated (hne : members ≠ []) (h : ∀ q ∈ members, q.1.negated = true)
    (path : String) : accepts { pattern, members } path = members.all (·.2.accepts path) := by
  have hnegated : isNegated { pattern, members } = true := by simpa [isNegated, hne] using h
  rw [accepts_eq, if_pos hnegated]

end Verdicts
end Group

/-! ## Matchers -/

namespace Matcher

variable {o : Options} {pattern : String} {m : Matcher}

theorem ofPatterns_eq (o : Options) (ps : List String) : ofPatterns o ps =
    (ps.mapM (Group.compile o)).map ({ windows := o.windows, groups := · }) := by
  unfold ofPatterns
  cases ps.mapM (Group.compile o) <;> rfl

theorem ofPattern_eq (o : Options) (pattern : String) : ofPattern o pattern =
    (Group.compile o pattern).map fun g => { windows := o.windows, groups := [g] } := by
  rw [ofPattern, ofPatterns_eq, List.mapM_cons]
  cases Group.compile o pattern <;> rfl

theorem length_le_of_ok (h : ofPattern o pattern = .ok m) : pattern.length ≤ o.maxLength := by
  refine Decidable.byContradiction fun hlong => ?_
  rw [ofPattern_eq, Group.compile, checkLength, if_neg hlong] at h
  cases h

/-- A matcher accepts what the matcher of one of its groups accepts. -/
theorem accepts_iff_group (m : Matcher) (candidate : String) : m.accepts candidate = true ↔
    ∃ g ∈ m.groups, accepts { windows := m.windows, groups := [g] } candidate = true := by
  simp only [accepts_eq]
  cases m.windows with
  | false => simp [test]
  | true =>
    cases htrim : Path.trimSeparator? (Path.unixify candidate) with
    | none => simp
    | some path => simp [exists_or, and_or_left]

/-- A matcher of several patterns is built where each of them has a matcher. -/
theorem ofPatterns_ok_iff {ps : List String} :
    (∃ m, ofPatterns o ps = .ok m) ↔ ∀ p ∈ ps, ∃ m, ofPattern o p = .ok m := by
  have hgroup (p : String) : (∃ m, ofPattern o p = .ok m) ↔ ∃ g, Group.compile o p = .ok g := by
    rw [ofPattern_eq]
    cases Group.compile o p <;> simp [Except.map]
  simp only [hgroup, ← exists_mapM_ok_iff, ofPatterns_eq]
  cases ps.mapM (Group.compile o) <;> simp [Except.map]

/-- A matcher of several patterns accepts what the matcher of one of them accepts. -/
theorem accepts_ofPatterns {ps : List String} (h : ofPatterns o ps = .ok m) (candidate : String) :
    m.accepts candidate = true ↔
      ∃ p ∈ ps, ∃ m', ofPattern o p = .ok m' ∧ m'.accepts candidate = true := by
  rw [ofPatterns_eq] at h
  cases hgs : ps.mapM (Group.compile o) with
  | error e => rw [hgs] at h; cases h
  | ok gs =>
    rw [hgs] at h
    cases h
    rw [accepts_iff_group, exists_mem_of_mapM_ok hgs]
    refine exists_congr fun p => and_congr_right fun _ => ?_
    rw [ofPattern_eq]
    cases Group.compile o p <;> simp [Except.map]

end Matcher

end PathGlob
