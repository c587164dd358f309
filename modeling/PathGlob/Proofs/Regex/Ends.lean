/-
Where a match can end: membership in the list of ends, constructor by constructor. The order in
which the ends are listed only matters to `atomic`, of which we know that it keeps some of the ends
of its body. A loop without upper bound ends where a chain of runs of its body leads; that its
search finds them all is a matter of what a visit leaves closed.
-/
import Mathlib.Data.List.Basic
import Mathlib.Logic.Relation
import Mathlib.Tactic.Common
import PathGlob.Regex.Search

namespace PathGlob.Regex

open Relation (ReflTransGen)

/-! ## Lists of positions -/

theorem testBit_or_shift (m i j : Nat) :
    (m ||| 1 <<< i).testBit j = true ↔ m.testBit j = true ∨ j = i := by
  simp only [Nat.testBit_or, Nat.one_shiftLeft, Nat.testBit_two_pow, Bool.or_eq_true,
    decide_eq_true_eq]
  exact or_congr Iff.rfl eq_comm

namespace Ends

/-- The bits agree with the positions found. -/
def WF (e : Ends) : Prop := ∀ i, e.seen.testBit i = true ↔ i ∈ e.found

theorem wf_empty : ({} : Ends).WF := fun i => by rw [Nat.zero_testBit]; simp

theorem WF.add {e : Ends} (h : e.WF) (i : Nat) : (e.add i).WF := by
  unfold Ends.add
  split
  · exact h
  · intro j
    rw [testBit_or_shift, h, List.mem_cons, or_comm]

theorem WF.mem_add {e : Ends} (h : e.WF) {i j : Nat} :
    j ∈ (e.add i).found ↔ j ∈ e.found ∨ j = i := by
  unfold Ends.add
  split
  · rename_i hi
    constructor
    · exact .inl
    · rintro (hj | rfl)
      · exact hj
      · exact (h _).1 hi
  · rw [List.mem_cons, or_comm]

theorem WF.mem_foldl {e : Ends} (h : e.WF) (is : List Nat) (j : Nat) :
    j ∈ (is.foldl Ends.add e).found ↔ j ∈ e.found ∨ j ∈ is := by
  induction is generalizing e with
  | nil => simp
  | cons i is ih => rw [List.foldl_cons, ih (h.add i), h.mem_add, List.mem_cons, or_assoc]

end Ends

@[simp] theorem mem_distinct {j : Nat} {is : List Nat} : j ∈ distinct is ↔ j ∈ is := by
  simp [distinct, Ends.toList, Ends.wf_empty.mem_foldl]

@[simp] theorem mem_after {j : Nat} {is : List Nat} {next : Nat → List Nat} :
    j ∈ after is next ↔ ∃ k ∈ is, j ∈ next k := by
  simp [after]

/-! ## The search of an unbounded loop -/

/-- A body that stays within a text of `n` characters and never goes back. -/
def Onward (body : Nat → List Nat) (n : Nat) : Prop := ∀ i j, i ≤ n → j ∈ body i → i ≤ j ∧ j ≤ n

section Loop

variable {body : Nat → List Nat} {n : Nat} {isLazy : Bool}

/-- What a part of the search leaves behind: nothing is lost, and every position newly visited is
an end, with all those that the body leads to from there visited. -/
structure Tour.Grows (body : Nat → List Nat) (t t' : Tour) : Prop where
  wf : t.ends.WF → t'.ends.WF
  visited : ∀ k, t.visited.testBit k = true → t'.visited.testBit k = true
  found : ∀ k ∈ t.ends.found, k ∈ t'.ends.found
  closed : ∀ k, t'.visited.testBit k = true → t.visited.testBit k = true ∨
    (k ∈ t'.ends.found ∧ ∀ j ∈ body k, k < j → t'.visited.testBit j = true)

namespace Tour

theorem Grows.refl (t : Tour) : Grows body t t :=
  ⟨id, fun _ => id, fun _ => id, fun _ => .inl⟩

theorem Grows.trans {t t' t'' : Tour} (h : Grows body t t') (h' : Grows body t' t'') :
    Grows body t t'' where
  wf := h'.wf ∘ h.wf
  visited k := h'.visited k ∘ h.visited k
  found k := h'.found k ∘ h.found k
  closed k hk := by
    rcases h'.closed k hk with hk | hk
    · rcases h.closed k hk with hk | ⟨hf, hj⟩
      · exact .inl hk
      · exact .inr ⟨h'.found k hf, fun j hm hlt => h'.visited j (hj j hm hlt)⟩
    · exact .inr hk

/-- Adds an end if asked for. -/
def addIf (b : Bool) (t : Tour) (i : Nat) : Tour := if b then { t with ends := t.ends.add i } else t

@[simp] theorem addIf_visited (b : Bool) (t : Tour) (i : Nat) :
    (t.addIf b i).visited = t.visited := by
  cases b <;> rfl

theorem addIf_wf {t : Tour} (h : t.ends.WF) (b : Bool) (i : Nat) : (t.addIf b i).ends.WF := by
  cases b
  · exact h
  · exact h.add i

theorem mem_addIf {t : Tour} (h : t.ends.WF) {b : Bool} {i k : Nat} :
    k ∈ (t.addIf b i).ends.found ↔ k ∈ t.ends.found ∨ (b = true ∧ k = i) := by
  cases b
  · simp [addIf]
  · simpa [addIf] using h.mem_add

theorem Grows.addIf {t : Tour} (h : t.ends.WF) (b : Bool) (i : Nat) :
    Grows body t (t.addIf b i) where
  wf _ := addIf_wf h b i
  visited _ hk := by rwa [addIf_visited]
  found _ hk := (mem_addIf h).2 (.inl hk)
  closed _ hk := .inl (by rwa [addIf_visited] at hk)

/-- What a visit does with one end of the body. -/
def follow (body : Nat → List Nat) (isLazy : Bool) (room i : Nat) (t : Tour) (j : Nat) : Tour :=
  if i < j then visit body isLazy room t j else t.addIf true i

/-- The tour with a position marked as visited. -/
def mark (t : Tour) (i : Nat) : Tour := { t with visited := t.visited ||| 1 <<< i }

theorem visit_succ (body : Nat → List Nat) (isLazy : Bool) (room : Nat) (t : Tour) (i : Nat) :
    visit body isLazy (room + 1) t i = if t.visited.testBit i then t
      else ((body i).foldl (follow body isLazy room i) ((t.mark i).addIf isLazy i)).addIf
        (!isLazy) i := by
  rw [visit]
  cases isLazy <;> rfl

theorem Grows.foldl (step : Tour → Nat → Tour) (P : Nat → Prop) (js : List Nat)
    (h : ∀ j ∈ js, ∀ t, t.ends.WF →
      Grows body t (step t j) ∧ (P j → (step t j).visited.testBit j = true))
    {t : Tour} (ht : t.ends.WF) :
    Grows body t (js.foldl step t) ∧
      ∀ j ∈ js, P j → (js.foldl step t).visited.testBit j = true := by
  induction js generalizing t with
  | nil => exact ⟨.refl t, by simp⟩
  | cons j js ih =>
    obtain ⟨g1, v1⟩ := h j (by simp) t ht
    obtain ⟨g2, v2⟩ := ih (fun k hk => h k (by simp [hk])) (g1.wf ht)
    refine ⟨g1.trans g2, fun k hk hP => ?_⟩
    rcases List.mem_cons.1 hk with rfl | hk
    · exact g2.visited _ (v1 hP)
    · exact v2 k hk hP

/-- A visit closes its position, given room for the rest of the text. -/
theorem grows_visit (hb : Onward body n) {room : Nat} {t : Tour} {i : Nat} (ht : t.ends.WF)
    (hi : i ≤ n) (hroom : n < i + room) :
    Grows body t (visit body isLazy room t i) ∧
      (visit body isLazy room t i).visited.testBit i = true := by
  induction room generalizing t i with
  | zero => omega
  | succ room ih =>
    rw [visit_succ]
    split
    · rename_i hv
      exact ⟨.refl t, hv⟩
    · -- the ends of the body are followed one by one, each with less room and a tour that has grown
      have h1 : ((t.mark i).addIf isLazy i).ends.WF := addIf_wf (t := t.mark i) ht isLazy i
      obtain ⟨g, v⟩ := Grows.foldl (follow body isLazy room i) (i < ·) (body i)
        (fun j hj u hu => by
        obtain ⟨-, hjn⟩ := hb i j hi hj
        unfold follow
        split
        · obtain ⟨g, v⟩ := ih hu hjn (by omega)
          exact ⟨g, fun _ => v⟩
        · rename_i hle
          exact ⟨.addIf hu true i, fun h => absurd h hle⟩) h1
      generalize (body i).foldl (follow body isLazy room i) ((t.mark i).addIf isLazy i) = u at g v ⊢
      have hu := g.wf h1
      have hmark : ∀ k, ((t.mark i).addIf isLazy i).visited.testBit k = true ↔
          t.visited.testBit k = true ∨ k = i := fun k => by
        rw [addIf_visited]; exact testBit_or_shift ..
      -- `i` is found before the ends of its body if the loop is lazy, and behind them if not
      refine ⟨⟨fun _ => addIf_wf hu _ i, fun k hk => ?_, fun k hk => ?_, fun k hk => ?_⟩, ?_⟩
      · rw [addIf_visited]
        exact g.visited k ((hmark k).2 (.inl hk))
      · exact (mem_addIf hu).2 (.inl (g.found k ((mem_addIf (t := t.mark i) ht).2 (.inl hk))))
      · rw [addIf_visited] at hk ⊢
        rcases g.closed k hk with hk | ⟨hf, hj⟩
        · rcases (hmark k).1 hk with hk | rfl
          · exact .inl hk
          · refine .inr ⟨(mem_addIf hu).2 ?_, v⟩
            cases isLazy
            · exact .inr ⟨rfl, rfl⟩
            · exact .inl (g.found k ((mem_addIf (t := t.mark k) ht).2 (.inr ⟨rfl, rfl⟩)))
        · exact .inr ⟨(mem_addIf hu).2 (.inl hf), hj⟩
      · rw [addIf_visited]
        exact g.visited i ((hmark i).2 (.inr rfl))

/-- A visit finds nothing outside a set of positions that the body does not leave. -/
theorem found_visit {Q : Nat → Prop} (hQ : ∀ i j, Q i → j ∈ body i → Q j) {room : Nat} {t : Tour}
    {i : Nat} (ht : t.ends.WF) (hf : ∀ k ∈ t.ends.found, Q k) (hi : Q i) :
    (visit body isLazy room t i).ends.WF ∧
      ∀ k ∈ (visit body isLazy room t i).ends.found, Q k := by
  have add : ∀ (u : Tour) (b : Bool) (k : Nat), u.ends.WF → (∀ m ∈ u.ends.found, Q m) → Q k →
      (u.addIf b k).ends.WF ∧ ∀ m ∈ (u.addIf b k).ends.found, Q m := fun u b k hu hf hk => by
    refine ⟨addIf_wf hu b k, fun j hj => ?_⟩
    rcases (mem_addIf hu).1 hj with hj | ⟨-, rfl⟩
    · exact hf j hj
    · exact hk
  induction room generalizing t i with
  | zero => exact add t true i ht hf hi
  | succ room ih =>
    rw [visit_succ]
    split
    · exact ⟨ht, hf⟩
    · -- the bodies' ends are all in the set, so a second induction is on them
      have fold : ∀ (js : List Nat), (∀ j ∈ js, Q j) → ∀ u : Tour, u.ends.WF →
          (∀ k ∈ u.ends.found, Q k) → (js.foldl (follow body isLazy room i) u).ends.WF ∧
            ∀ k ∈ (js.foldl (follow body isLazy room i) u).ends.found, Q k := by
        intro js
        induction js with
        | nil => exact fun _ u hu hf => ⟨hu, hf⟩
        | cons j js ihj =>
          intro hjs u hu hf
          have hj := hjs j (by simp)
          have step : (follow body isLazy room i u j).ends.WF ∧
              ∀ k ∈ (follow body isLazy room i u j).ends.found, Q k := by
            unfold follow
            split
            · exact ih hu hf hj
            · exact add u true i hu hf hi
          exact ihj (fun k hk => hjs k (by simp [hk])) _ step.1 step.2
      obtain ⟨h1, h2⟩ := add (t.mark i) isLazy i ht hf hi
      obtain ⟨h3, h4⟩ := fold (body i) (fun j hj => hQ i j hi hj) _ h1 h2
      exact add _ _ i h3 h4 hi

end Tour

/-- An unbounded loop ends where a chain of runs of its body leads. -/
theorem mem_repeatAny (hb : Onward body n) {is : List Nat} (his : ∀ i ∈ is, i ≤ n) {j : Nat} :
    j ∈ repeatAny body isLazy (n + 1) is ↔
      ∃ i ∈ is, ReflTransGen (fun a b => b ∈ body a) i j := by
  unfold repeatAny Ends.toList
  rw [List.mem_reverse]
  constructor
  · -- everything found is reachable from some start
    intro hj
    have sound : ∀ (js : List Nat), (∀ k ∈ js, k ∈ is) → ∀ t : Tour, t.ends.WF →
        (∀ k ∈ t.ends.found, ∃ i ∈ is, ReflTransGen (fun a b => b ∈ body a) i k) →
        ∀ k ∈ (js.foldl (Tour.visit body isLazy (n + 1)) t).ends.found,
          ∃ i ∈ is, ReflTransGen (fun a b => b ∈ body a) i k := by
      intro js
      induction js with
      | nil => exact fun _ t _ h => h
      | cons k js ih =>
        intro hjs t ht hf
        obtain ⟨h1, h2⟩ : (Tour.visit body isLazy (n + 1) t k).ends.WF ∧
            ∀ m ∈ (Tour.visit body isLazy (n + 1) t k).ends.found,
              ∃ i ∈ is, ReflTransGen (fun a b => b ∈ body a) i m :=
          Tour.found_visit (fun a b ⟨i, hi, h⟩ hab => ⟨i, hi, h.tail hab⟩) ht hf
            ⟨k, hjs k (by simp), .refl⟩
        exact ih (fun m hm => hjs m (by simp [hm])) _ h1 h2
    exact sound is (fun _ => id) {} Ends.wf_empty (by simp) j hj
  · -- and what is reachable has been visited, for the tour is closed
    rintro ⟨i, hi, hij⟩
    have each : ∀ k ∈ is, ∀ t : Tour, t.ends.WF →
        Tour.Grows body t (Tour.visit body isLazy (n + 1) t k) ∧
          (True → (Tour.visit body isLazy (n + 1) t k).visited.testBit k = true) := fun k hk t ht => by
      obtain ⟨g, v⟩ : Tour.Grows body t (Tour.visit body isLazy (n + 1) t k) ∧
          (Tour.visit body isLazy (n + 1) t k).visited.testBit k = true :=
        Tour.grows_visit hb ht (his k hk) (by omega)
      exact ⟨g, fun _ => v⟩
    obtain ⟨g, v⟩ := Tour.Grows.foldl _ (fun _ => True) is each (t := {}) Ends.wf_empty
    have closed : ∀ k, (is.foldl (Tour.visit body isLazy (n + 1)) {}).visited.testBit k = true →
        k ∈ (is.foldl (Tour.visit body isLazy (n + 1)) {}).ends.found ∧ ∀ j ∈ body k, k < j →
          (is.foldl (Tour.visit body isLazy (n + 1)) {}).visited.testBit j = true := fun k hk => by
      rcases g.closed k hk with hk | hk
      · rw [Nat.zero_testBit] at hk; cases hk
      · exact hk
    -- a chain stays among the positions visited
    have visited : ∀ k, ReflTransGen (fun a b => b ∈ body a) i k → k ≤ n ∧
        (is.foldl (Tour.visit body isLazy (n + 1)) {}).visited.testBit k = true := by
      intro k hk
      induction hk with
      | refl => exact ⟨his i hi, v i hi trivial⟩
      | tail _ hab ih =>
        obtain ⟨hle, hkn⟩ := hb _ _ ih.1 hab
        refine ⟨hkn, ?_⟩
        rcases Nat.lt_or_eq_of_le hle with hlt | rfl
        · exact (closed _ ih.2).2 _ hab hlt
        · exact ih.2
    exact (closed j (visited j hij).2).1

/-- A given number of runs of a body one after the other. -/
def Runs (body : Nat → List Nat) : Nat → Nat → Nat → Prop
  | 0, i, j => i = j
  | m + 1, i, j => ∃ k ∈ body i, Runs body m k j

theorem mem_repeatExactly {m j : Nat} {is : List Nat} :
    j ∈ repeatExactly body m is ↔ ∃ i ∈ is, Runs body m i j := by
  induction m generalizing is with
  | zero => simp [repeatExactly, Runs]
  | succ m ih =>
    simp only [repeatExactly, ih, mem_after, Runs]
    constructor
    · rintro ⟨k, ⟨i, hi, hk⟩, h⟩; exact ⟨i, hi, k, hk, h⟩
    · rintro ⟨i, hi, k, hk, h⟩; exact ⟨k, ⟨i, hi, hk⟩, h⟩

theorem mem_repeatUpTo {m i j : Nat} :
    j ∈ repeatUpTo body isLazy m i ↔ ∃ l ≤ m, Runs body l i j := by
  induction m generalizing i j with
  | zero => simp [repeatUpTo, Runs, eq_comm]
  | succ m ih =>
    have h : j ∈ repeatUpTo body isLazy (m + 1) i ↔
        j = i ∨ ∃ k ∈ body i, j ∈ repeatUpTo body isLazy m k := by
      cases isLazy <;> simp [repeatUpTo, or_comm]
    rw [h]
    constructor
    · rintro (rfl | ⟨k, hk, hj⟩)
      · exact ⟨0, by omega, rfl⟩
      · obtain ⟨l, hl, hr⟩ := ih.1 hj
        exact ⟨l + 1, by omega, k, hk, hr⟩
    · rintro ⟨_ | l, hl, hr⟩
      · exact .inl hr.symm
      · obtain ⟨k, hk, hr⟩ := hr
        exact .inr ⟨k, hk, ih.2 ⟨l, by omega, hr⟩⟩

theorem Runs.onward (hb : Onward body n) {m i j : Nat} (h : Runs body m i j) (hi : i ≤ n) :
    i ≤ j ∧ j ≤ n := by
  induction m generalizing i with
  | zero => cases h; exact ⟨Nat.le_refl _, hi⟩
  | succ m ih =>
    obtain ⟨k, hk, h⟩ := h
    obtain ⟨h1, h2⟩ := hb i k hi hk
    obtain ⟨h3, h4⟩ := ih h h2
    exact ⟨Nat.le_trans h1 h3, h4⟩

theorem chain_onward (hb : Onward body n) {i j : Nat}
    (h : ReflTransGen (fun a b => b ∈ body a) i j) (hi : i ≤ n) : i ≤ j ∧ j ≤ n := by
  induction h with
  | refl => exact ⟨Nat.le_refl _, hi⟩
  | tail _ hab ih =>
    obtain ⟨h1, h2⟩ := hb _ _ ih.2 hab
    exact ⟨Nat.le_trans ih.1 h1, h2⟩

end Loop

/-! ## Matches -/

/-- A match of an expression can run from one position to another. -/
def Spans (nocase : Bool) (s : Array Char) (r : Regex) (i j : Nat) : Prop := j ∈ r.ends nocase s i

section Spans

variable {nocase : Bool} {s : Array Char} {a b r : Regex} {i j : Nat}

theorem mem_stay {c : Bool} : j ∈ stay c i ↔ c = true ∧ j = i := by
  unfold stay
  split <;> simp_all

theorem mem_step {test : Char → Bool} :
    j ∈ step s test i ↔ ∃ c, s[i]? = some c ∧ test c = true ∧ j = i + 1 := by
  unfold step
  cases s[i]? with
  | none => simp
  | some c => by_cases h : test c = true <;> simp [h]

theorem mem_of_mem_preferred {is : List Nat} (h : j ∈ preferred nocase s r i is) : j ∈ is := by
  unfold preferred at h
  split at h
  · exact (List.mem_filter.1 h).1
  · exact List.mem_of_mem_take h

theorem onward_ends (nocase : Bool) (s : Array Char) (r : Regex) :
    Onward (r.ends nocase s) s.size := by
  have hstep : ∀ test : Char → Bool, Onward (step s test) s.size := by
    intro test i j hi hj
    obtain ⟨c, hc, -, rfl⟩ := mem_step.1 hj
    have := (Array.getElem?_eq_some_iff.1 hc).1
    omega
  have hstay : ∀ c : Nat → Bool, Onward (fun i => stay (c i) i) s.size := by
    intro c i j hi hj
    obtain ⟨-, rfl⟩ := mem_stay.1 hj
    exact ⟨Nat.le_refl _, hi⟩
  induction r with
  | empty => intro i j hi hj; simp only [ends, List.mem_singleton] at hj; omega
  | char c => exact hstep _
  | any => exact hstep _
  | set cs => exact hstep _
  | start => exact hstay _
  | stop => exact hstay _
  | seq a b iha ihb =>
    intro i j hi hj
    obtain ⟨k, hk, hj⟩ := mem_after.1 hj
    have h1 := iha i k hi hk
    have h2 := ihb k j h1.2 hj
    exact ⟨Nat.le_trans h1.1 h2.1, h2.2⟩
  | alt a b iha ihb =>
    intro i j hi hj
    rcases List.mem_append.1 (mem_distinct.1 hj) with hj | hj
    · exact iha i j hi hj
    · exact ihb i j hi hj
  | capture r ih => exact ih
  | loop r lo hi isLazy ih =>
    intro i j h hj
    -- where the runs lead that the loop must have
    have first : ∀ k ∈ repeatExactly (r.ends nocase s) lo [i], i ≤ k ∧ k ≤ s.size := by
      intro k hk
      obtain ⟨i', hi', hr⟩ := mem_repeatExactly.1 hk
      rw [List.mem_singleton.1 hi'] at hr
      exact hr.onward ih h
    cases hi with
    | none =>
      obtain ⟨k, hk, hkj⟩ := (mem_repeatAny ih fun k hk => (first k hk).2).1 hj
      have h1 := chain_onward ih hkj (first k hk).2
      exact ⟨Nat.le_trans (first k hk).1 h1.1, h1.2⟩
    | some hi =>
      obtain ⟨k, hk, hj⟩ := mem_after.1 hj
      obtain ⟨l, -, hr⟩ := mem_repeatUpTo.1 hj
      have h1 := hr.onward ih (first k hk).2
      exact ⟨Nat.le_trans (first k hk).1 h1.1, h1.2⟩
  | atomic r ih => exact fun i j hi hj => ih i j hi (mem_of_mem_preferred hj)
  | look k r _ => cases k <;> exact hstay _

theorem Spans.onward (h : Spans nocase s r i j) (hi : i ≤ s.size) : i ≤ j ∧ j ≤ s.size :=
  onward_ends nocase s r i j hi h

@[simp] theorem spans_empty : Spans nocase s .empty i j ↔ j = i := List.mem_singleton

theorem spans_char {c : Char} : Spans nocase s (.char c) i j ↔
    ∃ d, s[i]? = some d ∧ sameChar nocase c d = true ∧ j = i + 1 := mem_step

theorem spans_any : Spans nocase s .any i j ↔
    ∃ d, s[i]? = some d ∧ (d != '\n') = true ∧ j = i + 1 := mem_step

theorem spans_set {cs : CharSet} : Spans nocase s (.set cs) i j ↔
    ∃ d, s[i]? = some d ∧ cs.contains nocase d = true ∧ j = i + 1 := mem_step

theorem spans_start : Spans nocase s .start i j ↔ i = 0 ∧ j = i := by
  rw [Spans, show Regex.ends nocase s .start i = stay (i == 0) i from rfl, mem_stay, beq_iff_eq]

theorem spans_stop : Spans nocase s .stop i j ↔ i = s.size ∧ j = i := by
  rw [Spans, show Regex.ends nocase s .stop i = stay (i == s.size) i from rfl, mem_stay, beq_iff_eq]

theorem spans_seq : Spans nocase s (.seq a b) i j ↔
    ∃ k, Spans nocase s a i k ∧ Spans nocase s b k j := mem_after

theorem spans_alt : Spans nocase s (.alt a b) i j ↔
    Spans nocase s a i j ∨ Spans nocase s b i j := by
  rw [Spans, ends_alt, mem_distinct, List.mem_append]; rfl

theorem spans_capture : Spans nocase s (.capture r) i j ↔ Spans nocase s r i j := Iff.rfl

theorem Spans.of_atomic (h : Spans nocase s (.atomic r) i j) : Spans nocase s r i j :=
  mem_of_mem_preferred h

theorem spans_append : Spans nocase s (a.append b) i j ↔
    ∃ k, Spans nocase s a i k ∧ Spans nocase s b k j := by
  unfold append
  split
  · rename_i h; simp [h]
  · split
    · rename_i h; simp [h]
    · exact spans_seq

theorem spans_loop {lo : Nat} {isLazy : Bool} (hi : i ≤ s.size) :
    Spans nocase s (.loop r lo none isLazy) i j ↔
      ∃ k, Runs (r.ends nocase s) lo i k ∧ ReflTransGen (Spans nocase s r) k j := by
  have hb := onward_ends nocase s r
  rw [Spans, ends, mem_repeatAny hb (fun k hk => ?_)]
  · simp only [mem_repeatExactly, List.mem_singleton, exists_eq_left]
    rfl
  · obtain ⟨i', hi', hr⟩ := mem_repeatExactly.1 hk
    rw [List.mem_singleton.1 hi'] at hr
    exact (hr.onward hb hi).2

/-- A loop whose body takes one character at a time ends anywhere before the first place where the
body takes none. -/
theorem spans_loop_step {P : Nat → Prop} {isLazy : Bool}
    (hP : ∀ i j, Spans nocase s r i j ↔ P i ∧ j = i + 1) (hlt : ∀ i, P i → i < s.size)
    (hi : i ≤ s.size) : Spans nocase s (.loop r 0 none isLazy) i j ↔
      i ≤ j ∧ j ≤ s.size ∧ ∀ k, i ≤ k → k < j → P k := by
  rw [spans_loop hi]
  simp only [Runs, exists_eq_left']
  constructor
  · intro h
    induction h with
    | refl => exact ⟨Nat.le_refl _, hi, fun k h1 h2 => by omega⟩
    | tail _ hab ih =>
      obtain ⟨h1, h2, h3⟩ := ih
      obtain ⟨hp, rfl⟩ := (hP _ _).1 hab
      refine ⟨by omega, hlt _ hp, fun k hik hkj => ?_⟩
      rcases Nat.lt_succ_iff_lt_or_eq.1 hkj with hkj | rfl
      · exact h3 k hik hkj
      · exact hp
  · rintro ⟨hij, hj, h⟩
    induction hij with
    | refl => exact .refl
    | @step j hij ih =>
      have hp : P j := h j hij (Nat.lt_succ_self j)
      exact (ih (by omega) fun k h1 h2 => h k h1 (by omega)).tail ((hP _ _).2 ⟨hp, rfl⟩)

theorem spans_loop_upTo {lo hi : Nat} {isLazy : Bool} :
    Spans nocase s (.loop r lo (some hi) isLazy) i j ↔
      ∃ k, Runs (r.ends nocase s) lo i k ∧ ∃ l ≤ hi - lo, Runs (r.ends nocase s) l k j := by
  rw [Spans, ends, mem_after]
  simp only [mem_repeatExactly, mem_repeatUpTo, List.mem_singleton, exists_eq_left]

theorem spans_ahead :
    Spans nocase s (.look .ahead r) i j ↔ j = i ∧ ∃ k, Spans nocase s r i k := by
  rw [Spans, ends, mem_stay, and_comm, Bool.not_eq_true', List.isEmpty_eq_false_iff_exists_mem]
  rfl

theorem spans_notAhead :
    Spans nocase s (.look .notAhead r) i j ↔ j = i ∧ ¬ ∃ k, Spans nocase s r i k := by
  rw [Spans, ends, mem_stay, and_comm, List.isEmpty_iff, List.eq_nil_iff_forall_not_mem, not_exists]
  rfl

theorem spans_behind :
    Spans nocase s (.look .behind r) i j ↔ j = i ∧ ∃ k ≤ i, Spans nocase s r k i := by
  rw [Spans, ends, mem_stay, and_comm]
  simp only [List.any_eq_true, List.mem_range, List.contains_eq_mem, decide_eq_true_eq,
    Nat.lt_succ_iff]
  rfl

/-- A search finds an expression where some match begins. -/
theorem matchesIn_iff : r.matchesIn nocase s = true ↔ ∃ i ≤ s.size, ∃ j, Spans nocase s r i j := by
  simp only [matchesIn, List.any_eq_true, List.mem_range, Bool.not_eq_true',
    List.isEmpty_eq_false_iff_exists_mem, Nat.lt_succ_iff]
  rfl

end Spans

end PathGlob.Regex
