/-
Which match is preferred. A search that comes to no place twice takes the steps that it would take if it
did not remember any, so the places that it leaves one after the other say where it ends. In the automaton
of a body of which each state stands at one distance from where the body begins, each run of the body leaves
every state at most once, and two runs that begin at different positions share no place.
-/
import Mathlib.Data.List.Basic
import Mathlib.Data.List.Nodup
import Mathlib.Data.List.Perm.Subperm
import PathGlob.Proofs.Regex.Ends

namespace PathGlob.Regex.Automaton

/-- A state of an automaton at a position of a text. -/
abbrev Place := Nat × Nat

variable {a a' : Automaton} {single : Regex → Nat → List Nat} {p : Place}
  {places places' places'' left left' : List Place} {width : Nat}

/-! ## Walks -/

/-- What a search goes on with where it leaves a place, unless it ends there. -/
def onward? (a : Automaton) (single : Regex → Nat → List Nat) (p : Place) : Option (List Place) :=
  match a[p.1]? with
  | some (.take r next) => some ((single r p.2).map (next, ·))
  | some (.fork first second) => some [(first, p.2), (second, p.2)]
  | _ => none

/-- A search that remembers nothing leaves places one after the other, the topmost of the stack each time,
and comes from one stack to another. -/
inductive Walk (a : Automaton) (single : Regex → Nat → List Nat) :
    List Place → List Place → List Place → Prop where
  | refl (places : List Place) : Walk a single places [] places
  | step {p : Place} {more places left places' : List Place} (h : onward? a single p = some more)
      (hrest : Walk a single (more ++ places) left places') :
      Walk a single (p :: places) (p :: left) places'

namespace Walk

theorem one {more : List Place} (h : onward? a single p = some more) (places : List Place) :
    Walk a single (p :: places) [p] (more ++ places) := .step h (.refl _)

theorem trans (h : Walk a single places left places') (h' : Walk a single places' left' places'') :
    Walk a single places (left ++ left') places'' := by
  induction h with
  | refl places => exact h'
  | step hp _ ih => exact .step hp (ih h')

/-- A walk only depends on the states that it leaves. -/
theorem congr (h : Walk a single places left places') (hsame : ∀ p ∈ left, a'[p.1]? = a[p.1]?) :
    Walk a' single places left places' := by
  induction h with
  | refl places => exact .refl places
  | step hp _ ih =>
    refine .step ?_ (ih fun p hp => hsame p (List.mem_cons_of_mem _ hp))
    rwa [onward?, hsame _ List.mem_cons_self]

/-- The states that are left are there. -/
theorem lt_size (h : Walk a single places left places') : ∀ p ∈ left, p.1 < a.size := by
  induction h with
  | refl places => exact nofun
  | step hp hrest ih =>
    rename_i p more _ _ _
    have hsize : p.1 < a.size := by
      refine Decidable.byContradiction fun hle => ?_
      rw [onward?, Array.getElem?_eq_none (Nat.le_of_not_lt hle)] at hp
      cases hp
    exact List.forall_mem_cons.2 ⟨hsize, ih⟩

/-- Positions stay within a text if what single characters take does. -/
theorem lt_width (h : Walk a single places left places')
    (hsingle : ∀ r i, i < width → ∀ j ∈ single r i, j < width) (hplaces : ∀ p ∈ places, p.2 < width) :
    (∀ p ∈ left, p.2 < width) ∧ ∀ p ∈ places', p.2 < width := by
  induction h with
  | refl places => exact ⟨nofun, hplaces⟩
  | step hp hwalk ih =>
    rename_i p more _ _ _
    obtain ⟨hfirst, hrest⟩ := List.forall_mem_cons.1 hplaces
    have hmore : ∀ p ∈ more, p.2 < width := by
      unfold onward? at hp
      split at hp
      · cases hp
        rw [List.forall_mem_map]
        exact hsingle _ _ hfirst
      · cases hp
        simpa using hfirst
      · cases hp
    obtain ⟨hleft, hlast⟩ := ih (List.forall_mem_append.2 ⟨hmore, hrest⟩)
    exact ⟨List.forall_mem_cons.2 ⟨hfirst, hleft⟩, hlast⟩

end Walk

/-! ## The search -/

/-- The number of the bit that a search keeps for a place. -/
def bit (width : Nat) (p : Place) : Nat := p.1 * width + p.2

theorem bit_inj {p p' : Place} (hp : p.2 < width) (hp' : p'.2 < width) (h : bit width p = bit width p') :
    p = p' := by
  unfold bit at h
  have hpos : 0 < width := Nat.zero_lt_of_lt hp
  have hdiv : p.1 = p'.1 := by
    have := congrArg (· / width) h
    simpa [Nat.mul_comm _ width, Nat.mul_add_div hpos, Nat.div_eq_of_lt hp, Nat.div_eq_of_lt hp'] using this
  rw [hdiv] at h
  exact Prod.ext hdiv (Nat.add_left_cancel h)

/-- A search that comes to no place twice ends where a walk comes to a state that accepts. -/
theorem search_of_walk {q i fuel visited : Nat} (h : Walk a single places left ((q, i) :: places'))
    (hq : a[q]? = some .accept) (hnodup : ((left ++ [(q, i)]).map (bit width)).Nodup)
    (hnew : ∀ p ∈ left ++ [(q, i)], visited.testBit (bit width p) = false) (hfuel : left.length < fuel) :
    search a single width fuel visited places = some i := by
  generalize hlast : (q, i) :: places' = last at h
  induction h generalizing fuel visited with
  | refl places =>
    subst hlast
    obtain ⟨fuel, rfl⟩ := Nat.exists_eq_add_one_of_ne_zero (Nat.ne_of_gt hfuel)
    have hbit : visited.testBit (q * width + i) = false := hnew (q, i) (by simp)
    rw [search, hbit, if_neg Bool.false_ne_true, hq]
  | step hp hrest ih =>
    rename_i p more places left last
    obtain ⟨fuel, rfl⟩ := Nat.exists_eq_add_one_of_ne_zero (Nat.ne_of_gt (Nat.zero_lt_of_lt hfuel))
    rw [List.cons_append, List.map_cons, List.nodup_cons] at hnodup
    have hbit : visited.testBit (p.1 * width + p.2) = false := hnew p (by simp)
    -- leaving this place marks no other place of the walk
    have hnew' : ∀ p' ∈ left ++ [(q, i)],
        (visited ||| 1 <<< (p.1 * width + p.2)).testBit (bit width p') = false := by
      intro p' hp'
      rw [← Bool.not_eq_true, testBit_or_shift]
      rintro (hold | hsame)
      · rw [hnew p' (List.mem_cons_of_mem _ hp')] at hold
        cases hold
      · refine hnodup.1 ?_
        rw [show bit width p = bit width p' from hsame.symm]
        exact List.mem_map_of_mem hp'
    have hsearch := ih hnodup.2 hnew' (by simpa using hfuel) hlast
    unfold onward? at hp
    rw [search, hbit, if_neg Bool.false_ne_true]
    split at hp
    · rename_i hnode
      cases hp
      simp only [hnode]
      exact hsearch
    · rename_i hnode
      cases hp
      simp only [hnode]
      exact hsearch
    · cases hp

theorem length_le_of_nodup {ns : List Nat} {n : Nat} (h : ns.Nodup) (hlt : ∀ m ∈ ns, m < n) :
    ns.length ≤ n := by
  have hsub : ns ⊆ List.range n := fun m hm => List.mem_range.2 (hlt m hm)
  simpa using (List.subperm_of_subset h hsub).length_le

/-- A walk that leaves no place twice and comes to the state that accepts is the preferred match. -/
theorem preferredEnd?_of_walk {r : Regex} {q i k : Nat} (hadd : add r 0 accepting = (q, a))
    (hsingle : ∀ r i, i < width → ∀ j ∈ single r i, j < width) (hi : i < width)
    (haccept : a[0]? = some .accept) (h : Walk a single [(q, i)] left ((0, k) :: places'))
    (hnodup : left.Nodup) (hleft : ∀ p ∈ left, 0 < p.1) :
    r.preferredEnd? single width i = some k := by
  obtain ⟨hwidth, hlast⟩ := h.lt_width hsingle (by simpa using hi)
  have hend : ∀ p ∈ left ++ [(0, k)], p.2 < width :=
    List.forall_mem_append.2 ⟨hwidth, by simpa using (List.forall_mem_cons.1 hlast).1⟩
  have hdistinct : (left ++ [(0, k)]).Nodup := by
    refine List.nodup_append'.2 ⟨hnodup, List.nodup_singleton _, fun p hp hp' => ?_⟩
    rw [List.mem_singleton.1 hp'] at hp
    exact Nat.lt_irrefl 0 (hleft _ hp)
  have hbits : ((left ++ [(0, k)]).map (bit width)).Nodup :=
    hdistinct.map_on fun p hp p' hp' => bit_inj (hend p hp) (hend p' hp')
  have hbounded : ∀ n ∈ left.map (bit width), n < a.size * width := by
    rw [List.forall_mem_map]
    intro p hp
    exact Nat.lt_of_lt_of_le (Nat.add_lt_add_left (hwidth p hp) _)
      (Nat.succ_mul p.1 width ▸ Nat.mul_le_mul_right width (h.lt_size p hp))
  have hlength := length_le_of_nodup ((List.map_append ▸ hbits).of_append_left) hbounded
  rw [List.length_map] at hlength
  unfold preferredEnd?
  rw [hadd]
  refine search_of_walk h haccept hbits (fun p _ => Nat.zero_testBit _) ?_
  rw [Nat.mul_assoc]
  omega

/-! ## Building automata -/

/-- One automaton has all states of another. -/
structure Keeps (a a' : Automaton) : Prop where
  size_le : a.size ≤ a'.size
  node : ∀ q < a.size, a'[q]? = a[q]?

namespace Keeps

theorem refl (a : Automaton) : Keeps a a := ⟨Nat.le_refl _, fun _ _ => rfl⟩

theorem trans {a'' : Automaton} (h : Keeps a a') (h' : Keeps a' a'') : Keeps a a'' :=
  ⟨Nat.le_trans h.size_le h'.size_le, fun q hq =>
    (h'.node q (Nat.lt_of_lt_of_le hq h.size_le)).trans (h.node q hq)⟩

theorem push (a : Automaton) (n : Node) : Keeps a (a.push n) := by
  refine ⟨by simp, fun q hq => ?_⟩
  rw [Array.getElem?_push, if_neg (Nat.ne_of_lt hq)]

end Keeps

theorem Walk.mono (h : Walk a single places left places') (hkeeps : Keeps a a') :
    Walk a' single places left places' :=
  h.congr fun p hp => hkeeps.node p.1 (h.lt_size p hp)

/-- A stack on which a choice has put what it leads to, with places that stand for other choices below it;
or, where there is no choice, the stack as it was. -/
def Leads (next : Nat) (choice : Option Nat) (places places' : List Place) : Prop :=
  match choice with
  | some k => ∃ rest, places' = (next, k) :: rest
  | none => places' = places

/-- From the state `first` an automaton tries for a choice at each position and leads to the state `next`
with it. It leaves states from `lo` up to `hi` meanwhile, each at most once and at one distance from where it
began. -/
def Tries (a : Automaton) (single : Regex → Nat → List Nat) (lo hi first next : Nat) (depth : Nat → Nat)
    (choice : Nat → Option Nat) : Prop :=
  ∀ i places, ∃ left places', Walk a single ((first, i) :: places) left places' ∧ left.Nodup ∧
    (∀ p ∈ left, lo ≤ p.1 ∧ p.1 < hi ∧ p.2 = i + depth p.1) ∧ Leads next (choice i) places places'

namespace Tries

variable {lo mid hi q first second next : Nat} {depth depth' : Nat → Nat}
  {choice choice' : Nat → Option Nat}

theorem mono (h : Tries a single lo hi first next depth choice)
    (hsame : ∀ q, lo ≤ q → q < hi → a'[q]? = a[q]?) : Tries a' single lo hi first next depth choice := by
  intro i places
  obtain ⟨left, places', hwalk, hnodup, hleft, hleads⟩ := h i places
  exact ⟨left, places', hwalk.congr fun p hp => hsame _ (hleft p hp).1 (hleft p hp).2.1, hnodup, hleft,
    hleads⟩

theorem of_depth (h : Tries a single lo hi first next depth choice)
    (hsame : ∀ q, lo ≤ q → q < hi → depth' q = depth q) :
    Tries a single lo hi first next depth' choice := by
  intro i places
  obtain ⟨left, places', hwalk, hnodup, hleft, hleads⟩ := h i places
  refine ⟨left, places', hwalk, hnodup, fun p hp => ?_, hleads⟩
  obtain ⟨hlo, hhi, hdepth⟩ := hleft p hp
  exact ⟨hlo, hhi, by rw [hsame _ hlo hhi, hdepth]⟩

/-- A character in front has to be taken first. -/
theorem take {c : Char} {takes : Nat → Bool} (h : Tries a single lo hi first next depth choice)
    (hq : a[q]? = some (.take (.char c) first)) (hle : lo ≤ hi) (hhi : hi ≤ q)
    (hc : ∀ i, single (.char c) i = if takes i then [i + 1] else []) (hfirst : depth' q = 0)
    (hdepth : ∀ q, lo ≤ q → q < hi → depth' q = depth q + 1) :
    Tries a single lo (q + 1) q next depth' fun i => if takes i then choice (i + 1) else none := by
  intro i places
  have honward : onward? a single (q, i) = some (if takes i then [(first, i + 1)] else []) := by
    simp only [onward?, hq, hc]
    cases takes i <;> rfl
  have hplace : lo ≤ q ∧ q < q + 1 ∧ i = i + depth' q :=
    ⟨Nat.le_trans hle hhi, Nat.lt_succ_self q, by rw [hfirst, Nat.add_zero]⟩
  beta_reduce
  cases htakes : takes i with
  | false =>
    rw [htakes] at honward
    exact ⟨_, _, .one honward places, List.nodup_singleton _,
      List.forall_mem_singleton.2 hplace, rfl⟩
  | true =>
    rw [htakes] at honward
    obtain ⟨left, places', hwalk, hnodup, hleft, hleads⟩ := h (i + 1) places
    refine ⟨_, places', .step honward hwalk, List.nodup_cons.2 ⟨fun hp => ?_, hnodup⟩,
      List.forall_mem_cons.2 ⟨hplace, fun p hp => ?_⟩, hleads⟩
    · exact Nat.not_lt.2 hhi (hleft _ hp).2.1
    · obtain ⟨hlo, hlt, heq⟩ := hleft p hp
      refine ⟨hlo, Nat.lt_succ_of_le (Nat.le_trans (Nat.le_of_lt hlt) hhi), ?_⟩
      rw [hdepth _ hlo hlt, heq]
      omega

/-- The second way on from a fork is tried where there is no choice for the first. -/
theorem fork (h : Tries a single lo mid first next depth choice)
    (h' : Tries a single mid hi second next depth choice') (hq : a[q]? = some (.fork first second))
    (hlo : lo ≤ mid) (hmid : mid ≤ hi) (hhi : hi ≤ q) (hdepth : depth q = 0) :
    Tries a single lo (q + 1) q next depth fun i => (choice i).or (choice' i) := by
  intro i places
  have honward : onward? a single (q, i) = some [(first, i), (second, i)] := by rw [onward?, hq]
  have hplace : lo ≤ q ∧ q < q + 1 ∧ i = i + depth q :=
    ⟨by omega, Nat.lt_succ_self q, by rw [hdepth, Nat.add_zero]⟩
  obtain ⟨left, places', hwalk, hnodup, hleft, hleads⟩ := h i ((second, i) :: places)
  have hfirst : ∀ p ∈ left, lo ≤ p.1 ∧ p.1 < q + 1 ∧ p.2 = i + depth p.1 := fun p hp => by
    obtain ⟨hle, hlt, heq⟩ := hleft p hp
    exact ⟨hle, by omega, heq⟩
  beta_reduce
  cases hchoice : choice i with
  | some k =>
    rw [hchoice] at hleads
    refine ⟨_, places', .step honward hwalk, List.nodup_cons.2 ⟨fun hp => ?_, hnodup⟩,
      List.forall_mem_cons.2 ⟨hplace, hfirst⟩, hleads⟩
    have hlt : q < mid := (hleft _ hp).2.1
    omega
  | none =>
    rw [hchoice] at hleads
    obtain rfl : places' = (second, i) :: places := hleads
    obtain ⟨left', places', hwalk', hnodup', hleft', hleads'⟩ := h' i places
    refine ⟨_, places', .step honward (hwalk.trans hwalk'), List.nodup_cons.2 ⟨fun hp => ?_,
      List.nodup_append'.2 ⟨hnodup, hnodup', fun p hp hp' => ?_⟩⟩, List.forall_mem_cons.2 ⟨hplace,
      List.forall_mem_append.2 ⟨hfirst, fun p hp => ?_⟩⟩, hleads'⟩
    · rcases List.mem_append.1 hp with hp | hp
      · have hlt : q < mid := (hleft _ hp).2.1
        omega
      · have hlt : q < hi := (hleft' _ hp).2.1
        omega
    · have hlt := (hleft p hp).2.1
      have hle := (hleft' p hp').1
      omega
    · obtain ⟨hle, hlt, heq⟩ := hleft' p hp
      exact ⟨by omega, by omega, heq⟩

end Tries

/-- What an expression adds to an automaton tries for a choice. -/
def Builds (single : Regex → Nat → List Nat) (r : Regex) (choice : Nat → Option Nat) : Prop :=
  ∀ next a, Keeps a (add r next a).2 ∧ ∃ depth, Tries (add r next a).2 single a.size
    (add r next a).2.size (add r next a).1 next depth choice

section Builds

variable {r t : Regex} {choice choice' : Nat → Option Nat}

theorem builds_empty : Builds single .empty some := fun _ a =>
  ⟨.refl a, fun _ => 0, fun _ places => ⟨[], _, .refl _, List.nodup_nil, nofun, places, rfl⟩⟩

theorem add_append_char (c : Char) (r : Regex) (next : Nat) (a : Automaton) :
    add ((Regex.char c).append r) next a =
      ((add r next a).2.size, (add r next a).2.push (.take (.char c) (add r next a).1)) := by
  unfold append
  rw [if_neg (by simp)]
  split
  · rename_i hr
    subst hr
    rfl
  · rfl

theorem Builds.char_append (h : Builds single r choice) {c : Char} {takes : Nat → Bool}
    (hc : ∀ i, single (.char c) i = if takes i then [i + 1] else []) :
    Builds single ((Regex.char c).append r) fun i => if takes i then choice (i + 1) else none := by
  intro next a
  obtain ⟨hkeeps, depth, htries⟩ := h next a
  rw [add_append_char]
  generalize (add r next a).1 = q, (add r next a).2 = b at hkeeps htries
  have hpush : Keeps b (b.push (.take (.char c) q)) := .push b _
  refine ⟨hkeeps.trans hpush, fun x => if x = b.size then 0 else depth x + 1, ?_⟩
  rw [Array.size_push]
  refine Tries.take (htries.mono fun q _ hq => hpush.node q hq) Array.getElem?_push_size hkeeps.size_le
    (Nat.le_refl _) hc (if_pos rfl) fun q _ hq => if_neg (Nat.ne_of_lt hq)

theorem Builds.alt (h : Builds single r choice) (h' : Builds single t choice') :
    Builds single (.alt r t) fun i => (choice i).or (choice' i) := by
  intro next a
  obtain ⟨hkeeps, depth, htries⟩ := h next a
  rw [add]
  simp only
  generalize (add r next a).1 = first, (add r next a).2 = b at hkeeps htries
  obtain ⟨hkeeps', depth', htries'⟩ := h' next b
  generalize (add t next b).1 = second, (add t next b).2 = b' at hkeeps' htries'
  have hpush : Keeps b' (b'.push (.fork first second)) := .push b' _
  refine ⟨(hkeeps.trans hkeeps').trans hpush,
    fun x => if x = b'.size then 0 else if x < b.size then depth x else depth' x, ?_⟩
  rw [Array.size_push]
  refine Tries.fork ((htries.mono fun q _ hq => (hkeeps'.trans hpush).node q hq).of_depth ?_)
    ((htries'.mono fun q _ hq => hpush.node q hq).of_depth ?_) Array.getElem?_push_size hkeeps.size_le
    hkeeps'.size_le (Nat.le_refl _) (if_pos rfl)
  · intro q _ hq
    rw [if_neg (Nat.ne_of_lt (Nat.lt_of_lt_of_le hq hkeeps'.size_le)), if_pos hq]
  · intro q hle hq
    rw [if_neg (Nat.ne_of_lt hq), if_neg (Nat.not_lt.2 hle)]

end Builds

/-! ## Loops -/

/-- A choice is made as often as there is one. -/
inductive Repeats (choice : Nat → Option Nat) : Nat → Nat → Prop where
  | stop {i : Nat} (h : choice i = none) : Repeats choice i i
  | more {i j k : Nat} (h : choice i = some j) (hrest : Repeats choice j k) : Repeats choice i k

section Loops

variable {r : Regex} {choice : Nat → Option Nat} {i j k : Nat}

/-- A loop goes round as long as there is a choice for its body. A round that begins later shares no place
with this one, since each state stands at one distance from where a round begins. -/
theorem Tries.loop {lo hi first next fork : Nat} {depth : Nat → Nat}
    (h : Tries a single lo hi first fork depth choice) (hfork : a[fork]? = some (.fork first next))
    (hlo : fork < lo) (hdepth : depth fork = 0) (hchoice : ∀ i j, choice i = some j → i < j)
    (hrepeats : Repeats choice i k) (places : List Place) :
    ∃ left places', Walk a single ((fork, i) :: places) left ((next, k) :: places') ∧ left.Nodup ∧
      ∀ p ∈ left, fork ≤ p.1 ∧ ∃ n, i ≤ n ∧ p.2 = n + depth p.1 := by
  have honward (i : Nat) : onward? a single (fork, i) = some [(first, i), (next, i)] := by
    rw [onward?, hfork]
  induction hrepeats generalizing places with
  | stop hnone =>
    rename_i i
    obtain ⟨left, places', hwalk, hnodup, hleft, hleads⟩ := h i ((next, i) :: places)
    rw [hnone] at hleads
    obtain rfl : places' = (next, i) :: places := hleads
    refine ⟨_, places, .step (honward i) hwalk, List.nodup_cons.2 ⟨fun hp => ?_, hnodup⟩,
      List.forall_mem_cons.2 ⟨⟨Nat.le_refl _, i, Nat.le_refl _, by rw [hdepth, Nat.add_zero]⟩,
        fun p hp => ?_⟩⟩
    · exact Nat.not_le.2 hlo (hleft _ hp).1
    · obtain ⟨hle, -, heq⟩ := hleft p hp
      exact ⟨by omega, i, Nat.le_refl _, heq⟩
  | more hsome _ ih =>
    rename_i i j k _
    obtain ⟨left, places', hwalk, hnodup, hleft, hleads⟩ := h i ((next, i) :: places)
    rw [hsome] at hleads
    obtain ⟨rest, rfl⟩ := hleads
    obtain ⟨left', places', hwalk', hnodup', hleft'⟩ := ih rest
    have hlt := hchoice i j hsome
    refine ⟨_, places', .step (honward i) (hwalk.trans hwalk'), List.nodup_cons.2 ⟨fun hp => ?_,
      List.nodup_append'.2 ⟨hnodup, hnodup', fun p hp hp' => ?_⟩⟩, List.forall_mem_cons.2
      ⟨⟨Nat.le_refl _, i, Nat.le_refl _, by rw [hdepth, Nat.add_zero]⟩,
        List.forall_mem_append.2 ⟨fun p hp => ?_, fun p hp => ?_⟩⟩⟩
    · rcases List.mem_append.1 hp with hp | hp
      · exact Nat.not_le.2 hlo (hleft _ hp).1
      · obtain ⟨-, n, hn, heq⟩ := hleft' _ hp
        have heq : i = n + depth fork := heq
        omega
    · obtain ⟨-, -, heq⟩ := hleft p hp
      obtain ⟨-, n, hn, heq'⟩ := hleft' p hp'
      omega
    · obtain ⟨hle, -, heq⟩ := hleft p hp
      exact ⟨by omega, i, Nat.le_refl _, heq⟩
    · obtain ⟨hle, n, hn, heq⟩ := hleft' p hp
      exact ⟨hle, n, by omega, heq⟩

/-- The automaton of a loop whose body takes characters. -/
def looped (r : Regex) : Automaton :=
  (add r 1 (accepting.push .accept)).2.set! 1 (.fork (add r 1 (accepting.push .accept)).1 0)

theorem add_star (hr : r.isNullable = false) :
    add (.loop r 0 none false) 0 accepting = (1, looped r) := by
  rw [add, addLoop, hr]
  rfl

theorem add_plus : add (.loop r 1 none false) 0 accepting =
    ((add r 1 (accepting.push .accept)).1, looped r) := by
  rw [add, addLoop]
  rfl

theorem add_question : add (.loop r 0 (some 1) false) 0 accepting =
    ((add r 0 accepting).2.size,
      (add r 0 accepting).2.push (.fork (add r 0 accepting).1 0)) := by
  rw [add]
  rfl

/-- The states of a loop: the one that accepts, the fork, and those of the body, which leads to the fork. -/
theorem Builds.looped (h : Builds single r choice) :
    (looped r)[0]? = some .accept ∧
      (looped r)[1]? = some (.fork (add r 1 (accepting.push .accept)).1 0) ∧
      ∃ hi depth, depth 1 = 0 ∧
        Tries (looped r) single 2 hi (add r 1 (accepting.push .accept)).1 1 depth choice := by
  obtain ⟨hkeeps, depth, htries⟩ := h 1 (accepting.push .accept)
  unfold Automaton.looped
  generalize (add r 1 (accepting.push .accept)).1 = first,
    (add r 1 (accepting.push .accept)).2 = b at hkeeps htries
  have hsize : 1 < b.size := hkeeps.size_le
  have hset (q : Nat) (hq : q ≠ 1) : (b.set! 1 (.fork first 0))[q]? = b[q]? := by
    rw [Array.set!_eq_setIfInBounds, Array.getElem?_setIfInBounds_ne (Ne.symm hq)]
  refine ⟨?_, ?_, b.size, fun q => if q = 1 then 0 else depth q, rfl, ?_⟩
  · rw [hset 0 (by decide), hkeeps.node 0 (by decide)]
    rfl
  · rw [Array.set!_eq_setIfInBounds, Array.getElem?_setIfInBounds_self_of_lt hsize]
  · refine (htries.mono fun q hq _ => hset q ?_).of_depth fun q hq _ => if_neg ?_
    · exact Nat.ne_of_gt hq
    · exact Nat.ne_of_gt hq

variable (h : Builds single r choice) (hchoice : ∀ i j, choice i = some j → i < j)
  (hsingle : ∀ r i, i < width → ∀ j ∈ single r i, j < width) (hi : i < width)
include h hchoice hsingle hi

/-- A loop that need not run prefers to go round as long as there is a choice for its body. -/
theorem preferredEnd?_star (hr : r.isNullable = false) (hrepeats : Repeats choice i k) :
    preferredEnd? (.loop r 0 none false) single width i = some k := by
  obtain ⟨haccept, hfork, hi', depth, hdepth, htries⟩ := h.looped
  obtain ⟨left, places', hwalk, hnodup, hleft⟩ :=
    htries.loop hfork (by decide) hdepth hchoice hrepeats []
  exact preferredEnd?_of_walk (add_star hr) hsingle hi haccept hwalk hnodup fun p hp => (hleft p hp).1

/-- One that must run goes round once more behind the choice for its first run. -/
theorem preferredEnd?_plus (hfirst : choice i = some j) (hrepeats : Repeats choice j k) :
    preferredEnd? (.loop r 1 none false) single width i = some k := by
  obtain ⟨haccept, hfork, hi', depth, hdepth, htries⟩ := h.looped
  obtain ⟨left, places', hwalk, hnodup, hleft, hleads⟩ := htries i []
  rw [hfirst] at hleads
  obtain ⟨rest, rfl⟩ := hleads
  obtain ⟨left', places', hwalk', hnodup', hleft'⟩ :=
    htries.loop hfork (by decide) hdepth hchoice hrepeats rest
  have hlt := hchoice i j hfirst
  refine preferredEnd?_of_walk add_plus hsingle hi haccept (hwalk.trans hwalk')
    (List.nodup_append'.2 ⟨hnodup, hnodup', fun p hp hp' => ?_⟩)
    (List.forall_mem_append.2 ⟨fun p hp => ?_, fun p hp => (hleft' p hp).1⟩)
  · obtain ⟨-, -, heq⟩ := hleft p hp
    obtain ⟨-, n, hn, heq'⟩ := hleft' p hp'
    omega
  · have hle := (hleft p hp).1
    omega

omit hchoice in
/-- A loop that runs at most once runs if there is a choice for its body. -/
theorem preferredEnd?_question :
    preferredEnd? (.loop r 0 (some 1) false) single width i = some ((choice i).getD i) := by
  obtain ⟨hkeeps, depth, htries⟩ := h 0 accepting
  have hadd := add_question (r := r)
  generalize (add r 0 accepting).1 = first, (add r 0 accepting).2 = b at hkeeps htries hadd
  have hpush : Keeps b (b.push (.fork first 0)) := .push b _
  have hout : Tries (b.push (.fork first 0)) single b.size b.size 0 0 depth some := fun i places =>
    ⟨[], _, .refl _, List.nodup_nil, nofun, places, rfl⟩
  have hbody : Tries (b.push (.fork first 0)) single accepting.size b.size first 0
      (fun q => if q = b.size then 0 else depth q) choice :=
    (htries.mono fun q _ hq => hpush.node q hq).of_depth fun q _ hq => if_neg (Nat.ne_of_lt hq)
  have hfork := hbody.fork (hout.of_depth fun q hle hq => absurd hq (Nat.not_lt.2 hle))
    Array.getElem?_push_size hkeeps.size_le (Nat.le_refl _) (Nat.le_refl _) (if_pos rfl)
  obtain ⟨left, places', hwalk, hnodup, hleft, hleads⟩ := hfork i []
  have hleads : ∃ rest, places' = (0, (choice i).getD i) :: rest := by
    cases hc : choice i <;> simpa [Leads, hc] using hleads
  obtain ⟨rest, rfl⟩ := hleads
  have haccept : (b.push (.fork first 0))[0]? = some .accept := by
    rw [(hkeeps.trans hpush).node 0 (by decide)]
    rfl
  exact preferredEnd?_of_walk hadd hsingle hi haccept hwalk hnodup fun p hp => (hleft p hp).1

end Loops

end PathGlob.Regex.Automaton
