/-
What a search finds that counts how often it turns back. It goes through all ways before it fails, so it
finds a match just where there is one. An engine with a limit answers what that search finds, or gives up,
and a higher limit only adds answers.
-/
import PathGlob.Proofs.Regex.Ends
import PathGlob.Regex.Effort

namespace PathGlob

namespace Regex

open Relation (ReflTransGen)

/-! ## Tables -/

namespace Effort

@[simp] theorem found_orElse (x y : Effort) : (x.orElse y).found = (x.found || y.found) := by
  unfold orElse
  cases hx : x.found <;> simp [hx]

@[simp] theorem found_behind (n : Nat) (y : Effort) : (behind n y).found = y.found := rfl

end Effort

namespace Efforts

variable {s : Array Char} {k l : Efforts} {i j : Nat}

/-- A search that goes on from a position finds a match. -/
def Finds (k : Efforts) (i : Nat) : Prop := (k.get i).found = true

theorem get_ofFn {f : Nat → Effort} (hi : i ≤ s.size) : (ofFn s f).get i = f i := by
  have hlt : i < s.size + 1 := Nat.lt_succ_of_le hi
  simp [get, ofFn, hlt]

theorem get_add {x : Effort} (hstart : k.start = i + 1) (hij : i ≤ j) :
    (add i x k).get j = if j = i then x else k.get j := by
  rcases Nat.eq_or_lt_of_le hij with rfl | hlt
  · simp [get, add]
  · have hplace : j - i = j - k.start + 1 := by omega
    rw [if_neg (by omega), get, add, hplace, List.getElem?_cons_succ]
    rfl

theorem finds_choice (hi : i ≤ s.size) : (choice s k l).Finds i ↔ k.Finds i ∨ l.Finds i := by
  rw [Finds, choice, get_ofFn hi, Effort.found_orElse, Bool.or_eq_true]
  rfl

/-- In front of any table a body finds what its ends lead to. -/
def Leads (s : Array Char) (next : Nat → List Nat) (body : Efforts → Efforts) : Prop :=
  ∀ k i, i ≤ s.size → ((body k).Finds i ↔ ∃ j ∈ next i, k.Finds j)

/-- A chain of runs that goes anywhere takes a character first; runs that stay in place do not matter. -/
theorem chain_cases {next : Nat → List Nat} {n : Nat} (hnext : Onward next n) (hi : i ≤ n)
    (h : ReflTransGen (fun a b => b ∈ next a) i j) :
    i = j ∨ ∃ a ∈ next i, i < a ∧ ReflTransGen (fun a b => b ∈ next a) a j := by
  induction h using ReflTransGen.head_induction_on with
  | refl => exact .inl rfl
  | @head i a ha hchain ih =>
    rcases Nat.eq_or_lt_of_le (hnext i a hi ha).1 with rfl | hlt
    · exact ih hi
    · exact .inr ⟨a, ha, hlt, hchain⟩

section Loops

variable {next : Nat → List Nat} {body : Efforts → Efforts} (hbody : Leads s next body)

include hbody

theorem finds_repeat (hnext : Onward next s.size) (n : Nat) (hi : i ≤ s.size) :
    (Nat.repeat body n k).Finds i ↔ ∃ j, Runs next n i j ∧ k.Finds j := by
  induction n generalizing i with
  | zero => simp [Nat.repeat, Runs]
  | succ n ih =>
    rw [Nat.repeat, hbody _ _ hi]
    constructor
    · rintro ⟨a, ha, hfinds⟩
      obtain ⟨j, hruns, hj⟩ := (ih (hnext i a hi ha).2).1 hfinds
      exact ⟨j, ⟨a, ha, hruns⟩, hj⟩
    · rintro ⟨j, ⟨a, ha, hruns⟩, hj⟩
      exact ⟨a, ha, (ih (hnext i a hi ha).2).2 ⟨j, hruns, hj⟩⟩

theorem finds_upTo (hnext : Onward next s.size) (isLazy : Bool) (n : Nat) (hi : i ≤ s.size) :
    (upTo s body isLazy k n).Finds i ↔ ∃ j, (∃ l ≤ n, Runs next l i j) ∧ k.Finds j := by
  induction n generalizing i with
  | zero => simp [upTo, Runs]
  | succ n ih =>
    have hmore : (upTo s body isLazy k (n + 1)).Finds i ↔
        k.Finds i ∨ ∃ a ∈ next i, (upTo s body isLazy k n).Finds a := by
      rw [← hbody _ _ hi, upTo]
      cases isLazy with
      | false => rw [if_neg (by decide), finds_choice hi, or_comm]
      | true => rw [if_pos rfl, finds_choice hi]
    rw [hmore]
    constructor
    · rintro (hk | ⟨a, ha, hfinds⟩)
      · exact ⟨i, ⟨0, Nat.zero_le _, rfl⟩, hk⟩
      · obtain ⟨j, ⟨l, hl, hruns⟩, hj⟩ := (ih (hnext i a hi ha).2).1 hfinds
        exact ⟨j, ⟨l + 1, Nat.succ_le_succ hl, a, ha, hruns⟩, hj⟩
    · rintro ⟨j, ⟨_ | l, hl, hruns⟩, hj⟩
      · cases hruns
        exact .inl hj
      · obtain ⟨a, ha, hruns⟩ := hruns
        exact .inr ⟨a, ha, (ih (hnext i a hi ha).2).2 ⟨j, ⟨l, Nat.le_of_succ_le_succ hl, hruns⟩, hj⟩⟩

/-- A loop goes on from a position to the end of its body, or ends there. -/
theorem finds_addLoop (hnext : Onward next s.size) (isLazy : Bool) {later : Efforts} (hi : i ≤ s.size)
    (hstart : later.start = i + 1) : (addLoop body isLazy k i later).Finds i ↔
      k.Finds i ∨ ∃ j ∈ next i, i < j ∧ later.Finds j := by
  have hmore : (body (later.add i (k.get i))).Finds i ↔
      (i ∈ next i ∧ k.Finds i) ∨ ∃ j ∈ next i, i < j ∧ later.Finds j := by
    rw [hbody _ _ hi]
    constructor
    · rintro ⟨j, hj, hfinds⟩
      rw [Finds, get_add hstart (hnext i j hi hj).1] at hfinds
      rcases Nat.eq_or_lt_of_le (hnext i j hi hj).1 with rfl | hij
      · exact .inl ⟨hj, by rwa [if_pos rfl] at hfinds⟩
      · exact .inr ⟨j, hj, hij, by rwa [if_neg (by omega)] at hfinds⟩
    · rintro (⟨hself, hk⟩ | ⟨j, hj, hij, hfinds⟩)
      · exact ⟨i, hself, by rwa [Finds, get_add hstart (Nat.le_refl i), if_pos rfl]⟩
      · exact ⟨j, hj, by rwa [Finds, get_add hstart (Nat.le_of_lt hij), if_neg (by omega)]⟩
  have hboth : (addLoop body isLazy k i later).Finds i ↔
      k.Finds i ∨ (body (later.add i (k.get i))).Finds i := by
    rw [Finds, addLoop, get_add hstart (Nat.le_refl i), if_pos rfl]
    cases isLazy with
    | false => rw [if_neg (by decide), Effort.found_orElse, Bool.or_eq_true, or_comm]; rfl
    | true => rw [if_pos rfl, Effort.found_orElse, Bool.or_eq_true]; rfl
  rw [hboth, hmore, ← or_assoc, or_iff_left_of_imp And.right]

/-- The table of a loop is filled from its end: at each position it knows of all later ones. -/
theorem finds_loop (hnext : Onward next s.size) (isLazy : Bool) (hi : i ≤ s.size) :
    (loop s body isLazy k).Finds i ↔ ∃ j, ReflTransGen (fun a b => b ∈ next a) i j ∧ k.Finds j := by
  have hfilled (n i : Nat) (hn : i + n = s.size + 1) :
      ((List.range' i n).foldr (addLoop body isLazy k) ⟨s.size + 1, []⟩).start = i ∧
      ∀ p, i ≤ p → p ≤ s.size →
        (Finds ((List.range' i n).foldr (addLoop body isLazy k) ⟨s.size + 1, []⟩) p ↔
          ∃ j, ReflTransGen (fun a b => b ∈ next a) p j ∧ k.Finds j) := by
    induction n generalizing i with
    | zero => exact ⟨hn.symm, fun p hp hle => by omega⟩
    | succ n ih =>
      obtain ⟨hstart, hlater⟩ := ih (i + 1) (by omega)
      rw [List.range'_succ, List.foldr_cons]
      refine ⟨rfl, fun p hp hle => ?_⟩
      rcases Nat.eq_or_lt_of_le hp with rfl | hlt
      · rw [finds_addLoop hbody hnext isLazy hle hstart]
        constructor
        · rintro (hk | ⟨a, ha, hia, hfinds⟩)
          · exact ⟨i, .refl, hk⟩
          · obtain ⟨j, hchain, hj⟩ := (hlater a hia (hnext i a hle ha).2).1 hfinds
            exact ⟨j, .head ha hchain, hj⟩
        · rintro ⟨j, hchain, hj⟩
          rcases chain_cases hnext hle hchain with rfl | ⟨a, ha, hia, hchain⟩
          · exact .inl hj
          · exact .inr ⟨a, ha, hia, (hlater a hia (hnext i a hle ha).2).2 ⟨j, hchain, hj⟩⟩
      · rw [Finds, addLoop, get_add hstart hp, if_neg (by omega)]
        exact hlater p hlt hle
  rw [loop, List.range_eq_range']
  exact (hfilled (s.size + 1) 0 (by omega)).2 i (Nat.zero_le i) hi

end Loops

end Efforts

/-! ## Expressions -/

section Search

variable {nocase : Bool} {s : Array Char} {i : Nat}

open Efforts

theorem finds_handedOver {r : Regex} (hi : i ≤ s.size) :
    (handedOver nocase s r).Finds i ↔ ∃ j, Spans nocase s r i j := by
  rw [Finds, handedOver, get_ofFn hi]
  cases hends : r.ends nocase s i with
  | nil => simp [Spans, hends, Effort.failed]
  | cons j js => exact iff_of_true rfl ⟨j, by simp [Spans, hends]⟩

/-- Positions that are all the same: the search goes on from the first. -/
theorem found_head {is : List Nat} (his : ∀ a ∈ is, ∀ b ∈ is, a = b) {f : Nat → Effort} {x : Effort}
    (hx : x.found = false) :
    (match is.head? with
      | some j => f j
      | none => x).found = true ↔ ∃ j ∈ is, (f j).found = true := by
  cases is with
  | nil => simp [hx]
  | cons a as =>
    refine ⟨fun h => ⟨a, List.mem_cons_self, h⟩, ?_⟩
    rintro ⟨j, hj, hfound⟩
    rwa [his j hj a List.mem_cons_self] at hfound

theorem step_unique {test : Char → Bool} {a b : Nat} (ha : a ∈ step s test i) (hb : b ∈ step s test i) :
    a = b := by
  obtain ⟨-, -, -, rfl⟩ := mem_step.1 ha
  obtain ⟨-, -, -, rfl⟩ := mem_step.1 hb
  rfl

theorem stay_unique {c : Bool} {a b : Nat} (ha : a ∈ stay c i) (hb : b ∈ stay c i) : a = b :=
  (mem_stay.1 ha).2.trans (mem_stay.1 hb).2.symm

theorem preferred_unique {r : Regex} {is : List Nat} {a b : Nat} (ha : a ∈ preferred nocase s r i is)
    (hb : b ∈ preferred nocase s r i is) : a = b := by
  unfold preferred at ha hb
  split at ha
  · rw [if_pos ‹_›] at hb
    simp only [List.mem_filter, decide_eq_true_eq] at ha hb
    exact Option.some.inj (ha.2.symm.trans hb.2)
  · rw [if_neg ‹_›] at hb
    cases is with
    | nil => simp at ha
    | cons c cs => simp at ha hb; rw [ha, hb]

namespace Rest

/-- What is handed over together finds a match of the expression with one of the rest behind it. -/
theorem finds_whole {rest : Rest} {r whole : Regex} (h : rest.whole? r = some whole) (hi : i ≤ s.size) :
    (handedOver nocase s whole).Finds i ↔
      ∃ j, Spans nocase s r i j ∧ (rest.toEfforts nocase s).Finds j := by
  cases rest with
  | efforts k => cases h
  | plain t =>
    unfold whole? at h
    dsimp only at h
    split at h
    · cases h
      rw [finds_handedOver hi]
      simp only [spans_append]
      constructor
      · rintro ⟨j, a, ha, haj⟩
        exact ⟨a, ha, (finds_handedOver (ha.onward hi).2).2 ⟨j, haj⟩⟩
      · rintro ⟨a, ha, hfinds⟩
        obtain ⟨j, hj⟩ := (finds_handedOver (ha.onward hi).2).1 hfinds
        exact ⟨j, a, ha, hj⟩
    · cases h

theorem toEfforts_inner (rest : Rest) :
    (rest.inner nocase s).toEfforts nocase s = rest.toEfforts nocase s := by
  unfold inner
  split <;> rfl

end Rest

theorem finds_nothing_behind (hi : i ≤ s.size) :
    ((Rest.plain .empty).toEfforts nocase s).Finds i :=
  (finds_handedOver hi).2 ⟨i, spans_empty.2 rfl⟩

/-- The search for an expression finds a match where there is one from which the rest goes on. -/
def Finding (nocase : Bool) (s : Array Char) (r : Regex) : Prop :=
  ∀ (rest : Rest) (i : Nat), i ≤ s.size → ((r.tried nocase s rest).Finds i ↔
    ∃ j, Spans nocase s r i j ∧ (rest.toEfforts nocase s).Finds j)

namespace Finding

variable {r : Regex}

theorem leads (h : Finding nocase s r) :
    Leads s (r.ends nocase s) fun k => r.tried nocase s (.efforts k) := fun k i hi => h (.efforts k) i hi

/-- With nothing behind it, an expression only has to match. -/
theorem alone (h : Finding nocase s r) (hi : i ≤ s.size) :
    (r.tried nocase s (.plain .empty)).Finds i ↔ ∃ j, Spans nocase s r i j := by
  rw [h _ i hi]
  exact exists_congr fun j => and_iff_left_of_imp fun hj => finds_nothing_behind (hj.onward hi).2

/-- What is not handed over is left to show. -/
theorem of_none (h : ∀ (rest : Rest) (i : Nat), i ≤ s.size → rest.whole? r = none →
      ((r.tried nocase s rest).Finds i ↔
        ∃ j, Spans nocase s r i j ∧ (rest.toEfforts nocase s).Finds j)) : Finding nocase s r := by
  intro rest i hi
  cases hwhole : rest.whole? r with
  | none => exact h rest i hi hwhole
  | some whole =>
    rw [tried_of_whole nocase s hwhole]
    exact Rest.finds_whole hwhole hi

theorem seq {a b : Regex} (ha : Finding nocase s a) (hb : Finding nocase s b) :
    Finding nocase s (.seq a b) := by
  refine of_none fun rest i hi hwhole => ?_
  have hboth {k : Efforts} (hk : ∀ j ≤ s.size, k.Finds j ↔
      ∃ l, Spans nocase s b j l ∧ (rest.toEfforts nocase s).Finds l) :
      (∃ j, Spans nocase s a i j ∧ k.Finds j) ↔
        ∃ l, Spans nocase s (.seq a b) i l ∧ (rest.toEfforts nocase s).Finds l := by
    simp only [spans_seq]
    constructor
    · rintro ⟨j, hj, hfinds⟩
      obtain ⟨l, hl, hrest⟩ := (hk j (hj.onward hi).2).1 hfinds
      exact ⟨l, ⟨j, hj, hl⟩, hrest⟩
    · rintro ⟨l, ⟨j, hj, hl⟩, hrest⟩
      exact ⟨j, hj, (hk j (hj.onward hi).2).2 ⟨l, hl, hrest⟩⟩
  unfold tried
  simp only [hwhole]
  split
  · exact (ha _ i hi).trans (hboth fun j hj => Rest.finds_whole ‹_› hj)
  · exact (ha _ i hi).trans (hboth fun j hj => hb _ j hj)

theorem alt {a b : Regex} (ha : Finding nocase s a) (hb : Finding nocase s b) :
    Finding nocase s (.alt a b) := by
  refine of_none fun rest i hi hwhole => ?_
  unfold tried
  simp only [hwhole]
  rw [finds_choice hi, ha _ i hi, hb _ i hi, Rest.toEfforts_inner]
  simp only [spans_alt, or_and_right, exists_or]

theorem capture (h : Finding nocase s r) : Finding nocase s (.capture r) := by
  refine of_none fun rest i hi hwhole => ?_
  unfold tried
  simp only [hwhole]
  rw [h _ i hi, Rest.toEfforts_inner]
  simp only [spans_capture]

/-- Runs that a loop must have, and then any number of further ones as `Q` has it. -/
theorem runs {k l : Efforts} {lo : Nat} {Q : Nat → Nat → Prop} (h : Finding nocase s r)
    (hk : ∀ i ≤ s.size, k.Finds i ↔ ∃ j, Q i j ∧ l.Finds j) (hi : i ≤ s.size) :
    (Nat.repeat (fun k => r.tried nocase s (.efforts k)) lo k).Finds i ↔
      ∃ j, (∃ a, Runs (r.ends nocase s) lo i a ∧ Q a j) ∧ l.Finds j := by
  have hnext := onward_ends nocase s r
  rw [finds_repeat h.leads hnext lo hi]
  constructor
  · rintro ⟨a, hruns, hfinds⟩
    obtain ⟨j, hj, hl⟩ := (hk a (hruns.onward hnext hi).2).1 hfinds
    exact ⟨j, ⟨a, hruns, hj⟩, hl⟩
  · rintro ⟨j, ⟨a, hruns, hj⟩, hl⟩
    exact ⟨a, hruns, (hk a (hruns.onward hnext hi).2).2 ⟨j, hj, hl⟩⟩

theorem loop (h : Finding nocase s r) (lo : Nat) (hi : Option Nat) (isLazy : Bool) :
    Finding nocase s (.loop r lo hi isLazy) := by
  refine of_none fun rest i hin hwhole => ?_
  have hnext := onward_ends nocase s r
  unfold tried
  cases hi with
  | none =>
    simp only [hwhole, spans_loop hin]
    exact h.runs (fun i hi => finds_loop h.leads hnext isLazy hi) hin
  | some hi =>
    simp only [hwhole, spans_loop_upTo]
    exact h.runs (fun i hi => finds_upTo h.leads hnext isLazy _ hi) hin

theorem atomic (r : Regex) : Finding nocase s (.atomic r) := by
  refine of_none fun rest i hi hwhole => ?_
  unfold tried
  simp only [hwhole]
  rw [Finds, get_ofFn hi]
  exact found_head (fun _ ha _ hb => preferred_unique ha hb) rfl

theorem ahead (h : Finding nocase s r) : Finding nocase s (.look .ahead r) := by
  refine of_none fun rest i hi hwhole => ?_
  unfold tried
  simp only [hwhole, spans_ahead, ← h.alone hi]
  rw [Finds, get_ofFn hi, Finds]
  split
  · simp [Finds, *]
  · simp [Finds, *]

theorem notAhead (h : Finding nocase s r) : Finding nocase s (.look .notAhead r) := by
  refine of_none fun rest i hi hwhole => ?_
  unfold tried
  simp only [hwhole, spans_notAhead, ← h.alone hi]
  rw [Finds, get_ofFn hi, Finds]
  split
  · simp [Finds, *]
  · simp [Finds, *]

/-- An expression with at most one end is not searched for further. -/
theorem single (htried : ∀ rest : Rest, rest.whole? r = none →
      r.tried nocase s rest = next s (r.ends nocase s) (rest.toEfforts nocase s))
    (hends : ∀ i, ∀ a ∈ r.ends nocase s i, ∀ b ∈ r.ends nocase s i, a = b) : Finding nocase s r := by
  refine of_none fun rest i hi hwhole => ?_
  rw [Finds, htried rest hwhole, next, get_ofFn hi]
  exact found_head (hends i) rfl

end Finding

/-- A search finds a match where the expression has one from which the rest goes on. -/
theorem finds_tried (r : Regex) : Finding nocase s r := by
  induction r with
  | empty =>
    refine .of_none fun rest i hi hwhole => ?_
    unfold tried
    simp [hwhole]
  | seq a b iha ihb => exact iha.seq ihb
  | alt a b iha ihb => exact iha.alt ihb
  | capture r ih => exact ih.capture
  | loop r lo hi isLazy ih => exact ih.loop lo hi isLazy
  | atomic r => exact .atomic r
  | look k r ih =>
    cases k with
    | ahead => exact ih.ahead
    | notAhead => exact ih.notAhead
    | _ =>
      exact .single (fun rest hwhole => by unfold tried; simp only [hwhole])
        fun i a ha b hb => stay_unique ha hb
  | start | stop =>
    exact .single (fun rest hwhole => by unfold tried; simp only [hwhole])
      fun i a ha b hb => stay_unique ha hb
  | _ =>
    exact .single (fun rest hwhole => by unfold tried; simp only [hwhole])
      fun i a ha b hb => step_unique ha hb

theorem Spans.eq_of_no_operands {r : Regex} {j : Nat} (hnone : r.operands = [])
    (h : Spans nocase s r i j) : j = i := by
  induction r generalizing i j with
  | empty => exact spans_empty.1 h
  | seq a b iha ihb =>
    obtain ⟨k, ha, hb⟩ := spans_seq.1 h
    rw [operands, List.append_eq_nil_iff] at hnone
    rw [ihb hnone.2 hb, iha hnone.1 ha]
  | _ => cases hnone

/-- An expression that begins with the start of the text matches nowhere else. -/
theorem Spans.eq_zero {r : Regex} {j : Nat} (hstart : r.operands.head? = some .start)
    (h : Spans nocase s r i j) : i = 0 := by
  induction r generalizing i j with
  | seq a b iha ihb =>
    obtain ⟨k, ha, hb⟩ := spans_seq.1 h
    rw [operands, List.head?_append] at hstart
    cases hnone : a.operands with
    | nil =>
      rw [hnone] at hstart
      rw [← ha.eq_of_no_operands hnone, ihb hstart hb]
    | cons x xs =>
      rw [hnone] at hstart
      exact iha (hnone ▸ hstart) ha
  | start => exact (spans_start.1 h).1
  | _ => cases hstart

/-- One place after another is tried until a match is found. -/
theorem found_anywhere (k : Efforts) (is : List Nat) :
    (is.foldr (fun i later => (k.get i).orElse later) .failed).found = true ↔ ∃ i ∈ is, k.Finds i := by
  induction is with
  | nil => simp [Effort.failed]
  | cons i is ih => simp [ih, Finds]

/-- The search that counts finds what is to be found. -/
theorem found_effort (r : Regex) : (r.effort nocase s).found = r.matchesIn nocase s := by
  unfold effort
  split
  · rfl
  · have hfinding : Finding nocase s r := finds_tried r
    have hmatch (i : Nat) (hi : i ≤ s.size) := hfinding.alone hi
    rw [Bool.eq_iff_iff, matchesIn_iff]
    dsimp only
    split
    · refine (hmatch 0 (Nat.zero_le _)).trans ⟨fun ⟨j, hj⟩ => ⟨0, Nat.zero_le _, j, hj⟩, ?_⟩
      rintro ⟨i, hi, j, hj⟩
      obtain rfl := hj.eq_zero ‹_›
      exact ⟨j, hj⟩
    · simp only [found_anywhere, List.mem_range, Nat.lt_succ_iff]
      exact exists_congr fun i => and_congr_right fun hi => hmatch i hi

end Search
end Regex

/-! ## Engines -/

namespace Engine

variable {r : Regex} {nocase : Bool} {s : Array Char}

/-- Within its limit an engine answers what the search that counts has found. -/
theorem answer?_backtracking (limit : Nat) : (backtracking limit).answer? r nocase s =
    if limit < (r.effort nocase s).backtracks then none else some (r.effort nocase s).found := by
  rw [Regex.found_effort]
  simp [answer?, backtracking]

/-- What is handed over as a whole is answered under every limit. -/
theorem answer?_of_isPlain (h : r.isPlain) (limit : Nat) :
    (backtracking limit).answer? r nocase s = some (r.matchesIn nocase s) := by
  rw [answer?_backtracking, Regex.found_effort, if_neg]
  simp [Regex.effort, h]

/-- A higher limit leaves the answers and may add some. -/
theorem answer?_mono {limit limit' : Nat} (hle : limit ≤ limit') {b : Bool}
    (h : (backtracking limit).answer? r nocase s = some b) :
    (backtracking limit').answer? r nocase s = some b := by
  rw [answer?_backtracking] at h ⊢
  split at h
  · cases h
  · rwa [if_neg (by omega)]

end Engine
end PathGlob
