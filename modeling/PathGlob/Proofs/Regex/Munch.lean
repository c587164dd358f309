/-
Loops that give nothing back. The preferred match of a loop over words takes, as long as one of the words
comes next, the first of them that does, so the loop with nothing but this match is a function of the text
ahead. That alternatives are factored before their automaton is built makes no difference here: a word is
one part, and an alternative of one part shares nothing.
-/
import Mathlib.Data.List.SplitBy
import PathGlob.Proofs.Regex.Language
import PathGlob.Proofs.Regex.Walks

namespace PathGlob.Regex

open scoped Computability

/-! ## Words as expressions -/

/-- The expression of a word, nested to the right. -/
def word (cs : List Char) : Regex := sequence (cs.map Regex.char)

section Words

variable {cs : List Char} {w : List Char} {ws : List (List Char)}

@[simp] theorem sequence_nil : sequence [] = .empty := rfl

@[simp] theorem sequence_singleton (r : Regex) : sequence [r] = r := append_empty r

@[simp] theorem word_cons (c : Char) (cs : List Char) : word (c :: cs) = (Regex.char c).append (word cs) := rfl

theorem operands_append (a b : Regex) : (a.append b).operands = a.operands ++ b.operands := by
  unfold append
  split
  · rename_i ha
    rw [ha]
    rfl
  · split
    · rename_i hb
      rw [hb]
      exact (List.append_nil _).symm
    · rfl

theorem operands_word (cs : List Char) : (word cs).operands = cs.map Regex.char := by
  induction cs with
  | nil => rfl
  | cons c cs ih =>
    rw [word_cons, operands_append, ih]
    rfl

/-- An expression of characters alone is one part. -/
theorem parts_of_operands {r : Regex} (hne : cs ≠ []) (h : r.operands = cs.map Regex.char) :
    r.parts false = [word cs] := by
  have hchain : (cs.map Regex.char).IsChain fun a b =>
      (a.isExactChar false && b.isExactChar false) = true := by
    rw [List.isChain_map]
    exact (List.pairwise_of_forall fun _ _ => rfl).isChain
  rw [parts, h, List.splitBy_of_isChain (by simpa using hne) hchain]
  rfl

/-- Alternatives of one part each stay as they are. -/
theorem factor_of_parts {r t : Regex} {rs ts : List Regex} (hr : r.parts false = [t])
    (hrs : List.Forall₂ (fun r t => r.parts false = [t]) rs ts) : factor false (r :: rs) = alts t ts := by
  have hparts : rs.map (parts false) = ts.map ([·]) := by
    induction hrs with
    | nil => rfl
    | cons h _ ih => rw [List.map_cons, List.map_cons, h, ih]
  unfold factor
  rw [List.map_cons, hr, hparts]
  have hall : ([t] :: ts.map ([·])).all (2 ≤ ·.length) = false := rfl
  simp only [hall, Bool.false_eq_true, if_false, List.length_nil, List.drop_zero, sequence_nil,
    empty_append, List.map_map, sequence_singleton]
  congr 1
  exact (List.map_congr_left fun t _ => sequence_singleton t).trans (List.map_id ts)

/-- A word that is nested to the left is one part as well. -/
theorem parts_branches_literals (hne : cs ≠ []) :
    ∃ r, (literals cs).branches false = [r] ∧ r.parts false = [word cs] ∧
      r.operands = cs.map Regex.char := by
  induction cs using List.reverseRecOn with
  | nil => exact absurd rfl hne
  | append_singleton cs c ih =>
    have hliterals : literals (cs ++ [c]) = (literals cs).append (.char c) := by
      rw [literals, List.foldl_append]
      rfl
    have hoperands : ∃ r, (literals (cs ++ [c])).branches false = [r] ∧
        r.operands = (cs ++ [c]).map Regex.char := by
      rw [hliterals, List.map_append]
      by_cases hcs : cs = []
      · subst hcs
        exact ⟨_, rfl, rfl⟩
      · obtain ⟨r, hbranches, hparts, hr⟩ := ih hcs
        have hseq : (literals cs).append (.char c) = .seq (literals cs) (.char c) := by
          have hempty : literals cs ≠ .empty := by
            intro h
            rw [h] at hbranches
            cases hbranches
            exact hcs (List.map_eq_nil_iff.1 hr.symm)
          rw [append, if_neg hempty, if_neg (by simp)]
        refine ⟨_, by rw [hseq, branches, hbranches], ?_⟩
        rw [factor_of_parts hparts .nil, operands_append]
        exact congrArg (· ++ _) (operands_word cs)
    obtain ⟨r, hbranches, hr⟩ := hoperands
    exact ⟨r, hbranches, parts_of_operands hne hr, hr⟩

/-- Words as alternatives, as they are written. -/
def written (w : List Char) (ws : List (List Char)) : Regex := alts (literals w) (ws.map literals)

/-- Words as alternatives, with each nested to the right. -/
def words (w : List Char) (ws : List (List Char)) : Regex := alts (word w) (ws.map word)

theorem branches_written (hne : ∀ u ∈ w :: ws, u ≠ []) : ∃ r rs,
    (written w ws).branches false = r :: rs ∧ r.parts false = [word w] ∧
      List.Forall₂ (fun r t => r.parts false = [t]) rs (ws.map word) := by
  induction ws generalizing w with
  | nil =>
    obtain ⟨r, hbranches, hparts, -⟩ := parts_branches_literals (hne w List.mem_cons_self)
    exact ⟨r, [], hbranches, hparts, .nil⟩
  | cons v vs ih =>
    obtain ⟨r, hbranches, hparts, -⟩ := parts_branches_literals (hne w List.mem_cons_self)
    obtain ⟨t, ts, hrest, ht, hts⟩ := ih fun u hu => hne u (List.mem_cons_of_mem w hu)
    refine ⟨r, t :: ts, ?_, hparts, .cons ht hts⟩
    change (literals w).branches false ++ (written v vs).branches false = _
    rw [hbranches, hrest]
    rfl

/-- Factoring a loop over words nests them to the right. -/
theorem factored_loop (hne : ∀ u ∈ w :: ws, u ≠ []) (lo : Nat) (hi : Option Nat) :
    (Regex.loop (written w ws) lo hi false).factored false = .loop (words w ws) lo hi false := by
  obtain ⟨r, rs, hbranches, hr, hrs⟩ := branches_written hne
  have hbody : factor false ((written w ws).branches false) = words w ws := by
    rw [hbranches]
    exact factor_of_parts hr hrs
  rw [factored, branches, hbody]
  exact factor_of_parts (by rfl) .nil

end Words
/-! ## The words that come next -/

/-- The first of several words with which a text begins. -/
def first? (ws : List (List Char)) (s : List Char) : Option (List Char) := ws.find? (·.isPrefixOf s)

theorem first?_mem {ws : List (List Char)} {s u : List Char} (h : first? ws s = some u) :
    u ∈ ws ∧ u <+: s := by
  have h : ws.find? (·.isPrefixOf s) = some u := h
  exact ⟨List.mem_of_find?_eq_some h, List.isPrefixOf_iff_prefix.1 (by simpa using List.find?_some h)⟩

theorem first?_eq_none {ws : List (List Char)} {s : List Char} :
    first? ws s = none ↔ ∀ u ∈ ws, ¬ u <+: s := by
  simp [first?]

theorem first?_cons (w : List Char) (ws : List (List Char)) (s : List Char) :
    first? (w :: ws) s = (first? [w] s).or (first? ws s) := by
  simp only [first?, List.find?_cons]
  cases w.isPrefixOf s <;> rfl

/-- What is taken of a text as long as one of the words comes next, the first of them each time. -/
def munched (ws : List (List Char)) (s : List Char) : List Char :=
  match _h : first? ws s with
  | none => []
  | some u => if u = [] then [] else u ++ munched ws (s.drop u.length)
termination_by s.length
decreasing_by
  have hle := (first?_mem _h).2.length_le
  have hpos : 0 < u.length := List.length_pos_iff.2 (by assumption)
  rw [List.length_drop]
  omega

theorem munched_of_none {ws : List (List Char)} {s : List Char} (h : first? ws s = none) :
    munched ws s = [] := by
  rw [munched]
  split
  · rfl
  · rename_i hsome
    cases h.symm.trans hsome

theorem munched_of_some {ws : List (List Char)} {s u : List Char} (h : first? ws s = some u)
    (hu : u ≠ []) : munched ws s = u ++ munched ws (s.drop u.length) := by
  rw [munched]
  split
  · rename_i hnone
    cases h.symm.trans hnone
  · rename_i v hsome
    obtain rfl : u = v := Option.some.inj (h.symm.trans hsome)
    rw [if_neg hu]

namespace Automaton

variable {s w : List Char} {ws : List (List Char)} {i : Nat}

/-- Where the first word that comes next at a position of a text ends. -/
def choice (s : List Char) (ws : List (List Char)) (i : Nat) : Option Nat :=
  (first? ws (s.drop i)).map (i + ·.length)

theorem choice_lt (hne : ∀ u ∈ ws, u ≠ []) (i j : Nat) (h : choice s ws i = some j) : i < j := by
  obtain ⟨u, hu, rfl⟩ := Option.map_eq_some_iff.1 h
  have hpos : 0 < u.length := List.length_pos_iff.2 (hne u (first?_mem hu).1)
  omega

theorem isPrefixOf_drop (c : Char) (cs s : List Char) (i : Nat) : (c :: cs).isPrefixOf (s.drop i) =
    ((s[i]? = some c : Bool) && cs.isPrefixOf (s.drop (i + 1))) := by
  cases hs : s[i]? with
  | none =>
    rw [List.drop_eq_nil_of_le (List.getElem?_eq_none_iff.1 hs)]
    rfl
  | some d =>
    obtain ⟨hlt, rfl⟩ := List.getElem?_eq_some_iff.1 hs
    rw [List.drop_eq_getElem_cons hlt, List.isPrefixOf]
    simp [@eq_comm _ c, beq_eq_decide]

/-- The automaton of a word takes its characters one by one. -/
theorem builds_word (s w : List Char) : Builds (single false s.toArray) (word w) (choice s [w]) := by
  induction w with
  | nil =>
    have hchoice : choice s [[]] = some := funext fun i => by
      simp [choice, first?]
    rw [hchoice]
    exact builds_empty
  | cons c cs ih =>
    have hsingle (i : Nat) : single false s.toArray (.char c) i =
        if (s[i]? = some c : Bool) then [i + 1] else [] := by
      change step s.toArray (sameChar false c) i = _
      rw [step, List.getElem?_toArray]
      cases hs : s[i]? with
      | none => rfl
      | some d => simp [sameChar, @eq_comm _ c]
    have hchoice : choice s [c :: cs] = fun i =>
        if (s[i]? = some c : Bool) then choice s [cs] (i + 1) else none := funext fun i => by
      have hnext := isPrefixOf_drop c cs s i
      cases hc : (s[i]? = some c : Bool) <;> cases hcs : cs.isPrefixOf (s.drop (i + 1)) <;>
        simp [choice, first?, hnext, hc, hcs, Nat.add_comm, Nat.add_left_comm]
    rw [hchoice]
    exact ih.char_append hsingle

theorem builds_words (s w : List Char) (ws : List (List Char)) :
    Builds (single false s.toArray) (words w ws) (choice s (w :: ws)) := by
  induction ws generalizing w with
  | nil => exact builds_word s w
  | cons v vs ih =>
    have hchoice : choice s (w :: v :: vs) = fun i => (choice s [w] i).or (choice s (v :: vs) i) :=
      funext fun i => by
        unfold choice
        rw [first?_cons, Option.map_or]
    rw [hchoice]
    exact (builds_word s w).alt (ih v)

/-- What is taken by going round as long as a word comes next. -/
theorem repeats_munched (hne : ∀ u ∈ ws, u ≠ []) (s : List Char) (i : Nat) :
    Repeats (choice s ws) i (i + (munched ws (s.drop i)).length) := by
  generalize hn : s.length - i = n
  induction n using Nat.strongRecOn generalizing i with
  | _ n ih =>
    cases hfirst : first? ws (s.drop i) with
    | none =>
      rw [munched_of_none hfirst]
      exact .stop (by rw [choice, hfirst]; rfl)
    | some u =>
      obtain ⟨hmem, hprefix⟩ := first?_mem hfirst
      have hpos : 0 < u.length := List.length_pos_iff.2 (hne u hmem)
      have hle := hprefix.length_le
      rw [List.length_drop] at hle
      rw [munched_of_some hfirst (hne u hmem), List.length_append, ← Nat.add_assoc, List.drop_drop]
      refine .more (by rw [choice, hfirst]; rfl) (ih (s.length - (i + u.length)) ?_ _ rfl)
      omega

end Automaton

/-! ## Loops that give nothing back -/

section Atomic

variable {s w u : List Char} {ws : List (List Char)} {i j k : Nat}

theorem munched_prefix (ws : List (List Char)) (s : List Char) : munched ws s <+: s := by
  fun_induction munched ws s with
  | case1 => exact List.nil_prefix
  | case2 => exact List.nil_prefix
  | case3 s u h hu ih =>
    obtain ⟨rest, hrest⟩ := ih
    obtain ⟨behind, rfl⟩ := (first?_mem h).2
    rw [List.drop_left] at hrest
    exact ⟨rest, by rw [List.drop_left, List.append_assoc, hrest]⟩

theorem munched_mem_kstar {L : Language Char} (hws : ∀ u ∈ ws, u ∈ L) (s : List Char) :
    munched ws s ∈ L∗ := by
  fun_induction munched ws s with
  | case1 => exact Language.nil_mem_kstar L
  | case2 => exact Language.nil_mem_kstar L
  | case3 s u h hu ih =>
    have hmul : u ++ munched ws (s.drop u.length) ∈ L * L∗ :=
      Language.append_mem_mul (hws u (first?_mem h).1) ih
    exact (mul_kstar_le_kstar : L * L∗ ≤ L∗) hmul

theorem isPlain_append {a b : Regex} (ha : a.isPlain = true) (hb : b.isPlain = true) :
    (a.append b).isPlain = true := by
  unfold append
  split
  · exact hb
  · split
    · exact ha
    · rw [isPlain, ha, hb]
      rfl

theorem isPlain_literals (cs : List Char) : (literals cs).isPlain = true := by
  induction cs using List.reverseRecOn with
  | nil => rfl
  | append_singleton cs c ih =>
    rw [literals, List.foldl_append]
    exact isPlain_append ih rfl

theorem isPlain_written (w : List Char) (ws : List (List Char)) : (written w ws).isPlain = true := by
  induction ws generalizing w with
  | nil => exact isPlain_literals w
  | cons v vs ih =>
    change ((literals w).isPlain && (written v vs).isPlain) = true
    rw [isPlain_literals, ih]
    rfl

theorem isNullable_append {a b : Regex} (ha : a.isNullable = false) : (a.append b).isNullable = false := by
  unfold append
  split
  · rename_i h
    rw [h] at ha
    cases ha
  · split
    · exact ha
    · rw [isNullable, ha, Bool.false_and]

theorem isNullable_words (hne : ∀ u ∈ w :: ws, u ≠ []) : (words w ws).isNullable = false := by
  have hword {w : List Char} (hw : w ≠ []) : (word w).isNullable = false := by
    obtain ⟨c, cs, rfl⟩ := List.exists_cons_of_ne_nil hw
    rw [word_cons]
    exact isNullable_append rfl
  induction ws generalizing w with
  | nil => exact hword (hne w List.mem_cons_self)
  | cons v vs ih =>
    change ((word w).isNullable || (words v vs).isNullable) = false
    rw [hword (hne w List.mem_cons_self), ih fun u hu => hne u (List.mem_cons_of_mem w hu)]
    rfl

/-- The language of several words. -/
def oneOf (ws : List (List Char)) : Language Char := {u | u ∈ ws}

theorem oneOf_singleton (w : List Char) : oneOf [w] = {w} := by
  ext u
  exact List.mem_singleton

theorem oneOf_cons (w : List Char) (ws : List (List Char)) : oneOf (w :: ws) = {w} + oneOf ws := by
  ext u
  exact List.mem_cons

theorem denotes_written (w : List Char) (ws : List (List Char)) :
    Denotes (written w ws) (oneOf (w :: ws)) := by
  induction ws generalizing w with
  | nil =>
    rw [oneOf_singleton]
    exact .literals w
  | cons v vs ih =>
    rw [oneOf_cons]
    exact (Denotes.literals w).alt (ih v)

/-- Where the preferred match of an expression is known, its atomic group has this one alone. -/
theorem spans_atomic {r : Regex} {nocase : Bool} {s : Array Char} (hplain : r.isPlain = true)
    (hbest : (r.factored nocase).preferredEnd? (single nocase s) (s.size + 1) i = some k)
    (hk : Spans nocase s r i k) : Spans nocase s (.atomic r) i j ↔ j = k := by
  rw [Spans, ends, preferred, if_pos hplain, hbest, List.mem_filter]
  constructor
  · rintro ⟨-, heq⟩
    simpa using (of_decide_eq_true heq).symm
  · rintro rfl
    exact ⟨hk, by simp⟩

theorem single_lt (nocase : Bool) (s : Array Char) (r : Regex) (i : Nat) (hi : i < s.size + 1) :
    ∀ j ∈ single nocase s r i, j < s.size + 1 := by
  intro j hj
  have hle := Nat.le_of_lt_succ hi
  have honward (hr : single nocase s r i = r.ends nocase s i) : j < s.size + 1 :=
    Nat.lt_succ_of_le (onward_ends nocase s r i j hle (hr ▸ hj)).2
  cases r with
  | char | any | set | start | stop => exact honward rfl
  | _ => cases hj

variable (hne : ∀ u ∈ w :: ws, u ≠ []) (hi : i ≤ s.length)
include hne hi

/-- A possessive `*` takes words as long as one comes next. -/
theorem spans_atomic_star : Spans false s.toArray (.atomic (.loop (written w ws) 0 none false)) i j ↔
    j = i + (munched (w :: ws) (s.drop i)).length := by
  refine spans_atomic (isPlain_written w ws) ?_ ?_
  · rw [factored_loop hne]
    exact Automaton.preferredEnd?_star (Automaton.builds_words s w ws) (Automaton.choice_lt hne)
      (single_lt false s.toArray) (Nat.lt_succ_of_le hi) (isNullable_words hne)
      (Automaton.repeats_munched hne s i)
  · exact ((denotes_written w ws).loop hi).2
      ⟨_, munched_mem_kstar (fun _ => id) _, munched_prefix _ _, rfl⟩

/-- A possessive `+` does so if one comes first. -/
theorem spans_atomic_plus : Spans false s.toArray (.atomic (.loop (written w ws) 1 none false)) i j ↔
    munched (w :: ws) (s.drop i) ≠ [] ∧ j = i + (munched (w :: ws) (s.drop i)).length := by
  cases hfirst : first? (w :: ws) (s.drop i) with
  | none =>
    rw [munched_of_none hfirst]
    refine iff_of_false (fun h => ?_) fun h => h.1 rfl
    obtain ⟨k, ⟨u, hu, hprefix, -⟩, -⟩ :=
      reaches_mul.1 (((denotes_written w ws).loop_one hi).1 h.of_atomic)
    exact first?_eq_none.1 hfirst u hu hprefix
  | some u =>
    obtain ⟨hmem, hprefix⟩ := first?_mem hfirst
    have hle : i + u.length ≤ s.length := by
      have hlength := hprefix.length_le
      rw [List.length_drop] at hlength
      omega
    have hmunched := munched_of_some hfirst (hne u hmem)
    have hend : i + (munched (w :: ws) (s.drop i)).length =
        i + u.length + (munched (w :: ws) (s.drop (i + u.length))).length := by
      rw [hmunched, List.length_append, List.drop_drop, Nat.add_assoc]
    rw [and_iff_right (by rw [hmunched]; exact List.append_ne_nil_of_left_ne_nil (hne u hmem) _), hend]
    refine spans_atomic (isPlain_written w ws) ?_ ?_
    · rw [factored_loop hne]
      exact Automaton.preferredEnd?_plus (Automaton.builds_words s w ws) (Automaton.choice_lt hne)
        (single_lt false s.toArray) (Nat.lt_succ_of_le hi)
        (by rw [Automaton.choice, hfirst, Option.map_some])
        (Automaton.repeats_munched hne s (i + u.length))
    · refine ((denotes_written w ws).loop_one hi).2 (reaches_mul.2 ⟨i + u.length, ?_, ?_⟩)
      · exact ⟨u, hmem, hprefix, rfl⟩
      · exact ⟨_, munched_mem_kstar (fun _ => id) _, munched_prefix _ _, rfl⟩

/-- A possessive `?` takes the first word that comes next, if any does. -/
theorem spans_atomic_question :
    Spans false s.toArray (.atomic (.loop (written w ws) 0 (some 1) false)) i j ↔
      j = i + ((first? (w :: ws) (s.drop i)).getD []).length := by
  have hend : (Automaton.choice s (w :: ws) i).getD i =
      i + ((first? (w :: ws) (s.drop i)).getD []).length := by
    rw [Automaton.choice]
    cases first? (w :: ws) (s.drop i) <;> rfl
  rw [← hend]
  refine spans_atomic (isPlain_written w ws) ?_ ?_
  · rw [factored_loop hne]
    exact Automaton.preferredEnd?_question (Automaton.builds_words s w ws)
      (single_lt false s.toArray) (Nat.lt_succ_of_le hi)
  · refine ((denotes_written w ws).loop_upTo hi).2 (reaches_add.2 ?_)
    rw [reaches_one, hend]
    cases hfirst : first? (w :: ws) (s.drop i) with
    | none => exact .inl rfl
    | some u => exact .inr ⟨u, (first?_mem hfirst).1, (first?_mem hfirst).2, rfl⟩

end Atomic

end PathGlob.Regex
