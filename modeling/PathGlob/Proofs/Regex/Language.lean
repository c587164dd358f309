/-
The texts that an expression matches. An expression that looks at no more than the characters it takes
matches the same texts wherever it stands, so it has a language; and the operators of expressions are
those of languages.
-/
import Mathlib.Computability.Language
import PathGlob.Proofs.Glob.Anchors
import PathGlob.Proofs.Matcher.Single

open scoped Computability

namespace PathGlob.Regex

open Relation (ReflTransGen)

/-! ## Words at a position -/

/-- A word of a language leads from one position of a text to another. -/
def Reaches (L : Language Char) (s : List Char) (i j : Nat) : Prop :=
  ∃ w ∈ L, w <+: s.drop i ∧ j = i + w.length

section Reaches

variable {L M : Language Char} {s w : List Char} {i j : Nat}

theorem Reaches.onward (h : Reaches L s i j) (hi : i ≤ s.length) : i ≤ j ∧ j ≤ s.length := by
  obtain ⟨w, -, hw, rfl⟩ := h
  have hle := hw.length_le
  rw [List.length_drop] at hle
  omega

@[simp] theorem reaches_one : Reaches 1 s i j ↔ j = i := by
  simp [Reaches, Language.mem_one]

@[simp] theorem reaches_add : Reaches (L + M) s i j ↔ Reaches L s i j ∨ Reaches M s i j := by
  simp only [Reaches, Language.mem_add, or_and_right, exists_or]

theorem reaches_mul :
    Reaches (L * M) s i j ↔ ∃ k, Reaches L s i k ∧ Reaches M s k j := by
  constructor
  · rintro ⟨w, hw, hprefix, rfl⟩
    obtain ⟨u, hu, v, hv, rfl⟩ := Language.mem_mul.1 hw
    obtain ⟨rest, hrest⟩ := hprefix
    rw [List.append_assoc] at hrest
    refine ⟨i + u.length, ⟨u, hu, ⟨_, hrest⟩, rfl⟩, v, hv, ⟨rest, ?_⟩, by simp; omega⟩
    rw [← List.drop_drop, ← hrest, List.drop_left]
  · rintro ⟨_, ⟨u, hu, ⟨rest, hrest⟩, rfl⟩, v, hv, hprefix, rfl⟩
    rw [← List.drop_drop, ← hrest, List.drop_left] at hprefix
    refine ⟨u ++ v, Language.mem_mul.2 ⟨u, hu, v, hv, rfl⟩, ?_, by simp; omega⟩
    rw [← hrest]
    exact List.prefix_append_right_inj u |>.2 hprefix

/-- Repeated words lead along a chain. -/
theorem reaches_kstar : Reaches L∗ s i j ↔ ReflTransGen (Reaches L s) i j := by
  constructor
  · rintro ⟨w, hw, hprefix, rfl⟩
    obtain ⟨ws, rfl, hws⟩ := Language.mem_kstar.1 hw
    clear hw
    induction ws generalizing i with
    | nil => exact .refl
    | cons u us ih =>
      obtain ⟨rest, hrest⟩ := hprefix
      rw [List.flatten_cons, List.append_assoc] at hrest
      have hu : Reaches L s i (i + u.length) := ⟨u, hws u (by simp), ⟨_, hrest⟩, rfl⟩
      have htail : us.flatten <+: s.drop (i + u.length) :=
        ⟨rest, by rw [← List.drop_drop, ← hrest, List.drop_left]⟩
      have hchain := ih (fun v hv => hws v (by simp [hv])) htail
      rw [List.flatten_cons, List.length_append, ← Nat.add_assoc]
      exact .head hu hchain
  · intro h
    induction h using ReflTransGen.head_induction_on with
    | refl => exact ⟨[], Language.nil_mem_kstar L, by simp, rfl⟩
    | head hu _ ih =>
      have hmul : Reaches (L * L∗) s _ j := reaches_mul.2 ⟨_, hu, ih⟩
      obtain ⟨w, hw, hrest⟩ := hmul
      exact ⟨w, (mul_kstar_le_kstar : L * L∗ ≤ L∗) hw, hrest⟩

/-- A word that leads to the end of a text is what is left of it. -/
theorem reaches_end (hi : i ≤ s.length) : Reaches L s i s.length ↔ s.drop i ∈ L := by
  constructor
  · rintro ⟨w, hw, hprefix, hlen⟩
    rwa [← hprefix.eq_of_length (by rw [List.length_drop]; omega)]
  · intro h
    exact ⟨_, h, List.prefix_rfl, by rw [List.length_drop]; omega⟩

/-- In a text put together from pieces, the words that lead over one are those equal to it. -/
theorem reaches_within {u v : List Char} :
    Reaches L (u ++ w ++ v) u.length (u.length + w.length) ↔ w ∈ L := by
  unfold Reaches
  rw [List.append_assoc, List.drop_left]
  constructor
  · rintro ⟨x, hx, ⟨rest, hrest⟩, hlen⟩
    obtain rfl : x = w := List.append_inj_left hrest (by omega)
    exact hx
  · intro hw
    exact ⟨w, hw, List.prefix_append .., rfl⟩

end Reaches

/-! ## Languages of expressions -/

/-- An expression matches the words of a language wherever it stands, letter case counted. -/
def Denotes (r : Regex) (L : Language Char) : Prop :=
  ∀ ⦃s : List Char⦄ ⦃i j : Nat⦄, i ≤ s.length → (Spans false s.toArray r i j ↔ Reaches L s i j)

namespace Denotes

variable {a b r : Regex} {L M : Language Char} {s : List Char} {i j : Nat}

theorem char (c : Char) : Denotes (.char c) {[c]} := fun s i j hi => by
  rw [spans_char]
  simp only [List.getElem?_toArray, sameChar, Bool.false_eq_true, if_false, beq_iff_eq]
  constructor
  · rintro ⟨_, hc, rfl, rfl⟩
    refine ⟨[c], rfl, ?_, rfl⟩
    obtain ⟨hlt, rfl⟩ := List.getElem?_eq_some_iff.1 hc
    rw [List.drop_eq_getElem_cons hlt]
    exact ⟨_, rfl⟩
  · rintro ⟨_, rfl, ⟨rest, hrest⟩, rfl⟩
    refine ⟨c, ?_, rfl, rfl⟩
    rw [← List.head?_drop, ← hrest]
    rfl

theorem set (cs : CharSet) : Denotes (.set cs) {w | ∃ c, cs.contains false c = true ∧ w = [c]} :=
  fun s i j hi => by
  rw [spans_set]
  simp only [List.getElem?_toArray]
  constructor
  · rintro ⟨c, hc, hcs, rfl⟩
    refine ⟨[c], ⟨c, hcs, rfl⟩, ?_, rfl⟩
    obtain ⟨hlt, rfl⟩ := List.getElem?_eq_some_iff.1 hc
    rw [List.drop_eq_getElem_cons hlt]
    exact ⟨_, rfl⟩
  · rintro ⟨_, ⟨c, hcs, rfl⟩, ⟨rest, hrest⟩, rfl⟩
    refine ⟨c, ?_, hcs, rfl⟩
    rw [← List.head?_drop, ← hrest]
    rfl

theorem alt (ha : Denotes a L) (hb : Denotes b M) : Denotes (.alt a b) (L + M) := fun s i j hi => by
  rw [spans_alt, reaches_add, ha hi, hb hi]

theorem capture (h : Denotes r L) : Denotes (.capture r) L := h

/-- A chain of matches is a chain of words. -/
theorem chain_iff (h : Denotes r L) (hi : i ≤ s.length) :
    ReflTransGen (Spans false s.toArray r) i j ↔ Reaches L∗ s i j := by
  rw [reaches_kstar]
  constructor
  · intro hchain
    induction hchain using ReflTransGen.head_induction_on with
    | refl => exact .refl
    | head hstep _ ih =>
      have hword := (h hi).1 hstep
      exact .head hword (ih (hword.onward hi).2)
  · intro hchain
    induction hchain using ReflTransGen.head_induction_on with
    | refl => exact .refl
    | head hword _ ih => exact .head ((h hi).2 hword) (ih (hword.onward hi).2)

theorem loop (h : Denotes r L) : Denotes (.loop r 0 none false) L∗ := fun s i j hi => by
  rw [spans_loop (by simpa using hi), ← h.chain_iff hi]
  simp [Runs]

theorem loop_one (h : Denotes r L) : Denotes (.loop r 1 none false) (L * L∗) := fun s i j hi => by
  rw [spans_loop (by simpa using hi), reaches_mul]
  simp only [Runs, exists_eq_right]
  refine exists_congr fun k => ?_
  rw [show k ∈ r.ends false s.toArray i ↔ Reaches L s i k from h hi]
  exact and_congr_right fun hk => h.chain_iff (hk.onward hi).2

theorem loop_upTo (h : Denotes r L) : Denotes (.loop r 0 (some 1) false) (1 + L) :=
  fun s i j hi => by
  rw [spans_loop_upTo, reaches_add, reaches_one, ← h hi]
  constructor
  · rintro ⟨_, rfl, l, hl, hruns⟩
    rcases l with _ | _ | l
    · exact .inl hruns.symm
    · obtain ⟨_, hk, rfl⟩ := hruns
      exact .inr hk
    · omega
  · rintro (rfl | hk)
    · exact ⟨j, rfl, 0, by omega, rfl⟩
    · exact ⟨i, rfl, 1, by omega, j, hk, rfl⟩

end Denotes

/-! ## Literal text -/

section Literals

variable {s : List Char} {i j : Nat}

theorem mem_word {u w : List Char} : w ∈ ({u} : Language Char) ↔ w = u := Iff.rfl

theorem spansAll_chars_iff {cs : List Char} (hi : i ≤ s.length) :
    SpansAll false s.toArray (cs.map Regex.char) i j ↔ Reaches {cs} s i j := by
  induction cs generalizing i with
  | nil => exact (reaches_one (s := s)).trans eq_comm |>.symm
  | cons c cs ih =>
    have hmul : ({c :: cs} : Language Char) = {[c]} * {cs} := by
      ext w
      rw [Language.mem_mul, mem_word]
      simp [mem_word, eq_comm]
    rw [List.map_cons, spansAll_cons, hmul, reaches_mul]
    refine exists_congr fun k => ?_
    rw [Denotes.char c hi]
    exact and_congr_right fun hk => ih (hk.onward hi).2

theorem Denotes.literals (cs : List Char) : Denotes (literals cs) {cs} := fun s i j hi => by
  rw [spans_literals, spansAll_chars_iff hi]

/-- Between two literal texts, a match has to span what is left between them. -/
theorem spansAll_framed {u v : List Char} {r : Regex} :
    SpansAll false s.toArray (u.map Regex.char ++ r :: v.map Regex.char) 0 s.length ↔
      ∃ w, s = u ++ w ++ v ∧ Spans false s.toArray r u.length (u.length + w.length) := by
  rw [spansAll_append]
  simp only [spansAll_cons, spansAll_chars_iff (Nat.zero_le s.length)]
  constructor
  · rintro ⟨_, ⟨x, hx, ⟨rest, rfl⟩, rfl⟩, l, hr, hv⟩
    obtain rfl := (mem_word.1 hx).symm
    rw [Nat.zero_add] at hr
    obtain ⟨hle, hlen⟩ := hr.onward (by simp)
    rw [List.size_toArray] at hlen
    rw [spansAll_chars hlen, List.drop_append, List.drop_eq_nil_of_le hle, List.nil_append] at hv
    have htake : (rest.take (l - u.length)).length = l - u.length := by
      rw [List.length_append] at hlen
      rw [List.length_take]
      omega
    refine ⟨rest.take (l - u.length), ?_, ?_⟩
    · rw [← hv, List.append_assoc, List.take_append_drop]
    · rwa [htake, Nat.add_sub_cancel' hle]
  · rintro ⟨w, rfl, hr⟩
    refine ⟨u.length, ⟨u, rfl, by simp, by simp⟩, u.length + w.length, hr, ?_⟩
    rw [spansAll_chars (by simp)]
    simp

/-- Between two literal texts, an expression takes a word of its language. -/
theorem Denotes.framed {u v : List Char} {r : Regex} {L : Language Char} (h : Denotes r L) :
    SpansAll false s.toArray (u.map Regex.char ++ r :: v.map Regex.char) 0 s.length ↔
      ∃ w ∈ L, s = u ++ w ++ v := by
  rw [spansAll_framed]
  constructor
  · rintro ⟨w, rfl, hr⟩
    exact ⟨w, reaches_within.1 ((h (by simp)).1 hr), rfl⟩
  · rintro ⟨w, hw, rfl⟩
    exact ⟨w, rfl, (h (by simp)).2 (reaches_within.2 hw)⟩

end Literals

end PathGlob.Regex
