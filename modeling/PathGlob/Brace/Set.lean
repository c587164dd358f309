/-
Brace sets: a pair of braces around a list of alternatives or a range. The first set of a pattern is
the one whose opening brace comes first; a pair that is neither list nor range is passed over, and
what is inside it is looked at in its turn.
-/
import PathGlob.Brace.Range

namespace PathGlob.Brace

/-! ## Alternatives -/

inductive Alternatives where
  | list (parts : List (List Char))
  | numbers (r : NumberRange)
  | letters (r : LetterRange)
  deriving DecidableEq, Repr

def consPart (cs : List Char) : List (List Char) → List (List Char)
  | [] => [cs]
  | p :: ps => (cs ++ p) :: ps

/-- The parts of a text between its commas, those inside further braces apart. -/
def parts : (depth : Nat) → List Char → List (List Char)
  | _, [] => [[]]
  | n, '\\' :: c :: cs => consPart ['\\', c] (parts n cs)
  | n, '{' :: cs => consPart ['{'] (parts (n + 1) cs)
  | n, '}' :: cs => consPart ['}'] (parts (n - 1) cs)
  | 0, ',' :: cs => [] :: parts 0 cs
  | n, c :: cs => consPart [c] (parts n cs)

namespace Alternatives

/-- What the text between two braces offers, if it is a list or a range. -/
def ofText? (cs : List Char) : Option Alternatives :=
  match NumberRange.ofText? cs with
  | some r => some (.numbers r)
  | none =>
    match LetterRange.ofText? cs with
    | some r => some (.letters r)
    | none =>
      match parts 0 cs with
      | p :: q :: ps => some (.list (p :: q :: ps))
      | _ => none

def size : Alternatives → Nat
  | .list ps => ps.length
  | .numbers r => r.size
  | .letters r => r.size

def values : Alternatives → List (List Char)
  | .list ps => ps
  | .numbers r => r.values
  | .letters r => r.values

theorem length_values (a : Alternatives) : a.values.length = a.size := by
  cases a <;> simp [values, size, NumberRange.values, LetterRange.values]

end Alternatives

/-! ## The first set -/

/-- What is between an opening brace, just passed, and the brace that closes it, and what is behind
that one; `depth` further braces are open. -/
def enclosed? : (depth : Nat) → List Char → Option (List Char × List Char)
  | _, [] => none
  | n, '\\' :: c :: cs => (enclosed? n cs).map fun (b, r) => ('\\' :: c :: b, r)
  | n, '{' :: cs => (enclosed? (n + 1) cs).map fun (b, r) => ('{' :: b, r)
  | 0, '}' :: cs => some ([], cs)
  | n + 1, '}' :: cs => (enclosed? n cs).map fun (b, r) => ('}' :: b, r)
  | n, c :: cs => (enclosed? n cs).map fun (b, r) => (c :: b, r)

structure Located where
  head : List Char
  alternatives : Alternatives
  tail : List Char
  deriving DecidableEq, Repr

def Located.behind (cs : List Char) (l : Located) : Located := { l with head := cs ++ l.head }

/-- The pattern with one of the alternatives in place of the set. -/
def Located.replaced (l : Located) (alternative : List Char) : List Char :=
  l.head ++ alternative ++ l.tail

/-- The set that an opening brace, just passed, begins. -/
def setHere? (cs : List Char) : Option Located :=
  match enclosed? 0 cs with
  | some (body, tail) => (Alternatives.ofText? body).map fun a => ⟨[], a, tail⟩
  | none => none

def firstSet? : List Char → Option Located
  | [] => none
  | '\\' :: c :: cs => (firstSet? cs).map (.behind ['\\', c])
  | '{' :: cs =>
    match setHere? cs with
    | some l => some l
    | none => (firstSet? cs).map (.behind ['{'])
  | c :: cs => (firstSet? cs).map (.behind [c])

/-! ## Replacing a set leaves fewer braces -/

/-- The number of opening braces, escaped ones included. -/
def braces (cs : List Char) : Nat := cs.count '{'

theorem braces_append (as bs : List Char) : braces (as ++ bs) = braces as + braces bs :=
  List.count_append

theorem braces_cons_le (c : Char) (cs : List Char) : braces cs ≤ braces (c :: cs) := by
  simp [braces, List.count_cons]

theorem flatten_consPart (cs : List Char) (ps : List (List Char)) :
    (consPart cs ps).flatten = cs ++ ps.flatten := by
  cases ps <;> simp [consPart]

theorem braces_flatten_parts (n : Nat) (cs : List Char) :
    braces (parts n cs).flatten = braces cs := by
  fun_induction parts n cs <;> simp_all [flatten_consPart, braces, List.count_cons]

theorem braces_le_flatten {v : List Char} {ps : List (List Char)} (hv : v ∈ ps) :
    braces v ≤ braces ps.flatten :=
  (List.sublist_flatten_of_mem hv).count_le _

theorem braces_of_digits {cs : List Char} (h : ∀ c ∈ cs, c.isDigit = true ∨ c = '-' ∨ c = '0') :
    braces cs = 0 := by
  unfold braces
  rw [List.count_eq_zero]
  intro hm
  have := h _ hm
  revert this
  decide

theorem braces_zeroPadded (width n : Nat) : braces (zeroPadded width n) = 0 := by
  apply braces_of_digits
  intro c hc
  simp only [zeroPadded, List.leftpad, List.mem_append, List.mem_replicate] at hc
  rcases hc with ⟨-, rfl⟩ | hc
  · exact .inr (.inr rfl)
  · exact .inl (Nat.isDigit_of_mem_toDigits (by decide) (by decide) hc)

theorem braces_written (width : Nat) (n : Int) : braces (written width n) = 0 := by
  unfold written
  split
  · have := braces_zeroPadded (width - 1) n.natAbs
    simpa [braces, List.count_cons] using this
  · exact braces_zeroPadded ..

/-- A value of a letter range lies between its ends. -/
theorem LetterRange.value_le {r : LetterRange} {k : Nat} (hk : k < r.size)
    (ha : r.first.isAlpha = true) (hb : r.last.isAlpha = true) : (r.value k).toNat ≤ 122 := by
  have bound : ∀ c : Char, c.isAlpha = true → c.toNat ≤ 122 := by
    intro c hc
    have hc : (c.isUpper || c.isLower) = true := hc
    rcases Bool.or_eq_true_iff.1 hc with hupper | hlower
    · have h : c.val ≥ 'A'.val ∧ c.val ≤ 'Z'.val := of_decide_eq_true hupper
      exact Nat.le_trans (UInt32.le_iff_toNat_le.1 h.2) (by decide)
    · have h : decide (c.val ≥ 'a'.val) = true ∧ decide (c.val ≤ 'z'.val) = true :=
        Bool.and_eq_true_iff.1 hlower
      exact UInt32.le_iff_toNat_le.1 (of_decide_eq_true h.2)
  have h1 := bound _ ha
  have h2 := bound _ hb
  have hsmall : ∀ n, n < 123 → (Char.ofNat n).toNat ≤ 122 := by decide
  have hk' : k * r.stride ≤ ((r.first.toNat : Int) - r.last.toNat).natAbs := by
    unfold size at hk
    calc k * r.stride ≤ _ := Nat.mul_le_mul_right _ (Nat.le_of_lt_succ hk)
      _ ≤ _ := Nat.div_mul_le_self ..
  unfold value
  apply hsmall
  split <;> omega

theorem Alternatives.braces_le {cs v : List Char} {a : Alternatives} (h : ofText? cs = some a)
    (hv : v ∈ a.values) : braces v ≤ braces cs := by
  unfold ofText? at h
  split at h
  · cases h
    simp only [values, NumberRange.values, List.mem_map] at hv
    obtain ⟨k, -, rfl⟩ := hv
    simp [braces_written]
  · split at h
    · rename_i r hr
      cases h
      simp only [values, LetterRange.values, List.mem_map, List.mem_range] at hv
      obtain ⟨k, hk, rfl⟩ := hv
      have hle : (r.value k).toNat ≤ 122 := by
        unfold LetterRange.ofText? at hr
        split at hr
        · split at hr
          · rename_i hab
            obtain ⟨n, -, rfl⟩ := Option.map_eq_some_iff.1 hr
            simp only [Bool.and_eq_true] at hab
            exact LetterRange.value_le hk hab.1 hab.2
          · cases hr
        · cases hr
      have hne : r.value k ≠ '{' := by
        intro e
        rw [e] at hle
        exact absurd hle (by decide)
      have h0 : braces [r.value k] = 0 := by simp [braces, hne]
      have h1 : braces ['\\', r.value k] = 0 := by simp [braces, hne]
      show braces (if (r.value k).isAlphanum = true then _ else _) ≤ _
      split <;> omega
    · split at h
      · rename_i p q ps hp
        cases h
        simp only [values] at hv
        rw [← braces_flatten_parts 0 cs, hp]
        exact braces_le_flatten hv
      · cases h

theorem enclosed?_eq {n : Nat} {cs body tail : List Char} (h : enclosed? n cs = some (body, tail)) :
    cs = body ++ '}' :: tail := by
  fun_induction enclosed? n cs generalizing body with
  | case1 => cases h
  | case4 => cases h; rfl
  | _ =>
    rename_i ih
    obtain ⟨⟨b, r⟩, h1, h2⟩ := Option.map_eq_some_iff.1 h
    cases h2
    rw [ih h1]
    rfl

theorem setHere?_braces {cs v : List Char} {l : Located} (h : setHere? cs = some l)
    (hv : v ∈ l.alternatives.values) : braces (l.replaced v) ≤ braces cs := by
  unfold setHere? at h
  split at h
  · rename_i body tail he
    obtain ⟨a, ha, rfl⟩ := Option.map_eq_some_iff.1 h
    have := Alternatives.braces_le ha hv
    rw [enclosed?_eq he]
    simp only [Located.replaced, List.nil_append, braces_append]
    have := braces_cons_le '}' tail
    omega
  · cases h

/-- An alternative in place of the first set leaves fewer opening braces. -/
theorem firstSet?_braces {cs v : List Char} {l : Located} (h : firstSet? cs = some l)
    (hv : v ∈ l.alternatives.values) : braces (l.replaced v) < braces cs := by
  fun_induction firstSet? cs generalizing l with
  | case1 => cases h
  | case3 cs l' hs =>
    cases h
    have := setHere?_braces hs hv
    simp [braces] at *
    omega
  | _ =>
    rename_i ih
    obtain ⟨l', h1, rfl⟩ := Option.map_eq_some_iff.1 h
    have := ih h1 hv
    simp only [Located.replaced, Located.behind, List.append_assoc, braces_append] at *
    simp [braces, List.count_cons] at *
    omega

end PathGlob.Brace
