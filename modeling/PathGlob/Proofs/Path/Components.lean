/-
The components of a path: what stands between its separators. They can also be told from positions:
a component begins at the start of the text and behind each separator.
-/

namespace PathGlob.Path

/-- The components of a path, empty ones included. -/
def components : List Char → List (List Char)
  | [] => [[]]
  | c :: cs => if c = '/' then [] :: components cs else (components cs).modifyHead (c :: ·)

/-- A component begins at a position. -/
def StartsAt (s : List Char) (i : Nat) : Prop := i = 0 ∨ ∃ k, i = k + 1 ∧ s[k]? = some '/'

@[simp] theorem components_nil : components [] = [[]] := rfl

@[simp] theorem components_separator (cs : List Char) : components ('/' :: cs) = [] :: components cs := by
  rw [components, if_pos rfl]

/-- Behind the start of a component, components begin where they do in what follows. -/
theorem startsAt_drop {s : List Char} {i : Nat} (h : StartsAt s i) (n : Nat) :
    StartsAt (s.drop i) n ↔ StartsAt s (i + n) := by
  cases n with
  | zero => exact iff_of_true (.inl rfl) h
  | succ n =>
    unfold StartsAt
    simp only [List.getElem?_drop]
    constructor
    · rintro (hn | ⟨k, hk, hsep⟩)
      · cases hn
      · cases hk
        exact .inr ⟨i + n, rfl, hsep⟩
    · rintro (hn | ⟨k, hk, hsep⟩)
      · omega
      · obtain rfl : k = i + n := by omega
        exact .inr ⟨n, rfl, hsep⟩

/-- There is always a first component. -/
theorem components_cons (cs : List Char) : ∃ p ps, components cs = p :: ps := by
  induction cs with
  | nil => exact ⟨_, _, rfl⟩
  | cons c cs ih =>
    obtain ⟨p, ps, h⟩ := ih
    unfold components
    rw [h]
    split
    · exact ⟨_, _, rfl⟩
    · exact ⟨_, _, rfl⟩

theorem components_char {c : Char} (hc : c ≠ '/') {cs p : List Char} {ps : List (List Char)}
    (h : components cs = p :: ps) : components (c :: cs) = (c :: p) :: ps := by
  rw [components, if_neg hc, h]
  rfl

/-- Only the empty text has nothing but an empty component. -/
theorem components_eq_nil {cs : List Char} : components cs = [[]] ↔ cs = [] := by
  cases cs with
  | nil => simp
  | cons c cs =>
    obtain ⟨p, ps, hp⟩ := components_cons cs
    unfold components
    rw [hp]
    split <;> simp

theorem head?_component {cs p : List Char} {ps : List (List Char)} (h : components cs = p :: ps)
    {c : Char} (hc : cs.head? = some c) (hsep : c ≠ '/') : p.head? = some c := by
  cases cs with
  | nil => cases hc
  | cons x cs =>
    cases hc
    obtain ⟨q, qs, hq⟩ := components_cons cs
    rw [components_char hsep hq] at h
    cases h
    rfl

/-- The first component ends before the first separator. -/
theorem components_head {cs p : List Char} {ps : List (List Char)} (h : components cs = p :: ps) :
    (ps = [] ∧ cs = p ∨ ∃ rest, cs = p ++ '/' :: rest ∧ components rest = ps) ∧ '/' ∉ p := by
  induction cs generalizing p ps with
  | nil => cases h; exact ⟨.inl ⟨rfl, rfl⟩, by simp⟩
  | cons c cs ih =>
    by_cases hc : c = '/'
    · subst hc
      rw [components_separator] at h
      cases h
      exact ⟨.inr ⟨cs, rfl, rfl⟩, by simp⟩
    · obtain ⟨q, qs, hq⟩ := components_cons cs
      rw [components_char hc hq] at h
      cases h
      obtain ⟨h, hmem⟩ := ih hq
      refine ⟨?_, by simpa [Ne.symm hc] using hmem⟩
      rcases h with ⟨rfl, rfl⟩ | ⟨rest, rfl, hrest⟩
      · exact .inl ⟨rfl, rfl⟩
      · exact .inr ⟨rest, rfl, hrest⟩

/-- Dropping characters of the first component leaves the other components. -/
theorem components_drop {cs p : List Char} {ps : List (List Char)} (h : components cs = p :: ps)
    {n : Nat} (hn : n ≤ p.length) : components (cs.drop n) = p.drop n :: ps := by
  induction n generalizing cs p with
  | zero => exact h
  | succ n ih =>
    cases cs with
    | nil => cases h; cases hn
    | cons c cs =>
      by_cases hc : c = '/'
      · subst hc
        rw [components_separator] at h
        cases h
        cases hn
      · obtain ⟨q, qs, hq⟩ := components_cons cs
        rw [components_char hc hq] at h
        cases h
        exact ih hq (Nat.le_of_succ_le_succ hn)

/-- The components behind the first one are those of what follows a separator. -/
theorem suffix_tail_components (cs : List Char) {qs : List (List Char)} (hq : qs ≠ []) :
    qs <:+ (components cs).tail ↔
      ∃ n, cs[n]? = some '/' ∧ components (cs.drop (n + 1)) = qs := by
  induction cs with
  | nil => simp [hq]
  | cons c cs ih =>
    obtain ⟨p, ps, hp⟩ := components_cons cs
    by_cases hc : c = '/'
    · subst hc
      rw [components_separator, List.tail_cons]
      rw [hp, List.tail_cons] at ih
      rw [hp, List.suffix_cons_iff, ih]
      constructor
      · rintro (rfl | ⟨n, hn, h⟩)
        · exact ⟨0, rfl, hp⟩
        · exact ⟨n + 1, hn, h⟩
      · rintro ⟨_ | n, hn, h⟩
        · exact .inl (h.symm.trans hp)
        · exact .inr ⟨n, hn, h⟩
    · rw [components_char hc hp, List.tail_cons]
      rw [hp, List.tail_cons] at ih
      rw [ih]
      constructor
      · rintro ⟨n, hn, h⟩; exact ⟨n + 1, hn, h⟩
      · rintro ⟨_ | n, hn, h⟩
        · simp [hc] at hn
        · exact ⟨n, hn, h⟩

/-- Every component begins at some position. -/
theorem exists_start {s p : List Char} (h : p ∈ components s) :
    ∃ i ps, StartsAt s i ∧ i ≤ s.length ∧ components (s.drop i) = p :: ps := by
  obtain ⟨q, qs, hq⟩ := components_cons s
  rw [hq, List.mem_cons] at h
  rcases h with rfl | h
  · exact ⟨0, qs, .inl rfl, Nat.zero_le _, hq⟩
  · obtain ⟨before, ps, rfl⟩ := List.append_of_mem h
    obtain ⟨n, hn, hp⟩ := (suffix_tail_components s (List.cons_ne_nil p ps)).1
      (by rw [hq]; exact ⟨before, rfl⟩)
    exact ⟨n + 1, ps, .inr ⟨n, rfl, hn⟩, (List.getElem?_eq_some_iff.1 hn).1, hp⟩

end PathGlob.Path
