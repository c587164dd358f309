/-
Expansion makes patterns shorter. Whatever a set offers is no longer than the text between its braces:
the parts of a list are cut out of it, and a value of a range needs no longer a numeral than one of the
ends between which it lies. So each pattern that an expansion looks at is shorter than the one it was
made from, and all that a pattern stands for is within any length that the pattern is within. Of new
characters a range brings in letters, digits, hyphens and the signs between the letters only.
-/
import Mathlib.Data.List.Induction
import Mathlib.Data.Nat.Digits.Defs
import PathGlob.Proofs.Brace.Limit
import PathGlob.Proofs.Brace.Range

namespace PathGlob.Brace

/-! ## Lengths of numerals -/

/-- Digits denote less than the least number that has one digit more. -/
theorem digitsValue_lt {ds : List Char} (h : ∀ d ∈ ds, d.isDigit = true) :
    digitsValue ds < 10 ^ ds.length := by
  induction ds using List.reverseRecOn with
  | nil => exact Nat.one_pos
  | append_singleton ds d ih =>
    have hd : d.toNat - '0'.toNat ≤ 9 :=
      Nat.sub_le_sub_right (bounds_of_isDigit (h d (by simp))).2 _
    have hds := ih fun c hc => h c (List.mem_append_left _ hc)
    unfold digitsValue at hds ⊢
    rw [List.foldl_append, List.length_append, List.length_singleton, Nat.pow_succ]
    simp only [List.foldl_cons, List.foldl_nil]
    omega

/-- An integer has a numeral of at most the given length, where a sign takes one character. -/
def FitsIn (length : Nat) (n : Int) : Prop := -(10 ^ (length - 1) : Nat) < n ∧ n < (10 ^ length : Nat)

theorem FitsIn.mono {k l : Nat} {n : Int} (h : FitsIn k n) (hkl : k ≤ l) : FitsIn l n := by
  have hsigned : 10 ^ (k - 1) ≤ 10 ^ (l - 1) :=
    Nat.pow_le_pow_right (by decide) (Nat.sub_le_sub_right hkl 1)
  have hunsigned : 10 ^ k ≤ 10 ^ l := Nat.pow_le_pow_right (by decide) hkl
  obtain ⟨hlow, hhigh⟩ := h
  constructor <;> omega

/-- What lies between two integers fits where both do. -/
theorem FitsIn.between {k : Nat} {a b n : Int} (ha : FitsIn k a) (hb : FitsIn k b)
    (h : a ≤ n ∧ n ≤ b ∨ b ≤ n ∧ n ≤ a) : FitsIn k n := by
  obtain ⟨halow, hahigh⟩ := ha
  obtain ⟨hblow, hbhigh⟩ := hb
  rcases h with h | h <;> constructor <;> omega

theorem Numeral.fitsIn (n : Numeral) : FitsIn n.text.length n.value := by
  have hlt := digitsValue_lt (List.all_eq_true.1 n.isDigit)
  have hpos : 0 < 10 ^ (n.digits.length - 1) := Nat.pow_pos (by decide)
  unfold Numeral.text Numeral.value signed
  cases n.isNegative with
  | false =>
    simp only [Bool.false_eq_true, if_false, List.nil_append]
    constructor <;> omega
  | true =>
    change FitsIn (n.digits.length + 1) (-(digitsValue n.digits : Int))
    unfold FitsIn
    rw [Nat.add_sub_cancel, Nat.pow_succ]
    constructor <;> omega

theorem Numeral.length_text_pos (n : Numeral) : 0 < n.text.length := by
  obtain ⟨d, ds, hd, -⟩ := n.digits_cons
  rw [text, hd, List.length_append, List.length_cons]
  omega

theorem length_zeroPadded_le {width k n : Nat} (hwidth : width ≤ k) (hk : 0 < k) (hn : n < 10 ^ k) :
    (zeroPadded width n).length ≤ k := by
  unfold zeroPadded
  rw [List.length_leftpad]
  exact Nat.max_le.2 ⟨hwidth, Nat.toDigits_length 10 n k hk hn⟩

theorem length_written_le {width k : Nat} {n : Int} (hwidth : width ≤ k) (hk : 0 < k)
    (hn : FitsIn k n) : (written width n).length ≤ k := by
  obtain ⟨hlow, hhigh⟩ := hn
  unfold written
  split
  · -- a negative integer fits only where there is room for a digit besides the sign
    have hsigned : 1 < k := by
      rcases Nat.lt_or_eq_of_le (Nat.succ_le_of_lt hk) with hlt | rfl
      · exact hlt
      · simp only [Nat.succ_eq_add_one, Nat.sub_self, Nat.pow_zero] at hlow
        omega
    have hle : (zeroPadded (width - 1) n.natAbs).length ≤ k - 1 :=
      length_zeroPadded_le (by omega) (by omega) (by omega)
    rw [List.length_cons]
    omega
  · exact length_zeroPadded_le hwidth hk (by omega)

/-- What is read as a numeral, and has a value, is one. -/
theorem exists_numeral {cs a rest : List Char} {n : Int} (h : numeral? cs = some (a, rest))
    (hn : value? a = some n) : ∃ m : Numeral, m.text = a ∧ m.value = n ∧ cs = a ++ rest := by
  have hread := (numeral?_eq h).1
  have hdigits (ds : List Char) : (ds.takeWhile Char.isDigit).all Char.isDigit = true :=
    List.all_eq_true.2 fun c hc => List.mem_takeWhile_imp hc
  by_cases hminus : cs.head? = some '-'
  · obtain ⟨ds, rfl⟩ := List.head?_eq_some_iff.1 hminus
    unfold numeral? at h
    simp only at h
    split at h
    · cases h
    · rename_i hne
      cases h
      unfold value? at hn
      simp only [List.cons_append, List.nil_append] at hn
      split at hn
      · rename_i hfits
        cases hn
        exact ⟨⟨true, ds.takeWhile Char.isDigit, by simpa using hne, hdigits ds, hfits⟩, rfl, rfl, hread⟩
      · cases hn
  · rw [numeral?_unsigned hminus] at h
    split at h
    · cases h
    · rename_i hne
      cases h
      have hsign : ∀ ds, cs.takeWhile Char.isDigit ≠ '-' :: ds := by
        intro ds heq
        have hdash := List.all_eq_true.1 (hdigits cs) '-' (by rw [heq]; exact List.mem_cons_self)
        exact absurd hdash (by decide)
      unfold value? at hn
      split at hn
      · rename_i ds heq
        exact absurd heq (hsign ds)
      · simp only at hn
        split at hn
        · rename_i hfits
          cases hn
          exact ⟨⟨false, cs.takeWhile Char.isDigit, by simpa using hne, hdigits cs, hfits⟩, rfl, rfl, hread⟩
        · cases hn

/-! ## What a set offers -/

namespace NumberRange

/-- The values of a range lie between its ends. -/
theorem value_between {r : NumberRange} {k : Nat} (hk : k < r.size) :
    r.first ≤ r.value k ∧ r.value k ≤ r.last ∨ r.last ≤ r.value k ∧ r.value k ≤ r.first := by
  have hdistance : k * r.stride ≤ (r.first - r.last).natAbs := by
    unfold size at hk
    exact Nat.mul_le_of_le_div _ _ _ (Nat.le_of_lt_succ hk)
  unfold value
  split <;> omega

theorem length_value_le {cs v : List Char} {r : NumberRange} (h : ofText? cs = some r)
    (hv : v ∈ r.values) : v.length ≤ cs.length := by
  unfold ofText? at h
  split at h
  · rename_i a rest hfirst
    split at h
    · rename_i b rest' hlast
      split at h
      · rename_i first last stride ha hb hstride
        cases h
        obtain ⟨k, hk, rfl⟩ := List.mem_map.1 hv
        obtain ⟨m, rfl, rfl, hcs⟩ := exists_numeral hfirst ha
        obtain ⟨n, rfl, rfl, hrest⟩ := exists_numeral hlast hb
        have hmax : max m.text.length n.text.length ≤ cs.length := by
          rw [hcs, hrest]
          simp only [List.length_append, List.length_cons]
          omega
        refine Nat.le_trans (length_written_le ?_ ?_ ?_) hmax
        · simp only
          split
          · exact Nat.le_refl _
          · exact Nat.zero_le _
        · have hpos := m.length_text_pos
          omega
        · exact (m.fitsIn.mono (Nat.le_max_left ..)).between (n.fitsIn.mono (Nat.le_max_right ..))
            (value_between (List.mem_range.1 hk))
      · cases h
    · cases h
  · cases h

end NumberRange

theorem LetterRange.length_value_le {cs v : List Char} {r : LetterRange} (h : ofText? cs = some r)
    (hv : v ∈ r.values) : v.length ≤ cs.length := by
  have hfour : 4 ≤ cs.length := by
    unfold ofText? at h
    split at h
    · simp only [List.length_cons]
      omega
    · cases h
  obtain ⟨k, -, rfl⟩ := List.mem_map.1 hv
  refine Nat.le_trans (m := 2) ?_ (by omega)
  simp only
  split <;> simp

/-- The parts of a text are cut out of it. -/
theorem sublist_flatten_parts (depth : Nat) (cs : List Char) : (parts depth cs).flatten.Sublist cs := by
  fun_induction parts depth cs with
  | case5 cs ih => exact ih.cons ','
  | _ => simp_all [flatten_consPart]

/-- Nothing that a set offers is longer than the text between its braces. -/
theorem Alternatives.length_value_le {cs v : List Char} {a : Alternatives} (h : ofText? cs = some a)
    (hv : v ∈ a.values) : v.length ≤ cs.length := by
  unfold ofText? at h
  split at h
  · rename_i r hr
    cases h
    exact NumberRange.length_value_le hr hv
  · split at h
    · rename_i r hr
      cases h
      exact LetterRange.length_value_le hr hv
    · split at h
      · rename_i p q ps hparts
        cases h
        have hcut := sublist_flatten_parts 0 cs
        rw [hparts] at hcut
        exact ((List.sublist_flatten_of_mem hv).trans hcut).length_le
      · cases h

/-! ## Expansions -/

theorem setHere?_shorter {cs v : List Char} {l : Located} (h : setHere? cs = some l)
    (hv : v ∈ l.alternatives.values) : (l.replaced v).length < cs.length := by
  unfold setHere? at h
  split at h
  · rename_i body tail henclosed
    obtain ⟨a, ha, rfl⟩ := Option.map_eq_some_iff.1 h
    have hle := Alternatives.length_value_le ha hv
    rw [enclosed?_eq henclosed]
    simp only [Located.replaced, List.nil_append, List.length_append, List.length_cons]
    omega
  · cases h

/-- An alternative in place of the first set leaves a shorter pattern. -/
theorem firstSet?_shorter {cs v : List Char} {l : Located} (h : firstSet? cs = some l)
    (hv : v ∈ l.alternatives.values) : (l.replaced v).length < cs.length := by
  fun_induction firstSet? cs generalizing l with
  | case1 => cases h
  | case3 cs l' hs =>
    cases h
    exact Nat.lt_succ_of_lt (setHere?_shorter hs hv)
  | _ =>
    rename_i ih
    obtain ⟨l', hl', rfl⟩ := Option.map_eq_some_iff.1 h
    have hlt := ih hl' hv
    simp only [Located.replaced, Located.behind, List.length_append, List.length_cons,
      List.length_nil] at hlt ⊢
    omega

/-- What a pattern stands for is no longer than the pattern. -/
theorem length_le_of_mem_expansions {pattern q : List Char} (hq : q ∈ expansions pattern) :
    q.length ≤ pattern.length := by
  induction pattern using expansions_induction with
  | plain pattern h =>
    rw [expansions_of_none h, List.mem_singleton] at hq
    exact Nat.le_of_eq (by rw [hq])
  | set pattern l h ih =>
    rw [expansions_of_some h] at hq
    obtain ⟨p, hp, hq⟩ := List.mem_flatMap.1 hq
    have hle := ih p hp hq
    obtain ⟨v, hv, rfl⟩ := List.mem_map.1 hp
    exact Nat.le_trans hle (Nat.le_of_lt (firstSet?_shorter h hv))

theorem length_le_of_mem_expand? {limit : Nat} {pattern e : String} {es : List String}
    (h : expand? limit pattern = some es) (he : e ∈ es) : e.length ≤ pattern.length := by
  rw [eq_patterns_of_expand? h] at he
  obtain ⟨q, hq, rfl⟩ := List.mem_map.1 he
  rw [String.length_ofList]
  exact length_le_of_mem_expansions hq

/-! ## Characters of expansions -/

theorem LetterRange.le_value {r : LetterRange} {k : Nat} (hk : k < r.size)
    (ha : r.first.isAlpha = true) (hb : r.last.isAlpha = true) : 'A'.toNat ≤ (r.value k).toNat := by
  have hfirst := bounds_of_isAlpha ha
  have hlast := bounds_of_isAlpha hb
  have hdistance : k * r.stride ≤ ((r.first.toNat : Int) - r.last.toNat).natAbs := by
    unfold size at hk
    exact Nat.mul_le_of_le_div _ _ _ (Nat.le_of_lt_succ hk)
  have hchar : ∀ n ≤ 'z'.toNat, 'A'.toNat ≤ n → 'A'.toNat ≤ (Char.ofNat n).toNat := by decide
  unfold value
  refine hchar _ ?_ ?_ <;> split <;> omega

/-- No character that a range offers is lower than a hyphen. -/
theorem LetterRange.le_of_mem_value {cs v : List Char} {r : LetterRange} (h : ofText? cs = some r)
    (hv : v ∈ r.values) {c : Char} (hc : c ∈ v) : '-'.toNat ≤ c.toNat := by
  obtain ⟨k, hk, rfl⟩ := List.mem_map.1 hv
  have hvalue : 'A'.toNat ≤ (r.value k).toNat := by
    unfold ofText? at h
    split at h
    · split at h
      · rename_i hab
        obtain ⟨stride, -, rfl⟩ := Option.map_eq_some_iff.1 h
        rw [Bool.and_eq_true] at hab
        exact le_value (List.mem_range.1 hk) hab.1 hab.2
      · cases h
    · cases h
  have hletter : '-'.toNat ≤ (r.value k).toNat := Nat.le_trans (by decide) hvalue
  simp only at hc
  split at hc
  · rwa [List.mem_singleton.1 hc]
  · simp only [List.mem_cons, List.not_mem_nil, or_false] at hc
    rcases hc with rfl | rfl
    · decide
    · exact hletter

theorem le_of_mem_written {width : Nat} {n : Int} {c : Char} (hc : c ∈ written width n) :
    '-'.toNat ≤ c.toNat := by
  have hdigit {width n : Nat} (hc : c ∈ zeroPadded width n) : '-'.toNat ≤ c.toNat :=
    Nat.le_trans (by decide) (bounds_of_isDigit (isDigit_of_mem_zeroPadded hc)).1
  unfold written at hc
  split at hc
  · rcases List.mem_cons.1 hc with rfl | hc
    · exact Nat.le_refl _
    · exact hdigit hc
  · exact hdigit hc

/-- Besides the characters of its text a set offers none lower than a hyphen. -/
theorem Alternatives.mem_value {cs v : List Char} {a : Alternatives} (h : ofText? cs = some a)
    (hv : v ∈ a.values) {c : Char} (hc : c ∈ v) : c ∈ cs ∨ '-'.toNat ≤ c.toNat := by
  unfold ofText? at h
  split at h
  · cases h
    obtain ⟨k, -, rfl⟩ := List.mem_map.1 hv
    exact .inr (le_of_mem_written hc)
  · split at h
    · rename_i r hr
      cases h
      exact .inr (LetterRange.le_of_mem_value hr hv hc)
    · split at h
      · rename_i p q ps hparts
        cases h
        have hcut := sublist_flatten_parts 0 cs
        rw [hparts] at hcut
        exact .inl (((List.sublist_flatten_of_mem hv).trans hcut).subset hc)
      · cases h

theorem setHere?_mem {cs v : List Char} {l : Located} (h : setHere? cs = some l)
    (hv : v ∈ l.alternatives.values) {c : Char} (hc : c ∈ l.replaced v) :
    c ∈ cs ∨ '-'.toNat ≤ c.toNat := by
  unfold setHere? at h
  split at h
  · rename_i body tail henclosed
    obtain ⟨a, ha, rfl⟩ := Option.map_eq_some_iff.1 h
    rw [enclosed?_eq henclosed]
    rcases List.mem_append.1 hc with hc | hc
    · exact (Alternatives.mem_value ha hv hc).imp_left (List.mem_append_left _)
    · exact .inl (List.mem_append_right _ (List.mem_cons_of_mem _ hc))
  · cases h

/-- An alternative in place of the first set. -/
theorem firstSet?_mem {cs v : List Char} {l : Located} (h : firstSet? cs = some l)
    (hv : v ∈ l.alternatives.values) {c : Char} (hc : c ∈ l.replaced v) :
    c ∈ cs ∨ '-'.toNat ≤ c.toNat := by
  fun_induction firstSet? cs generalizing l with
  | case1 => cases h
  | case3 cs l' hs =>
    cases h
    exact (setHere?_mem hs hv hc).imp_left (List.mem_cons_of_mem _)
  | _ =>
    rename_i ih
    obtain ⟨l', hl', rfl⟩ := Option.map_eq_some_iff.1 h
    simp only [Located.replaced, Located.behind, List.append_assoc] at ih hc
    rcases List.mem_append.1 hc with hc | hc
    · exact .inl (List.mem_append_left _ hc)
    · exact (ih hl' hv hc).imp_left fun hm => by simp [hm]

/-- A pattern stands for texts of its own characters and others that are no lower than a hyphen. -/
theorem mem_of_mem_expansions {pattern q : List Char} (hq : q ∈ expansions pattern) {c : Char}
    (hc : c ∈ q) : c ∈ pattern ∨ '-'.toNat ≤ c.toNat := by
  induction pattern using expansions_induction with
  | plain pattern h =>
    rw [expansions_of_none h, List.mem_singleton] at hq
    exact .inl (hq ▸ hc)
  | set pattern l h ih =>
    rw [expansions_of_some h] at hq
    obtain ⟨p, hp, hq⟩ := List.mem_flatMap.1 hq
    obtain ⟨v, hv, rfl⟩ := List.mem_map.1 hp
    rcases ih _ hp hq with hc | hc
    · exact firstSet?_mem h hv hc
    · exact .inr hc

end PathGlob.Brace
