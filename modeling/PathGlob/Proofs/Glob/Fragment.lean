/-
What the fragments match. A guard looks at the component that begins where it stands; a globstar
looks, before each character it takes, at the component that begins behind it.
-/
import PathGlob.Proofs.Glob.Meaning
import PathGlob.Proofs.Path.Components

namespace PathGlob

open Regex

/-! ## Signs without letter case -/

namespace CaseFold

theorem lookup_image {rs : List Run} {m n : Nat} (h : lookup rs m = some n) :
    ∃ r ∈ rs, r.image? m = some n := by
  induction rs with
  | nil => cases h
  | cons r rs ih =>
    unfold lookup at h
    split at h
    · cases h
    · rcases Option.or_eq_some_iff.1 h with h | ⟨-, h⟩
      · exact ⟨r, by simp, h⟩
      · obtain ⟨r', hr', h⟩ := ih h
        exact ⟨r', by simp [hr'], h⟩

theorem toNat_ofNat (n : Nat) : (Char.ofNat n).toNat = n ∨ Char.ofNat n = Char.ofNat 0 := by
  by_cases h : n.isValidChar
  · have hn : Char.ofNat n = Char.ofNatAux n h := dif_pos h
    rw [hn]
    exact .inl rfl
  · exact .inr (dif_neg h)

/-- Only letters are folded forms of other characters. -/
theorem fold_eq_sign {c d : Char} (hd : 0 < d.toNat ∧ d.toNat < 0x61) (h : fold c = d) : c = d := by
  unfold fold at h
  split at h
  · rename_i n hn
    obtain ⟨r, hr, himage⟩ := lookup_image hn
    have htarget : ∀ r ∈ runs, 0x61 ≤ r.target := by decide +kernel
    have hle := htarget r hr
    unfold Run.image? at himage
    split at himage
    · cases himage
      subst h
      exfalso
      rcases toNat_ofNat (r.target + (c.toNat - r.first)) with hn | hn
      · omega
      · rw [hn] at hd
        exact absurd hd.1 (by decide)
    · cases himage
  · exact h

end CaseFold

/-- Dots and separators are the same only as themselves, whether letter case counts or not. -/
theorem Regex.sameChar_sign {nocase : Bool} {c d : Char} (hc : c = '.' ∨ c = '/') :
    sameChar nocase c d = true ↔ d = c := by
  unfold sameChar
  have hfold : CaseFold.fold c = c := by rcases hc with rfl | rfl <;> decide
  cases nocase with
  | false =>
    simp only [Bool.false_eq_true, if_false, beq_iff_eq]
    exact eq_comm
  | true =>
    simp only [if_true, beq_iff_eq, hfold]
    constructor
    · intro h
      exact CaseFold.fold_eq_sign (by rcases hc with rfl | rfl <;> decide) h.symm
    · rintro rfl
      exact hfold.symm

namespace Fragment

variable {nocase : Bool} {s : Array Char} {i j : Nat}

/-! ## Guards -/

/-- A component ends at a position. -/
def EndsAt (s : Array Char) (i : Nat) : Prop := i = s.size ∨ s[i]? = some '/'

/-- What the guards look for at the start of a component: a dot or, where dots are allowed, one or
two dots that are all of the component. -/
def Hides (dots : Bool) (s : Array Char) (i : Nat) : Prop :=
  s[i]? = some '.' ∧ (dots = true → EndsAt s (i + 1) ∨ s[i + 1]? = some '.' ∧ EndsAt s (i + 2))

theorem spans_sign {c : Char} (hc : c = '.' ∨ c = '/') :
    Spans nocase s (.char c) i j ↔ s[i]? = some c ∧ j = i + 1 := by
  rw [spans_char]
  constructor
  · rintro ⟨d, hd, hsame, rfl⟩
    rw [sameChar_sign hc] at hsame
    exact ⟨hsame ▸ hd, rfl⟩
  · rintro ⟨hd, rfl⟩
    exact ⟨c, hd, (sameChar_sign hc).2 rfl, rfl⟩

theorem spans_end : (∃ j, Spans nocase s (.alt .stop (.char '/')) i j) ↔ EndsAt s i := by
  simp only [spans_alt, spans_stop, spans_sign (.inr rfl), EndsAt]
  constructor
  · rintro ⟨j, ⟨h, -⟩ | ⟨h, -⟩⟩
    · exact .inl h
    · exact .inr h
  · rintro (h | h)
    · exact ⟨i, .inl ⟨h, rfl⟩⟩
    · exact ⟨i + 1, .inr ⟨h, rfl⟩⟩

/-- One or two dots, and what follows. -/
theorem spans_dots : Spans nocase s (.loop (.char '.') 1 (some 2) false) i j ↔
    s[i]? = some '.' ∧ (j = i + 1 ∨ s[i + 1]? = some '.' ∧ j = i + 2) := by
  have hdot : ∀ i j, j ∈ Regex.ends nocase s (.char '.') i ↔ s[i]? = some '.' ∧ j = i + 1 :=
    fun i j => spans_sign (.inl rfl)
  rw [spans_loop_upTo]
  constructor
  · rintro ⟨k, ⟨k', hk', rfl⟩, l, hl, h⟩
    obtain ⟨hi, rfl⟩ := (hdot _ _).1 hk'
    refine ⟨hi, ?_⟩
    rcases l with _ | _ | l
    · exact .inl h.symm
    · obtain ⟨k, hk, rfl⟩ := h
      obtain ⟨hi', rfl⟩ := (hdot _ _).1 hk
      exact .inr ⟨hi', rfl⟩
    · omega
  · rintro ⟨hi, rfl | ⟨hi', rfl⟩⟩
    · exact ⟨i + 1, ⟨_, (hdot _ _).2 ⟨hi, rfl⟩, rfl⟩, 0, by omega, rfl⟩
    · exact ⟨i + 1, ⟨_, (hdot _ _).2 ⟨hi, rfl⟩, rfl⟩, 1, by omega, _, (hdot _ _).2 ⟨hi', rfl⟩, rfl⟩

theorem spans_dotsRegex : (∃ j, Spans nocase s dotsRegex i j) ↔ Hides true s i := by
  unfold dotsRegex Hides
  simp only [spans_seq, spans_dots, true_implies]
  constructor
  · rintro ⟨j, k, ⟨hi, rfl | ⟨hi', rfl⟩⟩, h⟩
    · exact ⟨hi, .inl (spans_end.1 ⟨j, h⟩)⟩
    · exact ⟨hi, .inr ⟨hi', spans_end.1 ⟨j, h⟩⟩⟩
  · rintro ⟨hi, h | ⟨hi', h⟩⟩
    · obtain ⟨j, h⟩ := (@spans_end nocase _ _).2 h
      exact ⟨j, i + 1, ⟨hi, .inl rfl⟩, h⟩
    · obtain ⟨j, h⟩ := (@spans_end nocase _ _).2 h
      exact ⟨j, i + 2, ⟨hi, .inr ⟨hi', rfl⟩⟩, h⟩

theorem hides_false : Hides false s i ↔ s[i]? = some '.' := by simp [Hides]

theorem spans_dotGuard {dots : Bool} :
    Spans nocase s (dotGuardRegex dots) i j ↔ j = i ∧ ¬ Hides dots s i := by
  unfold dotGuardRegex
  rw [spans_notAhead]
  refine and_congr Iff.rfl (not_congr ?_)
  cases dots with
  | false =>
    simp only [Bool.false_eq_true, if_false, hides_false, spans_sign (.inl rfl)]
    exact ⟨fun ⟨_, h, _⟩ => h, fun h => ⟨_, h, rfl⟩⟩
  | true => exact spans_dotsRegex

/-! ## Separators and wildcards -/

theorem spans_separator {isOptional : Bool} : Spans nocase s (separatorRegex isOptional) i j ↔
    s[i]? = some '/' ∧ j = i + 1 ∨
      isOptional = true ∧ (i = 0 ∨ ∃ k, i = k + 1 ∧ s[k]? = some '/') ∧ j = i := by
  unfold separatorRegex
  cases isOptional with
  | false => simp [spans_sign]
  | true =>
    simp only [if_true, spans_alt, spans_sign (.inr rfl), spans_start, spans_behind, true_and]
    refine or_congr Iff.rfl ?_
    constructor
    · rintro (⟨rfl, rfl⟩ | ⟨rfl, k, -, hk, rfl⟩)
      · exact ⟨.inl rfl, rfl⟩
      · exact ⟨.inr ⟨k, rfl, hk⟩, rfl⟩
    · rintro ⟨rfl | ⟨k, rfl, hk⟩, rfl⟩
      · exact .inl ⟨rfl, rfl⟩
      · exact .inr ⟨rfl, k, Nat.le_succ k, hk, rfl⟩

/-- What a globstar may not take: a separator before what the guards look for, or the first
character of a text that begins with it. -/
def Blocks (dots : Bool) (s : Array Char) (i : Nat) : Prop :=
  (s[i]? = some '/' ∧ Hides dots s (i + 1)) ∨ (i = 0 ∧ Hides dots s 0)

theorem spans_hidden {dots : Bool} : (∃ j, Spans nocase s (hiddenRegex dots) i j) ↔ Blocks dots s i := by
  have hhead {j : Nat} : Spans nocase s (.alt (.char '/') .start) i j ↔
      s[i]? = some '/' ∧ j = i + 1 ∨ i = 0 ∧ j = 0 := by
    simp only [spans_alt, spans_sign (.inr rfl), spans_start]
    refine or_congr Iff.rfl ?_
    constructor
    · rintro ⟨rfl, rfl⟩; exact ⟨rfl, rfl⟩
    · rintro ⟨rfl, rfl⟩; exact ⟨rfl, rfl⟩
  have htail {r : Regex} (h : ∀ k, (∃ j, Spans nocase s r k j) ↔ Hides dots s k) :
      (∃ j, Spans nocase s (.seq (.alt (.char '/') .start) r) i j) ↔ Blocks dots s i := by
    simp only [spans_seq, hhead, Blocks]
    constructor
    · rintro ⟨j, k, ⟨hi, rfl⟩ | ⟨rfl, rfl⟩, hr⟩
      · exact .inl ⟨hi, (h _).1 ⟨j, hr⟩⟩
      · exact .inr ⟨rfl, (h _).1 ⟨j, hr⟩⟩
    · rintro (⟨hi, hr⟩ | ⟨rfl, hr⟩)
      · obtain ⟨j, hr⟩ := (h _).2 hr
        exact ⟨j, i + 1, .inl ⟨hi, rfl⟩, hr⟩
      · obtain ⟨j, hr⟩ := (h _).2 hr
        exact ⟨j, 0, .inr ⟨rfl, rfl⟩, hr⟩
  unfold hiddenRegex
  cases dots with
  | false =>
    refine htail fun k => ?_
    simp only [hides_false, spans_sign (.inl rfl)]
    exact ⟨fun ⟨_, h, _⟩ => h, fun h => ⟨_, h, rfl⟩⟩
  | true =>
    -- the sequence is nested to the left, which makes no difference
    refine Iff.trans ?_ (htail fun k => spans_dotsRegex)
    simp only [if_true, spans_seq, dotsRegex]
    constructor
    · rintro ⟨j, k, ⟨l, hl, hk⟩, h⟩; exact ⟨j, l, hl, k, hk, h⟩
    · rintro ⟨j, l, hl, k, hk, h⟩; exact ⟨j, k, ⟨l, hl, hk⟩, h⟩

theorem spans_globstar {dots : Bool} (hi : i ≤ s.size) :
    Spans nocase s (globstarRegex dots) i j ↔ i ≤ j ∧ j ≤ s.size ∧
      ∀ k, i ≤ k → k < j → (∃ c, s[k]? = some c ∧ c ≠ '\n') ∧ ¬ Blocks dots s k := by
  refine spans_loop_step (fun i j => ?_) (fun i h => ?_) hi
  · rw [spans_seq]
    simp only [spans_notAhead, spans_hidden, spans_any]
    constructor
    · rintro ⟨k, ⟨rfl, hb⟩, c, hc, hne, rfl⟩
      exact ⟨⟨⟨c, hc, by simpa using hne⟩, hb⟩, rfl⟩
    · rintro ⟨⟨⟨c, hc, hne⟩, hb⟩, rfl⟩
      exact ⟨i, ⟨rfl, hb⟩, c, hc, by simpa using hne, rfl⟩
  · obtain ⟨⟨c, hc, -⟩, -⟩ := h
    exact (Array.getElem?_eq_some_iff.1 hc).1

theorem contains_single (c d : Char) :
    (CharSet.single c).contains false d = true ↔ d = c := by
  simp only [CharSet.single, CharSet.contains, Bool.false_eq_true, if_false, Bool.and_eq_true,
    decide_eq_true_eq]
  constructor
  · rintro ⟨h1, h2⟩; exact Char.le_antisymm h2 h1
  · rintro rfl; exact ⟨Char.le_refl _, Char.le_refl _⟩

theorem spans_qmark : Spans false s qmarkRegex i j ↔
    (∃ c, s[i]? = some c ∧ c ≠ '/') ∧ j = i + 1 := by
  have h (c : Char) :
      CharSet.contains false (.compl (.union .empty (.single '/'))) c = true ↔ c ≠ '/' := by
    rw [CharSet.contains, CharSet.contains, Bool.not_eq_true', ← Bool.not_eq_true]
    simp [contains_single, CharSet.contains]
  rw [qmarkRegex, spans_set]
  simp only [h]
  constructor
  · rintro ⟨c, hc, hne, rfl⟩; exact ⟨⟨c, hc, hne⟩, rfl⟩
  · rintro ⟨⟨c, hc, hne⟩, rfl⟩; exact ⟨c, hc, hne, rfl⟩

theorem spans_qmarkNoDot : Spans false s qmarkNoDotRegex i j ↔
    (∃ c, s[i]? = some c ∧ c ≠ '/' ∧ c ≠ '.') ∧ j = i + 1 := by
  have h (c : Char) : CharSet.contains false
      (.compl (.union (.union .empty (.single '.')) (.single '/'))) c = true ↔ c ≠ '/' ∧ c ≠ '.' := by
    rw [CharSet.contains, CharSet.contains, CharSet.contains, Bool.not_eq_true',
      ← Bool.not_eq_true]
    simp [contains_single, CharSet.contains, and_comm]
  rw [qmarkNoDotRegex, spans_set]
  simp only [h]
  constructor
  · rintro ⟨c, hc, hne, rfl⟩; exact ⟨⟨c, hc, hne⟩, rfl⟩
  · rintro ⟨⟨c, hc, hne⟩, rfl⟩; exact ⟨c, hc, hne, rfl⟩

theorem spans_star (hi : i ≤ s.size) : Spans false s starRegex i j ↔
    i ≤ j ∧ j ≤ s.size ∧ ∀ k, i ≤ k → k < j → ∃ c, s[k]? = some c ∧ c ≠ '/' := by
  refine spans_loop_step (fun i j => spans_qmark) (fun i h => ?_) hi
  obtain ⟨c, hc, -⟩ := h
  exact (Array.getElem?_eq_some_iff.1 hc).1

/-- A star takes a piece of a text if no separator is in it. -/
theorem spans_star_within {u w v : List Char} :
    Spans false (u ++ w ++ v).toArray starRegex u.length (u.length + w.length) ↔ '/' ∉ w := by
  have hle : u.length ≤ (u ++ w ++ v).toArray.size := by simp
  have hpiece {k : Nat} (hk : k < w.length) : (u ++ w ++ v)[u.length + k]? = w[k]? := by
    rw [List.append_assoc, List.getElem?_append_right (by omega), Nat.add_sub_cancel_left,
      List.getElem?_append_left hk]
  rw [spans_star hle]
  simp only [List.getElem?_toArray]
  constructor
  · rintro ⟨-, -, hall⟩ hmem
    obtain ⟨k, hk⟩ := List.mem_iff_getElem?.1 hmem
    have hlt : k < w.length := (List.getElem?_eq_some_iff.1 hk).1
    obtain ⟨c, hc, hne⟩ := hall (u.length + k) (by omega) (by omega)
    rw [hpiece hlt, hk] at hc
    cases hc
    exact hne rfl
  · intro hno
    refine ⟨by omega, by simp, fun k hk hlt => ?_⟩
    obtain ⟨n, rfl⟩ := Nat.exists_eq_add_of_le hk
    have hn : n < w.length := by omega
    refine ⟨w[n], ?_, fun hsep => hno (hsep ▸ List.getElem_mem hn)⟩
    rw [hpiece hn, List.getElem?_eq_getElem hn]

end Fragment

/-! ## Signs on the characters of a text -/

namespace Glyph

variable {dot : Bool} {l : List Char} {i j : Nat}

/-- The expressions of a sign. -/
def regexes (dot : Bool) (g : Glyph) : List Regex := (g.operands dot).map (·.1)

theorem spans_char {c : Char} : SpansAll false l.toArray (regexes dot (.char c)) i j ↔
    l[i]? = some c ∧ j = i + 1 := by
  change SpansAll false l.toArray [.char c] i j ↔ _
  rw [spansAll_singleton, Regex.spans_char]
  simp only [List.getElem?_toArray, sameChar, Bool.false_eq_true, if_false, beq_iff_eq]
  constructor
  · rintro ⟨x, hx, rfl, rfl⟩; exact ⟨hx, rfl⟩
  · rintro ⟨hx, rfl⟩; exact ⟨c, hx, rfl, rfl⟩

theorem spans_separator {isOptional : Bool} :
    SpansAll false l.toArray (regexes dot (.separator isOptional)) i j ↔
      l[i]? = some '/' ∧ j = i + 1 ∨ isOptional = true ∧ Path.StartsAt l i ∧ j = i := by
  change SpansAll false l.toArray [Fragment.separatorRegex isOptional] i j ↔ _
  rw [spansAll_singleton, Fragment.spans_separator]
  simp [Path.StartsAt]

theorem spans_star {isGuarded : Bool} (hi : i ≤ l.length) :
    SpansAll false l.toArray (regexes dot (.star isGuarded)) i j ↔
      (isGuarded = true → ¬ Fragment.Hides dot l.toArray i) ∧
        i ≤ j ∧ j ≤ l.length ∧ ∀ k, i ≤ k → k < j → ∃ c, l[k]? = some c ∧ c ≠ '/' := by
  have hstar := Fragment.spans_star (s := l.toArray) (i := i) (j := j) hi
  simp only [List.getElem?_toArray, List.size_toArray] at hstar
  rw [← hstar]
  cases isGuarded with
  | false =>
    rw [and_iff_right nofun]
    exact spansAll_singleton
  | true =>
    change SpansAll false l.toArray [Fragment.dotGuardRegex dot, Fragment.starRegex] i j ↔ _
    rw [spansAll_cons]
    simp only [Fragment.spans_dotGuard, spansAll_singleton, true_implies]
    constructor
    · rintro ⟨_, ⟨rfl, hno⟩, h⟩; exact ⟨hno, h⟩
    · rintro ⟨hno, h⟩; exact ⟨i, ⟨rfl, hno⟩, h⟩

theorem spans_qmark {isFirst : Bool} :
    SpansAll false l.toArray (regexes dot (.qmark isFirst)) i j ↔
      (∃ c, l[i]? = some c ∧ c ≠ '/' ∧ (isFirst = true → dot = false → c ≠ '.')) ∧ j = i + 1 := by
  change SpansAll false l.toArray [if isFirst && !dot then _ else _] i j ↔ _
  rw [spansAll_singleton]
  split
  · rename_i h
    simp only [Bool.and_eq_true, Bool.not_eq_true'] at h
    rw [Fragment.spans_qmarkNoDot, List.getElem?_toArray, h.1, h.2]
    simp
  · rename_i h
    simp only [Bool.and_eq_true, Bool.not_eq_true', not_and] at h
    rw [Fragment.spans_qmark, List.getElem?_toArray]
    refine and_congr_left fun _ => exists_congr fun c => and_congr_right fun _ => ?_
    exact (and_iff_left fun hf hd => absurd hd (h hf)).symm

theorem spans_globstar {dots : Bool} (hi : i ≤ l.length) :
    SpansAll false l.toArray (regexes dot (.globstar dots)) i j ↔ i ≤ j ∧ j ≤ l.length ∧
      ∀ k, i ≤ k → k < j →
        (∃ c, l[k]? = some c ∧ c ≠ '\n') ∧ ¬ Fragment.Blocks (dots || dot) l.toArray k := by
  change SpansAll false l.toArray [_] i j ↔ _
  rw [spansAll_singleton, Fragment.spans_globstar hi]
  simp only [List.getElem?_toArray, List.size_toArray]

end Glyph
/-- A group without bars matches what its signs match one after the other. -/
theorem Enclosed.spans_bodyRegex {dot nocase : Bool} {s : Array Char} {i j : Nat} {body : List Glyph}
    (h : Glyph.bar ∉ body) : Spans nocase s (bodyRegex dot body) i j ↔
      SpansAll nocase s (body.flatMap (Glyph.regexes dot)) i j := by
  have htaken (l : Level) : Glyph.allTakenBy dot l body =
      (body.flatMap (Glyph.operands dot)).foldl Level.add l := by
    unfold Glyph.allTakenBy
    induction body generalizing l with
    | nil => rfl
    | cons g gs ih =>
      rw [List.foldl_cons, List.flatMap_cons, List.foldl_append, ih fun hg => h (by simp [hg])]
      cases g with
      | bar => simp at h
      | _ => rfl
  obtain ⟨hcontent, hfinished, -⟩ :=
    Part.foldl_add_spec (body.flatMap (Glyph.operands dot)) { opening := .plain }
  have hbody : bodyRegex dot body =
      ((body.flatMap (Glyph.operands dot)).map (·.1)).foldl Regex.append .empty := by
    unfold bodyRegex Level.body
    rw [htaken, hfinished]
    exact hcontent
  rw [hbody, spans_foldl_append, List.map_flatMap]
  simp only [spans_empty, exists_eq_left]
  rfl

end PathGlob
