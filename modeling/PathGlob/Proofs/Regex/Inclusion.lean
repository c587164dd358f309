/-
Expressions of which one matches whatever the other does, from the same place and to the same end. All
operators but a lookaround that asks for no match and an atomic group keep this relation.
-/
import PathGlob.Proofs.Glob.Anchors

namespace PathGlob.Regex

open Relation (ReflTransGen)

/-- Every match of the first expression is one of the second. -/
def Within (r r' : Regex) : Prop :=
  ∀ nocase s i j, i ≤ s.size → Spans nocase s r i j → Spans nocase s r' i j

/-- Every match of the first sequence is one of the second. -/
def WithinAll (rs rs' : List Regex) : Prop :=
  ∀ nocase s i j, i ≤ s.size → SpansAll nocase s rs i j → SpansAll nocase s rs' i j

/-! ## Operators -/

namespace Within

variable {r r' a a' b b' : Regex}

theorem refl (r : Regex) : Within r r := fun _ _ _ _ _ h => h

theorem append (ha : Within a a') (hb : Within b b') : Within (a.append b) (a'.append b') := by
  intro nocase s i j hi h
  obtain ⟨k, hk, h⟩ := spans_append.1 h
  exact spans_append.2 ⟨k, ha _ _ _ _ hi hk, hb _ _ _ _ (hk.onward hi).2 h⟩

theorem capture (h : Within r r') : Within (.capture r) (.capture r') := h

/-- A number of runs of a body, step by step. -/
theorem runs (h : Within r r') {nocase : Bool} {s : Array Char} {m i j : Nat} (hi : i ≤ s.size)
    (hruns : Runs (r.ends nocase s) m i j) : Runs (r'.ends nocase s) m i j := by
  induction m generalizing i with
  | zero => exact hruns
  | succ m ih =>
    obtain ⟨k, hk, hruns⟩ := hruns
    have hspan : Spans nocase s r i k := hk
    exact ⟨k, h _ _ _ _ hi hspan, ih (hspan.onward hi).2 hruns⟩

/-- Any number of runs. -/
theorem chain (h : Within r r') {nocase : Bool} {s : Array Char} {i j : Nat} (hi : i ≤ s.size)
    (hchain : ReflTransGen (Spans nocase s r) i j) : ReflTransGen (Spans nocase s r') i j := by
  induction hchain with
  | refl => exact .refl
  | tail hik hkj ih =>
    have hk := chain_onward (onward_ends nocase s r) hik hi
    exact ih.tail (h _ _ _ _ hk.2 hkj)

theorem loop (h : Within r r') (lo : Nat) (hi : Option Nat) (isLazy : Bool) :
    Within (.loop r lo hi isLazy) (.loop r' lo hi isLazy) := by
  intro nocase s i j hle hspan
  cases hi with
  | none =>
    obtain ⟨k, hruns, hchain⟩ := (spans_loop hle).1 hspan
    have hk := hruns.onward (onward_ends nocase s r) hle
    exact (spans_loop hle).2 ⟨k, h.runs hle hruns, h.chain hk.2 hchain⟩
  | some hi =>
    obtain ⟨k, hruns, l, hl, hmore⟩ := spans_loop_upTo.1 hspan
    have hk := hruns.onward (onward_ends nocase s r) hle
    exact spans_loop_upTo.2 ⟨k, h.runs hle hruns, l, hl, h.runs hk.2 hmore⟩

/-- Whoever takes more is found where the other is. -/
theorem matchesIn (h : Within r r') {nocase : Bool} {s : Array Char}
    (hmatch : r.matchesIn nocase s = true) : r'.matchesIn nocase s = true := by
  obtain ⟨i, hi, j, hspan⟩ := matchesIn_iff.1 hmatch
  exact matchesIn_iff.2 ⟨i, hi, j, h _ _ _ _ hi hspan⟩

end Within

/-! ## Sequences and alternatives -/

namespace WithinAll

variable {r r' : Regex} {rs rs' ts ts' : List Regex}

theorem refl (rs : List Regex) : WithinAll rs rs := fun _ _ _ _ _ h => h

theorem cons (h : Within r r') (hs : WithinAll rs rs') : WithinAll (r :: rs) (r' :: rs') := by
  rintro nocase s i j hi ⟨k, hk, hspans⟩
  exact ⟨k, h _ _ _ _ hi hk, hs _ _ _ _ (hk.onward hi).2 hspans⟩

theorem singleton (h : Within r r') : WithinAll [r] [r'] := cons h (refl [])

theorem append (h : WithinAll rs rs') (ht : WithinAll ts ts') : WithinAll (rs ++ ts) (rs' ++ ts') := by
  intro nocase s i j hi hspans
  obtain ⟨k, hk, hspans⟩ := spansAll_append.1 hspans
  exact spansAll_append.2 ⟨k, h _ _ _ _ hi hk, ht _ _ _ _ (hk.onward hi).2 hspans⟩

theorem foldl_append (hs : WithinAll rs rs') (h : Within r r') :
    Within (rs.foldl Regex.append r) (rs'.foldl Regex.append r') := by
  intro nocase s i j hi hspan
  obtain ⟨k, hk, hspans⟩ := spans_foldl_append.1 hspan
  exact spans_foldl_append.2 ⟨k, h _ _ _ _ hi hk, hs _ _ _ _ (hk.onward hi).2 hspans⟩

end WithinAll

theorem forall₂_appendLast {r r' a a' : Regex} {as as' : List Regex} (hr : Within r r')
    (h : List.Forall₂ Within (a :: as) (a' :: as')) :
    List.Forall₂ Within (appendLast r a as) (appendLast r' a' as') := by
  obtain ⟨ha, has⟩ := List.forall₂_cons.1 h
  induction has generalizing a a' with
  | nil => exact .cons (ha.append hr) .nil
  | cons hb hbs ih => exact .cons ha (ih (.cons hb hbs) hb)

/-- What one item of a list does one of another list does, if they go together and its partner does. -/
theorem exists_of_forall₂ {α β : Type} {R : α → β → Prop} {P : α → Prop} {Q : β → Prop} {xs : List α}
    {ys : List β} (h : List.Forall₂ R xs ys) (hR : ∀ x y, R x y → P x → Q y) (hP : ∃ x ∈ xs, P x) :
    ∃ y ∈ ys, Q y := by
  induction h with
  | nil => simp at hP
  | cons hxy _ ih =>
    rw [List.exists_mem_cons_iff] at hP ⊢
    exact hP.imp (hR _ _ hxy) ih

end PathGlob.Regex
