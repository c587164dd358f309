/-
Dots that a glob spells out. Without globstars a glob takes a path component by component, and its
wildcards refuse a dot where a component begins. There is one exception: a `*` behind a separator has
no guard if a dot follows it in the glob, so it may give way to that dot or take another one.
-/
import Mathlib.Data.List.Forall2
import PathGlob.Proofs.Matcher.Hidden

namespace PathGlob

open Regex PathGlob.Path

/-! ## Components of a glob and of a path -/

/-- A component of a glob admits a component of a path behind a separator: if the latter begins with a
dot, then so does the former, if need be behind a `*`. -/
def Path.Spells (p c : List Char) : Prop :=
  c.head? = some '.' → p.head? = some '.' ∨ ['*', '.'] <+: p

theorem Path.Spells.empty (p : List Char) : Spells p [] := by
  intro hdot
  cases hdot

section Components

variable {l p c : List Char} {ps cs : List (List Char)} {i j : Nat}

/-- What takes no separator leaves the components behind the one that it is in. -/
theorem Path.components_beyond (hc : components (l.drop i) = c :: cs) (hij : i ≤ j)
    (hj : j ≤ l.length) (hsep : ∀ k, i ≤ k → k < j → l[k]? ≠ some '/') :
    ∃ c', components (l.drop j) = c' :: cs := by
  obtain ⟨n, rfl⟩ := Nat.exists_eq_add_of_le hij
  have hn : n ≤ c.length := by
    by_contra hlt
    rcases endsAt_component hc (by omega) with hend | hend
    · rw [List.size_toArray] at hend
      omega
    · rw [List.getElem?_toArray] at hend
      exact hsep _ (by omega) (by omega) hend
  rw [← List.drop_drop]
  exact ⟨_, components_drop hc hn⟩

theorem Path.head?_drop_component (hc : components (l.drop i) = c :: cs) {x : Char}
    (hx : c.head? = some x) : l[i]? = some x := by
  cases c with
  | nil => cases hx
  | cons y c =>
    cases hx
    exact getElem?_component (m := 0) hc (by simp)

end Components

/-! ## Signs and the components they take -/

section Signs

variable {l q d : List Char} {qs ds : List (List Char)} {i j : Nat}

/-- A sign other than a separator takes no separator; and behind a separator it takes a dot only if it
is one, or a `*` with a dot behind it. -/
theorem Glyph.spans_inside {p : Place} {c : Char} {after : List Char} (hc : c ≠ '/') (hi : i ≤ l.length)
    (h : SpansAll false l.toArray (Glyph.regexes false (flatGlyph p c after)) i j) :
    (i ≤ j ∧ j ≤ l.length ∧ ∀ k, i ≤ k → k < j → l[k]? ≠ some '/') ∧
      (p.prev = some '/' → p.isFirst = false → l[i]? = some '.' →
        c = '.' ∨ c = '*' ∧ after.head? = some '.') := by
  have hone {x : Char} (hx : l[i]? = some x) (hsep : x ≠ '/') :
      i ≤ i + 1 ∧ i + 1 ≤ l.length ∧ ∀ k, i ≤ k → k < i + 1 → l[k]? ≠ some '/' := by
    refine ⟨by omega, (List.getElem?_eq_some_iff.1 hx).1, fun k hk hlt => ?_⟩
    obtain rfl : k = i := by omega
    rw [hx]
    exact fun h => hsep (Option.some.inj h)
  unfold flatGlyph at h
  split at h
  · exact absurd rfl hc
  · -- behind a separator a `*` is guarded unless a dot follows it
    obtain ⟨hguard, hij, hj, hall⟩ := (Glyph.spans_star hi).1 h
    refine ⟨⟨hij, hj, fun k hk hlt hsep => ?_⟩, fun hprev hfirst hdot => .inr ⟨rfl, ?_⟩⟩
    · obtain ⟨x, hx, hne⟩ := hall k hk hlt
      rw [hx] at hsep
      exact hne (Option.some.inj hsep)
    · by_contra hafter
      refine hguard ?_ (Fragment.hides_false.2 (by rwa [List.getElem?_toArray]))
      simp [hprev, hfirst, hafter]
  · obtain ⟨⟨x, hx, hne, hno⟩, rfl⟩ := Glyph.spans_qmark.1 h
    refine ⟨hone hx hne, fun hprev _ hdot => ?_⟩
    rw [hx] at hdot
    exact absurd (Option.some.inj hdot) (hno (by simpa using hprev) rfl)
  · obtain ⟨hx, rfl⟩ := Glyph.spans_char.1 h
    refine ⟨hone hx hc, fun _ _ hdot => .inl ?_⟩
    rw [hx] at hdot
    exact Option.some.inj hdot

/-- The signs of a glob without globstars take a component for each of its own. They may begin in the
middle of a component, on both sides; if they begin behind a separator, the first component is
admitted as well. -/
theorem spells_flatGlyphs {p : Place} {cs : List Char} (hrun : ¬ ['*', '*'] <:+: cs)
    (hglob : p.isGlobstar = false) (hi : i ≤ l.length)
    (h : SpansAll false l.toArray ((flatGlyphs p cs).flatMap (Glyph.regexes false)) i l.length)
    (hq : components cs = q :: qs) (hd : components (l.drop i) = d :: ds) :
    List.Forall₂ Spells qs ds ∧ (p.prev = some '/' → p.isFirst = false → Spells q d) := by
  induction cs generalizing p q qs i d ds with
  | nil =>
    rw [flatGlyphs, List.flatMap_nil, spansAll_nil] at h
    subst h
    rw [List.drop_length] at hd
    cases hq
    cases hd
    exact ⟨.nil, fun _ _ => .empty _⟩
  | cons c cs ih =>
    have hsingle : ¬ (c = '*' ∧ cs.head? = some '*') := by
      rintro ⟨rfl, hhead⟩
      exact head?_of_not_isInfix hrun hhead
    rw [flatGlyphs, if_neg hsingle, List.flatMap_cons, spansAll_append] at h
    obtain ⟨k, hsign, hrest⟩ := h
    obtain ⟨q', qs', hq'⟩ := components_cons cs
    by_cases hc : c = '/'
    · -- a separator takes a separator, so components end on both sides
      subst hc
      rw [flatGlyph, hglob, Glyph.spans_separator] at hsign
      obtain ⟨hsep, rfl⟩ : l[i]? = some '/' ∧ k = i + 1 := by simpa using hsign
      obtain ⟨hlt, hget⟩ := List.getElem?_eq_some_iff.1 hsep
      rw [List.drop_eq_getElem_cons hlt, hget, components_separator] at hd
      rw [components_separator] at hq
      cases hq
      cases hd
      obtain ⟨d', ds', hd'⟩ := components_cons (l.drop (i + 1))
      obtain ⟨htail, hhead⟩ := ih (p := p.next '/') (isInfix_tail hrun) rfl hlt hrest hq' hd'
      rw [hq', hd']
      exact ⟨.cons (hhead rfl rfl) htail, fun _ _ => .empty _⟩
    · -- any other sign stays in the component that it begins in
      rw [components_char hc hq'] at hq
      cases hq
      obtain ⟨⟨hik, hk, hinside⟩, hspelled⟩ := Glyph.spans_inside hc hi hsign
      obtain ⟨d', hd'⟩ := components_beyond hd hik hk hinside
      have hnext : (p.next c).isGlobstar = false := by
        unfold Place.next
        split <;> first | rfl | exact hglob
      obtain ⟨htail, -⟩ := ih (isInfix_tail hrun) hnext hk hrest hq' hd'
      refine ⟨htail, fun hprev hfirst hdot => ?_⟩
      rcases hspelled hprev hfirst (head?_drop_component hd hdot) with rfl | ⟨rfl, hafter⟩
      · exact .inl rfl
      · obtain ⟨t, ht⟩ := List.head?_eq_some_iff.1 (head?_component hq' hafter (by decide))
        exact .inr ⟨t, by rw [ht]; rfl⟩

end Signs

/-! ## The guard of the first component -/

namespace Outline

/-- A place in a flat glob without globstars that does not begin with a dot. Its first component is not
known to begin with one, for only later components begin behind a separator. -/
structure IsUndotted (o : Outline) : Prop where
  idle : o.IsIdle
  flat : ∀ c ∈ o.cursor.rest, isFlat c = true
  runless : ¬ ['*', '*'] <:+: o.cursor.rest
  begun : o.cursor.behind = [] → o.cursor.rest.head? ≠ some '.' ∧ o.cursor.rest.head? ≠ some '!'
  behind : o.cursor.behind.head? = some '/' → o.trail.done ≠ []
  guarded : o.isGuarded = true

section Marks

variable {o : Outline}

theorem first_put (o : Outline) (g : Glyph) : (o.put g).first = o.first := by
  unfold put
  split <;> rfl

/-- A mark on a later component leaves the first one. -/
theorem first_mark (hdone : o.trail.done ≠ []) (f : Component → Component) :
    (o.mark f).first = o.first := by
  obtain ⟨d, ds, hd⟩ := List.exists_cons_of_ne_nil hdone
  unfold first mark Trail.modify
  rw [hd]
  rfl

/-- A dot marks no first component but one that begins with it. -/
theorem first_literalDot (hbegun : o.cursor.last ≠ none)
    (hbehind : o.cursor.last = some '/' → o.trail.done ≠ []) : o.literalDot.first = o.first := by
  unfold literalDot
  simp only [first_put]
  split
  · rename_i hlast
    have hsep : o.cursor.last = some '/' := by simpa [hbegun] using hlast
    exact first_mark (hbehind hsep) _
  · rfl

end Marks

namespace IsUndotted

variable {o : Outline} {b rest : List Char} {c : Char}

/-- What such a glob reads is one sign after the other. -/
theorem adds (h : o.IsUndotted) (hcur : o.cursor = ⟨b, c :: rest⟩) :
    Adds o (plain { o with cursor := ⟨c :: b, rest⟩ } c) ⟨c :: b, rest⟩ (flatGlyph o.place c rest)
      (o.place.next c) := by
  have hflat := h.flat
  have hbegun := h.begun
  have hrun := h.runless
  rw [hcur] at hflat hbegun hrun
  refine plain_flat h.idle hcur (hflat c (by simp)) ?_ ?_
  · rintro hb rfl
    exact (hbegun hb).2 rfl
  · rintro ⟨rfl, hhead⟩
    exact head?_of_not_isInfix hrun hhead

/-- A character of such a glob tells nothing of the first component. -/
theorem first_plain (h : o.IsUndotted) (hcur : o.cursor = ⟨b, c :: rest⟩) :
    (plain { o with cursor := ⟨c :: b, rest⟩ } c).first = o.first := by
  by_cases hdot : c = '.'
  · subst hdot
    have hbegun := h.begun
    have hbehind := h.behind
    rw [hcur] at hbegun hbehind
    change (literalDot (settle _)).first = _
    rw [settle_of_none (by exact h.idle.closed), first_literalDot]
    · rfl
    · cases b with
      | nil => exact absurd rfl (hbegun rfl).1
      | cons x b => exact nofun
    · intro hlast
      apply hbehind
      cases b with
      | nil => cases hlast
      | cons x b => exact hlast
  · apply (h.adds hcur).first
    unfold flatGlyph
    split
    · rfl
    · rfl
    · rfl
    · exact decide_eq_false hdot

theorem step (h : o.IsUndotted) (hcur : o.cursor = ⟨b, c :: rest⟩) {o' : Outline}
    (hstep : Outline.step { o with cursor := ⟨c :: b, rest⟩ } c = .ok o') : o'.IsUndotted := by
  have hflat := h.flat
  have hrun := h.runless
  rw [hcur] at hflat hrun
  have hrest : ∀ x ∈ rest, isFlat x = true := fun x hx => hflat x (by simp [hx])
  rw [step_flat (isIdle_moved h.idle _) (hflat c (by simp)) hrest] at hstep
  obtain rfl := Except.ok.inj hstep
  have hadds := h.adds hcur
  have hfirst := h.first_plain hcur
  constructor
  · exact hadds.idle
  · rw [hadds.cursor]
    exact hrest
  · rw [hadds.cursor]
    exact isInfix_tail hrun
  · rw [hadds.cursor]
    exact nofun
  · rw [hadds.cursor]
    intro hsep
    obtain rfl : c = '/' := Option.some.inj hsep
    change (separator (settle _)).trail.done ≠ []
    rw [settle_of_none (by exact h.idle.closed)]
    simp only [separator, put, h.idle.opened, Trail.begin, Trail.toList]
    simp
  · have hguarded := h.guarded
    rw [isGuarded_eq] at hguarded ⊢
    rw [hfirst, hadds.negated]
    exact hguarded

end IsUndotted

/-- A flat glob without globstars has a guard unless it begins with a dot. -/
theorem isGuarded_of_flat {pattern : String} {o : Outline} {openers : List Char}
    (hflat : ∀ c ∈ pattern.toList, isFlat c = true) (hneg : pattern.toList.head? ≠ some '!')
    (hdot : pattern.toList.head? ≠ some '.') (hrun : ¬ ['*', '*'] <:+: pattern.toList)
    (ho : ofPattern pattern = .ok (o, openers)) : o.isGuarded = true := by
  have hcursor : Cursor.ofPattern pattern = ⟨[], pattern.toList⟩ := by
    unfold Cursor.ofPattern
    rw [Cursor.relative_eq_self]
    rintro ⟨t, ht⟩
    exact hdot (by rw [← ht]; rfl)
  have hstart : IsUndotted { cursor := ⟨[], pattern.toList⟩ } :=
    ⟨⟨rfl, rfl, rfl⟩, hflat, hrun, fun _ => ⟨hdot, hneg⟩, nofun, rfl⟩
  unfold ofPattern at ho
  rw [hcursor] at ho
  cases hread : run { cursor := ⟨[], pattern.toList⟩ } with
  | error e =>
    rw [hread] at ho
    cases ho
  | ok o' =>
    rw [hread] at ho
    cases ho
    obtain ⟨hend, -⟩ :=
      run_preserves (P := IsUndotted) (fun _ _ _ _ _ h hcur hstep => h.step hcur hstep) hstart hread
    have hfinish : o'.finish = o' := by
      unfold finish
      rw [hend.idle.opened]
      exact settle_of_none hend.idle.closed
    rw [hfinish]
    exact hend.guarded

end Outline

/-! ## Whole globs -/

/-- A flat glob without globstars accepts only paths with as many components as it has itself, and a
component of such a path begins with a dot only where the glob's component does, or where it begins
with a `*` and a dot and is not the first one. -/
theorem Matcher.spells_of_accepts {pattern : String} (hflat : ∀ c ∈ pattern.toList, isFlat c = true)
    (hneg : pattern.toList.head? ≠ some '!') (hrel : ¬ ['.', '/'] <+: pattern.toList)
    (hrun : ¬ ['*', '*'] <:+: pattern.toList) {m : Matcher} (hm : Matcher.ofPattern {} pattern = .ok m)
    {candidate : String} (haccepts : m.accepts candidate = true) :
    (components candidate.toList).length = (components pattern.toList).length ∧
      ∀ (i : Nat) (p c : List Char), (components pattern.toList)[i]? = some p →
        (components candidate.toList)[i]? = some c → c.head? = some '.' →
          p.head? = some '.' ∨ 0 < i ∧ ['*', '.'] <+: p := by
  obtain ⟨out, m', hout, hm', hiff⟩ := Matcher.exists_of_flat (o := {}) (Matcher.length_le_of_ok hm)
    hflat hneg hrel rfl rfl rfl rfl rfl
  cases hm.symm.trans hm'
  obtain ⟨hguard, hspans⟩ := (hiff candidate).1 haccepts
  obtain ⟨q, qs, hq⟩ := components_cons pattern.toList
  obtain ⟨d, ds, hd⟩ := components_cons candidate.toList
  obtain ⟨htail, -⟩ := spells_flatGlyphs hrun rfl (Nat.zero_le _) hspans hq hd
  rw [hq, hd]
  refine ⟨congrArg Nat.succ htail.length_eq.symm, fun i p c hp hc hdot => ?_⟩
  cases i with
  | zero =>
    cases hp
    cases hc
    -- the first component of the glob begins with a dot too, or there is a guard
    by_contra hnot
    have hhead : pattern.toList.head? ≠ some '.' := fun h =>
      hnot (.inl (head?_component hq h (by decide)))
    refine hguard (Outline.isGuarded_of_flat hflat hneg hhead hrun hout) (Fragment.hides_false.2 ?_)
    rw [List.getElem?_toArray]
    exact head?_drop_component (i := 0) hd hdot
  | succ i =>
    rw [List.getElem?_cons_succ] at hp hc
    obtain ⟨hi, rfl⟩ := List.getElem?_eq_some_iff.1 hp
    obtain ⟨hi', rfl⟩ := List.getElem?_eq_some_iff.1 hc
    have hspells : Spells qs[i] ds[i] := htail.get hi hi'
    exact (hspells hdot).imp_right (⟨Nat.succ_pos i, ·⟩)

/-- A `?` takes no dot behind a separator, and a `*` only before a dot. -/
theorem Matcher.spells_of_accepts_wildcards : ∃ m, Matcher.ofPattern {} "a*/?c/*.b" = .ok m ∧
    m.accepts "az/xc/.b" = true ∧ m.accepts "az/.c/.b" = false ∧ m.accepts "az/xc" = false := by
  obtain ⟨m, hm, haccepts⟩ : ∃ m, Matcher.ofPattern {} "a*/?c/*.b" = .ok m ∧
      m.accepts "az/xc/.b" = true := exists_ok_of_any (by decide +kernel)
  have hspells {candidate : String} (h : m.accepts candidate = true) :=
    Matcher.spells_of_accepts (by simp [isFlat]) (by decide) (by decide) (by decide +kernel) hm h
  refine ⟨m, hm, haccepts, ?_, ?_⟩
  · rw [← Bool.not_eq_true]
    intro h
    exact absurd ((hspells h).2 1 ['?', 'c'] ['.', 'c'] (by decide) (by decide) rfl) (by decide)
  · rw [← Bool.not_eq_true]
    intro h
    exact absurd (hspells h).1 (by decide)

/-- A `*` behind a separator may stand for nothing, before the dot of a hidden component. -/
theorem Matcher.accepts_dot_behind_star : ∃ m, Matcher.ofPattern {} "a/*.b" = .ok m ∧
    m.accepts "a/.b" = true ∧
    ¬ ∀ (i : Nat) (p c : List Char), (components "a/*.b".toList)[i]? = some p →
      (components "a/.b".toList)[i]? = some c → c.head? = some '.' → p.head? = some '.' := by
  obtain ⟨m, hm, haccepts⟩ : ∃ m, Matcher.ofPattern {} "a/*.b" = .ok m ∧
      m.accepts "a/.b" = true := exists_ok_of_any (by decide +kernel)
  refine ⟨m, hm, haccepts, fun hall => ?_⟩
  exact absurd (hall 1 ['*', '.', 'b'] ['.', 'b'] (by decide) (by decide) rfl) (by decide)

end PathGlob
