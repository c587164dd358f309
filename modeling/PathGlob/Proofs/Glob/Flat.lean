/-
Globs without escapes and delimiters. Nothing is ever open in such a glob, so its parts are signs
only, and each depends on little besides its character: the character before it, whether it stands
in the first component, and whether the component holds a globstar.
-/
import PathGlob.Proofs.Glob.Outline

namespace PathGlob

/-! ## Signs of flat globs -/

/-- Whether a character neither escapes nor opens or closes anything. -/
def isFlat (c : Char) : Bool := c ∉ ['\\', '(', ')', '[', ']', '\x7b', '\x7d', '<', '>']

/-- What decides how the next character of a flat glob is read: the character before it, whether
its component is the first one and whether that holds a globstar, and whether a component has begun
with a dot since the last globstar. -/
structure Place where
  prev : Option Char := none
  isFirst : Bool := true
  isGlobstar : Bool := false
  dots : Bool := false

namespace Place

/-- The place behind a character. -/
def next (p : Place) (c : Char) : Place :=
  match c with
  | '/' => { p with prev := some '/', isFirst := false, isGlobstar := false }
  | '.' => { p with prev := some '.', dots := p.dots || p.prev = none || p.prev = some '/' }
  | c => { p with prev := some c }

/-- The place behind a globstar. -/
def nextGlobstar (p : Place) : Place := { p with prev := some '*', isGlobstar := true, dots := false }

end Place

/-- The sign of a character that begins no globstar; `after` is what follows it. -/
def flatGlyph (p : Place) (c : Char) (after : List Char) : Glyph :=
  match c with
  | '/' => .separator p.isGlobstar
  | '*' => .star (!p.isFirst && p.prev = some '/' && after.head? ≠ some '.')
  | '?' => .qmark (p.prev = some '/')
  | c => .char c

/-- The signs of a flat glob. -/
def flatGlyphs (p : Place) (cs : List Char) : List Glyph :=
  match cs with
  | [] => []
  | c :: cs =>
    if c = '*' ∧ cs.head? = some '*' then
      .globstar p.dots :: flatGlyphs p.nextGlobstar (cs.dropWhile (· = '*'))
    else flatGlyph p c cs :: flatGlyphs (p.next c) cs
termination_by cs.length
decreasing_by
  · have := (List.dropWhile_sublist (fun c : Char => decide (c = '*')) (l := cs)).length_le
    simp only [List.length_cons]
    omega
  · simp

/-- Whether a sign tells something of its component that its guard depends on. -/
def Glyph.marks : Glyph → Bool
  | .char c => c = '.'
  | .globstar _ => true
  | _ => false

/-- There is no bar outside all delimiters. -/
theorem flatGlyphs_ne_bar {p : Place} {cs : List Char} {g : Glyph} (h : g ∈ flatGlyphs p cs) :
    g ≠ .bar := by
  fun_induction flatGlyphs p cs with
  | case1 => cases h
  | case2 p c cs hrun ih =>
    rcases List.mem_cons.1 h with rfl | h
    · simp
    · exact ih h
  | case3 p c cs hrun ih =>
    rcases List.mem_cons.1 h with rfl | h
    · unfold flatGlyph
      split <;> simp
    · exact ih h

/-! ## The outline of a flat glob -/

namespace Outline

/-- Nothing is open, announced or just closed. -/
structure IsIdle (o : Outline) : Prop where
  opened : o.opened = .nothing
  announced : o.announced = none
  closed : o.closed = none

/-- The place of an outline in a flat glob. -/
def place (o : Outline) : Place where
  prev := o.cursor.behind.head?
  isFirst := o.trail.current.origin = .start
  isGlobstar := o.trail.current.globstar
  dots := o.dot

/-- The first component. -/
def first (o : Outline) : Component := o.trail.done.head?.getD o.trail.current

/-- Whether the first component is known to begin with a dot. -/
def isDotted (o : Outline) : Bool := o.first.dot

theorem isDotted_mark {o : Outline} {f : Component → Component} (hf : ∀ c, c.dot → (f c).dot)
    (h : o.isDotted) : (o.mark f).isDotted := by
  unfold isDotted first mark Trail.modify at *
  cases hd : o.trail.done with
  | nil =>
    rw [hd] at h
    exact hf _ h
  | cons c cs => rwa [hd] at h

/-- A step of a flat glob. -/
theorem step_flat {o : Outline} {c : Char} (h : o.IsIdle) (hc : isFlat c)
    (hn : ∀ c ∈ o.cursor.rest, isFlat c) : o.step c = .ok (o.plain c) := by
  have hnext : o.cursor.nextIs '(' = false := by
    unfold Cursor.nextIs Cursor.peek
    cases hr : o.cursor.rest with
    | nil => rfl
    | cons x xs =>
      have := hn x (by rw [hr]; simp)
      simp only [isFlat, decide_eq_true_eq, List.mem_cons, List.not_mem_nil, or_false, not_or] at this
      simpa using this.2.1
  have hopen : Delimiter.ofOpener? c = none ∧ Delimiter.ofCloser? c = none := by
    simp only [isFlat, decide_eq_true_eq, List.mem_cons, List.not_mem_nil, or_false, not_or] at hc
    unfold Delimiter.ofOpener? Delimiter.ofCloser?
    constructor <;> split <;> simp_all
  unfold step announced?
  rw [h.opened, hnext, hopen.1, hopen.2]
  rfl

theorem put_flat {o : Outline} (h : o.IsIdle) (g : Glyph) :
    o.put g = { o with parts := o.parts ++ [.glyph g] } :=
  put_outside (by rw [h.opened]; rfl) g

/-- What reading a sign makes of an outline in a flat glob. -/
structure Adds (o o' : Outline) (cursor : Cursor) (g : Glyph) (p : Place) : Prop where
  cursor : o'.cursor = cursor
  idle : o'.IsIdle
  parts : o'.parts = o.parts ++ [.glyph g]
  place : o'.place = p
  negated : o'.negated = o.negated
  dotted : o.isDotted → o'.isDotted
  first : g.marks = false → o'.first = o.first

section Signs

variable {o : Outline} {b rest : List Char}

theorem isIdle_moved (h : o.IsIdle) (c : Cursor) : IsIdle { o with cursor := c } :=
  ⟨h.opened, h.announced, h.closed⟩

theorem last_moved (hcur : o.cursor.behind = b) (c : Char) :
    Cursor.last ⟨c :: b, rest⟩ = o.place.prev := by
  subst hcur
  unfold place
  cases o.cursor.behind <;> rfl

/-- A character that stands for itself. -/
theorem literal_flat (h : o.IsIdle) {c : Char} (hglyph : flatGlyph o.place c rest = .char c)
    (hnext : o.place.next c = { o.place with prev := some c }) :
    Adds o (literal { o with cursor := ⟨c :: b, rest⟩ } c) ⟨c :: b, rest⟩ (flatGlyph o.place c rest)
      (o.place.next c) := by
  have hbar : (c = '|' && !o.opened.isNothing : Bool) = false := by
    rw [h.opened]
    simp [Opened.isNothing]
  unfold literal
  rw [hbar, if_neg (by decide), put_flat (isIdle_moved h _), hglyph, hnext]
  exact ⟨rfl, ⟨h.opened, h.announced, h.closed⟩, rfl, rfl, rfl, id, fun _ => rfl⟩

theorem separator_flat (h : o.IsIdle) : Adds o (separator { o with cursor := ⟨'/' :: b, rest⟩ })
    ⟨'/' :: b, rest⟩ (.separator o.place.isGlobstar) (o.place.next '/') := by
  simp only [separator, put, h.opened]
  have hfirst : first { o with trail := o.trail.begin o.trail.current.globstar } = o.first := by
    unfold first Trail.begin Trail.toList
    cases o.trail.done <;> rfl
  refine ⟨rfl, ⟨rfl, h.announced, h.closed⟩, rfl, rfl, rfl, fun hd => ?_, fun _ => hfirst⟩
  exact (congrArg Component.dot hfirst).trans hd

/-- A dot is remembered if a component begins with it. -/
theorem literalDot_flat (h : o.IsIdle) (hcur : o.cursor.behind = b) :
    Adds o (literalDot { o with cursor := ⟨'.' :: b, rest⟩ }) ⟨'.' :: b, rest⟩ (.char '.')
      (o.place.next '.') := by
  unfold literalDot
  rw [last_moved hcur]
  split
  · rename_i hfirst
    simp only [put, mark, h.opened]
    refine ⟨rfl, ⟨rfl, h.announced, h.closed⟩, rfl, ?_, rfl, isDotted_mark fun _ _ => rfl,
      fun h => by cases h⟩
    simp only [Bool.or_eq_true, decide_eq_true_eq] at hfirst
    simp only [Place.next, place] at hfirst ⊢
    rcases hfirst with hfirst | hfirst <;> simp [hfirst, Trail.modify] <;> rfl
  · rename_i hfirst
    rw [put_flat (isIdle_moved h _)]
    refine ⟨rfl, ⟨h.opened, h.announced, h.closed⟩, rfl, ?_, rfl, id, fun h => by cases h⟩
    simp only [Bool.or_eq_true, decide_eq_true_eq, not_or] at hfirst
    simp only [Place.next, place] at hfirst ⊢
    simp [hfirst]

/-- A single `*` is guarded behind a separator, except before a dot. -/
theorem star_flat (h : o.IsIdle) (hcur : o.cursor.behind = b) (hsingle : rest.head? ≠ some '*') :
    Adds o (star { o with cursor := ⟨'*' :: b, rest⟩ }) ⟨'*' :: b, rest⟩
      (flatGlyph o.place '*' rest) (o.place.next '*') := by
  have hnext (c : Char) : Cursor.nextIs ⟨'*' :: b, rest⟩ c = decide (rest.head? = some c) := by
    cases rest <;> simp [Cursor.nextIs, Cursor.peek]
  unfold star
  rw [hnext, decide_eq_false hsingle, if_neg (by decide), put_flat (isIdle_moved h _)]
  refine ⟨rfl, ⟨h.opened, h.announced, h.closed⟩, ?_, rfl, rfl, id, fun _ => rfl⟩
  simp only [last_moved hcur, hnext, flatGlyph, place, decide_not]
  cases o.trail.current.origin <;> rfl

theorem qmark_flat (h : o.IsIdle) (hcur : o.cursor.behind = b) :
    Adds o (qmark { o with cursor := ⟨'?' :: b, rest⟩ }) ⟨'?' :: b, rest⟩
      (.qmark (o.place.prev = some '/')) (o.place.next '?') := by
  have hgroup : o.opened.isGroup = false := by rw [h.opened]; rfl
  unfold qmark
  rw [hgroup, Bool.and_false, if_neg (by decide), put_flat (isIdle_moved h _), last_moved hcur]
  exact ⟨rfl, ⟨h.opened, h.announced, h.closed⟩, rfl, rfl, rfl, id, fun _ => rfl⟩

/-- Reading a character that begins no globstar. -/
theorem plain_flat (h : o.IsIdle) {c : Char} (hcur : o.cursor = ⟨b, c :: rest⟩) (hc : isFlat c)
    (hneg : b = [] → c ≠ '!') (hstar : ¬ (c = '*' ∧ rest.head? = some '*')) :
    Adds o (plain { o with cursor := ⟨c :: b, rest⟩ } c) ⟨c :: b, rest⟩ (flatGlyph o.place c rest)
      (o.place.next c) := by
  have hbehind : o.cursor.behind = b := by rw [hcur]
  have hsettle : settle { o with cursor := ⟨c :: b, rest⟩ } = { o with cursor := ⟨c :: b, rest⟩ } :=
    settle_of_none h.closed
  unfold plain
  rw [hsettle]
  split
  · have hclosed : o.closed.isSome = false := by rw [h.closed]; rfl
    rw [hclosed, if_neg (by decide)]
    exact literal_flat h rfl rfl
  · cases hc
  · exact separator_flat h
  · exact literalDot_flat h hbehind
  · have hfirst : Cursor.isFirst ⟨'!' :: b, rest⟩ = false := by
      cases b with
      | nil => exact absurd rfl (hneg rfl)
      | cons x xs => simp [Cursor.isFirst]
    rw [hfirst, if_neg (by decide)]
    exact literal_flat h rfl rfl
  · exact star_flat h hbehind fun hr => hstar ⟨rfl, hr⟩
  · exact qmark_flat h hbehind
  · unfold colon
    have hgroup : o.opened.isGroup = false := by rw [h.opened]; rfl
    rw [hgroup, Bool.false_and, if_neg (by decide)]
    exact literal_flat h rfl rfl
  · refine literal_flat h ?_ ?_
    · unfold flatGlyph
      split <;> first | contradiction | rfl
    · unfold Place.next
      split <;> first | contradiction | rfl

end Signs

/-- Reading a globstar. -/
theorem globstar_flat {o : Outline} (h : o.IsIdle) {b rest : List Char}
    (hcur : o.cursor = ⟨b, '*' :: rest⟩) (hstar : rest.head? = some '*') :
    ∃ b', Adds o (plain { o with cursor := ⟨'*' :: b, rest⟩ } '*')
      ⟨'*' :: b', rest.dropWhile (· = '*')⟩ (.globstar o.dot) o.place.nextGlobstar := by
  generalize ho : ({ o with cursor := ⟨'*' :: b, rest⟩ } : Outline) = o1
  have h1 : o1.IsIdle := by subst ho; exact ⟨h.opened, h.announced, h.closed⟩
  have hnext : o1.cursor.nextIs '*' = true := by
    subst ho
    cases rest <;> simp_all [Cursor.nextIs, Cursor.peek]
  change ∃ b', Adds o o1.settle.star _ _ _
  rw [settle_of_none h1.closed]
  unfold star
  rw [hnext, if_pos rfl]
  have hskip : Cursor.skipRun ⟨'*' :: b, rest⟩ '*' =
      ⟨(rest.takeWhile (· = '*')).reverse ++ '*' :: b, rest.dropWhile (· = '*')⟩ := by
    have hsplit := List.takeWhile_append_dropWhile (p := fun c : Char => decide (c = '*')) (l := rest)
    have htake := @List.take_left _ (rest.takeWhile (· = '*')) (rest.dropWhile (· = '*'))
    have hdrop := @List.drop_left _ (rest.takeWhile (· = '*')) (rest.dropWhile (· = '*'))
    rw [hsplit] at htake hdrop
    rw [Cursor.skipRun, Cursor.skip, htake, hdrop]
  obtain ⟨b', hb'⟩ : ∃ b', (rest.takeWhile (· = '*')).reverse ++ '*' :: b = '*' :: b' := by
    cases hr : (rest.takeWhile (· = '*')).reverse with
    | nil => exact ⟨b, rfl⟩
    | cons x xs =>
      have hx : x ∈ rest.takeWhile (· = '*') := by rw [← List.mem_reverse, hr]; simp
      have := List.all_eq_true.1 List.all_takeWhile x hx
      exact ⟨xs ++ '*' :: b, by rw [show x = '*' by simpa using this]; rfl⟩
  refine ⟨b', ?_⟩
  simp only [globstar, put, mark, h1.opened]
  subst ho
  refine ⟨hskip.trans (by rw [hb']), ⟨rfl, h.announced, h.closed⟩, rfl, ?_, rfl,
    isDotted_mark fun _ hc => hc, fun h => by cases h⟩
  simp only [place, hskip, hb', Place.nextGlobstar, Trail.modify]
  rfl

/-- The rest of a flat glob is read as its signs. -/
theorem run_flat {o : Outline} (h : o.IsIdle) (hflat : ∀ c ∈ o.cursor.rest, isFlat c)
    (hneg : o.cursor.behind = [] → o.cursor.rest.head? ≠ some '!') :
    ∃ o', o.run = .ok o' ∧ o'.IsIdle ∧ o'.negated = o.negated ∧ (o.isDotted → o'.isDotted) ∧
      ((∀ g ∈ flatGlyphs o.place o.cursor.rest, g.marks = false) → o'.first = o.first) ∧
      o'.parts = o.parts ++ (flatGlyphs o.place o.cursor.rest).map .glyph := by
  induction hl : o.cursor.rest.length using Nat.strongRecOn generalizing o with
  | _ n ih =>
    rcases hcur : o.cursor with ⟨b, _ | ⟨c, rest⟩⟩
    · refine ⟨o, run_nil (by rw [hcur]), h, rfl, id, fun _ => rfl, ?_⟩
      simp [flatGlyphs]
    · rw [hcur] at hflat hneg hl
      have hrest : ∀ c ∈ rest, isFlat c := fun x hx => hflat x (by simp [hx])
      -- one sign, and then the rest by induction
      have next {o' : Outline} {cursor : Cursor} {g : Glyph} {p : Place}
          (hstep : step { o with cursor := ⟨c :: b, rest⟩ } c = .ok o')
          (ha : Adds o o' cursor g p) (hb : cursor.behind ≠ [])
          (hsub : ∀ x ∈ cursor.rest, x ∈ rest) (hlt : cursor.rest.length < n)
          (hg : flatGlyphs o.place (c :: rest) = g :: flatGlyphs p cursor.rest) :
          ∃ o'', o.run = .ok o'' ∧ o''.IsIdle ∧ o''.negated = o.negated ∧
            (o.isDotted → o''.isDotted) ∧
            ((∀ g ∈ flatGlyphs o.place (c :: rest), g.marks = false) → o''.first = o.first) ∧
            o''.parts = o.parts ++ (flatGlyphs o.place (c :: rest)).map .glyph := by
        obtain ⟨o'', hrun, hidle, hnegated, hdotted, hfirst, hparts⟩ := ih _
          (by rwa [← ha.cursor] at hlt) ha.idle (fun x hx => hrest x (hsub x (by rwa [ha.cursor] at hx)))
          (fun hnil => absurd (by rw [← ha.cursor]; exact hnil) hb) rfl
        refine ⟨o'', ?_, hidle, hnegated.trans ha.negated, hdotted ∘ ha.dotted, fun hmarks => ?_, ?_⟩
        · rw [run_cons hcur, hstep]
          exact hrun
        · rw [hg] at hmarks
          rw [ha.place, ha.cursor] at hfirst
          exact (hfirst fun g' hg' => hmarks g' (by simp [hg'])).trans (ha.first (hmarks g (by simp)))
        · rw [hparts, ha.parts, ha.place, ha.cursor, hg]
          simp
      have hstep := step_flat (o := { o with cursor := ⟨c :: b, rest⟩ })
        ⟨h.opened, h.announced, h.closed⟩ (hflat c (by simp)) hrest
      by_cases hstar : c = '*' ∧ rest.head? = some '*'
      · obtain ⟨rfl, hhead⟩ := hstar
        obtain ⟨b', ha⟩ := globstar_flat h hcur hhead
        have hle := (List.dropWhile_sublist (fun c : Char => decide (c = '*')) (l := rest)).length_le
        refine next hstep ha (by simp) (fun x hx => (List.dropWhile_sublist _).subset hx) ?_ ?_
        · simp only [← hl, List.length_cons]
          omega
        · rw [flatGlyphs, if_pos ⟨rfl, hhead⟩]
          rfl
      · have ha := plain_flat h hcur (hflat c (by simp)) (fun hb hc => hneg hb (by rw [hc]; rfl)) hstar
        refine next hstep ha (by simp) (fun x hx => hx) ?_ ?_
        · simp [← hl]
        · rw [flatGlyphs, if_neg hstar]

theorem isGuarded_eq (o : Outline) :
    o.isGuarded = (!o.negated && (!o.first.dot && !o.first.globstar)) := by
  have hhead : o.trail.toList.head? = some o.first := by
    unfold Trail.toList first
    cases o.trail.done <;> rfl
  unfold isGuarded
  rw [hhead, Option.all_some]

/-- The outline of a flat glob that is not negated consists of its signs. It has no guard if the
glob begins with a dot, and it has one if there are neither dots nor globstars. -/
theorem ofPattern_flat (pattern : String) (hflat : ∀ c ∈ Cursor.relative pattern.toList, isFlat c)
    (hneg : (Cursor.relative pattern.toList).head? ≠ some '!') :
    ∃ o, Outline.ofPattern pattern = .ok (o, []) ∧ o.negated = false ∧
      o.parts = (flatGlyphs {} (Cursor.relative pattern.toList)).map .glyph ∧
      ((Cursor.relative pattern.toList).head? = some '.' → o.isGuarded = false) ∧
      ((∀ g ∈ flatGlyphs {} (Cursor.relative pattern.toList), g.marks = false) →
        o.isGuarded = true) := by
  unfold Outline.ofPattern Cursor.ofPattern
  generalize Cursor.relative pattern.toList = cs at hflat hneg ⊢
  have hstart : IsIdle { cursor := ⟨[], cs⟩ } := ⟨rfl, rfl, rfl⟩
  obtain ⟨o, hrun, hidle, hnegated, -, hfirst, hparts⟩ := run_flat hstart hflat fun _ => hneg
  have hfinish : o.finish = o := by
    unfold finish
    rw [hidle.opened]
    exact settle_of_none hidle.closed
  refine ⟨o, ?_, hnegated, hparts, fun hdot => ?_, fun hmarks => ?_⟩
  · rw [hrun]
    simp only [Except.map, hfinish, hidle.opened]
    rfl
  · cases cs with
    | nil => cases hdot
    | cons c cs =>
      cases hdot
      have hcs : ∀ c ∈ cs, isFlat c := fun c hc => hflat c (by simp [hc])
      -- the first step marks the component, and no later one takes the mark away
      have ha := plain_flat hstart (b := []) rfl rfl (by decide) (by simp)
      obtain ⟨o', hrun', -, -, hdotted, -, -⟩ := run_flat ha.idle (by rwa [ha.cursor])
        (by rw [ha.cursor]; simp)
      have hsame : run { cursor := ⟨[], '.' :: cs⟩ } = .ok o' := by
        rw [run_cons rfl, step_flat ⟨rfl, rfl, rfl⟩ rfl hcs]
        exact hrun'
      cases hrun.symm.trans hsame
      have hdot : o.first.dot = true := hdotted rfl
      rw [isGuarded_eq, hdot]
      simp
  · rw [isGuarded_eq, hnegated, hfirst hmarks]
    rfl

end Outline
end PathGlob
