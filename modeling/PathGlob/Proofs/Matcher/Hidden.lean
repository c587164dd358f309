/-
Hidden components. They are kept out by what the parts of a glob look for, each at its own place, so
a pattern keeps them out if none of its places is exposed. Characters and single wildcards leave none
open. Bracket expressions and groups look for nothing, and a globstar does not see a dot that follows the
separator in front of it.
-/
import PathGlob.Proofs.Glob.Outlook
import PathGlob.Proofs.Matcher.Answered

namespace PathGlob

open Regex PathGlob.Path

/-! ## Hidden components -/

/-- Whether a component is hidden: it begins with a dot or, where dots are allowed, it consists of
one or two dots. -/
def Path.isHidden (dots : Bool) (c : List Char) : Bool :=
  if dots then c = ['.'] || c = ['.', '.'] else c.head? = some '.'

section

variable {dots : Bool} {l p : List Char} {ps : List (List Char)} {i : Nat}

theorem Path.getElem?_component (h : components (l.drop i) = p :: ps) {m : Nat} (hm : m < p.length) :
    l[i + m]? = p[m]? := by
  rw [← List.getElem?_drop]
  rcases (components_head h).1 with ⟨-, heq⟩ | ⟨rest, heq, -⟩
  · rw [heq]
  · rw [heq, List.getElem?_append_left hm]

theorem Path.endsAt_component (h : components (l.drop i) = p :: ps) (hi : i ≤ l.length) :
    Fragment.EndsAt l.toArray (i + p.length) := by
  rcases (components_head h).1 with ⟨-, heq⟩ | ⟨rest, heq, -⟩
  · left
    rw [← heq, List.length_drop, List.size_toArray]
    omega
  · right
    rw [List.getElem?_toArray, ← List.getElem?_drop, heq]
    simp

/-- The guards look for hidden components. -/
theorem Path.hides_of_isHidden (h : components (l.drop i) = p :: ps) (hi : i ≤ l.length)
    (hc : isHidden dots p = true) : Fragment.Hides dots l.toArray i := by
  have hget {m : Nat} {x : Char} (hx : p[m]? = some x) : l.toArray[i + m]? = some x := by
    rw [List.getElem?_toArray, getElem?_component h (List.getElem?_eq_some_iff.1 hx).1, hx]
  have hend := endsAt_component h hi
  unfold isHidden at hc
  split at hc
  · rename_i hdots
    simp only [Bool.or_eq_true, decide_eq_true_eq] at hc
    rcases hc with rfl | rfl
    · exact ⟨hget (m := 0) rfl, fun _ => .inl hend⟩
    · exact ⟨hget (m := 0) rfl, fun _ => .inr ⟨hget (m := 1) rfl, hend⟩⟩
  · rename_i hdots
    rw [decide_eq_true_eq, List.head?_eq_getElem?] at hc
    exact ⟨hget hc, fun h => absurd h hdots⟩

end

/-! ## Patterns -/

/-- Whether a pattern without brace sets is not negated and has no exposed place. -/
def Outline.covers (dots : Bool) (pattern : String) : Bool :=
  match Outline.ofPattern pattern with
  | .ok (o, _) => !o.negated && o.isCovered dots
  | .error _ => true

example : Outline.covers false "**/[a-c]*/@(d)?" = true := by decide +kernel

example : Outline.covers false "a/**" = false := by decide +kernel

section Flat

open Outlook

theorem isInfix_tail {a b c : Char} {cs : List Char} (h : ¬ [a, b] <:+: c :: cs) : ¬ [a, b] <:+: cs :=
  fun hi => h (hi.trans (List.suffix_cons c cs).isInfix)

theorem head?_of_not_isInfix {a b : Char} {cs : List Char} (h : ¬ [a, b] <:+: a :: cs) :
    cs.head? ≠ some b := by
  intro hb
  obtain ⟨rest, rfl⟩ := List.head?_eq_some_iff.1 hb
  exact h ⟨[], rest, rfl⟩

theorem marks_flatGlyphs {p : Place} {cs : List Char} (hdot : '.' ∉ cs) (hrun : ¬ ['*', '*'] <:+: cs) :
    ∀ g ∈ flatGlyphs p cs, g.marks = false := by
  induction cs generalizing p with
  | nil =>
    rw [flatGlyphs]
    exact fun g hg => by cases hg
  | cons c cs ih =>
    have hsingle : ¬ (c = '*' ∧ cs.head? = some '*') := by
      rintro ⟨rfl, hhead⟩
      exact head?_of_not_isInfix hrun hhead
    rw [flatGlyphs, if_neg hsingle]
    intro g hg
    rcases List.mem_cons.1 hg with rfl | hg
    · have hc : c ≠ '.' := fun h => hdot (by simp [h])
      unfold flatGlyph
      split <;> first | rfl | exact decide_eq_false hc
    · exact ih (fun h => hdot (by simp [h])) (isInfix_tail hrun) g hg

theorem Part.passAll_glyphs (dots : Bool) (gs : List Glyph) (a : Outlook) :
    passAll dots (gs.map .glyph) a = Glyph.passAll dots gs a := by
  unfold passAll Glyph.passAll
  rw [List.foldl_map]
  rfl

/-- What is ahead behind a separator is looked for by the sign that comes next. -/
theorem passAll_flatGlyphs {dots : Bool} {p : Place} {cs : List Char} {a : Outlook}
    (hdot : '.' ∉ cs) (hrun : ¬ ['*', '*'] <:+: cs) (hqmark : dots = true → ¬ ['/', '?'] <:+: cs)
    (hglob : p.isGlobstar = false)
    (ha : a = .clear ∨ a = .ahead ∧ p.prev = some '/' ∧ p.isFirst = false ∧
      (dots = true → cs.head? ≠ some '?')) :
    Glyph.passAll dots (flatGlyphs p cs) a = .clear ∨ Glyph.passAll dots (flatGlyphs p cs) a = .ahead := by
  induction cs generalizing p a with
  | nil =>
    rw [flatGlyphs]
    exact ha.imp_right And.left
  | cons c cs ih =>
    have hc : c ≠ '.' := fun h => hdot (by simp [h])
    have hdot' : '.' ∉ cs := fun h => hdot (by simp [h])
    have hrun' := isInfix_tail hrun
    have hqmark' := fun h => isInfix_tail (hqmark h)
    have hsingle : ¬ (c = '*' ∧ cs.head? = some '*') := by
      rintro ⟨rfl, hhead⟩
      exact head?_of_not_isInfix hrun hhead
    rw [flatGlyphs, if_neg hsingle]
    change Glyph.passAll dots _ ((flatGlyph p c cs).pass dots a) = _ ∨
      Glyph.passAll dots _ ((flatGlyph p c cs).pass dots a) = _
    by_cases hsep : c = '/'
    · subst hsep
      refine ih hdot' hrun' hqmark' rfl (.inr ⟨?_, rfl, rfl, fun h => head?_of_not_isInfix (hqmark h)⟩)
      rw [flatGlyph, hglob]
      rcases ha with rfl | ⟨rfl, -⟩ <;> rfl
    · have hnext : (p.next c).isGlobstar = p.isGlobstar := by
        unfold Place.next
        split <;> first | contradiction | rfl
      refine ih hdot' hrun' hqmark' (hnext.trans hglob) (.inl ?_)
      unfold flatGlyph
      split
      · exact absurd rfl hsep
      · rcases ha with rfl | ⟨rfl, hprev, hfirst, -⟩
        · change star dots (if _ then clear else clear) = clear
          rw [ite_self, star_clear]
        · -- the star behind a separator has a guard
          have hguard : (!p.isFirst && p.prev = some '/' && cs.head? ≠ some '.' : Bool) = true := by
            have hhead : cs.head? ≠ some '.' := fun h => hdot' (List.mem_of_head? h)
            simp [hprev, hfirst, hhead]
          rw [hguard]
          exact star_clear dots
      · rcases ha with rfl | ⟨rfl, hprev, -, hhead⟩
        · change (if _ then clear else clear.qmark dots) = clear
          rw [qmark_clear, ite_self]
        · cases dots with
          | true => exact absurd rfl (hhead rfl)
          | false =>
            rw [decide_eq_true hprev]
            rfl
      · change Outlook.char dots c a = clear
        unfold Outlook.char
        rw [if_neg hsep, if_neg hc]
        rcases ha with rfl | ⟨rfl, -⟩ <;> rfl

/-- A pattern of characters and single wildcards, without dots and not negated; where dots are allowed, no
`?` begins a component behind a separator. -/
structure Outline.IsSingle (dots : Bool) (pattern : String) : Prop where
  flat : ∀ c ∈ pattern.toList, isFlat c = true
  positive : pattern.toList.head? ≠ some '!'
  dotless : '.' ∉ pattern.toList
  single : ¬ ['*', '*'] <:+: pattern.toList
  guarded : dots = true → ¬ ['/', '?'] <:+: pattern.toList

theorem Outline.IsSingle.covers {dots : Bool} {pattern : String} (h : IsSingle dots pattern) :
    Outline.covers dots pattern = true := by
  obtain ⟨hflat, hneg, hdot, hrun, hqmark⟩ := h
  have hrelative : Cursor.relative pattern.toList = pattern.toList :=
    Cursor.relative_eq_self fun h => hdot (h.subset (by simp))
  obtain ⟨o, ho, hnegated, hparts, -, hguarded⟩ :=
    Outline.ofPattern_flat pattern (by rwa [hrelative]) (by rwa [hrelative])
  rw [hrelative] at hparts hguarded
  have hmarks : ∀ g ∈ flatGlyphs {} pattern.toList, g.marks = false :=
    marks_flatGlyphs hdot hrun
  have hpass := passAll_flatGlyphs (p := {}) hdot hrun hqmark rfl (.inl rfl)
  unfold Outline.covers
  rw [ho]
  simp only [hnegated, Bool.not_false, Bool.true_and]
  unfold isCovered
  rw [hguarded hmarks, if_pos rfl, hparts, Part.passAll_glyphs]
  rcases hpass with hpass | hpass <;> rw [hpass]

end Flat

/-- A program of a covered pattern accepts no candidate with hidden components. -/
theorem Program.accepts_of_covers {o : Options} {pattern : String} {r : Rendering} {p : Program}
    (hr : render o pattern = .ok r) (hp : Program.compile o pattern r = .ok p)
    (hcovers : Outline.covers o.dot pattern = true) (hnocase : o.nocase = false)
    (hlead : o.lead = none) (htrail : o.trail = none) (hstar : o.star = none) :
    r.negated = false ∧ ∀ candidate, p.accepts candidate = true →
      ∀ c ∈ components candidate.toList, isHidden o.dot c = false := by
  have hrendering := (render_ok_iff.1 hr).1
  have hfollows := Outline.ofPattern_follows o.dialect pattern
  unfold Outline.covers at hcovers
  cases ho : Outline.ofPattern pattern with
  | error e =>
    rw [ho] at hfollows
    cases hrendering.symm.trans hfollows
  | ok out =>
    obtain ⟨out, openers⟩ := out
    rw [ho] at hcovers
    simp only [Bool.and_eq_true, Bool.not_eq_true'] at hcovers
    obtain ⟨hnegated, hcovered⟩ := hcovers
    obtain ⟨hrenders, -⟩ := Outline.renders_of_ok hrendering ho
    refine ⟨hrenders.negated.trans hnegated, fun candidate haccepts c hc => ?_⟩
    rcases Program.compile_agrees hr with ⟨p', regex, hp', hregex, hagree⟩ | ⟨e, he, -⟩
    · cases hp.symm.trans hp'
      obtain ⟨hcase, hsource⟩ := CompiledRegex.ofRendering_ok hregex
      obtain ⟨rs, hrs, hmatches⟩ := hrenders.matchesIn_iff hstar hlead htrail
        (Outline.barless_of_isCovered hcovered) hsource
      rw [hagree, CompiledRegex.accepts, hcase, hnocase, hmatches, hnegated, if_neg (by decide)]
        at haccepts
      simp only [Fragment.spans_dotGuard, true_and, List.size_toArray] at haccepts
      obtain ⟨i, cs, hstart, hi, hcomponents⟩ := exists_start hc
      rw [← Bool.not_eq_true]
      intro hhidden
      exact Outline.not_hides_of_isCovered hcovered hrs haccepts.1 haccepts.2 hstart
        (hides_of_isHidden hcomponents hi hhidden)
    · cases hp.symm.trans he

/-- Hidden components stay hidden: a matcher of a pattern accepts no candidate that has one, if each
expansion of the pattern is of characters and single wildcards, or is not negated and has no exposed
place. -/
theorem Matcher.hidden_of_covers {o : Options} {pattern : String} {m : Matcher}
    (hm : Matcher.ofPattern o pattern = .ok m) (hw : o.windows = false) (hnocase : o.nocase = false)
    (hlead : o.lead = none) (htrail : o.trail = none) (hstar : o.star = none)
    (hcovers : ∀ ps, Group.expansions o pattern = .ok ps → ∀ p ∈ ps,
      Outline.IsSingle o.dot p ∨ Outline.covers o.dot p = true)
    (e : Engine) (candidate : String) (hmatch : m.isMatch e candidate = true) :
    ∀ c ∈ components candidate.toList, isHidden o.dot c = false := by
  have haccepts := Matcher.accepts_of_isMatch hmatch
  obtain ⟨ps, members, hps, hmembers, rfl⟩ := Matcher.members_of_ok hm
  have hmember {q : Rendering × Program} (hq : q ∈ members) : q.1.negated = false ∧
      ∀ candidate, q.2.accepts candidate = true →
        ∀ c ∈ components candidate.toList, isHidden o.dot c = false := by
    obtain ⟨p, hp, hpq⟩ := mem_of_mapM_ok hmembers hq
    unfold Group.member at hpq
    cases hr : render o p with
    | error e => rw [hr] at hpq; cases hpq
    | ok r =>
      cases hc : Program.compile o p r with
      | error e => simp only [hr, bind, Except.bind, hc] at hpq; cases hpq
      | ok prog =>
        simp only [hr, bind, Except.bind, hc] at hpq
        cases hpq
        exact Program.accepts_of_covers hr hc ((hcovers ps hps p hp).elim (·.covers) id) hnocase hlead
          htrail hstar
  -- no expansion is negated, so one of them accepts the candidate
  have hany : members.any (·.2.accepts candidate) = true := by
    have htest : Group.accepts { pattern, members } candidate = true := by
      simpa [Matcher.accepts_eq, hw] using haccepts
    have hpositive : Group.isNegated { pattern, members } = false := by
      unfold Group.isNegated
      cases members with
      | nil => rfl
      | cons q qs => simp [(hmember (q := q) (by simp)).1]
    rw [Group.accepts_eq] at htest
    rwa [hpositive, if_neg (by decide)] at htest
  obtain ⟨q, hq, hqaccepts⟩ := List.any_eq_true.1 hany
  exact (hmember hq).2 candidate hqaccepts

/-- Alternatives, a guarded `*` and bracket expressions within components. -/
theorem Matcher.no_hidden_alternative :
    ∃ m, Matcher.ofPattern {} "{a,b}/*/c[d-e]?" = .ok m ∧ m.isMatch .standard "b/x/cdf" = true ∧
      (∀ c ∈ components "b/x/cdf".toList, isHidden false c = false) ∧
      m.isMatch .standard "b/.x/cdf" = false := by
  obtain ⟨m, hm, hmatch⟩ : ∃ m, Matcher.ofPattern {} "{a,b}/*/c[d-e]?" = .ok m ∧
      m.isMatch .standard "b/x/cdf" = true := exists_ok_of_any (by decide +kernel)
  have hcovers : ∀ ps, Group.expansions {} "{a,b}/*/c[d-e]?" = .ok ps → ∀ p ∈ ps,
      Outline.IsSingle false p ∨ Outline.covers false p = true := by
    have hall : ((Group.expansions {} "{a,b}/*/c[d-e]?").toOption.all fun ps =>
      ps.all (Outline.covers false)) = true := by decide +kernel
    intro ps hps p hp
    rw [hps] at hall
    exact .inr (List.all_eq_true.1 hall p hp)
  have hidden := Matcher.hidden_of_covers hm rfl rfl rfl rfl rfl hcovers .standard
  refine ⟨m, hm, hmatch, hidden _ hmatch, ?_⟩
  rw [← Bool.not_eq_true]
  intro hmatch'
  exact absurd (hidden _ hmatch') (by decide)

/-- A globstar takes a dot that follows the separator in front of it. -/
theorem Matcher.isMatch_dot_behind_separator :
    (∀ c ∈ "a/**".toList, c ≠ '.' ∧ c ≠ '|' ∧ c ≠ '\\') ∧ "a/**".toList.head? ≠ some '!' ∧
    ∃ m, Matcher.ofPattern {} "a/**" = .ok m ∧ m.isMatch .standard "a/.b" = true ∧
      ∃ c ∈ components "a/.b".toList, c.head? = some '.' := by
  refine ⟨by simp, by decide, ?_⟩
  obtain ⟨m, hm, hmatch⟩ : ∃ m, Matcher.ofPattern {} "a/**" = .ok m ∧
      m.isMatch .standard "a/.b" = true := exists_ok_of_any (by decide +kernel)
  exact ⟨m, hm, hmatch, ['.', 'b'], by decide, rfl⟩

end PathGlob
