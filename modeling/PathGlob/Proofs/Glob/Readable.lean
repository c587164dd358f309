/-
Which globs are rendered as regular expressions that can be read. Two things cannot: a bracket expression
in which a hyphen of the glob's makes a range that runs backwards, and a quantifier behind an empty group.
So a glob without hyphens can be read if none of its groups begins with what ends it or is dropped there,
no matter what it leaves open.
-/
import PathGlob.Proofs.Glob.BracketSet
import PathGlob.Proofs.Matcher.Single

namespace PathGlob

open Regex (Level Draft Quantified)

/-! ## Parts that can be read -/

/-- A group that is not empty, or a bracket expression without hyphens. -/
def Enclosed.IsReadable : Enclosed → Prop
  | group _ body _ => body ≠ []
  | bracket b _ _ => ∀ m ∈ b.members, m ≠ .char '-'

/-- A part in which what is enclosed can be read. -/
def Part.IsReadable : Part → Prop
  | glyph _ => True
  | enclosed e _ => e.IsReadable

namespace Enclosed.IsReadable

variable {e : Enclosed}

/-- What can be read has an operand, and one that a `+` may follow. -/
theorem operand? (h : e.IsReadable) (dot : Bool) :
    ∃ p, e.operand? dot = some p ∧ (Part.repeat? p).isSome = true := by
  cases e with
  | bracket b isClosed isFilled =>
    have hset := Bracket.set?_spelled isFilled (Bracket.spells_ranges h isClosed)
    exact ⟨_, by rw [Enclosed.operand?, hset]; rfl, rfl⟩
  | group g body atEnd =>
    have hne : body ≠ [] := h
    have hbody : (bodyRegex dot body).isRepeatable = true := by
      rw [isRepeatable_bodyRegex]
      simpa using hne
    have hsome : (groupOperand? g (bodyRegex dot body) atEnd).isSome = true :=
      groupOperand?_isSome hbody
    obtain ⟨p, hp⟩ := Option.isSome_iff_exists.1 hsome
    refine ⟨p, hp, ?_⟩
    unfold groupOperand? at hp
    (repeat' split at hp) <;> cases hp <;> first | rfl | simp [Part.repeat?, hbody]

end Enclosed.IsReadable

namespace Part

theorem IsReadable.take? {p : Part} (h : p.IsReadable) (dot : Bool) (l : Level) :
    ∃ l', p.take? dot l = some l' := by
  cases p with
  | glyph g => exact ⟨_, rfl⟩
  | enclosed e isRepeated =>
    obtain ⟨p, hp, hrepeat⟩ := Enclosed.IsReadable.operand? h dot
    obtain ⟨q, hq⟩ := Option.isSome_iff_exists.1 hrepeat
    cases isRepeated <;> exact ⟨_, by simp [Part.take?, operands?, hp, hq]; rfl⟩

theorem foldlM_readable {ps : List Part} (h : ∀ p ∈ ps, p.IsReadable) (dot : Bool) (l : Level) :
    ∃ l', ps.foldlM (take? dot) l = some l' := by
  induction ps generalizing l with
  | nil => exact ⟨l, rfl⟩
  | cons p ps ih =>
    obtain ⟨l₁, hl₁⟩ := (h p (by simp)).take? dot l
    obtain ⟨l', hl'⟩ := ih (fun q hq => h q (by simp [hq])) l₁
    exact ⟨l', by rw [List.foldlM_cons, hl₁]; exact hl'⟩

/-- The text of parts that can be read leads a draft on, whatever is open in it. -/
theorem read_readable {d : Dialect} (hstar : d.star = none) {ps : List Part}
    (h : ∀ p ∈ ps, p.IsReadable) (D : Draft) (cs : List Char) :
    ∃ l, D.read ((texts d ps).toList ++ cs) = Draft.read { D with inner := l } cs := by
  obtain ⟨l, hl⟩ := foldlM_readable h d.dot D.inner
  exact ⟨l, by rw [read_texts hstar, hl, Option.bind_some]⟩

end Part

/-- The source of a rendering of parts that can be read is a regular expression. -/
theorem Outline.Renders.exists_regex {d : Dialect} {o : Outline} {r : Rendering} (h : Renders d o r)
    (hstar : d.star = none) (hlead : d.lead = none) (htrail : d.trail = none)
    (hparts : ∀ p ∈ o.parts, p.IsReadable) : ∃ e, Regex.ofChars? r.source.toList = some e := by
  have hend (l : Level) :
      ∃ e, (Draft.read ⟨l, []⟩ ((Part.texts d o.parts).toList ++ ['$'])).bind Draft.finish? =
        some e := by
    obtain ⟨l', hl'⟩ := Part.read_readable hstar hparts ⟨l, []⟩ ['$']
    exact ⟨_, by rw [hl', Draft.read_stop, Draft.read_nil]; rfl⟩
  rw [Regex.ofChars?_eq_read, h.toList_source hlead htrail, Draft.read_start]
  cases hn : o.negated with
  | true =>
    have hg : o.isGuarded = false := by simp [Outline.isGuarded, hn]
    simp only [if_true, hg, Bool.false_eq_true, if_false, String.toList_empty, List.cons_append,
      List.nil_append]
    obtain ⟨l, hl⟩ := Part.read_readable hstar hparts
      ⟨{ opening := .look .notAhead },
        (Draft.empty.push .start).inner :: (Draft.empty.push .start).outer⟩
      ['$', ')', '.', '*', '$']
    rw [Draft.read_notAhead, hl, Draft.read_stop, Draft.push, Draft.read_closing, Draft.read_any,
      Draft.read_star]
    simp only [Draft.push, Level.repeated?_push, Regex.isRepeatable, Option.all_none, Bool.and_self,
      if_true, Option.bind_some, Draft.read_stop, Draft.read_nil]
    exact ⟨_, rfl⟩
  | false =>
    simp only [Bool.false_eq_true, if_false, List.nil_append]
    cases o.isGuarded with
    | false => exact hend _
    | true =>
      rw [if_pos rfl, Fragment.read_dotGuard]
      exact hend _

/-! ## Outlines that can be read -/

namespace Outline

/-- All that has been closed can be read, and no hyphen is in the bracket expression that is open. -/
structure Readable (o : Outline) : Prop where
  parts : ∀ p ∈ o.parts, p.IsReadable
  closed : ∀ e, o.closed = some e → o.opened = .nothing ∧ e.IsReadable
  members : ∀ b, o.opened = .bracket b → ∀ m ∈ b.members, m ≠ .char '-'

namespace Readable

variable {o : Outline} {c : Char}

theorem move (h : Readable o) (cursor : Cursor) : Readable { o with cursor } :=
  ⟨h.parts, h.closed, h.members⟩

theorem put (h : Readable o) (g : Glyph) : Readable (o.put g) := by
  cases ho : o.opened with
  | group e body =>
    rw [put_inside ho]
    refine ⟨h.parts, fun e' he' => ?_, nofun⟩
    have hnothing := (h.closed e' he').1
    rw [ho] at hnothing
    cases hnothing
  | _ =>
    rw [put_outside (by rw [ho]; rfl)]
    refine ⟨fun p hp => ?_, h.closed, h.members⟩
    rcases List.mem_append.1 hp with hp | hp
    · exact h.parts p hp
    · rw [List.mem_singleton.1 hp]
      trivial

theorem settle (h : Readable o) (b : Bool) : Readable (o.settle b) where
  parts p hp := by
    rcases List.mem_append.1 hp with hp | hp
    · exact h.parts p hp
    · simp only [Option.mem_toList, Option.map_eq_some_iff] at hp
      obtain ⟨e, he, rfl⟩ := hp
      exact (h.closed e he).2
  closed := nofun
  members := h.members

theorem mark (h : Readable o) (f : Component → Component) : Readable (o.mark f) :=
  ⟨h.parts, h.closed, h.members⟩

theorem member (h : Readable o) {b : Bracket} (ho : o.opened = .bracket b) {m : Member}
    (hm : m ≠ .char '-') : Readable (o.member b m) where
  parts := h.parts
  closed e he := by
    have hnothing := (h.closed e he).1
    rw [ho] at hnothing
    cases hnothing
  members b' hb' m' hm' := by
    cases hb'
    rcases List.mem_append.1 hm' with hm' | hm'
    · exact h.members b ho m' hm'
    · rwa [List.mem_singleton.1 hm']

theorem stepBracket (h : Readable o) {b : Bracket} (ho : o.opened = .bracket b) (hc : c ≠ '-')
    (hrest : '-' ∉ o.cursor.rest) : Readable (o.stepBracket b c) := by
  have hchar {x : Char} (hx : x ≠ '-') : Member.char x ≠ .char '-' :=
    fun heq => hx (Member.char.inj heq)
  have hclosed : o.closed = none := by
    rw [← Option.not_isSome_iff_eq_none, Option.isSome_iff_exists]
    rintro ⟨e, he⟩
    have hnothing := (h.closed e he).1
    rw [ho] at hnothing
    cases hnothing
  unfold Outline.stepBracket
  split
  · refine ⟨h.parts, fun e he => ?_, fun b' hb' => ?_⟩
    · cases hclosed.symm.trans he
    · cases hb'
      exact h.members b ho
  · split
    · split
      · exact h.member ho (hchar (by decide))
      · refine ⟨h.parts, fun e he => ?_, fun b' hb' => by cases hb'⟩
        cases he
        exact ⟨rfl, h.members b ho⟩
    · split
      · split
        · rename_i e cursor hnext
          refine (h.move cursor).member ho (hchar ?_)
          rintro rfl
          exact hrest (by rw [Cursor.next?_rest hnext]; exact List.mem_cons_self)
        · exact h.member ho (hchar (by decide))
      · split
        · split
          · rename_i n hn
            have hnamed : Member.named n (PosixClass.at?_isNamed hn) ≠ .char '-' := by
              intro heq
              cases heq
            exact (h.move (o.cursor.skip n.text.length.pred)).member ho hnamed
          · exact h.member ho (hchar hc)
        · exact h.member ho (hchar hc)

theorem openAt (h : Readable o) (hclosed : o.closed = none) (k : Delimiter) (c : Char) :
    Readable (o.openAt k c) := by
  have hno (e : Enclosed) (he : o.closed = some e) : False := by
    rw [hclosed] at he
    cases he
  have hpair (k : Delimiter) : Readable (Outline.literal { o with opened := .pair k } c) := by
    have hopen : Readable { o with opened := .pair k } :=
      ⟨h.parts, fun e he => (hno e he).elim, fun b hb => by cases hb⟩
    exact hopen.put _
  unfold Outline.openAt
  split
  · cases k with
    | paren => exact ⟨h.parts, fun e he => (hno e he).elim, nofun⟩
    | bracket =>
      refine ⟨h.parts, fun e he => (hno e he).elim, fun b hb => ?_⟩
      cases hb
      nofun
    | angle => exact hpair .angle
    | brace => exact hpair .brace
    | quote => exact hpair .quote
  · exact h.put _

theorem closeAt (h : Readable o) {k : Delimiter} (hbody : ∀ g, o.opened = .group g [] → k ≠ .paren)
    {o' : Outline} (ho' : o.closeAt k c = .ok o') : Readable o' := by
  unfold Outline.closeAt at ho'
  split at ho' <;> cases ho'
  · rename_i g body ho
    split
    · rename_i hk
      refine ⟨h.parts, fun e he => ?_, nofun⟩
      cases he
      refine ⟨rfl, ?_⟩
      rintro rfl
      exact hbody g ho hk
    · exact h.put _
  · rename_i l ho
    split
    · have hopen : Readable { o with opened := .nothing } :=
        ⟨h.parts, fun e he => ⟨rfl, (h.closed e he).2⟩, fun b hb => by cases hb⟩
      exact hopen.put _
    · exact h.put _
  · exact h.put _

theorem plain (h : Readable o) (c : Char) : Readable (o.plain c) := by
  have hs := h.settle false
  unfold Outline.plain
  split
  case h_1 =>
    split
    · exact h.settle true
    · exact h.put _
  case h_2 =>
    unfold Outline.escape
    split
    · exact (hs.move _).put _
    · exact hs.put _
  case h_3 =>
    have hbegun : Readable { o.settle with
        trail := o.settle.trail.begin o.settle.trail.current.globstar } :=
      ⟨hs.parts, hs.closed, hs.members⟩
    exact hbegun.put _
  case h_4 =>
    unfold Outline.literalDot
    split
    · have hdot : Readable { o.settle.mark fun c => { c with dot := true } with dot := true } :=
        ⟨hs.parts, hs.closed, hs.members⟩
      exact hdot.put _
    · exact hs.put _
  case h_5 =>
    split
    · exact ⟨hs.parts, hs.closed, hs.members⟩
    · exact hs.put _
  case h_6 =>
    unfold Outline.star
    split
    · have hglobstar := (hs.mark fun c => { c with globstar := true }).put (.globstar o.settle.dot)
      exact ⟨hglobstar.parts, hglobstar.closed, hglobstar.members⟩
    · exact hs.put _
  case h_7 =>
    unfold Outline.qmark
    split
    · exact hs
    · exact hs.put _
  case h_8 =>
    unfold Outline.colon
    split
    · exact hs.mark _
    · exact hs.put _
  case h_9 => exact hs.put _

/-- A step that reads no hyphen and ends no empty group. -/
theorem step (h : Readable o) (hc : c ≠ '-') (hrest : '-' ∉ o.cursor.rest)
    (hbody : ∀ g, o.opened = .group g [] → c ≠ ')') {o' : Outline} (ho' : o.step c = .ok o') :
    Readable o' := by
  have hs := h.settle false
  unfold Outline.step at ho'
  split at ho'
  · rename_i b ho
    cases ho'
    exact h.stepBracket ho hc hrest
  · split at ho'
    · cases ho'
      exact ⟨hs.parts, hs.closed, hs.members⟩
    · split at ho'
      · cases ho'
        exact hs.openAt rfl _ _
      · split at ho'
        · rename_i k hk
          refine hs.closeAt (fun g hg hparen => hbody g hg ?_) ho'
          rw [hparen] at hk
          exact (Delimiter.ofCloser?_closer hk).symm
        · cases ho'
          exact h.plain c

theorem finish (h : Readable o) (hbody : ∀ g, o.opened ≠ .group g []) : Readable o.finish := by
  have hs := h.settle false
  unfold Outline.finish
  apply settle
  cases ho : o.opened with
  | nothing => exact h
  | group g body =>
    refine ⟨hs.parts, fun e he => ?_, nofun⟩
    cases he
    refine ⟨rfl, ?_⟩
    rintro rfl
    exact hbody g ho
  | pair k => exact ⟨h.parts, fun e he => ⟨rfl, (h.closed e he).2⟩, nofun⟩
  | bracket b =>
    refine ⟨hs.parts, fun e he => ?_, nofun⟩
    cases he
    exact ⟨rfl, h.members b ho⟩

end Readable

/-! ## Empty groups -/

theorem opened_put_ne (o : Outline) (x : Glyph) (g : Option ExtGlob) :
    (o.put x).opened ≠ .group g [] := by
  cases ho : o.opened with
  | group e body =>
    rw [put_inside ho]
    intro h
    cases body <;> cases h
  | _ =>
    rw [put_outside (by rw [ho]; rfl), ho]
    nofun

theorem opened_openAt {o : Outline} {k : Delimiter} {c : Char} {g : Option ExtGlob}
    (h : (o.openAt k c).opened = .group g []) : k = .paren := by
  unfold openAt at h
  split at h
  · cases k with
    | paren => rfl
    | bracket => cases h
    | angle | brace | quote => exact (opened_put_ne _ _ _ h).elim
  · exact absurd h (opened_put_ne _ _ _)

theorem opened_closeAt_ne {o o' : Outline} {k : Delimiter} {c : Char} (h : o.closeAt k c = .ok o')
    (g : Option ExtGlob) : o'.opened ≠ .group g [] := by
  unfold closeAt at h
  split at h <;> cases h
  · split
    · exact nofun
    · exact opened_put_ne _ _ _
  · split <;> exact opened_put_ne _ _ _
  · exact opened_put_ne _ _ _

theorem opened_stepBracket_ne (o : Outline) (b : Bracket) (c : Char) (g : Option ExtGlob) :
    (o.stepBracket b c).opened ≠ .group g [] := by
  unfold stepBracket
  intro h
  (repeat' split at h) <;> cases h

/-- The characters that an empty group drops. -/
theorem opened_plain {o : Outline} {c : Char} {g : Option ExtGlob}
    (h : (o.plain c).opened = .group g []) :
    o.opened = .group g [] ∧
      (c = '?' ∨ c = ':' ∨ c = '+' ∧ o.closed.isSome = true ∨ c = '!' ∧ o.cursor.isFirst = true) := by
  unfold plain escape literalDot star qmark colon at h
  have hput {o' : Outline} {x : Glyph} (h : (o'.put x).opened = .group g []) : False :=
    opened_put_ne o' x g h
  (repeat' split at h) <;> first | exact (hput h).elim | simp_all [settle, mark]

/-- A group is empty behind its parenthesis, and behind the characters that it drops. -/
theorem step_opened {o o' : Outline} {c : Char} {g : Option ExtGlob} (h : o.step c = .ok o')
    (hg : o'.opened = .group g []) :
    c = '(' ∧ o'.cursor = o.cursor ∨ o.opened = .group g [] ∧
      (c = '?' ∨ c = ':' ∨ c = '+' ∧ o.closed.isSome = true ∨ c = '!' ∧ o.cursor.isFirst = true) := by
  unfold step at h
  split at h
  · cases h
    exact absurd hg (opened_stepBracket_ne _ _ _ _)
  · split at h
    · rename_i e he
      cases h
      have hnothing : o.opened.isNothing = true := by
        unfold announced? at he
        split at he
        · rename_i hif
          exact (Bool.and_eq_true_iff.1 hif).1
        · cases he
      rw [show o.opened = .group g [] from hg] at hnothing
      cases hnothing
    · split at h
      · rename_i k hk
        cases h
        obtain rfl := opened_openAt hg
        exact .inl ⟨(Delimiter.ofOpener?_opener hk).symm, cursor_openAt ..⟩
      · split at h
        · exact absurd hg (opened_closeAt_ne h g)
        · cases h
          exact .inr (opened_plain hg)

end Outline

/-! ## Globs that can be read -/

/-- The text of a glob without hyphens, in which no parenthesis is opened at the end or before what ends
an empty group or is dropped in it. -/
structure IsReadableGlob (cs : List Char) : Prop where
  hyphen : '-' ∉ cs
  ends : ¬ ['('] <:+ cs
  begins : ∀ c ∈ [')', '?', ':'], ¬ ['(', c] <:+: cs

theorem IsReadableGlob.relative {cs : List Char} (h : IsReadableGlob cs) :
    IsReadableGlob (Cursor.relative cs) := by
  have hsuffix := Cursor.suffix_relative cs
  exact ⟨fun hm => h.hyphen (hsuffix.subset hm), fun he => h.ends (he.trans hsuffix),
    fun c hc hi => h.begins c hc (hi.trans hsuffix.isInfix)⟩

namespace Outline

/-- An outline on the way through a glob, in which every empty group is about to get a sign. -/
structure Reads (cs : List Char) (o : Outline) : Prop where
  readable : Readable o
  rest : o.cursor.rest <:+ cs
  begins : ∀ g, o.opened = .group g [] →
    o.cursor.behind ≠ [] ∧ ∃ x xs, o.cursor.rest = x :: xs ∧ x ∉ [')', '?', ':']

theorem Reads.step {cs : List Char} (hcs : IsReadableGlob cs) {o o' : Outline} {b rest : List Char}
    {c : Char} (h : Reads cs o) (hcursor : o.cursor = ⟨b, c :: rest⟩)
    (hstep : Outline.step { o with cursor := ⟨c :: b, rest⟩ } c = .ok o') : Reads cs o' := by
  have hsuffix : c :: rest <:+ cs := by simpa [hcursor] using h.rest
  have hbegins (g : Option ExtGlob) (hg : o.opened = .group g []) : b ≠ [] ∧ c ∉ [')', '?', ':'] := by
    obtain ⟨hb, x, xs, hx, hno⟩ := h.begins g hg
    rw [hcursor] at hb hx
    cases hx
    exact ⟨hb, hno⟩
  have hnohyphen : '-' ∉ c :: rest := fun hm => hcs.hyphen (hsuffix.subset hm)
  rw [List.mem_cons, not_or] at hnohyphen
  refine ⟨(h.readable.move ⟨c :: b, rest⟩).step (Ne.symm hnohyphen.1) hnohyphen.2 ?_ hstep, ?_, ?_⟩
  · rintro g hg rfl
    exact (hbegins g hg).2 (by decide)
  · exact (suffix_step hstep).trans ((List.suffix_cons c rest).trans hsuffix)
  · intro g hg
    rcases step_opened hstep hg with ⟨rfl, hc'⟩ | ⟨hempty, hdropped⟩
    · rw [hc']
      refine ⟨List.cons_ne_nil _ _, ?_⟩
      cases rest with
      | nil => exact absurd hsuffix hcs.ends
      | cons x xs =>
        refine ⟨x, xs, rfl, fun hx => hcs.begins x hx ?_⟩
        exact List.IsInfix.trans ⟨[], xs, rfl⟩ hsuffix.isInfix
    · -- behind its parenthesis the group was empty, and no such character follows there
      obtain ⟨hb, hno⟩ := hbegins g hempty
      exfalso
      rcases hdropped with rfl | rfl | ⟨-, hclosed⟩ | ⟨-, hfirst⟩
      · exact hno (by decide)
      · exact hno (by decide)
      · obtain ⟨e, he⟩ := Option.isSome_iff_exists.1 hclosed
        have hnothing : o.opened = .nothing := (h.readable.closed e he).1
        have hgroup : o.opened = .group g [] := hempty
        cases hnothing.symm.trans hgroup
      · have hlength : (c :: b).length = 1 := of_decide_eq_true hfirst
        exact hb (List.eq_nil_of_length_eq_zero (Nat.succ.inj hlength))

/-- All the parts of a glob that can be read can be read. -/
theorem ofPattern_readable {pattern : String} (hp : IsReadableGlob pattern.toList) {o : Outline}
    {openers : List Char} (h : ofPattern pattern = .ok (o, openers)) : Readable o := by
  unfold ofPattern at h
  cases hrun : run { cursor := .ofPattern pattern } with
  | error e =>
    rw [hrun] at h
    cases h
  | ok o' =>
    rw [hrun] at h
    cases h
    have hstart : Reads (Cursor.relative pattern.toList) { cursor := .ofPattern pattern } :=
      ⟨⟨nofun, nofun, nofun⟩, List.suffix_rfl, nofun⟩
    obtain ⟨hreads, hrest⟩ := run_preserves
      (fun o b c rest o' h hcursor hstep => h.step hp.relative hcursor hstep) hstart hrun
    refine hreads.readable.finish fun g hg => ?_
    obtain ⟨-, x, xs, hx, -⟩ := hreads.begins g hg
    cases hrest.symm.trans hx

end Outline

/-! ## The rendering -/

section Rendering

variable {o : Options} {pattern : String}

/-- The source of a glob that can be read is a regular expression. -/
theorem Rendering.exists_regex {r : Rendering} (hp : IsReadableGlob pattern.toList)
    (hlead : o.lead = none) (htrail : o.trail = none) (hstar : o.star = none)
    (hr : Rendering.ofPattern o.dialect pattern = .ok r) :
    ∃ regex, Regex.ofChars? r.source.toList = some regex := by
  have hfollows := Outline.ofPattern_follows o.dialect pattern
  cases ho : Outline.ofPattern pattern with
  | error e =>
    rw [ho] at hfollows
    cases hr.symm.trans hfollows
  | ok p =>
    obtain ⟨out, openers⟩ := p
    obtain ⟨hrenders, -⟩ := Outline.renders_of_ok hr ho
    exact hrenders.exists_regex hstar hlead htrail (Outline.ofPattern_readable hp ho).parts

theorem render_ne_wrong : render o pattern ≠ .error .wrongRegularExpression := by
  unfold render
  intro h
  (repeat' split at h) <;> cases h

end Rendering

/-- The source of a glob is a regular expression, whether or not letter case is ignored and whatever the
glob leaves open, and to make one never fails for the want of it. -/
theorem CompiledRegex.ofRendering_readable {o : Options} {pattern : String}
    (hp : IsReadableGlob pattern.toList) (hlead : o.lead = none) (htrail : o.trail = none)
    (hstar : o.star = none) :
    (∀ r, Rendering.ofPattern o.dialect pattern = .ok r → ∀ nocase,
      ∃ c, ofRendering { o with nocase } r = .ok c ∧ c.source = r.source ∧ c.nocase = nocase) ∧
    makeRegex o pattern ≠ .error .wrongRegularExpression := by
  have hread (o' : Options) {r : Rendering} (hr : Rendering.ofPattern o.dialect pattern = .ok r) :
      ∃ c, ofRendering o' r = .ok c ∧ c.source = r.source ∧ c.nocase = o'.nocase := by
    obtain ⟨regex, hregex⟩ := Rendering.exists_regex hp hlead htrail hstar hr
    refine ⟨⟨r.source, o'.nocase, regex⟩, ?_, rfl, rfl⟩
    unfold ofRendering
    rw [hregex]
  refine ⟨fun r hr nocase => hread { o with nocase } hr, fun hwrong => ?_⟩
  unfold makeRegex checkLength at hwrong
  split at hwrong
  · cases hr : render o pattern with
    | error e =>
      rw [hr] at hwrong
      have he : Except.error e = (.error .wrongRegularExpression : Except Failure CompiledRegex) := hwrong
      cases he
      exact render_ne_wrong hr
    | ok r =>
      rw [hr] at hwrong
      obtain ⟨c, hc, -⟩ := hread o (render_ok_iff.1 hr).1
      cases hc.symm.trans hwrong
  · cases hwrong

/-- A glob that leaves a group open, with a `[` in it, behind a bracket expression. -/
theorem CompiledRegex.ofRendering_open_group : (∃ r c,
    Rendering.ofPattern ({} : Options).dialect "[!)]*(a|[b" = .ok r ∧ r.unclosed = ['('] ∧
      ofRendering { nocase := true } r = .ok c) ∧
    makeRegex { nocase := true } "[!)]*(a|[b" ≠ .error .wrongRegularExpression := by
  have htext : "[!)]*(a|[b".toList = ['[', '!', ')', ']', '*', '(', 'a', '|', '[', 'b'] := by
    decide +kernel
  have hp : IsReadableGlob "[!)]*(a|[b".toList := by
    rw [htext]
    exact ⟨by decide, by decide, by simp [List.infix_cons_iff]⟩
  have hunclosed : ((Rendering.ofPattern ({} : Options).dialect "[!)]*(a|[b").toOption.map
      (·.unclosed)) = some ['('] := by decide +kernel
  cases hr : Rendering.ofPattern ({} : Options).dialect "[!)]*(a|[b" with
  | error e =>
    rw [hr] at hunclosed
    cases hunclosed
  | ok r =>
    rw [hr] at hunclosed
    obtain ⟨hread, hmake⟩ := ofRendering_readable (o := { nocase := true }) hp rfl rfl rfl
    obtain ⟨c, hc, -⟩ := hread r hr true
    exact ⟨⟨r, c, rfl, Option.some.inj hunclosed, hc⟩, hmake⟩

end PathGlob
