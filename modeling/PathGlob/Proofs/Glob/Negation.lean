/-
A glob behind a sign of negation. The glob is read in lock step with and without a `!` in front, and
its parts come out the same: the sign is seen only where a dot begins the glob, for that begins a
component only if nothing stands before it. Globstars may then differ in the dots they allow.
-/
import PathGlob.Proofs.Glob.Meaning

namespace PathGlob

/-! ## Parts up to the dots of globstars -/

/-- Changes what a globstar says of dots. -/
def Glyph.mapDots (f : Bool → Bool) : Glyph → Glyph
  | globstar dots => globstar (f dots)
  | g => g

namespace Enclosed

/-- Changes what the globstars of a group say of dots. -/
def mapDots (f : Bool → Bool) : Enclosed → Enclosed
  | group g body atEnd => group g (body.map (·.mapDots f)) atEnd
  | e => e

end Enclosed

namespace Part

/-- Changes what the globstars of a part say of dots. -/
def mapDots (f : Bool → Bool) : Part → Part
  | glyph g => glyph (g.mapDots f)
  | enclosed e isRepeated => enclosed (e.mapDots f) isRepeated

theorem mapDots_id (p : Part) : p.mapDots id = p := by
  have hglyph (g : Glyph) : g.mapDots id = g := by cases g <;> rfl
  cases p with
  | glyph g => exact congrArg glyph (hglyph g)
  | enclosed e isRepeated =>
    cases e with
    | group g body atEnd => simp [mapDots, Enclosed.mapDots, hglyph]
    | bracket => rfl

theorem isBar_mapDots (f : Bool → Bool) (p : Part) : (p.mapDots f).isBar = p.isBar := by
  cases p with
  | glyph g => cases g <;> rfl
  | enclosed => rfl

theorem mapDots_eq_char {f : Bool → Bool} {p : Part} {c : Char}
    (h : p.mapDots f = .glyph (.char c)) : p = .glyph (.char c) := by
  cases p with
  | glyph g => cases g <;> first | exact h | cases h
  | enclosed => cases h

end Part

/-- Changes what the globstars of an open group say of dots. -/
def Opened.mapDots (f : Bool → Bool) : Opened → Opened
  | group g body => group g (body.map (·.mapDots f))
  | o => o

/-! ## Positions behind a sign -/

namespace Cursor

/-- The same position with a `!` in front of the pattern. -/
def shifted (c : Cursor) : Cursor := ⟨c.behind ++ ['!'], c.rest⟩

theorem next?_shifted (c : Cursor) :
    c.shifted.next? = c.next?.map fun (x, c') => (x, c'.shifted) := by
  obtain ⟨b, _ | ⟨x, xs⟩⟩ := c <;> rfl

theorem skip_shifted (c : Cursor) (n : Nat) : c.shifted.skip n = (c.skip n).shifted := by
  simp [shifted, skip]

theorem getElem?_shifted {c : Cursor} {x : Char} (hx : x ≠ '!') (n : Nat) :
    c.shifted.behind[n]? = some x ↔ c.behind[n]? = some x := by
  unfold shifted
  rw [List.getElem?_append]
  split
  · rfl
  · rename_i hn
    rw [List.getElem?_eq_none (Nat.le_of_not_lt hn)]
    cases n - c.behind.length <;> simp [Ne.symm hx]

/-- What stands before the current character is the same, if anything but the sign does. -/
theorem last_shifted {c : Cursor} (h : c.isFirst = false) (hb : c.behind ≠ []) :
    c.shifted.last = c.last := by
  obtain ⟨_ | ⟨x, _ | ⟨y, b⟩⟩, rest⟩ := c
  · exact absurd rfl hb
  · cases h
  · rfl

end Cursor

/-! ## Lock step -/

namespace Outline

/-- The parts of a glob without angles and braces, and those of its negation: they are the same up to
the dots that globstars allow, and the same altogether unless the glob begins with a dot. -/
structure Negates (f : Bool → Bool) (o n : Outline) : Prop where
  parts : n.parts.map (·.mapDots f) = o.parts.map (·.mapDots f)
  dotted : f = id ∨ o.parts.head? = some (.glyph (.char '.'))
  barless : ∀ p ∈ o.parts, p.isBar = false
  positive : o.negated = false
  negative : n.negated = true

/-- The outlines of a glob without angles and braces and of its negation, at the same place in
them. -/
structure Twin (f : Bool → Bool) (o n : Outline) : Prop extends Negates f o n where
  cursor : n.cursor = o.cursor.shifted
  begun : o.cursor.behind ≠ []
  opened : n.opened.mapDots f = o.opened.mapDots f
  announced : n.announced = o.announced
  closed : n.closed.map (·.mapDots f) = o.closed.map (·.mapDots f)
  origin : n.trail.current.origin = o.trail.current.origin
  globstar : n.trail.current.globstar = o.trail.current.globstar
  dot : f n.dot = f o.dot
  unpaired : ∀ k, o.opened ≠ .pair k
  unclosing : ∀ c ∈ o.cursor.rest, c ≠ '<' ∧ c ≠ '\x7b'

namespace Twin

variable {f : Bool → Bool} {o n : Outline}

/-- The same is open in both. -/
theorem opened_cases (h : Twin f o n) :
    o.opened = .nothing ∧ n.opened = .nothing ∨
    (∃ g body body', o.opened = .group g body ∧ n.opened = .group g body' ∧
      body'.map (·.mapDots f) = body.map (·.mapDots f)) ∨
    ∃ b, o.opened = .bracket b ∧ n.opened = .bracket b := by
  have hopened := h.opened
  cases ho : o.opened with
  | nothing =>
    rw [ho] at hopened
    cases hn : n.opened with
    | nothing => exact .inl ⟨rfl, rfl⟩
    | _ => rw [hn] at hopened; cases hopened
  | group g body =>
    rw [ho] at hopened
    cases hn : n.opened with
    | group g' body' =>
      rw [hn] at hopened
      simp only [Opened.mapDots, Opened.group.injEq] at hopened
      obtain ⟨rfl, hbody⟩ := hopened
      exact .inr (.inl ⟨_, _, _, rfl, rfl, hbody⟩)
    | _ => rw [hn] at hopened; cases hopened
  | pair k => exact absurd ho (h.unpaired k)
  | bracket b =>
    rw [ho] at hopened
    cases hn : n.opened with
    | bracket b' => rw [hn] at hopened; cases hopened; exact .inr (.inr ⟨_, rfl, rfl⟩)
    | _ => rw [hn] at hopened; cases hopened

theorem isNothing_eq (h : Twin f o n) : n.opened.isNothing = o.opened.isNothing := by
  rcases h.opened_cases with ⟨ho, hn⟩ | ⟨g, body, body', ho, hn, -⟩ | ⟨b, ho, hn⟩ <;>
    simp [ho, hn, Opened.isNothing]

theorem isGroup_eq (h : Twin f o n) : n.opened.isGroup = o.opened.isGroup := by
  rcases h.opened_cases with ⟨ho, hn⟩ | ⟨g, body, body', ho, hn, -⟩ | ⟨b, ho, hn⟩ <;>
    simp [ho, hn, Opened.isGroup]

theorem isBracket_eq (h : Twin f o n) : n.opened.isBracket = o.opened.isBracket := by
  rcases h.opened_cases with ⟨ho, hn⟩ | ⟨g, body, body', ho, hn, -⟩ | ⟨b, ho, hn⟩ <;>
    simp [ho, hn, Opened.isBracket]

/-- Further parts keep the first one and are no bars. -/
theorem add_parts (h : Twin f o n) (ps qs : List Part)
    (hparts : qs.map (·.mapDots f) = ps.map (·.mapDots f)) (hbar : ∀ p ∈ ps, p.isBar = false) :
    Twin f { o with parts := o.parts ++ ps } { n with parts := n.parts ++ qs } :=
  { h with
    parts := by rw [List.map_append, List.map_append, h.parts, hparts]
    dotted := h.dotted.imp_right fun hd => by rw [List.head?_append, hd]; rfl
    barless := fun p hp => (List.mem_append.1 hp).elim (h.barless p) (hbar p) }

theorem put (h : Twin f o n) {g g' : Glyph} (hg : g'.mapDots f = g.mapDots f)
    (hbar : o.opened.isGroup = false → g ≠ .bar) : Twin f (o.put g) (n.put g') := by
  rcases h.opened_cases with ⟨ho, hn⟩ | ⟨e, body, body', ho, hn, hbody⟩ | ⟨b, ho, hn⟩
  case inr.inl =>
    rw [put_inside ho, put_inside hn]
    exact { h with
      opened := by simp [Opened.mapDots, hbody, hg]
      unpaired := by simp }
  all_goals
    have hno : o.opened.isGroup = false := by rw [ho]; rfl
    rw [put_outside hno, put_outside (by rw [hn]; rfl)]
    exact h.add_parts [.glyph g] [.glyph g'] (by simp [Part.mapDots, hg])
      (by simpa [Part.isBar] using hbar hno)

theorem settle (h : Twin f o n) (b : Bool) : Twin f (o.settle b) (n.settle b) := by
  have hclosed := h.closed
  refine { h.add_parts (o.closed.map (Part.enclosed · b)).toList
    (n.closed.map (Part.enclosed · b)).toList ?_ ?_ with closed := rfl }
  · cases ho : o.closed <;> cases hn : n.closed <;> rw [ho, hn] at hclosed <;>
      simp_all [Part.mapDots]
  · cases o.closed <;> simp [Part.isBar]

theorem literal (h : Twin f o n) (hb : o.opened.isBracket = false) (c : Char) :
    Twin f (o.literal c) (n.literal c) := by
  unfold Outline.literal
  rw [h.isNothing_eq]
  refine h.put rfl fun hno => ?_
  rcases h.opened_cases with ⟨ho, -⟩ | ⟨_, _, _, ho, -⟩ | ⟨_, ho, -⟩
  · rw [ho]
    simp [Opened.isNothing]
  · rw [ho] at hno
    cases hno
  · rw [ho] at hb
    cases hb

theorem mark (h : Twin f o n) (change : Component → Component)
    (horigin : ∀ c, (change c).origin = c.origin)
    (hglobstar : ∀ c c', c.globstar = c'.globstar → (change c).globstar = (change c').globstar) :
    Twin f (o.mark change) (n.mark change) :=
  { h with
    origin := (horigin _).trans (h.origin.trans (horigin _).symm)
    globstar := hglobstar _ _ h.globstar }

theorem openAt (h : Twin f o n) (hb : o.opened.isBracket = false) {k : Delimiter} {c : Char}
    (hk : Delimiter.ofOpener? c = some k) (hc : c ≠ '<' ∧ c ≠ '\x7b') :
    Twin f (o.openAt k c) (n.openAt k c) := by
  have hclosing : k = .paren ∨ k = .bracket := by
    unfold Delimiter.ofOpener? at hk
    split at hk <;> cases hk <;> simp_all
  unfold Outline.openAt
  rcases h.opened_cases with ⟨ho, hn⟩ | ⟨e, body, body', ho, hn, -⟩ | ⟨b, ho, hn⟩
  · simp only [ho, hn]
    rcases hclosing with rfl | rfl
    · exact { h with
        opened := by rw [h.announced]
        announced := rfl
        unpaired := by simp }
    · exact { h with
        opened := rfl
        unpaired := by simp }
  · simp only [ho, hn]
    exact h.literal hb c
  · rw [ho] at hb
    cases hb

theorem closeGroup (h : Twin f o n) (g : Option ExtGlob) {body body' : List Glyph}
    (hbody : body'.map (·.mapDots f) = body.map (·.mapDots f)) :
    Twin f (o.closeGroup g body) (n.closeGroup g body') := by
  have hend : n.cursor.atEnd = o.cursor.atEnd := by rw [h.cursor]; rfl
  unfold Outline.closeGroup
  have hclosed : Twin f
      { o with opened := .nothing, closed := some (.group g body o.cursor.atEnd) }
      { n with opened := .nothing, closed := some (.group g body' n.cursor.atEnd) } :=
    { h with
      opened := rfl
      closed := by simp [Enclosed.mapDots, hbody, hend]
      unpaired := by simp }
  refine hclosed.mark _ (fun c => ?_) fun c c' hcc' => ?_
  · split <;> rfl
  · split <;> exact hcc'

end Twin

/-- Two steps, or two runs, that end in twins or with the same error. -/
def Twins (f : Bool → Bool) : Except MissingOpening Outline → Except MissingOpening Outline → Prop
  | .ok o, .ok n => Twin f o n
  | .error e, .error e' => e = e'
  | _, _ => False

/-- What follows a step in both. -/
theorem Twins.bind {f : Bool → Bool} {ro rn : Except MissingOpening Outline} (h : Twins f ro rn)
    {g : Outline → Except MissingOpening Outline}
    (hg : ∀ o n, ro = .ok o → Twin f o n → Twins f (g o) (g n)) : Twins f (ro.bind g) (rn.bind g) := by
  cases ro with
  | error e =>
    cases rn with
    | error e' => exact h
    | ok n => cases h
  | ok o =>
    cases rn with
    | error e => cases h
    | ok n => exact hg o n rfl h

namespace Twin

variable {f : Bool → Bool} {o n : Outline}

theorem closeAt (h : Twin f o n) (hb : o.opened.isBracket = false) (k : Delimiter) (c : Char) :
    Twins f (o.closeAt k c) (n.closeAt k c) := by
  unfold Outline.closeAt
  rcases h.opened_cases with ⟨ho, hn⟩ | ⟨e, body, body', ho, hn, hbody⟩ | ⟨b, ho, hn⟩
  · rw [ho, hn]
    rfl
  · simp only [ho, hn]
    split
    · exact h.closeGroup e hbody
    · exact h.literal hb c
  · rw [ho] at hb
    cases hb

/-- The next character is the same. -/
theorem next? (h : Twin f o n) : n.cursor.next? = o.cursor.next?.map fun (x, c) => (x, c.shifted) := by
  rw [h.cursor, Cursor.next?_shifted]

/-- Reading on in both. -/
theorem move (h : Twin f o n) {c : Cursor} (hb : c.behind ≠ []) (hr : ∀ x ∈ c.rest, x ∈ o.cursor.rest) :
    Twin f { o with cursor := c } { n with cursor := c.shifted } :=
  { h with
    cursor := rfl
    begun := hb
    unclosing := fun x hx => h.unclosing x (hr x hx) }

theorem move_next (h : Twin f o n) {x : Char} {c : Cursor} (hc : o.cursor.next? = some (x, c)) :
    Twin f { o with cursor := c } { n with cursor := c.shifted } := by
  refine h.move ?_ fun y hy => ?_
  · unfold Cursor.next? at hc
    split at hc <;> cases hc
    simp
  · rw [Cursor.next?_rest hc]
    simp [hy]

theorem move_skip (h : Twin f o n) (m : Nat) :
    Twin f { o with cursor := o.cursor.skip m } { n with cursor := n.cursor.skip m } := by
  rw [h.cursor, Cursor.skip_shifted]
  refine h.move ?_ fun x hx => List.mem_of_mem_drop hx
  unfold Cursor.skip
  simp [h.begun]

theorem member (h : Twin f o n) (b : Bracket) (m : Member) : Twin f (o.member b m) (n.member b m) :=
  { h with
    opened := rfl
    unpaired := by simp [Outline.member] }

theorem stepBracket (h : Twin f o n) (b : Bracket) (c : Char) :
    Twin f (o.stepBracket b c) (n.stepBracket b c) := by
  unfold Outline.stepBracket
  split
  · exact { h with opened := rfl, unpaired := by simp }
  · split
    · split
      · exact h.member b _
      · exact { h with
          opened := rfl
          closed := rfl
          unpaired := by simp [Outline.closeBracket] }
    · split
      · rw [h.next?]
        cases hc : o.cursor.next? with
        | none => exact h.member b _
        | some p =>
          obtain ⟨x, c⟩ := p
          exact (h.move_next hc).member b _
      · split
        · -- what is ahead is the same in both
          have hat : PosixClass.at? n.cursor = PosixClass.at? o.cursor := by rw [h.cursor]; rfl
          split
          · rename_i m hm
            split
            · rename_i m' hm'
              obtain rfl : m' = m := Option.some.inj (hm'.symm.trans (hat.trans hm))
              exact (h.move_skip _).member b _
            · rename_i hm'
              rw [← hat, hm'] at hm
              cases hm
          · rename_i hm
            split
            · rename_i m' hm'
              rw [← hat, hm'] at hm
              cases hm
            · exact h.member b _
        · exact h.member b _

theorem escape (h : Twin f o n) : Twin f o.escape n.escape := by
  unfold Outline.escape
  rw [h.next?]
  cases hc : o.cursor.next? with
  | none => exact h.put rfl (by simp)
  | some p =>
    obtain ⟨x, c⟩ := p
    exact (h.move_next hc).put rfl (by simp)

theorem separator (h : Twin f o n) : Twin f o.separator n.separator := by
  have hbegin : Twin f { o with trail := o.trail.begin o.trail.current.globstar }
      { n with trail := n.trail.begin n.trail.current.globstar } :=
    { h with
      origin := rfl
      globstar := rfl }
  unfold Outline.separator
  exact hbegin.put (by rw [h.globstar]) (by simp)

theorem literalDot (h : Twin f o n) (hfirst : o.cursor.isFirst = false) :
    Twin f o.literalDot n.literalDot := by
  unfold Outline.literalDot
  rw [h.cursor, Cursor.last_shifted hfirst h.begun]
  split
  · have hmark := h.mark (fun c => { c with dot := true }) (fun _ => rfl) fun _ _ hc => hc
    have hdot : Twin f { o.mark fun c => { c with dot := true } with dot := true }
        { n.mark fun c => { c with dot := true } with dot := true } := { hmark with dot := rfl }
    exact hdot.put rfl (by simp)
  · exact h.put rfl (by simp)

theorem star (h : Twin f o n) : Twin f o.star n.star := by
  have hnext (x : Char) : n.cursor.nextIs x = o.cursor.nextIs x := by rw [h.cursor]; rfl
  have hlast : n.cursor.last = some '/' ↔ o.cursor.last = some '/' := by
    rw [h.cursor]
    exact Cursor.getElem?_shifted (by decide) 1
  unfold Outline.star
  rw [hnext, hnext]
  split
  · have hglyph : (Glyph.globstar n.dot).mapDots f = (Glyph.globstar o.dot).mapDots f := by
      rw [Glyph.mapDots, Glyph.mapDots, h.dot]
    have hput := (h.mark (fun c => { c with globstar := true }) (fun _ => rfl) fun _ _ _ => rfl).put
      hglyph (by simp)
    have hrest : n.cursor.rest = o.cursor.rest := by rw [h.cursor]; rfl
    have hskip := hput.move_skip (o.cursor.rest.takeWhile (· = '*')).length
    unfold Outline.globstar Cursor.skipRun
    simp only [cursor_put, cursor_mark, hrest] at hskip ⊢
    exact { hskip with dot := rfl }
  · refine h.put ?_ (by simp)
    rw [h.origin, decide_eq_decide.2 hlast]

theorem qmark (h : Twin f o n) : Twin f o.qmark n.qmark := by
  have hlast {x : Char} (hx : x ≠ '!') : n.cursor.last = some x ↔ o.cursor.last = some x := by
    rw [h.cursor]
    exact Cursor.getElem?_shifted hx 1
  unfold Outline.qmark
  simp only [h.isGroup_eq, hlast (show '(' ≠ '!' by decide), hlast (show '/' ≠ '!' by decide)]
  split
  · exact h
  · exact h.put rfl (by simp)

theorem colon (h : Twin f o n) (hb : o.opened.isBracket = false) : Twin f o.colon n.colon := by
  have hbehind {x : Char} (hx : x ≠ '!') (m : Nat) :
      n.cursor.behind[m]? = some x ↔ o.cursor.behind[m]? = some x := by
    rw [h.cursor]
    exact Cursor.getElem?_shifted hx m
  unfold Outline.colon Cursor.last Cursor.beforeLast
  simp only [h.isGroup_eq, hbehind (show '(' ≠ '!' by decide), hbehind (show '?' ≠ '!' by decide)]
  split
  · exact h.mark _ (fun _ => rfl) fun _ _ hc => hc
  · exact h.literal hb _

theorem plain (h : Twin f o n) (hb : o.opened.isBracket = false) {c : Char}
    (hfirst : o.cursor.isFirst = true → c ≠ '!' ∧ c ≠ '.') : Twin f (o.plain c) (n.plain c) := by
  have hs := h.settle false
  unfold Outline.plain
  split
  · have hsome : n.closed.isSome = o.closed.isSome := by
      simpa using congrArg Option.isSome h.closed
    rw [hsome]
    split
    · exact h.settle true
    · exact h.literal hb _
  · exact hs.escape
  · exact hs.separator
  · -- a dot at the start would begin a component in one of them only
    refine hs.literalDot ?_
    rw [← Bool.not_eq_true]
    exact fun hf => (hfirst hf).2 rfl
  · have hn : n.cursor.isFirst = false := by
      rw [h.cursor]
      simp [Cursor.isFirst, Cursor.shifted, h.begun]
    have ho : o.cursor.isFirst = false := by
      rw [← Bool.not_eq_true]
      exact fun hf => (hfirst hf).1 rfl
    rw [ho, hn]
    exact hs.literal hb _
  · exact hs.star
  · exact hs.qmark
  · exact hs.colon hb
  · exact hs.literal hb _

/-- Reading a character, which is no `!` or dot at the start. -/
theorem step (h : Twin f o n) {c : Char} (hc : c ≠ '<' ∧ c ≠ '\x7b')
    (hfirst : o.cursor.isFirst = true → c ≠ '!' ∧ c ≠ '.') : Twins f (o.step c) (n.step c) := by
  have hannounced : n.announced? c = o.announced? c := by
    unfold announced?
    rw [h.isNothing_eq, h.cursor]
    rfl
  by_cases hb : o.opened.isBracket = true
  · rcases h.opened_cases with ⟨ho, -⟩ | ⟨e, body, body', ho, -⟩ | ⟨b, ho, hn⟩
    · rw [ho] at hb
      cases hb
    · rw [ho] at hb
      cases hb
    · rw [step_bracket ho, step_bracket hn]
      exact h.stepBracket b c
  · rw [Bool.not_eq_true] at hb
    have hs := h.settle false
    rw [step_of_not_bracket o hb, step_of_not_bracket n (h.isBracket_eq.trans hb), hannounced]
    cases o.announced? c with
    | some g => exact { hs with announced := rfl }
    | none =>
      cases hk : Delimiter.ofOpener? c with
      | some k => exact hs.openAt hb hk hc
      | none =>
        cases Delimiter.ofCloser? c with
        | some k => exact hs.closeAt hb _ _
        | none => exact h.plain hb hfirst

/-- Reading the rest of the glob. -/
theorem run (h : Twin f o n) : Twins f o.run n.run := by
  induction hl : o.cursor.rest.length using Nat.strongRecOn generalizing o n with
  | _ m ih =>
    have hn := h.cursor
    rcases ho : o.cursor with ⟨b, _ | ⟨c, rest⟩⟩
    · rw [ho] at hn
      rw [run_nil (by rw [ho]), run_nil (by rw [hn]; rfl)]
      exact h
    · rw [ho] at hn hl
      have hmoved := h.move_next (x := c) (c := ⟨c :: b, rest⟩) (by rw [ho]; rfl)
      have hfirst : Cursor.isFirst ⟨c :: b, rest⟩ = false := by
        have := h.begun
        rw [ho] at this
        simpa [Cursor.isFirst] using this
      have hstep := hmoved.step (h.unclosing c (by rw [ho]; simp)) fun hf => by
        rw [hfirst] at hf
        cases hf
      rw [run_cons ho, run_cons hn]
      refine hstep.bind fun o' n' ho' ht => ih _ ?_ ht rfl
      have hle := rest_step_le ho'
      rw [← hl]
      exact Nat.lt_succ_of_le hle

theorem finish (h : Twin f o n) : Twin f o.finish n.finish ∧ n.opened.openers = o.opened.openers := by
  unfold Outline.finish
  rcases h.opened_cases with ⟨ho, hn⟩ | ⟨e, body, body', ho, hn, hbody⟩ | ⟨b, ho, hn⟩
  · rw [ho, hn]
    exact ⟨h.settle false, rfl⟩
  · rw [ho, hn]
    exact ⟨((h.settle false).closeGroup e hbody).settle false, rfl⟩
  · rw [ho, hn]
    refine ⟨settle ?_ false, rfl⟩
    exact { h.settle false with
      opened := rfl
      closed := rfl
      unpaired := by simp [Outline.closeBracket] }

end Twin

/-! ## Whole globs -/

section

variable {cs : List Char}

end

end Outline
end PathGlob
