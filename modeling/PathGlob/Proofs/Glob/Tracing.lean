/-
A scan follows the outline: in every dialect its steps go as those of the outline go, and what it
writes is the text of the outline's parts. So a glob is rendered as the text of its parts, with a
guard in front if the outline asks for one.
-/
import PathGlob.Proofs.Glob.Outline

namespace PathGlob

/-- The frames of a scan where something is open. -/
def Opened.Frames : Opened → List Frame → Prop
  | nothing, fs => fs = []
  | group _ _, fs => ∃ t r, fs = [⟨.paren, '(', t, r⟩]
  | pair k, fs => (k = .angle ∨ k = .brace) ∧ ∃ t r, fs = [⟨k, k.opener, t, r⟩]
  | bracket b, fs => fs = [⟨.bracket, '[', b.text, b.raw⟩]

theorem Scan.append_append (s : Scan) (x y : String) : (s.append x).append y = s.append (x ++ y) := by
  simp only [append, Nesting.append, Nesting.modifyTop, List.modifyHead_modifyHead, Trail.append,
    Trail.modify, Component.append, String.append_assoc]
  congr
  funext f
  simp [String.append_assoc]

theorem Scan.cutOffAll_of_nil (d : Dialect) {s : Scan} (h : s.nesting.frames = []) :
    s.cutOffAll d = s := by
  rw [cutOffAll]
  split
  · rfl
  · rename_i hne
    rw [h] at hne
    cases hne

/-- Where one frame is open, what cuts off one cuts off all. -/
theorem Scan.cutOffAll_of_singleton (d : Dialect) {s : Scan} {f : Frame} (h : s.nesting.frames = [f]) :
    s.cutOffAll d = cutOff d
      { s with nesting := { s.nesting with
          frames := [], tally := s.nesting.tally.lower f.delimiter } } f := by
  rw [cutOffAll]
  split <;> rename_i hne <;> rw [h] at hne <;> cases hne
  exact cutOffAll_of_nil d (List.length_eq_zero_iff.1 (by rw [frames_cutOff_length]; rfl))

namespace Outline

/-- The groups that are announced and not yet closed. -/
def groups (o : Outline) : List ExtGlob :=
  match o.opened with
  | .group g _ => g.toList
  | _ => o.announced.toList

/-- A scan that stands where an outline stands, having written its text. Groups are announced, and
what was closed last is kept apart, only where nothing is open. -/
structure Traces (d : Dialect) (o : Outline) (s : Scan) : Prop where
  cursor : s.cursor = o.cursor
  frames : o.opened.Frames s.nesting.frames
  tally : s.nesting.tally.bracket = if o.opened.isBracket then 1 else 0
  pending : s.pending.groups = o.groups
  trail : s.trail.erase = o.trail
  text : s.trail.text = o.text d
  negated : s.negated = o.negated
  dot : s.dot = o.dot
  hasGlobstar : s.hasGlobstar = o.hasGlobstar
  afterGroup : s.afterGroup = o.closed.isSome
  announced : o.announced.isSome → o.opened.isNothing
  closed : o.closed.isSome → o.opened.isNothing

/-- A step of an outline and one of a scan that both go on or both fail. -/
inductive Follows (d : Dialect) :
    Except MissingOpening Outline → Except MissingOpening Scan → Prop where
  | ok {o : Outline} {s : Scan} : Traces d o s → Follows d (.ok o) (.ok s)
  | error (e : MissingOpening) : Follows d (.error e) (.error e)

namespace Traces

variable {d : Dialect} {o : Outline} {s : Scan}

theorem start (d : Dialect) (c : Cursor) : Traces d { cursor := c } { cursor := c } where
  cursor := rfl
  frames := rfl
  tally := rfl
  pending := rfl
  trail := rfl
  text := by simp [Trail.text, Trail.toList, Outline.text, Opened.text]
  negated := rfl
  dot := rfl
  hasGlobstar := rfl
  afterGroup := rfl
  announced := by simp
  closed := by simp

/-! ## Writing -/

theorem withCursor (h : Traces d o s) (c : Cursor) :
    Traces d { o with cursor := c } { s with cursor := c } :=
  { h with cursor := rfl }

theorem settle (h : Traces d o s) : Traces d o.settle { s with afterGroup := false } where
  cursor := h.cursor
  frames := h.frames
  tally := h.tally
  pending := h.pending
  trail := h.trail
  text := by
    rw [h.text, Outline.text, Outline.text, Outline.settle]
    cases o.closed <;> simp [Part.text]
  negated := h.negated
  dot := h.dot
  hasGlobstar := h.hasGlobstar
  afterGroup := rfl
  announced := h.announced
  closed := by simp [Outline.settle]

theorem repeated (h : Traces d o s) (hc : o.closed.isSome) :
    Traces d (o.settle true) (Scan.append { s with afterGroup := false } "+") := by
  have ho := h.closed hc
  obtain ⟨e, he⟩ := Option.isSome_iff_exists.1 hc
  have hn : o.opened = .nothing := by
    cases hop : o.opened <;> simp_all [Opened.isNothing]
  have hf := h.frames
  rw [hn] at hf
  exact {
    h with
    frames := by
      change o.opened.Frames (s.nesting.frames.modifyHead _)
      rw [hn]; rw [show s.nesting.frames = [] from hf]; rfl
    text := by
      change (s.trail.append "+").text = _
      rw [Trail.text_append, h.text]
      simp [Outline.text, Outline.settle, he, hn, Opened.text, Part.text, String.append_assoc]
    afterGroup := rfl
    closed := by simp [Outline.settle] }

theorem closed_eq_none (h : Traces d o s) (ho : o.opened.isNothing = false) : o.closed = none := by
  rw [← Option.not_isSome_iff_eq_none]
  exact fun hc => by rw [h.closed hc] at ho; cases ho

theorem announced_eq_none (h : Traces d o s) (ho : o.opened.isNothing = false) :
    o.announced = none := by
  rw [← Option.not_isSome_iff_eq_none]
  exact fun ha => by rw [h.announced ha] at ho; cases ho

theorem depth (h : Traces d o s) : (s.nesting.depth != 0) = !o.opened.isNothing := by
  have hf := h.frames
  unfold Nesting.depth
  cases ho : o.opened with
  | nothing => rw [ho] at hf; rw [show s.nesting.frames = [] from hf]; rfl
  | group g body => rw [ho] at hf; obtain ⟨t, r, hf⟩ := hf; rw [hf]; rfl
  | pair k => rw [ho] at hf; obtain ⟨-, t, r, hf⟩ := hf; rw [hf]; rfl
  | bracket b => rw [ho] at hf; rw [show s.nesting.frames = _ from hf]; rfl

/-- Writing a text where the outline gets other parts of that text. -/
theorem write (h : Traces d o s) (x : String) (op : Opened) (ps : List Part)
    (frames : op.Frames (s.nesting.append x).frames) (bracket : op.isBracket = o.opened.isBracket)
    (groups : groups { o with opened := op } = o.groups)
    (text : Outline.text d { o with opened := op, parts := ps } = o.text d ++ x)
    (nothing : op.isNothing = o.opened.isNothing) :
    Traces d { o with opened := op, parts := ps } (s.append x) :=
  { h with
    frames
    tally := h.tally.trans (by rw [bracket])
    pending := h.pending.trans groups.symm
    text := by
      change (s.trail.append x).text = _
      rw [Trail.text_append, h.text, text]
    announced := fun ha => nothing.trans (h.announced ha)
    closed := fun hc => nothing.trans (h.closed hc) }

theorem put (h : Traces d o s) (hc : o.closed = none) (hb : o.opened.isBracket = false) (g : Glyph) :
    Traces d (o.put g) (s.append (g.text d)) := by
  have hf := h.frames
  cases ho : o.opened with
  | nothing =>
    rw [ho] at hf
    have hs : s.nesting.frames = [] := hf
    simpa [Outline.put, ho] using h.write (g.text d) .nothing
      (o.parts ++ [.glyph g]) (by simp [Nesting.append, Nesting.modifyTop, hs, Opened.Frames])
      (by rw [ho]) (by simp [Outline.groups, ho])
      (by simp [Outline.text, hc, ho, Opened.text, Part.text]) (by rw [ho])
  | group e body =>
    rw [ho] at hf
    obtain ⟨t, r, hs⟩ := hf
    simpa [Outline.put, ho] using h.write (g.text d) (.group e (body ++ [g]))
      o.parts (by simp [Nesting.append, Nesting.modifyTop, hs, Opened.Frames])
      (by rw [ho]; rfl) (by simp [Outline.groups, ho])
      (by simp [Outline.text, hc, ho, Opened.text, String.append_assoc]) (by rw [ho]; rfl)
  | pair k =>
    rw [ho] at hf
    obtain ⟨hk, t, r, hs⟩ := hf
    simpa [Outline.put, ho] using h.write (g.text d) (.pair k) (o.parts ++ [.glyph g])
      (by simp [Nesting.append, Nesting.modifyTop, hs, Opened.Frames, hk])
      (by rw [ho]) (by simp [Outline.groups, ho])
      (by simp [Outline.text, hc, ho, Opened.text, Part.text]) (by rw [ho])
  | bracket b => rw [ho] at hb; cases hb

theorem literal (h : Traces d o s) (hc : o.closed = none) (hb : o.opened.isBracket = false)
    (c : Char) : Traces d (o.literal c) (s.literal c) := by
  have ht : Fragment.char (Fragment.isMeta c && !(c = '|' && s.nesting.depth != 0)) c =
      Glyph.text d (if c = '|' && !o.opened.isNothing then .bar else .char c) := by
    rw [h.depth]
    by_cases hbar : c = '|' && !o.opened.isNothing
    · rw [if_pos hbar, hbar]
      simp only [Bool.and_eq_true, decide_eq_true_eq] at hbar
      rw [hbar.1]
      rfl
    · rw [if_neg hbar]
      rw [Bool.not_eq_true] at hbar
      rw [hbar, Bool.not_false, Bool.and_true]
      rfl
  unfold Scan.literal Outline.literal
  rw [ht]
  exact h.put hc hb _

theorem mark (h : Traces d o s) {f : Component → Component}
    (he : ∀ c, (f c).erase = f c.erase) (ht : ∀ c, (f c).text = c.text) :
    Traces d (o.mark f) (s.mark f) :=
  { h with
    trail := by rw [Scan.mark, Outline.mark, Trail.erase_modify _ he, h.trail]
    text := (Trail.text_modify _ ht).trans h.text }

/-- Quotes are kept apart, so the outline does not know of them. -/
theorem quote (h : Traces d o s) {n : Nesting} (hf : n.frames = s.nesting.frames)
    (ht : n.tally.bracket = s.nesting.tally.bracket) : Traces d o { s with nesting := n } :=
  { h with
    frames := by rw [hf]; exact h.frames
    tally := ht.trans h.tally }

/-! ## Groups and bracket expressions -/

/-- Where nothing is open, there are no frames, and the pending groups are the announced one. -/
theorem of_nothing (h : Traces d o s) (ho : o.opened = .nothing) : s.nesting.frames = [] ∧
    s.nesting.tally.bracket = 0 ∧ s.pending.groups = o.announced.toList := by
  have hf := h.frames
  have ht := h.tally
  have hp := h.pending
  unfold Outline.groups at hp
  rw [ho] at hf ht hp
  exact ⟨hf, ht, hp⟩

/-- The beginning of a pair, which is written as it is. -/
theorem openPair (h : Traces d o s) (hc : o.closed = none) (ho : o.opened = .nothing)
    {k : Delimiter} (hk : k = .angle ∨ k = .brace) (hn : o.announced = none) :
    Traces d (Outline.literal { o with opened := .pair k } k.opener)
      (Scan.literal { s with nesting := s.nesting.push k k.opener } k.opener) := by
  obtain ⟨hs, ht, hg⟩ := h.of_nothing ho
  have hopened : Traces d { o with opened := .pair k }
      { s with nesting := s.nesting.push k k.opener } := {
    h with
    frames := ⟨hk, "", "", by rw [Nesting.push, hs]⟩
    tally := by rcases hk with rfl | rfl <;> exact ht
    pending := hg
    text := by rw [h.text, Outline.text, Outline.text, ho]; rfl
    announced := by rw [hn]; simp
    closed := by rw [hc]; simp }
  exact hopened.literal hc rfl k.opener

/-- The beginning of a group, which takes what is announced. -/
theorem openGroup (h : Traces d o s) (hc : o.closed = none) (ho : o.opened = .nothing) :
    Traces d (o.openAt .paren '(') (s.opened .paren '(') := by
  obtain ⟨hs, ht, hg⟩ := h.of_nothing ho
  unfold Outline.openAt Scan.opened
  rw [ho, h.depth, ho]
  exact {
    h with
    frames := ⟨_, _, by simp [Scan.append, Nesting.append, Nesting.modifyTop, Nesting.push, hs]; rfl⟩
    tally := ht
    pending := hg
    text := by
      change (s.trail.append _).text = _
      rw [Trail.text_append, h.text]
      simp only [Outline.text, hc, ho, Opened.text, ExtGlob.Pending.last?, hg]
      cases o.announced <;> simp [ExtGlob.openingText]
    announced := by simp
    closed := by rw [hc]; simp }

/-- The beginning of a bracket expression. -/
theorem openBracket (h : Traces d o s) (hc : o.closed = none) (ho : o.opened = .nothing)
    (hn : o.announced = none) : Traces d (o.openAt .bracket '[') (s.opened .bracket '[') := by
  obtain ⟨hs, ht, hg⟩ := h.of_nothing ho
  unfold Outline.openAt Scan.opened
  rw [ho, h.depth, ho]
  exact {
    h with
    frames := by
      change (((s.nesting.append "(?:").push .bracket '[').append "[").frames = [_]
      simp [Nesting.append, Nesting.modifyTop, Nesting.push, hs, Bracket.text, Bracket.raw]
    tally := by
      change s.nesting.tally.bracket + 1 = 1
      rw [ht]
    pending := hg
    text := by
      change ((s.trail.append "(?:").append "[").text = _
      rw [Trail.text_append, Trail.text_append, h.text]
      simp [Outline.text, hc, ho, Opened.text, Bracket.text, String.append_assoc]
    announced := by rw [hn]; simp
    closed := by rw [hc]; simp }

theorem openAt (h : Traces d o s) (hc : o.closed = none) (hb : o.opened.isBracket = false)
    {k : Delimiter} {c : Char} (hk : Delimiter.ofOpener? c = some k)
    (ha : o.announced.isSome → c = '(') : Traces d (o.openAt k c) (s.opened k c) := by
  by_cases hopened : o.opened.isNothing = true
  · have ho : o.opened = .nothing := by
      cases ho : o.opened <;> rw [ho] at hopened <;> first | rfl | cases hopened
    have none_of (hne : c ≠ '(') : o.announced = none := by
      rw [← Option.not_isSome_iff_eq_none]
      exact fun hn => hne (ha hn)
    have pair (hp : k = .angle ∨ k = .brace) (hne : k.opener ≠ '(') :
        Traces d (o.openAt k c) (s.opened k c) := by
      cases Delimiter.ofOpener?_opener hk
      unfold Outline.openAt Scan.opened
      rw [ho, h.depth, ho]
      have hpair := h.openPair hc ho hp (none_of hne)
      rcases hp with rfl | rfl <;> exact hpair
    have hkc := Delimiter.ofOpener?_opener hk
    cases k with
    | paren =>
      cases hkc
      exact h.openGroup hc ho
    | bracket =>
      cases hkc
      exact h.openBracket hc ho (none_of (by decide))
    | angle => exact pair (.inl rfl) (by decide)
    | brace => exact pair (.inr rfl) (by decide)
    | quote => unfold Delimiter.ofOpener? at hk; split at hk <;> cases hk
  · -- inside a group or a pair an opening character is literal
    have hliteral : o.openAt k c = o.literal c := by
      unfold Outline.openAt
      cases ho : o.opened with
      | nothing => rw [ho] at hopened; exact absurd rfl hopened
      | _ => rfl
    have hscan : s.opened k c = s.literal c := by
      unfold Scan.opened
      rw [h.depth, eq_false_of_ne_true hopened]
      rfl
    rw [hliteral, hscan]
    exact h.literal hc hb c

/-- The end of a group, whose frame has been taken off. -/
theorem closeGroup (h : Traces d o s) (hc : o.closed = none) {g : Option ExtGlob}
    {body : List Glyph} (ho : o.opened = .group g body) {n : Nesting} (hf : n.frames = [])
    (ht : n.tally.bracket = 0) :
    Traces d (o.closeGroup g body) (Scan.closeGroup d { s with nesting := n }) := by
  have hg : s.pending.groups = g.toList := by rw [h.pending, Outline.groups, ho]
  have hn := h.announced_eq_none (by rw [ho]; rfl)
  have hh : g.toList.head? = g := by cases g <;> rfl
  exact {
    cursor := h.cursor
    frames := by
      simp [Scan.closeGroup, Scan.append, Scan.mark, Nesting.append, Nesting.modifyTop, hf,
        Outline.closeGroup, Outline.mark, Opened.Frames]
    tally := ht
    pending := by
      simp only [Scan.closeGroup, ExtGlob.Pending.pop, hg]
      cases g <;> simp [Outline.groups, Outline.closeGroup, Outline.mark, hn, Scan.append, Scan.mark]
    trail := by
      simp only [Scan.closeGroup, ExtGlob.Pending.pop, hg, hh, Scan.append, Scan.mark,
        Outline.closeGroup, Outline.mark, Trail.erase_append, ← h.trail]
      exact Trail.erase_modify _ fun c => by split <;> rfl
    text := by
      simp only [Scan.closeGroup, ExtGlob.Pending.pop, hg, hh, Scan.append, Scan.mark,
        Outline.closeGroup, Outline.mark, Trail.text_append]
      rw [Trail.text_modify _ fun c => by split <;> rfl, h.text, h.cursor]
      simp [Outline.text, hc, ho, Opened.text, Enclosed.text, ExtGlob.closingText, String.append_assoc]
    negated := h.negated
    dot := h.dot
    hasGlobstar := h.hasGlobstar
    afterGroup := rfl
    announced := by simp [Outline.closeGroup, Outline.mark, hn]
    closed := fun _ => rfl }

/-- The end of a bracket expression, whose frame has been taken off. -/
theorem closeBracket (h : Traces d o s) (hc : o.closed = none) {b : Bracket}
    (ho : o.opened = .bracket b) (isClosed : Bool) (hfill : isClosed = true → b.members ≠ [])
    {n : Nesting} (hf : n.frames = []) (ht : n.tally.bracket = 0) :
    Traces d (o.closeBracket b isClosed hfill)
      (Scan.closeBracket { s with nesting := n } ⟨.bracket, '[', b.text, b.raw⟩ isClosed) := by
  have hn := h.announced_eq_none (by rw [ho]; rfl)
  have hbare : (b.text = "[" || b.text = "[^" : Bool) = b.members.isEmpty := by
    obtain ⟨h1, h2⟩ := b.text_eq_start
    cases hm : b.members <;> cases hs : b.sign <;> simp [h1, h2, hm, hs]
  exact {
    cursor := h.cursor
    frames := by
      simp [Scan.closeBracket, Scan.append, Nesting.append, Nesting.modifyTop, hf,
        Outline.closeBracket, Opened.Frames]
    tally := ht
    pending := by
      simp [Scan.closeBracket, Scan.append, Outline.closeBracket, Outline.groups, hn, h.pending, ho]
    trail := h.trail
    text := by
      simp only [Scan.closeBracket, Scan.append, Trail.text_append, hbare]
      rw [h.text]
      simp [Outline.text, Outline.closeBracket, hc, ho, Opened.text, Enclosed.text, Bracket.ending,
        String.append_assoc]
    negated := h.negated
    dot := h.dot
    hasGlobstar := h.hasGlobstar
    afterGroup := rfl
    announced := by simp [Outline.closeBracket, hn]
    closed := fun _ => rfl }

/-- The end of angles or braces, whose frame has been taken off. -/
theorem endPair (h : Traces d o s) {k : Delimiter} (ho : o.opened = .pair k) {n : Nesting}
    (hf : n.frames = []) (ht : n.tally.bracket = 0) :
    Traces d { o with opened := .nothing } { s with nesting := n } :=
  { h with
    frames := hf
    tally := ht
    pending := by rw [h.pending, Outline.groups, ho]; rfl
    text := by rw [h.text, Outline.text, Outline.text, ho]; rfl
    announced := fun _ => rfl
    closed := fun _ => rfl }

theorem closeAt (h : Traces d o s) (hc : o.closed = none) (hb : o.opened.isBracket = false)
    {k : Delimiter} (c : Char) : Follows d (o.closeAt k c) (s.closed d k c) := by
  have hf := h.frames
  have ht := h.tally
  unfold Outline.closeAt Scan.closed Nesting.topKind? Nesting.top?
  cases ho : o.opened with
  | nothing =>
    rw [ho] at hf
    rw [show s.nesting.frames = [] from hf]
    exact .error _
  | group g body =>
    rw [ho] at hf ht
    obtain ⟨t, r, hs⟩ := hf
    rw [hs]
    by_cases hp : k = .paren
    · subst hp
      simp only [List.head?_cons, Option.map_some, ne_eq, not_true_eq_false, if_false, Nesting.pop,
        hs, if_true]
      exact .ok (h.closeGroup hc ho rfl ht)
    · simp only [List.head?_cons, Option.map_some, ne_eq, Ne.symm hp, not_false_eq_true, if_true,
        if_neg hp]
      exact .ok (h.literal hc (by rw [ho]; rfl) c)
  | pair l =>
    rw [ho] at hf ht
    obtain ⟨hl, t, r, hs⟩ := hf
    rw [hs]
    by_cases hp : k = l
    · subst hp
      simp only [List.head?_cons, Option.map_some, ne_eq, not_true_eq_false, if_false, Nesting.pop,
        hs, if_true]
      have := h.endPair ho (n := { s.nesting with frames := [], tally := s.nesting.tally.lower k }) rfl
        (by rcases hl with rfl | rfl <;> exact ht)
      rcases hl with rfl | rfl <;> exact .ok (this.literal hc rfl c)
    · simp only [List.head?_cons, Option.map_some, ne_eq, Ne.symm hp, not_false_eq_true, if_true,
        if_neg hp]
      exact .ok (h.literal hc (by rw [ho]; rfl) c)
  | bracket b => rw [ho] at hb; cases hb

/-- A member of a bracket expression is noted and written. -/
theorem member (h : Traces d o s) {b : Bracket} (ho : o.opened = .bracket b) (m : Member) :
    Traces d (o.member b m) ((s.note m.raw).append m.text) := by
  have hf := h.frames
  rw [ho] at hf
  have hs : s.nesting.frames = _ := hf
  exact {
    h with
    frames := by
      change ((s.nesting.note m.raw).append m.text).frames = [_]
      simp [Nesting.append, Nesting.note, Nesting.modifyTop, hs]
    tally := by have := h.tally; rw [ho] at this; exact this
    pending := by have := h.pending; rw [Outline.groups, ho] at this; exact this
    text := by
      change (s.trail.append m.text).text = _
      rw [Trail.text_append, h.text]
      simp [Outline.text, Outline.member, h.closed_eq_none (by rw [ho]; rfl), ho, Opened.text,
        String.append_assoc]
    announced := by rw [Outline.member, h.announced_eq_none (by rw [ho]; rfl)]; simp
    closed := by rw [Outline.member, h.closed_eq_none (by rw [ho]; rfl)]; simp }

/-- The sign of negation of a bracket expression. -/
theorem sign (h : Traces d o s) {b : Bracket} (ho : o.opened = .bracket b)
    (hf : b.isFresh = true) (c : Char) :
    Traces d { o with opened := .bracket { b with sign := some c } }
      ((s.note (String.singleton c)).append "^") := by
  obtain ⟨hsign, hmem⟩ : b.sign = none ∧ b.members = [] := by simpa [Bracket.isFresh] using hf
  have hf := h.frames
  rw [ho] at hf
  have hs : s.nesting.frames = _ := hf
  exact {
    h with
    frames := by
      change ((s.nesting.note (String.singleton c)).append "^").frames = [_]
      simp [Nesting.append, Nesting.note, Nesting.modifyTop, hs, Bracket.text, Bracket.raw, hsign, hmem]
    tally := by have := h.tally; rw [ho] at this; exact this
    pending := by have := h.pending; rw [Outline.groups, ho] at this; exact this
    text := by
      change (s.trail.append "^").text = _
      rw [Trail.text_append, h.text]
      simp [Outline.text, h.closed_eq_none (by rw [ho]; rfl), ho, Opened.text, Bracket.text, hsign,
        hmem, String.append_assoc]
    announced := by rw [h.announced_eq_none (by rw [ho]; rfl)]; simp
    closed := by rw [h.closed_eq_none (by rw [ho]; rfl)]; simp }

theorem stepBracket (h : Traces d o s) {b : Bracket} (ho : o.opened = .bracket b) (c : Char) :
    Follows d (.ok (o.stepBracket b c)) (s.stepBracket d c) := by
  have hf := h.frames
  have ht := h.tally
  rw [ho] at hf ht
  have hs : s.nesting.frames = _ := hf
  -- what the expression holds so far can be told from the text of its frame
  have hbody : (s.nesting.top?.map (·.text)).getD "" = b.text := by simp [Nesting.top?, hs]
  obtain ⟨h1, h2⟩ := b.text_eq_start
  have hfresh : decide (b.text = "[") = b.isFresh := by
    cases hm : b.members <;> cases hsg : b.sign <;> simp [h1, Bracket.isFresh, hm, hsg]
  have hempty : (b.isFresh || decide (b.text = "[^")) = b.members.isEmpty := by
    rw [← hfresh]
    cases hm : b.members <;> cases hsg : b.sign <;> simp [h1, h2, hm, hsg]
  unfold Outline.stepBracket Scan.stepBracket
  simp only [hbody, hfresh, hempty]
  by_cases hneg : b.isFresh && (c = '!' || c = '^')
  · rw [if_pos hneg, if_pos hneg]
    simp only [Bool.and_eq_true] at hneg
    exact .ok (h.sign ho hneg.1 c)
  rw [if_neg hneg, if_neg hneg]
  by_cases hclose : c = ']'
  · rw [if_pos hclose, if_pos hclose]
    by_cases hm : b.members = []
    · rw [dif_pos hm, if_pos (List.isEmpty_iff.2 hm)]
      exact .ok (h.member ho (.char ']'))
    · rw [dif_neg hm, if_neg (mt List.isEmpty_iff.1 hm)]
      simp only [Scan.closed, Nesting.topKind?, Nesting.top?, Nesting.pop, hs, List.head?_cons,
        Option.map_some, ne_eq, not_true_eq_false, if_false, if_true]
      exact .ok (h.closeBracket (h.closed_eq_none (by rw [ho]; rfl)) ho true _ rfl
        (by simp [Tally.lower, Tally.modify, ht, Opened.isBracket]))
  rw [if_neg hclose, if_neg hclose]
  by_cases hesc : c = '\\'
  · rw [if_pos hesc, if_pos hesc, ← h.cursor]
    cases hn : s.cursor.next? with
    | none => exact .ok (h.member ho (.char '\\'))
    | some p => exact .ok ((h.withCursor p.2).member ho (.char p.1))
  rw [if_neg hesc, if_neg hesc]
  by_cases hopen : c = '['
  · rw [if_pos hopen, if_pos hopen, h.cursor]
    split
    · rename_i n hn
      simp only [hn]
      exact .ok ((h.withCursor (o.cursor.skip n.text.length.pred)).member ho
        (.named n (PosixClass.at?_isNamed hn)))
    · rename_i hn
      rw [hn]
      exact .ok (h.member ho (.char c))
  rw [if_neg hopen, if_neg hopen]
  exact .ok (h.member ho (.char c))

/-! ## Characters outside bracket expressions -/

section Plain

variable (h : Traces d o s) (hc : o.closed = none) (hb : o.opened.isBracket = false)
include h hc hb

theorem escape : Traces d o.escape s.escape := by
  unfold Outline.escape Scan.escape
  rw [h.cursor]
  cases o.cursor.next? with
  | none => exact h.put hc hb (.char '\\')
  | some p => exact (h.withCursor p.2).put hc hb (.char p.1)

theorem separator : Traces d o.separator s.separator := by
  have hg : s.trail.current.globstar = o.trail.current.globstar := by rw [← h.trail]; rfl
  unfold Outline.separator Scan.separator
  rw [hg]
  refine put (o := { o with trail := o.trail.begin o.trail.current.globstar })
    (s := { s with trail := s.trail.begin o.trail.current.globstar }) ?_ hc hb (.separator _)
  exact {
    h with
    trail := by rw [Trail.erase_begin, h.trail]
    text := (Trail.text_begin ..).trans h.text }

theorem literalDot : Traces d o.literalDot s.literalDot := by
  unfold Outline.literalDot Scan.literalDot
  rw [h.cursor]
  split
  · have := h.mark (f := fun c => { c with dot := true }) (fun _ => rfl) fun _ => rfl
    exact put (o := { o.mark fun c => { c with dot := true } with dot := true })
      (s := { s.mark fun c => { c with dot := true } with dot := true }) { this with dot := rfl }
      hc hb (.char '.')
  · exact h.put hc hb (.char '.')

theorem star : Traces d o.star (s.star d) := by
  have horigin : s.trail.current.origin = o.trail.current.origin := by rw [← h.trail]; rfl
  unfold Outline.star Scan.star
  rw [h.cursor]
  split
  · have := (h.mark (f := fun c => { c with globstar := true }) (fun _ => rfl) fun _ => rfl).put
      hc hb (.globstar o.dot)
    unfold Outline.globstar Scan.globstar
    rw [h.dot]
    exact { this with
      cursor := congrArg (Cursor.skipRun · '*') this.cursor
      hasGlobstar := rfl
      dot := rfl }
  · simp only [horigin]
    generalize (decide (o.trail.current.origin = .separator) && decide (o.cursor.last = some '/') &&
      !o.cursor.nextIs '.') = isGuarded
    have := h.put hc hb (.star isGuarded)
    cases isGuarded
    · simpa [Glyph.text] using this
    · rw [if_pos rfl, Scan.append_append]
      exact this

omit hc hb in
theorem topKind : decide (s.nesting.topKind? = some .paren) = o.opened.isGroup := by
  have hf := h.frames
  unfold Nesting.topKind? Nesting.top?
  cases ho : o.opened with
  | nothing => rw [ho] at hf; rw [show s.nesting.frames = [] from hf]; rfl
  | group g body => rw [ho] at hf; obtain ⟨t, r, hs⟩ := hf; rw [hs]; rfl
  | pair k =>
    rw [ho] at hf
    obtain ⟨hk, t, r, hs⟩ := hf
    rw [hs]
    rcases hk with rfl | rfl <;> rfl
  | bracket b => rw [ho] at hf; rw [show s.nesting.frames = _ from hf]; rfl

theorem qmark : Traces d o.qmark (s.qmark d) := by
  unfold Outline.qmark Scan.qmark
  rw [h.topKind, h.cursor]
  split
  · exact h
  · have := h.put hc hb (.qmark (o.cursor.last = some '/'))
    simp only [Glyph.text] at this
    split
    · rename_i hf
      rwa [if_pos hf] at this
    · rename_i hf
      rwa [if_neg hf] at this

theorem colon : Traces d o.colon s.colon := by
  unfold Outline.colon Scan.colon
  rw [h.topKind, h.cursor]
  split
  · exact h.mark (fun _ => rfl) fun _ => rfl
  · exact h.literal hc hb ':'

end Plain

theorem plain (h : Traces d o s) (hb : o.opened.isBracket = false) (c : Char) :
    Traces d (o.plain c) (Scan.plain d { s with afterGroup := false } o.closed.isSome c) := by
  have hs := h.settle
  have hc : o.settle.closed = none := rfl
  -- quotes change no more than what the outline leaves out
  have hq : ∀ n : Nesting, n.frames = s.nesting.frames →
      n.tally.bracket = s.nesting.tally.bracket →
      Traces d (o.settle.literal c) (Scan.literal { s with afterGroup := false, nesting := n } c) :=
    fun n hf ht => (hs.quote hf ht).literal hc hb c
  have htoggle : ∀ q, Traces d (o.settle.literal c)
      (Scan.literal { s with afterGroup := false, nesting := s.nesting.toggleQuote q } c) := fun q => by
    refine hq _ ?_ ?_ <;> unfold Nesting.toggleQuote Nesting.closeQuote <;> split <;>
      (try split) <;> rfl
  unfold Outline.plain
  split
  · change Traces d _ (if o.closed.isSome then _ else _)
    by_cases hp : o.closed.isSome
    · rw [if_pos hp, if_pos hp]
      exact h.repeated hp
    · rw [if_neg hp, if_neg hp]
      have hn : o.closed = none := by simpa using hp
      rw [← settle_of_none hn]
      exact hs.literal hc hb '+'
  · exact hs.escape hc hb
  · exact hs.separator hc hb
  · exact hs.literalDot hc hb
  · change Traces d _ (if s.cursor.isFirst then _ else _)
    have hi : s.cursor.isFirst = o.cursor.isFirst := by rw [h.cursor]
    by_cases hf : o.cursor.isFirst
    · rw [if_pos hf, if_pos (hi.trans hf)]
      exact { hs with negated := rfl }
    · rw [if_neg hf, if_neg (hi ▸ hf)]
      exact hs.literal hc hb '!'
  · exact hs.star hc hb
  · exact hs.qmark hc hb
  · exact hs.colon hc hb
  · unfold Scan.plain
    split
    case h_3 | h_4 | h_5 => exact htoggle _
    case h_6 => exact hq _ rfl rfl
    case h_7 => refine hq _ ?_ ?_ <;> unfold Nesting.closeQuote <;> split <;> rfl
    case h_14 => exact hs.literal hc hb c
    all_goals contradiction

/-! ## The run -/

theorem announced? (h : Traces d o s) (c : Char) : s.announced? c = o.announced? c := by
  have hd : decide (s.nesting.depth = 0) = o.opened.isNothing := by
    have := h.depth
    cases hn : o.opened.isNothing <;> rw [hn] at this <;> simpa using this
  unfold Scan.announced? Outline.announced?
  rw [h.cursor, hd]

/-- A sign that announces a group is written with the group. -/
theorem announce (h : Traces d o s) {c : Char} {g : ExtGlob} (hg : o.announced? c = some g)
    (ha : o.announced.isSome → c = '(') :
    Traces d { o with announced := some g } { s with pending := s.pending.push g } := by
  obtain ⟨⟨hnothing, -⟩, hsigil⟩ : (o.opened.isNothing ∧ o.cursor.nextIs '(') ∧
      ExtGlob.ofSigil? c = some g := by simpa [Outline.announced?] using hg
  have hn : o.announced = none := by
    rw [← Option.not_isSome_iff_eq_none]
    intro hsome
    rw [ha hsome] at hsigil
    cases hsigil
  have ho : o.opened = .nothing := by
    cases ho : o.opened <;> rw [ho] at hnothing <;> first | rfl | cases hnothing
  exact {
    h with
    pending := by
      change g :: s.pending.groups = _
      rw [h.pending]
      simp [Outline.groups, ho, hn]
    text := h.text
    announced := fun _ => hnothing }

/-- A step of the scan follows that of the outline. -/
theorem step (h : Traces d o s) {c : Char} (ha : o.announced.isSome → c = '(') :
    Follows d (o.step c) (s.step d c) := by
  have ht := h.tally
  have hi : ({ s with afterGroup := false } : Scan).nesting.isInside .bracket =
      o.opened.isBracket := by
    unfold Nesting.isInside Tally.get
    rw [ht]
    cases o.opened.isBracket <;> rfl
  have hs := h.settle
  unfold Scan.step
  simp only [hi]
  by_cases hb : o.opened.isBracket
  · rw [if_pos hb]
    cases ho : o.opened with
    | bracket b =>
      have hc := h.closed_eq_none (by rw [ho]; rfl)
      have hafter : s.afterGroup = false := by rw [h.afterGroup, hc]; rfl
      have hsame : ({ s with afterGroup := false } : Scan) = s := by rw [← hafter]
      rw [hsame, Outline.step_bracket ho]
      exact h.stepBracket ho c
    | nothing | group | pair => rw [ho] at hb; cases hb
  · rw [if_neg hb]
    rw [Bool.not_eq_true] at hb
    rw [o.step_of_not_bracket hb, show ({ s with afterGroup := false } : Scan).announced? c =
      o.announced? c from h.announced? c]
    cases hg : o.announced? c with
    | some g => exact .ok (hs.announce hg ha)
    | none =>
      dsimp only
      cases hk : Delimiter.ofOpener? c with
      | some k => exact .ok (hs.openAt rfl hb hk ha)
      | none =>
        dsimp only
        cases hk : Delimiter.ofCloser? c with
        | some k => exact hs.closeAt rfl hb c
        | none =>
          rw [h.afterGroup]
          exact .ok (h.plain hb c)

/-- The scan of the rest follows the outline of the rest. -/
theorem run (h : Traces d o s) (ha : o.announced.isSome → o.cursor.nextIs '(') :
    Follows d o.run (s.run d) := by
  induction hl : o.cursor.rest.length using Nat.strongRecOn generalizing o s with
  | _ n ih =>
    rw [Outline.run, Scan.run, h.cursor]
    cases hn : o.cursor.next? with
    | none => exact .ok h
    | some p =>
      obtain ⟨c, cursor⟩ := p
      have hrest := Cursor.next?_rest hn
      have hc : o.announced.isSome → c = '(' := fun hs => by
        have := ha hs
        simpa [Cursor.nextIs, Cursor.peek, hrest] using this
      have hstep := (h.withCursor cursor).step hc
      simp only
      -- both steps fail, or both go on
      cases ho : Outline.step { o with cursor } c with
      | error e =>
        rw [ho] at hstep
        cases hss : Scan.step d { s with cursor } c with
        | error e' => rw [hss] at hstep; cases hstep; exact .error e
        | ok s' => rw [hss] at hstep; cases hstep
      | ok o' =>
        rw [ho] at hstep
        cases hss : Scan.step d { s with cursor } c with
        | error e' => rw [hss] at hstep; cases hstep
        | ok s' =>
          rw [hss] at hstep
          cases hstep with
          | ok h' =>
            have hlt : o'.cursor.rest.length < n := by
              have := rest_step_le ho
              rw [← hl, hrest, List.length_cons]
              exact Nat.lt_succ_of_le this
            exact ih _ hlt h' (nextIs_of_announced ho fun hs => ⟨hc hs, h.announced hs⟩) rfl

/-! ## The end of the glob -/

theorem openers (h : Traces d o s) : s.nesting.openers = o.opened.openers := by
  have hf := h.frames
  unfold Nesting.openers
  cases ho : o.opened with
  | nothing => rw [ho] at hf; rw [show s.nesting.frames = [] from hf]; rfl
  | group g body => rw [ho] at hf; obtain ⟨t, r, hs⟩ := hf; rw [hs]; rfl
  | pair k => rw [ho] at hf; obtain ⟨-, t, r, hs⟩ := hf; rw [hs]; rfl
  | bracket b => rw [ho] at hf; rw [show s.nesting.frames = _ from hf]; rfl

/-- What is still open is ended as the outline ends it. -/
theorem finish (h : Traces d o s) :
    Traces d o.finish { s.cutOffAll d with afterGroup := false } := by
  have hf := h.frames
  have ht := h.tally
  unfold Outline.finish
  refine settle ?_
  cases ho : o.opened with
  | nothing =>
    rw [ho] at hf
    rw [Scan.cutOffAll_of_nil d hf]
    exact h
  | group g body =>
    rw [ho] at hf ht
    obtain ⟨t, r, hs⟩ := hf
    have hc := h.closed_eq_none (by rw [ho]; rfl)
    rw [Scan.cutOffAll_of_singleton d hs, settle_of_none hc]
    exact h.closeGroup hc ho rfl ht
  | pair k =>
    rw [ho] at hf ht
    obtain ⟨hk, t, r, hs⟩ := hf
    rw [Scan.cutOffAll_of_singleton d hs]
    rcases hk with rfl | rfl <;> exact h.endPair ho rfl ht
  | bracket b =>
    rw [ho] at hf ht
    have hs : s.nesting.frames = _ := hf
    have hc := h.closed_eq_none (by rw [ho]; rfl)
    rw [Scan.cutOffAll_of_singleton d hs, settle_of_none hc]
    exact h.closeBracket hc ho false _ rfl (by simp [Tally.lower, Tally.modify, ht, Opened.isBracket])

end Traces

/-! ## The rendering -/

theorem opened_finish (o : Outline) : o.finish.opened = .nothing := by
  unfold finish
  cases ho : o.opened <;> simp [settle, closeGroup, closeBracket, mark, ho]

/-- A rendering of which an outline gives all but the texts of the single components. -/
structure Renders (d : Dialect) (o : Outline) (r : Rendering) : Prop where
  negated : r.negated = o.negated
  lead : r.lead = "^" ++ d.lead.getD ""
  trail : r.trail = d.trail.getD "" ++ "$"
  hasGlobstar : r.hasGlobstar = o.hasGlobstar
  components : r.components.map Component.erase = o.trail.toList
  body : r.body = (if o.isGuarded then Fragment.dotGuard d.dot else "") ++ Part.texts d o.parts

theorem Traces.renders {d : Dialect} {o : Outline} {s : Scan} (h : Traces d o s) :
    Renders d o.finish (s.finish d) := by
  have hf := h.finish
  have ho := o.opened_finish
  have hc : o.finish.closed = none := rfl
  -- the components of the scan and of the outline differ in their texts only
  obtain ⟨c, cs, hl⟩ : ∃ c cs, (s.cutOffAll d).trail.toList = c :: cs :=
    List.exists_cons_of_ne_nil (by simp [Trail.toList])
  have he : o.finish.trail.toList = c.erase :: cs.map Component.erase := by
    rw [← hf.trail, ← List.map_cons, ← hl]
    simp [Trail.erase, Trail.toList]
  have htext : String.join ((c :: cs).map (·.text)) = Part.texts d o.finish.parts := by
    rw [← hl]
    exact hf.text.trans (by simp [Outline.text, hc, ho, Opened.text])
  refine ⟨hf.negated, rfl, rfl, hf.hasGlobstar, ?_, ?_⟩
  · simp only [Scan.finish, Trail.toList_modifyFirst, hl, he, List.modifyHead_cons, List.map_cons]
    congr 1
    split <;> rfl
  · have hg : o.finish.isGuarded =
        (!(s.cutOffAll d).negated && !c.dot && !c.globstar) := by
      rw [Outline.isGuarded, he, ← hf.negated]
      simp [Component.erase, Bool.and_assoc]
    simp only [Rendering.body, Scan.finish, Trail.toList_modifyFirst, hl, List.modifyHead_cons,
      List.map_cons, hg, ← htext]
    split <;> simp [Component.guard, String.append_assoc]

/-- A glob is rendered as its outline says, or neither has a result. -/
theorem ofPattern_follows (d : Dialect) (pattern : String) :
    match Outline.ofPattern pattern with
    | .ok (o, openers) =>
      ∃ r, Rendering.ofPattern d pattern = .ok r ∧ Renders d o r ∧ r.unclosed = openers
    | .error e => Rendering.ofPattern d pattern = .error e := by
  have h := (Traces.start d (.ofPattern pattern)).run (by simp)
  unfold Outline.ofPattern Rendering.ofPattern
  generalize Outline.run _ = x at h ⊢
  generalize Scan.run d _ = y at h ⊢
  cases h with
  | ok h => exact ⟨_, rfl, h.renders, h.openers⟩
  | error e => rfl

end Outline
end PathGlob
