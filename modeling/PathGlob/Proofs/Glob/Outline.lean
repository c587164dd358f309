/-
The outline of a glob: its parts, as one pass over its characters finds them, and what is known of
its components. It is read the way a scan renders, but without a dialect and without texts, so what
holds of it holds for every dialect.
-/
import PathGlob.Proofs.Glob.Part

namespace PathGlob

/-! ## Components without their texts -/

/-- A component without its text. -/
def Component.erase (c : Component) : Component := { c with text := "" }

/-- The components without their texts. -/
def Trail.erase (t : Trail) : Trail := ⟨t.done.map Component.erase, t.current.erase⟩

/-- The texts of the components one after the other. -/
def Trail.text (t : Trail) : String := String.join (t.toList.map (·.text))

namespace Trail

@[simp] theorem erase_append (t : Trail) (text : String) : (t.append text).erase = t.erase := rfl

@[simp] theorem erase_begin (t : Trail) (o : Bool) : (t.begin o).erase = t.erase.begin o := by
  simp [erase, begin, toList, Component.erase]

theorem erase_modify (t : Trail) {f : Component → Component}
    (h : ∀ c, (f c).erase = f c.erase) : (t.modify f).erase = t.erase.modify f := by
  simp [erase, modify, h]

@[simp] theorem text_append (t : Trail) (x : String) : (t.append x).text = t.text ++ x := by
  simp [text, toList, append, modify, Component.append, String.join_append, String.append_assoc]

@[simp] theorem text_begin (t : Trail) (o : Bool) : (t.begin o).text = t.text := by
  simp [text, String.join_append]

theorem text_modify (t : Trail) {f : Component → Component} (h : ∀ c, (f c).text = c.text) :
    (t.modify f).text = t.text := by
  simp [text, toList, modify, h]

end Trail

/-! ## Outlines -/

theorem Cursor.suffix_relative (cs : List Char) : relative cs <:+ cs := by
  unfold relative
  split
  · exact List.suffix_append ['.', '/'] _
  · exact List.suffix_rfl

theorem Cursor.relative_eq_self {cs : List Char} (h : ¬ ['.', '/'] <+: cs) : relative cs = cs := by
  unfold relative
  split
  · exact absurd ⟨_, rfl⟩ h
  · rfl

theorem PosixClass.at?_isNamed {c : Cursor} {n : Named} (h : at? c = some n) :
    ranges? n.name = some n.ranges := by
  unfold at? at h
  split at h
  · simp only at h
    split at h
    · obtain ⟨r, hr, rfl⟩ := Option.map_eq_some_iff.1 h
      exact hr
    · cases h
  · cases h

/-- What is open at a place in a glob. -/
inductive Opened where
  | nothing
  /-- A group with the sigil that announced it, if any, and the signs in it so far. -/
  | group (g : Option ExtGlob) (body : List Glyph)
  /-- Angles or braces. -/
  | pair (k : Delimiter)
  | bracket (b : Bracket)

namespace Opened

/-- Whether nothing is open. -/
def isNothing : Opened → Bool
  | nothing => true
  | _ => false

/-- Whether a group is open. -/
def isGroup : Opened → Bool
  | group .. => true
  | _ => false

/-- Whether a bracket expression is open. -/
def isBracket : Opened → Bool
  | bracket _ => true
  | _ => false

/-- The characters that opened what is open. -/
def openers : Opened → List Char
  | nothing => []
  | group .. => ['(']
  | pair k => [k.opener]
  | bracket _ => ['[']

/-- The regular expression text of what is open. -/
def text (d : Dialect) : Opened → String
  | group g body => ExtGlob.openingText g ++ Glyph.texts d body
  | bracket b => "(?:" ++ b.text
  | nothing | pair _ => ""

end Opened

/-- The outline of a glob at a place in it. -/
structure Outline where
  cursor : Cursor
  opened : Opened := .nothing
  /-- The extended group that the last character announced. -/
  announced : Option ExtGlob := none
  /-- What the last character closed. -/
  closed : Option Enclosed := none
  parts : List Part := []
  /-- The components, without their texts. -/
  trail : Trail := {}
  negated : Bool := false
  dot : Bool := false
  hasGlobstar : Bool := false

namespace Outline

/-- Adds a sign to the open group, or to the parts. -/
def put (o : Outline) (g : Glyph) : Outline :=
  match o.opened with
  | .group e body => { o with opened := .group e (body ++ [g]) }
  | _ => { o with parts := o.parts ++ [.glyph g] }

theorem put_outside {o : Outline} (h : o.opened.isGroup = false) (g : Glyph) :
    o.put g = { o with parts := o.parts ++ [.glyph g] } := by
  unfold put
  split
  · rename_i ho
    rw [ho] at h
    cases h
  · rfl

theorem put_inside {o : Outline} {e : Option ExtGlob} {body : List Glyph}
    (h : o.opened = .group e body) (g : Glyph) :
    o.put g = { o with opened := .group e (body ++ [g]) } := by
  unfold put
  rw [h]

/-- Adds what the last character closed to the parts. -/
def settle (o : Outline) (isRepeated : Bool := false) : Outline :=
  { o with
    parts := o.parts ++ (o.closed.map (Part.enclosed · isRepeated)).toList
    closed := none }

theorem settle_of_none {o : Outline} (h : o.closed = none) : o.settle = o := by
  cases o
  cases h
  simp [settle]

/-- Adds a character that stands for itself, save that a bar between delimiters does not. -/
def literal (o : Outline) (c : Char) : Outline :=
  o.put (if c = '|' && !o.opened.isNothing then .bar else .char c)

/-- Changes what is known of the current component. -/
def mark (o : Outline) (change : Component → Component) : Outline :=
  { o with trail := o.trail.modify change }

/-! ## Groups and bracket expressions -/

/-- Opens a delimiter; between delimiters its character stands for itself. -/
def openAt (o : Outline) (k : Delimiter) (c : Char) : Outline :=
  match o.opened with
  | .nothing =>
    match k with
    | .paren => { o with opened := .group o.announced [], announced := none }
    | .bracket => { o with opened := .bracket {} }
    | .angle | .brace | .quote => literal { o with opened := .pair k } c
  | _ => o.literal c

/-- Ends a group. -/
def closeGroup (o : Outline) (g : Option ExtGlob) (body : List Glyph) : Outline :=
  mark { o with opened := .nothing, closed := some (.group g body o.cursor.atEnd) } fun c =>
    if g.all ExtGlob.isCapture then { c with capture := true } else { c with extGlob := true }

/-- Ends a bracket expression. -/
def closeBracket (o : Outline) (b : Bracket) (isClosed : Bool)
    (isFilled : isClosed = true → b.members ≠ []) : Outline :=
  { o with opened := .nothing, closed := some (.bracket b isClosed isFilled) }

/-- Closes a delimiter. One of another kind than the open one stands for itself, and it is an error
if nothing is open. -/
def closeAt (o : Outline) (k : Delimiter) (c : Char) : Except MissingOpening Outline :=
  match o.opened with
  | .nothing => .error ⟨k.opener⟩
  | .group g body => .ok (if k = .paren then o.closeGroup g body else o.literal c)
  | .pair l => .ok (if k = l then literal { o with opened := .nothing } c else o.literal c)
  | .bracket _ => .ok (o.literal c)

/-- Adds a member to the open bracket expression. -/
def member (o : Outline) (b : Bracket) (m : Member) : Outline :=
  { o with opened := .bracket (b.add m) }

/-- Reads a character of a bracket expression. -/
def stepBracket (o : Outline) (b : Bracket) (c : Char) : Outline :=
  if b.isFresh && (c = '!' || c = '^') then { o with opened := .bracket { b with sign := some c } }
  else if c = ']' then
    if h : b.members = [] then o.member b (.char ']') else o.closeBracket b true fun _ => h
  else if c = '\\' then
    match o.cursor.next? with
    | some (e, cursor) => member { o with cursor } b (.char e)
    | none => o.member b (.char '\\')
  else if c = '[' then
    match h : PosixClass.at? o.cursor with
    | some n =>
      member { o with cursor := o.cursor.skip n.text.length.pred } b
        (.named n (PosixClass.at?_isNamed h))
    | none => o.member b (.char c)
  else o.member b (.char c)

/-! ## Characters outside bracket expressions -/

/-- Reads the character behind a backslash. -/
def escape (o : Outline) : Outline :=
  match o.cursor.next? with
  | some (e, cursor) => put { o with cursor } (.char e)
  | none => o.put (.char '\\')

/-- Begins a component. -/
def separator (o : Outline) : Outline :=
  let isOptional := o.trail.current.globstar
  put { o with trail := o.trail.begin isOptional } (.separator isOptional)

/-- A literal dot. -/
def literalDot (o : Outline) : Outline :=
  let o :=
    if o.cursor.last = none || o.cursor.last = some '/' then
      { o.mark fun c => { c with dot := true } with dot := true }
    else o
  o.put (.char '.')

/-- `**`, and any further `*`. -/
def globstar (o : Outline) : Outline :=
  let o := (o.mark fun c => { c with globstar := true }).put (.globstar o.dot)
  { o with cursor := o.cursor.skipRun '*', hasGlobstar := true, dot := false }

/-- `*`. -/
def star (o : Outline) : Outline :=
  if o.cursor.nextIs '*' then o.globstar
  else
    o.put (.star (o.trail.current.origin = .separator && o.cursor.last = some '/' &&
      !o.cursor.nextIs '.'))

/-- `?`. -/
def qmark (o : Outline) : Outline :=
  if o.cursor.last = some '(' && o.opened.isGroup then o
  else o.put (.qmark (o.cursor.last = some '/'))

/-- `:`. -/
def colon (o : Outline) : Outline :=
  if o.opened.isGroup &&
      (o.cursor.last = some '(' || o.cursor.last = some '?' && o.cursor.beforeLast = some '(') then
    o.mark fun c => { c with capture := true }
  else o.literal ':'

/-- Reads a character that is no delimiter and announces no group. -/
def plain (o : Outline) (c : Char) : Outline :=
  match c with
  | '+' => if o.closed.isSome then o.settle true else o.literal c
  | '\\' => o.settle.escape
  | '/' => o.settle.separator
  | '.' => o.settle.literalDot
  | '!' => if o.cursor.isFirst then { o.settle with negated := true } else o.settle.literal c
  | '*' => o.settle.star
  | '?' => o.settle.qmark
  | ':' => o.settle.colon
  | _ => o.settle.literal c

/-! ## Steps -/

/-- The extended group that a character announces. -/
def announced? (o : Outline) (c : Char) : Option ExtGlob :=
  if o.opened.isNothing && o.cursor.nextIs '(' then ExtGlob.ofSigil? c else none

/-- Reads a character that the cursor has just passed. -/
def step (o : Outline) (c : Char) : Except MissingOpening Outline :=
  match o.opened with
  | .bracket b => .ok (o.stepBracket b c)
  | _ =>
    match o.announced? c with
    | some g => .ok { o.settle with announced := some g }
    | none =>
      match Delimiter.ofOpener? c with
      | some k => .ok (o.settle.openAt k c)
      | none =>
        match Delimiter.ofCloser? c with
        | some k => o.settle.closeAt k c
        | none => .ok (o.plain c)

theorem step_bracket {o : Outline} {b : Bracket} (h : o.opened = .bracket b) (c : Char) :
    o.step c = .ok (o.stepBracket b c) := by
  unfold step
  rw [h]

theorem step_of_not_bracket (o : Outline) (hb : o.opened.isBracket = false) (c : Char) :
    o.step c =
      match o.announced? c with
      | some g => .ok { o.settle with announced := some g }
      | none =>
        match Delimiter.ofOpener? c with
        | some k => .ok (o.settle.openAt k c)
        | none =>
          match Delimiter.ofCloser? c with
          | some k => o.settle.closeAt k c
          | none => .ok (o.plain c) := by
  unfold step
  split
  · rename_i ho
    rw [ho] at hb
    cases hb
  · rfl

@[simp] theorem cursor_put (o : Outline) (g : Glyph) : (o.put g).cursor = o.cursor := by
  unfold put; split <;> rfl

@[simp] theorem cursor_settle (o : Outline) (b : Bool) : (o.settle b).cursor = o.cursor := rfl

@[simp] theorem cursor_literal (o : Outline) (c : Char) : (o.literal c).cursor = o.cursor :=
  cursor_put ..

@[simp] theorem cursor_mark (o : Outline) (f : Component → Component) :
    (o.mark f).cursor = o.cursor := rfl

@[simp] theorem cursor_member (o : Outline) (b : Bracket) (m : Member) :
    (o.member b m).cursor = o.cursor := rfl

@[simp] theorem cursor_openAt (o : Outline) (k : Delimiter) (c : Char) :
    (o.openAt k c).cursor = o.cursor := by
  unfold openAt
  split
  · cases k <;> simp
  · simp

theorem cursor_closeAt {o o' : Outline} {k : Delimiter} {c : Char} (h : o.closeAt k c = .ok o') :
    o'.cursor = o.cursor := by
  unfold closeAt at h
  split at h <;> cases h
  · split <;> simp [closeGroup]
  · split <;> simp
  · simp

theorem rest_stepBracket_le (o : Outline) (b : Bracket) (c : Char) :
    (o.stepBracket b c).cursor.rest.length ≤ o.cursor.rest.length := by
  unfold stepBracket
  split
  · exact Nat.le_refl _
  · split
    · split <;> exact Nat.le_refl _
    · split
      · split
        · rename_i hn
          simp [Cursor.next?_rest hn]
        · exact Nat.le_refl _
      · split
        · split
          · simp [Cursor.rest_skip_le]
          · exact Nat.le_refl _
        · exact Nat.le_refl _

theorem rest_escape_le (o : Outline) : o.escape.cursor.rest.length ≤ o.cursor.rest.length := by
  unfold escape
  split
  · rename_i hn
    simp [Cursor.next?_rest hn]
  · simp

@[simp] theorem cursor_separator (o : Outline) : o.separator.cursor = o.cursor := cursor_put ..

@[simp] theorem cursor_literalDot (o : Outline) : o.literalDot.cursor = o.cursor := by
  unfold literalDot; split <;> simp

@[simp] theorem cursor_qmark (o : Outline) : o.qmark.cursor = o.cursor := by
  unfold qmark; split <;> simp

@[simp] theorem cursor_colon (o : Outline) : o.colon.cursor = o.cursor := by
  unfold colon; split <;> simp

theorem rest_star_le (o : Outline) : o.star.cursor.rest.length ≤ o.cursor.rest.length := by
  unfold star
  split
  · simp [globstar, Cursor.skipRun, Cursor.rest_skip_le]
  · simp

theorem rest_plain_le (o : Outline) (c : Char) :
    (o.plain c).cursor.rest.length ≤ o.cursor.rest.length := by
  unfold plain
  split
  case h_1 => split <;> simp
  case h_2 => exact rest_escape_le o.settle
  case h_5 => split <;> simp
  case h_6 => exact rest_star_le o.settle
  all_goals simp

/-- A step never goes back. -/
theorem rest_step_le {o o' : Outline} {c : Char} (h : o.step c = .ok o') :
    o'.cursor.rest.length ≤ o.cursor.rest.length := by
  unfold step at h
  split at h
  · cases h; exact rest_stepBracket_le ..
  · split at h
    · cases h; exact Nat.le_refl _
    · split at h
      · cases h; simp
      · split at h
        · exact Nat.le_of_eq (by rw [cursor_closeAt h, cursor_settle])
        · cases h; exact rest_plain_le ..

/-! ## A group is announced right before its parenthesis -/

@[simp] theorem announced_put (o : Outline) (g : Glyph) : (o.put g).announced = o.announced := by
  unfold put; split <;> rfl

@[simp] theorem announced_settle (o : Outline) (b : Bool) : (o.settle b).announced = o.announced :=
  rfl

@[simp] theorem announced_literal (o : Outline) (c : Char) :
    (o.literal c).announced = o.announced := announced_put ..

@[simp] theorem announced_mark (o : Outline) (f : Component → Component) :
    (o.mark f).announced = o.announced := rfl

theorem announced_openAt (o : Outline) {k : Delimiter} {c : Char}
    (hk : Delimiter.ofOpener? c = some k) (h : o.announced.isSome → c = '(') :
    (o.openAt k c).announced = none ∨ !o.opened.isNothing ∧ (o.openAt k c).announced = o.announced := by
  unfold openAt
  split
  · refine .inl ?_
    cases k with
    | paren => rfl
    | _ =>
      have : o.announced = none := by
        rw [← Option.not_isSome_iff_eq_none]
        intro hs
        rw [h hs] at hk
        cases hk
      simpa using this
  · rename_i hn
    refine .inr ⟨?_, announced_literal ..⟩
    cases ho : o.opened <;> first | rfl | exact absurd ho hn

theorem announced_closeAt {o o' : Outline} {k : Delimiter} {c : Char} (h : o.closeAt k c = .ok o') :
    o'.announced = o.announced := by
  unfold closeAt at h
  split at h <;> cases h
  · split <;> simp [closeGroup]
  · split <;> simp
  · simp

@[simp] theorem announced_stepBracket (o : Outline) (b : Bracket) (c : Char) :
    (o.stepBracket b c).announced = o.announced := by
  unfold stepBracket
  (repeat' split) <;> rfl

@[simp] theorem announced_plain (o : Outline) (c : Char) : (o.plain c).announced = o.announced := by
  unfold plain escape separator literalDot star globstar qmark colon
  (repeat' split) <;> simp

/-- If a step leaves a group announced, its parenthesis follows. -/
theorem nextIs_of_announced {o o' : Outline} {c : Char} (h : o.step c = .ok o')
    (ha : o.announced.isSome → c = '(' ∧ o.opened.isNothing) (hs : o'.announced.isSome) :
    o'.cursor.nextIs '(' := by
  have hn : c ≠ '(' → o.announced = none := fun hne => by
    rw [← Option.not_isSome_iff_eq_none]
    exact fun hs => hne (ha hs).1
  unfold step at h
  split at h
  · rename_i b hb
    cases h
    rw [announced_stepBracket] at hs
    have := (ha hs).2
    rw [hb] at this
    cases this
  · split at h
    · rename_i g hg
      cases h
      unfold announced? at hg
      split at hg
      · rename_i hc
        simp only [Bool.and_eq_true] at hc
        exact hc.2
      · cases hg
    · split at h
      · rename_i k hk
        cases h
        rcases announced_openAt o.settle hk fun hs => (ha hs).1 with hno | ⟨ho, hno⟩
        · rw [hno] at hs; cases hs
        · rw [hno] at hs
          have := (ha hs).2
          rw [show o.settle.opened = o.opened from rfl, this] at ho
          cases ho
      · rename_i hop
        have hne : c ≠ '(' := by rintro rfl; cases hop
        split at h
        · rw [announced_closeAt h, announced_settle, hn hne] at hs
          cases hs
        · cases h
          rw [announced_plain, hn hne] at hs
          cases hs

/-! ## The run -/

/-- Reads the rest of the glob. -/
def run (o : Outline) : Except MissingOpening Outline :=
  match _h : o.cursor.next? with
  | none => .ok o
  | some (c, cursor) =>
    match _h' : step { o with cursor } c with
    | .error e => .error e
    | .ok o' => run o'
termination_by o.cursor.rest.length
decreasing_by
  have h1 := rest_step_le _h'
  have h2 := Cursor.next?_rest _h
  simp only at h1
  simp only [h2, List.length_cons]
  omega

theorem run_nil {o : Outline} (h : o.cursor.rest = []) : o.run = .ok o := by
  have hnext : o.cursor.next? = none := by
    unfold Cursor.next?
    rw [h]
  rw [run]
  split
  · rfl
  · rename_i hsome
    rw [hnext] at hsome
    cases hsome

theorem run_cons {o : Outline} {b rest : List Char} {c : Char} (h : o.cursor = ⟨b, c :: rest⟩) :
    o.run = (step { o with cursor := ⟨c :: b, rest⟩ } c).bind run := by
  rw [run, h]
  simp only [Cursor.next?]
  split
  · rename_i e he
    rw [he]
    rfl
  · rename_i o' ho'
    rw [ho']
    rfl

/-- What every step keeps holds at the end of a run, where all is read. -/
theorem run_preserves {P : Outline → Prop}
    (hstep : ∀ o b c rest o', P o → o.cursor = ⟨b, c :: rest⟩ →
      step { o with cursor := ⟨c :: b, rest⟩ } c = .ok o' → P o')
    {o o' : Outline} (h : P o) (hrun : o.run = .ok o') : P o' ∧ o'.cursor.rest = [] := by
  induction hn : o.cursor.rest.length using Nat.strongRecOn generalizing o with
  | _ n ih =>
    rcases ho : o.cursor with ⟨b, _ | ⟨c, rest⟩⟩
    · have hrest : o.cursor.rest = [] := by rw [ho]
      rw [run_nil hrest] at hrun
      cases hrun
      exact ⟨h, hrest⟩
    · rw [run_cons ho] at hrun
      cases hs : step { o with cursor := ⟨c :: b, rest⟩ } c with
      | error e =>
        rw [hs] at hrun
        cases hrun
      | ok o₁ =>
        rw [hs] at hrun
        refine ih _ ?_ (hstep o b c rest o₁ h ho hs) hrun rfl
        have hle := rest_step_le hs
        rw [← hn, ho]
        exact Nat.lt_succ_of_le hle

/-- The outline once all is read, with what the glob leaves open ended. -/
def finish (o : Outline) : Outline :=
  settle <|
    match o.opened with
    | .nothing => o
    | .group g body => o.settle.closeGroup g body
    | .pair _ => { o with opened := .nothing }
    | .bracket b => o.settle.closeBracket b false nofun

/-- The outline of a whole glob, and the openers of what it leaves open. -/
def ofPattern (pattern : String) : Except MissingOpening (Outline × List Char) :=
  (run { cursor := .ofPattern pattern }).map fun o => (o.finish, o.opened.openers)

/-- Whether the first component gets a guard. -/
def isGuarded (o : Outline) : Bool :=
  !o.negated && o.trail.toList.head?.all fun c => !c.dot && !c.globstar

/-- The regular expression text of what has been read. -/
def text (d : Dialect) (o : Outline) : String :=
  Part.texts d o.parts ++ (o.closed.map (·.text d)).getD "" ++ o.opened.text d

end Outline
end PathGlob
