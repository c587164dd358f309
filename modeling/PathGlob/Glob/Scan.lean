/-
The rendering of a glob, one pass over its characters. A scan holds the position, what is open
there, the extended groups announced and the components so far; a step reads one character, or a few
that belong together, so every run ends.
-/
import PathGlob.Glob.ExtGlob
import PathGlob.Glob.Fragment
import PathGlob.Glob.Nesting
import PathGlob.Glob.PosixClass
import PathGlob.Glob.Rendering

namespace PathGlob

structure Scan where
  cursor : Cursor
  nesting : Nesting := {}
  pending : ExtGlob.Pending := {}
  trail : Trail := {}
  negated : Bool := false
  /-- A component has begun with a literal dot, and no globstar has come since. -/
  dot : Bool := false
  hasGlobstar : Bool := false
  /-- The last character ended a group or a bracket expression. -/
  afterGroup : Bool := false
  deriving DecidableEq, Repr

def Dialect.starText (d : Dialect) : String := d.star.getD Fragment.star

namespace Scan

/-! ## Writing -/

def append (s : Scan) (text : String) : Scan :=
  { s with nesting := s.nesting.append text, trail := s.trail.append text }

def note (s : Scan) (raw : String) : Scan := { s with nesting := s.nesting.note raw }

def mark (s : Scan) (change : Component → Component) : Scan :=
  { s with trail := s.trail.modify change }

/-- Writes a character that stands for itself, save that a bar between delimiters separates
alternatives. -/
def literal (s : Scan) (c : Char) : Scan :=
  s.append (Fragment.char (Fragment.isMeta c && !(c = '|' && s.nesting.depth != 0)) c)

def member (s : Scan) (c : Char) : Scan :=
  (s.note (String.singleton c)).append (Fragment.member c)

/-! ## Groups and bracket expressions -/

/-- Opens a delimiter; between delimiters its character stands for itself. -/
def opened (s : Scan) (k : Delimiter) (c : Char) : Scan :=
  if s.nesting.depth != 0 then s.literal c
  else
    match k with
    | .paren =>
      let text := (s.pending.last?.map ExtGlob.opening).getD "("
      Scan.append { s with nesting := s.nesting.push k c } text
    | .bracket =>
      let s := s.append "(?:"
      Scan.append { s with nesting := s.nesting.push k c } "["
    | .angle | .brace | .quote => literal { s with nesting := s.nesting.push k c } c

def closeGroup (d : Dialect) (s : Scan) : Scan :=
  let (group, pending) := s.pending.pop
  let s := { s with pending }
  let s := s.mark fun c =>
    if group.all ExtGlob.isCapture then { c with capture := true } else { c with extGlob := true }
  let text := (group.map (·.closing s.cursor.atEnd d.starText)).getD ")"
  { s.append text with afterGroup := true }

/-- Writes the end of a bracket expression, closed or cut off by the end of the pattern, with its
own text as a second alternative. -/
def closeBracket (s : Scan) (f : Frame) (closed : Bool) : Scan :=
  let isBare := f.text = "[" || f.text = "[^"
  let text := (if !closed && isBare then "\\[" else "") ++ "]|\\["
    ++ Fragment.literals f.raw.toList ++ (if closed then "\\]" else "") ++ ")"
  { s.append text with afterGroup := true }

/-- Closes a delimiter. One of another kind than the innermost stands for itself, and it is an error
if nothing is open. -/
def closed (d : Dialect) (s : Scan) (k : Delimiter) (c : Char) : Except MissingOpening Scan :=
  match s.nesting.topKind? with
  | none => .error ⟨k.opener⟩
  | some top =>
    if top ≠ k then .ok (s.literal c)
    else do
      let (f, nesting) ← s.nesting.pop k
      let s := { s with nesting }
      match k with
      | .paren => return s.closeGroup d
      | .bracket => return s.closeBracket f true
      | .angle | .brace | .quote => return s.literal c

/-- Reads a character of a bracket expression: a sign of negation right at its start, a `]` that
cannot end it while it is empty, its end, an escape, a named class or a plain member. -/
def stepBracket (d : Dialect) (s : Scan) (c : Char) : Except MissingOpening Scan :=
  let body := (s.nesting.top?.map (·.text)).getD ""
  let isNegatable := body = "["
  let isEmpty := isNegatable || body = "[^"
  if isNegatable && (c = '!' || c = '^') then .ok ((s.note (String.singleton c)).append "^")
  else if c = ']' then
    if isEmpty then .ok ((s.note "]").append "\\]") else s.closed d .bracket c
  else if c = '\\' then
    match s.cursor.next? with
    | some (e, cursor) => .ok (member { s with cursor } e)
    | none => .ok ((s.note "\\").append "\\\\")
  else if c = '[' then
    match PosixClass.at? s.cursor with
    | some n =>
      .ok ((note { s with cursor := s.cursor.skip n.text.length.pred } n.text).append n.ranges)
    | none => .ok (s.member c)
  else .ok (s.member c)

/-! ## Characters outside bracket expressions -/

/-- Reads the character behind a backslash, which stands for itself. -/
def escape (s : Scan) : Scan :=
  match s.cursor.next? with
  | some (e, cursor) => append { s with cursor } (Fragment.literal e)
  | none => s.append "\\\\"

/-- Begins a component; the separator is optional behind a globstar. -/
def separator (s : Scan) : Scan :=
  let isOptional := s.trail.current.globstar
  append { s with trail := s.trail.begin isOptional } (Fragment.separator isOptional)

/-- A literal dot; at the start of a component it lifts the guard. -/
def literalDot (s : Scan) : Scan :=
  let s :=
    if s.cursor.last = none || s.cursor.last = some '/' then
      { s.mark fun c => { c with dot := true } with dot := true }
    else s
  s.append "\\."

/-- `**`, and any further `*`. -/
def globstar (d : Dialect) (s : Scan) : Scan :=
  let s := (s.mark fun c => { c with globstar := true }).append (Fragment.globstar (s.dot || d.dot))
  { s with cursor := s.cursor.skipRun '*', hasGlobstar := true, dot := false }

/-- `*`, guarded at the start of every component but the first, and before a literal dot not at
all. -/
def star (d : Dialect) (s : Scan) : Scan :=
  if s.cursor.nextIs '*' then s.globstar d
  else
    let isGuarded := s.trail.current.origin = .separator && s.cursor.last = some '/' &&
      !s.cursor.nextIs '.'
    (if isGuarded then s.append (Fragment.dotGuard d.dot) else s).append d.starText

/-- `?`; right behind an opening parenthesis it is dropped. -/
def qmark (d : Dialect) (s : Scan) : Scan :=
  if s.cursor.last = some '(' && s.nesting.topKind? = some .paren then s
  else if s.cursor.last = some '/' && !d.dot then s.append Fragment.qmarkNoDot
  else s.append Fragment.qmark

/-- `:`; behind `(` or `(?` it is dropped and marks the group as a capture. -/
def colon (s : Scan) : Scan :=
  if s.nesting.topKind? = some .paren &&
      (s.cursor.last = some '(' || s.cursor.last = some '?' && s.cursor.beforeLast = some '(') then
    s.mark fun c => { c with capture := true }
  else s.literal ':'

/-- Reads a character that is no delimiter and announces no group. -/
def plain (d : Dialect) (s : Scan) (afterGroup : Bool) (c : Char) : Scan :=
  match c with
  | '\\' => s.escape
  | '/' => s.separator
  | '"' | '\'' | '\x60' => literal { s with nesting := s.nesting.toggleQuote c } c
  | '“' => literal { s with nesting := s.nesting.openQuote c } c
  | '”' => literal { s with nesting := s.nesting.closeQuote.2 } c
  | '.' => s.literalDot
  | '!' => if s.cursor.isFirst then { s with negated := true } else s.literal c
  | '*' => s.star d
  | '?' => s.qmark d
  | '+' => if afterGroup then s.append "+" else s.literal c
  | ':' => s.colon
  | _ => s.literal c

/-! ## The run -/

/-- The extended group that a character announces: a sigil outside all delimiters, right before a
parenthesis. -/
def announced? (s : Scan) (c : Char) : Option ExtGlob :=
  if s.nesting.depth = 0 && s.cursor.nextIs '(' then ExtGlob.ofSigil? c else none

def step (d : Dialect) (s : Scan) (c : Char) : Except MissingOpening Scan :=
  let afterGroup := s.afterGroup
  let s := { s with afterGroup := false }
  if s.nesting.isInside .bracket then s.stepBracket d c
  else
    match s.announced? c with
    | some g => .ok { s with pending := s.pending.push g }
    | none =>
      match Delimiter.ofOpener? c with
      | some k => .ok (s.opened k c)
      | none =>
        match Delimiter.ofCloser? c with
        | some k => s.closed d k c
        | none => .ok (s.plain d afterGroup c)

@[simp] theorem cursor_append (s : Scan) (text : String) : (s.append text).cursor = s.cursor := rfl

@[simp] theorem cursor_note (s : Scan) (raw : String) : (s.note raw).cursor = s.cursor := rfl

@[simp] theorem cursor_mark (s : Scan) (f : Component → Component) :
    (s.mark f).cursor = s.cursor := rfl

@[simp] theorem cursor_literal (s : Scan) (c : Char) : (s.literal c).cursor = s.cursor := rfl

@[simp] theorem cursor_member (s : Scan) (c : Char) : (s.member c).cursor = s.cursor := rfl

@[simp] theorem cursor_opened (s : Scan) (k : Delimiter) (c : Char) :
    (s.opened k c).cursor = s.cursor := by
  unfold opened
  split
  · rfl
  · cases k <;> rfl

@[simp] theorem cursor_closeGroup (d : Dialect) (s : Scan) :
    (s.closeGroup d).cursor = s.cursor := rfl

@[simp] theorem cursor_closeBracket (s : Scan) (f : Frame) (b : Bool) :
    (s.closeBracket f b).cursor = s.cursor := rfl

theorem cursor_closed {d : Dialect} {s s' : Scan} {k : Delimiter} {c : Char}
    (h : s.closed d k c = .ok s') : s'.cursor = s.cursor := by
  unfold closed at h
  split at h
  · cases h
  · split at h
    · cases h; rfl
    · cases hp : s.nesting.pop k with
      | error e => rw [hp] at h; cases h
      | ok p =>
        rw [hp] at h
        cases k <;> cases h <;> rfl

theorem rest_stepBracket_le {d : Dialect} {s s' : Scan} {c : Char}
    (h : s.stepBracket d c = .ok s') : s'.cursor.rest.length ≤ s.cursor.rest.length := by
  unfold stepBracket at h
  simp only at h
  split at h
  · cases h; simp
  · split at h
    · split at h
      · cases h; simp
      · exact Nat.le_of_eq (by rw [cursor_closed h])
    · split at h
      · split at h
        · rename_i hn
          cases h
          simp [Cursor.next?_rest hn]
        · cases h; simp
      · split at h
        · split at h
          · cases h; simp [Cursor.rest_skip_le]
          · cases h; simp
        · cases h; simp

theorem rest_escape_le (s : Scan) : s.escape.cursor.rest.length ≤ s.cursor.rest.length := by
  unfold escape
  split
  · rename_i hn
    simp [Cursor.next?_rest hn]
  · simp

@[simp] theorem cursor_separator (s : Scan) : s.separator.cursor = s.cursor := rfl

@[simp] theorem cursor_literalDot (s : Scan) : s.literalDot.cursor = s.cursor := by
  unfold literalDot; split <;> rfl

@[simp] theorem cursor_qmark (d : Dialect) (s : Scan) : (s.qmark d).cursor = s.cursor := by
  unfold qmark; split <;> (try split) <;> rfl

@[simp] theorem cursor_colon (s : Scan) : s.colon.cursor = s.cursor := by
  unfold colon; split <;> rfl

theorem rest_star_le (d : Dialect) (s : Scan) :
    (s.star d).cursor.rest.length ≤ s.cursor.rest.length := by
  unfold star
  split
  · exact Cursor.rest_skip_le ..
  · simp only [cursor_append]
    split <;> simp

theorem rest_plain_le (d : Dialect) (s : Scan) (b : Bool) (c : Char) :
    (s.plain d b c).cursor.rest.length ≤ s.cursor.rest.length := by
  unfold plain
  split
  case h_1 => exact rest_escape_le s
  case h_10 => exact rest_star_le d s
  all_goals first | simp | (split <;> simp)

/-- A step never goes back. -/
theorem rest_step_le {d : Dialect} {s s' : Scan} {c : Char} (h : s.step d c = .ok s') :
    s'.cursor.rest.length ≤ s.cursor.rest.length := by
  unfold step at h
  simp only at h
  split at h
  · have := rest_stepBracket_le h
    exact this
  · split at h
    · cases h; simp
    · split at h
      · cases h; simp
      · split at h
        · exact Nat.le_of_eq (by rw [cursor_closed h])
        · cases h; exact rest_plain_le ..

def run (d : Dialect) (s : Scan) : Except MissingOpening Scan :=
  match _h : s.cursor.next? with
  | none => .ok s
  | some (c, cursor) =>
    match _h' : step d { s with cursor } c with
    | .error e => .error e
    | .ok s' => run d s'
termination_by s.cursor.rest.length
decreasing_by
  have h1 := rest_step_le _h'
  have h2 := Cursor.next?_rest _h
  simp only at h1
  simp only [h2, List.length_cons]
  omega

/-! ## The end of the pattern -/

def cutOff (d : Dialect) (s : Scan) (f : Frame) : Scan :=
  match f.delimiter with
  | .paren => s.closeGroup d
  | .bracket => s.closeBracket f false
  | .angle | .brace | .quote => s

@[simp] theorem frames_cutOff_length (d : Dialect) (s : Scan) (f : Frame) :
    (s.cutOff d f).nesting.frames.length = s.nesting.frames.length := by
  unfold cutOff
  split <;> simp [closeGroup, closeBracket, append, mark]

/-- Ends everything that the pattern leaves open, innermost first. -/
def cutOffAll (d : Dialect) (s : Scan) : Scan :=
  match _h : s.nesting.frames with
  | [] => s
  | f :: fs =>
    let nesting := { s.nesting with frames := fs, tally := s.nesting.tally.lower f.delimiter }
    cutOffAll d (cutOff d { s with nesting } f)
termination_by s.nesting.frames.length
decreasing_by simp [_h]

/-- The rendering, once all is read. The first component gets a guard unless it begins with a dot
or is a globstar, or the whole pattern is negated. -/
def finish (d : Dialect) (s : Scan) : Rendering :=
  let unclosed := s.nesting.openers
  let s := s.cutOffAll d
  let trail := s.trail.modifyFirst fun c =>
    if !s.negated && !c.dot && !c.globstar then c.guard (Fragment.dotGuard d.dot) else c
  { negated := s.negated
    lead := "^" ++ d.lead.getD ""
    trail := d.trail.getD "" ++ "$"
    hasGlobstar := s.hasGlobstar
    components := trail.toList
    unclosed }

end Scan

/-- Renders a glob. It fails only at a closing character where nothing is open. -/
def Rendering.ofPattern (d : Dialect) (pattern : String) : Except MissingOpening Rendering :=
  (Scan.run d { cursor := .ofPattern pattern }).map (·.finish d)

end PathGlob
