/-
What one step of a scan does: it announces a group, opens or closes a delimiter, or writes. Each of these
is described once, with all that it changes of the open delimiters, the announced groups, the components
and the position, so that what a run keeps can be read off it.
-/
import Mathlib.Logic.Relation
import PathGlob.Proofs.Glob.Tracing

namespace PathGlob

open Relation (ReflTransGen)

/-! ## The tally -/

namespace Nesting

/-- The tally counts what is open, quotes on their own lane. -/
structure Counted (n : Nesting) : Prop where
  tally : ∀ k, n.tally.get k = (n.frames ++ n.quotes).countP (·.delimiter = k)
  quotes : ∀ q ∈ n.quotes, q.delimiter = .quote

namespace Counted

variable {n : Nesting}

theorem empty : Counted {} := ⟨fun k => by cases k <;> rfl, nofun⟩

theorem modifyTop (h : n.Counted) {change : Frame → Frame}
    (hkept : ∀ f, (change f).delimiter = f.delimiter) : (n.modifyTop change).Counted where
  tally k := by
    have htally : (n.modifyTop change).tally = n.tally := rfl
    rw [htally, h.tally]
    unfold Nesting.modifyTop
    cases n.frames <;> simp [List.countP_cons, hkept]
  quotes := h.quotes

theorem push (h : n.Counted) (k : Delimiter) (c : Char) : (n.push k c).Counted where
  tally l := by
    simp only [Nesting.push, Tally.raise, Tally.get_modify, h.tally, List.cons_append, List.countP_cons,
      decide_eq_true_eq]
    split <;> rfl
  quotes := h.quotes

theorem pop (h : n.Counted) {k : Delimiter} {f : Frame} {n' : Nesting} (hpop : n.pop k = .ok (f, n')) :
    n'.Counted := by
  unfold Nesting.pop at hpop
  split at hpop
  · cases hpop
  · rename_i g fs hframes
    split at hpop <;> cases hpop
    rename_i hk
    refine ⟨fun l => ?_, h.quotes⟩
    have hcount := h.tally l
    simp only [hframes, List.cons_append, List.countP_cons, decide_eq_true_eq, hk] at hcount
    simp only [Tally.lower, Tally.get_modify, hcount]
    split <;> simp

theorem openQuote (h : n.Counted) (c : Char) : (n.openQuote c).Counted where
  tally l := by
    simp only [Nesting.openQuote, Tally.raise, Tally.get_modify, h.tally, List.countP_append,
      List.countP_cons, decide_eq_true_eq]
    split <;> rfl
  quotes q hq := by
    rcases List.mem_cons.1 hq with rfl | hq
    · rfl
    · exact h.quotes q hq

theorem closeQuote (h : n.Counted) : n.closeQuote.2.Counted := by
  unfold Nesting.closeQuote
  split
  · exact h
  · rename_i q qs hquotes
    have hq : q.delimiter = .quote := h.quotes q (by rw [hquotes]; exact List.mem_cons_self)
    refine ⟨fun l => ?_, fun r hr => h.quotes r (by rw [hquotes]; exact List.mem_cons_of_mem _ hr)⟩
    have hcount := h.tally l
    simp only [hquotes, List.countP_append, List.countP_cons, decide_eq_true_eq, hq] at hcount
    simp only [Tally.lower, Tally.get_modify, hcount, List.countP_append]
    split <;> simp [*]

theorem toggleQuote (h : n.Counted) (c : Char) : (n.toggleQuote c).Counted := by
  unfold Nesting.toggleQuote
  split
  · exact h.closeQuote
  · exact h.openQuote c

/-- A delimiter is open if one of its kind is on the stack, or on the quotes' lane. -/
theorem isInside_iff (h : n.Counted) (k : Delimiter) :
    n.isInside k = true ↔ ∃ f ∈ n.frames ++ n.quotes, f.delimiter = k := by
  rw [isInside, h.tally, bne_iff_ne, ← Nat.pos_iff_ne_zero, List.countP_pos_iff]
  simp

theorem isInside_eq_false (h : n.Counted) {k : Delimiter} (hk : k ≠ .quote)
    (hframes : ∀ f ∈ n.frames, f.delimiter ≠ k) : n.isInside k = false := by
  rw [← Bool.not_eq_true, h.isInside_iff]
  rintro ⟨f, hf, hkind⟩
  rcases List.mem_append.1 hf with hf | hf
  · exact hframes f hf hkind
  · exact hk (hkind.symm.trans (h.quotes f hf))

end Counted

@[simp] theorem frames_openQuote (n : Nesting) (c : Char) : (n.openQuote c).frames = n.frames := rfl

@[simp] theorem frames_closeQuote (n : Nesting) : n.closeQuote.2.frames = n.frames := by
  unfold closeQuote
  split <;> rfl

@[simp] theorem frames_toggleQuote (n : Nesting) (c : Char) : (n.toggleQuote c).frames = n.frames := by
  unfold toggleQuote
  split <;> simp

theorem topKind?_of_nil {n : Nesting} (h : n.frames = []) : n.topKind? = none := by
  rw [topKind?, top?, h]
  rfl

theorem topKind?_of_frames {n : Nesting} {f : Frame} {fs : List Frame} (h : n.frames = f :: fs) :
    n.topKind? = some f.delimiter := by
  rw [topKind?, top?, h]
  rfl

/-- Where at most one frame is open, the innermost one is all that is open. -/
theorem frames_of_topKind? {n : Nesting} (hdepth : n.depth ≤ 1) {k : Delimiter} (h : n.topKind? = some k) :
    ∃ f, n.frames = [f] ∧ f.delimiter = k := by
  unfold depth at hdepth
  match hf : n.frames with
  | [] => cases (topKind?_of_nil hf).symm.trans h
  | [f] => exact ⟨f, rfl, Option.some.inj ((topKind?_of_frames hf).symm.trans h)⟩
  | f :: g :: fs => rw [hf] at hdepth; simp at hdepth

theorem pop_of_frames {n : Nesting} {f : Frame} {fs : List Frame} (h : n.frames = f :: fs) :
    n.pop f.delimiter = .ok (f, { n with frames := fs, tally := n.tally.lower f.delimiter }) := by
  rw [pop, h]
  exact if_pos rfl

end Nesting

theorem ExtGlob.sigil_of_ofSigil? {c : Char} {g : ExtGlob} (h : ofSigil? c = some g) : g.sigil = c := by
  unfold ofSigil? at h
  split at h <;> cases h <;> rfl

namespace Scan

/-! ## Components -/

/-- A scan that has added a text to the current component, or has begun the next one with it: then the
text begins with the separator, which is optional if the last component holds a globstar. -/
inductive Adds (x : String) (s s' : Scan) : Prop where
  | current
    (done : s'.trail.done = s.trail.done)
    (origin : s'.trail.current.origin = s.trail.current.origin)
    (isOptional : s'.trail.current.isOptional = s.trail.current.isOptional)
    (text : s'.trail.current.text = s.trail.current.text ++ x)
    (globstar : s'.trail.current.globstar = s.trail.current.globstar ∧ s'.hasGlobstar = s.hasGlobstar ∨
      s'.trail.current.globstar = true ∧ s'.hasGlobstar = true)
  | next
    (done : s'.trail.done = s.trail.toList)
    (origin : s'.trail.current.origin = .separator)
    (isOptional : s'.trail.current.isOptional = s.trail.current.globstar)
    (text : s'.trail.current.text = x)
    (separator : (Fragment.separator s.trail.current.globstar).toList <+: x.toList)
    (globstar : s'.trail.current.globstar = false)
    (hasGlobstar : s'.hasGlobstar = s.hasGlobstar)

namespace Adds

variable {x : String} {s s' u : Scan}

/-- A text added to the components as they are. -/
theorem of_append (htrail : u.trail = s.trail.append x) (hglobstar : u.hasGlobstar = s.hasGlobstar) :
    Adds x s u := by
  refine .current ?_ ?_ ?_ ?_ (.inl ⟨?_, hglobstar⟩) <;> rw [htrail] <;> rfl

theorem refl (s : Scan) : Adds "" s s := .current rfl rfl rfl String.append_empty.symm (.inl ⟨rfl, rfl⟩)

theorem append (h : Adds x s s') (y : String) : Adds (x ++ y) s (s'.append y) := by
  cases h with
  | current done origin isOptional text globstar =>
    refine .current done origin isOptional ?_ globstar
    rw [← String.append_assoc, ← text]
    rfl
  | next done origin isOptional text separator globstar hasGlobstar =>
    refine .next done origin isOptional ?_ ?_ globstar hasGlobstar
    · rw [← text]
      rfl
    · rw [String.toList_append]
      exact separator.trans (List.prefix_append ..)

/-- What else a scan knows does not matter. -/
theorem of_eq (h : Adds x s s') (htrail : u.trail = s'.trail)
    (hglobstar : u.hasGlobstar = s'.hasGlobstar) : Adds x s u := by
  cases h with
  | current done origin isOptional text globstar =>
    rw [← htrail] at done origin isOptional text globstar
    rw [← hglobstar] at globstar
    exact .current done origin isOptional text globstar
  | next done origin isOptional text separator globstar hasGlobstar =>
    rw [← htrail] at done origin isOptional text globstar
    exact .next done origin isOptional text separator globstar (hglobstar.trans hasGlobstar)

theorem of_left (h : Adds x u s') (htrail : s.trail = u.trail) (hglobstar : s.hasGlobstar = u.hasGlobstar) :
    Adds x s s' := by
  cases h with
  | current done origin isOptional text globstar =>
    rw [← htrail] at done origin isOptional text globstar
    rw [← hglobstar] at globstar
    exact .current done origin isOptional text globstar
  | next done origin isOptional text separator globstar hasGlobstar =>
    rw [← htrail] at done isOptional separator
    exact .next done origin isOptional text separator globstar (hasGlobstar.trans hglobstar.symm)

/-- Marks of dots and groups do not matter either. -/
theorem mark (h : Adds x s s') {f : Component → Component}
    (hf : ∀ c, { f c with dot := c.dot, capture := c.capture, extGlob := c.extGlob } = c) :
    Adds x s (s'.mark f) := by
  have hsame := hf s'.trail.current
  cases h with
  | current done origin isOptional text globstar =>
    refine .current done ((congrArg (·.origin) hsame).trans origin)
      ((congrArg (·.isOptional) hsame).trans isOptional) ((congrArg (·.text) hsame).trans text) ?_
    have hglobstar : (s'.mark f).trail.current.globstar = _ := congrArg (·.globstar) hsame
    rw [hglobstar]
    exact globstar
  | next done origin isOptional text separator globstar hasGlobstar =>
    exact .next done ((congrArg (·.origin) hsame).trans origin)
      ((congrArg (·.isOptional) hsame).trans isOptional) ((congrArg (·.text) hsame).trans text) separator
      ((congrArg (·.globstar) hsame).trans globstar) hasGlobstar

theorem separator (s : Scan) : Adds (Fragment.separator s.trail.current.globstar) s s.separator := by
  refine .next rfl rfl rfl ?_ List.prefix_rfl rfl rfl
  exact String.empty_append

/-- The texts of the components grow by the text that is added. -/
theorem trail_text (h : Adds x s s') : s'.trail.text = s.trail.text ++ x := by
  unfold Trail.text Trail.toList
  cases h with
  | current done _ _ text _ =>
    simp [done, text, String.join_append, String.append_assoc]
  | next done _ _ text _ _ _ =>
    simp [done, text, Trail.toList, String.join_append, String.append_assoc]

end Adds

/-! ## Writing -/

/-- A scan that has written a text, to the open frame and to the components, and has opened, closed and
announced nothing but quotes. -/
structure Writes (x : String) (s s' : Scan) : Prop where
  frames : ∃ raw, s'.nesting.frames = s.nesting.frames.modifyHead fun f =>
    { f with text := f.text ++ x, raw := f.raw ++ raw }
  counted : s.nesting.Counted → s'.nesting.Counted
  pending : s'.pending = s.pending
  adds : Adds x s s'
  behind : s.cursor.behind <:+ s'.cursor.behind

namespace Writes

variable {s s' : Scan} {x : String}

theorem refl (s : Scan) : Writes "" s s where
  frames := ⟨"", by cases s.nesting.frames <;> simp⟩
  counted := id
  pending := rfl
  adds := .refl s
  behind := List.suffix_rfl

theorem append (h : Writes x s s') (y : String) : Writes (x ++ y) s (s'.append y) where
  frames := by
    obtain ⟨raw, hframes⟩ := h.frames
    refine ⟨raw, ?_⟩
    change s'.nesting.frames.modifyHead _ = _
    rw [hframes, List.modifyHead_modifyHead]
    congr 1
    funext f
    simp [String.append_assoc]
  counted hs := (h.counted hs).modifyTop fun _ => rfl
  pending := h.pending
  adds := h.adds.append y
  behind := h.behind

theorem note (h : Writes x s s') (raw : String) : Writes x s (s'.note raw) where
  frames := by
    obtain ⟨raw', hframes⟩ := h.frames
    refine ⟨raw' ++ raw, ?_⟩
    change s'.nesting.frames.modifyHead _ = _
    rw [hframes, List.modifyHead_modifyHead]
    congr 1
    funext f
    simp [String.append_assoc]
  counted hs := (h.counted hs).modifyTop fun _ => rfl
  pending := h.pending
  adds := h.adds.of_eq rfl rfl
  behind := h.behind

theorem mark (h : Writes x s s') {f : Component → Component}
    (hf : ∀ c, { f c with dot := c.dot, capture := c.capture, extGlob := c.extGlob } = c) :
    Writes x s (s'.mark f) :=
  ⟨h.frames, h.counted, h.pending, h.adds.mark hf, h.behind⟩

theorem move (h : Writes x s s') {cursor : Cursor} (hbehind : s'.cursor.behind <:+ cursor.behind) :
    Writes x s { s' with cursor } :=
  ⟨h.frames, h.counted, h.pending, h.adds.of_eq rfl rfl, h.behind.trans hbehind⟩

theorem requote (h : Writes x s s') {n : Nesting} (hframes : n.frames = s'.nesting.frames)
    (hcounted : s'.nesting.Counted → n.Counted) : Writes x s { s' with nesting := n } :=
  ⟨hframes ▸ h.frames, fun hs => hcounted (h.counted hs), h.pending, h.adds.of_eq rfl rfl, h.behind⟩

/-- The flags of a scan, that of globstars apart, do not matter. -/
theorem flag (h : Writes x s s') (negated dot afterGroup : Bool) :
    Writes x s { s' with negated, dot, afterGroup } :=
  ⟨h.frames, h.counted, h.pending, h.adds.of_eq rfl rfl, h.behind⟩

theorem settle {afterGroup : Bool} (h : Writes x { s with afterGroup } s') : Writes x s s' :=
  ⟨h.frames, h.counted, h.pending, h.adds.of_left rfl rfl, h.behind⟩

theorem topKind? (h : Writes x s s') : s'.nesting.topKind? = s.nesting.topKind? := by
  obtain ⟨raw, hframes⟩ := h.frames
  rw [Nesting.topKind?, Nesting.top?, hframes, Nesting.topKind?, Nesting.top?]
  cases s.nesting.frames <;> rfl

theorem literal (h : Writes x s s') (c : Char) : ∃ y, Writes y s (s'.literal c) := ⟨_, h.append _⟩

theorem member (h : Writes x s s') (c : Char) : ∃ y, Writes y s (s'.member c) :=
  ⟨_, (h.note _).append _⟩

end Writes
end Scan

theorem Cursor.suffix_next? {c c' : Cursor} {x : Char} (h : c.next? = some (x, c')) :
    c.behind <:+ c'.behind := by
  unfold next? at h
  split at h <;> cases h
  exact List.suffix_cons ..

theorem Cursor.suffix_skip (c : Cursor) (n : Nat) : c.behind <:+ (c.skip n).behind :=
  List.suffix_append ..

namespace Scan
namespace Writes

variable {s s' : Scan} {x : String}

theorem globstar (d : Dialect) (s : Scan) : ∃ x, Writes x s (s.globstar d) := by
  have hwrites := (refl s).append (Fragment.globstar (s.dot || d.dot))
  exact ⟨_, hwrites.frames, hwrites.counted, hwrites.pending,
    .current rfl rfl rfl rfl (.inr ⟨rfl, rfl⟩), Cursor.suffix_skip ..⟩

theorem separator (s : Scan) : ∃ x, Writes x s s.separator := by
  have hwrites := (refl s).append (Fragment.separator s.trail.current.globstar)
  rw [String.empty_append] at hwrites
  exact ⟨_, hwrites.frames, hwrites.counted, hwrites.pending, .separator s, List.suffix_rfl⟩

/-- A character that is no delimiter and announces no group. -/
theorem plain (d : Dialect) (s : Scan) (afterGroup : Bool) (c : Char) :
    ∃ x, Writes x s (s.plain d afterGroup c) := by
  have hs := refl s
  have hquote {n : Nesting} (hframes : n.frames = s.nesting.frames)
      (hcounted : s.nesting.Counted → n.Counted) (c : Char) :=
    (hs.requote hframes hcounted).literal c
  unfold Scan.plain
  split
  case h_1 =>
    unfold escape
    split
    · rename_i hnext
      exact ⟨_, (hs.move (Cursor.suffix_next? hnext)).append _⟩
    · exact ⟨_, hs.append _⟩
  case h_2 => exact separator s
  case h_3 | h_4 | h_5 => exact hquote (Nesting.frames_toggleQuote ..) (·.toggleQuote _) _
  case h_6 => exact hquote (Nesting.frames_openQuote ..) (·.openQuote _) _
  case h_7 => exact hquote (Nesting.frames_closeQuote _) (·.closeQuote) _
  case h_8 =>
    have hmarked := hs.mark (f := fun c => { c with dot := true }) fun _ => rfl
    unfold literalDot
    split
    · exact ⟨_, (hmarked.flag s.negated true s.afterGroup).append _⟩
    · exact ⟨_, hs.append _⟩
  case h_9 =>
    split
    · exact ⟨_, hs.flag true s.dot s.afterGroup⟩
    · exact hs.literal _
  case h_10 =>
    unfold star
    split
    · exact globstar d s
    · simp only
      split
      · exact ⟨_, (hs.append _).append _⟩
      · exact ⟨_, hs.append _⟩
  case h_11 =>
    unfold qmark
    split
    · exact ⟨_, hs⟩
    · split <;> exact ⟨_, hs.append _⟩
  case h_12 =>
    split
    · exact ⟨_, hs.append _⟩
    · exact hs.literal _
  case h_13 =>
    unfold colon
    split
    · exact ⟨_, hs.mark fun _ => rfl⟩
    · exact hs.literal _
  case h_14 => exact hs.literal _

/-- A character of a bracket expression that does not end it. -/
theorem stepBracket {d : Dialect} {s s' : Scan} {c : Char} (h : s.stepBracket d c = .ok s') :
    (∃ x, Writes x s s') ∨ s.closed d .bracket c = .ok s' ∧ c = ']' := by
  have hs := refl s
  unfold Scan.stepBracket at h
  simp only at h
  split at h
  · cases h
    exact .inl ⟨_, (hs.note _).append _⟩
  · split at h
    · rename_i hc
      split at h
      · cases h
        exact .inl ⟨_, (hs.note _).append _⟩
      · exact .inr ⟨h, hc⟩
    · split at h
      · split at h <;> cases h
        · rename_i hnext
          exact .inl ((hs.move (Cursor.suffix_next? hnext)).member _)
        · exact .inl ⟨_, (hs.note _).append _⟩
      · split at h
        · split at h <;> cases h
          · exact .inl ⟨_, ((hs.move (Cursor.suffix_skip ..)).note _).append _⟩
          · exact .inl (hs.member _)
        · cases h
          exact .inl (hs.member _)

end Writes

/-! ## Steps -/

/-- What a step does that reads a character which the cursor has just passed, where at most one frame is
open. -/
inductive Moves (d : Dialect) (s : Scan) (c : Char) (s' : Scan) : Prop where
  | announces (g : ExtGlob)
    (outside : s.nesting.frames = [])
    (sigil : c = g.sigil)
    (next : s.cursor.nextIs '(' = true)
    (eq : s' = { s with pending := s.pending.push g, afterGroup := false })
  | opens (k : Delimiter) (text x : String)
    (outside : s.nesting.frames = [])
    (opener : Delimiter.ofOpener? c = some k)
    (frames : s'.nesting.frames = [⟨k, c, text, ""⟩])
    (counted : s.nesting.Counted → s'.nesting.Counted)
    (pending : s'.pending = s.pending)
    (cursor : s'.cursor = s.cursor)
    (adds : Adds x s s')
    (group : k = .paren → text = x ∧ x = ExtGlob.openingText s.pending.last?)
  | writes (x : String)
    (writes : Writes x s s')
    (other : s.nesting.frames = [] → s.nesting.isInside .bracket = false → c ≠ '(')
  | closes (f : Frame) (x : String)
    (inside : s.nesting.frames = [f])
    (closer : Delimiter.ofCloser? c = some f.delimiter)
    (frames : s'.nesting.frames = [])
    (counted : s.nesting.Counted → s'.nesting.Counted)
    (cursor : s'.cursor = s.cursor)
    (adds : Adds x s s')
    (pending : s'.pending = if f.delimiter = .paren then s.pending.pop.2 else s.pending)
    (group : f.delimiter = .paren → x = ExtGlob.closingText d s.pending.last? s.cursor.atEnd)

namespace Moves

variable {d : Dialect} {s s' : Scan} {c : Char}

theorem frames_pushed {s : Scan} (h : s.nesting.frames = []) (k : Delimiter) (c : Char) (x : String) :
    (Scan.append { s with nesting := s.nesting.push k c } x).nesting.frames = [⟨k, c, x, ""⟩] := by
  simp [Scan.append, Nesting.append, Nesting.modifyTop, Nesting.push, h]

theorem counted_append {s : Scan} (h : s.nesting.Counted) (x : String) : (s.append x).nesting.Counted :=
  h.modifyTop fun _ => rfl

theorem counted_pushed {s : Scan} (h : s.nesting.Counted) (k : Delimiter) (c : Char) (x : String) :
    (Scan.append { s with nesting := s.nesting.push k c } x).nesting.Counted :=
  counted_append (h.push k c) x

/-- What was closed last does not matter. -/
theorem settle {afterGroup : Bool} (h : Moves d { s with afterGroup } c s') : Moves d s c s' := by
  cases h with
  | announces g outside sigil next eq => exact .announces g outside sigil next eq
  | opens k text x outside opener frames counted pending cursor adds group =>
    exact .opens k text x outside opener frames counted pending cursor (adds.of_left rfl rfl) group
  | writes x writes other => exact .writes x writes.settle other
  | closes f x inside closer frames counted cursor adds pending group =>
    exact .closes f x inside closer frames counted cursor (adds.of_left rfl rfl) pending group

/-- An opening character opens where nothing is open. -/
theorem opened (d : Dialect) {s : Scan} {k : Delimiter} {c : Char} (hk : Delimiter.ofOpener? c = some k) :
    Moves d s c (s.opened k c) := by
  unfold Scan.opened
  by_cases hdepth : s.nesting.depth = 0
  · have hframes : s.nesting.frames = [] := List.length_eq_zero_iff.1 hdepth
    have hpair (hne : k ≠ .paren) :
        Moves d s c (Scan.literal { s with nesting := s.nesting.push k c } c) :=
      .opens k _ _ hframes hk (frames_pushed hframes k c _) (counted_pushed · k c _) rfl rfl
        (.of_append rfl rfl) (absurd · hne)
    rw [if_neg (by simp [hdepth])]
    cases k with
    | paren =>
      exact .opens .paren _ _ hframes hk (frames_pushed hframes .paren c _) (counted_pushed · .paren c _)
        rfl rfl (.of_append rfl rfl) fun _ => ⟨rfl, rfl⟩
    | bracket =>
      have hframes' : (s.append "(?:").nesting.frames = [] := by
        simp [Scan.append, Nesting.append, Nesting.modifyTop, hframes]
      exact .opens .bracket _ _ hframes hk (frames_pushed hframes' .bracket c "[")
        (fun h => counted_pushed (counted_append h _) .bracket c "[") rfl rfl
        ((((Adds.refl s).append _).append _).of_eq rfl rfl) fun h => by cases h
    | angle | brace | quote => exact hpair (by decide)
  · rw [if_pos (by simp [hdepth])]
    refine .writes _ ((Writes.refl s).append _) fun hframes => ?_
    exact absurd (List.length_eq_zero_iff.2 hframes) hdepth

/-- The end of a group, whose frame has been taken off. -/
theorem adds_closeGroup (d : Dialect) (s : Scan) :
    Adds (ExtGlob.closingText d s.pending.last? s.cursor.atEnd) s (s.closeGroup d) := by
  have hadds := ((Adds.refl s).mark (f := fun c =>
    if s.pending.last?.all ExtGlob.isCapture then { c with capture := true } else { c with extGlob := true })
      fun c => by split <;> rfl).append (ExtGlob.closingText d s.pending.last? s.cursor.atEnd)
  rw [String.empty_append] at hadds
  exact hadds.of_eq rfl rfl

theorem frames_append {s : Scan} (h : s.nesting.frames = []) (x : String) :
    (s.append x).nesting.frames = [] := by
  simp [Scan.append, Nesting.append, Nesting.modifyTop, h]

/-- A closing character closes what is open if it is its partner. -/
theorem closed {s s' : Scan} (hdepth : s.nesting.depth ≤ 1) {k : Delimiter} {c : Char}
    (hk : Delimiter.ofCloser? c = some k) (h : s.closed d k c = .ok s') : Moves d s c s' := by
  have hc : c ≠ '(' := by
    rintro rfl
    cases hk
  unfold Scan.closed at h
  split at h
  · cases h
  · rename_i top htop
    split at h
    · cases h
      exact .writes _ ((Writes.refl s).append _) fun _ _ => hc
    · rename_i hsame
      obtain ⟨f, hframes, hkind⟩ := Nesting.frames_of_topKind? hdepth htop
      obtain rfl : top = k := Decidable.not_not.1 hsame
      subst hkind
      have hpop := Nesting.pop_of_frames hframes
      rw [hpop] at h
      have hcounted (hs : s.nesting.Counted) := hs.pop hpop
      obtain ⟨l, opener, text, raw⟩ := f
      cases l with
      | paren =>
        cases h
        exact .closes _ _ hframes hk (frames_append rfl _) (fun hs => counted_append (hcounted hs) _) rfl
          ((adds_closeGroup d s).of_eq rfl rfl) (if_pos rfl).symm fun _ => rfl
      | bracket =>
        cases h
        exact .closes _ _ hframes hk (frames_append rfl _) (fun hs => counted_append (hcounted hs) _) rfl
          (.of_append rfl rfl) (if_neg nofun).symm nofun
      | angle | brace | quote =>
        cases h
        exact .closes _ _ hframes hk (frames_append rfl _) (fun hs => counted_append (hcounted hs) _) rfl
          (.of_append rfl rfl) (if_neg nofun).symm nofun

/-- Whatever a character is, reading it is one of the four moves. -/
theorem step {s s' : Scan} (hdepth : s.nesting.depth ≤ 1) {c : Char} (h : s.step d c = .ok s') :
    Moves d s c s' := by
  suffices hsettled : Moves d { s with afterGroup := false } c s' from hsettled.settle
  unfold Scan.step at h
  simp only at h
  split at h
  · rename_i hinside
    rcases Writes.stepBracket h with ⟨x, hwrites⟩ | ⟨hclosed, rfl⟩
    · exact .writes x hwrites fun _ houtside => by rw [houtside] at hinside; cases hinside
    · exact closed (s := { s with afterGroup := false }) hdepth rfl hclosed
  · split at h
    · rename_i g hannounced
      cases h
      unfold Scan.announced? at hannounced
      split at hannounced
      · rename_i hopen
        rw [Bool.and_eq_true, decide_eq_true_eq] at hopen
        exact .announces g (List.length_eq_zero_iff.1 hopen.1) (ExtGlob.sigil_of_ofSigil? hannounced).symm
          hopen.2 rfl
      · cases hannounced
    · split at h
      · rename_i k hk
        cases h
        exact opened d hk
      · rename_i hopener
        split at h
        · rename_i k hk
          exact closed (s := { s with afterGroup := false }) hdepth hk h
        · cases h
          obtain ⟨x, hwrites⟩ := Writes.plain d { s with afterGroup := false } s.afterGroup c
          refine .writes x hwrites fun _ _ => ?_
          rintro rfl
          cases hopener

end Moves

/-! ## Runs -/

/-- A scan that has read the next character. -/
def Reads (d : Dialect) (s s' : Scan) : Prop :=
  ∃ c cursor, s.cursor.next? = some (c, cursor) ∧ step d { s with cursor } c = .ok s'

/-- The places that the scan of a pattern comes to, between its steps. -/
def Reached (d : Dialect) (pattern : String) : Scan → Prop :=
  ReflTransGen (Reads d) { cursor := .ofPattern pattern }

theorem run_nil {d : Dialect} {s : Scan} (h : s.cursor.rest = []) : s.run d = .ok s := by
  have hnext : s.cursor.next? = none := by
    unfold Cursor.next?
    rw [h]
  rw [run]
  split
  · rfl
  · rename_i hsome
    rw [hnext] at hsome
    cases hsome

theorem run_cons {d : Dialect} {s : Scan} {b rest : List Char} {c : Char} (h : s.cursor = ⟨b, c :: rest⟩) :
    s.run d = (step d { s with cursor := ⟨c :: b, rest⟩ } c).bind (run d) := by
  rw [run, h]
  simp only [Cursor.next?]
  split
  · rename_i e he
    rw [he]
    rfl
  · rename_i s' hs'
    rw [hs']
    rfl

/-- What holds where a run ends, and of a place if it holds of the next one, holds of the place where the run
begins. -/
theorem run_induct {d : Dialect} {u : Scan} {P : Scan → Prop} (stop : u.cursor.rest = [] → P u)
    (next : ∀ s s₁ b c rest, s.cursor = ⟨b, c :: rest⟩ →
      step d { s with cursor := ⟨c :: b, rest⟩ } c = .ok s₁ → s₁.run d = .ok u → P s₁ → P s)
    {s : Scan} (h : s.run d = .ok u) : P s := by
  -- a step may pass over several characters, so the induction is on how many are left
  induction hn : s.cursor.rest.length using Nat.strongRecOn generalizing s with
  | _ n ih =>
    rcases hs : s.cursor with ⟨b, _ | ⟨c, rest⟩⟩
    · have hrest : s.cursor.rest = [] := by rw [hs]
      obtain rfl : s = u := Except.ok.inj ((run_nil hrest).symm.trans h)
      exact stop hrest
    · rw [run_cons hs] at h
      cases hstep : step d { s with cursor := ⟨c :: b, rest⟩ } c with
      | error e =>
        rw [hstep] at h
        cases h
      | ok s₁ =>
        rw [hstep] at h
        have hle := rest_step_le hstep
        exact next s s₁ b c rest hs hstep h (ih _ (by rw [← hn, hs]; exact Nat.lt_succ_of_le hle) h rfl)

/-- A run goes from place to place until all is read. -/
theorem reads_of_run {d : Dialect} {s s' : Scan} (h : s.run d = .ok s') :
    ReflTransGen (Reads d) s s' ∧ s'.cursor.rest = [] := by
  refine run_induct (P := fun s => ReflTransGen (Reads d) s s' ∧ s'.cursor.rest = [])
    (fun hrest => ⟨.refl, hrest⟩) ?_ h
  intro s s₁ b c rest hs hstep _ ih
  obtain ⟨hreads, hrest⟩ := ih
  exact ⟨hreads.head ⟨c, ⟨c :: b, rest⟩, by rw [hs]; rfl, hstep⟩, hrest⟩

end Scan

/-- A rendering is what the scan comes to when all is read, finished. -/
theorem Rendering.exists_reached {d : Dialect} {pattern : String} {r : Rendering}
    (h : ofPattern d pattern = .ok r) : ∃ s, Scan.run d { cursor := .ofPattern pattern } = .ok s ∧
      Scan.Reached d pattern s ∧ s.cursor.rest = [] ∧ s.finish d = r := by
  unfold ofPattern at h
  cases hrun : Scan.run d { cursor := .ofPattern pattern } with
  | error e =>
    rw [hrun] at h
    cases h
  | ok s =>
    rw [hrun] at h
    obtain ⟨hreached, hrest⟩ := Scan.reads_of_run hrun
    exact ⟨s, rfl, hreached, hrest, Except.ok.inj h⟩

end PathGlob
