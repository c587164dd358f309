/-
A cursor is a position in its text and nothing else. Whatever has been looked at ahead, and however often,
a cursor that queues what it looks at answers as the plain one does, and both answer as the text does at the
number of characters consumed.
-/
import PathGlob.Glob.QueuedCursor
import PathGlob.Proofs.Glob.Exchange

namespace PathGlob

/-! ## Calls -/

namespace Cursor

/-- What can be asked of a cursor; only characters ahead can be looked at. -/
inductive Call where
  | advance
  | peek (n : Nat) (ahead : 0 < n)
  | nextIs (x : Char)
  | atEnd
  | restStartsWith (x : Char)

inductive Answer where
  | character (x : Option Char)
  | verdict (b : Bool)
  deriving DecidableEq

/-- A call with its answer. -/
abbrev Exchange := Call × Answer

/-- Whether a character was consumed. -/
def Exchange.consumes : Exchange → Bool
  | (.advance, .character (some _)) => true
  | _ => false

/-- The answer to a call, and the cursor behind it. -/
def call (c : Cursor) : Call → Answer × Cursor
  | .advance => (.character (c.next?.map (·.1)), c.advance)
  | .peek n _ => (.character (c.peek n), c)
  | .nextIs x => (.verdict (c.nextIs x), c)
  | .atEnd => (.verdict c.atEnd, c)
  | .restStartsWith x => (.verdict (c.nextIs x), c)

/-- Everything that can be seen of a cursor. -/
@[ext]
structure View where
  answer : Call → Answer
  last : Option Char
  beforeLast : Option Char
  isFirst : Bool
  rest : List Char

def view (c : Cursor) : View where
  answer k := (c.call k).1
  last := c.last
  beforeLast := c.beforeLast
  isFirst := c.isFirst
  rest := c.rest

/-- What is seen in a text behind its first `i` characters. -/
def View.at (t : List Char) (i : Nat) : View where
  answer
    | .advance => .character t[i]?
    | .peek n _ => .character t[i + n - 1]?
    | .nextIs x => .verdict (t[i]? = some x)
    | .atEnd => .verdict (t[i]? = none)
    | .restStartsWith x => .verdict (t[i]? = some x)
  last := if 2 ≤ i then t[i - 2]? else none
  beforeLast := if 3 ≤ i then t[i - 3]? else none
  isFirst := i = 1
  rest := t.drop i

end Cursor

namespace QueuedCursor

open Cursor (Call Answer View)

/-- The answer to a call, and the cursor behind it. -/
def call (c : QueuedCursor) : Call → Answer × QueuedCursor
  | .advance =>
    match c.next? with
    | some (x, c) => (.character (some x), c)
    | none => (.character none, c)
  | .peek n _ => ((c.peek n).map .character id)
  | .nextIs x => ((c.nextIs x).map .verdict id)
  | .atEnd => (c.atEnd.map .verdict id)
  | .restStartsWith x => (.verdict (c.restStartsWith x), c)

def view (c : QueuedCursor) : View where
  answer k := (c.call k).1
  last := c.last
  beforeLast := c.beforeLast
  isFirst := c.isFirst
  rest := c.rest

end QueuedCursor

/-! ## Plain cursors -/

namespace Cursor

/-- The cursor in a text behind its first `i` characters. -/
def behindFirst (t : List Char) (i : Nat) : Cursor := ⟨(t.take i).reverse, t.drop i⟩

variable {t : List Char} {i : Nat}

theorem next?_behindFirst : (behindFirst t i).next? = t[i]?.map fun x => (x, behindFirst t (i + 1)) := by
  cases h : t[i]? with
  | none =>
    have hend : t.drop i = [] := List.drop_eq_nil_of_le (List.getElem?_eq_none_iff.1 h)
    rw [next?, behindFirst, hend]
    rfl
  | some x =>
    obtain ⟨hi, rfl⟩ := List.getElem?_eq_some_iff.1 h
    have hbehind : (t.take (i + 1)).reverse = t[i] :: (t.take i).reverse := by
      rw [List.take_add_one, h]
      simp
    rw [next?, behindFirst, List.drop_eq_getElem_cons hi, behindFirst, hbehind]
    rfl

theorem peek_behindFirst {n : Nat} (hn : 0 < n) : (behindFirst t i).peek n = t[i + n - 1]? := by
  rw [peek, if_neg (Nat.ne_of_gt hn), behindFirst, List.getElem?_drop, Nat.add_sub_assoc hn]

theorem atEnd_behindFirst : (behindFirst t i).atEnd = decide (t[i]? = none) := by
  rw [Bool.eq_iff_iff, atEnd, behindFirst, List.isEmpty_iff, List.drop_eq_nil_iff, decide_eq_true_iff,
    List.getElem?_eq_none_iff]

theorem answer_behindFirst (t : List Char) (i : Nat) (k : Call) :
    ((behindFirst t i).call k).1 = (View.at t i).answer k := by
  cases k with
  | advance =>
    rw [call, next?_behindFirst, Option.map_map]
    simp [View.at, Function.comp_def]
  | peek n ahead => exact congrArg Answer.character (peek_behindFirst ahead)
  | nextIs x | restStartsWith x =>
    rw [call, nextIs, peek_behindFirst Nat.one_pos]
    rfl
  | atEnd => exact congrArg Answer.verdict atEnd_behindFirst

/-- A call moves on only if it consumes a character. -/
theorem behindFirst_call (t : List Char) (i : Nat) (k : Call) : ((behindFirst t i).call k).2 =
    behindFirst t (if Exchange.consumes (k, (View.at t i).answer k) then i + 1 else i) := by
  cases k with
  | advance =>
    rw [call, advance, next?_behindFirst, View.at]
    dsimp only
    cases h : t[i]? <;> rfl
  | _ => rfl

/-- Where a character is consumed there is one. -/
theorem lt_of_consumes {k : Call} (h : Exchange.consumes (k, (View.at t i).answer k) = true) :
    i < t.length := by
  cases k with
  | advance =>
    refine Nat.lt_of_not_le fun hle => ?_
    rw [View.at, List.getElem?_eq_none hle] at h
    cases h
  | _ => cases h

/-- The characters behind a position, latest first. -/
theorem getElem?_reverse_take (hi : i ≤ t.length) (k : Nat) :
    (t.take i).reverse[k]? = if k + 1 ≤ i then t[i - (k + 1)]? else none := by
  split
  · rename_i hk
    rw [List.getElem?_reverse (by rw [List.length_take]; omega), List.getElem?_take, List.length_take,
      if_pos (by omega)]
    congr 1
    omega
  · rename_i hk
    exact List.getElem?_eq_none (by rw [List.length_reverse, List.length_take]; omega)

theorem view_behindFirst (hi : i ≤ t.length) : (behindFirst t i).view = View.at t i := by
  refine View.ext (funext (answer_behindFirst t i)) (getElem?_reverse_take hi 1)
    (getElem?_reverse_take hi 2) ?_ rfl
  rw [view, isFirst, behindFirst, List.length_reverse, List.length_take, Nat.min_eq_left hi]
  rfl

/-- Calls go on from a position by as many characters as they consume. -/
theorem exchange_behindFirst (hi : i ≤ t.length) (ks : List Call) :
    i + (exchange call (behindFirst t i) ks).1.countP Exchange.consumes ≤ t.length ∧
      (exchange call (behindFirst t i) ks).2 =
        behindFirst t (i + (exchange call (behindFirst t i) ks).1.countP Exchange.consumes) := by
  induction ks generalizing i with
  | nil => exact ⟨hi, rfl⟩
  | cons k ks ih =>
    simp only [exchange, List.countP_cons, answer_behindFirst, behindFirst_call]
    split
    · rename_i hconsumes
      have hbehind := ih (i := i + 1) (lt_of_consumes hconsumes)
      rwa [Nat.add_right_comm] at hbehind
    · exact ih hi

end Cursor

/-! ## Queued cursors -/

namespace QueuedCursor

open Cursor (Call Answer View)

/-- What is moved to a queue keeps its place. -/
theorem filled_append (n : Nat) (queue source : List Char) :
    (filled n queue source).1 ++ (filled n queue source).2 = queue ++ source := by
  fun_induction filled n queue source with
  | case1 => rfl
  | case2 queue x source hlength ih => rw [ih, List.append_assoc, List.singleton_append]
  | case3 => rfl

/-- A queue is filled unless the source runs out. -/
theorem filled_enough (n : Nat) (queue source : List Char) :
    n ≤ (filled n queue source).1.length ∨ (filled n queue source).2 = [] := by
  fun_induction filled n queue source with
  | case1 => exact .inr rfl
  | case2 queue x source hlength ih => exact ih
  | case3 queue x source hlength => exact .inl (Nat.le_of_not_lt hlength)

theorem getElem?_filled {n k : Nat} (hk : k < n) (queue source : List Char) :
    (filled n queue source).1[k]? = (queue ++ source)[k]? := by
  rw [← filled_append n queue source]
  rcases filled_enough n queue source with hlength | hend
  · rw [List.getElem?_append_left (Nat.lt_of_lt_of_le hk hlength)]
  · rw [hend, List.append_nil]

/-- Looking past the end queues all that is left. -/
example : (ofPattern "./ab").peek 4 = (none, { queue := ['a', 'b'], source := [] }) := by decide

/-- A queued cursor at the place of a plain one. -/
structure Follows (q : QueuedCursor) (c : Cursor) : Prop where
  rest : q.rest = c.rest
  current : q.current = c.behind[0]?
  last : q.last = c.behind[1]?
  beforeLast : q.beforeLast = c.behind[2]?
  consumed : q.consumed = c.behind.length

namespace Follows

variable {q : QueuedCursor} {c : Cursor}

theorem ofPattern (pattern : String) : Follows (.ofPattern pattern) (.ofPattern pattern) where
  rest := rfl
  current := rfl
  last := rfl
  beforeLast := rfl
  consumed := rfl

theorem consume (h : Follows q c) {x : Char} {queue source rest : List Char}
    (hrest : queue ++ source = rest) :
    Follows { q.consume x with queue, source } ⟨x :: c.behind, rest⟩ where
  rest := hrest
  current := rfl
  last := h.current
  beforeLast := h.last
  consumed := congrArg (· + 1) h.consumed

theorem refill (h : Follows q c) (n : Nat) : Follows (q.peek n).2 c where
  rest := (filled_append n q.queue q.source).trans h.rest
  current := h.current
  last := h.last
  beforeLast := h.beforeLast
  consumed := h.consumed

theorem next? (h : Follows q c) : q.next? = none ∧ c.next? = none ∨
    ∃ x q' c', q.next? = some (x, q') ∧ c.next? = some (x, c') ∧ Follows q' c' := by
  have hrest := h.rest
  rw [QueuedCursor.rest] at hrest
  unfold QueuedCursor.next? Cursor.next?
  rw [← hrest]
  match q.queue, q.source with
  | x :: queue, source => exact .inr ⟨x, _, _, rfl, rfl, h.consume rfl⟩
  | [], x :: source => exact .inr ⟨x, _, _, rfl, rfl, h.consume rfl⟩
  | [], [] => exact .inl ⟨rfl, rfl⟩

theorem peek (h : Follows q c) (n : Nat) : (q.peek n).1 = c.peek n := by
  unfold QueuedCursor.peek Cursor.peek
  dsimp only
  split
  · rfl
  · rename_i hn
    rw [getElem?_filled (Nat.sub_one_lt hn), ← h.rest, QueuedCursor.rest]

theorem call (h : Follows q c) (k : Call) :
    (q.call k).1 = (c.call k).1 ∧ Follows (q.call k).2 (c.call k).2 := by
  cases k with
  | advance =>
    rw [QueuedCursor.call, Cursor.call, Cursor.advance]
    rcases h.next? with ⟨hq, hc⟩ | ⟨x, q', c', hq, hc, hnext⟩
    · rw [hq, hc]
      exact ⟨rfl, h⟩
    · rw [hq, hc]
      exact ⟨rfl, hnext⟩
  | peek n ahead => exact ⟨congrArg Answer.character (h.peek n), h.refill n⟩
  | nextIs x =>
    refine ⟨?_, h.refill 1⟩
    rw [Cursor.call, Cursor.nextIs, ← h.peek 1]
    rfl
  | atEnd =>
    refine ⟨?_, h.refill 1⟩
    have hend : c.atEnd = (c.peek 1).isNone := by cases hc : c.rest <;> simp [Cursor.atEnd, Cursor.peek, hc]
    rw [Cursor.call, hend, ← h.peek 1]
    rfl
  | restStartsWith x =>
    refine ⟨?_, h⟩
    rw [Cursor.call, Cursor.nextIs, Cursor.peek, ← h.rest, if_neg Nat.one_ne_zero, Nat.sub_self,
      ← List.head?_eq_getElem?]
    rfl

theorem view (h : Follows q c) : q.view = c.view := by
  refine Cursor.View.ext (funext fun k => (h.call k).1) h.last h.beforeLast ?_ h.rest
  rw [QueuedCursor.view, QueuedCursor.isFirst, h.consumed]
  rfl

end Follows

/-- A cursor is a position in its text. After any calls it has moved by the characters that were consumed,
and nothing can be seen of it but the text at that place; a call that consumes nothing changes nothing that
can be seen. The plain cursor answers all calls alike and shows the same. -/
theorem view_exchange (pattern : String) (ks : List Call) :
    let t := Cursor.relative pattern.toList
    let queued := exchange call (ofPattern pattern) ks
    let plain := exchange Cursor.call (.ofPattern pattern) ks
    let i := queued.1.countP Cursor.Exchange.consumes
    i ≤ t.length ∧ queued.2.view = View.at t i ∧
      (∀ k, (queued.2.call k).2.view =
        if Cursor.Exchange.consumes (k, (queued.2.call k).1) then View.at t (i + 1) else queued.2.view) ∧
      plain.1 = queued.1 ∧ plain.2.view = queued.2.view := by
  intro t queued plain i
  -- the queued cursor follows the plain one, and the plain one is a place in the text
  obtain ⟨hlog, hfollows⟩ := exchange.alike (R := Follows) (fun _ _ k h => h.call k) (.ofPattern pattern) ks
  obtain ⟨hbound, hplain⟩ := Cursor.exchange_behindFirst (t := t) (Nat.zero_le _) ks
  have hstart : Cursor.ofPattern pattern = Cursor.behindFirst t 0 := rfl
  rw [← hstart, ← hlog, Nat.zero_add] at hbound hplain
  have hview : queued.2.view = View.at t i := by
    rw [hfollows.view, hplain, Cursor.view_behindFirst hbound]
  refine ⟨hbound, hview, fun k => ?_, hlog.symm, hfollows.view.symm⟩
  obtain ⟨hanswer, hnext⟩ := hfollows.call k
  rw [hnext.view, hanswer, hplain, Cursor.behindFirst_call, Cursor.answer_behindFirst]
  split
  · rename_i hconsumes
    exact Cursor.view_behindFirst (Cursor.lt_of_consumes hconsumes)
  · rw [Cursor.view_behindFirst hbound, hview]

end QueuedCursor
end PathGlob
