/-
The open delimiters through any changes. The tally never drifts from what is open, what is open is what was
opened and not closed since, and the stack and the quotes go their ways as if the other were not there.
-/
import Mathlib.Data.List.Induction
import PathGlob.Proofs.Glob.Exchange
import PathGlob.Proofs.Glob.Moves

namespace PathGlob.Nesting

/-! ## Changes -/

/-- What can be done to the open delimiters. Quotes have no place on the stack. -/
inductive Change where
  | push (k : Delimiter) (opener : Char) (framed : k ≠ .quote)
  | pop (k : Delimiter)
  | append (text : String)
  | note (c : Char)
  | noteText (text : String)
  | toggleQuote (c : Char)
  | openQuote (c : Char)
  | closeQuote

/-- What a change answers. -/
inductive Reply where
  | silence
  | frame (f : Frame)
  | refusal (e : MissingOpening)
  | quote (q : Option Frame)
  deriving DecidableEq

/-- Carries a change out. -/
def apply (n : Nesting) : Change → Reply × Nesting
  | .push k c _ => (.silence, n.push k c)
  | .pop k =>
    match n.pop k with
    | .ok (f, n) => (.frame f, n)
    | .error e => (.refusal e, n)
  | .append text => (.silence, n.append text)
  | .note c => (.silence, n.note (String.singleton c))
  | .noteText text => (.silence, n.note text)
  | .toggleQuote c => (.silence, n.toggleQuote c)
  | .openQuote c => (.silence, n.openQuote c)
  | .closeQuote => (.quote n.closeQuote.1, n.closeQuote.2)

/-- Whether a change is one of the stack, not of the quotes. -/
def Change.onStack : Change → Bool
  | .toggleQuote _ | .openQuote _ | .closeQuote => false
  | _ => true

/-- Whether a change neither opens nor closes a frame. -/
def Change.keepsFrames : Change → Bool
  | .push .. | .pop _ => false
  | _ => true

/-- What is open behind changes, of nothing at first. -/
def after (cs : List Change) : Nesting := (exchange apply {} cs).2

/-! ## What is left open -/

/-- The changes, where the innermost frame is of a kind, close each frame that they open and no other. -/
inductive Closed : Option Delimiter → List Change → Prop where
  | nil {outer : Option Delimiter} : Closed outer []
  | aside {outer : Option Delimiter} {cs : List Change} {c : Change} (closed : Closed outer cs)
    (keeps : c.keepsFrames = true) : Closed outer (cs ++ [c])
  | refused {outer : Option Delimiter} {cs : List Change} {k : Delimiter} (closed : Closed outer cs)
    (other : outer ≠ some k) : Closed outer (cs ++ [.pop k])
  | frame {outer : Option Delimiter} {cs ds : List Change} {k : Delimiter} {c : Char} (framed : k ≠ .quote)
    (closed : Closed outer cs) (inside : Closed (some k) ds) :
    Closed outer (cs ++ .push k c framed :: ds ++ [.pop k])

/-- The frames that changes open and do not close, by kind and opener, innermost first. -/
inductive LeavesOpen : List Change → List (Delimiter × Char) → Prop where
  | nothing {cs : List Change} (closed : Closed none cs) : LeavesOpen cs []
  | frame {cs ds : List Change} {fs : List (Delimiter × Char)} {k : Delimiter} {c : Char}
    (framed : k ≠ .quote) (before : LeavesOpen cs fs) (inside : Closed (some k) ds) :
    LeavesOpen (cs ++ .push k c framed :: ds) ((k, c) :: fs)

/-- The open frames by kind and opener, innermost first. -/
def kinds (n : Nesting) : List (Delimiter × Char) := n.frames.map fun f => (f.delimiter, f.opener)

theorem topKind?_eq (n : Nesting) : n.topKind? = n.kinds.head?.map (·.1) := by
  rw [topKind?, top?, kinds, List.head?_map, Option.map_map]
  rfl

theorem pop_of_topKind? {n : Nesting} {k : Delimiter} (h : n.topKind? = some k) : ∃ f fs,
    n.frames = f :: fs ∧ n.pop k = .ok (f, { n with frames := fs, tally := n.tally.lower k }) := by
  cases hframes : n.frames with
  | nil => rw [topKind?_of_nil hframes] at h; cases h
  | cons f fs =>
    rw [topKind?_of_frames hframes] at h
    cases h
    exact ⟨f, fs, rfl, pop_of_frames hframes⟩

theorem pop_of_ne {n : Nesting} {k : Delimiter} (h : n.topKind? ≠ some k) : n.pop k = .error ⟨k.opener⟩ := by
  unfold pop
  split
  · rfl
  · rename_i f fs hframes
    rw [if_neg fun hk => h (by rw [topKind?_of_frames hframes, hk])]

theorem kinds_modifyTop (n : Nesting) {change : Frame → Frame}
    (hdelimiter : ∀ f, (change f).delimiter = f.delimiter) (hopener : ∀ f, (change f).opener = f.opener) :
    (n.modifyTop change).kinds = n.kinds := by
  unfold modifyTop kinds
  cases n.frames with
  | nil => rfl
  | cons f fs => simp [hdelimiter, hopener]

theorem kinds_apply_of_keeps (n : Nesting) {c : Change} (h : c.keepsFrames = true) :
    (n.apply c).2.kinds = n.kinds := by
  cases c with
  | push k c framed => cases h
  | pop k => cases h
  | append text | note c | noteText text => exact n.kinds_modifyTop (fun _ => rfl) fun _ => rfl
  | toggleQuote c => exact congrArg (List.map _) (n.frames_toggleQuote c)
  | openQuote c => rfl
  | closeQuote => exact congrArg (List.map _) n.frames_closeQuote

theorem apply_pop_of_topKind? {n : Nesting} {k : Delimiter} (h : n.topKind? = some k) :
    ∃ c, n.kinds = (k, c) :: (n.apply (.pop k)).2.kinds := by
  obtain ⟨f, fs, hframes, hpop⟩ := pop_of_topKind? h
  rw [topKind?_of_frames hframes] at h
  refine ⟨f.opener, ?_⟩
  simp only [apply, hpop, kinds, hframes, List.map_cons, Option.some.inj h]

theorem apply_pop_of_ne {n : Nesting} {k : Delimiter} (h : n.topKind? ≠ some k) :
    n.apply (.pop k) = (.refusal ⟨k.opener⟩, n) := by
  rw [apply, pop_of_ne h]

/-- Changes that close what they open leave the frames as they were. -/
theorem Closed.kinds_exchange {outer : Option Delimiter} {cs : List Change} (h : Closed outer cs)
    {n : Nesting} (hn : n.topKind? = outer) : (exchange apply n cs).2.kinds = n.kinds := by
  induction h generalizing n with
  | nil => rfl
  | aside closed keeps ih =>
    rw [exchange.append]
    exact (kinds_apply_of_keeps _ keeps).trans (ih hn)
  | @refused outer cs k closed other ih =>
    have hkinds := ih hn
    have htop : (exchange apply n cs).2.topKind? ≠ some k := by
      rwa [topKind?_eq, hkinds, ← topKind?_eq, hn]
    rw [exchange.append, exchange, exchange, apply_pop_of_ne htop]
    exact hkinds
  | @frame outer cs ds k c framed closed inside ih ihInside =>
    have hinside := ihInside (n := (exchange apply n cs).2.push k c) rfl
    have htop := congrArg (fun fs => fs.head?.map (·.1)) hinside
    rw [← topKind?_eq] at htop
    obtain ⟨c', hpop⟩ := apply_pop_of_topKind? htop
    rw [hinside] at hpop
    rw [exchange.append, exchange.append, ← ih hn]
    exact (List.cons.inj hpop).2.symm

theorem LeavesOpen.kinds_after {cs : List Change} {fs : List (Delimiter × Char)} (h : LeavesOpen cs fs) :
    (after cs).kinds = fs := by
  induction h with
  | nothing closed => exact closed.kinds_exchange rfl
  | @frame cs ds fs k c framed before inside ih =>
    rw [after, exchange.append]
    refine (inside.kinds_exchange (n := (after cs).push k c) rfl).trans ?_
    exact congrArg ((k, c) :: ·) ih

/-- Further changes that close what they open belong to the innermost open frame. -/
theorem LeavesOpen.extend {cs es : List Change} {fs : List (Delimiter × Char)} (h : LeavesOpen cs fs)
    (hes : ∀ ds, Closed (fs.head?.map (·.1)) ds → Closed (fs.head?.map (·.1)) (ds ++ es)) :
    LeavesOpen (cs ++ es) fs := by
  cases h with
  | nothing closed => exact .nothing (hes _ closed)
  | frame framed before inside =>
    rw [List.append_assoc, List.cons_append]
    exact .frame framed before (hes _ inside)

/-- Closing the innermost open frame leaves the others open. -/
theorem LeavesOpen.close {cs : List Change} {k : Delimiter} {c : Char} {fs : List (Delimiter × Char)}
    (h : LeavesOpen cs ((k, c) :: fs)) : LeavesOpen (cs ++ [.pop k]) fs := by
  cases h with
  | frame framed before inside =>
    rw [List.append_assoc]
    refine before.extend fun ds hds => ?_
    rw [← List.append_assoc]
    exact .frame framed hds inside

theorem after_concat (cs : List Change) (c : Change) : after (cs ++ [c]) = ((after cs).apply c).2 :=
  exchange.append apply {} cs [c]

/-- What is open behind changes is what they leave open, step by step. -/
theorem leavesOpen_after (cs : List Change) : LeavesOpen cs (after cs).kinds := by
  -- by the last change, since a frame is closed long after it has been opened
  induction cs using List.reverseRecOn with
  | nil => exact .nothing .nil
  | append_singleton cs c ih =>
    rw [after_concat]
    cases c with
    | push k c framed => exact .frame framed ih .nil
    | pop k =>
      by_cases htop : (after cs).topKind? = some k
      · obtain ⟨c, hkinds⟩ := apply_pop_of_topKind? htop
        exact (hkinds ▸ ih).close
      · rw [apply_pop_of_ne htop]
        refine ih.extend fun ds hds => hds.refused ?_
        rwa [← topKind?_eq]
    | append | note | noteText | toggleQuote | openQuote | closeQuote =>
      rw [kinds_apply_of_keeps _ rfl]
      exact ih.extend fun ds hds => hds.aside rfl

theorem leavesOpen_iff {cs : List Change} {fs : List (Delimiter × Char)} :
    LeavesOpen cs fs ↔ (after cs).kinds = fs :=
  ⟨LeavesOpen.kinds_after, fun h => h ▸ leavesOpen_after cs⟩

/-! ## The tally -/

/-- Where a delimiter of a kind stands while it is open. -/
def lane (n : Nesting) (k : Delimiter) : List Frame := if k = .quote then n.quotes else n.frames

theorem Counted.apply {n : Nesting} (h : n.Counted) (c : Change) : (n.apply c).2.Counted := by
  cases c with
  | push k c framed => exact h.push k c
  | pop k =>
    unfold Nesting.apply
    dsimp only
    split
    · exact h.pop (by assumption)
    · exact h
  | append text | note c | noteText text => exact h.modifyTop fun _ => rfl
  | toggleQuote c => exact h.toggleQuote c
  | openQuote c => exact h.openQuote c
  | closeQuote => exact h.closeQuote

theorem counted_after (cs : List Change) : (after cs).Counted :=
  exchange.keeps (P := Counted) (fun _ c h => h.apply c) .empty cs

theorem LeavesOpen.framed {cs : List Change} {fs : List (Delimiter × Char)} (h : LeavesOpen cs fs) :
    ∀ f ∈ fs, f.1 ≠ .quote := by
  induction h with
  | nothing => nofun
  | frame framed before inside ih => exact List.forall_mem_cons.2 ⟨framed, ih⟩

theorem delimiter_ne_quote (cs : List Change) : ∀ f ∈ (after cs).frames, f.delimiter ≠ .quote :=
  fun _ hf => (leavesOpen_after cs).framed _ (List.mem_map_of_mem hf)

/-- The tally of a kind is what is open of it in its lane. -/
theorem tally_after (cs : List Change) (k : Delimiter) :
    (after cs).tally.get k = ((after cs).lane k).countP (·.delimiter = k) := by
  have h := counted_after cs
  rw [h.tally, List.countP_append, lane]
  split
  · rename_i hk
    have hframes : (after cs).frames.countP (·.delimiter = k) = 0 :=
      List.countP_eq_zero.2 fun f hf => by simpa [hk] using delimiter_ne_quote cs f hf
    rw [hframes, Nat.zero_add]
  · rename_i hk
    have hquotes : (after cs).quotes.countP (·.delimiter = k) = 0 :=
      List.countP_eq_zero.2 fun q hq => by simpa [h.quotes q hq] using Ne.symm hk
    rw [hquotes, Nat.add_zero]

theorem tally_eq_of_lane {cs ds : List Change} {k : Delimiter} (h : (after cs).lane k = (after ds).lane k) :
    (after cs).tally.get k = (after ds).tally.get k := by
  rw [tally_after, tally_after, h]

theorem isInside_after_iff (cs : List Change) (k : Delimiter) :
    (after cs).isInside k = true ↔ ∃ f ∈ (after cs).lane k, f.delimiter = k := by
  rw [isInside, tally_after, bne_iff_ne, ← Nat.pos_iff_ne_zero, List.countP_pos_iff]
  simp only [decide_eq_true_eq]

/-- Where a frame is closed its kind had been counted. -/
theorem Counted.tally_pop {n n' : Nesting} (h : n.Counted) {k : Delimiter} {f : Frame}
    (hpop : n.pop k = .ok (f, n')) : n.tally.get k = n'.tally.get k + 1 := by
  by_cases htop : n.topKind? = some k
  · obtain ⟨g, fs, hframes, hg⟩ := pop_of_topKind? htop
    rw [topKind?_of_frames hframes] at htop
    cases hpop.symm.trans hg
    have hcount := h.tally k
    rw [hframes, List.cons_append, List.countP_cons_of_pos (by simpa using htop)] at hcount
    rw [Tally.lower, Tally.get_modify, if_pos rfl, hcount, Nat.add_sub_cancel]
  · cases hpop.symm.trans (pop_of_ne htop)

theorem closeQuote_fst (n : Nesting) : n.closeQuote.1 = n.quotes.head? := by
  unfold closeQuote
  split <;> simp [*]

theorem quotes_closeQuote (n : Nesting) : n.closeQuote.2.quotes = n.quotes.tail := by
  unfold closeQuote
  split <;> simp [*]

/-- Where a quote is closed it had been counted. -/
theorem Counted.tally_closeQuote {n n' : Nesting} (h : n.Counted) {q : Frame}
    (hclose : n.closeQuote = (some q, n')) : n.tally.get .quote = n'.tally.get .quote + 1 := by
  unfold Nesting.closeQuote at hclose
  split at hclose
  · cases hclose
  · rename_i q' qs hquotes
    cases hclose
    have hcount := h.tally .quote
    have hq := h.quotes q (by rw [hquotes]; exact List.mem_cons_self)
    rw [hquotes, List.countP_append, List.countP_cons_of_pos (by simpa using hq)] at hcount
    rw [Tally.lower, Tally.get_modify, if_pos rfl, hcount, ← Nat.add_assoc, Nat.add_sub_cancel]

theorem Counted.tally_toggleQuote {n : Nesting} (h : n.Counted) {c : Char}
    (hclose : n.quotes.head?.map (·.opener) = some c) :
    n.tally.get .quote = (n.toggleQuote c).tally.get .quote + 1 := by
  obtain ⟨q, hq, -⟩ := Option.map_eq_some_iff.1 hclose
  rw [Nesting.toggleQuote, if_pos hclose]
  exact h.tally_closeQuote (Prod.ext (n.closeQuote_fst.trans hq) rfl)

/-! ## Two lanes -/

theorem frames_of_not_onStack (n : Nesting) {c : Change} (h : c.onStack = false) :
    (n.apply c).2.frames = n.frames := by
  cases c with
  | toggleQuote c => exact n.frames_toggleQuote c
  | openQuote c => rfl
  | closeQuote => exact n.frames_closeQuote
  | _ => cases h

theorem quotes_of_onStack (n : Nesting) {c : Change} (h : c.onStack = true) :
    (n.apply c).2.quotes = n.quotes := by
  cases c with
  | pop k =>
    by_cases htop : n.topKind? = some k
    · obtain ⟨f, fs, -, hpop⟩ := pop_of_topKind? htop
      rw [apply, hpop]
    · rw [apply_pop_of_ne htop]
  | toggleQuote c | openQuote c | closeQuote => cases h
  | _ => rfl

/-- What the stack answers and becomes depends on the stack alone. -/
theorem apply_onStack {m n : Nesting} {c : Change} (h : c.onStack = true) (hframes : m.frames = n.frames) :
    (m.apply c).1 = (n.apply c).1 ∧ (m.apply c).2.frames = (n.apply c).2.frames := by
  cases c with
  | push k c framed => exact ⟨rfl, congrArg (List.cons _) hframes⟩
  | pop k =>
    have htop : m.topKind? = n.topKind? := by rw [topKind?, topKind?, top?, top?, hframes]
    by_cases hk : n.topKind? = some k
    · obtain ⟨f, fs, hn, hpop⟩ := pop_of_topKind? hk
      obtain ⟨g, gs, hm, hpop'⟩ := pop_of_topKind? (htop.trans hk)
      obtain ⟨rfl, rfl⟩ := List.cons.inj ((hm.symm.trans hframes).trans hn)
      rw [apply, apply, hpop, hpop']
      exact ⟨rfl, rfl⟩
    · rw [apply_pop_of_ne hk, apply_pop_of_ne (htop ▸ hk)]
      exact ⟨rfl, hframes⟩
  | append text | note c | noteText text => exact ⟨rfl, congrArg (List.modifyHead _) hframes⟩
  | toggleQuote c | openQuote c | closeQuote => cases h

/-- What the quotes answer and become depends on the quotes alone. -/
theorem apply_not_onStack {m n : Nesting} {c : Change} (h : c.onStack = false)
    (hquotes : m.quotes = n.quotes) :
    (m.apply c).1 = (n.apply c).1 ∧ (m.apply c).2.quotes = (n.apply c).2.quotes := by
  cases c with
  | openQuote c => exact ⟨rfl, congrArg (List.cons _) hquotes⟩
  | closeQuote => simp only [apply, closeQuote_fst, quotes_closeQuote, hquotes, and_self]
  | toggleQuote c =>
    refine ⟨rfl, ?_⟩
    simp only [apply, toggleQuote, hquotes]
    split
    · rw [quotes_closeQuote, quotes_closeQuote, hquotes]
    · exact congrArg (List.cons _) hquotes
  | _ => cases h

/-- After any changes. The tally of each kind is what is open of it, and a kind is inside if a delimiter of
it is open in its lane; wherever one is closed the tally had counted it. The frames that are open are those
that the changes open and do not close, in order. The innermost frame can be closed as what it is and as
nothing else; a refusal names the opener that was wanted and changes nothing. The stack and the quotes
answer and become what they would if there were no changes of the other. -/
theorem open_after (cs : List Change) :
    let n := after cs
    let stack := exchange apply {} (cs.filter Change.onStack)
    let quotes := exchange apply {} (cs.filter fun c => !c.onStack)
    (∀ k, n.tally.get k = (n.lane k).countP (·.delimiter = k) ∧
        (n.isInside k = true ↔ ∃ f ∈ n.lane k, f.delimiter = k)) ∧
      (∀ k f n', n.pop k = .ok (f, n') → n.tally.get k = n'.tally.get k + 1) ∧
      (∀ q n', n.closeQuote = (some q, n') → n.tally.get .quote = n'.tally.get .quote + 1) ∧
      (∀ c, n.quotes.head?.map (·.opener) = some c →
        n.tally.get .quote = (n.toggleQuote c).tally.get .quote + 1) ∧
      (∃ fs, (∀ gs, LeavesOpen cs gs ↔ gs = fs) ∧ n.kinds = fs ∧ n.depth = fs.length ∧
        n.openers = (fs.map (·.2)).reverse) ∧
      (∀ k, (n.topKind? = some k → ∃ f fs n', n.frames = f :: fs ∧
          n.apply (.pop k) = (.frame f, n') ∧ n'.frames = fs) ∧
        (n.topKind? ≠ some k → n.apply (.pop k) = (.refusal ⟨k.opener⟩, n))) ∧
      ((exchange apply {} cs).1.filter (·.1.onStack) = stack.1 ∧ n.frames = stack.2.frames) ∧
      ((exchange apply {} cs).1.filter (!·.1.onStack) = quotes.1 ∧ n.quotes = quotes.2.quotes) ∧
      ∀ k, n.tally.get k = (if k = .quote then quotes.2 else stack.2).tally.get k := by
  intro n stack quotes
  have hcounted : n.Counted := counted_after cs
  -- the stack sees the changes of the stack only, the quotes those of the quotes
  have hstack := exchange.filter (f := apply) Nesting.frames Change.onStack
    (fun _ _ _ h => apply_onStack h) (fun n _ h => n.frames_of_not_onStack h) (s := {}) (t := {}) rfl cs
  have hquotes := exchange.filter (f := apply) Nesting.quotes (fun c => !c.onStack)
    (fun _ _ _ h => apply_not_onStack (by simpa using h))
    (fun n _ h => n.quotes_of_onStack (by simpa using h)) (s := {}) (t := {}) rfl cs
  refine ⟨fun k => ⟨tally_after cs k, isInside_after_iff cs k⟩, fun k f n' h => hcounted.tally_pop h,
    fun q n' h => hcounted.tally_closeQuote h, fun c h => hcounted.tally_toggleQuote h,
    ⟨n.kinds, fun gs => ?_, rfl, ?_, ?_⟩, fun k => ⟨fun h => ?_, apply_pop_of_ne⟩, hstack, hquotes,
    fun k => ?_⟩
  · exact leavesOpen_iff.trans eq_comm
  · rw [kinds, List.length_map]
    rfl
  · rw [kinds, List.map_map, ← List.map_reverse]
    rfl
  · obtain ⟨f, fs, hframes, hpop⟩ := pop_of_topKind? h
    exact ⟨f, fs, _, hframes, by rw [apply, hpop], rfl⟩
  · split
    · rename_i hk
      exact tally_eq_of_lane (by rw [lane, lane, if_pos hk, if_pos hk]; exact hquotes.2)
    · rename_i hk
      exact tally_eq_of_lane (by rw [lane, lane, if_neg hk, if_neg hk]; exact hstack.2)

/-- A parenthesis, and in it a quote and a bracket. -/
theorem open_after_quoted :
    let cs : List Change := [.push .paren '(' (by decide), .toggleQuote '"', .pop .quote,
      .push .bracket '[' (by decide), .openQuote '“', .closeQuote]
    let n := after cs
    n.tally = { paren := 1, bracket := 1, quote := 1 } ∧ LeavesOpen cs [(.bracket, '['), (.paren, '(')] ∧
      n.openers = ['(', '['] ∧ n.apply (.pop .paren) = (.refusal ⟨'('⟩, n) ∧
      (∃ f n', n.pop .bracket = .ok (f, n') ∧ n.tally.get .bracket = n'.tally.get .bracket + 1) ∧
      (∃ q n', n.closeQuote = (some q, n') ∧ n.tally.get .quote = n'.tally.get .quote + 1) ∧
      n.tally.get .quote = (n.toggleQuote '"').tally.get .quote + 1 := by
  intro cs n
  obtain ⟨-, hpop, hclose, htoggle, ⟨fs, hfs, hkinds, -, hopeners⟩, hinnermost, -⟩ := open_after cs
  obtain rfl : fs = [(.bracket, '['), (.paren, '(')] := hkinds.symm.trans (by decide)
  exact ⟨by decide, (hfs _).2 rfl, hopeners, (hinnermost .paren).2 (by decide),
    ⟨_, _, rfl, hpop _ _ _ rfl⟩, ⟨_, _, rfl, hclose _ _ rfl⟩, htoggle _ (by decide)⟩

end PathGlob.Nesting
