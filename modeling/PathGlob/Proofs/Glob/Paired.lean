/-
What is open, the tally by kind and the announced groups go together at every place that a scan comes to.
At most one frame is open and at most one group announced, the tally counts what is open, and a group is
announced only between its sigil and its parenthesis and while it is open. So what opens a group and what
closes it belong to the same sigil, or both to none, and what a glob leaves open can always be ended.
-/
import PathGlob.Proofs.Glob.Moves
import PathGlob.Proofs.Matcher.Members

namespace PathGlob

open Relation (ReflTransGen)

theorem Cursor.next?_eq {c c' : Cursor} {x : Char} (h : c.next? = some (x, c')) :
    c.rest = x :: c'.rest ∧ c'.behind = x :: c.behind := by
  unfold next? at h
  split at h <;> cases h
  exact ⟨by assumption, rfl⟩

theorem ExtGlob.sigil_ne_paren (g : ExtGlob) : g.sigil ≠ '(' := by
  cases g <;> decide

namespace Scan

variable {d : Dialect} {pattern : String} {s s' : Scan}

/-! ## One invariant -/

/-- At most one frame is open and at most one group announced; the tally counts what is open; and a group
is announced right behind its sigil, before a parenthesis and where nothing is open, or while a group is
open. -/
structure Paired (s : Scan) : Prop where
  depth : s.nesting.depth ≤ 1
  counted : s.nesting.Counted
  openers : ∀ f ∈ s.nesting.frames, Delimiter.ofOpener? f.opener = some f.delimiter
  pending : s.pending.groups.length ≤ 1
  sigil : ∀ g ∈ s.pending.groups,
    s.nesting.frames = [] ∧ s.cursor.nextIs '(' = true ∧ s.cursor.behind.head? = some g.sigil ∨
      s.nesting.topKind? = some .paren

namespace Paired

theorem start (c : Cursor) : Paired { cursor := c } where
  depth := Nat.zero_le _
  counted := .empty
  openers := nofun
  pending := Nat.zero_le _
  sigil := nofun

theorem frames_cases (h : s.Paired) : s.nesting.frames = [] ∨ ∃ f, s.nesting.frames = [f] := by
  match hf : s.nesting.frames with
  | [] => exact .inl rfl
  | [f] => exact .inr ⟨f, rfl⟩
  | f :: g :: fs =>
    have hdepth := h.depth
    rw [Nesting.depth, hf] at hdepth
    simp at hdepth

theorem isInside_of_nil (h : s.Paired) (hframes : s.nesting.frames = []) :
    s.nesting.isInside .bracket = false :=
  h.counted.isInside_eq_false (by decide) (by simp [hframes])

/-- Where nothing is open, only a parenthesis can follow what is announced. -/
theorem eq_paren (h : s.Paired) {g : ExtGlob} (hg : g ∈ s.pending.groups)
    (hframes : s.nesting.frames = []) {c : Char} {cursor : Cursor}
    (hnext : s.cursor.next? = some (c, cursor)) : c = '(' := by
  rcases h.sigil g hg with ⟨-, hparen, -⟩ | hopen
  · simpa [Cursor.nextIs, Cursor.peek, (Cursor.next?_eq hnext).1] using hparen
  · cases (Nesting.topKind?_of_nil hframes).symm.trans hopen

theorem pending_eq_nil (h : s.Paired) {f : Frame} (hf : s.nesting.frames = [f])
    (hkind : f.delimiter ≠ .paren) : s.pending.groups = [] := by
  refine List.eq_nil_iff_forall_not_mem.2 fun g hg => ?_
  rcases h.sigil g hg with ⟨hframes, -⟩ | hopen
  · rw [hf] at hframes
    cases hframes
  · rw [Nesting.topKind?_of_frames hf] at hopen
    exact hkind (Option.some.inj hopen)

/-- With its group the last announcement is gone. -/
theorem groups_pop (h : s.Paired) : s.pending.pop.2.groups = [] := by
  have hlength := h.pending
  refine List.eq_nil_of_length_eq_zero ?_
  simp only [ExtGlob.Pending.pop, List.length_tail]
  omega

end Paired

/-- The move that a step of a run is. -/
theorem Reads.moves (hs : s.Paired) (h : Reads d s s') : ∃ c cursor,
    s.cursor.next? = some (c, cursor) ∧ Moves d { s with cursor } c s' := by
  obtain ⟨c, cursor, hnext, hstep⟩ := h
  exact ⟨c, cursor, hnext, .step (s := { s with cursor }) hs.depth hstep⟩

/-- A step keeps the invariant. -/
theorem Paired.reads (hs : s.Paired) (h : Reads d s s') : s'.Paired := by
  obtain ⟨c, cursor, hnext, hmoves⟩ := h.moves hs
  cases hmoves with
  | announces g outside sigil next eq =>
    -- nothing was announced before, since a sigil is no parenthesis
    have hpending : s.pending.groups = [] := by
      refine List.eq_nil_iff_forall_not_mem.2 fun g' hg' => ?_
      exact g.sigil_ne_paren (sigil.symm.trans (hs.eq_paren hg' outside hnext))
    subst eq
    have hgroups : (s.pending.push g).groups = [g] := by rw [ExtGlob.Pending.push, hpending]
    refine ⟨hs.depth, hs.counted, hs.openers, ?_, fun g' hg' => .inl ⟨outside, next, ?_⟩⟩
    · simp [hgroups]
    · rw [hgroups, List.mem_singleton] at hg'
      rw [(Cursor.next?_eq hnext).2, hg', sigil]
      rfl
  | opens k text x outside opener frames counted pending cursor adds group =>
    refine ⟨?_, counted hs.counted, ?_, pending ▸ hs.pending, fun g hg => .inr ?_⟩
    · simp [Nesting.depth, frames]
    · simpa [frames] using opener
    · rw [pending] at hg
      rw [hs.eq_paren hg outside hnext] at opener
      rw [Nesting.topKind?_of_frames frames]
      exact opener.symm
  | writes x writes other =>
    obtain ⟨raw, frames⟩ := writes.frames
    have houtside := hs.isInside_of_nil
    refine ⟨?_, writes.counted hs.counted, ?_, writes.pending ▸ hs.pending, fun g hg => .inr ?_⟩
    · rw [Nesting.depth, frames, List.length_modifyHead]
      exact hs.depth
    · rcases hs.frames_cases with hframes | ⟨f, hframes⟩
      · simp [frames, hframes]
      · have hopener := hs.openers f (by rw [hframes]; exact List.mem_singleton_self f)
        simpa [frames, hframes] using hopener
    · rw [writes.pending] at hg
      rcases hs.sigil g hg with ⟨hframes, -⟩ | hopen
      · exact absurd (hs.eq_paren hg hframes hnext) (other hframes (houtside hframes))
      · exact writes.topKind?.trans hopen
  | closes f x inside closer frames counted cursor adds pending group =>
    have hgroups : s'.pending.groups = [] := by
      rw [pending]
      split
      · exact hs.groups_pop
      · rename_i hkind
        exact hs.pending_eq_nil inside hkind
    refine ⟨?_, counted hs.counted, ?_, ?_, ?_⟩ <;> simp [Nesting.depth, frames, hgroups]

/-- The invariant holds wherever a scan comes to. -/
theorem Paired.of_reached (h : Reached d pattern s) : s.Paired := by
  induction h with
  | refl => exact .start _
  | tail _ hreads ih => exact ih.reads hreads

/-! ## Groups -/

/-- A scan in a group that was opened at an earlier place, right behind the text it had read there: what
is announced is what was announced there, and the frame has all that has been written since, first of all
what opens such a group. -/
structure OpenedAt (s₀ s : Scan) : Prop where
  outside : s₀.nesting.frames = []
  pending : s.pending = s₀.pending
  behind : '(' :: s₀.cursor.behind <:+ s.cursor.behind
  frame : ∃ f body, s.nesting.frames = [f] ∧ f.delimiter = .paren ∧
    f.text = ExtGlob.openingText s₀.pending.last? ++ body ∧ s.trail.text = s₀.trail.text ++ f.text

theorem OpenedAt.reads {s₀ : Scan} (h : OpenedAt s₀ s) (hs : s.Paired) (hreads : Reads d s s')
    (hopen : s'.nesting.frames ≠ []) : OpenedAt s₀ s' := by
  obtain ⟨f, body, hframes, hkind, htext, htrail⟩ := h.frame
  obtain ⟨c, cursor, hnext, hmoves⟩ := hreads.moves hs
  have hne : s.nesting.frames ≠ [] := by simp [hframes]
  cases hmoves with
  | announces g outside sigil next eq => exact absurd outside hne
  | opens k text x outside opener frames counted pending cursor adds group => exact absurd outside hne
  | closes f x inside closer frames counted cursor adds pending group => exact absurd frames hopen
  | writes x writes other =>
    obtain ⟨raw, frames⟩ := writes.frames
    have hbehind := Cursor.suffix_next? hnext
    refine ⟨h.outside, writes.pending.trans h.pending, (h.behind.trans hbehind).trans writes.behind,
      { f with text := f.text ++ x, raw := f.raw ++ raw }, body ++ x, ?_, hkind, ?_, ?_⟩
    · rw [frames]
      simp [hframes]
    · simp only [htext, String.append_assoc]
    · rw [writes.adds.trail_text]
      simp only [htrail, String.append_assoc]

/-- A group that is open was opened at a place that the scan has come to before. -/
theorem exists_openedAt (h : Reached d pattern s) (hopen : s.nesting.topKind? = some .paren) :
    ∃ s₀, Reached d pattern s₀ ∧ OpenedAt s₀ s := by
  induction h with
  | refl => cases hopen
  | tail hreached hreads ih =>
    rename_i u s'
    have hu : u.Paired := .of_reached hreached
    have hne : s'.nesting.frames ≠ [] := fun hframes => by
      cases (Nesting.topKind?_of_nil hframes).symm.trans hopen
    obtain ⟨c, cursor, hnext, hmoves⟩ := hreads.moves hu
    cases hmoves with
    | announces g outside sigil next eq =>
      subst eq
      exact absurd outside hne
    | closes f x inside closer frames counted cursor adds pending group => exact absurd frames hne
    | opens k text x outside opener frames counted pending cursor adds group =>
      rw [Nesting.topKind?_of_frames frames] at hopen
      obtain rfl := Option.some.inj hopen
      obtain ⟨htext, hx⟩ := group rfl
      have hc : c = '(' := (Delimiter.ofOpener?_opener opener).symm
      have hbehind : s'.cursor.behind = '(' :: u.cursor.behind := by
        rw [cursor, (Cursor.next?_eq hnext).2, hc]
      refine ⟨u, hreached, outside, pending, ?_, _, "", frames, rfl, ?_, ?_⟩
      · exact hbehind ▸ List.suffix_rfl
      · rw [htext, hx, String.append_empty]
      · rw [adds.trail_text, htext]
    | writes x writes other =>
      obtain ⟨s₀, hs₀, hopened⟩ := ih (writes.topKind?.symm.trans hopen)
      exact ⟨s₀, hs₀, hopened.reads hu hreads hne⟩

/-- The closing parenthesis of a group. -/
theorem OpenedAt.closes {s₀ : Scan} (h : OpenedAt s₀ s) (hs : s.Paired) (hreads : Reads d s s')
    (hclosed : s'.nesting.frames = []) : s'.pending.groups = [] ∧
      s'.trail.text = s.trail.text ++ ExtGlob.closingText d s₀.pending.last? s'.cursor.atEnd := by
  obtain ⟨f, body, hframes, hkind, -, -⟩ := h.frame
  obtain ⟨c, cursor, hnext, hmoves⟩ := hreads.moves hs
  have hne : s.nesting.frames ≠ [] := by simp [hframes]
  cases hmoves with
  | announces g outside sigil next eq => exact absurd outside hne
  | opens k text x outside opener frames counted pending cursor adds group => exact absurd outside hne
  | writes x writes other =>
    obtain ⟨raw, frames⟩ := writes.frames
    rw [frames] at hclosed
    simp [hframes] at hclosed
  | closes f' x inside closer frames counted cursor adds pending group =>
    obtain rfl : f = f' := by simpa [hframes] using inside
    rw [if_pos hkind] at pending
    refine ⟨by rw [pending, hs.groups_pop], ?_⟩
    rw [adds.trail_text, group hkind, cursor, ← h.pending]

/-- The end of a group that the glob leaves open. -/
theorem OpenedAt.cutOff {s₀ : Scan} (h : OpenedAt s₀ s) : (s.cutOffAll d).trail.text =
    s.trail.text ++ ExtGlob.closingText d s₀.pending.last? s.cursor.atEnd := by
  obtain ⟨f, body, hframes, hkind, -, -⟩ := h.frame
  rw [cutOffAll_of_singleton d hframes, Scan.cutOff, hkind]
  rw [← h.pending]
  exact (Moves.adds_closeGroup d _).trail_text

/-! ## What a glob leaves open -/

/-- What is open can be closed, and nothing is open then. -/
theorem Paired.exists_pop (h : s.Paired) {f : Frame} {fs : List Frame} (hframes : s.nesting.frames = f :: fs) :
    fs = [] ∧ 0 < s.nesting.tally.get f.delimiter ∧ ∃ n, s.nesting.pop f.delimiter = .ok (f, n) ∧
      n.frames = [] ∧ s.cutOffAll d = Scan.cutOff d { s with nesting := n } f := by
  rcases h.frames_cases with hnil | ⟨g, hsingle⟩
  · rw [hnil] at hframes
    cases hframes
  · obtain ⟨rfl, rfl⟩ := List.cons.inj (hsingle.symm.trans hframes)
    refine ⟨rfl, ?_, _, Nesting.pop_of_frames hsingle, rfl, cutOffAll_of_singleton d hsingle⟩
    rw [h.counted.tally, hsingle, List.singleton_append, List.countP_cons, if_pos (by simp)]
    exact Nat.succ_pos _

theorem Paired.length_openers_le (h : s.Paired) : s.nesting.openers.length ≤ 1 := by
  rw [Nesting.openers, List.length_map, List.length_reverse]
  exact h.depth

/-- Wherever a scan comes to, the open frames, the tally and the announced groups go together. A group that
is open was opened right behind the sigil that is still announced, or behind none; what is written for it is
what opens and what closes a group of that sigil, with what is between them, whether the glob closes it or
leaves it open. The frame that is open at the end can be taken off, so a rendering reports at most one. -/
theorem groups_paired (d : Dialect) (pattern : String) :
    (∀ s, Reached d pattern s → s.Paired ∧
      (s.nesting.topKind? = some .paren → ∃ s₀ body, Reached d pattern s₀ ∧ OpenedAt s₀ s ∧
        (∀ g, s₀.pending.last? = some g → s₀.cursor.behind.head? = some g.sigil) ∧
        (∀ s', Reads d s s' → s'.nesting.frames = [] → s'.pending.groups = [] ∧
          s'.trail.text = s₀.trail.text ++ (ExtGlob.openingText s₀.pending.last? ++ body ++
            ExtGlob.closingText d s₀.pending.last? s'.cursor.atEnd)) ∧
        (s.cutOffAll d).trail.text = s₀.trail.text ++ (ExtGlob.openingText s₀.pending.last? ++ body ++
          ExtGlob.closingText d s₀.pending.last? s.cursor.atEnd)) ∧
      ∀ f fs, s.nesting.frames = f :: fs → fs = [] ∧ 0 < s.nesting.tally.get f.delimiter ∧
        ∃ n, s.nesting.pop f.delimiter = .ok (f, n) ∧ n.frames = [] ∧
          s.cutOffAll d = Scan.cutOff d { s with nesting := n } f) ∧
    (∀ s, run d { cursor := .ofPattern pattern } = .ok s → Reached d pattern s) ∧
    ∀ r, Rendering.ofPattern d pattern = .ok r → r.unclosed.length ≤ 1 := by
  refine ⟨fun s h => ?_, fun s h => (reads_of_run h).1, fun r hr => ?_⟩
  · have hs : s.Paired := .of_reached h
    refine ⟨hs, fun hopen => ?_, fun f fs hframes => hs.exists_pop hframes⟩
    obtain ⟨s₀, hs₀, hopened⟩ := exists_openedAt h hopen
    obtain ⟨f, body, hframes, hkind, htext, htrail⟩ := hopened.frame
    refine ⟨s₀, body, hs₀, hopened, fun g hg => ?_, fun s' hreads hclosed => ?_, ?_⟩
    · have hmem : g ∈ s₀.pending.groups := List.mem_of_head? hg
      rcases (Paired.of_reached hs₀).sigil g hmem with ⟨-, -, hsigil⟩ | hparen
      · exact hsigil
      · cases (Nesting.topKind?_of_nil hopened.outside).symm.trans hparen
    · obtain ⟨hpending, hwritten⟩ := hopened.closes hs hreads hclosed
      exact ⟨hpending, by rw [hwritten, htrail, htext, String.append_assoc]⟩
    · rw [hopened.cutOff, htrail, htext, String.append_assoc]
  · obtain ⟨s, -, hreached, -, rfl⟩ := Rendering.exists_reached hr
    exact (Paired.of_reached hreached).length_openers_le

/-- A group that the glob leaves open. -/
theorem groups_paired_unclosed : ∃ s s₀ body, run {} { cursor := .ofPattern "x+(a|b" } = .ok s ∧
    s.Paired ∧ OpenedAt s₀ s ∧ s₀.cursor.behind.head? = some '+' ∧
    (s.cutOffAll {}).trail.text = s₀.trail.text ++ ("(?:" ++ body ++ ")+") := by
  obtain ⟨s, hs, hopen⟩ : ∃ s, run {} { cursor := .ofPattern "x+(a|b" } = .ok s ∧
      decide (s.nesting.topKind? = some .paren ∧ s.pending = ⟨[.oneOrMore]⟩) = true :=
    exists_ok_of_any (by decide +kernel)
  obtain ⟨htop, hpending⟩ := of_decide_eq_true hopen
  obtain ⟨hreached, hrun, -⟩ := groups_paired {} "x+(a|b"
  obtain ⟨hpaired, hgroups, -⟩ := hreached s (hrun s hs)
  obtain ⟨s₀, body, -, hopened, hsigil, -, hwritten⟩ := hgroups htop
  have hlast : s₀.pending.last? = some .oneOrMore := by
    rw [← hopened.pending, hpending]
    rfl
  rw [hlast] at hwritten
  exact ⟨s, s₀, body, hs, hpaired, hopened, hsigil _ hlast, hwritten⟩

end Scan
end PathGlob
