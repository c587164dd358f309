/-
A group that a glob leaves open ends where the glob does. With the closing parenthesis behind it the glob
has the same rendering, save that nothing is reported as open, unless a backslash makes a character of the
parenthesis. No step can tell the two globs apart before all is read, since nothing that looks ahead looks
for a closing parenthesis.
-/
import Mathlib.Algebra.Group.Nat.Even
import Mathlib.Data.List.DropRight
import PathGlob.Proofs.Glob.Grammar
import PathGlob.Proofs.Glob.Paired

namespace PathGlob

/-! ## Backslashes at the end -/

/-- How many backslashes a text ends with. -/
def backslashes (cs : List Char) : Nat := (cs.rtakeWhile (· = '\\')).length

theorem backslashes_le_length (cs : List Char) : backslashes cs ≤ cs.length :=
  (List.rtakeWhile_suffix _ _).length_le

/-- A character in front counts only if it is a backslash and nothing else follows. -/
theorem backslashes_cons (c : Char) (cs : List Char) : backslashes (c :: cs) =
    if c = '\\' ∧ backslashes cs = cs.length then backslashes cs + 1 else backslashes cs := by
  unfold backslashes List.rtakeWhile
  simp only [List.reverse_cons, List.length_reverse, List.takeWhile_append]
  by_cases hall : (cs.reverse.takeWhile fun x => decide (x = '\\')).length = cs.length
  · by_cases hc : c = '\\' <;> simp [hall, hc]
  · simp [hall]

theorem backslashes_append {xs : List Char} (h : '\\' ∉ xs) (cs : List Char) :
    backslashes (xs ++ cs) = backslashes cs := by
  induction xs with
  | nil => rfl
  | cons x xs ih =>
    rw [List.mem_cons, not_or] at h
    rw [List.cons_append, backslashes_cons, if_neg fun hx => h.1 hx.1.symm, ih h.2]

/-- A backslash and the character it takes along leave the parity as it is. -/
theorem even_backslashes_escape (e : Char) (cs : List Char) :
    Even (backslashes ('\\' :: e :: cs)) ↔ Even (backslashes cs) := by
  have hle := backslashes_le_length cs
  have hcons := backslashes_cons e cs
  rw [backslashes_cons, List.length_cons, Nat.even_iff, Nat.even_iff]
  split at hcons
  · rw [if_pos ⟨rfl, by omega⟩]
    omega
  · rw [if_neg (by omega), hcons]

/-- What is left behind a character: a backslash takes the next character along, and no other character
takes a backslash along. -/
def Passes (c : Char) (cs rest : List Char) : Prop :=
  c = '\\' ∧ rest = cs.tail ∨ c ≠ '\\' ∧ ∃ xs, '\\' ∉ xs ∧ cs = xs ++ rest

namespace Passes

variable {c : Char} {cs rest : List Char}

theorem same (hc : c ≠ '\\') (cs : List Char) : Passes c cs cs := .inr ⟨hc, [], List.not_mem_nil, rfl⟩

theorem even (h : Passes c cs rest) (heven : Even (backslashes (c :: cs))) : Even (backslashes rest) := by
  rcases h with ⟨rfl, rfl⟩ | ⟨hc, xs, hxs, rfl⟩
  · cases cs with
    | nil => exact Even.zero
    | cons e cs => exact (even_backslashes_escape e cs).1 heven
  · rwa [backslashes_cons, if_neg fun h => hc h.1, backslashes_append hxs] at heven

end Passes

/-- None of an even number of backslashes at the end is read with nothing behind it. -/
theorem ne_nil_of_even_backslashes {c : Char} {cs : List Char} (h : Even (backslashes (c :: cs)))
    (hc : c = '\\') : cs ≠ [] := by
  rintro rfl
  rw [hc] at h
  exact absurd h (by decide)

/-! ## Positions -/

theorem takeWhile_paren {p : Char → Bool} (hp : p ')' = false) (cs : List Char) :
    (cs ++ [')']).takeWhile p = cs.takeWhile p := by
  induction cs with
  | nil => simp [hp]
  | cons c cs ih => simp only [List.cons_append, List.takeWhile_cons, ih]

namespace Cursor

/-- The same position in a glob with a closing parenthesis behind it. -/
def followed (c : Cursor) : Cursor := ⟨c.behind, c.rest ++ [')']⟩

variable {c c' : Cursor} {x : Char}

@[simp] theorem last_followed (c : Cursor) : c.followed.last = c.last := rfl

@[simp] theorem beforeLast_followed (c : Cursor) : c.followed.beforeLast = c.beforeLast := rfl

@[simp] theorem isFirst_followed (c : Cursor) : c.followed.isFirst = c.isFirst := rfl

theorem exists_next? (h : c.rest ≠ []) : ∃ x c', c.next? = some (x, c') := by
  obtain ⟨x, xs, hrest⟩ := List.exists_cons_of_ne_nil h
  exact ⟨x, ⟨x :: c.behind, xs⟩, by rw [next?, hrest]⟩

theorem rest_of_next?_eq_none (h : c.next? = none) : c.rest = [] := by
  by_contra hrest
  obtain ⟨x, c', hnext⟩ := exists_next? hrest
  cases h.symm.trans hnext

theorem next?_followed (h : c.next? = some (x, c')) : c.followed.next? = some (x, c'.followed) := by
  obtain ⟨hrest, hbehind⟩ := next?_eq h
  rw [next?, followed, hrest, followed, hbehind]
  rfl

theorem nextIs_followed (hx : x ≠ ')') (c : Cursor) : c.followed.nextIs x = c.nextIs x := by
  obtain ⟨b, rest⟩ := c
  cases rest with
  | nil => simpa [followed, nextIs, peek] using hx.symm
  | cons y ys => rfl

theorem atEnd_followed (h : c.rest ≠ []) : c.followed.atEnd = c.atEnd := by
  simp [followed, atEnd, h, List.isEmpty_eq_false_iff.2]

theorem skip_followed {n : Nat} (h : n ≤ c.rest.length) : c.followed.skip n = (c.skip n).followed := by
  simp [followed, skip, List.take_append_of_le_length h, List.drop_append_of_le_length h]

theorem skipRun_followed (hx : x ≠ ')') (c : Cursor) : c.followed.skipRun x = (c.skipRun x).followed := by
  have hrun : c.followed.rest.takeWhile (· = x) = c.rest.takeWhile (· = x) :=
    takeWhile_paren (decide_eq_false hx.symm) c.rest
  rw [skipRun, hrun, skip_followed (List.takeWhile_prefix _).length_le]
  rfl

theorem relative_append (cs : List Char) : relative (cs ++ [')']) = relative cs ++ [')'] := by
  rcases cs with _ | ⟨a, _ | ⟨b, cs⟩⟩
  · rfl
  all_goals
    unfold relative
    split <;> simp_all

theorem backslashes_relative (cs : List Char) : backslashes (relative cs) = backslashes cs := by
  unfold relative
  split
  · rename_i rest
    have hlead : '\\' ∉ ['.', '/'] := by decide
    exact (backslashes_append hlead rest).symm
  · rfl

theorem ofPattern_followed (pattern : String) : ofPattern (pattern ++ ")") = (ofPattern pattern).followed := by
  rw [ofPattern, String.toList_append]
  exact congrArg (Cursor.mk []) (relative_append _)

end Cursor

theorem PosixClass.at?_followed (c : Cursor) : at? c.followed = at? c := by
  obtain ⟨b, rest⟩ := c
  unfold at? Cursor.followed
  rcases rest with _ | ⟨x, cs⟩
  · rfl
  · by_cases hx : x = ':'
    · subst hx
      have hname := takeWhile_paren (p := fun x => 'a' ≤ x ∧ x ≤ 'z') (by decide) cs
      have hle := (List.takeWhile_prefix (l := cs) fun x => decide ('a' ≤ x ∧ x ≤ 'z')).length_le
      simp only [List.cons_append, hname, List.drop_append_of_le_length hle]
      generalize cs.drop _ = ds
      rcases ds with _ | ⟨a, _ | ⟨b, ds⟩⟩
      · rfl
      · simp
      · grind
    · simp [hx]

/-- A named class has been passed over. -/
theorem PosixClass.rest_skip {c : Cursor} {n : Named} (h : at? c = some n) :
    '\\' ∉ tail n.name ∧ c.rest = tail n.name ++ (c.skip n.text.length.pred).rest := by
  have hnames : ∀ name ∈ names, '\\' ∉ tail name := by decide
  refine ⟨hnames _ (mem_names (at?_isNamed h)), ?_⟩
  rw [Cursor.skip, length_text]
  exact List.prefix_iff_eq_append.1 (begins_tail h) |>.symm

namespace Scan

variable {d : Dialect} {s s' u : Scan} {c : Char}

/-! ## Steps -/

/-- The scan of the same glob with a closing parenthesis behind it. -/
def followed (s : Scan) : Scan := { s with cursor := s.cursor.followed }

@[simp] theorem cursor_followed (s : Scan) : s.followed.cursor = s.cursor.followed := rfl

@[simp] theorem nesting_followed (s : Scan) : s.followed.nesting = s.nesting := rfl

@[simp] theorem trail_followed (s : Scan) : s.followed.trail = s.trail := rfl

theorem opened_followed (s : Scan) (k : Delimiter) (c : Char) :
    s.followed.opened k c = (s.opened k c).followed := by
  unfold opened
  rw [nesting_followed]
  split
  · rfl
  · cases k <;> rfl

/-- All that the end of a group knows of its place is whether anything is left. -/
theorem closeGroup_cursor (d : Dialect) {cursor : Cursor} (hend : cursor.atEnd = s.cursor.atEnd) :
    closeGroup d { s with cursor } = { s.closeGroup d with cursor } := by
  simp only [closeGroup, cursor_mark, hend]
  rfl

/-- Only the end of a group asks whether anything is left. -/
theorem closed_followed {k : Delimiter}
    (hopen : k = .paren → s.cursor.rest = [] → s.nesting.topKind? ≠ some .paren) :
    s.followed.closed d k c = (s.closed d k c).map followed := by
  unfold closed
  rw [nesting_followed]
  cases htop : s.nesting.topKind? with
  | none => rfl
  | some top =>
    dsimp only
    split
    · rfl
    · rename_i hsame
      obtain rfl : top = k := not_not.1 hsame
      cases s.nesting.pop top with
      | error e => rfl
      | ok p =>
        cases top with
        | paren =>
          have hrest : s.cursor.rest ≠ [] := fun hnil => hopen rfl hnil htop
          have hend := Cursor.atEnd_followed hrest
          exact congrArg Except.ok (closeGroup_cursor d (s := { s with nesting := p.2 }) hend)
        | bracket | angle | brace | quote => rfl

theorem escape_followed (hrest : s.cursor.rest ≠ []) : s.followed.escape = s.escape.followed := by
  obtain ⟨e, cursor, hnext⟩ := Cursor.exists_next? hrest
  unfold escape
  rw [cursor_followed, Cursor.next?_followed hnext, hnext]
  rfl

theorem literalDot_followed (s : Scan) : s.followed.literalDot = s.literalDot.followed := by
  unfold literalDot
  rw [cursor_followed, Cursor.last_followed]
  split <;> rfl

theorem star_followed (d : Dialect) (s : Scan) : s.followed.star d = (s.star d).followed := by
  unfold star
  rw [cursor_followed, Cursor.nextIs_followed (by decide), Cursor.nextIs_followed (by decide),
    Cursor.last_followed, trail_followed]
  split
  · unfold globstar
    simp only [cursor_append, cursor_mark, cursor_followed, Cursor.skipRun_followed (x := '*') (by decide)]
    rfl
  · dsimp only
    split <;> rfl

theorem qmark_followed (d : Dialect) (s : Scan) : s.followed.qmark d = (s.qmark d).followed := by
  unfold qmark
  rw [cursor_followed, Cursor.last_followed, nesting_followed]
  split
  · rfl
  · split <;> rfl

theorem colon_followed (s : Scan) : s.followed.colon = s.colon.followed := by
  unfold colon
  rw [cursor_followed, Cursor.last_followed, Cursor.beforeLast_followed, nesting_followed]
  split <;> rfl

theorem plain_followed (d : Dialect) (afterGroup : Bool) (hescape : c = '\\' → s.cursor.rest ≠ []) :
    s.followed.plain d afterGroup c = (s.plain d afterGroup c).followed := by
  unfold Scan.plain
  split
  case h_1 => exact escape_followed (hescape rfl)
  case h_8 => exact literalDot_followed s
  case h_9 =>
    rw [cursor_followed, Cursor.isFirst_followed]
    split <;> rfl
  case h_10 => exact star_followed d s
  case h_11 => exact qmark_followed d s
  case h_12 => split <;> rfl
  case h_13 => exact colon_followed s
  all_goals rfl

theorem stepBracket_followed (hescape : c = '\\' → s.cursor.rest ≠ []) :
    s.followed.stepBracket d c = (s.stepBracket d c).map followed := by
  unfold Scan.stepBracket
  rw [nesting_followed, cursor_followed, PosixClass.at?_followed]
  dsimp only
  split
  · rfl
  · split
    · split
      · rfl
      · exact closed_followed nofun
    · split
      · rename_i hc
        obtain ⟨e, cursor, hnext⟩ := Cursor.exists_next? (hescape hc)
        rw [hnext, Cursor.next?_followed hnext]
        rfl
      · split
        · cases hat : PosixClass.at? s.cursor with
          | none => rfl
          | some n =>
            have hle : n.text.length.pred ≤ s.cursor.rest.length := by
              rw [PosixClass.length_text]
              exact (PosixClass.begins_tail hat).length_le
            dsimp only
            rw [Cursor.skip_followed hle]
            rfl
        · rfl

theorem announced?_followed (s : Scan) (c : Char) : s.followed.announced? c = s.announced? c := by
  unfold announced?
  rw [cursor_followed, Cursor.nextIs_followed (by decide), nesting_followed]

/-- A step cannot tell the two globs apart, unless a backslash or the end of a group is the last
character. -/
theorem step_followed (hescape : c = '\\' → s.cursor.rest ≠ [])
    (hopen : c = ')' → s.cursor.rest = [] → s.nesting.topKind? ≠ some .paren) :
    s.followed.step d c = (s.step d c).map followed := by
  -- a step forgets first what was closed last
  have hsettled : { s.followed with afterGroup := false } = followed { s with afterGroup := false } := rfl
  unfold Scan.step
  simp only [hsettled, announced?_followed]
  rw [nesting_followed]
  split
  · exact stepBracket_followed (s := { s with afterGroup := false }) hescape
  · split
    · rfl
    · split
      · exact congrArg Except.ok (opened_followed ..)
      · split
        · rename_i k hk
          refine closed_followed (s := { s with afterGroup := false }) fun hparen => hopen ?_
          rw [← Delimiter.ofCloser?_closer hk, hparen]
          rfl
        · exact congrArg Except.ok (plain_followed (s := { s with afterGroup := false }) d _ hescape)

/-! ## What a step passes over -/

theorem passes_stepBracket (h : s.stepBracket d c = .ok s') : Passes c s.cursor.rest s'.cursor.rest := by
  unfold Scan.stepBracket at h
  simp only at h
  split at h
  · rename_i hsign
    cases h
    refine .same ?_ _
    rintro rfl
    simp at hsign
  · split at h
    · rename_i hclose
      have hc : c ≠ '\\' := by
        rw [hclose]
        decide
      split at h
      · cases h
        exact .same hc _
      · rw [cursor_closed h]
        exact .same hc _
    · split at h
      · rename_i hc
        split at h <;> cases h
        · rename_i hnext
          exact .inl ⟨hc, by simp [Cursor.next?_rest hnext]⟩
        · rename_i hnext
          exact .inl ⟨hc, by simp [Cursor.rest_of_next?_eq_none hnext]⟩
      · rename_i hc
        split at h
        · split at h <;> cases h
          · rename_i hat
            exact .inr ⟨hc, _, PosixClass.rest_skip hat⟩
          · exact .same hc _
        · cases h
          exact .same hc _

theorem passes_escape (s : Scan) : Passes '\\' s.cursor.rest s.escape.cursor.rest := by
  unfold escape
  split
  · rename_i hnext
    exact .inl ⟨rfl, by simp [Cursor.next?_rest hnext]⟩
  · rename_i hnext
    exact .inl ⟨rfl, by simp [Cursor.rest_of_next?_eq_none hnext]⟩

theorem passes_star (d : Dialect) (s : Scan) : Passes '*' s.cursor.rest (s.star d).cursor.rest := by
  unfold star
  split
  · refine .inr ⟨by decide, s.cursor.rest.takeWhile (· = '*'), fun hmem => ?_, ?_⟩
    · have hstar := List.mem_takeWhile_imp hmem
      simp at hstar
    · exact (List.prefix_iff_eq_append.1 (List.takeWhile_prefix _)).symm
  · dsimp only
    split <;> exact .same (by decide) _

theorem passes_plain (d : Dialect) (s : Scan) (afterGroup : Bool) (c : Char) :
    Passes c s.cursor.rest (s.plain d afterGroup c).cursor.rest := by
  by_cases hc : c = '\\'
  · rw [hc]
    exact passes_escape s
  · have hsame {s' : Scan} (h : s'.cursor = s.cursor) : Passes c s.cursor.rest s'.cursor.rest := by
      rw [h]
      exact .same hc _
    unfold Scan.plain
    split
    case h_1 => exact absurd rfl hc
    case h_8 => exact hsame (cursor_literalDot s)
    case h_9 => split <;> exact hsame rfl
    case h_10 => exact passes_star d s
    case h_11 => exact hsame (cursor_qmark d s)
    case h_12 => split <;> exact hsame rfl
    case h_13 => exact hsame (cursor_colon s)
    all_goals exact hsame rfl

theorem passes_step (h : s.step d c = .ok s') : Passes c s.cursor.rest s'.cursor.rest := by
  unfold Scan.step at h
  simp only at h
  split at h
  · exact passes_stepBracket (s := { s with afterGroup := false }) h
  · split at h
    · rename_i hannounced
      cases h
      refine .same ?_ _
      rintro rfl
      simp [announced?, ExtGlob.ofSigil?] at hannounced
    · split at h
      · rename_i hk
        cases h
        rw [cursor_opened]
        refine .same ?_ _
        rintro rfl
        cases hk
      · split at h
        · rename_i hk
          rw [cursor_closed h]
          refine .same ?_ _
          rintro rfl
          cases hk
        · cases h
          exact passes_plain ..

/-! ## Runs -/

/-- The end of a group. -/
theorem step_paren (hcounted : s.nesting.Counted) {f : Frame} (hframes : s.nesting.frames = [f])
    (hkind : f.delimiter = .paren) : ∃ n, s.nesting.pop .paren = .ok (f, n) ∧ n.frames = [] ∧
      s.step d ')' = .ok (closeGroup d { s with nesting := n, afterGroup := false }) := by
  obtain ⟨n, hpop, hnil⟩ : ∃ n, s.nesting.pop .paren = .ok (f, n) ∧ n.frames = [] :=
    ⟨_, hkind ▸ Nesting.pop_of_frames hframes, rfl⟩
  have hinside : s.nesting.isInside .bracket = false :=
    hcounted.isInside_eq_false (by decide) (by simp [hframes, hkind])
  have hannounced : announced? { s with afterGroup := false } ')' = none := by
    simp [announced?, ExtGlob.ofSigil?]
  have htop : s.nesting.topKind? = some .paren := by rw [Nesting.topKind?_of_frames hframes, hkind]
  have hclosed : closed d { s with afterGroup := false } .paren ')' =
      .ok (closeGroup d { s with nesting := n, afterGroup := false }) := by
    unfold closed
    simp only [htop, ne_eq, not_true, if_false, hpop]
    rfl
  refine ⟨n, hpop, hnil, ?_⟩
  unfold Scan.step
  simp only [hinside, hannounced]
  exact hclosed

/-- Where a group is open a closing parenthesis leaves nothing open. -/
theorem frames_step_paren (hdepth : s.nesting.depth ≤ 1) (hcounted : s.nesting.Counted)
    (htop : s.nesting.topKind? = some .paren) (h : s.step d ')' = .ok s') :
    s'.nesting.frames = [] ∧ s'.cursor = s.cursor := by
  obtain ⟨f, hframes, hkind⟩ := Nesting.frames_of_topKind? hdepth htop
  obtain ⟨n, -, hnil, hclosed⟩ := step_paren (d := d) hcounted hframes hkind
  obtain rfl := Except.ok.inj (hclosed.symm.trans h)
  exact ⟨Moves.frames_append hnil _, rfl⟩

/-- As long as the group stays open, the scans of both globs go the same way. -/
theorem run_followed (hs : s.Paired) (heven : Even (backslashes s.cursor.rest)) (h : s.run d = .ok u)
    (hopen : u.nesting.frames ≠ []) : s.followed.run d = u.followed.run d := by
  refine run_induct (P := fun s => s.Paired → Even (backslashes s.cursor.rest) →
    s.followed.run d = u.followed.run d) (fun _ _ _ => rfl) ?_ h hs heven
  intro s s₁ b c rest hcursor hstep hrun ih hs heven
  have hs₁ : s₁.Paired := hs.reads ⟨c, ⟨c :: b, rest⟩, by rw [hcursor]; rfl, hstep⟩
  rw [hcursor] at heven
  have hfollowed : step d (followed { s with cursor := ⟨c :: b, rest⟩ }) c = .ok s₁.followed := by
    rw [step_followed (ne_nil_of_even_backslashes heven), hstep]
    · rfl
    · rintro rfl hrest htop
      obtain ⟨hnil, hcursor₁⟩ :=
        frames_step_paren (s := { s with cursor := ⟨')' :: b, rest⟩ }) hs.depth hs.counted htop hstep
      have hend : s₁.run d = .ok s₁ := run_nil (by rw [hcursor₁]; exact hrest)
      obtain rfl : s₁ = u := Except.ok.inj (hend.symm.trans hrun)
      exact hopen hnil
  have hcursor' : s.followed.cursor = ⟨b, c :: (rest ++ [')'])⟩ := by
    rw [cursor_followed, hcursor]
    rfl
  rw [run_cons hcursor', ← ih hs₁ ((passes_step hstep).even heven)]
  exact congrArg (Except.bind · (run d)) hfollowed

/-- At the end of the glob the closing parenthesis does what the end itself does. -/
theorem run_followed_end (hs : s.Paired) (hrest : s.cursor.rest = []) {f : Frame}
    (hframes : s.nesting.frames = [f]) (hkind : f.delimiter = .paren) :
    ∃ cursor, s.followed.run d = .ok { s.cutOffAll d with cursor } ∧ (s.cutOffAll d).nesting.frames = [] := by
  obtain ⟨b, hcursor⟩ : ∃ b, s.cursor = ⟨b, []⟩ := ⟨_, by rw [← hrest]⟩
  obtain ⟨n, hpop, hnil, hclosed⟩ :=
    step_paren (d := d) (s := { s with cursor := ⟨')' :: b, []⟩ }) hs.counted hframes hkind
  obtain ⟨-, -, n', hpop', -, hcutOff⟩ := hs.exists_pop (d := d) hframes
  obtain rfl : n = n' := by
    rw [hkind] at hpop'
    cases hpop.symm.trans hpop'
    rfl
  have hend : s.cutOffAll d = closeGroup d { s with nesting := n } := by
    rw [hcutOff, cutOff, hkind]
  have hgroup : closeGroup d { s with cursor := ⟨')' :: b, []⟩, nesting := n, afterGroup := false } =
      { s.cutOffAll d with cursor := ⟨')' :: b, []⟩ } := by
    rw [hend]
    exact closeGroup_cursor d (s := { s with nesting := n, afterGroup := false }) (by rw [hcursor]; rfl)
  have hcursor' : s.followed.cursor = ⟨b, [')']⟩ := by
    rw [cursor_followed, hcursor]
    rfl
  refine ⟨⟨')' :: b, []⟩, ?_, ?_⟩
  · rw [run_cons hcursor', ← hgroup]
    exact (congrArg (Except.bind · (run d)) hclosed).trans (run_nil rfl)
  · rw [hend]
    exact Moves.frames_append hnil _

/-- Behind the closing parenthesis nothing is open, and all else is as at the end of the glob. -/
theorem finish_cutOffAll {cursor : Cursor} (h : (s.cutOffAll d).nesting.frames = []) :
    finish d { s.cutOffAll d with cursor } = { s.finish d with unclosed := [] } := by
  have hsame := cutOffAll_of_nil d (s := { s.cutOffAll d with cursor }) h
  unfold finish
  rw [hsame]
  simp [Nesting.openers, h]

end Scan

/-! ## Renderings -/

/-- A group that a glob leaves open ends as if a closing parenthesis stood at the end of the glob, unless the
glob ends with an odd number of backslashes, the last of which would take the parenthesis along. The
rendering is the same, save that nothing is reported as open. -/
theorem Rendering.ofPattern_closed {d : Dialect} {pattern : String} {r : Rendering}
    (heven : Even (backslashes pattern.toList)) (h : ofPattern d pattern = .ok r)
    (hopen : r.unclosed = ['(']) : ofPattern d (pattern ++ ")") = .ok { r with unclosed := [] } := by
  obtain ⟨s, hrun, hreached, hrest, rfl⟩ := exists_reached h
  have hs : s.Paired := .of_reached hreached
  have hopeners : s.nesting.openers = ['('] := hopen
  obtain ⟨f, hframes, hopener⟩ : ∃ f, s.nesting.frames = [f] ∧ f.opener = '(' := by
    rcases hs.frames_cases with hframes | ⟨f, hframes⟩
    · simp [Nesting.openers, hframes] at hopeners
    · exact ⟨f, hframes, by simpa [Nesting.openers, hframes] using hopeners⟩
  have hkind : f.delimiter = .paren := by
    have hdelimiter := hs.openers f (by rw [hframes]; exact List.mem_singleton_self f)
    rw [hopener] at hdelimiter
    exact (Option.some.inj hdelimiter).symm
  have hfollowed := Scan.run_followed (.start _) (by rwa [Cursor.ofPattern, Cursor.backslashes_relative])
    hrun (by simp [hframes])
  obtain ⟨cursor, hend, hnil⟩ := Scan.run_followed_end (d := d) hs hrest hframes hkind
  calc ofPattern d (pattern ++ ")")
      = (Scan.run d (Scan.followed { cursor := .ofPattern pattern })).map (·.finish d) := by
        rw [ofPattern, Cursor.ofPattern_followed]
        rfl
    _ = .ok (Scan.finish d { s.cutOffAll d with cursor }) := by
        rw [hfollowed, hend]
        rfl
    _ = .ok { s.finish d with unclosed := [] } := congrArg Except.ok (Scan.finish_cutOffAll hnil)

/-- A negated group that is open behind an even number of backslashes. -/
theorem Rendering.ofPattern_closed_negated : ∃ r, ofPattern {} "x!(a|b\\\\" = .ok r ∧
    backslashes "x!(a|b\\\\".toList = 2 ∧ r.unclosed = ['('] ∧
    ofPattern {} ("x!(a|b\\\\" ++ ")") = .ok { r with unclosed := [] } := by
  obtain ⟨r, hr, hopen⟩ : ∃ r, ofPattern {} "x!(a|b\\\\" = .ok r ∧ decide (r.unclosed = ['(']) = true :=
    exists_ok_of_any (by decide +kernel)
  have htwo : backslashes "x!(a|b\\\\".toList = 2 := by decide +kernel
  have hunclosed := of_decide_eq_true hopen
  exact ⟨r, hr, htwo, hunclosed, ofPattern_closed (by rw [htwo]; decide) hr hunclosed⟩

/-- A backslash that is left over makes a character of the parenthesis, and the group stays open. -/
example : ∃ r, Rendering.ofPattern {} ("(a\\" ++ ")") = .ok r ∧ decide (r.unclosed = ['(']) = true :=
  exists_ok_of_any (by decide +kernel)

end PathGlob
