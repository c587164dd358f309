/-
The components of a glob, told from its text: its tokens, divided at the separators that are neither
escaped nor in a bracket expression. What a rendering marks as begun with a dot are the components that
do begin with one, and besides those the components in which a dot stands right behind an escaped
separator, since the character before a dot is all that is asked for. So the guard of the first component
may be missing where the glob begins with neither a dot nor a globstar.
-/
import Mathlib.Data.List.Infix
import PathGlob.Proofs.Glob.Grammar
import PathGlob.Proofs.Glob.Ordinary
import PathGlob.Proofs.Matcher.Members

namespace PathGlob

/-! ## Tokens -/

/-- A character of a glob by how it is read. -/
inductive Token where
  | plain (c : Char)
  /-- A character behind a backslash. -/
  | escaped (c : Char)
  /-- A character of a bracket expression, behind its opening bracket. -/
  | member (c : Char)
  deriving DecidableEq, Repr

namespace Scope

/-- What a character is read as; a backslash stands for itself at the end. -/
def token (p : Scope) (c : Char) (cs : List Char) : Token :=
  if p.isBracket then .member c
  else if c = '\\' then (cs.head?.map .escaped).getD (.plain c)
  else .plain c

/-- The tokens of a glob, up to a closing character that finds nothing open. -/
def tokens (p : Scope) (glob : List Char) : List Token :=
  match glob with
  | [] => []
  | c :: cs =>
    match _h : p.read c cs with
    | .error _ => []
    | .ok (q, rest) => p.token c cs :: q.tokens rest
termination_by glob.length
decreasing_by exact Nat.lt_succ_of_le (length_read_le _h)

theorem tokens_nil (p : Scope) : p.tokens [] = [] := by
  rw [tokens]

theorem tokens_of_ok {p q : Scope} {c : Char} {cs rest : List Char}
    (h : p.read c cs = .ok (q, rest)) : p.tokens (c :: cs) = p.token c cs :: q.tokens rest := by
  rw [tokens]
  split
  · rename_i he
    rw [h] at he
    cases he
  · rename_i ho
    rw [h] at ho
    cases ho
    rfl

theorem token_plain {p : Scope} (hp : p.isBracket = false) {c : Char} (hc : c ≠ '\\')
    (cs : List Char) : p.token c cs = .plain c := by
  rw [token, hp, if_neg (by decide), if_neg hc]

end Scope

/-- The tokens of a whole glob, without a leading `./`. -/
def tokensOf (pattern : String) : List Token :=
  Scope.outside.tokens (Cursor.relative pattern.toList)

namespace Token

/-- The components of a glob: what stands between the separators. -/
def components (ts : List Token) : List (List Token) := ts.splitOn (.plain '/')

theorem components_nil : components [] = [[]] := List.splitOn_nil _

theorem components_separator (ts : List Token) :
    components (.plain '/' :: ts) = [] :: components ts := by
  unfold components List.splitOn
  rw [List.splitOnP_cons_eq_if_modifyHead, if_pos (beq_self_eq_true _)]

theorem components_cons {t : Token} (ht : t ≠ .plain '/') {ts c : List Token} {cs : List (List Token)}
    (h : components ts = c :: cs) : components (t :: ts) = (t :: c) :: cs := by
  unfold components List.splitOn at h ⊢
  rw [List.splitOnP_cons_eq_if_modifyHead, if_neg (by simpa using ht), h]
  rfl

/-- There is one component more than there are separators. -/
theorem length_components (ts : List Token) : (components ts).length = ts.count (.plain '/') + 1 := by
  induction ts with
  | nil => rw [components_nil, List.length_singleton, List.count_nil]
  | cons t ts ih =>
    by_cases ht : t = .plain '/'
    · rw [ht, components_separator, List.length_cons, ih, List.count_cons_self]
    · obtain ⟨c, cs, hcomponents⟩ := List.exists_cons_of_length_eq_add_one ih
      rw [components_cons ht hcomponents, List.count_cons_of_ne ht, ← ih, hcomponents, List.length_cons,
        List.length_cons]

/-- A dot that begins a component, if the tokens stand at its start, or one right behind an escaped
separator. -/
def HasDot (atStart : Bool) (ts : List Token) : Prop :=
  atStart = true ∧ ts.head? = some (.plain '.') ∨ [.escaped '/', .plain '.'] <:+: ts

theorem hasDot_nil (atStart : Bool) : ¬ HasDot atStart [] := by
  simp [HasDot]

theorem hasDot_cons {atStart : Bool} {t : Token} {ts : List Token} : HasDot atStart (t :: ts) ↔
    atStart = true ∧ t = .plain '.' ∨ HasDot (t = .escaped '/') ts := by
  have hhead : [Token.escaped '/', .plain '.'] <+: t :: ts ↔
      t = .escaped '/' ∧ ts.head? = some (.plain '.') := by
    cases ts <;> simp [List.cons_prefix_cons, eq_comm]
  simp only [HasDot, List.infix_cons_iff, hhead, List.head?_cons, Option.some.injEq,
    decide_eq_true_eq]

end Token

/-! ## Marks of components -/

/-- The marks of dots at a place in a glob: of the components that are finished and of the current one,
and whether a dot that follows sets a mark. -/
structure DotMarks where
  done : List Bool := []
  current : Bool := false
  atStart : Bool := true

namespace DotMarks

/-- The marks of all components in order. -/
def toList (m : DotMarks) : List Bool := m.done ++ [m.current]

/-- The marks behind a token. -/
def read (m : DotMarks) (t : Token) : DotMarks :=
  if t = .plain '/' then { done := m.toList }
  else { m with current := m.current || m.atStart && t = .plain '.', atStart := t = .escaped '/' }

theorem read_other (m : DotMarks) {t : Token} (hsep : t ≠ .plain '/') (hdot : t ≠ .plain '.')
    (hescaped : t ≠ .escaped '/') : m.read t = { m with atStart := false } := by
  simp [read, hsep, hdot, hescaped]

/-- Reading tokens marks the components with dots in them, the current one with what it has already. -/
theorem toList_foldl (m : DotMarks) (ts : List Token) : ∃ b bs c cs,
    (ts.foldl read m).toList = m.done ++ b :: bs ∧ Token.components ts = c :: cs ∧
      (b = true ↔ m.current = true ∨ Token.HasDot m.atStart c) ∧
      List.Forall₂ (fun b c => b = true ↔ Token.HasDot true c) bs cs := by
  induction ts generalizing m with
  | nil =>
    refine ⟨m.current, [], [], [], rfl, Token.components_nil, ?_, .nil⟩
    rw [or_iff_left (Token.hasDot_nil _)]
  | cons t ts ih =>
    obtain ⟨b, bs, c, cs, hlist, hcomponents, hhead, htail⟩ := ih (m.read t)
    rw [List.foldl_cons, hlist]
    by_cases hsep : t = .plain '/'
    · subst hsep
      refine ⟨m.current, b :: bs, [], c :: cs, ?_, ?_, ?_, .cons ?_ htail⟩
      · simp [read, toList]
      · rw [Token.components_separator, hcomponents]
      · rw [or_iff_left (Token.hasDot_nil _)]
      · simpa [read] using hhead
    · refine ⟨b, bs, t :: c, cs, ?_, Token.components_cons hsep hcomponents, ?_, htail⟩
      · simp [read, hsep]
      · rw [hhead, Token.hasDot_cons]
        simp [read, hsep, or_assoc]

end DotMarks

/-! ## Marks in outlines -/

/-- Behind a run of a character there stands that character. -/
theorem Cursor.head?_skipRun (x : Char) (b rest : List Char) :
    (skipRun ⟨x :: b, rest⟩ x).behind.head? = some x := by
  have hsame : ∀ c ∈ rest.takeWhile (· = x), c = x := fun c hc => by
    simpa using List.all_eq_true.1 List.all_takeWhile c hc
  have htake : rest.take (rest.takeWhile (· = x)).length = rest.takeWhile (· = x) :=
    (List.prefix_iff_eq_take.1 (List.takeWhile_prefix _)).symm
  simp only [skipRun, skip, htake]
  rw [List.eq_replicate_of_mem hsame, List.reverse_replicate]
  cases (rest.takeWhile (· = x)).length <;> rfl

/-- The marks of dots in components. -/
def Trail.dots (t : Trail) : List Bool × Bool := (t.done.map (·.dot), t.current.dot)

@[simp] theorem Trail.dots_modify (t : Trail) {f : Component → Component}
    (hf : ∀ c, (f c).dot = c.dot) : (t.modify f).dots = t.dots := by
  simp [dots, modify, hf]

namespace Outline

/-- Whether a dot that follows is taken for the first character of a component. -/
def atStart (o : Outline) : Bool :=
  !o.opened.isBracket && (o.cursor.behind.head? = none || o.cursor.behind.head? = some '/')

/-- The marks of dots at a place in a glob. -/
def dotMarks (o : Outline) : DotMarks where
  done := o.trail.dots.1
  current := o.trail.dots.2
  atStart := o.atStart

@[simp] theorem isBracket_put (o : Outline) (g : Glyph) :
    (o.put g).opened.isBracket = o.opened.isBracket := by
  unfold put
  split
  · rename_i ho
    rw [ho]
    rfl
  · rfl

@[simp] theorem trail_put (o : Outline) (g : Glyph) : (o.put g).trail = o.trail := by
  unfold put; split <;> rfl

@[simp] theorem trail_settle (o : Outline) (b : Bool) : (o.settle b).trail = o.trail := rfl

@[simp] theorem trail_literal (o : Outline) (c : Char) : (o.literal c).trail = o.trail := trail_put ..

theorem trail_stepBracket (o : Outline) (b : Bracket) (c : Char) :
    (o.stepBracket b c).trail = o.trail := by
  unfold stepBracket
  (repeat' split) <;> rfl

theorem trail_openAt (o : Outline) (k : Delimiter) (c : Char) : (o.openAt k c).trail = o.trail := by
  unfold openAt
  split
  · cases k <;> simp
  · simp

theorem dots_closeGroup (o : Outline) (g : Option ExtGlob) (body : List Glyph) :
    (o.closeGroup g body).trail.dots = o.trail.dots :=
  Trail.dots_modify _ fun c => by split <;> rfl

theorem dots_closeAt {o o' : Outline} {k : Delimiter} {c : Char} (h : o.closeAt k c = .ok o') :
    o'.trail.dots = o.trail.dots := by
  unfold closeAt at h
  split at h <;> cases h
  · split
    · exact dots_closeGroup ..
    · rw [trail_literal]
  · split <;> rw [trail_literal]
  · rw [trail_literal]

theorem dots_finish (o : Outline) : o.finish.trail.dots = o.trail.dots := by
  unfold finish
  rw [trail_settle]
  split
  · rfl
  · exact dots_closeGroup ..
  · rfl
  · rfl

theorem atStart_of_behind {u : Outline} {d : Char} (hd : u.cursor.behind.head? = some d)
    (hsep : d ≠ '/') : u.atStart = false := by
  simp [atStart, hd, hsep]

/-- What leaves the components and ends in another character than a separator sets no mark. -/
theorem dotMarks_of_quiet {o u : Outline} (hdots : u.trail.dots = o.trail.dots) {d : Char}
    (hd : u.cursor.behind.head? = some d) (hsep : d ≠ '/') :
    u.dotMarks = { o.dotMarks with atStart := false } := by
  simp [dotMarks, atStart, hdots, hd, hsep]

section Steps

variable {o : Outline} {b rest : List Char} {c : Char}

theorem dotMarks_stepBracket (hcur : o.cursor = ⟨b, c :: rest⟩) (x : Bracket) :
    (stepBracket { o with cursor := ⟨c :: b, rest⟩ } x c).dotMarks =
      { o.dotMarks with atStart := false } := by
  have hopen : (stepBracket { o with cursor := ⟨c :: b, rest⟩ } x c).atStart = false := by
    unfold stepBracket
    split
    · rfl
    · split
      · rename_i hc
        subst hc
        split <;> rfl
      · (repeat' split) <;> rfl
  unfold dotMarks
  rw [trail_stepBracket, hopen]

theorem dotMarks_escape (hb : o.opened.isBracket = false) (hcur : o.cursor = ⟨b, '\\' :: rest⟩) :
    (escape { o with cursor := ⟨'\\' :: b, rest⟩ }).dotMarks =
      o.dotMarks.read (o.opened.scope.token '\\' rest) := by
  rw [Scope.token, Opened.isBracket_scope, hb, if_neg (by decide), if_pos rfl]
  cases rest with
  | nil =>
    rw [List.head?_nil, Option.map_none, Option.getD_none,
      DotMarks.read_other _ (by decide) (by decide) (by decide)]
    exact dotMarks_of_quiet (d := '\\') (by simp [escape, Cursor.next?]) (by simp [escape, Cursor.next?])
      (by decide)
  | cons e rest =>
    rw [List.head?_cons, Option.map_some, Option.getD_some]
    by_cases he : e = '/'
    · -- an escaped separator is taken for a separator when a dot comes next
      subst he
      simp [escape, Cursor.next?, dotMarks, DotMarks.read, atStart, hb]
    · rw [DotMarks.read_other _ (by simp) (by simp) (by simpa using he)]
      exact dotMarks_of_quiet (d := e) (by simp [escape, Cursor.next?]) (by simp [escape, Cursor.next?]) he

theorem dotMarks_separator (hb : o.opened.isBracket = false) :
    (separator { o with cursor := ⟨'/' :: b, rest⟩ }).dotMarks = o.dotMarks.read (.plain '/') := by
  simp [separator, dotMarks, DotMarks.read, DotMarks.toList, atStart, Trail.dots, Trail.begin,
    Trail.toList, hb]

theorem dotMarks_literalDot (hb : o.opened.isBracket = false) (hcur : o.cursor = ⟨b, '.' :: rest⟩) :
    (literalDot { o with cursor := ⟨'.' :: b, rest⟩ }).dotMarks = o.dotMarks.read (.plain '.') := by
  have hlast : Cursor.last ⟨'.' :: b, rest⟩ = o.cursor.behind.head? := by
    rw [hcur]
    cases b <;> rfl
  have hstart : o.atStart = (decide (Cursor.last ⟨'.' :: b, rest⟩ = none) ||
      decide (Cursor.last ⟨'.' :: b, rest⟩ = some '/')) := by
    rw [atStart, hb, hlast]
    rfl
  unfold literalDot
  rw [← hstart]
  cases hs : o.atStart with
  | false =>
    rw [if_neg Bool.false_ne_true, dotMarks_of_quiet (o := o) (d := '.') (by simp) (by simp) (by decide)]
    simp [dotMarks, DotMarks.read, hs]
  | true =>
    have hmarked {u : Outline} (htrail : u.trail = o.trail.modify fun c => { c with dot := true })
        (hcursor : u.cursor = ⟨'.' :: b, rest⟩) : u.dotMarks = o.dotMarks.read (.plain '.') := by
      have hafter := atStart_of_behind (u := u) (d := '.') (by rw [hcursor]; rfl) (by decide)
      simp [dotMarks, hafter, htrail, DotMarks.read, Trail.dots, Trail.modify, hs]
    exact hmarked (trail_put ..) (cursor_put ..)

theorem dotMarks_star (o : Outline) (b rest : List Char) :
    (star { o with cursor := ⟨'*' :: b, rest⟩ }).dotMarks = o.dotMarks.read (.plain '*') := by
  rw [DotMarks.read_other _ (by decide) (by decide) (by decide)]
  unfold star
  split
  · apply dotMarks_of_quiet (d := '*')
    · exact (congrArg Trail.dots (trail_put ..)).trans (Trail.dots_modify _ fun _ => rfl)
    · simp only [globstar, cursor_put, cursor_mark]
      exact Cursor.head?_skipRun '*' b rest
    · decide
  · exact dotMarks_of_quiet (d := '*') (by simp) (by simp) (by decide)

/-- A character that is no delimiter and announces nothing. -/
theorem dotMarks_plain (hb : o.opened.isBracket = false) (hcur : o.cursor = ⟨b, c :: rest⟩) :
    (plain { o with cursor := ⟨c :: b, rest⟩ } c).dotMarks =
      o.dotMarks.read (o.opened.scope.token c rest) := by
  have hscope : o.opened.scope.isBracket = false := by rw [Opened.isBracket_scope, hb]
  by_cases hescape : c = '\\'
  · subst hescape
    exact dotMarks_escape (o := settle o) hb hcur
  by_cases hsep : c = '/'
  · subst hsep
    rw [Scope.token_plain hscope hescape]
    exact dotMarks_separator (o := settle o) hb
  by_cases hdot : c = '.'
  · subst hdot
    rw [Scope.token_plain hscope hescape]
    exact dotMarks_literalDot (o := settle o) hb hcur
  by_cases hstar : c = '*'
  · subst hstar
    rw [Scope.token_plain hscope hescape]
    exact dotMarks_star (settle o) b rest
  · rw [Scope.token_plain hscope hescape,
      DotMarks.read_other _ (by simpa using hsep) (by simpa using hdot) (by simp)]
    have hquiet {u : Outline} (hdots : u.trail.dots = o.trail.dots) (hcursor : u.cursor = ⟨c :: b, rest⟩) :
        u.dotMarks = { o.dotMarks with atStart := false } :=
      dotMarks_of_quiet (d := c) hdots (by rw [hcursor]; rfl) hsep
    unfold plain
    split
    case h_1 => split <;> exact hquiet (by simp) (by simp)
    case h_2 => exact absurd rfl hescape
    case h_3 => exact absurd rfl hsep
    case h_4 => exact absurd rfl hdot
    case h_5 => split <;> exact hquiet (by simp) (by simp)
    case h_6 => exact absurd rfl hstar
    case h_7 =>
      unfold qmark
      split <;> exact hquiet (by simp) (by simp)
    case h_8 =>
      unfold colon
      split
      · exact hquiet (Trail.dots_modify _ fun _ => rfl) rfl
      · exact hquiet (by simp) (by simp)
    case h_9 => exact hquiet (by simp) (by simp)

/-- A step reads the marks of dots as one token. -/
theorem dotMarks_step (hcur : o.cursor = ⟨b, c :: rest⟩) {o' : Outline}
    (hstep : step { o with cursor := ⟨c :: b, rest⟩ } c = .ok o') :
    o'.dotMarks = o.dotMarks.read (o.opened.scope.token c rest) := by
  cases hb : o.opened.isBracket with
  | true =>
    obtain ⟨x, ho⟩ : ∃ x, o.opened = .bracket x := by
      cases ho : o.opened with
      | bracket x => exact ⟨x, rfl⟩
      | _ => rw [ho] at hb; cases hb
    rw [step_bracket (by exact ho)] at hstep
    obtain rfl := Except.ok.inj hstep
    rw [dotMarks_stepBracket hcur, Scope.token, Opened.isBracket_scope, hb, if_pos rfl,
      DotMarks.read_other _ (by simp) (by simp) (by simp)]
  | false =>
    have hscope : o.opened.scope.isBracket = false := by rw [Opened.isBracket_scope, hb]
    -- delimiters and what announces a group are read as themselves
    have hquiet {u : Outline} (hdots : u.trail.dots = o.trail.dots) (hcursor : u.cursor = ⟨c :: b, rest⟩)
        (hc : c ≠ '\\' ∧ c ≠ '/' ∧ c ≠ '.') :
        u.dotMarks = o.dotMarks.read (o.opened.scope.token c rest) := by
      rw [Scope.token_plain hscope hc.1, DotMarks.read_other _ (by simpa using hc.2.1)
        (by simpa using hc.2.2) (by simp)]
      exact dotMarks_of_quiet (d := c) hdots (by rw [hcursor]; rfl) hc.2.1
    rw [step_of_not_bracket _ (by exact hb)] at hstep
    split at hstep
    · rename_i g hg
      obtain rfl := Except.ok.inj hstep
      refine hquiet rfl rfl ?_
      unfold announced? at hg
      split at hg
      · unfold ExtGlob.ofSigil? at hg
        split at hg <;> first | decide | cases hg
      · cases hg
    · split at hstep
      · rename_i k hk
        obtain rfl := Except.ok.inj hstep
        refine hquiet (by rw [trail_openAt]; rfl) (cursor_openAt ..) ?_
        unfold Delimiter.ofOpener? at hk
        split at hk <;> first | decide | cases hk
      · split at hstep
        · rename_i k hk
          refine hquiet ((dots_closeAt hstep).trans rfl) (cursor_closeAt hstep) ?_
          unfold Delimiter.ofCloser? at hk
          split at hk <;> first | decide | cases hk
        · obtain rfl := Except.ok.inj hstep
          exact dotMarks_plain hb hcur

end Steps

/-- A step passes over stars only where no dot that follows would set a mark. -/
theorem rest_of_atStart {o o' : Outline} {b rest cs : List Char} {c : Char}
    (hcur : o.cursor = ⟨b, c :: rest⟩) (hstep : step { o with cursor := ⟨c :: b, rest⟩ } c = .ok o')
    (hread : o.opened.scope.read c rest = .ok (o'.opened.scope, cs)) :
    cs = o'.cursor.rest ∨ o'.atStart = false := by
  rw [or_iff_not_imp_right, Bool.not_eq_false]
  intro hstart
  have hmarks : (o.dotMarks.read (o.opened.scope.token c rest)).atStart = true := by
    rw [← dotMarks_step hcur hstep]
    exact hstart
  -- what is read is a separator or a backslash, and neither looks further
  have hb : o.opened.isBracket = false := by
    cases hb : o.opened.isBracket with
    | false => rfl
    | true =>
      rw [Scope.token, Opened.isBracket_scope, hb, if_pos rfl] at hmarks
      cases hmarks
  have hscope : o.opened.scope.isBracket = false := by rw [Opened.isBracket_scope, hb]
  by_cases hescape : c = '\\'
  · subst hescape
    rw [step_of_not_bracket _ (by exact hb), announced?_of_not_sigil rfl] at hstep
    obtain rfl := Except.ok.inj hstep
    rw [Scope.read_escape hscope] at hread
    have hrest : (plain { o with cursor := ⟨'\\' :: b, rest⟩ } '\\').cursor.rest = rest.tail :=
      rest_escape (settle { o with cursor := ⟨'\\' :: b, rest⟩ })
    rw [hrest]
    exact (congrArg Prod.snd (Except.ok.inj hread)).symm
  · rw [Scope.token_plain hscope hescape] at hmarks
    have hsep : c = '/' := by
      by_contra hsep
      simp [DotMarks.read, hsep] at hmarks
    subst hsep
    rw [step_of_not_bracket _ (by exact hb), announced?_of_not_sigil rfl] at hstep
    obtain rfl := Except.ok.inj hstep
    rw [Scope.read_plain hscope rfl rfl hescape] at hread
    have hrest : (plain { o with cursor := ⟨'/' :: b, rest⟩ } '/').cursor.rest = rest :=
      congrArg Cursor.rest (cursor_separator (settle { o with cursor := ⟨'/' :: b, rest⟩ }))
    rw [hrest]
    exact (congrArg Prod.snd (Except.ok.inj hread)).symm

/-- A run reads the marks of dots token by token. -/
theorem dotMarks_run {o : Outline} {cs : List Char} (h : o.Leaves cs)
    (hpassed : cs = o.cursor.rest ∨ o.atStart = false) {o' : Outline} (hrun : o.run = .ok o') :
    o'.dotMarks = (o.opened.scope.tokens cs).foldl DotMarks.read o.dotMarks := by
  induction h using Leaves.induct with
  | done o _ hrest =>
    rw [run_nil hrest] at hrun
    cases hrun
    rw [Scope.tokens_nil]
    rfl
  | passed o cs h _ hb ih =>
    -- more is left to the scanner than to the outline
    have hstart : o.atStart = false := by
      refine hpassed.resolve_left fun hcs => ?_
      rcases h with rfl | ⟨-, n, rfl⟩
      · simpa using congrArg List.length hcs
      · have := congrArg List.length hcs
        simp only [List.length_cons, List.length_append, List.length_replicate] at this
        omega
    have hscope : o.opened.scope.isBracket = false := by rw [Opened.isBracket_scope, hb]
    have hsame : o.dotMarks.read (.plain '*') = o.dotMarks := by
      rw [DotMarks.read_other _ (by decide) (by decide) (by decide), dotMarks, hstart]
    rw [Scope.tokens_of_ok (Scope.read_plain hscope rfl rfl (by decide)),
      Scope.token_plain hscope (by decide), List.foldl_cons, hsame]
    exact ih (.inr hstart) hrun
  | refused o b c rest e _ ho hs hread =>
    rw [run_cons ho, hs] at hrun
    cases hrun
  | read o b c rest o₁ cs _ _ ho hs hread ih =>
    rw [run_cons ho, hs] at hrun
    rw [Scope.tokens_of_ok hread, List.foldl_cons, ← dotMarks_step ho hs]
    exact ih (rest_of_atStart ho hs hread) hrun

theorem toList_dotMarks (o : Outline) : o.dotMarks.toList = o.trail.toList.map (·.dot) := by
  simp [dotMarks, DotMarks.toList, Trail.dots, Trail.toList]

theorem toList_dotMarks_finish (o : Outline) : o.finish.dotMarks.toList = o.dotMarks.toList := by
  simp only [DotMarks.toList, dotMarks, dots_finish]

/-- The marks of a whole glob are what its tokens leave. -/
theorem dots_ofPattern {pattern : String} {o : Outline} {openers : List Char}
    (h : ofPattern pattern = .ok (o, openers)) :
    o.trail.toList.map (·.dot) = ((tokensOf pattern).foldl DotMarks.read {}).toList := by
  unfold ofPattern at h
  cases hrun : run { cursor := .ofPattern pattern } with
  | error e =>
    rw [hrun] at h
    cases h
  | ok u =>
    rw [hrun] at h
    cases h
    have hmarks := dotMarks_run (.inl rfl) (.inl rfl) hrun
    rw [← toList_dotMarks, toList_dotMarks_finish, hmarks]
    rfl

/-- A glob that begins with a dot has no guard. -/
theorem not_isGuarded_of_dot {pattern : String} (hdot : pattern.toList.head? = some '.')
    (hrel : ¬ ['.', '/'] <+: pattern.toList) {o : Outline} {openers : List Char}
    (ho : ofPattern pattern = .ok (o, openers)) : o.isGuarded = false := by
  obtain ⟨cs, hcs⟩ := List.head?_eq_some_iff.1 hdot
  obtain ⟨b, bs, ts, tss, hmarks, hcomponents, hhead, -⟩ := DotMarks.toList_foldl {} (tokensOf pattern)
  have htokens : tokensOf pattern = .plain '.' :: Scope.tokens .outside cs := by
    have hread : Scope.read .outside '.' cs = .ok (.outside, cs) :=
      Scope.read_plain rfl rfl rfl (by decide)
    rw [tokensOf, Cursor.relative_eq_self hrel, hcs, Scope.tokens_of_ok hread,
      Scope.token_plain rfl (by decide)]
  have hfirst : b = true := by
    rw [hhead]
    obtain ⟨us, uss, hrest⟩ := List.exists_cons_of_ne_nil
      (List.splitOn_ne_nil (.plain '/') (Scope.tokens .outside cs))
    rw [htokens, Token.components_cons (by decide) hrest] at hcomponents
    cases hcomponents
    exact .inr (.inl ⟨rfl, rfl⟩)
  have hdots := dots_ofPattern ho
  rw [hmarks, List.nil_append] at hdots
  obtain ⟨c, cs', hlist, hc, -⟩ := List.map_eq_cons_iff.1 hdots
  simp [isGuarded, hlist, hc, hfirst]

end Outline

/-! ## Renderings -/

namespace Rendering

/-- The first component of what is not negated is guarded, unless it is marked as begun with a dot or
holds a globstar. -/
theorem guard_begins_head {d : Dialect} {pattern : String} {r : Rendering}
    (h : ofPattern d pattern = .ok r) {c : Component} (hc : r.components.head? = some c)
    (hnegated : r.negated = false) (hdot : c.dot = false) (hglobstar : c.globstar = false) :
    (Fragment.dotGuard d.dot).toList <+: c.text.toList := by
  unfold ofPattern at h
  cases hrun : Scan.run d { cursor := .ofPattern pattern } with
  | error e =>
    rw [hrun] at h
    cases h
  | ok s =>
    rw [hrun] at h
    cases h
    obtain ⟨c₀, cs, hlist⟩ : ∃ c₀ cs, (s.cutOffAll d).trail.toList = c₀ :: cs :=
      List.exists_cons_of_ne_nil (by simp [Trail.toList])
    simp only [Scan.finish, Trail.toList_modifyFirst, hlist, List.modifyHead_cons, List.head?_cons,
      Option.some.injEq] at hc hnegated
    subst hc
    rw [hnegated] at hdot hglobstar ⊢
    split
    · simp [Component.guard]
    · rename_i hunguarded
      rw [if_neg hunguarded] at hdot hglobstar
      simp [hdot, hglobstar] at hunguarded

/-- Whatever the dialect, the components that a rendering marks as begun with a dot are those that begin
with a dot that is not escaped, and those in which such a dot stands right behind an escaped separator.
Unless the glob is negated, a first component that is neither of these begins with the guard, or it holds
a globstar. -/
theorem dots_components {d : Dialect} {pattern : String} {r : Rendering}
    (h : ofPattern d pattern = .ok r) :
    List.Forall₂ (fun c ts => c.dot = true ↔ Token.HasDot true ts) r.components
        (Token.components (tokensOf pattern)) ∧
      ∃ c cs ts tss, r.components = c :: cs ∧ Token.components (tokensOf pattern) = ts :: tss ∧
        (r.negated = false → ¬ Token.HasDot true ts → c.globstar = false →
          (Fragment.dotGuard d.dot).toList <+: c.text.toList) := by
  have hfollows := Outline.ofPattern_follows d pattern
  cases ho : Outline.ofPattern pattern with
  | error e =>
    rw [ho] at hfollows
    rw [show ofPattern d pattern = .error e from hfollows] at h
    cases h
  | ok p =>
    rw [ho] at hfollows
    obtain ⟨r', hr', hrenders, -⟩ := hfollows
    obtain rfl : r' = r := Except.ok.inj (hr'.symm.trans h)
    have hdots : r'.components.map (·.dot) = ((tokensOf pattern).foldl DotMarks.read {}).toList := by
      rw [← Outline.dots_ofPattern ho, ← hrenders.components, List.map_map]
      rfl
    obtain ⟨b, bs, ts, tss, hlist, hcomponents, hhead, htail⟩ :=
      DotMarks.toList_foldl {} (tokensOf pattern)
    rw [hlist, List.nil_append] at hdots
    obtain ⟨c, cs, hcs, rfl, rfl⟩ := List.map_eq_cons_iff.1 hdots
    have hmarked : c.dot = true ↔ Token.HasDot true ts := by simpa using hhead
    refine ⟨?_, c, cs, ts, tss, hcs, hcomponents, fun hnegated hdot hglobstar => ?_⟩
    · rw [hcs, hcomponents]
      exact .cons hmarked (List.forall₂_map_left_iff.1 htail)
    · have hunmarked : c.dot = false := by
        rw [← Bool.not_eq_true, hmarked]
        exact hdot
      exact guard_begins_head h (by rw [hcs, List.head?_cons]) hnegated hunmarked hglobstar

theorem dots_components_nested : ∃ r, ofPattern {} "x(/.a)/[/.]\\/.b/c.\\." = .ok r ∧
    (List.Forall₂ (fun c ts => c.dot = true ↔ Token.HasDot true ts) r.components
        (Token.components (tokensOf "x(/.a)/[/.]\\/.b/c.\\.")) ∧
      ∃ c cs ts tss, r.components = c :: cs ∧
        Token.components (tokensOf "x(/.a)/[/.]\\/.b/c.\\.") = ts :: tss ∧
        (r.negated = false → ¬ Token.HasDot true ts → c.globstar = false →
          (Fragment.dotGuard false).toList <+: c.text.toList)) ∧
    r.components.map (·.dot) = [false, true, true, false] := by
  obtain ⟨r, hr, hdots⟩ : ∃ r, ofPattern {} "x(/.a)/[/.]\\/.b/c.\\." = .ok r ∧
      decide (r.components.map (·.dot) = [false, true, true, false]) = true :=
    exists_ok_of_any (by decide +kernel)
  exact ⟨r, hr, dots_components hr, of_decide_eq_true hdots⟩

/-- A first component that begins with a star has no guard if it holds a dot behind an escaped
separator. So a wildcard there accepts a component that begins with a dot. -/
theorem unguarded_behind_escaped_separator :
    (tokensOf "*\\/.b" = [.plain '*', .escaped '/', .plain '.', .plain 'b']) ∧
    (∃ r, ofPattern {} "*\\/.b" = .ok r ∧ r.negated = false ∧ r.components =
      [{ text := "[^/]*?\\/\\.b", dot := true, globstar := false }]) ∧
    ∃ m, Matcher.ofPattern {} "*\\/.b" = .ok m ∧ m.accepts ".x/.b" = true := by
  refine ⟨by decide +kernel, ?_, exists_ok_of_any (by decide +kernel)⟩
  obtain ⟨r, hr, h⟩ : ∃ r, ofPattern {} "*\\/.b" = .ok r ∧ decide (r.negated = false ∧ r.components =
      [{ text := "[^/]*?\\/\\.b", dot := true, globstar := false }]) = true :=
    exists_ok_of_any (by decide +kernel)
  exact ⟨r, hr, of_decide_eq_true h⟩

end Rendering

end PathGlob
