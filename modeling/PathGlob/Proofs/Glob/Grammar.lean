/-
Which globs are accepted. A scanner that knows no more than what is open, and how far an open bracket
expression has come, refuses a glob at the first closing character that finds nothing open. Whatever
the dialect, a glob is rendered just if the scanner accepts it, and what the rendering reports as
unclosed is what the scanner ends in.
-/
import Mathlib.Data.List.TakeWhile
import PathGlob.Proofs.Glob.Tracing

namespace PathGlob

/-! ## Named classes -/

namespace PosixClass

/-- The names of the classes. -/
def names : List String :=
  ["alnum", "alpha", "ascii", "blank", "cntrl", "digit", "graph", "lower", "print", "punct",
    "space", "upper", "word", "xdigit"]

theorem ranges?_isSome : ∀ name ∈ names, (ranges? name).isSome = true := by decide

theorem isLower_of_mem : ∀ name ∈ names, name.toList.all (fun x => 'a' ≤ x ∧ x ≤ 'z') = true := by
  decide

theorem mem_names {name ranges : String} (h : ranges? name = some ranges) : name ∈ names := by
  unfold ranges? at h
  split at h
  case h_15 => cases h
  all_goals decide

/-- The text of a named class behind its opening bracket. -/
def tail (name : String) : List Char := ':' :: name.toList ++ [':', ']']

/-- What is behind a named class whose opening bracket has just been read, if one is there. -/
def behind? (cs : List Char) : Option (List Char) :=
  (names.find? fun name => (tail name).isPrefixOf cs).map fun name => cs.drop (tail name).length

theorem length_text (n : Named) : n.text.length.pred = (tail n.name).length := by
  have hopen : "[:".length = 2 := rfl
  have hclose : ":]".length = 2 := rfl
  simp only [Named.text, tail, String.length_append, hopen, hclose, List.length_append,
    List.length_cons, List.length_nil, String.length_toList, Nat.pred_eq_sub_one]
  omega

theorem at?_tail {name : String} (h : name ∈ names) (b rest : List Char) :
    ∃ n, at? ⟨b, tail name ++ rest⟩ = some n ∧ n.name = name := by
  obtain ⟨ranges, hranges⟩ := Option.isSome_iff_exists.1 (ranges?_isSome name h)
  have hname : (name.toList ++ (':' :: ']' :: rest)).takeWhile (fun x => 'a' ≤ x ∧ x ≤ 'z') =
      name.toList := by
    rw [List.takeWhile_append_of_pos (List.all_eq_true.1 (isLower_of_mem name h)),
      List.takeWhile_cons_of_neg (by decide), List.append_nil]
  refine ⟨⟨name, ranges⟩, ?_, rfl⟩
  unfold at? tail
  simp only [List.cons_append, List.append_assoc, List.nil_append, hname, List.drop_left,
    String.ofList_toList, hranges, Option.map_some]

theorem begins_tail {c : Cursor} {n : Named} (h : at? c = some n) : tail n.name <+: c.rest := by
  unfold at? at h
  split at h
  · rename_i cs hcs
    simp only at h
    split at h
    · rename_i rest hrest
      obtain ⟨ranges, -, rfl⟩ := Option.map_eq_some_iff.1 h
      refine ⟨rest, ?_⟩
      have hsplit := List.prefix_iff_eq_append.1
        (List.takeWhile_prefix (l := cs) fun x => decide ('a' ≤ x ∧ x ≤ 'z'))
      rw [hrest] at hsplit
      rw [hcs, tail, String.toList_ofList]
      simpa using hsplit
    · cases h
  · cases h

/-- A cursor finds a named class where a name, of the fourteen, stands between colons. -/
theorem behind?_eq (c : Cursor) :
    behind? c.rest = (at? c).map fun n => (c.skip n.text.length.pred).rest := by
  unfold behind?
  cases hfind : names.find? fun name => (tail name).isPrefixOf c.rest with
  | some name =>
    have hprefix : (tail name).isPrefixOf c.rest = true :=
      List.find?_some (p := fun name => (tail name).isPrefixOf c.rest) hfind
    obtain ⟨rest, hrest⟩ := List.isPrefixOf_iff_prefix.1 hprefix
    obtain ⟨n, hn, rfl⟩ := at?_tail (List.mem_of_find?_eq_some hfind) c.behind rest
    rw [hrest] at hn
    rw [hn, Option.map_some, Option.map_some, length_text]
    rfl
  | none =>
    cases hat : at? c with
    | none => rfl
    | some n =>
      have hnone := List.find?_eq_none.1 hfind n.name (mem_names (at?_isNamed hat))
      exact absurd (List.isPrefixOf_iff_prefix.2 (begins_tail hat)) hnone

end PosixClass

/-! ## The scanner -/

/-- How far a bracket expression has come. -/
inductive Filling where
  | empty
  /-- Nothing but a sign of negation. -/
  | signed
  | filled
  deriving DecidableEq, Repr

/-- What is open at a place in a glob. -/
inductive Scope where
  | outside
  | inside (k : Delimiter)
  | bracket (f : Filling)
  deriving DecidableEq, Repr

namespace Scope

/-- The characters that opened what is open. -/
def openers : Scope → List Char
  | outside => []
  | inside k => [k.opener]
  | bracket _ => ['[']

/-- Reads a character: what is open behind it, and what is left of the characters that follow. -/
def read (p : Scope) (c : Char) (cs : List Char) : Except MissingOpening (Scope × List Char) :=
  match p with
  | outside =>
    if c = '\\' then .ok (outside, cs.tail)
    else
      match Delimiter.ofOpener? c, Delimiter.ofCloser? c with
      | some .bracket, _ => .ok (bracket .empty, cs)
      | some k, _ => .ok (inside k, cs)
      | none, some k => .error ⟨k.opener⟩
      | none, none => .ok (outside, cs)
  | inside k =>
    if c = '\\' then .ok (inside k, cs.tail)
    else if Delimiter.ofCloser? c = some k then .ok (outside, cs)
    else .ok (inside k, cs)
  | bracket f =>
    if f = .empty ∧ (c = '!' ∨ c = '^') then .ok (bracket .signed, cs)
    else if f = .filled ∧ c = ']' then .ok (outside, cs)
    else if c = '\\' then .ok (bracket .filled, cs.tail)
    else if c = '[' then .ok (bracket .filled, (PosixClass.behind? cs).getD cs)
    else .ok (bracket .filled, cs)

theorem suffix_read {p q : Scope} {c : Char} {cs rest : List Char}
    (h : p.read c cs = .ok (q, rest)) : rest <:+ cs := by
  have hbehind : (PosixClass.behind? cs).getD cs <:+ cs := by
    unfold PosixClass.behind?
    cases PosixClass.names.find? _ with
    | none => exact List.suffix_rfl
    | some name => exact List.drop_suffix ..
  unfold read at h
  (repeat' split at h) <;> cases h <;>
    first | exact List.suffix_rfl | exact List.tail_suffix cs | exact hbehind

theorem length_read_le {p q : Scope} {c : Char} {cs rest : List Char}
    (h : p.read c cs = .ok (q, rest)) : rest.length ≤ cs.length := (suffix_read h).length_le

/-- Reads a glob to its end. -/
def run (p : Scope) (glob : List Char) : Except MissingOpening Scope :=
  match glob with
  | [] => .ok p
  | c :: cs =>
    match _h : p.read c cs with
    | .error e => .error e
    | .ok (q, rest) => q.run rest
termination_by glob.length
decreasing_by exact Nat.lt_succ_of_le (length_read_le _h)

/-- Whether a bracket expression is open. -/
def isBracket : Scope → Bool
  | bracket _ => true
  | _ => false

variable {p q : Scope} {c : Char} {cs rest : List Char}

theorem run_nil : run p [] = .ok p := by
  rw [run]

theorem run_of_ok (h : p.read c cs = .ok (q, rest)) : run p (c :: cs) = run q rest := by
  rw [run]
  split
  · rename_i he
    rw [h] at he
    cases he
  · rename_i ho
    rw [h] at ho
    cases ho
    rfl

theorem run_of_error {e : MissingOpening} (h : p.read c cs = .error e) :
    run p (c :: cs) = .error e := by
  rw [run]
  split
  · rename_i he
    rw [h] at he
    cases he
    rfl
  · rename_i ho
    rw [h] at ho
    cases ho

theorem read_escape (hp : p.isBracket = false) : p.read '\\' cs = .ok (p, cs.tail) := by
  cases p <;> first | rfl | cases hp

/-- A character that is no delimiter changes nothing outside bracket expressions. -/
theorem read_plain (hp : p.isBracket = false) (hopen : Delimiter.ofOpener? c = none)
    (hclose : Delimiter.ofCloser? c = none) (hc : c ≠ '\\') : p.read c cs = .ok (p, cs) := by
  cases p with
  | outside => simp only [read, if_neg hc, hopen, hclose]
  | inside k => simp [read, if_neg hc, hclose]
  | bracket f => cases hp

/-- An opening character counts where nothing is open. -/
theorem read_opener (hp : p.isBracket = false) {k : Delimiter} (hopen : Delimiter.ofOpener? c = some k) :
    p.read c cs = .ok (if p = outside then (if k = .bracket then bracket .empty else inside k) else p,
      cs) := by
  have hc : c ≠ '\\' := by
    rintro rfl
    cases hopen
  have hclose : Delimiter.ofCloser? c = none := by
    unfold Delimiter.ofOpener? at hopen
    split at hopen <;> first | rfl | cases hopen
  cases p with
  | outside => cases k <;> simp [read, if_neg hc, hopen]
  | inside l => simp [read, if_neg hc, hclose]
  | bracket f => cases hp

/-- A closing character counts where its partner is open, and is missing one where nothing is. -/
theorem read_closer (hp : p.isBracket = false) {k : Delimiter} (hclose : Delimiter.ofCloser? c = some k) :
    p.read c cs = if p = outside then .error ⟨k.opener⟩
      else .ok (if p = inside k then outside else p, cs) := by
  have hc : c ≠ '\\' := by
    rintro rfl
    cases hclose
  have hopen : Delimiter.ofOpener? c = none := by
    unfold Delimiter.ofCloser? at hclose
    split at hclose <;> first | rfl | cases hclose
  cases p with
  | outside => simp [read, if_neg hc, hopen, hclose]
  | inside l =>
    by_cases hk : k = l
    · simp [read, if_neg hc, hclose, hk]
    · simp [read, if_neg hc, hclose, hk, Ne.symm hk]
  | bracket f => cases hp

end Scope

/-! ## The scopes of outlines -/

/-- How far a bracket expression has come. -/
def Bracket.filling (b : Bracket) : Filling :=
  if b.members.isEmpty then (if b.sign.isNone then .empty else .signed) else .filled

@[simp] theorem Bracket.filling_add (b : Bracket) (m : Member) : (b.add m).filling = .filled := by
  simp [filling, add]

/-- What is open, as the scanner knows it. -/
def Opened.scope : Opened → Scope
  | nothing => .outside
  | group .. => .inside .paren
  | pair k => .inside k
  | bracket b => .bracket b.filling

theorem Opened.openers_scope (o : Opened) : o.scope.openers = o.openers := by
  cases o <;> rfl

@[simp] theorem Opened.isBracket_scope (o : Opened) : o.scope.isBracket = o.isBracket := by
  cases o <;> rfl

namespace Outline

@[simp] theorem scope_put (o : Outline) (g : Glyph) :
    (o.put g).opened.scope = o.opened.scope := by
  unfold put
  split
  · rename_i ho
    rw [ho]
    rfl
  · rfl

@[simp] theorem scope_settle (o : Outline) (b : Bool) :
    (o.settle b).opened.scope = o.opened.scope := rfl

@[simp] theorem scope_literal (o : Outline) (c : Char) :
    (o.literal c).opened.scope = o.opened.scope := scope_put ..

@[simp] theorem scope_mark (o : Outline) (f : Component → Component) :
    (o.mark f).opened.scope = o.opened.scope := rfl

@[simp] theorem scope_separator (o : Outline) : o.separator.opened.scope = o.opened.scope :=
  scope_put ..

@[simp] theorem scope_literalDot (o : Outline) : o.literalDot.opened.scope = o.opened.scope := by
  unfold literalDot; split <;> simp

@[simp] theorem scope_globstar (o : Outline) : o.globstar.opened.scope = o.opened.scope :=
  scope_put ..

@[simp] theorem scope_qmark (o : Outline) : o.qmark.opened.scope = o.opened.scope := by
  unfold qmark; split <;> simp

@[simp] theorem scope_colon (o : Outline) : o.colon.opened.scope = o.opened.scope := by
  unfold colon; split <;> simp

@[simp] theorem scope_star (o : Outline) : o.star.opened.scope = o.opened.scope := by
  unfold star; split <;> simp

@[simp] theorem scope_escape (o : Outline) : o.escape.opened.scope = o.opened.scope := by
  unfold escape; split <;> simp

theorem rest_escape (o : Outline) : o.escape.cursor.rest = o.cursor.rest.tail := by
  unfold escape Cursor.next?
  cases h : o.cursor.rest <;> simp [h]

theorem scope_openAt {o : Outline} (hb : o.opened.isBracket = false) (k : Delimiter) (c : Char) :
    (o.openAt k c).opened.scope =
      if o.opened.scope = .outside then (if k = .bracket then .bracket .empty else .inside k)
      else o.opened.scope := by
  unfold openAt
  cases ho : o.opened with
  | nothing =>
    cases k with
    | paren => rfl
    | bracket => rfl
    | angle | brace | quote => exact scope_literal ..
  | group g body =>
    rw [if_neg nofun]
    exact (scope_literal o c).trans (congrArg Opened.scope ho)
  | pair l =>
    rw [if_neg nofun]
    exact (scope_literal o c).trans (congrArg Opened.scope ho)
  | bracket b =>
    rw [ho] at hb
    cases hb

/-- Closing where a delimiter is open. -/
theorem closeAt_eq {o : Outline} (hb : o.opened.isBracket = false) (k : Delimiter) (c : Char) :
    match o.closeAt k c with
    | .error e => o.opened.scope = .outside ∧ e = ⟨k.opener⟩
    | .ok o' => o.opened.scope ≠ .outside ∧
      o'.opened.scope = if o.opened.scope = .inside k then .outside else o.opened.scope := by
  unfold closeAt
  cases ho : o.opened with
  | nothing => exact ⟨rfl, rfl⟩
  | group g body =>
    refine ⟨nofun, ?_⟩
    by_cases hk : k = .paren
    · subst hk
      rfl
    · have hne : Scope.inside .paren ≠ .inside k := by
        rintro ⟨⟩
        exact hk rfl
      rw [if_neg hk, Opened.scope, if_neg hne, scope_literal, ho]
      rfl
  | pair l =>
    refine ⟨nofun, ?_⟩
    by_cases hk : k = l
    · subst hk
      rw [if_pos rfl, Opened.scope, if_pos rfl]
      exact scope_literal ..
    · have hne : Scope.inside l ≠ .inside k := by
        rintro ⟨⟩
        exact hk rfl
      rw [if_neg hk, Opened.scope, if_neg hne, scope_literal, ho]
      rfl
  | bracket b =>
    rw [ho] at hb
    cases hb

/-! ## Scanner and outline side by side -/

/-- What the scanner has left to read where an outline is: the same, save that the outline may have
passed over stars. -/
def Leaves (o : Outline) (cs : List Char) : Prop :=
  cs = o.cursor.rest ∨
    o.opened.isBracket = false ∧ ∃ n, cs = List.replicate n '*' ++ o.cursor.rest

theorem Leaves.cases {o : Outline} {cs : List Char} (h : o.Leaves cs) : cs = o.cursor.rest ∨
    o.opened.isBracket = false ∧ ∃ cs', cs = '*' :: cs' ∧ o.Leaves cs' := by
  rcases h with rfl | ⟨hb, n, rfl⟩
  · exact .inl rfl
  · cases n with
    | zero => exact .inl rfl
    | succ n => exact .inr ⟨hb, _, rfl, .inr ⟨hb, n, rfl⟩⟩

theorem read_stepBracket (o : Outline) (b : Bracket) (c : Char) :
    (Scope.bracket b.filling).read c o.cursor.rest =
      .ok ((o.stepBracket b c).opened.scope, (o.stepBracket b c).cursor.rest) := by
  -- the outline asks for signs and members, the scanner for the filling they come to
  have hfresh : b.isFresh = true ↔ b.filling = .empty := by
    rcases b with ⟨_ | s, _ | ⟨m, ms⟩⟩ <;> simp [Bracket.isFresh, Bracket.filling]
  have hfilled : b.members ≠ [] ↔ b.filling = .filled := by
    rcases b with ⟨_ | s, _ | ⟨m, ms⟩⟩ <;> simp [Bracket.filling]
  have hmember (o : Outline) (m : Member) : (o.member b m).opened.scope = .bracket .filled :=
    congrArg Scope.bracket (b.filling_add m)
  by_cases hsign : b.isFresh = true ∧ (c = '!' ∨ c = '^')
  · have hread : (Scope.bracket b.filling).read c o.cursor.rest =
        .ok (.bracket .signed, o.cursor.rest) := if_pos ⟨hfresh.1 hsign.1, hsign.2⟩
    have hstep : o.stepBracket b c = { o with opened := .bracket { b with sign := some c } } :=
      if_pos (by simpa using hsign)
    have hsigned : ({ b with sign := some c } : Bracket).filling = .signed := by
      obtain ⟨s, ms⟩ := b
      have hempty : ms.isEmpty = true := by
        have h := hsign.1
        simp only [Bracket.isFresh, Bool.and_eq_true] at h
        exact h.2
      simp [Bracket.filling, hempty]
    rw [hread, hstep]
    exact congrArg (fun f => Except.ok (Scope.bracket f, o.cursor.rest)) hsigned.symm
  · have hunsigned : ¬ (b.filling = .empty ∧ (c = '!' ∨ c = '^')) := by rwa [← hfresh]
    have hread : (Scope.bracket b.filling).read c o.cursor.rest = _ := if_neg hunsigned
    have hstep : o.stepBracket b c = _ := if_neg (by simpa using hsign)
    rw [hread, hstep]
    by_cases hclose : c = ']'
    · rw [if_pos hclose]
      by_cases hempty : b.members = []
      · have hunfilled : ¬ (b.filling = .filled ∧ c = ']') := fun h => hfilled.2 h.1 hempty
        rw [dif_pos hempty, if_neg hunfilled, if_neg (by rw [hclose]; decide),
          if_neg (by rw [hclose]; decide), hmember]
        rfl
      · rw [dif_neg hempty, if_pos ⟨hfilled.1 hempty, hclose⟩]
        rfl
    · rw [if_neg hclose, if_neg fun h => hclose h.2]
      by_cases hescape : c = '\\'
      · rw [if_pos hescape, if_pos hescape]
        unfold Cursor.next?
        cases hrest : o.cursor.rest <;> simp [hmember, hrest]
      · rw [if_neg hescape, if_neg hescape]
        by_cases hnamed : c = '['
        · have hbehind := PosixClass.behind?_eq o.cursor
          rw [if_pos hnamed, if_pos hnamed]
          split <;> rename_i hat <;> rw [hat] at hbehind <;> rw [hbehind, hmember] <;> rfl
        · rw [if_neg hnamed, if_neg hnamed, hmember]
          rfl

theorem parts_stepBracket (o : Outline) (b : Bracket) (c : Char) :
    (o.stepBracket b c).parts = o.parts := by
  unfold stepBracket
  (repeat' split) <;> rfl

theorem unpaired_stepBracket (o : Outline) (b : Bracket) (c : Char) (k : Delimiter) :
    (o.stepBracket b c).opened ≠ .pair k := by
  unfold stepBracket
  intro h
  (repeat' split at h) <;> cases h

theorem leaves_star (o : Outline) (hb : o.opened.isBracket = false) :
    o.star.Leaves o.cursor.rest := by
  unfold star
  split
  · refine .inr ⟨?_, (o.cursor.rest.takeWhile (· = '*')).length, ?_⟩
    · have hscope := congrArg Scope.isBracket o.scope_globstar
      rwa [Opened.isBracket_scope, Opened.isBracket_scope, hb] at hscope
    · have hstars : ∀ c ∈ o.cursor.rest.takeWhile (· = '*'), c = '*' := by
        intro c hc
        exact of_decide_eq_true (List.mem_takeWhile_imp (p := fun c => decide (c = '*')) hc)
      have hsplit := List.prefix_iff_eq_append.1
        (List.takeWhile_prefix (l := o.cursor.rest) fun c => decide (c = '*'))
      rw [List.eq_replicate_of_mem hstars, List.length_replicate] at hsplit
      simpa [globstar, Cursor.skipRun, Cursor.skip] using hsplit.symm
  · exact .inl (by rw [cursor_put])

/-- A character that is no delimiter and announces nothing. -/
theorem read_plain {o : Outline} (hb : o.opened.isBracket = false) {c : Char}
    (hopen : Delimiter.ofOpener? c = none) (hclose : Delimiter.ofCloser? c = none) :
    ∃ cs, o.opened.scope.read c o.cursor.rest = .ok ((o.plain c).opened.scope, cs) ∧
      (o.plain c).Leaves cs := by
  have hp : o.opened.scope.isBracket = false := by rw [Opened.isBracket_scope, hb]
  -- a backslash takes the next character along, and a star those that follow it
  by_cases hescape : c = '\\'
  · subst hescape
    have hscope : (o.plain '\\').opened.scope = o.opened.scope := scope_escape o.settle
    rw [hscope]
    exact ⟨_, Scope.read_escape hp, .inl (rest_escape o.settle).symm⟩
  · have hscope : (o.plain c).opened.scope = o.opened.scope := by
      unfold plain
      split
      case h_1 => split <;> simp
      case h_5 => split <;> simp
      all_goals simp
    have hleaves : (o.plain c).Leaves o.cursor.rest := by
      unfold plain
      split
      case h_2 => exact absurd rfl hescape
      case h_1 => exact .inl (by split <;> simp)
      case h_5 => exact .inl (by split <;> simp)
      case h_6 => exact leaves_star o.settle hb
      all_goals exact .inl (by simp)
    rw [hscope]
    exact ⟨_, Scope.read_plain hp hopen hclose hescape, hleaves⟩

/-- A step moves the scanner and the outline to the same scope, or both refuse the character. -/
theorem read_step (o : Outline) (c : Char) :
    match o.step c with
    | .error e => o.opened.scope.read c o.cursor.rest = .error e
    | .ok o' => ∃ cs, o.opened.scope.read c o.cursor.rest = .ok (o'.opened.scope, cs) ∧
      o'.Leaves cs := by
  cases hb : o.opened.isBracket with
  | true =>
    obtain ⟨b, ho⟩ : ∃ b, o.opened = .bracket b := by
      cases ho : o.opened with
      | bracket b => exact ⟨b, rfl⟩
      | _ => rw [ho] at hb; cases hb
    rw [step_bracket ho, ho]
    exact ⟨_, read_stepBracket o b c, .inl rfl⟩
  | false =>
    have hp : o.opened.scope.isBracket = false := by rw [Opened.isBracket_scope, hb]
    rw [step_of_not_bracket o hb]
    cases ha : o.announced? c with
    | some g =>
      have hsigil : Delimiter.ofOpener? c = none ∧ Delimiter.ofCloser? c = none ∧ c ≠ '\\' := by
        unfold announced? at ha
        split at ha
        · unfold ExtGlob.ofSigil? at ha
          split at ha <;> first | decide | cases ha
        · cases ha
      exact ⟨_, Scope.read_plain hp hsigil.1 hsigil.2.1 hsigil.2.2, .inl rfl⟩
    | none =>
      cases hopen : Delimiter.ofOpener? c with
      | some k =>
        have hread : o.opened.scope.read c o.cursor.rest = _ := Scope.read_opener hp hopen
        have hscope := scope_openAt (o := o.settle) hb k c
        rw [scope_settle] at hscope
        rw [← hscope] at hread
        exact ⟨_, hread, .inl (by simp)⟩
      | none =>
        cases hclose : Delimiter.ofCloser? c with
        | some k =>
          have hread : o.opened.scope.read c o.cursor.rest = _ := Scope.read_closer hp hclose
          have hcloseAt := closeAt_eq (o := o.settle) hb k c
          rw [scope_settle] at hcloseAt
          simp only
          cases hc : o.settle.closeAt k c with
          | error e =>
            rw [hc] at hcloseAt
            obtain ⟨ho, rfl⟩ := hcloseAt
            rw [hread, if_pos ho]
          | ok o' =>
            rw [hc] at hcloseAt
            obtain ⟨ho, ho'⟩ := hcloseAt
            rw [if_neg ho, ← ho'] at hread
            exact ⟨_, hread, .inl (by rw [cursor_closeAt hc]; rfl)⟩
        | none => exact read_plain hb hopen hclose

/-- What is left behind a step is the end of what was left before. -/
theorem suffix_step {o o' : Outline} {c : Char} (h : o.step c = .ok o') :
    o'.cursor.rest <:+ o.cursor.rest := by
  have hread := read_step o c
  rw [h] at hread
  obtain ⟨cs, hread, hleaves⟩ := hread
  refine List.IsSuffix.trans ?_ (Scope.suffix_read hread)
  rcases hleaves with rfl | ⟨-, n, rfl⟩
  · exact List.suffix_rfl
  · exact List.suffix_append ..

/-- What is shown of a run by its steps: at the end of the text, at a star that the outline has
passed over, at a character that both refuse and at one that both read. -/
theorem Leaves.induct {P : ∀ o cs, Leaves o cs → Prop}
    (done : ∀ o h, o.cursor.rest = [] → P o [] h)
    (passed : ∀ o cs h h', o.opened.isBracket = false → P o cs h → P o ('*' :: cs) h')
    (refused : ∀ o b c rest e h, o.cursor = ⟨b, c :: rest⟩ →
      step { o with cursor := ⟨c :: b, rest⟩ } c = .error e →
      o.opened.scope.read c rest = .error e → P o (c :: rest) h)
    (read : ∀ o b c rest o' cs h h', o.cursor = ⟨b, c :: rest⟩ →
      step { o with cursor := ⟨c :: b, rest⟩ } c = .ok o' →
      o.opened.scope.read c rest = .ok (o'.opened.scope, cs) → P o' cs h → P o (c :: rest) h')
    {o : Outline} {cs : List Char} (h : o.Leaves cs) : P o cs h := by
  -- every case but the last leaves the scanner less to read, and so does the last by `length_read_le`
  induction hn : cs.length using Nat.strongRecOn generalizing o cs with
  | _ n ih =>
    rcases h.cases with hcs | ⟨hb, cs, rfl, htail⟩
    · rcases ho : o.cursor with ⟨b, _ | ⟨c, rest⟩⟩ <;> rw [ho] at hcs <;> subst hcs
      · exact done o _ (by rw [ho])
      · have hstep := read_step { o with cursor := ⟨c :: b, rest⟩ } c
        simp only at hstep
        cases hs : step { o with cursor := ⟨c :: b, rest⟩ } c with
        | error e =>
          rw [hs] at hstep
          exact refused o b c rest e _ ho hs hstep
        | ok o' =>
          rw [hs] at hstep
          obtain ⟨cs, hread, hleaves⟩ := hstep
          refine read o b c rest o' cs hleaves _ ho hs hread (ih _ ?_ hleaves rfl)
          rw [← hn]
          exact Nat.lt_succ_of_le (Scope.length_read_le hread)
    · refine passed o cs htail _ hb (ih _ ?_ htail rfl)
      rw [← hn]
      exact Nat.lt_succ_self _

/-- The scanner ends in what the outline leaves open, and both refuse the same globs for the same
character. -/
theorem run_scope {o : Outline} {cs : List Char} (h : o.Leaves cs) :
    Scope.run o.opened.scope cs = o.run.map (·.opened.scope) := by
  induction h using Leaves.induct with
  | done o _ hrest =>
    rw [run_nil hrest, Scope.run_nil]
    rfl
  | passed o cs _ _ hb ih =>
    have hp : o.opened.scope.isBracket = false := by rw [Opened.isBracket_scope, hb]
    rw [Scope.run_of_ok (Scope.read_plain hp rfl rfl (by decide)), ih]
  | refused o b c rest e _ ho hs hread =>
    rw [run_cons ho, hs, Scope.run_of_error hread]
    rfl
  | read o b c rest o' cs _ _ ho hs hread ih =>
    rw [run_cons ho, hs, Scope.run_of_ok hread, ih]
    rfl

/-! ## The sign of negation -/

@[simp] theorem negated_put (o : Outline) (g : Glyph) : (o.put g).negated = o.negated := by
  unfold put; split <;> rfl

@[simp] theorem negated_literal (o : Outline) (c : Char) : (o.literal c).negated = o.negated :=
  negated_put ..

@[simp] theorem negated_stepBracket (o : Outline) (b : Bracket) (c : Char) :
    (o.stepBracket b c).negated = o.negated := by
  unfold stepBracket
  (repeat' split) <;> rfl

@[simp] theorem negated_openAt (o : Outline) (k : Delimiter) (c : Char) :
    (o.openAt k c).negated = o.negated := by
  unfold openAt
  split
  · cases k <;> simp
  · simp

theorem negated_closeAt {o o' : Outline} {k : Delimiter} {c : Char} (h : o.closeAt k c = .ok o') :
    o'.negated = o.negated := by
  unfold closeAt at h
  split at h <;> cases h
  · split <;> simp [closeGroup, mark]
  · split <;> simp
  · simp

/-- Only a `!` that is the first character is a sign of negation. -/
theorem negated_plain {o : Outline} {c : Char} (h : c = '!' → o.cursor.isFirst = false) :
    (o.plain c).negated = o.negated := by
  have hsettle (b : Bool) : (o.settle b).negated = o.negated := rfl
  unfold plain escape separator literalDot star globstar qmark colon mark
  (repeat' split) <;> simp_all

theorem negated_step {o o' : Outline} {c : Char} (h : c = '!' → o.cursor.isFirst = false)
    (hstep : o.step c = .ok o') : o'.negated = o.negated := by
  unfold step at hstep
  split at hstep
  · cases hstep
    exact negated_stepBracket ..
  · split at hstep
    · cases hstep
      rfl
    · split at hstep
      · cases hstep
        exact negated_openAt ..
      · split at hstep
        · exact (negated_closeAt hstep).trans rfl
        · cases hstep
          exact negated_plain h

/-- What has been read is never forgotten. -/
theorem begun_step {o o' : Outline} {c : Char} (h : o.cursor.behind ≠ [])
    (hstep : o.step c = .ok o') : o'.cursor.behind ≠ [] := by
  have hskip (n : Nat) : (o.cursor.skip n).behind ≠ [] := by simp [Cursor.skip, h]
  have hnext {e : Char} {cursor : Cursor} (hn : o.cursor.next? = some (e, cursor)) :
      cursor.behind ≠ [] := by
    unfold Cursor.next? at hn
    split at hn <;> cases hn
    exact List.cons_ne_nil _ _
  unfold step at hstep
  split at hstep
  · cases hstep
    unfold stepBracket
    (repeat' split) <;> first | exact h | exact hskip _ | exact hnext ‹_›
  · split at hstep
    · cases hstep
      exact h
    · split at hstep
      · cases hstep
        rw [cursor_openAt]
        exact h
      · split at hstep
        · rw [cursor_closeAt hstep]
          exact h
        · cases hstep
          unfold plain
          split
          case h_1 => split <;> simpa using h
          case h_2 =>
            unfold escape
            split
            · rename_i hn
              rw [cursor_put]
              exact hnext hn
            · rw [cursor_put]
              exact h
          case h_5 => split <;> simpa using h
          case h_6 =>
            unfold star
            split
            · simpa [globstar, Cursor.skipRun] using hskip _
            · rw [cursor_put]
              exact h
          all_goals simpa using h

theorem run_negated_eq {o o' : Outline} (h : o.cursor.behind ≠ []) (hrun : o.run = .ok o') :
    o'.negated = o.negated := by
  refine (run_preserves (P := fun u => u.cursor.behind ≠ [] ∧ u.negated = o.negated) ?_ ⟨h, rfl⟩
    hrun).1.2
  intro u b c rest u' ⟨hbehind, hnegated⟩ hu hs
  have hfirst : Cursor.isFirst ⟨c :: b, rest⟩ = false := by
    rw [hu] at hbehind
    simpa [Cursor.isFirst] using hbehind
  exact ⟨begun_step (List.cons_ne_nil _ _) hs, (negated_step (fun _ => hfirst) hs).trans hnegated⟩

/-- A glob is negated if it begins with a `!` that announces no group. -/
theorem negated_iff {cs : List Char} {o : Outline} (h : run { cursor := ⟨[], cs⟩ } = .ok o) :
    o.negated = true ↔ cs[0]? = some '!' ∧ cs[1]? ≠ some '(' := by
  rcases cs with _ | ⟨c, cs⟩
  · rw [run_nil rfl] at h
    cases h
    simp
  · rw [run_cons rfl] at h
    cases hs : step { cursor := ⟨[c], cs⟩ } c with
    | error e =>
      rw [hs] at h
      cases h
    | ok o₁ =>
      rw [hs] at h
      rw [run_negated_eq (begun_step (List.cons_ne_nil _ _) hs) h]
      -- a `!` before a parenthesis announces a group and is no sign of negation
      by_cases hc : c = '!'
      · subst hc
        have hstep : step { cursor := ⟨['!'], cs⟩ } '!' = .ok
            (if cs[0]? = some '(' then { cursor := ⟨['!'], cs⟩, announced := some .negate }
            else { cursor := ⟨['!'], cs⟩, negated := true }) := by
          unfold step announced? Cursor.nextIs Cursor.peek
          by_cases hnext : cs[0]? = some '('
          · simp [hnext, Opened.isNothing, ExtGlob.ofSigil?, settle]
          · simp [hnext]
            rfl
        rw [hstep] at hs
        cases hs
        by_cases hnext : cs[0]? = some '(' <;> simp [hnext]
      · rw [negated_step (fun h => absurd h hc) hs]
        simp [hc]

@[simp] theorem negated_finish (o : Outline) : o.finish.negated = o.negated := by
  unfold finish
  cases o.opened <;> rfl

end Outline

/-! ## The rendering -/

/-- Whatever the dialect, a glob is rendered just if the scanner accepts it, and otherwise it is
refused for the opening character that the scanner misses first. What is rendered reports what the
scanner ends in as unclosed, and it is negated if the glob, less a leading `./`, begins with a `!`
that no `(` follows. -/
theorem Rendering.ofPattern_accepts (d : Dialect) (pattern : String) :
    match Scope.run .outside (Cursor.relative pattern.toList) with
    | .error e => ofPattern d pattern = .error e
    | .ok scope => ∃ r, ofPattern d pattern = .ok r ∧ r.unclosed = scope.openers ∧
        (r.negated = true ↔ (Cursor.relative pattern.toList)[0]? = some '!' ∧
          (Cursor.relative pattern.toList)[1]? ≠ some '(') := by
  have hscan := Outline.run_scope (o := { cursor := .ofPattern pattern }) (.inl rfl)
  have hfollows := Outline.ofPattern_follows d pattern
  change Scope.run .outside (Cursor.relative pattern.toList) = _ at hscan
  unfold Outline.ofPattern at hfollows
  rw [hscan]
  cases ho : Outline.run { cursor := .ofPattern pattern } with
  | error e =>
    rw [ho] at hfollows
    exact hfollows
  | ok o =>
    rw [ho] at hfollows
    obtain ⟨r, hr, hrenders, hunclosed⟩ := hfollows
    refine ⟨r, hr, hunclosed.trans (Opened.openers_scope _).symm, ?_⟩
    rw [hrenders.negated, Outline.negated_finish]
    exact Outline.negated_iff ho

example : Scope.run .outside "[!]])".toList = .error ⟨'('⟩ := by decide +kernel

example : Scope.run .outside "(]\\)*[".toList = .ok (.inside .paren) := by decide +kernel

example : Scope.run .outside "a[[:digit:]".toList = .ok (.bracket .filled) := by decide +kernel

end PathGlob
