/-
A `+` behind a group or a bracket expression. Behind one that is no loop it repeats what that takes, as
often as the text behind it needs. Behind one that is a loop already it makes the loop possessive: words are
taken as long as one comes next, and nothing is given back to the text behind.
-/
import PathGlob.Proofs.Matcher.Bracketed
import PathGlob.Proofs.Matcher.Members
import PathGlob.Proofs.Regex.Munch

namespace PathGlob

open Regex
open scoped Computability

/-! ## Alternatives as they are written -/

theorem Regex.Level.body_of_alternatives {l : Level} {r : Regex} {rs : List Regex}
    (h : l.alternatives = r :: rs) : l.body = alts r rs := by
  unfold Level.alternatives at h
  unfold Level.body
  cases hfinished : l.finished.reverse with
  | nil =>
    rw [hfinished] at h
    cases h
    rfl
  | cons t ts =>
    rw [hfinished] at h
    cases h
    rfl

/-- A group of alternatives is read as these. -/
theorem Enclosed.bodyRegex_written (dot : Bool) {w : List Char} {ws : List (List Char)}
    (h : ∀ u ∈ w :: ws, '|' ∉ u) :
    bodyRegex dot ((['|'].intercalate (w :: ws)).map .ofBody) = written w ws := by
  have hchars (u : List Char) : ((u.map Glyph.char).flatMap (Glyph.regexes dot)).foldl append .empty =
      literals u := by
    rw [List.flatMap_map, show (fun c => Glyph.regexes dot (.char c)) = fun c => [Regex.char c] from rfl,
      ← List.map_eq_flatMap, List.foldl_map]
    rfl
  have htake := Part.foldlM_take?_branches dot
    (([Glyph.bar].intercalate (w.map .char :: ws.map (·.map .char))).map .glyph) { opening := .plain }
  rw [Part.foldlM_take?_glyphs, Part.branches?_alternatives dot (by simp)] at htake
  obtain ⟨l, hl, -, halts⟩ := htake
  cases hl
  rw [Glyph.map_ofBody h, bodyRegex, List.map_cons, Level.body_of_alternatives halts, written]
  congr 1
  · exact hchars w
  · rw [List.map_map, List.map_map]
    exact List.map_congr_left fun u _ => hchars u

/-! ## The sign behind a closing delimiter -/

namespace Outline

/-- A `+` behind something closed repeats it, unless it announces a group. -/
theorem run_plus {o : Outline} {b rest : List Char} (hplus : o.cursor = ⟨b, '+' :: rest⟩)
    (ho : o.opened = .nothing) (hclosed : o.closed.isSome = true) (hrest : rest.head? ≠ some '(') :
    run o = run (settle { o with cursor := ⟨'+' :: b, rest⟩ } true) := by
  have hnext : Cursor.nextIs ⟨'+' :: b, rest⟩ '(' = false := by
    rw [List.head?_eq_getElem?] at hrest
    exact decide_eq_false hrest
  have hstep : step { o with cursor := ⟨'+' :: b, rest⟩ } '+' =
      .ok (settle { o with cursor := ⟨'+' :: b, rest⟩ } true) := by
    rw [step_of_not_bracket _ (by simp only [ho]; rfl)]
    simp only [announced?, hnext, Bool.and_false, Bool.false_eq_true, if_false,
      show Delimiter.ofOpener? '+' = none from rfl, show Delimiter.ofCloser? '+' = none from rfl,
      plain, hclosed, if_true]
  rw [run_cons hplus, hstep]
  rfl

/-- The outline of a glob that repeats something before an ordinary text, if what is repeated is read as a
whole. -/
theorem ofPattern_repeated {inner post : List Char} {pattern : String} {e : Enclosed}
    (hpattern : pattern.toList = inner ++ '+' :: post) (hhead : inner.head? ≠ some '.')
    (hne : inner ≠ []) (hpost : ∀ c ∈ post, isOrdinary c = true)
    (hinner : ∀ b, ∃ o : Outline, run { cursor := ⟨b, inner ++ '+' :: post⟩ } = run o ∧
      o.cursor.rest = '+' :: post ∧ o.opened = .nothing ∧ o.closed = some e ∧ o.parts = [] ∧
      o.negated = false ∧ o.isGuarded = true) :
    ∃ o, ofPattern pattern = .ok (o, []) ∧ o.negated = false ∧ o.isGuarded = true ∧
      o.parts = .enclosed e true :: Part.chars post := by
  have hnext : post.head? ≠ some '(' := fun h => absurd (hpost '(' (List.mem_of_head? h)) (by decide)
  have hwhole : pattern.toList = [] ++ (inner ++ ['+'] ++ post) := by simpa using hpattern
  refine ofPattern_between (p := .enclosed e true) hwhole ?_ nofun hpost fun b => ?_
  · cases inner with
    | nil => exact absurd rfl hne
    | cons c cs => exact hhead
  · obtain ⟨o, hread, hrest, hopened, hclosed, hparts, hnegated, hguarded⟩ := hinner b
    refine ⟨settle { o with cursor := ⟨'+' :: o.cursor.behind, post⟩ } true, ?_, rfl, hopened, ?_, hnegated,
      hguarded⟩
    · rw [List.append_assoc]
      exact hread.trans (run_plus (by rw [← hrest]) hopened (by rw [hclosed]; rfl) hnext)
    · rw [settle_of_none rfl]
      simp only [settle, hclosed, hparts]
      rfl

end Outline

/-! ## What a loop takes that gives nothing back -/

/-- What a possessive loop over words takes of a text, nothing if it has to run and no word comes next. -/
def ExtGlob.taken? (g : ExtGlob) (ws : List (List Char)) (s : List Char) : Option (List Char) :=
  match g with
  | .zeroOrMore => some (munched ws s)
  | .oneOrMore => if munched ws s = [] then none else some (munched ws s)
  | .zeroOrOne => some ((first? ws s).getD [])
  | .exactlyOne | .negate => none

/-- A loop over alternatives that is made possessive takes what comes next of them. -/
theorem Enclosed.spans_atomic_groupOperand {g : ExtGlob} {w s : List Char} {ws : List (List Char)}
    {p : Regex × Quantified} {atEnd : Bool} {i j : Nat} (hg : g.isLoop = true)
    (hp : groupOperand? (some g) (written w ws) atEnd = some p) (hne : ∀ u ∈ w :: ws, u ≠ [])
    (hi : i ≤ s.length) : Spans false s.toArray (.atomic p.1) i j ↔
      ∃ u, g.taken? (w :: ws) (s.drop i) = some u ∧ j = i + u.length := by
  cases g with
  | negate => cases hg
  | exactlyOne => cases hg
  | zeroOrMore =>
    simp only [groupOperand?, Option.ite_none_right_eq_some, Option.some.injEq] at hp
    obtain ⟨-, rfl⟩ := hp
    simpa [ExtGlob.taken?] using spans_atomic_star hne hi
  | oneOrMore =>
    simp only [groupOperand?, Option.ite_none_right_eq_some, Option.some.injEq] at hp
    obtain ⟨-, rfl⟩ := hp
    simpa [ExtGlob.taken?, and_assoc] using spans_atomic_plus hne hi
  | zeroOrOne =>
    simp only [groupOperand?, Option.ite_none_right_eq_some, Option.some.injEq] at hp
    obtain ⟨-, rfl⟩ := hp
    simpa [ExtGlob.taken?] using spans_atomic_question hne hi

/-- A quantifier can follow a group that is not negated. -/
theorem Enclosed.quantified_groupOperand {g : Option ExtGlob} {r : Regex} {p : Regex × Quantified}
    {atEnd : Bool} (hg : g ≠ some .negate) (hr : r.isRepeatable = true)
    (hp : groupOperand? g r atEnd = some p) :
    p.1.isRepeatable = true ∧ p.2 = if g.any ExtGlob.isLoop then .greedy else .bare := by
  unfold groupOperand? at hp
  rw [if_pos hr, if_pos hr, if_pos hr] at hp
  split at hp
  case h_2 => cases hp; exact ⟨hr, rfl⟩
  case h_6 => exact absurd rfl hg
  all_goals
    cases hp
    exact ⟨rfl, rfl⟩

/-- Repeated words are one after the other. -/
theorem Regex.mem_mul_kstar {L : Language Char} {w : List Char} :
    w ∈ L * L∗ ↔ ∃ us : List (List Char), us ≠ [] ∧ (∀ u ∈ us, u ∈ L) ∧ us.flatten = w := by
  rw [Language.mem_mul]
  constructor
  · rintro ⟨u, hu, _, ⟨us, rfl, hus⟩, rfl⟩
    exact ⟨u :: us, List.cons_ne_nil u us, List.forall_mem_cons.2 ⟨hu, hus⟩, List.flatten_cons⟩
  · rintro ⟨us, hne, hus, rfl⟩
    obtain ⟨u, us, rfl⟩ := List.exists_cons_of_ne_nil hne
    obtain ⟨hu, hus⟩ := List.forall_mem_cons.1 hus
    exact ⟨u, hu, us.flatten, Language.join_mem_kstar hus, List.flatten_cons.symm⟩

/-- The same of strings. -/
theorem Regex.mem_mul_kstar_join {L : Language Char} {w : List Char} : w ∈ L * L∗ ↔
    ∃ us : List String, us ≠ [] ∧ (∀ u ∈ us, u.toList ∈ L) ∧ (String.join us).toList = w := by
  rw [mem_mul_kstar]
  simp only [String.toList_join, List.flatMap_def]
  constructor
  · rintro ⟨us, hne, hus, rfl⟩
    exact ⟨us.map String.ofList, by simpa using hne, by simpa using hus, by simp⟩
  · rintro ⟨us, hne, hus, rfl⟩
    exact ⟨us.map String.toList, by simpa using hne, by simpa using hus, rfl⟩

/-! ## What is repeated -/

/-- What a `+` can stand behind: a bracket expression of items or a group of alternatives. -/
inductive Repeatable where
  | bracket (items : List Bracket.Item)
  | group (g : Option ExtGlob) (alts : List String)

namespace Repeatable

/-- How it is written. -/
def text : Repeatable → String
  | bracket items => Bracket.source none items
  | group g alts => ExtGlob.pattern g "" alts ""

/-- The words that it takes. -/
def language : Repeatable → Language Char
  | bracket items => Bracket.language none items
  | group g alts => ExtGlob.language g {u | u ∈ alts.map String.toList}

/-- Whether it is a loop before a `+` repeats it. -/
def isLoop : Repeatable → Bool
  | bracket _ => false
  | group g _ => g.any ExtGlob.isLoop

/-- What it takes of a text if it is a loop that gives nothing back. -/
def taken? : Repeatable → List Char → Option (List Char)
  | bracket _, _ => none
  | group g alts, s => g.bind fun g => g.taken? (alts.map String.toList) s

theorem prefix_of_taken? {r : Repeatable} {s w : List Char} (h : r.taken? s = some w) : w <+: s := by
  cases r with
  | bracket items => cases h
  | group g alts =>
    obtain ⟨g, -, h⟩ := Option.bind_eq_some_iff.1 h
    cases g with
    | negate => cases h
    | exactlyOne => cases h
    | zeroOrMore =>
      cases h
      exact munched_prefix _ s
    | oneOrMore =>
      simp only [ExtGlob.taken?, Option.ite_none_left_eq_some, Option.some.injEq] at h
      obtain ⟨-, rfl⟩ := h
      exact munched_prefix _ s
    | zeroOrOne =>
      cases h
      cases hfirst : first? (alts.map String.toList) s with
      | none => exact List.nil_prefix
      | some u => exact (first?_mem hfirst).2

/-- Whether it is read as it is written: items without a sign at the start, a brace or a dot, or ordinary
alternatives of a group that is not negated. -/
def IsOrdinary : Repeatable → Prop
  | bracket items => items ≠ [] ∧ (∀ c ∈ (items.flatMap Bracket.Item.chars).head?, c ≠ '!' ∧ c ≠ '^') ∧
      '{' ∉ items.flatMap Bracket.Item.chars ∧ items.any (·.contains '.') = false
  | group g alts => g ≠ some .negate ∧ alts ≠ [] ∧
      ∀ a ∈ alts, a ≠ "" ∧ ∀ c ∈ a.toList, isOrdinary c = true

/-- An operand takes what something repeatable does, and a quantifier can follow it. -/
structure IsReadAs (r : Repeatable) (p : Regex × Quantified) : Prop where
  denotes : Denotes p.1 r.language
  isRepeatable : p.1.isRepeatable = true
  quantified : p.2 = if r.isLoop then .greedy else .bare
  atomic : r.isLoop = true → ∀ ⦃s : List Char⦄ ⦃i j : Nat⦄, i ≤ s.length →
    (Spans false s.toArray (.atomic p.1) i j ↔
      ∃ u, r.taken? (s.drop i) = some u ∧ j = i + u.length)

variable {r : Repeatable} {p : Regex × Quantified} {post : String}

theorem isReadAs_bracket {items : List Bracket.Item} {b : Bracket} {h : true = true → b.members ≠ []}
    (hp : Enclosed.operand? false (.bracket b true h) = some p)
    (hdenotes : Denotes p.1 (Bracket.language none items)) : IsReadAs (.bracket items) p := by
  rw [Enclosed.operand?] at hp
  obtain ⟨cs, -, rfl⟩ := Option.map_eq_some_iff.1 hp
  exact ⟨hdenotes, rfl, rfl, fun h => absurd h Bool.false_ne_true⟩

theorem isReadAs_group {g : Option ExtGlob} {alts : List String} {atEnd : Bool}
    (hr : IsOrdinary (.group g alts)) (hp : Enclosed.operand? false
      (.group g ((['|'].intercalate (alts.map String.toList)).map .ofBody) atEnd) = some p) :
    IsReadAs (.group g alts) p := by
  obtain ⟨hg, hne, halts⟩ := hr
  have hbars : ∀ u ∈ alts.map String.toList, '|' ∉ u := fun u hu hbar =>
    absurd (isOrdinary_alternatives halts u hu '|' hbar) (by decide)
  have hwords : ∀ u ∈ alts.map String.toList, u ≠ [] := by
    intro u hu
    obtain ⟨a, ha, rfl⟩ := List.mem_map.1 hu
    simpa using (halts a ha).1
  obtain ⟨-, -, hdenotes⟩ := Enclosed.exists_groupOperand g atEnd hne halts
  have hdenotes := Enclosed.denotes_groupOperand hdenotes hg hp
  obtain ⟨hrepeatable, hquantified⟩ :=
    Enclosed.quantified_groupOperand hg (Enclosed.isRepeatable_alternatives hne halts) hp
  refine ⟨hdenotes, hrepeatable, hquantified, fun hloop s i j hi => ?_⟩
  obtain ⟨a, as, rfl⟩ := List.exists_cons_of_ne_nil hne
  cases g with
  | none => cases hloop
  | some g =>
    rw [Enclosed.operand?, List.map_cons, Enclosed.bodyRegex_written false hbars] at hp
    exact Enclosed.spans_atomic_groupOperand hloop hp hwords hi

/-- It is read as a whole, whatever follows. -/
theorem exists_read (hr : r.IsOrdinary) (rest : List Char) : ∃ e p,
    Enclosed.operand? false e = some p ∧ r.IsReadAs p ∧ ∀ b, ∃ o : Outline,
      Outline.run { cursor := ⟨b, r.text.toList ++ rest⟩ } = Outline.run o ∧ o.cursor.rest = rest ∧
        o.opened = .nothing ∧ o.closed = some e ∧ o.parts = [] ∧ o.negated = false ∧
        o.isGuarded = true := by
  cases r with
  | bracket items =>
    obtain ⟨hne, hfirst, -, -⟩ := hr
    obtain ⟨p, hp, hdenotes⟩ := Bracket.operand?_ofItems hne false
    have hsign : ∀ c ∈ (none : Option Char), c = '!' ∨ c = '^' := nofun
    refine ⟨_, p, hp, isReadAs_bracket hp hdenotes, fun b => ?_⟩
    obtain ⟨b', hrun⟩ := Outline.run_bracket (o := { cursor := ⟨[], []⟩ }) (b := b) rest rfl rfl hsign
      hne hfirst
    exact ⟨_, hrun, rfl, rfl, rfl, rfl, rfl, rfl⟩
  | group g alts =>
    obtain ⟨-, hne, halts⟩ := id hr
    obtain ⟨p, hp, -⟩ := Enclosed.exists_groupOperand g rest.isEmpty hne halts
    refine ⟨_, p, hp, isReadAs_group hr hp, fun b => ?_⟩
    obtain ⟨b', hrun⟩ := Outline.run_group (o := { cursor := ⟨[], []⟩ }) (b := b) g rest rfl rfl rfl
      (Outline.isBody_ordinary (isOrdinary_intercalate halts))
    have htext : (group g alts).text.toList ++ rest = ExtGlob.sigils g ++
        '(' :: (['|'].intercalate (alts.map String.toList) ++ ')' :: rest) := by
      simp [text, ExtGlob.toList_pattern]
    rw [htext]
    refine ⟨_, hrun, rfl, rfl, rfl, rfl, rfl, ?_⟩
    unfold Outline.isGuarded Outline.closeGroup Outline.mark
    split <;> rfl

theorem brace_notMem_text (hr : r.IsOrdinary) : '{' ∉ r.text.toList := by
  cases r with
  | bracket items =>
    obtain ⟨-, -, hbrace, -⟩ := hr
    simpa [text, Bracket.source] using hbrace
  | group g alts =>
    obtain ⟨-, -, halts⟩ := hr
    exact ExtGlob.brace_notMem_pattern (by simp) (by simp) halts

/-- Its text begins with the sigil or the delimiter. -/
theorem exists_text_cons (r : Repeatable) : ∃ c cs, r.text.toList = c :: cs ∧ c ≠ '.' := by
  cases r with
  | bracket items => exact ⟨'[', _, String.toList_ofList, by decide⟩
  | group g alts =>
    rw [text, ExtGlob.toList_pattern]
    rcases g with _ | g
    · exact ⟨'(', _, rfl, by decide⟩
    · exact ⟨g.sigil, _, rfl, by cases g <;> decide⟩

/-- None of its words begins with a dot. -/
theorem head?_ne_dot (hr : r.IsOrdinary) {w : List Char} (hw : w ∈ r.language) :
    w.head? ≠ some '.' := by
  cases r with
  | bracket items =>
    obtain ⟨-, -, -, hdot⟩ := hr
    rintro h
    rcases hw with ⟨c, hc, rfl⟩ | rfl
    · cases h
      rw [hdot] at hc
      cases hc
    · rw [Bracket.source, String.toList_ofList] at h
      cases h
  | group g alts =>
    obtain ⟨hg, -, halts⟩ := hr
    intro h
    exact absurd (ExtGlob.forall_mem_language hg (isOrdinary_alternatives halts) hw '.'
      (List.mem_of_head? h)) (by decide)

/-- Nor does anything that is put together of them and ends in an ordinary text. -/
theorem head?_repeated_ne_dot (hr : r.IsOrdinary) (hpost : ∀ c ∈ post.toList, isOrdinary c = true)
    {w : List Char} (hw : w ∈ r.language * r.language∗) : (w ++ post.toList).head? ≠ some '.' := by
  obtain ⟨us, -, hus, rfl⟩ := mem_mul_kstar.1 hw
  intro h
  rw [List.head?_append, Option.or_eq_some_iff] at h
  rcases h with h | ⟨-, h⟩
  · rw [List.head?_flatten] at h
    obtain ⟨u, hu, hdot⟩ := List.exists_of_findSome?_eq_some h
    exact head?_ne_dot hr (hus u hu) hdot
  · exact absurd (hpost '.' (List.mem_of_head? h)) (by decide)

/-- What a `+` makes of it takes at the start of a text what is put together of its words; if it is a loop
already, what comes next of them. -/
theorem IsReadAs.exists_repeated (h : r.IsReadAs p) : ∃ q, Part.repeat? p = some q ∧
    ∀ w v : List Char, Spans false (w ++ v).toArray q.1 0 w.length ↔
      w ∈ r.language * r.language∗ ∧ (r.isLoop = true → r.taken? (w ++ v) = some w) := by
  have hquantified := h.quantified
  have hreaches (L : Language Char) (w v : List Char) : Reaches L (w ++ v) 0 w.length ↔ w ∈ L := by
    simpa using reaches_within (L := L) (u := []) (w := w) (v := v)
  cases hloop : r.isLoop with
  | false =>
    rw [hloop, if_neg Bool.false_ne_true] at hquantified
    refine ⟨(.loop p.1 1 none false, .greedy), by rw [Part.repeat?, hquantified, if_pos h.isRepeatable],
      fun w v => ?_⟩
    rw [h.denotes.loop_one (Nat.zero_le _), hreaches]
    exact (and_iff_left fun h => absurd h Bool.false_ne_true).symm
  | true =>
    rw [hloop, if_pos rfl] at hquantified
    refine ⟨(.atomic p.1, .possessive), by rw [Part.repeat?, hquantified], fun w v => ?_⟩
    have hatomic := h.atomic hloop (s := w ++ v) (j := w.length) (Nat.zero_le _)
    simp only [List.drop_zero, Nat.zero_add] at hatomic
    constructor
    · intro hw
      obtain ⟨u, hu, hlen⟩ := hatomic.1 hw
      have hword := (hreaches _ w v).1 ((h.denotes (Nat.zero_le _)).1 hw.of_atomic)
      -- what is taken and `w` begin the same text and are of one length
      obtain rfl : u = w := (List.prefix_of_prefix_length_le (prefix_of_taken? hu)
        (List.prefix_append w v) hlen.ge).eq_of_length hlen.symm
      exact ⟨mem_mul_kstar.2 ⟨[u], by simp, by simpa using hword, by simp⟩, fun _ => hu⟩
    · rintro ⟨-, hu⟩
      exact hatomic.2 ⟨w, hu rfl, rfl⟩

end Repeatable

/-! ## Whole globs -/

namespace Matcher

variable {r : Repeatable} {post : String}

/-- On its own it accepts its words. -/
theorem exists_of_repeatable (hr : r.IsOrdinary) (hlen : r.text.length ≤ 65536) :
    ∃ m, ofPattern {} r.text = .ok m ∧ ∀ u, m.accepts u = true ↔ u.toList ∈ r.language := by
  obtain ⟨e, p, hp, hread, hrun⟩ := Repeatable.exists_read hr []
  obtain ⟨c, cs, htext, hc⟩ := r.exists_text_cons
  have hwhole : r.text.toList = [] ++ (r.text.toList ++ []) := by simp
  obtain ⟨out, hout, hnegated, -, hparts⟩ :=
    Outline.ofPattern_framed hwhole (by simpa [htext] using hc) nofun nofun hrun
  obtain ⟨m, hm, haccepts⟩ := exists_of_framed (o := {}) hout hnegated hparts hp hlen
    ((Group.expansions_of_no_brace (Repeatable.brace_notMem_text hr)).trans rfl) rfl rfl rfl rfl
  refine ⟨m, hm, fun u => ?_⟩
  have hwords : (∃ w ∈ r.language, u.toList = [] ++ w ++ []) ↔ u.toList ∈ r.language := by simp
  rw [haccepts, hread.denotes.framed, Fragment.hides_false, List.getElem?_toArray,
    ← List.head?_eq_getElem?, hwords]
  exact and_iff_right_of_imp fun hu _ => Repeatable.head?_ne_dot hr hu

/-- With a `+` and an ordinary text behind it, it accepts what is put together of its words and ends in the
text; if it is a loop, what it takes must besides be what comes next of the words. -/
theorem exists_of_repeated (hr : r.IsOrdinary) (hpost : ∀ c ∈ post.toList, isOrdinary c = true)
    (hlen : (r.text ++ "+" ++ post).length ≤ 65536) :
    ∃ m, ofPattern {} (r.text ++ "+" ++ post) = .ok m ∧ ∀ s, m.accepts s = true ↔
      ∃ w ∈ r.language * r.language∗, s.toList = w ++ post.toList ∧
        (r.isLoop = true → r.taken? s.toList = some w) := by
  have hwhole : (r.text ++ "+" ++ post).toList = r.text.toList ++ '+' :: post.toList := by simp
  obtain ⟨e, p, hp, hread, hrun⟩ := Repeatable.exists_read hr ('+' :: post.toList)
  obtain ⟨q, hq, hspans⟩ := hread.exists_repeated
  obtain ⟨c, cs, htext, hc⟩ := r.exists_text_cons
  obtain ⟨out, hout, hnegated, -, hparts⟩ := Outline.ofPattern_repeated hwhole (by simpa [htext] using hc)
    (by simp [htext]) hpost hrun
  have hparts : out.parts = Part.chars [] ++ .enclosed e true :: Part.chars post.toList := hparts
  have hbrace : '{' ∉ (r.text ++ "+" ++ post).toList := by
    rw [hwhole, List.mem_append, List.mem_cons, not_or, not_or]
    exact ⟨Repeatable.brace_notMem_text hr, by decide, fun h => absurd (hpost '{' h) (by decide)⟩
  have hpart : Part.operands? false (.enclosed e true) = some [q] := by
    rw [Part.operands?, hp]
    simp [hq]
  obtain ⟨m, hm, haccepts⟩ := exists_of_between (o := {}) hout hnegated hparts rfl hpart hlen
    ((Group.expansions_of_no_brace hbrace).trans rfl) rfl rfl rfl rfl
  refine ⟨m, hm, fun s => ?_⟩
  -- nothing that is accepted begins with a dot, so that the guard takes nothing away
  rw [haccepts, spansAll_framed, Fragment.hides_false, List.getElem?_toArray,
    ← List.head?_eq_getElem?]
  constructor
  · rintro ⟨-, w, hs, hw⟩
    rw [List.nil_append] at hs
    rw [hs, List.length_nil, Nat.zero_add] at hw
    obtain ⟨hw, htaken⟩ := (hspans w post.toList).1 hw
    exact ⟨w, hw, hs, by rwa [hs]⟩
  · rintro ⟨w, hw, hs, htaken⟩
    rw [hs] at htaken ⊢
    refine ⟨fun _ => Repeatable.head?_repeated_ne_dot hr hpost hw, w, rfl, ?_⟩
    rw [List.length_nil, Nat.zero_add]
    exact (hspans w post.toList).2 ⟨hw, htaken⟩

/-- A `+` between what it repeats and an ordinary text accepts one or more texts that this accepts on its
own, and the text behind them; if it repeats a loop, the loop must besides take just these texts, with
nothing given back to the text behind. -/
theorem accepts_repeated (r : Repeatable) (post : String) (hr : r.IsOrdinary)
    (hpost : ∀ c ∈ post.toList, isOrdinary c = true)
    (hlen : (r.text ++ "+" ++ post).length ≤ 65536) :
    ∃ m m', ofPattern {} r.text = .ok m ∧ ofPattern {} (r.text ++ "+" ++ post) = .ok m' ∧
      ∀ s, m'.accepts s = true ↔ ∃ us : List String, us ≠ [] ∧ (∀ u ∈ us, m.accepts u = true) ∧
        s = String.join us ++ post ∧
        (r.isLoop = true → r.taken? s.toList = some (String.join us).toList) := by
  have hshorter : r.text.length ≤ 65536 := by
    simp only [String.length_append] at hlen
    omega
  obtain ⟨m, hm, haccepts⟩ := exists_of_repeatable hr hshorter
  obtain ⟨m', hm', haccepts'⟩ := exists_of_repeated hr hpost hlen
  refine ⟨m, m', hm, hm', fun s => ?_⟩
  simp only [haccepts', haccepts]
  constructor
  · rintro ⟨w, hw, hs, htaken⟩
    obtain ⟨us, hne, hus, rfl⟩ := mem_mul_kstar_join.1 hw
    exact ⟨us, hne, hus, by rw [← String.toList_inj, hs, String.toList_append], htaken⟩
  · rintro ⟨us, hne, hus, rfl, htaken⟩
    exact ⟨_, mem_mul_kstar_join.2 ⟨us, hne, hus, rfl⟩, String.toList_append, htaken⟩

/-- Of alternatives in a loop the first that comes next is taken for good, also where only another one
leaves the text behind. -/
theorem accepts_repeated_possessive : ∃ m, ofPattern {} "+(a|ab)+b" = .ok m ∧
    m.accepts "aab" = true ∧ m.accepts "abb" = false := by
  have hpattern : (Repeatable.group (some .oneOrMore) ["a", "ab"]).text ++ "+" ++ "b" = "+(a|ab)+b" := by
    decide +kernel
  obtain ⟨m, m', hm, hm', haccepts⟩ := accepts_repeated (.group (some .oneOrMore) ["a", "ab"]) "b"
    ⟨by decide, by decide, by simp [isOrdinary, Program.isSpecial]⟩ (List.all_eq_true.1 (by decide))
    (by rw [hpattern]; decide)
  rw [hpattern] at hm'
  have htext : (Repeatable.group (some .oneOrMore) ["a", "ab"]).text = "+(a|ab)" := by decide +kernel
  obtain ⟨m₁, hm₁, ha⟩ : ∃ m, ofPattern {} "+(a|ab)" = .ok m ∧ m.accepts "aa" = true :=
    exists_ok_of_any (by decide +kernel)
  rw [htext] at hm
  cases hm.symm.trans hm₁
  have hb : munched [['a'], ['a', 'b']] ['b'] = [] := munched_of_none (by decide)
  have hab : munched [['a'], ['a', 'b']] ['a', 'b'] = ['a'] :=
    (munched_of_some (u := ['a']) (by decide) (by decide)).trans (congrArg (['a'] ++ ·) hb)
  have haab : munched [['a'], ['a', 'b']] ['a', 'a', 'b'] = ['a', 'a'] :=
    (munched_of_some (u := ['a']) (by decide) (by decide)).trans (congrArg (['a'] ++ ·) hab)
  have hbb : munched [['a'], ['a', 'b']] ['b', 'b'] = [] := munched_of_none (by decide)
  have habb : munched [['a'], ['a', 'b']] ['a', 'b', 'b'] = ['a'] :=
    (munched_of_some (u := ['a']) (by decide) (by decide)).trans (congrArg (['a'] ++ ·) hbb)
  refine ⟨m', hm', (haccepts _).2 ⟨["aa"], by decide, by simpa using ha, by decide, fun _ => ?_⟩, ?_⟩
  · simp [Repeatable.taken?, ExtGlob.taken?, haab]
  · rw [← Bool.not_eq_true, haccepts]
    rintro ⟨us, -, -, hs, htaken⟩
    have hjoin : (String.join us).toList = ['a'] := by
      simpa [Repeatable.taken?, ExtGlob.taken?, habb, eq_comm] using htaken rfl
    rw [← String.toList_inj, String.toList_append, hjoin] at hs
    exact absurd hs (by decide)

/-- A group that takes a letter any number of times takes that behind the sign as well. -/
theorem not_accepts_repeated_loop : ∃ m m', ofPattern {} "+(a)" = .ok m ∧
    ofPattern {} "+(a)+a" = .ok m' ∧ m.accepts "a" = true ∧ m'.accepts ("a" ++ "a") = false := by
  obtain ⟨m, hm, haccepts⟩ : ∃ m, ofPattern {} "+(a)" = .ok m ∧ m.accepts "a" = true :=
    exists_ok_of_any (by decide +kernel)
  obtain ⟨m', hm', hrefuses⟩ : ∃ m, ofPattern {} "+(a)+a" = .ok m ∧ (!m.accepts ("a" ++ "a")) = true :=
    exists_ok_of_any (by decide +kernel)
  exact ⟨m, m', hm, hm', haccepts, by simpa using hrefuses⟩

end Matcher

end PathGlob
