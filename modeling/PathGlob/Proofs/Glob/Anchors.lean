/-
How far the anchors of a rendered glob reach. A bar between angles or braces is written as it is, with
no group around it, so it divides the whole regular expression: `^` then binds the first branch alone
and `$` the last. What a group between the anchors would match is matched in any case, and nothing
else is where no such bar has been read.
-/
import PathGlob.Matcher
import PathGlob.Proofs.Glob.Grammar
import PathGlob.Proofs.Glob.Meaning

namespace PathGlob

open Regex (Level Draft Quantified)

namespace Regex

/-! ## Alternatives -/

section Alternatives

variable {nocase : Bool} {s : Array Char} {i j : Nat}

theorem spans_alts {a : Regex} {as : List Regex} :
    Spans nocase s (alts a as) i j ↔ ∃ r ∈ a :: as, Spans nocase s r i j := by
  induction as generalizing a with
  | nil => simp [alts]
  | cons b bs ih => simp [alts, spans_alt, ih]

/-- The alternatives of a level so far, in order. -/
def Level.alternatives (l : Level) : List Regex := l.finished.reverse ++ [l.content]

theorem spans_body {l : Level} :
    Spans nocase s l.body i j ↔ ∃ r ∈ l.alternatives, Spans nocase s r i j := by
  unfold Level.body Level.alternatives
  cases l.finished.reverse with
  | nil => simp [Level.content]
  | cons r rs => exact spans_alts

/-- Alternatives with an expression behind the last. -/
def appendLast (r : Regex) : Regex → List Regex → List Regex
  | a, [] => [a.append r]
  | a, b :: bs => a :: appendLast r b bs

theorem appendLast_eq {r a c : Regex} {as fs : List Regex} (h : fs ++ [c] = a :: as) :
    fs ++ [c.append r] = appendLast r a as := by
  induction fs generalizing a as with
  | nil =>
    cases h
    rfl
  | cons f fs ih =>
    obtain ⟨rfl, htail⟩ := List.cons_eq_cons.1 h
    cases as with
    | nil => simp at htail
    | cons b bs => rw [List.cons_append, ih htail, appendLast]

theorem Level.alternatives_push {l : Level} {a : Regex} {as : List Regex}
    (h : l.alternatives = a :: as) (r : Regex) : (l.push r).alternatives = appendLast r a as :=
  appendLast_eq h

theorem mem_appendLast {r a x : Regex} {as : List Regex} (h : x ∈ a :: as) :
    x ∈ appendLast r a as ∨ x.append r ∈ appendLast r a as := by
  induction as generalizing a with
  | nil =>
    obtain rfl := List.mem_singleton.1 h
    exact .inr List.mem_cons_self
  | cons b bs ih =>
    rcases List.mem_cons.1 h with rfl | h
    · exact .inl List.mem_cons_self
    · exact (ih h).imp (List.mem_cons_of_mem _) (List.mem_cons_of_mem _)

theorem spans_sequence {rs : List Regex} :
    Spans nocase s (rs.foldl append .empty) i j ↔ SpansAll nocase s rs i j := by
  simp [spans_foldl_append]

theorem spans_sequence_start {rs : List Regex} :
    Spans nocase s (rs.foldl append .start) i j ↔ i = 0 ∧ SpansAll nocase s rs 0 j := by
  rw [spans_foldl_append]
  simp only [spans_start]
  constructor
  · rintro ⟨k, ⟨rfl, rfl⟩, h⟩
    exact ⟨rfl, h⟩
  · rintro ⟨rfl, h⟩
    exact ⟨0, ⟨rfl, rfl⟩, h⟩

end Alternatives

/-- Whether a search finds an expression of the given source in a candidate; there is no answer if the
source cannot be read. -/
def search? (source : String) (nocase : Bool) (candidate : String) : Option Bool :=
  (ofChars? source.toList).map (·.matchesIn nocase candidate.toList.toArray)

/-- A compiled glob searches for its source. -/
theorem search?_source (o : Options) (r : Rendering) (candidate : String) :
    search? r.source o.nocase candidate =
      ((CompiledRegex.ofRendering o r).toOption.map (·.accepts candidate)) := by
  unfold search? CompiledRegex.ofRendering
  cases ofChars? r.source.toList <;> rfl

end Regex

/-! ## Branches -/

namespace Part

/-- The expressions of a glob's parts up to the first bar, and those of the branches behind it. -/
def branches? (dot : Bool) : List Part → Option (List Regex × List (List Regex))
  | [] => some ([], [])
  | p :: ps =>
    (branches? dot ps).bind fun (rs, bs) =>
      if p.isBar then some ([], rs :: bs)
      else (p.operands? dot).map fun os => (os.map (·.1) ++ rs, bs)

theorem branches?_of_barless {dot : Bool} {ps : List Part} (h : ∀ p ∈ ps, p.isBar = false)
    {rs : List Regex} {bs : List (List Regex)} (hbs : branches? dot ps = some (rs, bs)) : bs = [] := by
  induction ps generalizing rs bs with
  | nil =>
    cases hbs
    rfl
  | cons p ps ih =>
    rw [branches?] at hbs
    obtain ⟨⟨rs', bs'⟩, hps, hbs⟩ := Option.bind_eq_some_iff.1 hbs
    rw [h p List.mem_cons_self] at hbs
    obtain ⟨os, -, heq⟩ := Option.map_eq_some_iff.1 hbs
    cases heq
    exact ih (fun q hq => h q (List.mem_cons_of_mem _ hq)) hps

/-- Taking parts one after the other extends the last alternative by the first branch and adds the
further branches. -/
theorem foldlM_take?_branches (dot : Bool) (ps : List Part) (l : Level) :
    match branches? dot ps with
    | none => ps.foldlM (take? dot) l = none
    | some (rs, bs) => ∃ l', ps.foldlM (take? dot) l = some l' ∧ l'.opening = l.opening ∧
      l'.alternatives = l.finished.reverse ++
        rs.foldl Regex.append l.content :: bs.map (·.foldl Regex.append .empty) := by
  induction ps generalizing l with
  | nil => exact ⟨l, rfl, rfl, rfl⟩
  | cons p ps ih =>
    rw [branches?, List.foldlM_cons]
    cases hbar : p.isBar with
    | true =>
      have htake : p.take? dot l = some l.bar := by
        cases p with
        | enclosed e b => cases hbar
        | glyph g => cases g <;> first | rfl | cases hbar
      have hps := ih l.bar
      rw [htake]
      cases hb : branches? dot ps with
      | none =>
        rw [hb] at hps
        exact hps
      | some b =>
        rw [hb] at hps
        obtain ⟨l', hl', hopening, halts⟩ := hps
        refine ⟨l', hl', hopening, halts.trans ?_⟩
        simp [Level.bar, Level.content, Regex.append]
    | false =>
      rw [take?_of_not_bar hbar]
      cases hos : p.operands? dot with
      | none => cases branches? dot ps <;> rfl
      | some os =>
        obtain ⟨hcontent, hfinished, hopening⟩ := foldl_add_spec os l
        have hps := ih (os.foldl Level.add l)
        cases hb : branches? dot ps with
        | none =>
          rw [hb] at hps
          exact hps
        | some b =>
          rw [hb] at hps
          obtain ⟨l', hl', hopening', halts⟩ := hps
          refine ⟨l', hl', hopening'.trans hopening, ?_⟩
          rw [halts, hcontent, hfinished, ← List.foldl_append]

theorem foldlM_take?_glyphs (dot : Bool) (gs : List Glyph) (l : Level) :
    (gs.map Part.glyph).foldlM (take? dot) l = some (Glyph.allTakenBy dot l gs) := by
  induction gs generalizing l with
  | nil => rfl
  | cons g gs ih => exact ih (g.takenBy dot l)

end Part

/-- The expression of signs matches where one of their branches does. -/
theorem Enclosed.spans_bodyRegex_iff (dot : Bool) (body : List Glyph) : ∃ rs bs,
    Part.branches? dot (body.map .glyph) = some (rs, bs) ∧ ∀ nocase s i j,
      Regex.Spans nocase s (bodyRegex dot body) i j ↔
        ∃ b ∈ rs :: bs, Regex.SpansAll nocase s b i j := by
  have htake := Part.foldlM_take?_branches dot (body.map .glyph) { opening := .plain }
  rw [Part.foldlM_take?_glyphs] at htake
  cases hb : Part.branches? dot (body.map .glyph) with
  | none =>
    rw [hb] at htake
    cases htake
  | some b =>
    rw [hb] at htake
    obtain ⟨l, hl, -, halts⟩ := htake
    cases hl
    refine ⟨b.1, b.2, rfl, fun nocase s i j => ?_⟩
    rw [bodyRegex, Regex.spans_body, halts]
    change (∃ r ∈ b.1.foldl Regex.append .empty :: b.2.map (·.foldl Regex.append .empty), _) ↔ _
    rw [← List.map_cons]
    simp [Regex.spans_sequence]

/-! ## The body between its anchors -/

namespace Outline.Renders

variable {d : Dialect} {o : Outline} {r : Rendering}

/-- The guard in front of the first branch, if there is one. -/
def guards (dot : Bool) (o : Outline) : List Regex :=
  if o.isGuarded then [Fragment.dotGuardRegex dot] else []

/-- A body is read as its branches, at the start of a group or behind what stands there already. -/
theorem read_body (h : Renders d o r) (hstar : d.star = none) (l : Level) (ls : List Level)
    (cs : List Char) :
    match Part.branches? d.dot o.parts with
    | none => Draft.read ⟨l, ls⟩ (r.body.toList ++ cs) = none
    | some (rs, bs) => ∃ l', Draft.read ⟨l, ls⟩ (r.body.toList ++ cs) = Draft.read ⟨l', ls⟩ cs ∧
      l'.opening = l.opening ∧ l'.alternatives = l.finished.reverse ++
        (guards d.dot o ++ rs).foldl Regex.append l.content ::
          bs.map (·.foldl Regex.append .empty) := by
  obtain ⟨m, hm, hopening, hfinished, hcontent⟩ : ∃ m : Level,
      Draft.read ⟨l, ls⟩ (r.body.toList ++ cs) =
        Draft.read ⟨m, ls⟩ ((Part.texts d o.parts).toList ++ cs) ∧ m.opening = l.opening ∧
        m.finished = l.finished ∧ m.content = (guards d.dot o).foldl Regex.append l.content := by
    rw [h.body, guards]
    cases o.isGuarded with
    | false => exact ⟨l, by simp, rfl, rfl, rfl⟩
    | true =>
      refine ⟨l.push (Fragment.dotGuardRegex d.dot), ?_, rfl, rfl, rfl⟩
      rw [if_pos rfl, String.toList_append, List.append_assoc, Fragment.read_dotGuard]
      rfl
  have htake := Part.foldlM_take?_branches d.dot o.parts m
  rw [hm, Part.read_texts hstar]
  cases hb : Part.branches? d.dot o.parts with
  | none =>
    rw [hb] at htake
    simp only [htake, Option.bind_none]
  | some b =>
    rw [hb] at htake
    obtain ⟨l', hl', hopening', halts⟩ := htake
    refine ⟨l', by simp only [hl', Option.bind_some], hopening'.trans hopening, ?_⟩
    rw [halts, hfinished, hcontent, List.foldl_append]

/-- The start binds the first branch, and the end the last. -/
theorem spans_source (h : Renders d o r) (hstar : d.star = none) (hlead : d.lead = none)
    (htrail : d.trail = none) (hnegated : r.negated = false) :
    match Part.branches? d.dot o.parts with
    | none => Regex.ofChars? r.source.toList = none
    | some (rs, bs) => ∃ e, Regex.ofChars? r.source.toList = some e ∧
      ∀ nocase s i j, Regex.Spans nocase s e i j ↔
        ∃ a ∈ Regex.appendLast .stop ((guards d.dot o ++ rs).foldl Regex.append .start)
          (bs.map (·.foldl Regex.append .empty)), Regex.Spans nocase s a i j := by
  have hsource : r.source.toList = '^' :: (r.body.toList ++ ['$']) := by
    rw [Rendering.source, h.lead, h.trail, hlead, htrail, hnegated]
    simp
  have hbody := h.read_body hstar (Level.push { opening := .plain } .start) [] ['$']
  rw [Regex.ofChars?_eq_read, hsource, Draft.read_start]
  cases hb : Part.branches? d.dot o.parts with
  | none =>
    rw [hb] at hbody
    exact congrArg (·.bind Draft.finish?) hbody
  | some b =>
    rw [hb] at hbody
    obtain ⟨l, hread, hopening, halts⟩ := hbody
    refine ⟨(l.push .stop).body, ?_, ?_⟩
    · refine (congrArg (·.bind Draft.finish?) hread).trans ?_
      rw [Draft.read_stop, Draft.read_nil]
      simp only [Option.bind_some, Draft.push, Draft.finish?, Level.close]
      rw [show (l.push .stop).opening = .plain from hopening]
    · intro nocase s i j
      rw [Regex.spans_body, Level.alternatives_push halts]
      rfl

/-- A group between the anchors is bound as a whole. -/
theorem spans_grouped (h : Renders d o r) (hstar : d.star = none) :
    match Part.branches? d.dot o.parts with
    | none => Regex.ofChars? ("^(?:" ++ r.body ++ ")$").toList = none
    | some (rs, bs) => ∃ e, Regex.ofChars? ("^(?:" ++ r.body ++ ")$").toList = some e ∧
      ∀ nocase s i j, Regex.Spans nocase s e i j ↔ i = 0 ∧ j = s.size ∧
        ∃ a ∈ (guards d.dot o ++ rs) :: bs, Regex.SpansAll nocase s a 0 s.size := by
  have hsource : ("^(?:" ++ r.body ++ ")$").toList =
      '^' :: '(' :: '?' :: ':' :: (r.body.toList ++ [')', '$']) := by simp
  have hbody := h.read_body hstar { opening := .plain } [Level.push { opening := .plain } .start]
    [')', '$']
  rw [Regex.ofChars?_eq_read, hsource, Draft.read_start, Draft.read_plain]
  cases hb : Part.branches? d.dot o.parts with
  | none =>
    rw [hb] at hbody
    exact congrArg (·.bind Draft.finish?) hbody
  | some b =>
    rw [hb] at hbody
    obtain ⟨l, hread, hopening, halts⟩ := hbody
    have hclose : l.close = l.body := by
      unfold Level.close
      rw [hopening]
    refine ⟨((Regex.start).append l.body).append .stop, ?_, ?_⟩
    · refine (congrArg (·.bind Draft.finish?) hread).trans ?_
      rw [Draft.read_closing, Draft.read_stop, Draft.read_nil, hclose]
      rfl
    · intro nocase s i j
      have hbranches (i j : Nat) : Regex.Spans nocase s l.body i j ↔
          ∃ a ∈ (guards d.dot o ++ b.1) :: b.2, Regex.SpansAll nocase s a i j := by
        rw [Regex.spans_body, halts]
        change (∃ a ∈ (guards d.dot o ++ b.1).foldl Regex.append .empty :: _, _) ↔ _
        generalize guards d.dot o ++ b.1 = a
        simp [Regex.spans_sequence]
      simp only [Regex.spans_append, Regex.spans_start, Regex.spans_stop, hbranches]
      constructor
      · rintro ⟨k, ⟨_, ⟨rfl, rfl⟩, ha⟩, rfl, rfl⟩
        exact ⟨rfl, rfl, ha⟩
      · rintro ⟨rfl, rfl, ha⟩
        exact ⟨s.size, ⟨0, ⟨rfl, rfl⟩, ha⟩, rfl, rfl⟩

/-- What is found with a group between the anchors is found without, and nothing else is unless there
is a bar among the parts. -/
theorem search?_parts (h : Renders d o r) (hstar : d.star = none) (hlead : d.lead = none)
    (htrail : d.trail = none) (hnegated : r.negated = false) (nocase : Bool) (candidate : String) :
    (Regex.search? ("^(?:" ++ r.body ++ ")$") nocase candidate = none ↔
      Regex.search? r.source nocase candidate = none) ∧
    (Regex.search? ("^(?:" ++ r.body ++ ")$") nocase candidate = some true →
      Regex.search? r.source nocase candidate = some true) ∧
    ((∀ p ∈ o.parts, p.isBar = false) →
      Regex.search? r.source nocase candidate =
        Regex.search? ("^(?:" ++ r.body ++ ")$") nocase candidate) := by
  have hgrouped := h.spans_grouped hstar
  have hsource := h.spans_source hstar hlead htrail hnegated
  unfold Regex.search?
  generalize candidate.toList.toArray = s
  cases hb : Part.branches? d.dot o.parts with
  | none =>
    rw [hb] at hgrouped hsource
    rw [hgrouped, hsource]
    simp
  | some b =>
    rw [hb] at hgrouped hsource
    obtain ⟨e, he, hspans⟩ := hgrouped
    obtain ⟨e', he', hspans'⟩ := hsource
    have hall : e.matchesIn nocase s = true ↔
        ∃ a ∈ (guards d.dot o ++ b.1) :: b.2, Regex.SpansAll nocase s a 0 s.size := by
      simp only [Regex.matchesIn_iff, hspans]
      constructor
      · rintro ⟨_, -, _, rfl, rfl, ha⟩
        exact ha
      · intro ha
        exact ⟨0, Nat.zero_le _, _, rfl, rfl, ha⟩
    rw [he, he', Option.map_some, Option.map_some]
    refine ⟨by simp, ?_, ?_⟩
    · intro hmatch
      rw [Option.some_inj, hall] at hmatch
      -- a branch that matches from end to end still does behind `^` and before `$`
      obtain ⟨x, hx, hspan⟩ : ∃ x ∈ (guards d.dot o ++ b.1).foldl Regex.append .start ::
          b.2.map (·.foldl Regex.append .empty), Regex.Spans nocase s x 0 s.size := by
        obtain ⟨a, ha, hspan⟩ := hmatch
        rcases List.mem_cons.1 ha with rfl | ha
        · exact ⟨_, List.mem_cons_self, Regex.spans_sequence_start.2 ⟨rfl, hspan⟩⟩
        · exact ⟨_, List.mem_cons_of_mem _ (List.mem_map_of_mem ha), Regex.spans_sequence.2 hspan⟩
      rw [Option.some_inj, Regex.matchesIn_iff]
      refine ⟨0, Nat.zero_le _, s.size, (hspans' ..).2 ?_⟩
      rcases Regex.mem_appendLast hx with hx | hx
      · exact ⟨x, hx, hspan⟩
      · exact ⟨_, hx, Regex.spans_append.2 ⟨s.size, hspan, Regex.spans_stop.2 ⟨rfl, rfl⟩⟩⟩
    · intro hbar
      -- without bars there is one branch, which both signs bind
      have hsingle : b.2 = [] := Part.branches?_of_barless hbar hb
      have hone : e'.matchesIn nocase s = true ↔
          Regex.SpansAll nocase s (guards d.dot o ++ b.1) 0 s.size := by
        simp only [Regex.matchesIn_iff, hspans', hsingle, List.map_nil, Regex.appendLast,
          List.mem_singleton, exists_eq_left, Regex.spans_append, Regex.spans_sequence_start,
          Regex.spans_stop]
        constructor
        · rintro ⟨_, -, _, _, ⟨rfl, hspan⟩, rfl, rfl⟩
          exact hspan
        · intro hspan
          exact ⟨0, Nat.zero_le _, _, s.size, ⟨rfl, hspan⟩, rfl, rfl⟩
      rw [hsingle] at hall
      rw [Option.some_inj, Bool.eq_iff_iff, hone, hall]
      simp

end Outline.Renders

/-! ## Bars between angles and braces -/

namespace Scope

/-- Whether angles or braces are open. -/
def isPair : Scope → Bool
  | inside k => k ≠ .paren
  | _ => false

/-- Whether a bar is read while angles or braces are open. -/
def hasLooseBar (p : Scope) (glob : List Char) : Bool :=
  match glob with
  | [] => false
  | c :: cs =>
    match _h : p.read c cs with
    | .error _ => false
    | .ok (q, rest) => c = '|' && p.isPair || q.hasLooseBar rest
termination_by glob.length
decreasing_by exact Nat.lt_succ_of_le (length_read_le _h)

theorem hasLooseBar_of_ok {p q : Scope} {c : Char} {cs rest : List Char}
    (h : p.read c cs = .ok (q, rest)) :
    p.hasLooseBar (c :: cs) = (c = '|' && p.isPair || q.hasLooseBar rest) := by
  rw [hasLooseBar]
  split
  · rename_i he
    rw [h] at he
    cases he
  · rename_i ho
    rw [h] at ho
    cases ho
    rfl

end Scope

namespace Outline

/-- No bar has been read between angles or braces. -/
structure Barless (o : Outline) : Prop where
  parts : ∀ p ∈ o.parts, p.isBar = false
  paired : o.opened ≠ .pair .paren

namespace Barless

variable {o : Outline}

theorem put (h : Barless o) {g : Glyph} (hg : g = .bar → o.opened.isGroup = true) :
    Barless (o.put g) := by
  cases hgroup : o.opened.isGroup with
  | true =>
    obtain ⟨e, body, ho⟩ : ∃ e body, o.opened = .group e body := by
      cases ho : o.opened with
      | group e body => exact ⟨e, body, rfl⟩
      | _ => rw [ho] at hgroup; cases hgroup
    rw [put_inside ho]
    exact ⟨h.parts, nofun⟩
  | false =>
    have hbar : (Part.glyph g).isBar = false := by
      simp only [Part.isBar, decide_eq_false_iff_not]
      intro hbar
      rw [hg hbar] at hgroup
      cases hgroup
    rw [put_outside hgroup]
    refine ⟨?_, h.paired⟩
    intro p hp
    rcases List.mem_append.1 hp with hp | hp
    · exact h.parts p hp
    · rw [List.mem_singleton.1 hp]
      exact hbar

theorem literal (h : Barless o) (hb : o.opened.isBracket = false) {c : Char}
    (hc : c = '|' → o.opened.scope.isPair = false) : Barless (o.literal c) := by
  apply h.put
  intro hg
  split at hg
  · rename_i hbar
    simp only [Bool.and_eq_true, decide_eq_true_eq] at hbar
    have hpair := hc hbar.1
    -- between parentheses the bar goes to the group and not to the parts
    cases ho : o.opened with
    | nothing => rw [ho] at hbar; cases hbar.2
    | group e body => rfl
    | pair k =>
      rw [ho] at hpair
      have hk : k = .paren := by simpa [Opened.scope, Scope.isPair] using hpair
      exact absurd (by rw [ho, hk]) h.paired
    | bracket b => rw [ho] at hb; cases hb
  · cases hg

theorem settle (h : Barless o) (b : Bool) : Barless (o.settle b) := by
  refine ⟨?_, h.paired⟩
  intro p hp
  rcases List.mem_append.1 hp with hp | hp
  · exact h.parts p hp
  · simp only [Option.mem_toList, Option.map_eq_some_iff] at hp
    obtain ⟨e, -, rfl⟩ := hp
    rfl

theorem stepBracket (h : Barless o) (b : Bracket) (c : Char) : Barless (o.stepBracket b c) where
  parts := by
    rw [parts_stepBracket]
    exact h.parts
  paired := unpaired_stepBracket o b c .paren

theorem openAt (h : Barless o) (hb : o.opened.isBracket = false) {k : Delimiter} {c : Char}
    (hk : Delimiter.ofOpener? c = some k) : Barless (o.openAt k c) := by
  have hc : c ≠ '|' := by
    rintro rfl
    cases hk
  have hpair (k : Delimiter) (hk : k ≠ .paren) :
      Barless (Outline.literal { o with opened := .pair k } c) := by
    apply literal
    · exact ⟨h.parts, fun hp => hk (Opened.pair.inj hp)⟩
    · rfl
    · exact fun hbar => absurd hbar hc
  unfold Outline.openAt
  split
  · cases k with
    | paren => exact ⟨h.parts, nofun⟩
    | bracket => exact ⟨h.parts, nofun⟩
    | angle => exact hpair .angle nofun
    | brace => exact hpair .brace nofun
    | quote => exact hpair .quote nofun
  · exact h.literal hb fun hbar => absurd hbar hc

theorem closeAt (h : Barless o) (hb : o.opened.isBracket = false) {k : Delimiter} {c : Char}
    (hk : Delimiter.ofCloser? c = some k) {o' : Outline} (ho' : o.closeAt k c = .ok o') :
    Barless o' := by
  have hc : c = '|' → o.opened.scope.isPair = false := by
    rintro rfl
    cases hk
  unfold Outline.closeAt at ho'
  split at ho' <;> cases ho'
  · split
    · exact ⟨h.parts, nofun⟩
    · exact h.literal hb hc
  · split
    · apply literal
      · exact ⟨h.parts, nofun⟩
      · rfl
      · exact fun _ => rfl
    · exact h.literal hb hc
  · exact h.literal hb hc

theorem plain (h : Barless o) (hb : o.opened.isBracket = false) {c : Char}
    (hc : c = '|' → o.opened.scope.isPair = false) : Barless (o.plain c) := by
  have hs := h.settle false
  have hput {u : Outline} (hparts : u.parts = o.settle.parts) (hopened : u.opened = o.opened)
      {g : Glyph} (hg : g ≠ .bar) : Barless (u.put g) := by
    apply put
    · exact ⟨hparts ▸ hs.parts, hopened ▸ h.paired⟩
    · exact fun hbar => absurd hbar hg
  have hliteral : Barless (o.settle.literal c) := hs.literal hb hc
  unfold Outline.plain
  split
  case h_1 =>
    split
    · exact h.settle true
    · exact h.literal hb hc
  case h_2 =>
    unfold Outline.escape
    split <;> exact hput (by rfl) (by rfl) (by nofun)
  case h_3 => exact hput (by rfl) (by rfl) (by nofun)
  case h_4 =>
    unfold Outline.literalDot
    split <;> exact hput (by rfl) (by rfl) (by nofun)
  case h_5 =>
    split
    · exact ⟨hs.parts, hs.paired⟩
    · exact hliteral
  case h_6 =>
    unfold Outline.star
    split
    · have hglobstar : Barless ((o.settle.mark fun c => { c with globstar := true }).put
          (.globstar o.settle.dot)) := hput (by rfl) (by rfl) (by nofun)
      exact ⟨hglobstar.parts, hglobstar.paired⟩
    · exact hput (by rfl) (by rfl) (by nofun)
  case h_7 =>
    unfold Outline.qmark
    split
    · exact hs
    · exact hput (by rfl) (by rfl) (by nofun)
  case h_8 =>
    unfold Outline.colon
    split
    · exact ⟨hs.parts, hs.paired⟩
    · exact hliteral
  case h_9 => exact hliteral

/-- A step reads no bar between angles or braces unless the scanner does. -/
theorem step (h : Barless o) {c : Char} (hc : c = '|' → o.opened.scope.isPair = false)
    {o' : Outline} (ho' : o.step c = .ok o') : Barless o' := by
  have hs := h.settle false
  unfold Outline.step at ho'
  split at ho'
  · cases ho'
    exact h.stepBracket _ _
  · rename_i hbracket
    have hb : o.opened.isBracket = false := by
      cases ho : o.opened with
      | bracket b => exact absurd ho (hbracket b)
      | _ => rfl
    split at ho'
    · cases ho'
      exact ⟨hs.parts, hs.paired⟩
    · split at ho'
      · rename_i k hk
        cases ho'
        exact hs.openAt hb hk
      · split at ho'
        · rename_i k hk
          exact hs.closeAt hb hk ho'
        · cases ho'
          exact h.plain hb hc

/-- A whole run reads no bar between angles or braces unless the scanner does. -/
theorem run (h : Barless o) {cs : List Char} (hleaves : o.Leaves cs)
    (hloose : o.opened.scope.hasLooseBar cs = false) {o' : Outline} (ho' : o.run = .ok o') :
    Barless o' := by
  induction hleaves using Leaves.induct with
  | done o _ hrest =>
    rw [run_nil hrest] at ho'
    cases ho'
    exact h
  | passed o cs _ _ hb ih =>
    have hp : o.opened.scope.isBracket = false := by rw [Opened.isBracket_scope, hb]
    have hread : o.opened.scope.read '*' cs = .ok (o.opened.scope, cs) :=
      Scope.read_plain hp rfl rfl (by decide)
    rw [Scope.hasLooseBar_of_ok hread, Bool.or_eq_false_iff] at hloose
    exact ih h hloose.2 ho'
  | refused o b c rest e _ ho hs hread =>
    rw [run_cons ho, hs] at ho'
    cases ho'
  | read o b c rest o₁ cs _ _ ho hs hread ih =>
    rw [run_cons ho, hs] at ho'
    rw [Scope.hasLooseBar_of_ok hread, Bool.or_eq_false_iff] at hloose
    refine ih (step (o := { o with cursor := ⟨c :: b, rest⟩ }) ⟨h.parts, h.paired⟩ ?_ hs) hloose.2 ho'
    simpa using hloose.1

theorem finish (h : Barless o) : Barless o.finish := by
  have hs := h.settle false
  unfold Outline.finish
  apply settle
  cases ho : o.opened with
  | nothing => exact h
  | group g body => exact ⟨hs.parts, nofun⟩
  | pair k => exact ⟨h.parts, nofun⟩
  | bracket b => exact ⟨hs.parts, nofun⟩

end Barless
end Outline

/-! ## Whole globs -/

/-- What an expression with a group between its anchors finds is found by that of the glob, which can
be read whenever the other can; and the two find the same in every candidate unless a bar of the glob
is between angles or braces, where nothing encloses the alternatives. -/
theorem Rendering.search?_grouped {d : Dialect} {pattern : String} {r : Rendering}
    (hstar : d.star = none) (hlead : d.lead = none) (htrail : d.trail = none)
    (hr : ofPattern d pattern = .ok r) (hnegated : r.negated = false) (nocase : Bool)
    (candidate : String) :
    (Regex.search? ("^(?:" ++ r.body ++ ")$") nocase candidate = none ↔
      Regex.search? r.source nocase candidate = none) ∧
    (Regex.search? ("^(?:" ++ r.body ++ ")$") nocase candidate = some true →
      Regex.search? r.source nocase candidate = some true) ∧
    (Scope.hasLooseBar .outside (Cursor.relative pattern.toList) = false →
      Regex.search? r.source nocase candidate =
        Regex.search? ("^(?:" ++ r.body ++ ")$") nocase candidate) := by
  have hfollows := Outline.ofPattern_follows d pattern
  unfold Outline.ofPattern at hfollows
  cases ho : Outline.run { cursor := .ofPattern pattern } with
  | error e =>
    rw [ho] at hfollows
    cases hr.symm.trans hfollows
  | ok o =>
    rw [ho] at hfollows
    obtain ⟨_, hr', hrenders, -⟩ := hfollows
    cases hr.symm.trans hr'
    obtain ⟨hnone, hfound, hsame⟩ :=
      hrenders.search?_parts hstar hlead htrail hnegated nocase candidate
    refine ⟨hnone, hfound, fun hloose => hsame ?_⟩
    have hstart : Outline.Barless { cursor := .ofPattern pattern } := ⟨nofun, nofun⟩
    exact (hstart.run (.inl rfl) hloose ho).finish.parts

/-- Bars between parentheses and in bracket expressions are in a group. -/
theorem Rendering.search?_grouped_parens : ∃ r, ofPattern {} "(a|b)[|]" = .ok r ∧
    r.source = "^(?!\\.)(a|b)(?:[|]|\\[\\|\\])$" ∧
    Scope.hasLooseBar .outside (Cursor.relative "(a|b)[|]".toList) = false ∧
    Regex.search? r.source false "a|x" = Regex.search? ("^(?:" ++ r.body ++ ")$") false "a|x" := by
  have hr : ofPattern {} "(a|b)[|]" = .ok {
      negated := false, lead := "^", trail := "$", hasGlobstar := false, unclosed := []
      components := [{ text := "(?!\\.)(a|b)(?:[|]|\\[\\|\\])", capture := true }] } := by
    decide +kernel
  have hloose : Scope.hasLooseBar .outside (Cursor.relative "(a|b)[|]".toList) = false := by
    decide +kernel
  exact ⟨_, hr, rfl, hloose, (search?_grouped rfl rfl rfl hr rfl false "a|x").2.2 hloose⟩

/-- A bar between angles is in none, and what begins as the first alternative does is accepted. -/
theorem Rendering.search?_looseBar : ∃ r, ofPattern {} "<a|b>" = .ok r ∧ r.negated = false ∧
    r.source = "^(?!\\.)<a|b>$" ∧ Regex.search? r.source false "<ax" = some true ∧
    Regex.search? ("^(?:" ++ r.body ++ ")$") false "<ax" = some false := by
  refine ⟨{
      negated := false, lead := "^", trail := "$", hasGlobstar := false, unclosed := []
      components := [{ text := "(?!\\.)<a|b>" }] }, ?_, rfl, rfl, ?_, ?_⟩
  all_goals decide +kernel

end PathGlob
