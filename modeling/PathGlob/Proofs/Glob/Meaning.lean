/-
What a rendered glob matches. Outside all delimiters a bar stands for itself, so the regular
expression of a glob that opens no angles and no braces is a sequence of the operands of its parts.
It matches a text that the operands match from end to end, behind the guard if there is one; and one
that is negated matches a text that they do not.
-/
import PathGlob.Proofs.Glob.Operand
import PathGlob.Proofs.Glob.Tracing
import PathGlob.Proofs.Regex.Ends

namespace PathGlob

open Regex (Level Draft Quantified)

namespace Regex

/-! ## Sequences -/

section Sequence

variable {nocase : Bool} {s : Array Char} {i j : Nat}

/-- Matches of expressions one after the other. -/
def SpansAll (nocase : Bool) (s : Array Char) : List Regex → Nat → Nat → Prop
  | [], i, j => i = j
  | r :: rs, i, j => ∃ k, Spans nocase s r i k ∧ SpansAll nocase s rs k j

@[simp] theorem spansAll_nil : SpansAll nocase s [] i j ↔ i = j := Iff.rfl

theorem spansAll_cons {r : Regex} {rs : List Regex} : SpansAll nocase s (r :: rs) i j ↔
    ∃ k, Spans nocase s r i k ∧ SpansAll nocase s rs k j := Iff.rfl

@[simp] theorem spansAll_singleton {r : Regex} :
    SpansAll nocase s [r] i j ↔ Spans nocase s r i j := by
  simp [spansAll_cons]

theorem spansAll_append {rs ts : List Regex} : SpansAll nocase s (rs ++ ts) i j ↔
    ∃ k, SpansAll nocase s rs i k ∧ SpansAll nocase s ts k j := by
  induction rs generalizing i with
  | nil => simp
  | cons r rs ih =>
    simp only [List.cons_append, spansAll_cons, ih]
    constructor
    · rintro ⟨k, hk, l, hl, h⟩; exact ⟨l, ⟨k, hk, hl⟩, h⟩
    · rintro ⟨l, ⟨k, hk, hl⟩, h⟩; exact ⟨k, hk, l, hl, h⟩

theorem SpansAll.onward {rs : List Regex} (h : SpansAll nocase s rs i j) (hi : i ≤ s.size) :
    i ≤ j ∧ j ≤ s.size := by
  induction rs generalizing i with
  | nil => cases h; exact ⟨Nat.le_refl _, hi⟩
  | cons r rs ih =>
    obtain ⟨k, hk, h⟩ := h
    have h1 := hk.onward hi
    have h2 := ih h h1.2
    exact ⟨Nat.le_trans h1.1 h2.1, h2.2⟩

theorem spans_foldl_append {r : Regex} {rs : List Regex} :
    Spans nocase s (rs.foldl append r) i j ↔
      ∃ k, Spans nocase s r i k ∧ SpansAll nocase s rs k j := by
  induction rs generalizing r with
  | nil => simp
  | cons t rs ih =>
    rw [List.foldl_cons, ih]
    simp only [spans_append, spansAll_cons]
    constructor
    · rintro ⟨k, ⟨l, hl, hk⟩, h⟩; exact ⟨l, hl, k, hk, h⟩
    · rintro ⟨l, hl, k, hk, h⟩; exact ⟨k, ⟨l, hl, hk⟩, h⟩

theorem spans_literals {cs : List Char} :
    Spans nocase s (literals cs) i j ↔ SpansAll nocase s (cs.map Regex.char) i j := by
  unfold literals
  rw [← List.foldl_map, spans_foldl_append]
  simp only [spans_empty, exists_eq_left]

/-- A sequence between anchors matches from end to end. -/
theorem matchesIn_anchored {rs : List Regex} :
    ((rs.foldl append .start).append .stop).matchesIn nocase s = true ↔
      SpansAll nocase s rs 0 s.size := by
  simp only [matchesIn_iff, spans_append, spans_foldl_append, spans_start, spans_stop]
  constructor
  · rintro ⟨i, -, j, k, ⟨l, ⟨rfl, rfl⟩, hk⟩, rfl, rfl⟩
    exact hk
  · intro h
    exact ⟨0, Nat.zero_le _, _, _, ⟨0, ⟨rfl, rfl⟩, h⟩, rfl, rfl⟩

/-- Any characters but line feeds. -/
def anyText : Regex := .loop .any 0 none false

theorem spans_anyText (hi : i ≤ s.size) : Spans nocase s anyText i j ↔
    i ≤ j ∧ j ≤ s.size ∧ ∀ k, i ≤ k → k < j → ∃ c, s[k]? = some c ∧ c ≠ '\n' := by
  refine spans_loop_step (fun i j => ?_) (fun i h => ?_) hi
  · rw [spans_any]
    constructor
    · rintro ⟨c, hc, hne, rfl⟩; exact ⟨⟨c, hc, by simpa using hne⟩, rfl⟩
    · rintro ⟨⟨c, hc, hne⟩, rfl⟩; exact ⟨c, hc, by simpa using hne, rfl⟩
  · obtain ⟨c, hc, -⟩ := h
    exact (Array.getElem?_eq_some_iff.1 hc).1

/-- A sequence under a negation matches a text without line feeds that it does not match without. -/
theorem matchesIn_negated {rs : List Regex} :
    (([.look .notAhead ((rs.foldl append .empty).append .stop), anyText].foldl append
      .start).append .stop).matchesIn nocase s = true ↔
      ¬ SpansAll nocase s rs 0 s.size ∧ ∀ c ∈ s, c ≠ '\n' := by
  rw [matchesIn_anchored]
  simp only [spansAll_cons, spansAll_nil, spans_notAhead, spans_append, spans_foldl_append,
    spans_empty, spans_stop]
  constructor
  · rintro ⟨_, ⟨rfl, hno⟩, _, hany, rfl⟩
    obtain ⟨-, -, hany⟩ := (spans_anyText (Nat.zero_le _)).1 hany
    refine ⟨fun h => hno ⟨_, _, ⟨0, rfl, h⟩, rfl, rfl⟩, fun c hc => ?_⟩
    obtain ⟨k, hk, rfl⟩ := Array.mem_iff_getElem.1 hc
    obtain ⟨c, hc, hne⟩ := hany k (Nat.zero_le _) hk
    rw [Array.getElem?_eq_getElem hk] at hc
    cases hc
    exact hne
  · rintro ⟨hno, hany⟩
    refine ⟨0, ⟨rfl, ?_⟩, s.size, (spans_anyText (Nat.zero_le _)).2
      ⟨Nat.zero_le _, Nat.le_refl _, fun k _ hk =>
        ⟨s[k], Array.getElem?_eq_getElem hk, hany _ (Array.getElem_mem hk)⟩⟩, rfl⟩
    rintro ⟨_, _, ⟨_, rfl, h⟩, rfl, rfl⟩
    exact hno h

end Sequence
end Regex

/-! ## Parts without bars -/

namespace Part

/-- Whether a part is a bar, which a group or a pair of angles or braces has around it. -/
def isBar : Part → Bool
  | glyph g => g = .bar
  | _ => false

/-- The expressions of parts other than bars. -/
def regexes? (dot : Bool) (ps : List Part) : Option (List Regex) :=
  (ps.mapM (operands? dot)).map fun os => os.flatten.map (·.1)

theorem regexes?_cons (dot : Bool) (p : Part) (ps : List Part) : regexes? dot (p :: ps) =
    (p.operands? dot).bind fun os => (regexes? dot ps).map (os.map (·.1) ++ ·) := by
  unfold regexes?
  rw [List.mapM_cons]
  cases p.operands? dot with
  | none => rfl
  | some os => cases ps.mapM (operands? dot) <;> simp

/-- The expressions of signs other than bars. -/
theorem regexes?_glyphs (dot : Bool) (gs : List Glyph) :
    regexes? dot (gs.map .glyph) = some (gs.flatMap fun g => (g.operands dot).map (·.1)) := by
  have hmap : (gs.map Part.glyph).mapM (operands? dot) = some (gs.map (·.operands dot)) := by
    induction gs with
    | nil => rfl
    | cons g gs ih => rw [List.map_cons, List.mapM_cons, ih]; rfl
  rw [regexes?, hmap, Option.map_some, List.map_flatten, List.map_map, List.flatMap_def]
  rfl

theorem take?_of_not_bar {p : Part} (h : p.isBar = false) (dot : Bool) (l : Level) :
    p.take? dot l = (p.operands? dot).map (·.foldl Level.add l) := by
  cases p with
  | enclosed e b => rfl
  | glyph g => cases g <;> first | rfl | cases h

/-- Parts other than bars only add their operands. -/
theorem foldlM_take? {dot : Bool} {ps : List Part} (h : ∀ p ∈ ps, p.isBar = false) (l : Level) :
    ps.foldlM (take? dot) l =
      (ps.mapM (operands? dot)).map fun os => os.flatten.foldl Level.add l := by
  induction ps generalizing l with
  | nil => rfl
  | cons p ps ih =>
    rw [List.foldlM_cons, take?_of_not_bar (h p (by simp)), List.mapM_cons]
    cases p.operands? dot with
    | none => rfl
    | some os =>
      simp only [Option.map_some, Option.bind_eq_bind, Option.bind_some]
      rw [ih fun q hq => h q (by simp [hq])]
      cases ps.mapM (operands? dot) with
      | none => rfl
      | some oss => simp

theorem foldl_add_spec (os : List (Regex × Quantified)) (l : Level) :
    (os.foldl Level.add l).content = (os.map (·.1)).foldl Regex.append l.content ∧
      (os.foldl Level.add l).finished = l.finished ∧
      (os.foldl Level.add l).opening = l.opening := by
  induction os generalizing l with
  | nil => exact ⟨rfl, rfl, rfl⟩
  | cons o os ih => exact ih (l.add o)

theorem read_operands {d : Dialect} (hstar : d.star = none) {ps : List Part}
    (hbar : ∀ p ∈ ps, p.isBar = false) (l : Level) (ls : List Level) (cs : List Char) :
    Draft.read ⟨l, ls⟩ ((texts d ps).toList ++ cs) =
      ((ps.mapM (operands? d.dot)).map fun os => os.flatten.foldl Level.add l).bind fun l =>
        Draft.read ⟨l, ls⟩ cs := by
  rw [read_texts hstar, foldlM_take? hbar]

/-- The end of a level with a single alternative and one more operand. -/
theorem close_push {l : Level} {r : Regex} (h : l.finished = []) : (l.push r).close =
    match l.opening with
    | .capture => .capture (l.content.append r)
    | .plain => l.content.append r
    | .atomic => .atomic (l.content.append r)
    | .look k => .look k (l.content.append r) := by
  unfold Level.close Level.body
  rw [show (l.push r).finished = [] from h, show (l.push r).opening = l.opening from rfl]
  rfl

/-- Parts up to the end of the text. -/
theorem read_positive {d : Dialect} (hstar : d.star = none) {ps : List Part}
    (hbar : ∀ p ∈ ps, p.isBar = false) {l : Level} (hfinished : l.finished = [])
    (hopening : l.opening = .plain) :
    (Draft.read ⟨l, []⟩ ((texts d ps).toList ++ ['$'])).bind Draft.finish? =
      (regexes? d.dot ps).map fun rs => (rs.foldl Regex.append l.content).append .stop := by
  rw [read_operands hstar hbar, regexes?]
  cases ps.mapM (operands? d.dot) with
  | none => rfl
  | some os =>
    obtain ⟨hc, hf, ho⟩ := foldl_add_spec os.flatten l
    simp only [Option.map_some, Option.bind_some, Draft.read_stop, Draft.read_nil]
    change some (Level.push _ .stop).close = _
    rw [close_push (hf.trans hfinished), ho, hopening, hc]

/-- Parts that the text must not consist of. -/
theorem read_negative {d : Dialect} (hstar : d.star = none) {ps : List Part}
    (hbar : ∀ p ∈ ps, p.isBar = false) {l : Level} (hfinished : l.finished = [])
    (hopening : l.opening = .plain) :
    (Draft.read ⟨l, []⟩ ('(' :: '?' :: '!' ::
        ((texts d ps).toList ++ ['$', ')', '.', '*', '$']))).bind Draft.finish? =
      (regexes? d.dot ps).map fun rs =>
        ([.look .notAhead ((rs.foldl Regex.append .empty).append .stop), Regex.anyText].foldl
          Regex.append l.content).append .stop := by
  rw [Draft.read_notAhead, read_operands hstar hbar, regexes?]
  cases ps.mapM (operands? d.dot) with
  | none => rfl
  | some os =>
    obtain ⟨hc, hf, ho⟩ := foldl_add_spec os.flatten { opening := .look .notAhead }
    simp only [Option.map_some, Option.bind_some]
    rw [Draft.read_stop, Draft.push, Draft.read_closing, close_push hf, ho, Draft.read_any,
      Draft.read_star]
    simp only [Draft.push, Level.repeated?_push, Regex.isRepeatable, Option.all_none, Bool.and_self,
      if_true, Option.bind_some, Draft.read_stop, Draft.read_nil]
    change some (Level.push (Level.add (Level.push l _) _) .stop).close = _
    rw [close_push, hc]
    · simp only [Level.push, Level.add, hopening]
      rfl
    · exact hfinished

end Part

/-! ## Whole globs -/

/-- The expression of a glob whose parts have the expressions `rs`. -/
def Outline.regex (dot : Bool) (o : Outline) (rs : List Regex) : Regex :=
  if o.negated then
    ([.look .notAhead ((rs.foldl Regex.append .empty).append .stop), Regex.anyText].foldl
      Regex.append .start).append .stop
  else
    (((if o.isGuarded then [Fragment.dotGuardRegex dot] else []) ++ rs).foldl Regex.append
      .start).append .stop

namespace Outline.Renders

variable {d : Dialect} {o : Outline} {r : Rendering}

theorem toList_source (h : Renders d o r) (hlead : d.lead = none) (htrail : d.trail = none) :
    r.source.toList = '^' :: ((if o.negated then ['(', '?', '!'] else []) ++
      ((if o.isGuarded then Fragment.dotGuard d.dot else "").toList ++
        ((Part.texts d o.parts).toList ++
          ((if o.negated then ['$', ')', '.', '*'] else []) ++ ['$'])))) := by
  rw [Rendering.source, h.negated, h.lead, h.trail, hlead, htrail, h.body]
  cases o.negated <;> simp

/-- The expression of a rendered glob is made of those of its parts. -/
theorem ofChars?_source (h : Renders d o r) (hstar : d.star = none) (hlead : d.lead = none)
    (htrail : d.trail = none) (hbar : ∀ p ∈ o.parts, p.isBar = false) :
    Regex.ofChars? r.source.toList = (Part.regexes? d.dot o.parts).map (o.regex d.dot) := by
  rw [Regex.ofChars?_eq_read, h.toList_source hlead htrail, Draft.read_start]
  unfold regex
  cases hn : o.negated with
  | true =>
    have hg : o.isGuarded = false := by simp [Outline.isGuarded, hn]
    simp only [if_true, hg, Bool.false_eq_true, if_false, String.toList_empty, List.cons_append,
      List.nil_append]
    exact Part.read_negative hstar hbar rfl rfl
  | false =>
    simp only [Bool.false_eq_true, if_false, List.nil_append]
    cases o.isGuarded with
    | false =>
      simp only [Bool.false_eq_true, if_false, String.toList_empty, List.nil_append]
      exact Part.read_positive hstar hbar rfl rfl
    | true =>
      simp only [if_true, List.cons_append, List.nil_append, List.foldl_cons]
      rw [Fragment.read_dotGuard]
      exact Part.read_positive hstar hbar rfl rfl

/-- What a rendered glob matches, if its expression can be read. -/
theorem matchesIn_iff (h : Renders d o r) (hstar : d.star = none) (hlead : d.lead = none)
    (htrail : d.trail = none) (hbar : ∀ p ∈ o.parts, p.isBar = false) {regex : Regex}
    (hr : Regex.ofChars? r.source.toList = some regex) :
    ∃ rs, Part.regexes? d.dot o.parts = some rs ∧ ∀ nocase s,
      regex.matchesIn nocase s = true ↔
        if o.negated then ¬ Regex.SpansAll nocase s rs 0 s.size ∧ ∀ c ∈ s, c ≠ '\n'
        else (o.isGuarded → Regex.Spans nocase s (Fragment.dotGuardRegex d.dot) 0 0) ∧
          Regex.SpansAll nocase s rs 0 s.size := by
  rw [h.ofChars?_source hstar hlead htrail hbar] at hr
  obtain ⟨rs, hrs, rfl⟩ := Option.map_eq_some_iff.1 hr
  refine ⟨rs, hrs, fun nocase s => ?_⟩
  rw [regex]
  cases o.negated with
  | true => exact Regex.matchesIn_negated
  | false =>
    simp only [Bool.false_eq_true, if_false]
    rw [Regex.matchesIn_anchored, Regex.spansAll_append]
    cases o.isGuarded with
    | false => simp
    | true =>
      simp only [if_true, Regex.spansAll_singleton, true_implies]
      constructor
      · rintro ⟨k, hk, h⟩
        obtain rfl : k = 0 := (Regex.spans_notAhead.1 hk).1
        exact ⟨hk, h⟩
      · rintro ⟨hk, h⟩
        exact ⟨0, hk, h⟩

end Outline.Renders
end PathGlob
