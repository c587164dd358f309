/-
Globs as texts. Without escapes, groups and bars the parts of a glob are written one after the other as
the glob itself, and whatever a part stands for, it takes the characters that it is written as: a wildcard
takes itself, and every bracket expression has its own text as an alternative. So such a glob accepts
itself.
-/
import PathGlob.Proofs.Glob.Components
import PathGlob.Proofs.Matcher.Answered
import PathGlob.Proofs.Regex.Language

namespace PathGlob

open Regex

/-! ## Parts and how they are written -/

namespace Part

/-- How a part is written that neither encloses signs nor separates alternatives. -/
inductive WrittenAs : Part → List Char → Prop where
  | char (c : Char) : WrittenAs (.glyph (.char c)) [c]
  | separator (isOptional : Bool) : WrittenAs (.glyph (.separator isOptional)) ['/']
  | star (isGuarded : Bool) : WrittenAs (.glyph (.star isGuarded)) ['*']
  | globstar (dots : Bool) (n : Nat) : WrittenAs (.glyph (.globstar dots)) (List.replicate n '*')
  | qmark (isFirst : Bool) : WrittenAs (.glyph (.qmark isFirst)) ['?']
  | bracket (b : Bracket) (isClosed : Bool) (isFilled : isClosed = true → b.members ≠ []) :
      WrittenAs (.enclosed (.bracket b isClosed isFilled) false)
        ('[' :: b.raw.toList ++ if isClosed then [']'] else [])

/-- How parts are written one after the other. -/
inductive AllWrittenAs : List Part → List Char → Prop where
  | nil : AllWrittenAs [] []
  | cons {p : Part} {ps : List Part} {w t : List Char} (hp : WrittenAs p w) (h : AllWrittenAs ps t) :
      AllWrittenAs (p :: ps) (w ++ t)

variable {p : Part} {ps : List Part} {u v w t : List Char}

theorem AllWrittenAs.concat (h : AllWrittenAs ps t) (hp : WrittenAs p w) :
    AllWrittenAs (ps ++ [p]) (t ++ w) := by
  induction h with
  | nil => simpa using AllWrittenAs.cons hp .nil
  | cons hq _ ih =>
    rw [List.append_assoc]
    exact .cons hq ih

theorem AllWrittenAs.isBar (h : AllWrittenAs ps t) : ∀ p ∈ ps, p.isBar = false := by
  induction h with
  | nil => exact List.forall_mem_nil _
  | cons hp _ ih =>
    rw [List.forall_mem_cons]
    refine ⟨?_, ih⟩
    cases hp <;> rfl

/-! ## Parts take what they are written as -/

/-- A part takes the characters that it is written as, wherever they stand in a text. -/
theorem WrittenAs.spans (h : WrittenAs p w) {os : List (Regex × Quantified)}
    (hos : p.operands? false = some os) :
    SpansAll false (u ++ w ++ v).toArray (os.map (·.1)) u.length (u ++ w).length := by
  have hfirst {c : Char} : (u ++ [c] ++ v)[u.length]? = some c := by simp
  have hle : u.length ≤ (u ++ w ++ v).length := by simp
  cases h with
  | char c =>
    cases hos
    exact Glyph.spans_char.2 ⟨hfirst, by simp⟩
  | separator isOptional =>
    cases hos
    exact Glyph.spans_separator.2 (.inl ⟨hfirst, by simp⟩)
  | star isGuarded =>
    cases hos
    refine (Glyph.spans_star hle).2 ⟨fun _ => ?_, by simp, by simp, fun k hk hlt => ?_⟩
    · rw [Fragment.hides_false, List.getElem?_toArray, hfirst]
      decide
    · rw [List.length_append, List.length_singleton] at hlt
      obtain rfl : k = u.length := by omega
      exact ⟨'*', hfirst, by decide⟩
  | globstar dots n =>
    cases hos
    have hstar {k : Nat} (hk : u.length ≤ k) (hlt : k < (u ++ List.replicate n '*').length) :
        (u ++ List.replicate n '*' ++ v)[k]? = some '*' := by
      rw [List.getElem?_append_left hlt, List.getElem?_append_right hk]
      rw [List.length_append, List.length_replicate] at hlt
      exact List.getElem?_replicate_of_lt (by omega)
    refine (Glyph.spans_globstar hle).2 ⟨by simp, by simp, fun k hk hlt => ⟨⟨'*', hstar hk hlt, ?_⟩, ?_⟩⟩
    · decide
    · -- what it takes is neither a separator nor a dot
      have hk := hstar hk hlt
      rintro (⟨hsep, -⟩ | ⟨rfl, hdot⟩)
      · rw [List.getElem?_toArray, hk] at hsep
        cases hsep
      · have hzero := hdot.1
        rw [List.getElem?_toArray, hk] at hzero
        cases hzero
  | qmark isFirst =>
    cases hos
    exact Glyph.spans_qmark.2 ⟨⟨'?', hfirst, by decide, fun _ _ => by decide⟩, by simp⟩
  | bracket b isClosed isFilled =>
    rw [operands?, Enclosed.operand?] at hos
    cases hset : b.set? isClosed with
    | none =>
      rw [hset] at hos
      cases hos
    | some set =>
      rw [hset] at hos
      cases hos
      rw [List.map_singleton, spansAll_singleton, spans_alt, List.length_append]
      exact .inr ((Denotes.literals _ hle).2 (reaches_within.2 rfl))

/-- Parts take what they are written as, one after the other. -/
theorem AllWrittenAs.spans (h : AllWrittenAs ps t) {rs : List Regex}
    (hrs : regexes? false ps = some rs) :
    SpansAll false (u ++ t ++ v).toArray rs u.length (u ++ t).length := by
  induction h generalizing u rs with
  | nil =>
    cases hrs
    rw [List.append_nil]
    rfl
  | @cons p ps w t hp h ih =>
    rw [regexes?_cons] at hrs
    obtain ⟨os, hos, hrs⟩ := Option.bind_eq_some_iff.1 hrs
    obtain ⟨rs', hrs', rfl⟩ := Option.map_eq_some_iff.1 hrs
    rw [spansAll_append]
    refine ⟨(u ++ w).length, ?_, ?_⟩
    · have hfirst := hp.spans (u := u) (v := t ++ v) hos
      simpa using hfirst
    · have hrest := ih (u := u ++ w) hrs'
      simpa using hrest

end Part

/-! ## Outlines and how they are written -/

/-- Whether a character neither escapes, nor encloses signs, nor separates alternatives or repeats. -/
def isUngrouped (c : Char) : Bool := c ∉ ['\\', '(', ')', '|', '+']

/-- The characters that have been read of what is open. -/
def Opened.chars : Opened → List Char
  | bracket b => '[' :: b.raw.toList
  | nothing | group .. | pair _ => []

namespace Outline

/-- The parts of an outline are written as what has been read of a glob. -/
structure Writes (glob : List Char) (o : Outline) : Prop where
  ungrouped : o.opened.isGroup = false
  unclosed : o.opened.isBracket = true → o.closed = none
  written : ∃ t, Part.AllWrittenAs o.settle.parts t ∧ t ++ o.opened.chars ++ o.cursor.rest = glob

/-- Outside groups and bracket expressions characters have been read that no part is written as yet. -/
structure HasRead (glob : List Char) (o : Outline) (w : List Char) : Prop where
  ungrouped : o.opened.isGroup = false
  unbracketed : o.opened.isBracket = false
  closed : o.closed = none
  written : ∃ t, Part.AllWrittenAs o.parts t ∧ t ++ w ++ o.cursor.rest = glob

theorem chars_of_not_bracket {o : Outline} (h : o.opened.isBracket = false) : o.opened.chars = [] := by
  cases ho : o.opened with
  | bracket b => rw [ho] at h; cases h
  | _ => rfl

namespace HasRead

variable {glob w : List Char} {o : Outline} {c : Char}

/-- A sign is written as what has been read of it. -/
theorem put (h : HasRead glob o w) {g : Glyph} (hg : Part.WrittenAs (.glyph g) w) :
    Writes glob (o.put g) := by
  obtain ⟨t, ht, hglob⟩ := h.written
  rw [put_outside h.ungrouped]
  constructor
  · exact h.ungrouped
  · exact fun _ => h.closed
  · refine ⟨t ++ w, ?_, ?_⟩
    · rw [settle_of_none (by exact h.closed)]
      exact ht.concat hg
    · simpa [chars_of_not_bracket h.unbracketed] using hglob

theorem literal (h : HasRead glob o [c]) (hc : c ≠ '|') : Writes glob (o.literal c) := by
  have hplain : ¬ (c = '|' && !o.opened.isNothing) = true := by simp [hc]
  unfold Outline.literal
  rw [if_neg hplain]
  exact h.put (.char c)

theorem separator (h : HasRead glob o ['/']) : Writes glob o.separator := by
  have hbegun : HasRead glob { o with trail := o.trail.begin o.trail.current.globstar } ['/'] :=
    ⟨h.ungrouped, h.unbracketed, h.closed, h.written⟩
  exact hbegun.put (.separator _)

theorem literalDot (h : HasRead glob o ['.']) : Writes glob o.literalDot := by
  unfold Outline.literalDot
  split
  · have hmarked : HasRead glob { o.mark fun c => { c with dot := true } with dot := true } ['.'] :=
      ⟨h.ungrouped, h.unbracketed, h.closed, h.written⟩
    exact hmarked.put (.char '.')
  · exact h.put (.char '.')

theorem globstar (h : HasRead glob o ['*']) {n : Nat}
    (hrun : o.cursor.rest = List.replicate n '*' ++ o.globstar.cursor.rest) :
    Writes glob o.globstar := by
  obtain ⟨t, ht, hglob⟩ := h.written
  have hput : o.globstar = { o with
      cursor := o.globstar.cursor
      parts := o.parts ++ [.glyph (.globstar o.dot)]
      trail := o.trail.modify fun c => { c with globstar := true }
      dot := false
      hasGlobstar := true } := by
    simp only [Outline.globstar]
    rw [put_outside (by exact h.ungrouped)]
    rfl
  rw [hput]
  refine ⟨h.ungrouped, fun _ => h.closed, t ++ List.replicate (n + 1) '*', ?_, ?_⟩
  · rw [settle_of_none (by exact h.closed)]
    exact ht.concat (.globstar o.dot (n + 1))
  · rw [← hglob, hrun, chars_of_not_bracket (by exact h.unbracketed)]
    simp [List.replicate_succ]

/-- A run of `*` is passed at once, and its sign is written as the whole of it. -/
theorem star (h : HasRead glob o ['*']) : Writes glob o.star := by
  have hleaves := leaves_star o h.unbracketed
  unfold Outline.star at hleaves ⊢
  split
  · rename_i hnext
    rw [if_pos hnext] at hleaves
    rcases hleaves with hrest | ⟨-, n, hrest⟩
    · exact h.globstar (n := 0) hrest
    · exact h.globstar hrest
  · exact h.put (.star _)

theorem qmark (h : HasRead glob o ['?']) : Writes glob o.qmark := by
  unfold Outline.qmark
  rw [h.ungrouped, Bool.and_false, if_neg (by decide)]
  exact h.put (.qmark _)

theorem colon (h : HasRead glob o [':']) : Writes glob o.colon := by
  unfold Outline.colon
  rw [h.ungrouped, Bool.false_and, if_neg (by decide)]
  exact h.literal (by decide)

theorem openAt (h : HasRead glob o [c]) {k : Delimiter} (hk : Delimiter.ofOpener? c = some k)
    (hc : c ≠ '(') : Writes glob (o.openAt k c) := by
  have hbar : c ≠ '|' := by
    rintro rfl
    cases hk
  have hpair (l : Delimiter) : HasRead glob { o with opened := .pair l } [c] :=
    ⟨rfl, rfl, h.closed, h.written⟩
  unfold Outline.openAt
  split
  · cases k with
    | paren =>
      unfold Delimiter.ofOpener? at hk
      split at hk <;> first | exact absurd rfl hc | cases hk
    | bracket =>
      obtain rfl : c = '[' := by
        unfold Delimiter.ofOpener? at hk
        split at hk <;> first | rfl | cases hk
      obtain ⟨t, ht, hglob⟩ := h.written
      refine ⟨rfl, fun _ => h.closed, t, ?_, hglob⟩
      rw [settle_of_none (by exact h.closed)]
      exact ht
    | angle | brace | quote => exact (hpair _).literal hbar
  · exact h.literal hbar

theorem closeAt (h : HasRead glob o [c]) {k : Delimiter} (hc : c ≠ '|') {o' : Outline}
    (ho' : o.closeAt k c = .ok o') : Writes glob o' := by
  have hopened : HasRead glob { o with opened := .nothing } [c] :=
    ⟨rfl, rfl, h.closed, h.written⟩
  unfold Outline.closeAt at ho'
  split at ho'
  case h_1 => cases ho'
  case h_2 g body ho =>
    have hgroup := h.ungrouped
    rw [ho] at hgroup
    cases hgroup
  case h_3 =>
    cases ho'
    split
    · exact hopened.literal hc
    · exact h.literal hc
  case h_4 =>
    cases ho'
    exact h.literal hc

theorem plain {o : Outline} (h : HasRead glob o.settle [c]) (hc : isUngrouped c = true)
    (hfirst : c = '!' → o.cursor.isFirst = false) : Writes glob (o.plain c) := by
  have hbar : c ≠ '|' := by
    rintro rfl
    cases hc
  unfold Outline.plain
  split
  case h_1 => cases hc
  case h_2 => cases hc
  case h_3 => exact h.separator
  case h_4 => exact h.literalDot
  case h_5 =>
    rw [hfirst rfl, if_neg (by decide)]
    exact h.literal hbar
  case h_6 => exact h.star
  case h_7 => exact h.qmark
  case h_8 => exact h.colon
  case h_9 => exact h.literal hbar

end HasRead

namespace Writes

variable {glob rest b : List Char} {o : Outline} {c : Char}

/-- A bracket expression that is open is written as it stands. -/
theorem member {x : Bracket} {m : Member} (hclosed : o.closed = none) {t : List Char}
    (ht : Part.AllWrittenAs o.parts t)
    (hglob : t ++ ('[' :: x.raw.toList ++ m.raw.toList) ++ o.cursor.rest = glob) :
    Writes glob (o.member x m) := by
  refine ⟨rfl, fun _ => hclosed, t, ?_, ?_⟩
  · rw [settle_of_none (by exact hclosed)]
    exact ht
  · simpa [Outline.member, Opened.chars] using hglob

theorem stepBracket {x : Bracket} (h : Writes glob o) (ho : o.opened = .bracket x)
    (hcur : o.cursor = ⟨b, c :: rest⟩) (hc : c ≠ '\\') :
    Writes glob (stepBracket { o with cursor := ⟨c :: b, rest⟩ } x c) := by
  have hclosed := h.unclosed (by rw [ho]; rfl)
  obtain ⟨t, ht, hglob⟩ := h.written
  rw [settle_of_none hclosed] at ht
  rw [ho, hcur] at hglob
  have hmember (d : Char) (hd : c = d) :
      Writes glob (Outline.member { o with cursor := ⟨c :: b, rest⟩ } x (.char d)) := by
    refine member hclosed ht ?_
    simpa [Opened.chars, Member.raw, hd] using hglob
  unfold Outline.stepBracket
  split
  · -- a sign of negation, before all members
    rename_i hsign
    obtain ⟨hfresh, -⟩ := (Bool.and_eq_true _ _).mp hsign
    obtain ⟨hnone, hempty⟩ : x.sign = none ∧ x.members = [] := by simpa [Bracket.isFresh] using hfresh
    refine ⟨rfl, fun _ => hclosed, t, ?_, ?_⟩
    · rw [settle_of_none (by exact hclosed)]
      exact ht
    · simpa [Opened.chars, Bracket.raw, hnone, hempty] using hglob
  · split
    · rename_i hend
      split
      · exact hmember ']' hend
      · rename_i hfilled
        refine ⟨rfl, fun h => absurd h Bool.false_ne_true, _,
          ht.concat (.bracket x true fun _ => hfilled), ?_⟩
        simpa [closeBracket, Opened.chars, hend] using hglob
    · split
      · rename_i hopen
        subst hopen
        split
        · -- a named class is a member that is written as all of it
          rename_i n hn
          obtain ⟨rest', htail⟩ : PosixClass.tail n.name <+: rest := PosixClass.begins_tail hn
          have hrest : (Cursor.skip ⟨'[' :: b, rest⟩ n.text.length.pred).rest = rest' := by
            rw [PosixClass.length_text, Cursor.skip, ← htail, List.drop_left]
          have hwhole : t ++ ('[' :: x.raw.toList) ++ '[' :: (PosixClass.tail n.name ++ rest') = glob := by
            rw [htail]
            exact hglob
          refine member hclosed ht ?_
          change t ++ _ ++ (Cursor.skip _ _).rest = glob
          rw [hrest, ← hwhole]
          simp [Member.raw, PosixClass.Named.text, PosixClass.tail]
        · exact hmember '[' rfl
      · exact hmember c rfl

/-- A step of a glob without groups keeps the parts written as what has been read. -/
theorem step (h : Writes glob o) (hall : ∀ c ∈ glob, isUngrouped c = true)
    (hfirst : o.cursor.behind = [] → o.cursor.rest.head? ≠ some '!') (hcur : o.cursor = ⟨b, c :: rest⟩)
    {o' : Outline} (hstep : Outline.step { o with cursor := ⟨c :: b, rest⟩ } c = .ok o') :
    Writes glob o' := by
  have hmem : ∀ x ∈ c :: rest, isUngrouped x = true := by
    obtain ⟨t, -, hglob⟩ := h.written
    intro x hx
    apply hall
    rw [← hglob, hcur]
    exact List.mem_append_right _ hx
  have hc := hmem c (by simp)
  cases hb : o.opened.isBracket with
  | true =>
    obtain ⟨x, ho⟩ : ∃ x, o.opened = .bracket x := by
      cases ho : o.opened with
      | bracket x => exact ⟨x, rfl⟩
      | _ => rw [ho] at hb; cases hb
    rw [step_bracket (by exact ho)] at hstep
    cases hstep
    refine h.stepBracket ho hcur ?_
    rintro rfl
    cases hc
  | false =>
    have hread : HasRead glob (settle { o with cursor := ⟨c :: b, rest⟩ }) [c] := by
      obtain ⟨t, ht, hglob⟩ := h.written
      refine ⟨h.ungrouped, hb, rfl, t, ht, ?_⟩
      rw [chars_of_not_bracket hb, hcur] at hglob
      simpa using hglob
    rw [step_of_not_bracket _ (by exact hb)] at hstep
    split at hstep
    · -- nothing is announced, for no parenthesis follows
      rename_i g hg
      unfold announced? at hg
      split at hg
      · rename_i hopen
        have hparen : rest.head? = some '(' := by
          simpa [Cursor.nextIs, Cursor.peek, List.head?_eq_getElem?] using
            ((Bool.and_eq_true _ _).mp hopen).2
        have hungrouped := hmem '(' (List.mem_cons_of_mem _ (List.mem_of_mem_head? hparen))
        cases hungrouped
      · cases hg
    · split at hstep
      · rename_i k hk
        cases hstep
        refine hread.openAt hk ?_
        rintro rfl
        cases hc
      · split at hstep
        · refine hread.closeAt ?_ hstep
          rintro rfl
          cases hc
        · cases hstep
          refine hread.plain hc ?_
          rintro rfl
          rw [hcur] at hfirst
          cases b with
          | nil => exact absurd rfl (hfirst rfl)
          | cons x b => simp [Cursor.isFirst]

theorem finish (h : Writes glob o) (hrest : o.cursor.rest = []) :
    Part.AllWrittenAs o.finish.parts glob := by
  obtain ⟨t, ht, hglob⟩ := h.written
  rw [hrest, List.append_nil] at hglob
  unfold Outline.finish
  cases ho : o.opened with
  | nothing =>
    rw [ho, Opened.chars, List.append_nil] at hglob
    rw [← hglob]
    exact ht
  | group g body =>
    have hgroup := h.ungrouped
    rw [ho] at hgroup
    cases hgroup
  | pair k =>
    rw [ho, Opened.chars, List.append_nil] at hglob
    rw [← hglob]
    exact ht
  | bracket x =>
    rw [ho] at hglob
    rw [← hglob]
    have hcut := ht.concat (.bracket x false fun h => absurd h Bool.false_ne_true)
    rw [if_neg (by decide), List.append_nil] at hcut
    exact hcut

end Writes

/-- A glob without groups is not negated, and its parts are written one after the other as the glob. -/
theorem written_ofPattern {pattern : String} (hall : ∀ c ∈ pattern.toList, isUngrouped c = true)
    (hneg : pattern.toList.head? ≠ some '!') (hrel : ¬ ['.', '/'] <+: pattern.toList) {o : Outline}
    {openers : List Char} (ho : ofPattern pattern = .ok (o, openers)) :
    o.negated = false ∧ Part.AllWrittenAs o.parts pattern.toList := by
  have hcursor : Cursor.ofPattern pattern = ⟨[], pattern.toList⟩ := by
    rw [Cursor.ofPattern, Cursor.relative_eq_self hrel]
  unfold ofPattern at ho
  rw [hcursor] at ho
  cases hrun : run { cursor := ⟨[], pattern.toList⟩ } with
  | error e =>
    rw [hrun] at ho
    cases ho
  | ok u =>
    rw [hrun] at ho
    cases ho
    have hstart : Writes pattern.toList { cursor := ⟨[], pattern.toList⟩ } :=
      ⟨rfl, fun h => absurd h Bool.false_ne_true, [], .nil, rfl⟩
    have hend := run_preserves
      (P := fun o => Writes pattern.toList o ∧ (o.cursor.behind = [] → o.cursor.rest.head? ≠ some '!'))
      ?_ ⟨hstart, fun _ => hneg⟩ hrun
    · refine ⟨?_, hend.1.1.finish hend.2⟩
      rw [negated_finish, ← Bool.not_eq_true, negated_iff hrun, ← List.head?_eq_getElem?]
      exact fun h => hneg h.1
    · rintro o b c rest o' ⟨hwrites, hfirst⟩ hcur hstep
      refine ⟨hwrites.step hall hfirst hcur hstep, fun hnil => ?_⟩
      exact absurd hnil (begun_step (by simp) hstep)

end Outline

/-! ## Whole globs -/

/-- A glob without escapes, groups, bars and repetitions that is not negated accepts its own text if it
has a matcher. -/
theorem Matcher.accepts_own_text {pattern : String}
    (hall : ∀ c ∈ ['\\', '(', ')', '|', '+'], c ∉ pattern.toList)
    (hneg : pattern.toList.head? ≠ some '!') (hrel : ¬ ['.', '/'] <+: pattern.toList) {m : Matcher}
    (hm : Matcher.ofPattern { nobrace := true } pattern = .ok m) : m.accepts pattern = true := by
  have hungrouped : ∀ c ∈ pattern.toList, isUngrouped c = true := by
    intro c hc
    simp only [isUngrouped, decide_eq_true_eq]
    exact fun hspecial => hall c hspecial hc
  have hwritten {out : Outline} {openers : List Char} (ho : Outline.ofPattern pattern = .ok (out, openers)) :
      out.negated = false ∧ Part.AllWrittenAs out.parts pattern.toList :=
    Outline.written_ofPattern hungrouped hneg hrel ho
  have hexp : Group.expansions { nobrace := true } pattern = .ok [pattern] := rfl
  rcases Matcher.ofPattern_agrees rfl hexp with ⟨m', c, hm', hc, -⟩ | ⟨e, he, -⟩
  · obtain ⟨out, rs, hcompiles⟩ :=
      compiles_of_makeRegex hc rfl rfl rfl fun out openers ho => (hwritten ho).2.isBar
    obtain ⟨openers, ho, -⟩ := hcompiles.outline
    obtain ⟨m'', hm'', haccepts⟩ :=
      Matcher.exists_of_compiles hcompiles rfl hexp rfl rfl rfl (hwritten ho).2.isBar
    cases hm.symm.trans hm''
    obtain ⟨hnegated, hparts⟩ := hwritten ho
    rw [haccepts, Outline.Accepts, hnegated, if_neg Bool.false_ne_true]
    constructor
    · -- a glob that begins with a dot is not guarded
      intro hguarded hhides
      rw [Fragment.hides_false, List.getElem?_toArray, ← List.head?_eq_getElem?] at hhides
      rw [Outline.not_isGuarded_of_dot hhides hrel ho] at hguarded
      cases hguarded
    · have hspans := hparts.spans (u := []) (v := []) hcompiles.regexes
      simpa using hspans
  · cases hm.symm.trans he

/-- A glob without escapes, groups, bars and repetitions that is not negated accepts its own text if it
has a matcher, unless the search is given up. -/
theorem Matcher.isMatch_own_text {pattern : String}
    (hall : ∀ c ∈ ['\\', '(', ')', '|', '+'], c ∉ pattern.toList)
    (hneg : pattern.toList.head? ≠ some '!') (hrel : ¬ ['.', '/'] <+: pattern.toList) {m : Matcher}
    (hm : Matcher.ofPattern { nobrace := true } pattern = .ok m) (e : Engine) :
    m.isMatch e pattern = m.isAnswered e pattern := by
  rw [isMatch_eq rfl rfl hm, accepts_own_text hall hneg hrel hm, Bool.and_true]

/-- Wildcards, a globstar with its separator, braces, and bracket expressions that are closed and left
open. -/
theorem Matcher.isMatch_own_signs : ∃ m,
    Matcher.ofPattern { nobrace := true } ".x/**/[!]_]?*\x7ba,<\x7d:\"[^" = .ok m ∧
      m.isMatch .standard ".x/**/[!]_]?*\x7ba,<\x7d:\"[^" = true ∧
      m.isMatch .standard ".x/yzz\x7ba,<\x7d:\"c" = true := by
  have hsigns : Matcher.searchesFor { nobrace := true } ".x/**/[!]_]?*\x7ba,<\x7d:\"[^" (fun r =>
      !Engine.standard.givesUp r false ".x/**/[!]_]?*\x7ba,<\x7d:\"[^".toList.toArray &&
        (Engine.standard.answer? r false ".x/yzz\x7ba,<\x7d:\"c".toList.toArray).getD false) = true := by
    decide +kernel
  obtain ⟨m, regex, hm, hverdicts, hsearch⟩ :=
    Matcher.exists_of_searchesFor (by decide) (by decide) rfl rfl rfl rfl rfl hsigns
  rw [Bool.and_eq_true] at hverdicts
  refine ⟨m, hm, ?_, ?_⟩
  · rw [Matcher.isMatch_own_text (by simp) (by simp) (by simp) hm, (hsearch _ _).2]
    exact hverdicts.1
  · rw [(hsearch _ _).1]
    exact hverdicts.2

/-- A glob whose own text has a long run of one letter for its stars to share: the engine gives up. -/
theorem Matcher.not_isMatch_own_stars :
    let pattern := "**/*[*aaaaaaaaaaaaaaaaaa]*/*?*?*?*?*?*?*?*b/**"
    (∀ c ∈ ['\\', '(', ')', '|', '+'], c ∉ pattern.toList) ∧ pattern.toList.head? ≠ some '!' ∧
      ¬ ['.', '/'] <+: pattern.toList ∧
      ∃ m, Matcher.ofPattern { nobrace := true } pattern = .ok m ∧ m.isMatch .standard pattern = false := by
  refine ⟨by simp, by simp, by simp, ?_⟩
  exact Matcher.exists_of_givesUp (by decide) (by decide) rfl rfl rfl rfl rfl (by decide +kernel)

end PathGlob
