/-
Matchers of one pattern that expands to itself. Such a matcher accepts what the regular expression
of the pattern finds, also where the pattern is its own text and is compared instead.
-/
import PathGlob.Matcher
import PathGlob.Proofs.Glob.Flat
import PathGlob.Proofs.Glob.Fragment
import PathGlob.Proofs.Glob.Meaning

namespace PathGlob

open Regex

/-! ## Renderings and their expressions -/

/-- What is rendered under the options is the rendering of the pattern, with nothing left open where
brackets are strict. -/
theorem render_ok_iff {o : Options} {pattern : String} {r : Rendering} :
    render o pattern = .ok r ↔ Rendering.ofPattern o.dialect pattern = .ok r ∧
      (o.strictBrackets = true → r.unclosed = []) := by
  unfold render
  cases Rendering.ofPattern o.dialect pattern with
  | error e => simp
  | ok r' =>
    cases hu : r'.unclosed with
    | nil =>
      simp only [hu, Except.ok.injEq]
      constructor
      · rintro rfl; exact ⟨rfl, fun _ => hu⟩
      · exact fun h => h.1
    | cons c cs =>
      cases hs : o.strictBrackets with
      | false => simp [hu]
      | true =>
        simp only [hu, if_true, true_implies, Except.ok.injEq]
        constructor
        · rintro h; cases h
        · rintro ⟨rfl, h⟩; rw [hu] at h; cases h

/-- A rendering is that of the outline. -/
theorem Outline.renders_of_ok {d : Dialect} {pattern : String} {r : Rendering} {out : Outline}
    {openers : List Char} (hr : Rendering.ofPattern d pattern = .ok r)
    (ho : Outline.ofPattern pattern = .ok (out, openers)) : Renders d out r ∧ r.unclosed = openers := by
  have h := Outline.ofPattern_follows d pattern
  rw [ho] at h
  obtain ⟨r', hr', h1, h2⟩ := h
  cases hr.symm.trans hr'
  exact ⟨h1, h2⟩

theorem CompiledRegex.ofRendering_ok {o : Options} {r : Rendering} {c : CompiledRegex}
    (h : ofRendering o r = .ok c) :
    c.nocase = o.nocase ∧ ofChars? r.source.toList = some c.regex := by
  unfold ofRendering at h
  split at h
  · rename_i regex hregex
    cases h
    exact ⟨rfl, hregex⟩
  · cases h

/-! ## Patterns that are their own text -/

/-- What a flat glob without wildcards consists of. -/
theorem flatGlyphs_plain {cs : List Char} (h : ∀ c ∈ cs, c ≠ '*' ∧ c ≠ '?') {p : Place}
    (hp : p.isGlobstar = false) : flatGlyphs p cs = cs.map fun c =>
      if c = '/' then .separator false else .char c := by
  induction cs generalizing p with
  | nil => rw [flatGlyphs]; rfl
  | cons c cs ih =>
    have hc := h c (by simp)
    rw [flatGlyphs, if_neg fun hs => hc.1 hs.1, ih fun x hx => h x (by simp [hx])]
    · rw [List.map_cons]
      congr 1
      unfold flatGlyph
      split
      · simp [hp]
      · exact absurd rfl hc.1
      · exact absurd rfl hc.2
      · rename_i hne _ _
        rw [if_neg hne]
    · unfold Place.next
      split <;> first | rfl | exact hp

/-- Characters match their own text. -/
theorem spansAll_chars {s cs : List Char} {i : Nat} (hi : i ≤ s.length) :
    SpansAll false s.toArray (cs.map Regex.char) i s.length ↔ s.drop i = cs := by
  induction cs generalizing i with
  | nil =>
    rw [List.map_nil, spansAll_nil, List.drop_eq_nil_iff]
    omega
  | cons c cs ih =>
    rw [List.map_cons, spansAll_cons]
    constructor
    · rintro ⟨k, hk, h⟩
      obtain ⟨d, hd, hsame, rfl⟩ := spans_char.1 hk
      rw [List.getElem?_toArray] at hd
      obtain ⟨hlt, rfl⟩ := List.getElem?_eq_some_iff.1 hd
      have hcd : c = s[i] := by simpa [sameChar] using hsame
      rw [List.drop_eq_getElem_cons hlt, (ih hlt).1 h, hcd]
    · intro h
      have hlt : i < s.length := by
        have := congrArg List.length h
        rw [List.length_drop, List.length_cons] at this
        omega
      rw [List.drop_eq_getElem_cons hlt] at h
      cases h
      exact ⟨i + 1, spans_char.2 ⟨s[i], by simp [hlt], by simp [sameChar], rfl⟩, (ih hlt).2 rfl⟩

/-- The signs of a text that stands for itself. -/
def textGlyphs (cs : List Char) : List Glyph :=
  cs.map fun c => if c = '/' then .separator false else .char c

theorem texts_textGlyphs (d : Dialect) (cs : List Char) :
    Part.texts { d with star := none } ((textGlyphs cs).map .glyph) =
      Part.texts d ((textGlyphs cs).map .glyph) := by
  unfold Part.texts textGlyphs
  simp only [List.map_map]
  congr 1
  refine List.map_congr_left fun c _ => ?_
  simp only [Function.comp, Part.text]
  split <;> rfl

theorem regexes?_textGlyphs (dot : Bool) (cs : List Char) :
    Part.regexes? dot ((textGlyphs cs).map .glyph) = some (cs.map Regex.char) := by
  rw [Part.regexes?_glyphs]
  congr 1
  induction cs with
  | nil => rfl
  | cons c cs ih =>
    simp only [textGlyphs, List.map_cons, List.flatMap_cons] at ih ⊢
    rw [ih]
    split
    · rename_i hc
      subst hc
      rfl
    · rfl

/-- The outline of a pattern that is its own text. -/
theorem Outline.ofPattern_text {pattern : String}
    (h : ∀ c ∈ pattern.toList, Program.isSpecial c = false) :
    ∃ out, Outline.ofPattern pattern = .ok (out, []) ∧ out.negated = false ∧
      out.parts = (textGlyphs (Cursor.relative pattern.toList)).map .glyph ∧
      ((Cursor.relative pattern.toList).head? = some '.' → out.isGuarded = false) := by
  have hplain {c : Char} (hc : c ∈ Cursor.relative pattern.toList) : isFlat c = true ∧
      c ≠ '*' ∧ c ≠ '?' ∧ c ≠ '!' := by
    have := h c ((Cursor.suffix_relative _).subset hc)
    simp only [Program.isSpecial, decide_eq_false_iff_not, List.mem_cons, not_or] at this
    simp [isFlat, this]
  obtain ⟨out, ho, hnegated, hparts, hguard, -⟩ := Outline.ofPattern_flat pattern
    (fun c hc => (hplain hc).1) fun hhead => (hplain (List.mem_of_head? hhead)).2.2.2 rfl
  refine ⟨out, ho, hnegated, ?_, hguard⟩
  rw [hparts, flatGlyphs_plain (fun c hc => ⟨(hplain hc).2.1, (hplain hc).2.2.1⟩) rfl]
  rfl

/-- A pattern that is its own text has an expression, which finds that text and no other. -/
theorem CompiledRegex.accepts_text {o : Options} {pattern : String}
    (h : Program.isLiteral o pattern = true) :
    ∃ r c, render o pattern = .ok r ∧ ofRendering o r = .ok c ∧ ∀ candidate,
      c.accepts candidate = (String.ofList (Cursor.relative pattern.toList) == candidate) := by
  simp only [Program.isLiteral, Bool.and_eq_true, Bool.not_eq_true', Option.isNone_iff_eq_none,
    List.any_eq_false, Bool.not_eq_true] at h
  obtain ⟨⟨⟨hnocase, hlead⟩, htrail⟩, hspecial⟩ := h
  obtain ⟨out, ho, hnegated, hparts, hguard⟩ := Outline.ofPattern_text hspecial
  have hfollows := Outline.ofPattern_follows o.dialect pattern
  rw [ho] at hfollows
  obtain ⟨r, hr, hrenders, hunclosed⟩ := hfollows
  -- no part is a star, so the text for stars does not matter
  have hrenders' : Outline.Renders { o.dialect with star := none } out r :=
    { hrenders with body := by rw [hrenders.body, hparts, texts_textGlyphs] }
  have hbar : ∀ p ∈ out.parts, p.isBar = false := by
    rw [hparts]
    simp only [textGlyphs, List.mem_map]
    rintro _ ⟨_, ⟨c, -, rfl⟩, rfl⟩
    split <;> rfl
  obtain ⟨regex, hsource⟩ : ∃ regex, ofChars? r.source.toList = some regex := by
    rw [hrenders'.ofChars?_source rfl hlead htrail hbar, hparts, regexes?_textGlyphs]
    exact ⟨_, rfl⟩
  refine ⟨r, ⟨r.source, o.nocase, regex⟩, ?_, ?_, fun candidate => ?_⟩
  · exact render_ok_iff.2 ⟨hr, fun _ => hunclosed⟩
  · unfold ofRendering
    rw [hsource]
  · obtain ⟨rs, hrs, hmatches⟩ := hrenders'.matchesIn_iff rfl hlead htrail hbar hsource
    rw [hparts, regexes?_textGlyphs] at hrs
    cases hrs
    rw [Bool.eq_iff_iff, accepts, hmatches, hnegated, hnocase]
    simp only [Bool.false_eq_true, if_false, List.size_toArray, Fragment.spans_dotGuard, true_and,
      beq_iff_eq]
    rw [spansAll_chars (Nat.zero_le _), List.drop_zero]
    constructor
    · rintro ⟨-, htext⟩
      rw [← htext, String.ofList_toList]
    · rintro rfl
      rw [String.toList_ofList]
      refine ⟨fun hg hhides => ?_, rfl⟩
      have hhead : (Cursor.relative pattern.toList).head? = some '.' := by
        simpa [List.head?_eq_getElem?] using hhides.1
      rw [hguard hhead] at hg
      cases hg

/-! ## Programs and matchers -/

/-- A program accepts what the expression of its rendering finds, and neither has a result where the
other has none. -/
theorem Program.compile_agrees {o : Options} {pattern : String} {r : Rendering}
    (hr : render o pattern = .ok r) :
    (∃ p c, Program.compile o pattern r = .ok p ∧ CompiledRegex.ofRendering o r = .ok c ∧
      ∀ candidate, p.accepts candidate = c.accepts candidate) ∨
    (∃ e, Program.compile o pattern r = .error e ∧ CompiledRegex.ofRendering o r = .error e) := by
  unfold Program.compile
  split
  · rename_i hlit
    obtain ⟨r', c, hr', hc, htext⟩ := CompiledRegex.accepts_text hlit
    cases hr.symm.trans hr'
    exact .inl ⟨_, c, rfl, hc, fun candidate => (htext candidate).symm⟩
  · cases hc : CompiledRegex.ofRendering o r with
    | ok c => exact .inl ⟨_, c, rfl, rfl, fun _ => rfl⟩
    | error e => exact .inr ⟨e, rfl, rfl⟩

/-- A pattern without opening braces expands to itself, if it may expand to anything. -/
theorem Group.expansions_of_no_brace {o : Options} {pattern : String} (h : '{' ∉ pattern.toList) :
    Group.expansions o pattern = if o.nobrace || 1 ≤ o.maxExpansions then .ok [pattern]
      else .error (.tooManyExpansions o.maxExpansions) := by
  have hfirst : Brace.firstSet? pattern.toList = none := by
    generalize pattern.toList = cs at h
    fun_induction Brace.firstSet? cs <;> simp_all
  unfold expansions Brace.expand?
  cases o.nobrace with
  | true => rfl
  | false =>
    have hnext : Brace.expandNext o.maxExpansions { waiting := 1 } pattern.toList =
        if 1 ≤ o.maxExpansions then some { found := [pattern.toList], count := 1, waiting := 0 }
        else none := by
      rw [Brace.expandNext]
      split
      · rfl
      · rename_i hsome
        rw [hfirst] at hsome
        cases hsome
    rw [hnext, Bool.false_or, if_neg (by decide)]
    by_cases hmax : 1 ≤ o.maxExpansions
    · simp [hmax]
    · simp [hmax]

/-- What a matcher of one pattern is made of: the programs of the pattern's expansions. -/
theorem Matcher.members_of_ok {o : Options} {pattern : String} {m : Matcher}
    (h : Matcher.ofPattern o pattern = .ok m) : ∃ ps members,
      Group.expansions o pattern = .ok ps ∧ ps.mapM (Group.member o) = .ok members ∧
      m = { windows := o.windows, groups := [{ pattern, members }] } := by
  unfold Matcher.ofPattern Matcher.ofPatterns at h
  simp only [List.mapM_cons, List.mapM_nil, Group.compile, bind, Except.bind] at h
  cases hlen : checkLength o pattern with
  | error e => rw [hlen] at h; cases h
  | ok u =>
    cases hexp : Group.expansions o pattern with
    | error e => rw [hlen, hexp] at h; cases h
    | ok ps =>
      cases hmembers : ps.mapM (Group.member o) with
      | error e => simp only [hlen, hexp, hmembers] at h; cases h
      | ok members =>
        simp only [hlen, hexp, hmembers] at h
        cases h
        exact ⟨ps, members, rfl, hmembers, rfl⟩

/-- A matcher of a pattern that expands to itself accepts what the expression of the pattern finds,
and neither has a result where the other has none. -/
theorem Matcher.ofPattern_agrees {o : Options} {pattern : String} (hw : o.windows = false)
    (hexp : Group.expansions o pattern = .ok [pattern]) :
    (∃ m c, Matcher.ofPattern o pattern = .ok m ∧ makeRegex o pattern = .ok c ∧
      ∀ candidate, m.accepts candidate = c.accepts candidate) ∨
    (∃ e, Matcher.ofPattern o pattern = .error e ∧ makeRegex o pattern = .error e) := by
  unfold Matcher.ofPattern Matcher.ofPatterns
  simp only [List.mapM_cons, List.mapM_nil]
  unfold Group.compile makeRegex
  rw [hexp]
  cases hlen : checkLength o pattern with
  | error e => exact .inr ⟨e, rfl, rfl⟩
  | ok u =>
    have hmembers : [pattern].mapM (Group.member o) = (Group.member o pattern).map ([·]) := by
      rw [List.mapM_cons]
      cases Group.member o pattern <;> rfl
    simp only [bind, Except.bind, hmembers]
    unfold Group.member
    cases hr : render o pattern with
    | error e => exact .inr ⟨e, rfl, rfl⟩
    | ok r =>
      rcases Program.compile_agrees hr with ⟨p, c, hp, hc, hagree⟩ | ⟨e, hp, hc⟩
      · refine .inl ⟨{ windows := o.windows, groups := [{ pattern, members := [(r, p)] }] }, c, ?_,
          hc, fun candidate => ?_⟩
        · simp only [bind, Except.bind, hp]
          rfl
        · rw [← hagree]
          simp [Matcher.accepts_eq, hw, Group.accepts_eq]
      · refine .inr ⟨e, ?_, hc⟩
        simp only [bind, Except.bind, hp]
        rfl

/-! ## Matchers by their outlines -/

/-- A pattern compiles to the expressions of an outline's parts. -/
structure Outline.Compiles (o : Options) (pattern : String) (out : Outline) (rs : List Regex) :
    Prop where
  length : pattern.length ≤ o.maxLength
  outline : ∃ openers, Outline.ofPattern pattern = .ok (out, openers) ∧
    (o.strictBrackets = true → openers = [])
  regexes : Part.regexes? o.dot out.parts = some rs

/-- What a compiled pattern accepts. -/
def Outline.Accepts (o : Options) (out : Outline) (rs : List Regex) (s : List Char) : Prop :=
  if out.negated then ¬ SpansAll o.nocase s.toArray rs 0 s.length ∧ ∀ c ∈ s, c ≠ '\n'
  else (out.isGuarded → ¬ Fragment.Hides o.dot s.toArray 0) ∧
    SpansAll o.nocase s.toArray rs 0 s.length

section

variable {o : Options} {pattern : String}

/-- The rendering of a pattern that compiles, if nothing is added to it and `*` has its own text. -/
theorem Outline.Compiles.exists_rendering {out : Outline} {rs : List Regex}
    (h : Outline.Compiles o pattern out rs) (hlead : o.lead = none) (htrail : o.trail = none)
    (hstar : o.star = none) (hbar : ∀ p ∈ out.parts, p.isBar = false) :
    ∃ r, render o pattern = .ok r ∧ Renders o.dialect out r ∧
      ofChars? r.source.toList = some (out.regex o.dot rs) := by
  obtain ⟨openers, ho, hstrict⟩ := h.outline
  have hfollows := Outline.ofPattern_follows o.dialect pattern
  rw [ho] at hfollows
  obtain ⟨r, hr, hrenders, hunclosed⟩ := hfollows
  refine ⟨r, render_ok_iff.2 ⟨hr, fun hs => hunclosed.trans (hstrict hs)⟩, hrenders, ?_⟩
  rw [hrenders.ofChars?_source hstar hlead htrail hbar]
  exact congrArg (Option.map _) h.regexes

/-- The expression of a pattern that compiles. -/
theorem makeRegex_of_compiles {out : Outline} {rs : List Regex}
    (h : Outline.Compiles o pattern out rs) (hlead : o.lead = none) (htrail : o.trail = none)
    (hstar : o.star = none) (hbar : ∀ p ∈ out.parts, p.isBar = false) :
    ∃ c, makeRegex o pattern = .ok c ∧
      ∀ candidate, c.accepts candidate = true ↔ out.Accepts o rs candidate.toList := by
  obtain ⟨r, hrender, hrenders, hsource⟩ := h.exists_rendering hlead htrail hstar hbar
  refine ⟨⟨r.source, o.nocase, out.regex o.dot rs⟩, ?_, fun candidate => ?_⟩
  · unfold makeRegex checkLength CompiledRegex.ofRendering
    rw [if_pos h.length, hrender]
    simp only [bind, Except.bind, hsource]
  · obtain ⟨rs', hrs', hmatches⟩ := hrenders.matchesIn_iff hstar hlead htrail hbar hsource
    cases hrs'.symm.trans h.regexes
    rw [CompiledRegex.accepts, hmatches]
    simp only [Fragment.spans_dotGuard, true_and, List.size_toArray, List.mem_toArray]
    rfl

/-- A pattern that compiles has a matcher if it expands to itself. -/
theorem Matcher.exists_of_compiles {out : Outline} {rs : List Regex}
    (h : Outline.Compiles o pattern out rs) (hw : o.windows = false)
    (hexp : Group.expansions o pattern = .ok [pattern]) (hlead : o.lead = none)
    (htrail : o.trail = none) (hstar : o.star = none) (hbar : ∀ p ∈ out.parts, p.isBar = false) :
    ∃ m, Matcher.ofPattern o pattern = .ok m ∧
      ∀ candidate, m.accepts candidate = true ↔ out.Accepts o rs candidate.toList := by
  obtain ⟨c, hc, haccepts⟩ := makeRegex_of_compiles h hlead htrail hstar hbar
  rcases Matcher.ofPattern_agrees hw hexp with ⟨m, c', hm, hc', hagree⟩ | ⟨e, -, he⟩
  · cases hc.symm.trans hc'
    exact ⟨m, hm, fun candidate => by rw [hagree, haccepts]⟩
  · cases hc.symm.trans he

/-- A pattern with an expression compiles. -/
theorem compiles_of_makeRegex {c : CompiledRegex} (h : makeRegex o pattern = .ok c)
    (hlead : o.lead = none) (htrail : o.trail = none) (hstar : o.star = none)
    (hbar : ∀ out openers, Outline.ofPattern pattern = .ok (out, openers) →
      ∀ p ∈ out.parts, p.isBar = false) :
    ∃ out rs, Outline.Compiles o pattern out rs := by
  unfold makeRegex checkLength at h
  split at h
  · rename_i hlen
    cases hr : render o pattern with
    | error e => rw [hr] at h; cases h
    | ok r =>
      rw [hr] at h
      obtain ⟨hr, hstrict⟩ := render_ok_iff.1 hr
      have hc : CompiledRegex.ofRendering o r = .ok c := h
      have hfollows := Outline.ofPattern_follows o.dialect pattern
      cases ho : Outline.ofPattern pattern with
      | error e =>
        rw [ho] at hfollows
        cases hr.symm.trans hfollows
      | ok p =>
        obtain ⟨out, openers⟩ := p
        obtain ⟨hrenders, hunclosed⟩ := Outline.renders_of_ok hr ho
        have hsome := hrenders.ofChars?_source hstar hlead htrail (hbar out openers ho)
        rw [(CompiledRegex.ofRendering_ok hc).2] at hsome
        obtain ⟨rs, hrs, -⟩ := Option.map_eq_some_iff.1 hsome.symm
        exact ⟨out, rs, hlen, ⟨openers, ho, fun hs => hunclosed.symm.trans (hstrict hs)⟩, hrs⟩
  · cases h

/-- A pattern without brace sets and bars has a matcher if it compiles and may be expanded. -/
theorem Matcher.ofPattern_ok_iff (hw : o.windows = false) (hbrace : '{' ∉ pattern.toList)
    (hlead : o.lead = none) (htrail : o.trail = none) (hstar : o.star = none)
    (hbar : ∀ out openers, Outline.ofPattern pattern = .ok (out, openers) →
      ∀ p ∈ out.parts, p.isBar = false) :
    (∃ m, Matcher.ofPattern o pattern = .ok m) ↔
      (o.nobrace || 1 ≤ o.maxExpansions) = true ∧ ∃ out rs, Outline.Compiles o pattern out rs := by
  have hexp := Group.expansions_of_no_brace (o := o) hbrace
  cases hallowed : o.nobrace || 1 ≤ o.maxExpansions with
  | false =>
    rw [hallowed, if_neg (by decide)] at hexp
    refine iff_of_false ?_ fun h => Bool.false_ne_true h.1
    rintro ⟨m, hm⟩
    obtain ⟨ps, members, hps, -, -⟩ := Matcher.members_of_ok hm
    cases hexp.symm.trans hps
  | true =>
    rw [hallowed, if_pos rfl] at hexp
    rw [eq_self, true_and]
    rcases Matcher.ofPattern_agrees hw hexp with ⟨m, c, hm, hc, -⟩ | ⟨e, hm, he⟩
    · exact iff_of_true ⟨m, hm⟩ (compiles_of_makeRegex hc hlead htrail hstar hbar)
    · refine iff_of_false ?_ ?_
      · rintro ⟨m, hm'⟩
        cases hm.symm.trans hm'
      · rintro ⟨out, rs, hcompiles⟩
        obtain ⟨openers, ho, -⟩ := hcompiles.outline
        obtain ⟨c, hc, -⟩ := makeRegex_of_compiles hcompiles hlead htrail hstar (hbar out openers ho)
        cases hc.symm.trans he

/-- A pattern with a matcher and without brace sets stands for itself. -/
theorem Matcher.expansions_of_ok {m : Matcher} (hbrace : '{' ∉ pattern.toList)
    (hm : Matcher.ofPattern o pattern = .ok m) : Group.expansions o pattern = .ok [pattern] := by
  obtain ⟨ps, members, hps, -, -⟩ := Matcher.members_of_ok hm
  have hself := Group.expansions_of_no_brace (o := o) hbrace
  split at hself
  · exact hself
  · cases hself.symm.trans hps

/-- What the matcher of such a pattern accepts. -/
theorem Matcher.accepts_iff {m : Matcher} {out : Outline} {rs : List Regex}
    (hm : Matcher.ofPattern o pattern = .ok m) (h : Outline.Compiles o pattern out rs)
    (hw : o.windows = false) (hbrace : '{' ∉ pattern.toList)
    (hlead : o.lead = none) (htrail : o.trail = none) (hstar : o.star = none)
    (hbar : ∀ p ∈ out.parts, p.isBar = false) (candidate : String) :
    m.accepts candidate = true ↔ out.Accepts o rs candidate.toList := by
  obtain ⟨m', hm', haccepts⟩ :=
    Matcher.exists_of_compiles h hw (Matcher.expansions_of_ok hbrace hm) hlead htrail hstar hbar
  cases hm.symm.trans hm'
  exact haccepts candidate

/-- A flat glob that is not negated has a matcher, which accepts what its signs match from end to end. -/
theorem Matcher.exists_of_flat (hlen : pattern.length ≤ o.maxLength)
    (hflat : ∀ c ∈ pattern.toList, isFlat c = true) (hneg : pattern.toList.head? ≠ some '!')
    (hrel : ¬ ['.', '/'] <+: pattern.toList) (hexp : (o.nobrace || 1 ≤ o.maxExpansions) = true)
    (hw : o.windows = false) (hlead : o.lead = none) (htrail : o.trail = none)
    (hstar : o.star = none) :
    ∃ out m, Outline.ofPattern pattern = .ok (out, []) ∧ Matcher.ofPattern o pattern = .ok m ∧
      ∀ candidate, m.accepts candidate = true ↔
        (out.isGuarded → ¬ Fragment.Hides o.dot candidate.toList.toArray 0) ∧
          SpansAll o.nocase candidate.toList.toArray
            ((flatGlyphs {} pattern.toList).flatMap (Glyph.regexes o.dot)) 0
            candidate.toList.length := by
  have hrelative := Cursor.relative_eq_self hrel
  obtain ⟨out, hout, hnegated, hparts, -, -⟩ :=
    Outline.ofPattern_flat pattern (by rwa [hrelative]) (by rwa [hrelative])
  rw [hrelative] at hparts
  have hcompiles : Outline.Compiles o pattern out
      ((flatGlyphs {} pattern.toList).flatMap (Glyph.regexes o.dot)) :=
    ⟨hlen, ⟨[], hout, fun _ => rfl⟩, by rw [hparts]; exact Part.regexes?_glyphs _ _⟩
  have hbar : ∀ p ∈ out.parts, p.isBar = false := by
    rw [hparts]
    intro p hp
    obtain ⟨g, hg, rfl⟩ := List.mem_map.1 hp
    simpa [Part.isBar] using flatGlyphs_ne_bar hg
  have hself : Group.expansions o pattern = .ok [pattern] := by
    rw [Group.expansions_of_no_brace fun hb => absurd (hflat _ hb) (by decide), hexp, if_pos rfl]
  obtain ⟨m, hm, haccepts⟩ :=
    Matcher.exists_of_compiles hcompiles hw hself hlead htrail hstar hbar
  refine ⟨out, m, hout, hm, fun candidate => ?_⟩
  rw [haccepts, Outline.Accepts, hnegated, if_neg Bool.false_ne_true]

end

end PathGlob
