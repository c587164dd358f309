/-
Matchers with and without dots allowed. They are built from the same expansions, which fail alike, and
what a matcher accepts it still accepts where dots are allowed, unless an expansion negates something or
repeats a loop. A pattern without exclamation marks negates nothing, and without a `+` behind a `)` or a
`]` it repeats no loop; but an expansion may bring the two together.
-/
import PathGlob.Proofs.Brace.Length
import PathGlob.Proofs.Glob.Sigils
import PathGlob.Proofs.Matcher.Answered

namespace PathGlob

open Brace Regex

/-! ## Programs -/

/-- Two option sets that differ in their dialects refuse the same patterns. -/
theorem render_alike (o o' : Options) (hstrict : o.strictBrackets = o'.strictBrackets)
    (pattern : String) :
    Alike (fun r r' => ∃ out openers, Outline.ofPattern pattern = .ok (out, openers) ∧
        Outline.Renders o.dialect out r ∧ Outline.Renders o'.dialect out r')
      (render o pattern) (render o' pattern) := by
  have hfollows := Outline.ofPattern_follows o.dialect pattern
  have hfollows' := Outline.ofPattern_follows o'.dialect pattern
  unfold render
  cases ho : Outline.ofPattern pattern with
  | error e =>
    rw [ho] at hfollows hfollows'
    rw [hfollows, hfollows']
    rfl
  | ok p =>
    obtain ⟨out, openers⟩ := p
    rw [ho] at hfollows hfollows'
    obtain ⟨r, hr, hrenders, hunclosed⟩ := hfollows
    obtain ⟨r', hr', hrenders', hunclosed'⟩ := hfollows'
    rw [hr, hr']
    simp only [hunclosed, hunclosed', hstrict]
    split
    · split
      · rfl
      · exact ⟨out, _, rfl, hrenders, hrenders'⟩
    · exact ⟨out, _, rfl, hrenders, hrenders'⟩

/-- A program takes more if its expression does. -/
theorem program_alike {o o' : Options} {pattern : String} {r r' : Rendering}
    (hr : render o pattern = .ok r) (hr' : render o' pattern = .ok r') (hnocase : o.nocase = o'.nocase)
    (hwithin : Option.Rel Within (ofChars? r.source.toList) (ofChars? r'.source.toList)) :
    Alike (fun p p' => ∀ candidate, p.accepts candidate = true → p'.accepts candidate = true)
      (Program.compile o pattern r) (Program.compile o' pattern r') := by
  have hregex : Alike (fun c c' => ∀ candidate, CompiledRegex.accepts c candidate = true →
      CompiledRegex.accepts c' candidate = true)
      (CompiledRegex.ofRendering o r) (CompiledRegex.ofRendering o' r') := by
    unfold CompiledRegex.ofRendering
    generalize ofChars? r.source.toList = e at hwithin
    generalize ofChars? r'.source.toList = e' at hwithin
    cases hwithin with
    | none => rfl
    | some h =>
      intro candidate haccepts
      rw [CompiledRegex.accepts, ← hnocase]
      exact h.matchesIn haccepts
  rcases Program.compile_agrees hr with ⟨p, c, hp, hc, hagree⟩ | ⟨e, hp, hc⟩
  · rcases Program.compile_agrees hr' with ⟨p', c', hp', hc', hagree'⟩ | ⟨e', hp', hc'⟩
    · rw [hp, hp']
      rw [hc, hc'] at hregex
      intro candidate haccepts
      rw [hagree']
      exact hregex candidate (hagree candidate ▸ haccepts)
    · rw [hc, hc'] at hregex
      exact hregex.elim
  · rcases Program.compile_agrees hr' with ⟨p', c', hp', hc', hagree'⟩ | ⟨e', hp', hc'⟩
    · rw [hc, hc'] at hregex
      exact hregex.elim
    · rw [hp, hp']
      rw [hc, hc'] at hregex
      exact hregex

/-! ## Matchers -/

/-- Of two members the second is negated no more than the first, which is not, and accepts more. -/
def MemberWithin (q q' : Rendering × Program) : Prop :=
  q.1.negated = false ∧ q'.1.negated = false ∧
    ∀ candidate, q.2.accepts candidate = true → q'.2.accepts candidate = true

section Matchers

variable {o : Options} {pattern : String}

theorem member_alike (hlead : o.lead = none) (htrail : o.trail = none) (hstar : o.star = none)
    (hbang : '!' ∉ pattern.toList) (hloop : Outline.repeatsLoop pattern = false) :
    Alike MemberWithin (Group.member { o with dot := false } pattern)
      (Group.member { o with dot := true } pattern) := by
  have hrender := render_alike { o with dot := false } { o with dot := true } rfl pattern
  refine hrender.and_ok.bind ?_
  rintro r r' ⟨hr, hr', out, openers, hout, hrenders, hrenders'⟩
  obtain ⟨hnegated, hnegation⟩ := Outline.ofPattern_unnegated hbang hout
  have hpossessive : out.parts.any Part.isPossessive = false := by
    rw [Outline.repeatsLoop, hout] at hloop
    exact hloop
  have hwithin := hrenders.source_within hrenders' rfl rfl hlead htrail hstar hlead htrail hstar hnegated
    fun p hp => ⟨hnegation p hp, by simpa using List.any_eq_false.1 hpossessive p hp⟩
  refine (program_alike hr hr' rfl hwithin).bind fun p p' hp => ?_
  exact ⟨hrenders.negated.trans hnegated, hrenders'.negated.trans hnegated, hp⟩

/-- What a matcher tests positively decides what it accepts. -/
theorem Matcher.accepts_of_test {m m' : Matcher} (hw : m.windows = m'.windows)
    (htest : ∀ path, m.test .exhaustive path = true → m'.test .exhaustive path = true) (candidate : String)
    (haccepts : m.accepts candidate = true) : m'.accepts candidate = true := by
  rw [accepts_eq] at haccepts ⊢
  rw [← hw]
  split at haccepts
  · rw [if_pos ‹_›]
    simp only [Bool.or_eq_true, Option.any_eq_true] at haccepts ⊢
    exact haccepts.imp (htest _) fun ⟨path, hpath, h⟩ => ⟨path, hpath, htest _ h⟩
  · rw [if_neg ‹_›]
    exact htest _ haccepts

/-- Two option sets that differ in their dialects expand a pattern alike, and of the matchers the second
accepts more if its members do. -/
theorem Matcher.ofPattern_alike {o o' : Options} (hw : o.windows = o'.windows)
    (hlength : o.maxLength = o'.maxLength)
    (hexpansions : Group.expansions o pattern = Group.expansions o' pattern)
    (hmember : ∀ ps, Group.expansions o pattern = .ok ps → ∀ p ∈ ps,
      Alike MemberWithin (Group.member o p) (Group.member o' p)) :
    Alike (fun m m' => ∀ candidate, m.accepts candidate = true → m'.accepts candidate = true)
      (ofPattern o pattern) (ofPattern o' pattern) := by
  rw [ofPattern_eq, ofPattern_eq]
  have hgroup : Alike (fun g g' : Group => ∀ path, g.accepts path = true → g'.accepts path = true)
      (Group.compile o pattern) (Group.compile o' pattern) := by
    unfold Group.compile checkLength
    rw [← hexpansions, ← hlength]
    split
    · cases hps : Group.expansions o pattern with
      | error e => rfl
      | ok ps =>
        refine (mapM_alike (hmember ps hps)).bind fun members members' hwithin path haccepts => ?_
        obtain ⟨hpositive, hmore⟩ := (List.forall₂_and_left ..).1 hwithin
        obtain ⟨hpositive', -⟩ := (List.forall₂_and_left ..).1 hmore.flip
        rw [Group.accepts_of_all_positive hpositive, List.any_eq_true] at haccepts
        rw [Group.accepts_of_all_positive hpositive', List.any_eq_true]
        exact exists_of_forall₂ hwithin (fun q q' h => h.2.2 path) haccepts
    · rfl
  refine hgroup.map fun g g' hg => accepts_of_test hw fun path hpath => ?_
  simpa using hg path (by simpa using hpath)

/-- Expansion brings no exclamation mark in. -/
theorem Group.bang_notMem {ps : List String} (hps : Group.expansions o pattern = .ok ps)
    (hbang : '!' ∉ pattern.toList) {p : String} (hp : p ∈ ps) : '!' ∉ p.toList := by
  by_cases hbrace : o.nobrace = true
  · rw [Group.expansions, if_pos hbrace] at hps
    cases hps
    rwa [List.mem_singleton.1 hp]
  · rw [expansions_ok_iff (by simpa using hbrace)] at hps
    rw [eq_patterns_of_expand? hps] at hp
    obtain ⟨q, hq, rfl⟩ := List.mem_map.1 hp
    rw [String.toList_ofList]
    intro hm
    rcases mem_of_mem_expansions hq hm with hm | hle
    · exact hbang hm
    · exact absurd hle (by decide)

end Matchers

namespace Matcher

/-- Dots allowed only add matches. Of a pattern without exclamation marks in which no `+` directly
follows a `)` or a `]`, and of which no other expansion repeats a loop, the matchers are built or fail
together, and what is accepted without dots is accepted with them. -/
theorem accepts_dotted {o : Options} {pattern : String} (hlead : o.lead = none) (htrail : o.trail = none)
    (hstar : o.star = none) (hbang : '!' ∉ pattern.toList)
    (hplus : ∀ c ∈ [')', ']'], ¬ [c, '+'] <:+: pattern.toList)
    (hloop : ∀ ps, Group.expansions o pattern = .ok ps →
      ∀ p ∈ ps, p ≠ pattern → Outline.repeatsLoop p = false) :
    Alike (fun m m' => ∀ candidate, m.accepts candidate = true → m'.accepts candidate = true)
      (ofPattern { o with dot := false } pattern) (ofPattern { o with dot := true } pattern) := by
  refine ofPattern_alike rfl rfl rfl fun ps hps p hp => ?_
  have hps : Group.expansions o pattern = .ok ps := hps
  refine member_alike hlead htrail hstar (Group.bang_notMem hps hbang hp) ?_
  by_cases hself : p = pattern
  · rw [hself]
    exact Outline.repeatsLoop_eq_false hplus
  · exact hloop ps hps p hp hself

/-- Dots allowed only add matches, as far as searches are answered. Of a pattern without exclamation marks
in which no `+` directly follows a `)` or a `]`, and of which no other expansion repeats a loop, the matchers
are built or fail together. What is accepted without dots is accepted with them, unless with them a search
is given up. -/
theorem isMatch_dotted {o : Options} {pattern : String} (hlead : o.lead = none) (htrail : o.trail = none)
    (hstar : o.star = none) (hbang : '!' ∉ pattern.toList)
    (hplus : ∀ c ∈ [')', ']'], ¬ [c, '+'] <:+: pattern.toList)
    (hloop : ∀ ps, Group.expansions o pattern = .ok ps →
      ∀ p ∈ ps, p ≠ pattern → Outline.repeatsLoop p = false) :
    Alike (fun m m' => ∀ (e : Engine) (candidate : String), m'.isAnswered e candidate = true →
        m.isMatch e candidate = true → m'.isMatch e candidate = true)
      (ofPattern { o with dot := false } pattern) (ofPattern { o with dot := true } pattern) := by
  refine (accepts_dotted hlead htrail hstar hbang hplus hloop).mono fun m m' hmore e candidate => ?_
  intro hanswered hmatch
  rw [isMatch_of_isAnswered hanswered]
  exact hmore candidate (accepts_of_isMatch hmatch)

/-- Guards, a question mark, a globstar and a loop in a pattern of several expansions. -/
theorem isMatch_dotted_alternatives : ∃ m m', ofPattern {} "{a,**}/?+(*.c)" = .ok m ∧
    ofPattern { dot := true } "{a,**}/?+(*.c)" = .ok m' ∧ m.isMatch .standard "b/xx.c" = true ∧
    m'.isMatch .standard "b/xx.c" = true ∧ m.isMatch .standard "b/.x.c" = false ∧
    m'.isMatch .standard "b/.x.c" = true := by
  obtain ⟨m, hm, hverdicts⟩ : ∃ m, ofPattern {} "{a,**}/?+(*.c)" = .ok m ∧
      (m.isMatch .standard "b/xx.c" && !m.isMatch .standard "b/.x.c") = true :=
    exists_ok_of_any (by decide +kernel)
  rw [Bool.and_eq_true, Bool.not_eq_true'] at hverdicts
  have hloop : ∀ ps, Group.expansions {} "{a,**}/?+(*.c)" = .ok ps →
      ∀ p ∈ ps, p ≠ "{a,**}/?+(*.c)" → Outline.repeatsLoop p = false := by
    have hall : ((Group.expansions {} "{a,**}/?+(*.c)").toOption.all fun ps =>
      ps.all (!Outline.repeatsLoop ·)) = true := by decide +kernel
    intro ps hps p hp _
    rw [hps] at hall
    simpa using List.all_eq_true.1 hall p hp
  have hplus : ∀ c ∈ [')', ']'], ¬ [c, '+'] <:+: "{a,**}/?+(*.c)".toList := by
    simp [List.infix_cons_iff]
  obtain ⟨m', hm', hmore⟩ := (isMatch_dotted (o := {}) rfl rfl rfl (by simp) hplus hloop).exists_ok hm
  obtain ⟨m'', hm'', hdotted⟩ : ∃ m, ofPattern { dot := true } "{a,**}/?+(*.c)" = .ok m ∧
      (m.isMatch .standard "b/.x.c" && m.isAnswered .standard "b/xx.c") = true :=
    exists_ok_of_any (by decide +kernel)
  cases hm'.symm.trans hm''
  rw [Bool.and_eq_true] at hdotted
  exact ⟨m, m', hm, hm', hverdicts.1, hmore _ _ hdotted.2 hverdicts.1, hverdicts.2, hdotted.1⟩

/-- With dots an alternative full of stars is tried on a component that begins with a dot, and the engine
gives up before it comes to the alternative that matches. -/
theorem not_isMatch_dotted_stars :
    let pattern := "@(x/*a*a*a*a*a*a*a*b/*|x/.*)"
    let candidate := "x/.aaaaaaaaaaaaaaaaaaaaaaaaa"
    '!' ∉ pattern.toList ∧ (∀ c ∈ [')', ']'], ¬ [c, '+'] <:+: pattern.toList) ∧
      ∃ m m', ofPattern {} pattern = .ok m ∧ ofPattern { dot := true } pattern = .ok m' ∧
        m.isMatch .standard candidate = true ∧ m'.isMatch .standard candidate = false := by
  refine ⟨by simp, by simp [List.infix_cons_iff], ?_⟩
  obtain ⟨m, hm, hmatch⟩ : ∃ m, ofPattern {} "@(x/*a*a*a*a*a*a*a*b/*|x/.*)" = .ok m ∧
      m.isMatch .standard "x/.aaaaaaaaaaaaaaaaaaaaaaaaa" = true :=
    exists_ok_of_any (by decide +kernel)
  obtain ⟨m', hm', hmatch'⟩ : ∃ m, ofPattern { dot := true } "@(x/*a*a*a*a*a*a*a*b/*|x/.*)" = .ok m ∧
      m.isMatch .standard "x/.aaaaaaaaaaaaaaaaaaaaaaaaa" = false :=
    exists_of_givesUp (by decide) (by decide) ((Group.expansions_of_no_brace (by simp)).trans rfl)
      rfl rfl rfl rfl (by decide +kernel)
  exact ⟨m, m', hm, hm', hmatch, hmatch'⟩

end Matcher
end PathGlob
