/-
A dot in front of a pattern, and the same dot escaped. Both patterns are expanded and compiled alike, and
the parts of their expansions are the same up to what globstars say of dots. But an escaped dot is not taken
for the dot that a component begins with, so the first component may be guarded in spite of it, and then
the expansion accepts nothing at all.
-/
import PathGlob.Proofs.Glob.Components
import PathGlob.Proofs.Glob.Preceded
import PathGlob.Proofs.Glob.Unhidden
import PathGlob.Proofs.Matcher.Complement
import PathGlob.Proofs.Matcher.Expanded
import PathGlob.Proofs.Matcher.Guarded

namespace PathGlob

open Regex

/-! ## Expansions -/

/-- A sign in front of a pattern stands in front of each of its expansions. -/
theorem Group.expansions_sign {o : Options} (s : Brace.Sign) (pattern : String) :
    expansions o (String.ofList s.text ++ pattern) =
      (expansions o pattern).map (·.map (String.ofList s.text ++ ·)) := by
  have hpatterns : Brace.patterns (String.ofList s.text ++ pattern) =
      (Brace.patterns pattern).map (String.ofList s.text ++ ·) := by
    unfold Brace.patterns
    rw [String.toList_append, String.toList_ofList, Brace.expansions_behind (Brace.firstSet?_sign s),
      List.map_map, List.map_map]
    apply List.map_congr_left
    intro q _
    simp
  unfold expansions
  split
  · rfl
  · rw [Brace.expand?_eq, Brace.expand?_eq, hpatterns, List.length_map]
    by_cases hle : (Brace.patterns pattern).length ≤ o.maxExpansions
    · simp [hle, Except.map]
    · simp [hle, Except.map]

/-! ## Parts without dots -/

namespace Part

/-- Whether parts with bars are an expression depends on each of them alone. -/
theorem isSome_branches? (dot : Bool) (ps : List Part) :
    (branches? dot ps).isSome = ps.all fun p => p.isBar || (p.operands? dot).isSome := by
  induction ps with
  | nil => rfl
  | cons p ps ih =>
    rw [branches?, List.all_cons, ← ih]
    cases branches? dot ps with
    | none => simp
    | some b => cases p.isBar <;> simp

theorem isSome_branches?_undotted (dot : Bool) (ps : List Part) :
    (branches? dot (undotted ps)).isSome = (branches? dot ps).isSome := by
  rw [isSome_branches?, isSome_branches?, undotted, List.all_map]
  simp only [Function.comp_def, isBar_mapDots, isSome_operands?_mapDots]

/-- Behind the start of a text without hidden components parts match what they match without dots. -/
theorem exists_spansAll_undotted {nocase : Bool} {s : Array Char} (hs : Path.IsUnhidden s) (dot : Bool)
    (ps : List Part) {i j : Nat} (hi : IsInside s.size i) :
    (∃ rs, regexes? dot (undotted ps) = some rs ∧ SpansAll nocase s rs i j) ↔
      ∃ rs, regexes? dot ps = some rs ∧ SpansAll nocase s rs i j := by
  have hrel : Option.Rel (List.Forall₂ (Agrees nocase s)) (regexes? dot ps)
      (regexes? dot (ps.map (·.mapDots fun _ => false))) := regexes?_agrees hs _ dot ps
  unfold undotted
  generalize regexes? dot ps = r at hrel
  generalize regexes? dot (ps.map (·.mapDots fun _ => false)) = r' at hrel
  cases hrel with
  | none => rfl
  | some hrs => simp only [Option.some.injEq, exists_eq_left', spansAll_congr hrs hi]

end Part

/-! ## Expansions alone -/

namespace Outline

/-- Whether the first component of a pattern gets a guard. -/
def hasGuard (pattern : String) : Bool := (ofPattern pattern).toOption.any (·.1.isGuarded)

end Outline

section

variable {o : Options} {pattern : String}

/-- A pattern and the same with its first dot escaped are rendered alike or refused alike. -/
theorem render_escaped_dot (o : Options) (hsep : pattern.toList.head? ≠ some '/') :
    Alike (fun r r' => ∃ out out', Outline.EscapesDot out out' ∧ Outline.Renders o.dialect out r ∧
        Outline.Renders o.dialect out' r')
      (render o ("." ++ pattern)) (render o ("\\." ++ pattern)) := by
  have hfollows := Outline.ofPattern_follows o.dialect ("." ++ pattern)
  have hfollows' := Outline.ofPattern_follows o.dialect ("\\." ++ pattern)
  unfold render
  rcases (Outline.ofPattern_escaped_dot hsep).cases with ⟨p, p', ho, hn, hescapes, hopeners⟩ | ⟨e, ho, hn⟩
  · rw [ho] at hfollows
    rw [hn] at hfollows'
    obtain ⟨r, hr, hrenders, hunclosed⟩ := hfollows
    obtain ⟨r', hr', hrenders', hunclosed'⟩ := hfollows'
    rw [hr, hr']
    simp only [hunclosed, hunclosed', hopeners]
    split
    · split
      · rfl
      · exact ⟨_, _, hescapes, hrenders, hrenders'⟩
    · exact ⟨_, _, hescapes, hrenders, hrenders'⟩
  · rw [ho] at hfollows
    rw [hn] at hfollows'
    rw [hfollows, hfollows']
    rfl

theorem Outline.EscapesDot.undotted_parts {out out' : Outline} (h : out.EscapesDot out') :
    Part.undotted out'.parts = Part.undotted out.parts := by
  obtain ⟨ps, qs, hps, hqs, hsame⟩ := h.parts
  rw [hps, hqs]
  exact congrArg (_ :: ·) hsame

theorem Outline.Renders.isSome_source {d : Dialect} {out : Outline} {r : Rendering} (h : Renders d out r)
    (hstar : d.star = none) (hlead : d.lead = none) (htrail : d.trail = none)
    (hnegated : out.negated = false) :
    (ofChars? r.source.toList).isSome = (Part.branches? d.dot (Part.undotted out.parts)).isSome := by
  have hsource := h.spans_source hstar hlead htrail (h.negated.trans hnegated)
  rw [Part.isSome_branches?_undotted]
  cases hb : Part.branches? d.dot out.parts with
  | none =>
    rw [hb] at hsource
    rw [hsource]
    rfl
  | some b =>
    rw [hb] at hsource
    obtain ⟨e, he, -⟩ := hsource
    rw [he]
    rfl

/-- Of a pattern and the same with its first dot escaped neither is negated, and both are compiled or fail
alike. -/
theorem member_escaped_dot (hlead : o.lead = none) (htrail : o.trail = none) (hstar : o.star = none)
    (hsep : pattern.toList.head? ≠ some '/') :
    Alike (fun q q' => q.1.negated = false ∧ q'.1.negated = false) (Group.member o ("." ++ pattern))
      (Group.member o ("\\." ++ pattern)) := by
  refine (render_escaped_dot o hsep).and_ok.bind ?_
  rintro r r' ⟨hr, hr', out, out', hescapes, hrenders, hrenders'⟩
  obtain ⟨hpositive, hpositive'⟩ := hescapes.positive
  have hsome : (ofChars? r.source.toList).isSome = (ofChars? r'.source.toList).isSome := by
    rw [hrenders.isSome_source hstar hlead htrail hpositive,
      hrenders'.isSome_source hstar hlead htrail hpositive', hescapes.undotted_parts]
  have hregex : Alike (fun _ _ => True) (CompiledRegex.ofRendering o r) (CompiledRegex.ofRendering o r') := by
    unfold CompiledRegex.ofRendering
    generalize ofChars? r.source.toList = e at hsome
    generalize ofChars? r'.source.toList = e' at hsome
    cases e <;> cases e' <;> trivial
  have hprogram : Alike (fun _ _ => True) (Program.compile o ("." ++ pattern) r)
      (Program.compile o ("\\." ++ pattern) r') := by
    rcases Program.compile_agrees hr with ⟨p, c, hp, hc, -⟩ | ⟨e, hp, hc⟩ <;>
      rcases Program.compile_agrees hr' with ⟨p', c', hp', hc', -⟩ | ⟨e', hp', hc'⟩ <;>
      rw [hc, hc'] at hregex <;> rw [hp, hp'] <;> exact hregex
  exact hprogram.bind fun _ _ _ =>
    ⟨hrenders.negated.trans hpositive, hrenders'.negated.trans hpositive'⟩

end

/-! ## What an expansion accepts -/

namespace Matcher

/-- What a pattern without loose bars accepts by itself. -/
theorem acceptsAlone_iff_accepts {e : String} {out : Outline} {openers : List Char}
    (hlength : e.length ≤ 65536) (ho : Outline.ofPattern e = .ok (out, openers))
    (hbar : ∀ p ∈ out.parts, p.isBar = false) (candidate : String) : AcceptsAlone {} e candidate ↔
      ∃ rs, Part.regexes? false out.parts = some rs ∧ out.Accepts {} rs candidate.toList := by
  have hexp : Group.expansions { nobrace := true } e = .ok [e] := rfl
  constructor
  · rintro ⟨m, hm, haccepts⟩
    rcases ofPattern_agrees rfl hexp with ⟨m', c, hm', hc, -⟩ | ⟨f, hf, -⟩
    · obtain ⟨out', rs, hcompiles⟩ := compiles_of_makeRegex hc rfl rfl rfl fun out' openers' ho' => by
        cases ho.symm.trans ho'
        exact hbar
      obtain ⟨openers', ho', -⟩ := hcompiles.outline
      cases ho.symm.trans ho'
      obtain ⟨m'', hm'', hiff⟩ := exists_of_compiles hcompiles rfl hexp rfl rfl rfl hbar
      cases hm.symm.trans hm''
      exact ⟨rs, hcompiles.regexes, (hiff candidate).1 haccepts⟩
    · cases hm.symm.trans hf
  · rintro ⟨rs, hrs, haccepts⟩
    have hcompiles : Outline.Compiles { nobrace := true } e out rs :=
      ⟨hlength, ⟨openers, ho, fun h => absurd h Bool.false_ne_true⟩, hrs⟩
    obtain ⟨m, hm, hiff⟩ := exists_of_compiles hcompiles rfl hexp rfl rfl rfl hbar
    exact ⟨m, hm, (hiff candidate).2 haccepts⟩

/-- What begins with a dot is accepted if there is no guard and the rest is matched behind the dot. -/
theorem acceptsAlone_dot {e : String} {out : Outline} {openers : List Char} {ps : List Part}
    (hlength : e.length ≤ 65536) (ho : Outline.ofPattern e = .ok (out, openers))
    (hbar : ∀ p ∈ out.parts, p.isBar = false) (hnegated : out.negated = false)
    (hparts : out.parts = .glyph (.char '.') :: ps) (candidate : String) :
    AcceptsAlone {} e candidate ↔ out.isGuarded = false ∧ candidate.toList.head? = some '.' ∧
      ∃ rs, Part.regexes? false ps = some rs ∧
        SpansAll false candidate.toList.toArray rs 1 candidate.toList.length := by
  have hregexes : Part.regexes? false out.parts =
      (Part.regexes? false ps).map (.char '.' :: ·) := by
    rw [hparts, Part.regexes?_cons]
    rfl
  have hspans (rs : List Regex) :
      SpansAll false candidate.toList.toArray (.char '.' :: rs) 0 candidate.toList.length ↔
        candidate.toList.head? = some '.' ∧
          SpansAll false candidate.toList.toArray rs 1 candidate.toList.length := by
    simp only [spansAll_cons, Fragment.spans_sign (.inl rfl), List.getElem?_toArray,
      ← List.head?_eq_getElem?]
    constructor
    · rintro ⟨_, ⟨hhead, rfl⟩, hrest⟩
      exact ⟨hhead, hrest⟩
    · rintro ⟨hhead, hrest⟩
      exact ⟨1, ⟨hhead, rfl⟩, hrest⟩
  rw [acceptsAlone_iff_accepts hlength ho hbar, hregexes]
  simp only [Option.map_eq_some_iff, Outline.Accepts, hnegated, Bool.false_eq_true, if_false]
  constructor
  · rintro ⟨_, ⟨rs, hrs, rfl⟩, hguard, hmatch⟩
    obtain ⟨hhead, hrest⟩ := (hspans rs).1 hmatch
    refine ⟨?_, hhead, rs, hrs, hrest⟩
    rw [← Bool.not_eq_true]
    intro hguarded
    apply hguard hguarded
    rw [Fragment.hides_false, List.getElem?_toArray, ← List.head?_eq_getElem?]
    exact hhead
  · rintro ⟨hguarded, hhead, rs, hrs, hrest⟩
    refine ⟨_, ⟨rs, hrs, rfl⟩, ?_, (hspans rs).2 ⟨hhead, hrest⟩⟩
    rw [hguarded]
    exact fun h => absurd h Bool.false_ne_true

theorem length_dots {q : String} {n : Nat} (h : q.length + 2 ≤ n) :
    ("." ++ q).length ≤ n ∧ ("\\." ++ q).length ≤ n := by
  have hone : ".".length = 1 := rfl
  have htwo : "\\.".length = 2 := rfl
  rw [String.length_append, String.length_append, hone, htwo]
  omega

/-- Neither spelling has loose bars if what stands behind the dot has none. -/
theorem hasLooseBar_dot {q : String} (hsep : q.toList.head? ≠ some '/')
    (hloose : Scope.hasLooseBar .outside q.toList = false) :
    Scope.hasLooseBar .outside (Cursor.relative ("." ++ q).toList) = false ∧
      Scope.hasLooseBar .outside (Cursor.relative ("\\." ++ q).toList) = false := by
  have hdot : Scope.read .outside '.' q.toList = .ok (.outside, q.toList) :=
    Scope.read_plain rfl rfl rfl (by decide)
  have hescape : Scope.read .outside '\\' ('.' :: q.toList) = .ok (.outside, q.toList) :=
    Scope.read_escape rfl
  rw [String.toList_append, String.toList_append]
  constructor
  · refine (congrArg _ (Cursor.relative_eq_self (Cursor.not_isPrefix_dot hsep))).trans ?_
    rw [Scope.hasLooseBar_of_ok hdot, hloose]
    rfl
  · refine (Scope.hasLooseBar_of_ok hescape).trans ?_
    rw [hloose]
    rfl

theorem not_acceptsAlone_of_error {e : String} {f : MissingOpening} (hlength : e.length ≤ 65536)
    (ho : Outline.ofPattern e = .error f) (candidate : String) : ¬ AcceptsAlone {} e candidate := by
  rw [acceptsAlone_iff rfl hlength]
  rintro ⟨q, hq, -⟩
  have hfollows := Outline.ofPattern_follows {} e
  rw [ho] at hfollows
  cases (render_ok_iff.1 (Group.member_ok_iff.1 hq).1).1.symm.trans hfollows

/-- An expansion with an escaped dot accepts by itself what the one with the bare dot does, unless its
first component is guarded or another component is hidden. -/
theorem acceptsAlone_escaped_dot {q : String} (hlength : q.length + 2 ≤ 65536)
    (hsep : q.toList.head? ≠ some '/') (hloose : Scope.hasLooseBar .outside q.toList = false)
    (candidate : String) :
    (AcceptsAlone {} ("\\." ++ q) candidate → Outline.hasGuard ("\\." ++ q) = false) ∧
    (Path.IsUnhidden candidate.toList.toArray → (AcceptsAlone {} ("\\." ++ q) candidate ↔
      Outline.hasGuard ("\\." ++ q) = false ∧ AcceptsAlone {} ("." ++ q) candidate)) := by
  obtain ⟨hlengthDot, hlengthEscaped⟩ := length_dots hlength
  unfold Outline.hasGuard
  rcases (Outline.ofPattern_escaped_dot hsep).cases with
    ⟨⟨out, openers⟩, ⟨out', openers'⟩, ho, hn, hescapes, -⟩ | ⟨f, ho, hn⟩
  · obtain ⟨⟨hpositive, hpositive'⟩, ps, qs, hps, hqs, hundotted⟩ := hescapes
    obtain ⟨htight, htight'⟩ := hasLooseBar_dot hsep hloose
    -- only the bare dot is sure to keep the guard away
    have hunguarded : out.isGuarded = false := by
      refine Outline.not_isGuarded_of_dot ?_ ?_ ho
      · rw [String.toList_append]
        rfl
      · rw [String.toList_append]
        exact Cursor.not_isPrefix_dot hsep
    rw [acceptsAlone_dot hlengthDot ho (Outline.isBar_of_tight htight ho) hpositive hps,
      acceptsAlone_dot hlengthEscaped hn (Outline.isBar_of_tight htight' hn) hpositive' hqs, hunguarded, hn]
    refine ⟨fun h => h.1, fun hhidden => and_congr_right fun _ => ?_⟩
    rw [eq_self, true_and]
    refine and_congr_right fun hhead => ?_
    have hinside : IsInside candidate.toList.toArray.size 1 := by
      obtain ⟨rest, hrest⟩ := List.head?_eq_some_iff.1 hhead
      rw [List.size_toArray, hrest, List.length_cons]
      exact ⟨Nat.one_pos, Nat.succ_le_succ (Nat.zero_le _)⟩
    -- behind the dot both match what they match without what globstars say of dots
    rw [← Part.exists_spansAll_undotted hhidden false qs hinside, hundotted,
      Part.exists_spansAll_undotted hhidden false ps hinside]
  · have hno := not_acceptsAlone_of_error hlengthDot ho candidate
    have hno' := not_acceptsAlone_of_error hlengthEscaped hn candidate
    exact ⟨fun h => absurd h hno', fun _ => iff_of_false hno' fun h => hno h.2⟩

/-! ## Patterns -/

theorem isUnhidden_of_not_isInfix {cs : List Char} (h : ¬ ['/', '.'] <:+: cs) :
    Path.IsUnhidden cs.toArray := by
  intro i hsep hdot
  rw [List.getElem?_toArray] at hsep hdot
  obtain ⟨hi, hsep⟩ := List.getElem?_eq_some_iff.1 hsep
  obtain ⟨hi', hdot⟩ := List.getElem?_eq_some_iff.1 hdot
  have hdrop : cs.drop i = ['/', '.'] ++ cs.drop (i + 2) := by
    rw [List.drop_eq_getElem_cons hi, hsep, List.drop_eq_getElem_cons hi', hdot]
    rfl
  apply h
  exact ⟨cs.take i, cs.drop (i + 2), by rw [List.append_assoc, ← hdrop, List.take_append_drop]⟩

/-- A matcher of which no expansion is negated accepts what one of them accepts by itself. -/
theorem accepts_positive_group {pattern front : String} {qs : List String}
    {members : List (Rendering × Program)} (hlength : (front ++ pattern).length ≤ 65536)
    (hqs : Brace.expand? 4096 (front ++ pattern) = some (qs.map (front ++ ·)))
    (hmembers : (qs.map (front ++ ·)).mapM (Group.member {}) = .ok members)
    (hpositive : ∀ x ∈ members, x.1.negated = false) (candidate : String) :
    accepts { windows := false, groups := [{ pattern := front ++ pattern, members }] } candidate = true ↔
      ∃ q ∈ qs, AcceptsAlone {} (front ++ q) candidate := by
  have hlengths : ∀ e ∈ qs.map (front ++ ·), e.length ≤ 65536 := fun e he =>
    Nat.le_trans (Brace.length_le_of_mem_expand? hqs he) hlength
  have hne : members ≠ [] := by
    rw [← List.length_pos_iff, length_of_mapM_ok hmembers, List.length_pos_iff]
    exact Brace.ne_nil_of_expand? hqs
  obtain ⟨x, hx⟩ := List.exists_mem_of_ne_nil members hne
  refine ((accepts_group_iff rfl hlengths hmembers candidate).1 ⟨x, hx, hpositive x hx⟩).trans ?_
  simp only [List.mem_map, exists_exists_and_eq_and]

/-- An escaped dot in front of a pattern. It is expanded and compiled, or refused, as the bare dot is. With
the bare dot a pattern accepts what one of its expansions does. With the escaped dot it accepts nothing
through an expansion whose first component is guarded in spite of the dot; through the others it accepts the
same, but for candidates with a hidden component behind the first. -/
theorem accepts_escaped_dot (pattern : String) (hlength : pattern.length + 2 ≤ 65536)
    (hsep : ∀ qs, Group.expansions {} pattern = .ok qs → ∀ q ∈ qs, q.toList.head? ≠ some '/') :
    Alike (fun m m' => ∀ qs, Group.expansions {} pattern = .ok qs →
        (∀ q ∈ qs, Scope.hasLooseBar .outside q.toList = false) → ∀ candidate,
          (m.accepts candidate = true ↔ ∃ q ∈ qs, AcceptsAlone {} ("." ++ q) candidate) ∧
          (m'.accepts candidate = true → ∃ q ∈ qs, Outline.hasGuard ("\\." ++ q) = false) ∧
          (¬ ['/', '.'] <:+: candidate.toList → (m'.accepts candidate = true ↔
            ∃ q ∈ qs, Outline.hasGuard ("\\." ++ q) = false ∧ AcceptsAlone {} ("." ++ q) candidate)))
      (ofPattern {} ("." ++ pattern)) (ofPattern {} ("\\." ++ pattern)) := by
  obtain ⟨hlengthDot, hlengthEscaped⟩ := length_dots hlength
  have hdot : Group.expansions {} ("." ++ pattern) =
      (Group.expansions {} pattern).map (·.map ("." ++ ·)) :=
    Group.expansions_sign (.plain '.' (by decide)) pattern
  have hescaped : Group.expansions {} ("\\." ++ pattern) =
      (Group.expansions {} pattern).map (·.map ("\\." ++ ·)) :=
    Group.expansions_sign (.escaped '.') pattern
  cases hqs : Group.expansions {} pattern with
  | error f =>
    rw [hqs] at hdot hescaped
    rw [ofPattern_eq, ofPattern_eq, Group.compile, Group.compile, checkLength, if_pos hlengthDot,
      checkLength, if_pos hlengthEscaped, hdot, hescaped]
    rfl
  | ok qs =>
    rw [hqs] at hdot hescaped
    have hexpand : Brace.expand? 4096 ("." ++ pattern) = some (qs.map ("." ++ ·)) :=
      (Group.expansions_ok_iff rfl).1 hdot
    have hexpand' : Brace.expand? 4096 ("\\." ++ pattern) = some (qs.map ("\\." ++ ·)) :=
      (Group.expansions_ok_iff rfl).1 hescaped
    rw [ofPattern_expanded rfl hlengthDot hexpand, ofPattern_expanded rfl hlengthEscaped hexpand']
    have hmembers : Alike (List.Forall₂ fun x x' => x.1.negated = false ∧ x'.1.negated = false)
        ((qs.map ("." ++ ·)).mapM (Group.member {})) ((qs.map ("\\." ++ ·)).mapM (Group.member {})) := by
      rw [List.mapM_map, List.mapM_map]
      exact mapM_alike fun q hq => member_escaped_dot rfl rfl rfl (hsep qs hqs q hq)
    refine hmembers.and_ok.map ?_
    rintro members members' ⟨hms, hms', hboth⟩ qs' hqs' hloose candidate
    cases hqs'
    have hpositive := ((List.forall₂_and_left ..).1 hboth).1
    have hpositive' := ((List.forall₂_and_left ..).1 (hboth.flip.imp fun _ _ h => h.symm)).1
    have hlengths : ∀ q ∈ qs, q.length + 2 ≤ 65536 := by
      intro q hq
      have htwo : "\\.".length = 2 := rfl
      have hle := Brace.length_le_of_mem_expand? hexpand' (List.mem_map_of_mem hq)
      rw [String.length_append, htwo] at hle
      omega
    have hbare := accepts_positive_group hlengthDot hexpand hms hpositive candidate
    have hspelled := accepts_positive_group hlengthEscaped hexpand' hms' hpositive' candidate
    have halone (q : String) (hq : q ∈ qs) :=
      acceptsAlone_escaped_dot (hlengths q hq) (hsep qs hqs q hq) (hloose q hq) candidate
    refine ⟨hbare, fun haccepts => ?_, fun hhidden => ?_⟩
    · obtain ⟨q, hq, haccepts⟩ := hspelled.1 haccepts
      exact ⟨q, hq, (halone q hq).1 haccepts⟩
    · rw [hspelled]
      exact exists_congr fun q => and_congr_right fun hq =>
        (halone q hq).2 (isUnhidden_of_not_isInfix hhidden)

/-- A globstar keeps the first component of one expansion from a guard, and that of the other has one. -/
theorem accepts_escaped_dot_alternatives :
    "\x7ba**,b\x7d".length + 2 ≤ 65536 ∧
    Group.expansions {} "\x7ba**,b\x7d" = .ok ["a**", "b"] ∧
    (∀ q ∈ ["a**", "b"], q.toList.head? ≠ some '/' ∧ Scope.hasLooseBar .outside q.toList = false) ∧
    Outline.hasGuard "\\.a**" = false ∧ Outline.hasGuard "\\.b" = true ∧
    ∃ m m', ofPattern {} ".\x7ba**,b\x7d" = .ok m ∧ ofPattern {} "\\.\x7ba**,b\x7d" = .ok m' ∧
      m.accepts ".ac" = true ∧ m'.accepts ".ac" = true ∧ m.accepts ".b" = true ∧
      m'.accepts ".b" = false := by
  have hqs : Group.expansions {} "\x7ba**,b\x7d" = .ok ["a**", "b"] := by decide +kernel
  have hplain : ∀ q ∈ ["a**", "b"],
      q.toList.head? ≠ some '/' ∧ Scope.hasLooseBar .outside q.toList = false := by decide +kernel
  have hguards : Outline.hasGuard "\\.a**" = false ∧ Outline.hasGuard "\\.b" = true := by
    decide +kernel
  refine ⟨by decide, hqs, hplain, hguards.1, hguards.2, ?_⟩
  obtain ⟨m, hm, haccepts⟩ : ∃ m, ofPattern {} ".\x7ba**,b\x7d" = .ok m ∧
      (m.accepts ".ac" && m.accepts ".b") = true := exists_ok_of_any (by decide +kernel)
  rw [Bool.and_eq_true] at haccepts
  have hsame := accepts_escaped_dot "\x7ba**,b\x7d" (by decide) fun qs h q hq => by
    cases hqs.symm.trans h
    exact (hplain q hq).1
  obtain ⟨m', hm', hverdicts⟩ := hsame.exists_ok hm
  have hverdicts := hverdicts _ hqs fun q hq => (hplain q hq).2
  obtain ⟨-, -, hboth⟩ := hverdicts ".ac"
  obtain ⟨-, -, hnone⟩ := hverdicts ".b"
  refine ⟨m, m', hm, hm', haccepts.1, ?_, haccepts.2, ?_⟩
  · have halone : AcceptsAlone {} ("." ++ "a**") ".ac" := exists_ok_of_any (by decide +kernel)
    exact (hboth (by decide)).2 ⟨"a**", by simp, hguards.1, halone⟩
  · have hother : (ofPattern { nobrace := true } ("." ++ "a**")).toOption.all (!·.accepts ".b") = true := by
      decide +kernel
    rw [← Bool.not_eq_true, hnone (by decide)]
    rintro ⟨q, hq, hguard, m'', hm'', halone⟩
    rcases List.mem_cons.1 hq with rfl | hq
    · rw [hm'', Except.toOption, Option.all_some, halone] at hother
      cases hother
    · rw [List.mem_singleton.1 hq] at hguard
      cases hguards.2.symm.trans hguard

/-- In front of a single letter an escaped dot leaves nothing to be accepted. -/
theorem not_accepts_escaped_dot :
    "a".toList.head? ≠ some '/' ∧ "a".length + 2 ≤ 65536 ∧
    ∃ m m', ofPattern {} ".a" = .ok m ∧ ofPattern {} "\\.a" = .ok m' ∧
      m.accepts ".a" = true ∧ m'.accepts ".a" = false := by
  refine ⟨by decide, by decide, ?_⟩
  obtain ⟨m, hm, haccepts⟩ : ∃ m, ofPattern {} ".a" = .ok m ∧ m.accepts ".a" = true :=
    exists_ok_of_any (by decide +kernel)
  obtain ⟨m', hm', haccepts'⟩ : ∃ m, ofPattern {} "\\.a" = .ok m ∧ (!m.accepts ".a") = true :=
    exists_ok_of_any (by decide +kernel)
  exact ⟨m, m', hm, hm', haccepts, by simpa using haccepts'⟩

end Matcher
end PathGlob
