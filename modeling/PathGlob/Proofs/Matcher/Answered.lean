/-
Searches that are given up. A matcher whose engine answers all searches for a candidate accepts it just if
searches that come to their ends do. One that is given up has found nothing, so a matcher accepts no more
than that with any engine, and the matcher of a single expansion accepts what it would, if it is answered.
What such a matcher searches for is the expression of its pattern's outline.
-/
import PathGlob.Proofs.Matcher.Members
import PathGlob.Proofs.Matcher.Single

namespace PathGlob

/-! ## Answers -/

/-- Whether the search for an expression comes to its end. -/
def CompiledRegex.isAnswered (r : CompiledRegex) (e : Engine) (candidate : String) : Bool :=
  !e.givesUp r.regex r.nocase candidate.toList.toArray

theorem CompiledRegex.answer?_eq (r : CompiledRegex) (e : Engine) (candidate : String) :
    r.answer? e candidate = if r.isAnswered e candidate then some (r.accepts candidate) else none := by
  rw [answer?, Engine.answer?, isAnswered]
  cases e.givesUp r.regex r.nocase candidate.toList.toArray <;> rfl

namespace Program

/-- A comparison of texts is always answered. -/
def isAnswered (p : Program) (e : Engine) (candidate : String) : Bool :=
  match p with
  | literal _ => true
  | regex r => r.isAnswered e candidate

theorem isMatch_eq (p : Program) (e : Engine) (candidate : String) :
    p.isMatch e candidate = (p.isAnswered e candidate && p.accepts candidate) := by
  cases p with
  | literal text => rfl
  | regex r =>
    rw [isMatch, r.answer?_eq, isAnswered, accepts_regex]
    cases r.isAnswered e candidate <;> rfl

theorem isMatch_of_isAnswered {p : Program} {e : Engine} {candidate : String}
    (h : p.isAnswered e candidate = true) : p.isMatch e candidate = p.accepts candidate := by
  rw [isMatch_eq, h, Bool.true_and]

theorem accepts_of_isMatch {p : Program} {e : Engine} {candidate : String}
    (h : p.isMatch e candidate = true) : p.accepts candidate = true := by
  rw [isMatch_eq, Bool.and_eq_true] at h
  exact h.2

end Program

namespace Group

variable {g : Group} {e : Engine} {candidate : String}

/-- Whether all expansions are answered. -/
def isAnswered (g : Group) (e : Engine) (candidate : String) : Bool :=
  g.members.all (·.2.isAnswered e candidate)

theorem isMatch_of_isAnswered (h : g.isAnswered e candidate = true) :
    g.isMatch e candidate = g.accepts candidate := by
  have hmembers : ∀ q ∈ g.members, q.2.isMatch e candidate = q.2.accepts candidate := fun q hq =>
    Program.isMatch_of_isAnswered (List.all_eq_true.1 h q hq)
  rw [isMatch, accepts_eq]
  split
  · exact all_congr_left hmembers
  · exact any_congr_left hmembers

theorem accepts_of_isMatch (h : g.isMatch e candidate = true) : g.accepts candidate = true := by
  rw [isMatch] at h
  rw [accepts_eq]
  split at h
  · rw [if_pos ‹_›]
    exact List.all_eq_true.2 fun q hq => Program.accepts_of_isMatch (List.all_eq_true.1 h q hq)
  · rw [if_neg ‹_›]
    obtain ⟨q, hq, hmatch⟩ := List.any_eq_true.1 h
    exact List.any_eq_true.2 ⟨q, hq, Program.accepts_of_isMatch hmatch⟩

end Group

namespace Matcher

variable {m : Matcher} {e : Engine} {candidate : String}

/-- Whether all searches for a candidate are answered; where backslashes are separators, also those
without the separator at its end. -/
def isAnswered (m : Matcher) (e : Engine) (candidate : String) : Bool :=
  if m.windows then
    let path := Path.unixify candidate
    m.groups.all (·.isAnswered e path) &&
      (Path.trimSeparator? path).all fun p => m.groups.all (·.isAnswered e p)
  else m.groups.all (·.isAnswered e candidate)

theorem test_of_isAnswered {path : String} (h : m.groups.all (·.isAnswered e path) = true) :
    m.test e path = m.test .exhaustive path :=
  any_congr_left fun g hg => Group.isMatch_of_isAnswered (List.all_eq_true.1 h g hg)

theorem test_mono {path : String} (h : m.test e path = true) : m.test .exhaustive path = true := by
  obtain ⟨g, hg, hmatch⟩ := List.any_eq_true.1 h
  exact List.any_eq_true.2 ⟨g, hg, Group.accepts_of_isMatch hmatch⟩

/-- An engine that answers gives the verdict of searches that come to their ends. -/
theorem isMatch_of_isAnswered (h : m.isAnswered e candidate = true) :
    m.isMatch e candidate = m.accepts candidate := by
  rw [isAnswered] at h
  rw [isMatch, accepts_eq]
  split at h
  · rw [if_pos ‹_›, if_pos ‹_›]
    rw [Bool.and_eq_true] at h
    cases hpath : Path.trimSeparator? (Path.unixify candidate) with
    | none => simp only [hpath, Option.any_none, test_of_isAnswered h.1]
    | some path =>
      rw [hpath, Option.all_some] at h
      simp only [hpath, Option.any_some, test_of_isAnswered h.1, test_of_isAnswered h.2]
  · rw [if_neg ‹_›, if_neg ‹_›]
    exact test_of_isAnswered h

/-- A search that is given up adds nothing. -/
theorem accepts_of_isMatch (h : m.isMatch e candidate = true) : m.accepts candidate = true := by
  rw [isMatch] at h
  rw [accepts_eq]
  split at h
  · rw [if_pos ‹_›]
    simp only [Bool.or_eq_true, Option.any_eq_true] at h ⊢
    exact h.imp test_mono fun ⟨path, hpath, htest⟩ => ⟨path, hpath, test_mono htest⟩
  · rw [if_neg ‹_›]
    exact test_mono h

/-- The verdict of a matcher of a single expansion, where backslashes are characters. -/
theorem isMatch_single (pattern : String) (q : Rendering × Program) (e : Engine) (candidate : String) :
    isMatch { windows := false, groups := [{ pattern, members := [q] }] } e candidate =
      q.2.isMatch e candidate := by
  simp [isMatch, test, Group.isMatch]

theorem isAnswered_single (pattern : String) (q : Rendering × Program) (e : Engine) (candidate : String) :
    isAnswered { windows := false, groups := [{ pattern, members := [q] }] } e candidate =
      q.2.isAnswered e candidate := by
  simp [isAnswered, Group.isAnswered]

/-- Where a pattern stands for itself and backslashes are characters, there is one search. -/
theorem isMatch_eq {o : Options} {pattern : String} (hw : o.windows = false)
    (hexp : Group.expansions o pattern = .ok [pattern]) (hm : ofPattern o pattern = .ok m) (e : Engine)
    (candidate : String) : m.isMatch e candidate = (m.isAnswered e candidate && m.accepts candidate) := by
  obtain ⟨ps, members, hps, hmembers, rfl⟩ := members_of_ok hm
  cases hexp.symm.trans hps
  obtain ⟨q, rfl⟩ := List.length_eq_one_iff.1 (length_of_mapM_ok hmembers)
  rw [hw, isMatch_single, isAnswered_single, accepts, isMatch_single, Program.isMatch_eq, Program.accepts]

/-! ## The expression that is searched for -/

/-- Whether a pattern has an expression for which `p` holds, as its outline tells. -/
def searchesFor (o : Options) (pattern : String) (p : Regex → Bool) : Bool :=
  (Outline.ofPattern pattern).toOption.any fun (out, openers) =>
    (!o.strictBrackets || openers.isEmpty) && out.parts.all (!·.isBar) &&
      (Part.regexes? o.dot out.parts).any fun rs => p (out.regex o.dot rs)

section

variable {o : Options} {pattern : String} (hlit : Program.isLiteral o pattern = false)
  (hlen : pattern.length ≤ o.maxLength) (hself : Group.expansions o pattern = .ok [pattern])
  (hw : o.windows = false) (hlead : o.lead = none) (htrail : o.trail = none) (hstar : o.star = none)

include hlit hlen hself hw hlead htrail hstar

/-- The matcher of a pattern that stands for itself searches for that expression. -/
theorem exists_of_searchesFor {p : Regex → Bool} (h : searchesFor o pattern p = true) :
    ∃ m regex, ofPattern o pattern = .ok m ∧ p regex = true ∧ ∀ e candidate,
      m.isMatch e candidate = (e.answer? regex o.nocase candidate.toList.toArray).getD false ∧
        m.isAnswered e candidate = !e.givesUp regex o.nocase candidate.toList.toArray := by
  obtain ⟨⟨out, openers⟩, hout, h⟩ := exists_ok_of_any h
  simp only [Bool.and_eq_true, Bool.or_eq_true, Bool.not_eq_true', List.isEmpty_iff, List.all_eq_true,
    Option.any_eq_true] at h
  obtain ⟨⟨hstrict, hbar⟩, rs, hrs, hp⟩ := h
  have hcompiles : Outline.Compiles o pattern out rs :=
    ⟨hlen, ⟨openers, hout, fun hs => hstrict.resolve_left (by simp [hs])⟩, hrs⟩
  obtain ⟨m, hm, -⟩ := exists_of_compiles hcompiles hw hself hlead htrail hstar hbar
  obtain ⟨r, hrender, -, hsource⟩ := hcompiles.exists_rendering hlead htrail hstar hbar
  have hprogram : Program.compile o pattern r =
      .ok (.regex { source := r.source, nocase := o.nocase, regex := out.regex o.dot rs }) := by
    unfold Program.compile CompiledRegex.ofRendering
    rw [hlit, hsource]
    rfl
  have hmember : Group.member o pattern =
      .ok (r, .regex { source := r.source, nocase := o.nocase, regex := out.regex o.dot rs }) := by
    unfold Group.member
    simp only [hrender, bind, Except.bind, hprogram]
    rfl
  obtain ⟨ps, members, hps, hmembers, rfl⟩ := members_of_ok hm
  cases hself.symm.trans hps
  rw [List.mapM_cons, hmember] at hmembers
  obtain rfl : members = [_] := (Except.ok.inj hmembers).symm
  refine ⟨_, out.regex o.dot rs, hm, hp, fun e candidate => ?_⟩
  rw [hw, isMatch_single, isAnswered_single]
  exact ⟨rfl, rfl⟩

/-- A candidate for which the engine gives up is not accepted. -/
theorem exists_of_givesUp {e : Engine} {candidate : String}
    (h : searchesFor o pattern (e.givesUp · o.nocase candidate.toList.toArray) = true) :
    ∃ m, ofPattern o pattern = .ok m ∧ m.isMatch e candidate = false := by
  obtain ⟨m, regex, hm, hup, hsearch⟩ := exists_of_searchesFor hlit hlen hself hw hlead htrail hstar h
  refine ⟨m, hm, ?_⟩
  rw [(hsearch e candidate).1, Engine.answer?, if_pos hup]
  rfl

end

end Matcher
end PathGlob
