/-
A pattern with brace sets against the list of its expansions. Both are compiled expansion by expansion,
with the same outcome. They differ in their groups: the pattern has one, of which all members must
accept where all are negated, and the list has one for each expansion, any of which may accept. An
exclamation mark before a brace set stands before each alternative, and before a parenthesis it is no
negation.
-/
import PathGlob.Proofs.Brace.Length
import PathGlob.Proofs.Brace.Tree
import PathGlob.Proofs.Glob.Grammar
import PathGlob.Proofs.Matcher.Members
import PathGlob.Proofs.Matcher.Single

namespace PathGlob

open Brace

/-! ## The groups of expansions -/

/-- The groups of a list have what the members of the one group have. -/
theorem Group.map_zipWith_single {δ : Type} {es : List String} {members : List (Rendering × Program)}
    (h : members.length = es.length) {f : Group → δ} {k : Rendering × Program → δ}
    (hf : ∀ e q, f (single e q) = k q) : (List.zipWith single es members).map f = members.map k := by
  induction es generalizing members with
  | nil =>
    obtain rfl := List.eq_nil_of_length_eq_zero h
    rfl
  | cons e es ih =>
    cases members with
    | nil => cases h
    | cons q members =>
      rw [List.zipWith_cons_cons, List.map_cons, List.map_cons, hf, ih (Nat.succ.inj h)]

theorem Brace.ne_nil_of_expand? {limit : Nat} {pattern : String} {es : List String}
    (h : expand? limit pattern = some es) : es ≠ [] := by
  rw [eq_patterns_of_expand? h, patterns, Ne, List.map_eq_nil_iff]
  exact List.ne_nil_of_length_pos (length_expansions_pos pattern.toList)

namespace Matcher

section

variable {o : Options} {pattern : String} {es : List String}

/-- The matcher of a pattern has one group, with a member for each expansion. -/
theorem ofPattern_expanded (hbrace : o.nobrace = false) (hlength : pattern.length ≤ o.maxLength)
    (hes : expand? o.maxExpansions pattern = some es) : ofPattern o pattern =
      (es.mapM (Group.member o)).map fun members =>
        { windows := o.windows, groups := [{ pattern, members }] } := by
  rw [ofPattern_eq, Group.compile_eq ((Group.expansions_ok_iff hbrace).2 hes) hlength]
  cases es.mapM (Group.member o) <;> rfl

/-- The matcher of a list without brace sets has a group for each pattern. -/
theorem ofPatterns_nobrace (hlength : ∀ e ∈ es, e.length ≤ o.maxLength) :
    ofPatterns { o with nobrace := true } es = (es.mapM (Group.member o)).map fun members =>
      { windows := o.windows, groups := List.zipWith Group.single es members } := by
  rw [ofPatterns_eq, mapM_zipWith fun e he => Group.compile_nobrace (hlength e he)]
  cases es.mapM (Group.member o) <;> rfl

theorem ofPattern_nobrace (hlength : pattern.length ≤ o.maxLength) :
    ofPattern { o with nobrace := true } pattern = (Group.member o pattern).map fun q =>
      { windows := o.windows, groups := [Group.single pattern q] } := by
  rw [ofPattern_eq, Group.compile_nobrace hlength]
  cases Group.member o pattern <;> rfl

end

/-! ## The renderings and verdicts of expansions -/

section

variable {o : Options} {pattern : String} {es : List String} {members : List (Rendering × Program)}

theorem renderings_groups (w : Bool) (h : members.length = es.length) :
    renderings { windows := w, groups := List.zipWith Group.single es members } =
      members.map (·.1) := by
  have hgroups := Group.map_zipWith_single h (f := fun g => g.members.map (·.1)) (k := fun q => [q.1])
    fun _ _ => rfl
  rw [renderings, List.flatMap_def, hgroups, ← List.flatMap_def, ← List.map_eq_flatMap]

theorem renderings_group (w : Bool) :
    renderings { windows := w, groups := [{ pattern, members }] } = members.map (·.1) :=
  List.flatMap_singleton ..

/-- Unless all expansions are negated, any of them may accept, in one group as in several. -/
theorem accepts_groups_eq (w : Bool) (h : members.length = es.length)
    (hpositive : ∃ q ∈ members, q.1.negated = false) (candidate : String) :
    accepts { windows := w, groups := List.zipWith Group.single es members } candidate =
      accepts { windows := w, groups := [{ pattern, members }] } candidate := by
  have htest : test { windows := w, groups := List.zipWith Group.single es members } .exhaustive =
      test { windows := w, groups := [{ pattern, members }] } .exhaustive := by
    funext path
    have hverdicts := Group.map_zipWith_single h (f := fun g => g.accepts path)
      (k := fun q => q.2.accepts path) fun _ _ => Group.accepts_single ..
    calc (List.zipWith Group.single es members).any (·.accepts path)
        = ((List.zipWith Group.single es members).map (·.accepts path)).any id := by
          rw [List.any_map, Function.id_comp]
      _ = members.any (·.2.accepts path) := by rw [hverdicts, List.any_map, Function.id_comp]
      _ = [Group.mk pattern members].any (·.accepts path) := by
          rw [List.any_cons, List.any_nil, Bool.or_false, Group.accepts_of_positive hpositive]
  rw [accepts_eq, accepts_eq, htest]

/-- An expansion of a pattern accepts a candidate by itself. -/
def AcceptsAlone (o : Options) (e candidate : String) : Prop :=
  ∃ m, ofPattern { o with nobrace := true } e = .ok m ∧ m.accepts candidate = true

theorem acceptsAlone_iff (hw : o.windows = false) {e : String} (hlength : e.length ≤ o.maxLength)
    (candidate : String) : AcceptsAlone o e candidate ↔
      ∃ q, Group.member o e = .ok q ∧ q.2.accepts candidate = true := by
  rw [AcceptsAlone, ofPattern_nobrace hlength]
  cases Group.member o e <;> simp [Except.map, accepts_eq, hw]

/-- If all expansions are negated all of them must accept, and otherwise any of them may. -/
theorem accepts_group_iff (hw : o.windows = false) (hlength : ∀ e ∈ es, e.length ≤ o.maxLength)
    (hmembers : es.mapM (Group.member o) = .ok members) (candidate : String) :
    ((∃ q ∈ members, q.1.negated = false) →
      (accepts { windows := o.windows, groups := [{ pattern, members }] } candidate = true ↔
        ∃ e ∈ es, AcceptsAlone o e candidate)) ∧
    (members ≠ [] → (∀ q ∈ members, q.1.negated = true) →
      (accepts { windows := o.windows, groups := [{ pattern, members }] } candidate = true ↔
        ∀ e ∈ es, AcceptsAlone o e candidate)) := by
  have htest : accepts { windows := o.windows, groups := [{ pattern, members }] } candidate =
      Group.accepts { pattern, members } candidate := by simp [accepts_eq, hw]
  rw [htest]
  constructor
  · intro hpositive
    rw [Group.accepts_of_positive hpositive, List.any_eq_true, exists_mem_of_mapM_ok hmembers]
    exact exists_congr fun e => and_congr_right fun he =>
      (acceptsAlone_iff hw (hlength e he) candidate).symm
  · intro hne hnegated
    rw [Group.accepts_of_negated hne hnegated, List.all_eq_true, forall_mem_of_mapM_ok hmembers]
    exact forall₂_congr fun e he => (acceptsAlone_iff hw (hlength e he) candidate).symm

end

/-- A pattern is the list of its expansions. With brace sets off their list has a matcher exactly where
the pattern has one, with the same renderings, and otherwise fails alike. Both accept the same unless all
expansions are negated, and then, up to the separator that may be dropped, all of them must accept. The
matcher of any list accepts what the matcher of one of its patterns accepts. -/
theorem ofPattern_expansions (o : Options) :
    (∀ (pattern : String) (es : List String), o.nobrace = false → pattern.length ≤ o.maxLength →
      expand? o.maxExpansions pattern = some es →
        Alike (fun m l => m.renderings = l.renderings ∧ m.sources = l.sources ∧
            ((∃ r ∈ m.renderings, r.negated = false) →
              ∀ candidate, m.accepts candidate = l.accepts candidate) ∧
            ((∀ r ∈ m.renderings, r.negated = true) → o.windows = false →
              ∀ candidate, m.accepts candidate = true ↔ ∀ e ∈ es, AcceptsAlone o e candidate))
          (ofPattern o pattern) (ofPatterns { o with nobrace := true } es)) ∧
    ∀ ps : List String,
      ((∃ l, ofPatterns o ps = .ok l) ↔ ∀ p ∈ ps, ∃ m, ofPattern o p = .ok m) ∧
      ∀ l, ofPatterns o ps = .ok l →
        (∀ candidate, l.accepts candidate = true ↔
          ∃ p ∈ ps, ∃ m, ofPattern o p = .ok m ∧ m.accepts candidate = true) ∧
        ∀ qs, (∀ q, q ∈ qs ↔ q ∈ ps) → ∃ l', ofPatterns o qs = .ok l' ∧
          ∀ candidate, l'.accepts candidate = l.accepts candidate := by
  refine ⟨fun pattern es hbrace hlength hes => ?_, fun ps => ⟨ofPatterns_ok_iff, fun l hl => ?_⟩⟩
  · -- no expansion is longer than its pattern, so none is refused for its length
    have hlengths (e : String) (he : e ∈ es) : e.length ≤ o.maxLength :=
      Nat.le_trans (length_le_of_mem_expand? hes he) hlength
    rw [ofPattern_expanded hbrace hlength hes, ofPatterns_nobrace hlengths]
    cases hmembers : es.mapM (Group.member o) with
    | error e => rfl
    | ok members =>
      have hcount := length_of_mapM_ok hmembers
      change _ ∧ _
      rw [sources, sources, renderings_groups _ hcount, renderings_group]
      refine ⟨rfl, rfl, fun hpositive candidate => ?_, fun hnegated hw candidate => ?_⟩
      · exact (accepts_groups_eq _ hcount (by simpa using hpositive) candidate).symm
      · have hne : members ≠ [] := by
          rw [← List.length_pos_iff, hcount, List.length_pos_iff]
          exact ne_nil_of_expand? hes
        exact (accepts_group_iff hw hlengths hmembers candidate).2 hne (by simpa using hnegated)
  · -- verdicts depend on which patterns there are, so not on their order and number
    have haccepts := accepts_ofPatterns hl
    refine ⟨haccepts, fun qs hqs => ?_⟩
    obtain ⟨l', hl'⟩ : ∃ l', ofPatterns o qs = .ok l' := by
      rw [ofPatterns_ok_iff]
      exact fun q hq => ofPatterns_ok_iff.1 ⟨l, hl⟩ q ((hqs q).1 hq)
    refine ⟨l', hl', fun candidate => Bool.eq_iff_iff.2 ?_⟩
    simp only [haccepts, accepts_ofPatterns hl', hqs]

/-- Alternatives of which one is negated and alternatives that all are. -/
theorem ofPattern_two_expansions :
    (∃ m l, ofPattern {} "{a,!b}" = .ok m ∧ ofPatterns { nobrace := true } ["a", "!b"] = .ok l ∧
      m.sources = l.sources ∧ m.accepts "c" = true ∧ l.accepts "c" = true) ∧
    ∃ m, ofPattern {} "!{a,b}" = .ok m ∧ m.accepts "c" = true ∧ AcceptsAlone {} "!b" "c" := by
  constructor
  · obtain ⟨m, hm, haccepts⟩ : ∃ m, ofPattern {} "{a,!b}" = .ok m ∧
        (m.renderings.any (!·.negated) && m.accepts "c") = true := exists_ok_of_any (by decide +kernel)
    rw [Bool.and_eq_true, List.any_eq_true] at haccepts
    have hsame := (ofPattern_expansions {}).1 "{a,!b}" ["a", "!b"] rfl (by decide) (by decide +kernel)
    obtain ⟨l, hl, -, hsources, hpositive, -⟩ := hsame.exists_ok hm
    have hlist := hpositive (by simpa using haccepts.1) "c"
    exact ⟨m, l, hm, hl, hsources, haccepts.2, hlist ▸ haccepts.2⟩
  · obtain ⟨m, hm, haccepts⟩ : ∃ m, ofPattern {} "!{a,b}" = .ok m ∧
        (m.renderings.all (·.negated) && m.accepts "c") = true := exists_ok_of_any (by decide +kernel)
    rw [Bool.and_eq_true, List.all_eq_true] at haccepts
    have hsame := (ofPattern_expansions {}).1 "!{a,b}" ["!a", "!b"] rfl (by decide) (by decide +kernel)
    obtain ⟨l, -, -, -, -, hnegated⟩ := hsame.exists_ok hm
    have hboth := (hnegated haccepts.1 rfl "c").1 haccepts.2
    exact ⟨m, hm, haccepts.2, hboth "!b" (by simp)⟩

end Matcher

/-! ## Negated expansions -/

/-- A rendering is negated if its glob begins with a `!` that announces no group. -/
theorem Rendering.negated_iff {d : Dialect} {pattern : String} {r : Rendering}
    (h : ofPattern d pattern = .ok r) :
    r.negated = true ↔ (Cursor.relative pattern.toList)[0]? = some '!' ∧
      (Cursor.relative pattern.toList)[1]? ≠ some '(' := by
  have hfollows := Outline.ofPattern_follows d pattern
  unfold Outline.ofPattern at hfollows
  cases ho : Outline.run { cursor := .ofPattern pattern } with
  | error e =>
    rw [ho] at hfollows
    cases h.symm.trans hfollows
  | ok out =>
    rw [ho] at hfollows
    obtain ⟨r', hr', hrenders, -⟩ := hfollows
    cases h.symm.trans hr'
    rw [hrenders.negated, Outline.negated_finish]
    exact Outline.negated_iff ho

/-- What stands before a brace set stands before each of its alternatives. -/
theorem Brace.exists_of_mem_expand? {limit : Nat} {pattern e : String} {es : List String}
    (hfirst : pattern.toList[0]? = some '!') (h : expand? limit pattern = some es) (he : e ∈ es) :
    ∃ rest, e.toList = '!' :: rest := by
  rw [eq_patterns_of_expand? h] at he
  obtain ⟨rest, hpattern⟩ : ∃ rest, pattern.toList = '!' :: rest := by
    cases hp : pattern.toList with
    | nil => rw [hp] at hfirst; cases hfirst
    | cons c rest => rw [hp] at hfirst; cases hfirst; exact ⟨rest, rfl⟩
  have hbehind : expansions ('!' :: rest) = (expansions rest).map ('!' :: ·) :=
    expansions_behind (firstSet?_sign (.plain '!' (by decide))) rest
  rw [patterns, hpattern, hbehind, List.map_map] at he
  obtain ⟨q, -, rfl⟩ := List.mem_map.1 he
  exact ⟨q, String.toList_ofList⟩

namespace Matcher

/-- What a `!` in front makes of an expansion. -/
theorem negated_of_member {o : Options} {e : String} {q : Rendering × Program} {rest : List Char}
    (hq : Group.member o e = .ok q) (he : e.toList = '!' :: rest) :
    q.1.negated = true ↔ e.toList[1]? ≠ some '(' := by
  have hrender := (render_ok_iff.1 (Group.member_ok_iff.1 hq).1).1
  have hrelative : Cursor.relative e.toList = e.toList := by rw [he]; rfl
  rw [Rendering.negated_iff hrender, hrelative, and_iff_right (by simp [he])]

/-- A pattern with a `!` in front accepts what all its expansions accept if the matcher is negated, and
otherwise what any of them accepts. It is negated unless an expansion begins with `!(`, which the pattern
itself need not do. -/
theorem accepts_exclusion {o : Options} {pattern : String} {m : Matcher} (hw : o.windows = false)
    (hbrace : o.nobrace = false) (hfirst : pattern.toList[0]? = some '!')
    (hm : ofPattern o pattern = .ok m) :
    ∃ es, expand? o.maxExpansions pattern = some es ∧
      (∀ e ∈ es, ∃ m', ofPattern { o with nobrace := true } e = .ok m') ∧
      (m.isNegated = true ↔ ∀ e ∈ es, e.toList[1]? ≠ some '(') ∧
      ∀ candidate, m.accepts candidate = true ↔
        if m.isNegated then ∀ e ∈ es, AcceptsAlone o e candidate
        else ∃ e ∈ es, AcceptsAlone o e candidate := by
  have hlength := length_le_of_ok hm
  obtain ⟨es, members, hes, hmembers, rfl⟩ := members_of_ok hm
  have hexpand := (Group.expansions_ok_iff hbrace).1 hes
  have hlengths (e : String) (he : e ∈ es) : e.length ≤ o.maxLength :=
    Nat.le_trans (length_le_of_mem_expand? hexpand he) hlength
  have hne : members ≠ [] := by
    rw [← List.length_pos_iff, length_of_mapM_ok hmembers, List.length_pos_iff]
    exact ne_nil_of_expand? hexpand
  have hnegated : isNegated { windows := o.windows, groups := [{ pattern, members }] } = true ↔
      ∀ q ∈ members, q.1.negated = true := by
    simp [isNegated, Group.isNegated, hne]
  refine ⟨es, hexpand, fun e he => ?_, ?_, fun candidate => ?_⟩
  · obtain ⟨q, hq⟩ := exists_mapM_ok_iff.1 ⟨members, hmembers⟩ e he
    rw [ofPattern_nobrace (hlengths e he), hq]
    exact ⟨_, rfl⟩
  · rw [hnegated, forall_mem_of_mapM_ok hmembers]
    refine forall₂_congr fun e he => ?_
    obtain ⟨rest, hrest⟩ := exists_of_mem_expand? hfirst hexpand he
    obtain ⟨q, hq⟩ := exists_mapM_ok_iff.1 ⟨members, hmembers⟩ e he
    simp only [hq, Except.ok.injEq, exists_eq_left', negated_of_member hq hrest]
  · split
    · rename_i hall
      exact (accepts_group_iff hw hlengths hmembers candidate).2 hne (hnegated.1 hall)
    · rename_i hsome
      refine (accepts_group_iff hw hlengths hmembers candidate).1 ?_
      simpa using mt hnegated.2 hsome

/-- Both alternatives are excluded where neither begins with a parenthesis. -/
theorem accepts_excluded_names : ∃ m, ofPattern {} "!{a,b}" = .ok m ∧ m.isNegated = true ∧
    m.accepts "c" = true ∧ AcceptsAlone {} "!a" "c" ∧ m.accepts "b" = false := by
  obtain ⟨m, hm, hverdicts⟩ : ∃ m, ofPattern {} "!{a,b}" = .ok m ∧
      (m.accepts "c" && !m.accepts "b") = true := exists_ok_of_any (by decide +kernel)
  have hexpand : expand? 4096 "!{a,b}" = some ["!a", "!b"] := by decide +kernel
  obtain ⟨es, hes, -, hnegated, haccepts⟩ := accepts_exclusion rfl rfl (by decide) hm
  cases hexpand.symm.trans hes
  have hall : m.isNegated = true := hnegated.2 (by decide)
  rw [Bool.and_eq_true, Bool.not_eq_true'] at hverdicts
  have hboth := (haccepts "c").1 hverdicts.1
  rw [if_pos hall] at hboth
  exact ⟨m, hm, hall, hverdicts.1, hboth "!a" (by simp), hverdicts.2⟩

/-- An alternative in parentheses makes a group of the exclamation mark, and what the other alternative
excludes is accepted. -/
theorem accepts_excluded_alternative :
    "!{(a),b}".toList[0]? = some '!' ∧ "!{(a),b}".toList[1]? ≠ some '(' ∧
    expand? 4096 "!{(a),b}" = some ["!(a)", "!b"] ∧
    ∃ m, ofPattern {} "!{(a),b}" = .ok m ∧ m.isNegated = false ∧ m.accepts "b" = true ∧
      ¬ AcceptsAlone {} "!b" "b" := by
  obtain ⟨m, hm, hverdicts⟩ : ∃ m, ofPattern {} "!{(a),b}" = .ok m ∧
      (!m.isNegated && m.accepts "b") = true := exists_ok_of_any (by decide +kernel)
  rw [Bool.and_eq_true, Bool.not_eq_true'] at hverdicts
  refine ⟨by decide, by decide, by decide +kernel, m, hm, hverdicts.1, hverdicts.2, ?_⟩
  have halone : (ofPattern { nobrace := true } "!b").toOption.all (!·.accepts "b") = true := by
    decide +kernel
  rintro ⟨m', hm', haccepts⟩
  rw [hm', Except.toOption, Option.all_some, haccepts] at halone
  cases halone

end Matcher
end PathGlob
