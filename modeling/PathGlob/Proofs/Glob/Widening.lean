/-
What becomes of a glob where dots are allowed. Its guards hide less, its globstars stop less often and a
question mark behind a separator takes any character, so each sign takes more; and so does a group or a
sequence of them, unless it stands under a negation or gives nothing back.
-/
import Mathlib.Data.List.Forall2
import PathGlob.Proofs.Glob.Fragment
import PathGlob.Proofs.Regex.Inclusion

namespace PathGlob

open Regex

/-! ## Signs -/

namespace Fragment

variable {s : Array Char} {i : Nat}

theorem Hides.of_dots (h : Hides true s i) : Hides false s i := hides_false.2 h.1

theorem Blocks.of_dots (h : Blocks true s i) : Blocks false s i :=
  h.imp (And.imp_right Hides.of_dots) (And.imp_right Hides.of_dots)

theorem within_dotGuard : Within (dotGuardRegex false) (dotGuardRegex true) := by
  intro nocase s i j _ h
  rw [spans_dotGuard] at h ⊢
  exact ⟨h.1, mt Hides.of_dots h.2⟩

theorem within_globstar (dots : Bool) :
    Within (globstarRegex (dots || false)) (globstarRegex (dots || true)) := by
  cases dots with
  | true => exact .refl _
  | false =>
    intro nocase s i j hi h
    obtain ⟨hij, hj, hall⟩ := (spans_globstar hi).1 h
    refine (spans_globstar hi).2 ⟨hij, hj, fun k hik hkj => ?_⟩
    exact (hall k hik hkj).imp_right (mt Blocks.of_dots)

theorem within_qmark : Within qmarkNoDotRegex qmarkRegex := by
  intro nocase s i j _ h
  rw [qmarkNoDotRegex, spans_set] at h
  obtain ⟨c, hc, htaken, rfl⟩ := h
  rw [qmarkRegex, spans_set]
  refine ⟨c, hc, ?_, rfl⟩
  simp only [CharSet.contains, Bool.false_or, Bool.not_eq_true', Bool.or_eq_false_iff] at htaken ⊢
  exact htaken.2

end Fragment

theorem Glyph.withinAll (g : Glyph) : WithinAll (g.regexes false) (g.regexes true) := by
  cases g with
  | char | bar | separator => exact .refl _
  | star isGuarded =>
    cases isGuarded with
    | false => exact .refl _
    | true => exact .cons Fragment.within_dotGuard (.refl _)
  | globstar dots => exact .singleton (Fragment.within_globstar dots)
  | qmark isFirst =>
    cases isFirst with
    | false => exact .refl _
    | true => exact .singleton Fragment.within_qmark

/-! ## Parts -/

/-- The sigil of a group. -/
def Enclosed.sigil? : Enclosed → Option ExtGlob
  | group g _ _ => g
  | bracket .. => none

namespace Part

/-- Whether a part is a negated group. -/
def isNegation : Part → Bool
  | enclosed e _ => e.sigil? = some .negate
  | _ => false

/-- Whether a part is a loop that a `+` behind it makes possessive. -/
def isPossessive : Part → Bool
  | enclosed e isRepeated => isRepeated && e.sigil?.any ExtGlob.isLoop
  | _ => false

/-- The branches of parts, in both dialects: as many, each taking more where dots are allowed. -/
def BranchesWithin (b b' : List Regex × List (List Regex)) : Prop :=
  WithinAll b.1 b'.1 ∧ List.Forall₂ WithinAll b.2 b'.2

/-- Branches go on as those of the first part do. -/
theorem branches?_cons {p : Part} {ps : List Part}
    (hp : Option.Rel (fun os os' => WithinAll (os.map (·.1)) (os'.map (·.1))) (p.operands? false)
      (p.operands? true))
    (hps : Option.Rel BranchesWithin (branches? false ps) (branches? true ps)) :
    Option.Rel BranchesWithin (branches? false (p :: ps)) (branches? true (p :: ps)) := by
  rw [branches?, branches?]
  generalize branches? false ps = b at hps
  generalize branches? true ps = b' at hps
  cases hps with
  | none => exact .none
  | @some b b' hb =>
    simp only [Option.bind_some]
    split
    · exact .some ⟨.refl [], .cons hb.1 hb.2⟩
    · generalize p.operands? false = os at hp
      generalize p.operands? true = os' at hp
      cases hp with
      | none => exact .none
      | some hos => exact .some ⟨hos.append hb.1, hb.2⟩

theorem branches?_glyphs (gs : List Glyph) :
    Option.Rel BranchesWithin (branches? false (gs.map .glyph)) (branches? true (gs.map .glyph)) := by
  induction gs with
  | nil => exact .some ⟨.refl [], .nil⟩
  | cons g gs ih => exact branches?_cons (.some g.withinAll) ih

end Part

/-! ## Groups -/

namespace Enclosed

theorem within_bodyRegex (body : List Glyph) : Within (bodyRegex false body) (bodyRegex true body) := by
  obtain ⟨rs, bs, hb, hspans⟩ := spans_bodyRegex_iff false body
  obtain ⟨rs', bs', hb', hspans'⟩ := spans_bodyRegex_iff true body
  have hbranches := Part.branches?_glyphs body
  rw [hb, hb'] at hbranches
  intro nocase s i j hi h
  rw [hspans] at h
  rw [hspans']
  cases hbranches with
  | some hwithin =>
    exact exists_of_forall₂ (.cons hwithin.1 hwithin.2) (fun b b' hb => hb nocase s i j hi) h

/-- An operand takes more where dots are allowed, and it is quantified alike. -/
def OperandWithin (p p' : Regex × Quantified) : Prop :=
  p.2 = p'.2 ∧ p.1.isRepeatable = p'.1.isRepeatable ∧ Within p.1 p'.1

/-- A group takes more if its body does, unless it is negated. -/
theorem groupOperand?_within {g : Option ExtGlob} (hg : g ≠ some .negate) {r r' : Regex}
    (hrepeatable : r.isRepeatable = r'.isRepeatable) (h : Within r r') (atEnd : Bool) :
    Option.Rel OperandWithin (groupOperand? g r atEnd) (groupOperand? g r' atEnd) := by
  have hloop (lo : Nat) (hi : Option Nat) : Option.Rel OperandWithin
      (if r.isRepeatable then some (.loop r lo hi false, .greedy) else none)
      (if r'.isRepeatable then some (.loop r' lo hi false, .greedy) else none) := by
    rw [← hrepeatable]
    split
    · exact .some ⟨rfl, rfl, h.loop lo hi false⟩
    · exact .none
  cases g with
  | none => exact .some ⟨rfl, rfl, h.capture⟩
  | some g =>
    cases g with
    | exactlyOne => exact .some ⟨rfl, hrepeatable, h⟩
    | zeroOrMore => exact hloop 0 none
    | oneOrMore => exact hloop 1 none
    | zeroOrOne => exact hloop 0 (some 1)
    | negate => exact absurd rfl hg

theorem operand?_within {e : Enclosed} (he : e.sigil? ≠ some .negate) :
    Option.Rel OperandWithin (e.operand? false) (e.operand? true) := by
  cases e with
  | group g body atEnd =>
    have hrepeatable : (bodyRegex false body).isRepeatable = (bodyRegex true body).isRepeatable := by
      rw [isRepeatable_bodyRegex, isRepeatable_bodyRegex]
    exact groupOperand?_within he hrepeatable (within_bodyRegex body) atEnd
  | bracket b isClosed isFilled =>
    have hsame : operand? true (.bracket b isClosed isFilled) =
        operand? false (.bracket b isClosed isFilled) := rfl
    rw [hsame]
    cases operand? false (.bracket b isClosed isFilled) with
    | none => exact .none
    | some p => exact .some ⟨rfl, rfl, .refl _⟩

/-- What is no loop has no quantifier. -/
theorem operand?_bare {e : Enclosed} (he : e.sigil?.any ExtGlob.isLoop = false) {dot : Bool}
    {p : Regex × Quantified} (hp : e.operand? dot = some p) : p.2 = .bare := by
  cases e with
  | group g body atEnd =>
    rw [operand?] at hp
    unfold groupOperand? at hp
    split at hp
    case h_3 | h_4 | h_5 => cases he
    all_goals cases hp; rfl
  | bracket b isClosed isFilled =>
    obtain ⟨s, -, rfl⟩ := Option.map_eq_some_iff.1 hp
    rfl

end Enclosed

/-! ## Whole globs -/

namespace Part

/-- A `+` makes no difference to what takes more, unless it makes a loop possessive. -/
theorem repeat?_within {p p' : Regex × Quantified} (h : Enclosed.OperandWithin p p')
    (hbare : p.2 = .bare) : Option.Rel Enclosed.OperandWithin (repeat? p) (repeat? p') := by
  obtain ⟨r, q⟩ := p
  obtain ⟨r', q'⟩ := p'
  obtain ⟨hq, hrepeatable, hwithin⟩ := h
  cases hbare
  cases hq
  simp only [repeat?]
  rw [← hrepeatable]
  split
  · exact .some ⟨rfl, rfl, hwithin.loop 1 none false⟩
  · exact .none

theorem operands?_within {p : Part} (hnegation : p.isNegation = false)
    (hpossessive : p.isPossessive = false) :
    Option.Rel (fun os os' => WithinAll (os.map (·.1)) (os'.map (·.1))) (p.operands? false)
      (p.operands? true) := by
  cases p with
  | glyph g => exact .some g.withinAll
  | enclosed e isRepeated =>
    have hoperand := Enclosed.operand?_within (e := e) (by simpa [isNegation] using hnegation)
    have hbare {q : Regex × Quantified} (hq : e.operand? false = some q) (hr : isRepeated = true) :
        q.2 = .bare :=
      Enclosed.operand?_bare (by simpa [isPossessive, hr] using hpossessive) hq
    rw [operands?, operands?]
    generalize e.operand? false = q at hoperand hbare
    generalize e.operand? true = q' at hoperand
    cases hoperand with
    | none => exact .none
    | @some q q' hwithin =>
      cases isRepeated with
      | false => exact .some (.singleton hwithin.2.2)
      | true =>
        have hrepeated := repeat?_within hwithin (hbare rfl rfl)
        simp only [Option.bind_some, if_true]
        generalize repeat? q = t at hrepeated
        generalize repeat? q' = t' at hrepeated
        cases hrepeated with
        | none => exact .none
        | some ht => exact .some (.singleton ht.2.2)

/-- Branches of parts without negated groups and possessive loops take more where dots are allowed. -/
theorem branches?_within {ps : List Part}
    (h : ∀ p ∈ ps, p.isNegation = false ∧ p.isPossessive = false) :
    Option.Rel BranchesWithin (branches? false ps) (branches? true ps) := by
  induction ps with
  | nil => exact .some ⟨.refl [], .nil⟩
  | cons p ps ih =>
    obtain ⟨hnegation, hpossessive⟩ := h p List.mem_cons_self
    exact branches?_cons (operands?_within hnegation hpossessive)
      (ih fun q hq => h q (List.mem_cons_of_mem _ hq))

end Part

namespace Outline.Renders

variable {d d' : Dialect} {o : Outline} {r r' : Rendering}

theorem withinAll_guards (o : Outline) : WithinAll (guards false o) (guards true o) := by
  unfold guards
  split
  · exact .singleton Fragment.within_dotGuard
  · exact .refl []

/-- A glob that is not negated is an expression in both dialects or in none, and it takes more where
dots are allowed, if this holds of its parts. -/
theorem source_within (h : Renders d o r) (h' : Renders d' o r') (hdot : d.dot = false)
    (hdot' : d'.dot = true) (hlead : d.lead = none) (htrail : d.trail = none) (hstar : d.star = none)
    (hlead' : d'.lead = none) (htrail' : d'.trail = none) (hstar' : d'.star = none)
    (hnegated : o.negated = false)
    (hparts : ∀ p ∈ o.parts, p.isNegation = false ∧ p.isPossessive = false) :
    Option.Rel Within (ofChars? r.source.toList) (ofChars? r'.source.toList) := by
  have hsource := h.spans_source hstar hlead htrail (h.negated.trans hnegated)
  have hsource' := h'.spans_source hstar' hlead' htrail' (h'.negated.trans hnegated)
  have hbranches := Part.branches?_within hparts
  rw [hdot] at hsource
  rw [hdot'] at hsource'
  generalize Part.branches? false o.parts = b at hbranches hsource
  generalize Part.branches? true o.parts = b' at hbranches hsource'
  cases hbranches with
  | none =>
    rw [hsource, hsource']
    exact .none
  | @some b b' hwithin =>
    obtain ⟨e, he, hspans⟩ := hsource
    obtain ⟨e', he', hspans'⟩ := hsource'
    rw [he, he']
    refine .some fun nocase s i j hi hspan => ?_
    rw [hspans] at hspan
    rw [hspans']
    have hfirst : Within ((guards false o ++ b.1).foldl append .start)
        ((guards true o ++ b'.1).foldl append .start) :=
      ((withinAll_guards o).append hwithin.1).foldl_append (.refl _)
    have hfurther : List.Forall₂ Within (b.2.map (·.foldl append .empty))
        (b'.2.map (·.foldl append .empty)) := by
      rw [List.forall₂_map_left_iff, List.forall₂_map_right_iff]
      exact hwithin.2.imp fun _ _ hb => hb.foldl_append (.refl _)
    exact exists_of_forall₂ (forall₂_appendLast (.refl .stop) (.cons hfirst hfurther))
      (fun a a' ha => ha nocase s i j hi) hspan

end Outline.Renders
end PathGlob
