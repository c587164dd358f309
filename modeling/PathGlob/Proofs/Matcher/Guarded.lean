/-
The guard in front of a glob. It stands in the text of the first component, but where no bar is loose
the whole expression is one sequence and the guard its first condition; so whatever groups, bracket
expressions and globstars come behind it, nothing that begins with a dot is accepted.
-/
import PathGlob.Proofs.Glob.Anchors
import PathGlob.Proofs.Matcher.Members
import PathGlob.Proofs.Matcher.Single

namespace PathGlob

/-! ## Globs without angles and braces -/

namespace Scope

variable {p q : Scope} {c : Char} {cs rest : List Char}

/-- Only an angle or a brace opens a pair in which a bar is loose. -/
theorem isPair_read (h : p.read c cs = .ok (q, rest)) (hp : p.isPair = false)
    (hc : c ≠ '<' ∧ c ≠ '\x7b') : q.isPair = false := by
  have hopener {k : Delimiter} (hk : Delimiter.ofOpener? c = some k) : k = .paren ∨ k = .bracket := by
    unfold Delimiter.ofOpener? at hk
    split at hk
    · cases hk; exact .inl rfl
    · exact absurd rfl hc.1
    · exact absurd rfl hc.2
    · cases hk; exact .inr rfl
    · cases hk
  unfold read at h
  cases p with
  | outside =>
    simp only at h
    split at h
    · cases h; rfl
    · split at h
      · cases h; rfl
      · rename_i k _ hne hk
        cases h
        rcases hopener hk with rfl | rfl
        · rfl
        · exact absurd rfl hne
      · cases h
      · cases h; rfl
  | inside k =>
    simp only at h
    split at h
    · cases h; exact hp
    · split at h <;> cases h
      · rfl
      · exact hp
  | bracket f =>
    simp only at h
    (repeat' split at h) <;> cases h <;> rfl

theorem hasLooseBar_eq_false (hp : p.isPair = false) (hcs : ∀ c ∈ cs, c ≠ '<' ∧ c ≠ '\x7b') :
    p.hasLooseBar cs = false := by
  induction hn : cs.length using Nat.strongRecOn generalizing p cs with
  | _ n ih =>
    cases cs with
    | nil => rw [hasLooseBar]
    | cons c cs =>
      cases hread : p.read c cs with
      | error e =>
        rw [hasLooseBar]
        split
        · rfl
        · rename_i ho
          cases hread.symm.trans ho
      | ok u =>
        obtain ⟨q, rest⟩ := u
        have hlt : rest.length < n := by
          have := length_read_le hread
          rw [List.length_cons] at hn
          omega
        have hq : q.isPair = false := isPair_read hread hp (hcs c (by simp))
        have hrest : ∀ c ∈ rest, c ≠ '<' ∧ c ≠ '\x7b' := fun x hx =>
          hcs x (List.mem_cons_of_mem _ ((suffix_read hread).subset hx))
        rw [hasLooseBar_of_ok hread, hp, Bool.and_false, Bool.false_or]
        exact ih _ hlt hq hrest rfl

end Scope

namespace Outline

/-- A glob in which no bar is loose has none among its parts. -/
theorem isBar_of_tight {pattern : String}
    (hloose : Scope.hasLooseBar .outside (Cursor.relative pattern.toList) = false)
    {o : Outline} {openers : List Char} (ho : ofPattern pattern = .ok (o, openers)) :
    ∀ p ∈ o.parts, p.isBar = false := by
  unfold ofPattern at ho
  cases hrun : run { cursor := .ofPattern pattern } with
  | error e =>
    rw [hrun] at ho
    cases ho
  | ok u =>
    rw [hrun] at ho
    cases ho
    have hstart : Barless { cursor := .ofPattern pattern } := ⟨nofun, nofun⟩
    exact (hstart.run (.inl rfl) hloose hrun).finish.parts

/-- A glob without angles and braces has no bars among its parts. -/
theorem isBar_of_unpaired {pattern : String} (hcs : ∀ c ∈ pattern.toList, c ≠ '<' ∧ c ≠ '\x7b')
    {o : Outline} {openers : List Char} (ho : ofPattern pattern = .ok (o, openers)) :
    ∀ p ∈ o.parts, p.isBar = false := by
  refine isBar_of_tight (Scope.hasLooseBar_eq_false rfl ?_) ho
  intro c hc
  exact hcs c ((Cursor.suffix_relative _).subset hc)

/-- The marks of the first component tell whether there is a guard. -/
theorem Renders.isGuarded {d : Dialect} {o : Outline} {r : Rendering} (h : Renders d o r)
    (hnegated : r.negated = false) {c : Component} (hc : r.components.head? = some c)
    (hdot : c.dot = false) (hglobstar : c.globstar = false) : o.isGuarded = true := by
  have hhead : o.trail.toList.head? = some c.erase := by
    rw [← h.components, List.head?_map, hc]
    rfl
  unfold Outline.isGuarded
  rw [← h.negated, hnegated, hhead]
  simp [Component.erase, hdot, hglobstar]

end Outline

/-! ## Whole globs -/

/-- A glob without angles and braces that is not negated accepts nothing that begins with a dot, if its
first component neither begins with a dot nor holds a globstar. -/
theorem Matcher.accepts_leading_dot {o : Options} {pattern : String}
    (hcs : ∀ c ∈ pattern.toList, c ≠ '<' ∧ c ≠ '\x7b') (hdot : o.dot = false)
    (hw : o.windows = false) (hlead : o.lead = none) (htrail : o.trail = none)
    (hstar : o.star = none) {r : Rendering} (hr : Rendering.ofPattern o.dialect pattern = .ok r)
    (hnegated : r.negated = false) {c : Component} (hfirst : r.components.head? = some c)
    (hplain : c.dot = false ∧ c.globstar = false) {m : Matcher}
    (hm : Matcher.ofPattern o pattern = .ok m) {candidate : String}
    (hhead : candidate.toList.head? = some '.') : m.accepts candidate = false := by
  have hbrace : '\x7b' ∉ pattern.toList := fun h => (hcs _ h).2 rfl
  have hbar : ∀ out openers, Outline.ofPattern pattern = .ok (out, openers) →
      ∀ p ∈ out.parts, p.isBar = false := fun _ _ ho => Outline.isBar_of_unpaired hcs ho
  obtain ⟨-, out, rs, hcompiles⟩ :=
    (Matcher.ofPattern_ok_iff hw hbrace hlead htrail hstar hbar).1 ⟨m, hm⟩
  obtain ⟨openers, ho, -⟩ := hcompiles.outline
  obtain ⟨hrenders, -⟩ := Outline.renders_of_ok hr ho
  have hguarded : out.isGuarded = true :=
    hrenders.isGuarded hnegated hfirst hplain.1 hplain.2
  rw [← Bool.not_eq_true, Matcher.accepts_iff hm hcompiles hw hbrace hlead htrail hstar
    (hbar out openers ho), Outline.Accepts, ← hrenders.negated, hnegated, if_neg Bool.false_ne_true]
  rintro ⟨hguard, -⟩
  apply hguard hguarded
  rw [hdot, Fragment.hides_false, List.getElem?_toArray, ← List.head?_eq_getElem?]
  exact hhead

/-- An alternative that begins with a dot, a bracket expression that holds one and a group that the
pattern leaves open are all behind the guard. -/
theorem Matcher.accepts_leading_dot_alternative :
    ∃ r c m, Rendering.ofPattern {} "?(.a|b)[.c]/**/(*" = .ok r ∧ r.negated = false ∧
      r.components.head? = some c ∧ (c.dot = false ∧ c.globstar = false) ∧
      Matcher.ofPattern {} "?(.a|b)[.c]/**/(*" = .ok m ∧ m.accepts "b./x" = true ∧
      m.accepts ".a./x" = false ∧ m.accepts "./x" = false := by
  obtain ⟨r, hr, hall⟩ : ∃ r, Rendering.ofPattern {} "?(.a|b)[.c]/**/(*" = .ok r ∧
      (!r.negated && r.components.head?.any fun c => !c.dot && !c.globstar) = true :=
    exists_ok_of_any (by decide +kernel)
  obtain ⟨m, hm, haccepts⟩ : ∃ m, Matcher.ofPattern {} "?(.a|b)[.c]/**/(*" = .ok m ∧
      m.accepts "b./x" = true := exists_ok_of_any (by decide +kernel)
  simp only [Bool.and_eq_true, Bool.not_eq_true', Option.any_eq_true] at hall
  obtain ⟨hnegated, c, hfirst, hplain⟩ := hall
  have hcs : ∀ c ∈ "?(.a|b)[.c]/**/(*".toList, c ≠ '<' ∧ c ≠ '\x7b' := by simp
  refine ⟨r, c, m, hr, hnegated, hfirst, hplain, hm, haccepts, ?_, ?_⟩
  · exact Matcher.accepts_leading_dot (o := {}) hcs rfl rfl rfl rfl rfl hr hnegated hfirst hplain hm
      (by decide)
  · exact Matcher.accepts_leading_dot (o := {}) hcs rfl rfl rfl rfl rfl hr hnegated hfirst hplain hm
      (by decide)

end PathGlob
