/-
Strict brackets. A build under strict brackets is the lenient build with one check behind it: a rendering
that leaves something open is refused for its first open delimiter. The check goes through the members of
a group and the groups of a matcher to the first rendering that fails it, and changes nothing else.
-/
import PathGlob.Proofs.Glob.Paired
import PathGlob.Proofs.Matcher.Single

namespace PathGlob

/-! ## Results with a check behind them -/

section Screens

variable {α β γ ε : Type} {check : β → Option ε} {check' : γ → Option ε} {x y : Except ε β}

/-- One result is another with a check behind it: what fails the check is an error instead, and where the
other is missing, so is this one. -/
inductive Screens (check : β → Option ε) : Except ε β → Except ε β → Prop where
  | passes {b : β} (h : check b = none) : Screens check (.ok b) (.ok b)
  | fails {b : β} {e : ε} (h : check b = some e) : Screens check (.error e) (.ok b)
  | missing (e e' : ε) : Screens check (.error e) (.error e')

namespace Screens

theorem ok_iff (h : Screens check x y) {b : β} : x = .ok b ↔ y = .ok b ∧ check b = none := by
  cases h with
  | passes hb =>
    constructor
    · intro heq
      cases heq
      exact ⟨rfl, hb⟩
    · exact And.left
  | fails hb =>
    constructor
    · intro heq
      cases heq
    · rintro ⟨heq, hnone⟩
      cases heq
      cases hb.symm.trans hnone
  | missing e e' => simp

theorem error (h : Screens check x y) {b : β} {e : ε} (hy : y = .ok b) (hb : check b = some e) :
    x = .error e := by
  cases h with
  | passes hnone =>
    cases hy
    cases hb.symm.trans hnone
  | fails hsome =>
    cases hy
    cases hb.symm.trans hsome
    rfl
  | missing e e' => cases hy

/-- What comes before the check is the same for both. -/
theorem behind (z : Except ε α) {f g : α → Except ε β} (h : ∀ a, Screens check (f a) (g a)) :
    Screens check (z >>= f) (z >>= g) := by
  cases z with
  | error e => exact .missing e e
  | ok a => exact h a

/-- What comes after the check is the same for both, and keeps what is checked. -/
theorem bind (h : Screens check x y) {f : β → Except ε γ}
    (hf : ∀ b c, f b = .ok c → check' c = check b) : Screens check' (x >>= f) (y >>= f) := by
  cases h with
  | missing e e' => exact .missing e e'
  | passes hb =>
    rename_i b
    change Screens check' (f b) (f b)
    cases hc : f b with
    | error e => exact .missing e e
    | ok c => exact .passes ((hf b c hc).trans hb)
  | fails hb =>
    rename_i b e
    change Screens check' (.error e) (f b)
    cases hc : f b with
    | error e' => exact .missing e e'
    | ok c => exact .fails ((hf b c hc).trans hb)

theorem map (h : Screens check x y) {f : β → γ} (hf : ∀ b, check' (f b) = check b) :
    Screens check' (x.map f) (y.map f) := by
  cases h with
  | missing e e' => exact .missing e e'
  | passes hb => exact .passes ((hf _).trans hb)
  | fails hb => exact .fails ((hf _).trans hb)

/-- A list of results is checked up to the first one that fails. -/
theorem mapM {f g : α → Except ε β} (xs : List α) (h : ∀ a, Screens check (f a) (g a)) :
    Screens (List.findSome? check) (xs.mapM f) (xs.mapM g) := by
  induction xs with
  | nil => exact .passes rfl
  | cons a xs ih =>
    rw [List.mapM_cons, List.mapM_cons]
    have ha := h a
    generalize f a = x, g a = y at ha
    cases ha with
    | missing e e' => exact .missing e e'
    | passes hb => exact ih.bind fun bs cs hcs => by cases hcs; rw [List.findSome?_cons, hb]
    | fails hb =>
      rename_i b e
      change Screens _ (.error e) (xs.mapM g >>= fun bs => pure (b :: bs))
      cases xs.mapM g with
      | error e' => exact .missing e e'
      | ok bs => exact .fails (by rw [List.findSome?_cons, hb])

end Screens
end Screens

/-! ## Renderings -/

/-- The complaint about the first thing that a rendering leaves open. -/
def Rendering.complaint? (r : Rendering) : Option Failure :=
  r.unclosed.head?.map fun c => .missingClosing (((Delimiter.ofOpener? c).map Delimiter.closer).getD c)

theorem Rendering.complaint?_eq_none {r : Rendering} : r.complaint? = none ↔ r.isWellFormed = true := by
  rw [complaint?, Option.map_eq_none_iff, List.head?_eq_none_iff, isWellFormed, List.isEmpty_iff]

/-- What a rendering leaves open was opened by a delimiter. -/
theorem Rendering.opener_of_mem_unclosed {d : Dialect} {pattern : String} {r : Rendering}
    (h : ofPattern d pattern = .ok r) {c : Char} (hc : c ∈ r.unclosed) :
    ∃ k, Delimiter.ofOpener? c = some k := by
  obtain ⟨s, -, hreached, -, rfl⟩ := exists_reached h
  have hc : c ∈ s.nesting.openers := hc
  rw [Nesting.openers, List.mem_map] at hc
  obtain ⟨f, hf, rfl⟩ := hc
  exact ⟨f.delimiter, (Scan.Paired.of_reached hreached).openers f (List.mem_reverse.1 hf)⟩

section Build

variable (o : Options)

/-- A pattern is rendered and then checked. -/
theorem render_screens (pattern : String) : Screens Rendering.complaint?
    (render { o with strictBrackets := true } pattern)
    (render { o with strictBrackets := false } pattern) := by
  unfold render Options.dialect
  cases Rendering.ofPattern { dot := o.dot, lead := o.lead, trail := o.trail, star := o.star } pattern with
  | error e => exact .missing _ _
  | ok r =>
    have hcomplaint : r.complaint? = r.unclosed.head?.map _ := rfl
    cases hu : r.unclosed with
    | nil =>
      simp only [hu]
      exact .passes (by rw [hcomplaint, hu]; rfl)
    | cons c cs =>
      simp only [hu]
      exact .fails (by rw [hcomplaint, hu]; rfl)

theorem Group.member_screens (pattern : String) : Screens (fun q => q.1.complaint?)
    (member { o with strictBrackets := true } pattern)
    (member { o with strictBrackets := false } pattern) := by
  refine (render_screens o pattern).bind
    (f := fun r => Program.compile o pattern r >>= fun p => pure (r, p)) fun r q hq => ?_
  cases hp : Program.compile o pattern r with
  | error e =>
    rw [hp] at hq
    cases hq
  | ok p =>
    rw [hp] at hq
    cases hq
    rfl

/-- A group complains about its first member that is not well formed. -/
theorem Group.compile_screens (pattern : String) :
    Screens (fun g => g.members.findSome? fun q => q.1.complaint?)
      (compile { o with strictBrackets := true } pattern)
      (compile { o with strictBrackets := false } pattern) := by
  refine Screens.behind (checkLength o pattern) fun _ => ?_
  refine Screens.behind (expansions o pattern) fun ps => ?_
  exact (Screens.mapM ps (member_screens o)).bind fun members g hg => by cases hg; rfl

/-- The first complaint of the groups is that of the renderings. -/
theorem Matcher.findSome?_renderings (w : Bool) (gs : List Group) :
    gs.findSome? (fun g => g.members.findSome? fun q => q.1.complaint?) =
      (renderings { windows := w, groups := gs }).findSome? Rendering.complaint? := by
  induction gs with
  | nil => rfl
  | cons g gs ih =>
    have hrenderings : renderings { windows := w, groups := g :: gs } =
        g.members.map (·.1) ++ renderings { windows := w, groups := gs } := List.flatMap_cons
    rw [List.findSome?_cons, ih, hrenderings, List.findSome?_append, List.findSome?_map]
    simp only [Function.comp_def]
    cases g.members.findSome? (fun q => q.1.complaint?) <;> rfl

/-- A matcher complains about its first rendering that is not well formed. -/
theorem Matcher.ofPatterns_screens (ps : List String) :
    Screens (fun m => m.renderings.findSome? Rendering.complaint?)
      (ofPatterns { o with strictBrackets := true } ps)
      (ofPatterns { o with strictBrackets := false } ps) := by
  rw [ofPatterns_eq, ofPatterns_eq]
  exact (Screens.mapM ps (Group.compile_screens o)).map fun gs =>
    (findSome?_renderings o.windows gs).symm

end Build

/-- The renderings of a matcher are those of patterns. -/
theorem Matcher.exists_pattern_of_mem {o : Options} {ps : List String} {m : Matcher}
    (h : ofPatterns o ps = .ok m) {r : Rendering} (hr : r ∈ m.renderings) :
    ∃ pattern, Rendering.ofPattern o.dialect pattern = .ok r := by
  rw [ofPatterns_eq] at h
  cases hgs : ps.mapM (Group.compile o) with
  | error e => rw [hgs] at h; cases h
  | ok gs =>
    rw [hgs] at h
    cases h
    obtain ⟨g, hg, hr⟩ := List.mem_flatMap.1 hr
    obtain ⟨q, hq, rfl⟩ := List.mem_map.1 hr
    obtain ⟨p, -, hp⟩ := mem_of_mapM_ok hgs hg
    have hsingle : ofPattern o p = .ok { windows := o.windows, groups := [g] } := by
      rw [ofPattern_eq, hp]
      rfl
    obtain ⟨es, members, -, hmembers, hm⟩ := members_of_ok hsingle
    cases hm
    obtain ⟨e, -, he⟩ := mem_of_mapM_ok hmembers hq
    exact ⟨e, (render_ok_iff.1 (Group.member_ok_iff.1 he).1).1⟩

/-- The first complaint about renderings is about the first that is not well formed. -/
theorem Rendering.find?_of_findSome? {rs : List Rendering} {e : Failure}
    (h : rs.findSome? complaint? = some e) :
    ∃ r ∈ rs, rs.find? (!·.isWellFormed) = some r ∧ r.complaint? = some e := by
  obtain ⟨before, r, behind, rfl, hr, hbefore⟩ := List.findSome?_eq_some_iff.1 h
  refine ⟨r, by simp, List.find?_eq_some_iff_append.2 ⟨?_, before, behind, rfl, ?_⟩, hr⟩
  · rw [Bool.not_eq_true', Bool.eq_false_iff]
    intro hwell
    cases hr.symm.trans (complaint?_eq_none.2 hwell)
  · intro r' hr'
    rw [Bool.not_not, complaint?_eq_none.1 (hbefore r' hr')]

/-- Strict brackets only reject. The strict matcher is there where the lenient one is there and all it
holds is well formed. Both hold the same and accept the same then; where only the lenient one is there,
the first open delimiter of its first rendering that is not well formed is what the strict one lacks. -/
theorem Matcher.strict_only_rejects (o : Options) (ps : List String) :
    ((∃ m, ofPatterns { o with strictBrackets := true } ps = .ok m) ↔
        ∃ m, ofPatterns { o with strictBrackets := false } ps = .ok m ∧
          ∀ r ∈ m.renderings, r.isWellFormed = true) ∧
      (∀ m m', ofPatterns { o with strictBrackets := true } ps = .ok m →
        ofPatterns { o with strictBrackets := false } ps = .ok m' →
          m.renderings = m'.renderings ∧ m.sources = m'.sources ∧ m.isNegated = m'.isNegated ∧
            ∀ candidate, m.accepts candidate = m'.accepts candidate) ∧
      ∀ m, ofPatterns { o with strictBrackets := false } ps = .ok m →
        (∀ m', ofPatterns { o with strictBrackets := true } ps ≠ .ok m') →
          ∃ r c cs k, m.renderings.find? (!·.isWellFormed) = some r ∧ r.unclosed = c :: cs ∧
            Delimiter.ofOpener? c = some k ∧
            ofPatterns { o with strictBrackets := true } ps = .error (.missingClosing k.closer) := by
  have hscreens := ofPatterns_screens o ps
  have hwell (m : Matcher) : m.renderings.findSome? Rendering.complaint? = none ↔
      ∀ r ∈ m.renderings, r.isWellFormed = true := by
    rw [List.findSome?_eq_none_iff]
    exact forall₂_congr fun r _ => Rendering.complaint?_eq_none
  refine ⟨?_, fun m m' hm hm' => ?_, fun m hm hstrict => ?_⟩
  · exact exists_congr fun m => hscreens.ok_iff.trans (and_congr_right fun _ => hwell m)
  · obtain rfl : m = m' := Except.ok.inj ((hscreens.ok_iff.1 hm).1.symm.trans hm')
    exact ⟨rfl, rfl, rfl, fun _ => rfl⟩
  · cases hcheck : m.renderings.findSome? Rendering.complaint? with
    | none => exact absurd (hscreens.ok_iff.2 ⟨hm, hcheck⟩) (hstrict m)
    | some e =>
      obtain ⟨r, hmem, hfirst, he⟩ := Rendering.find?_of_findSome? hcheck
      obtain ⟨c, hc, rfl⟩ := Option.map_eq_some_iff.1 he
      obtain ⟨cs, hunclosed⟩ := List.head?_eq_some_iff.1 hc
      obtain ⟨pattern, hr⟩ := exists_pattern_of_mem hm hmem
      obtain ⟨k, hk⟩ := Rendering.opener_of_mem_unclosed hr (by rw [hunclosed]; exact List.mem_cons_self)
      refine ⟨r, c, cs, k, hfirst, hunclosed, hk, ?_⟩
      have herror := hscreens.error hm hcheck
      rwa [hk] at herror

/-- The second expansion of the second pattern leaves an angle bracket open. -/
theorem Matcher.strict_only_rejects_second : ∃ m r k,
    ofPatterns {} ["(a)", "x{(b),<c,[d]}"] = .ok m ∧
      m.renderings.find? (!·.isWellFormed) = some r ∧ r.unclosed = ['<'] ∧ Delimiter.closer k = '>' ∧
      ofPatterns { strictBrackets := true } ["(a)", "x{(b),<c,[d]}"] = .error (.missingClosing k.closer) := by
  obtain ⟨m, hm, hunclosed⟩ : ∃ m, ofPatterns {} ["(a)", "x{(b),<c,[d]}"] = .ok m ∧
      decide ((m.renderings.find? (!·.isWellFormed)).map (·.unclosed) = some ['<']) = true :=
    exists_ok_of_any (by decide +kernel)
  obtain ⟨hiff, -, herror⟩ := strict_only_rejects {} ["(a)", "x{(b),<c,[d]}"]
  have hstrict : ∀ m', ofPatterns { strictBrackets := true } ["(a)", "x{(b),<c,[d]}"] ≠ .ok m' := by
    intro m' hm'
    obtain ⟨m₁, hm₁, hwell⟩ := hiff.1 ⟨m', hm'⟩
    cases hm.symm.trans hm₁
    obtain ⟨r, hr, -⟩ := Option.map_eq_some_iff.1 (of_decide_eq_true hunclosed)
    have hill := List.find?_some hr
    rw [hwell r (List.mem_of_find?_eq_some hr)] at hill
    cases hill
  obtain ⟨r, c, cs, k, hr, hcs, hk, hfails⟩ := herror m hm hstrict
  rw [hr] at hunclosed
  have hopen : r.unclosed = ['<'] := Option.some.inj (of_decide_eq_true hunclosed)
  rw [hcs] at hopen
  cases hopen
  cases hk
  exact ⟨m, r, .angle, hm, hr, hcs, rfl, hfails⟩

end PathGlob
