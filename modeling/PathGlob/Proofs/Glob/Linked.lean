/-
The components of a rendering in a row. The first begins where the glob begins and every later one at a
separator, which is optional just if the component before it holds a globstar; there is one for each
separator that is neither escaped nor in a bracket expression, and one more. All but their texts is the
same in every dialect.
-/
import Mathlib.Data.List.Chain
import PathGlob.Proofs.Glob.Components
import PathGlob.Proofs.Glob.Paired

namespace PathGlob

/-! ## Components in a row -/

/-- A component behind another one: its separator is optional if that one holds a globstar, and its text
begins with the separator. -/
structure Component.Follows (c c' : Component) : Prop where
  origin : c'.origin = .separator
  isOptional : c'.isOptional = c.globstar
  separator : (Fragment.separator c'.isOptional).toList <+: c'.text.toList

/-- A component that begins where the glob begins. -/
structure Component.IsFirst (c : Component) : Prop where
  origin : c.origin = .start
  isOptional : c.isOptional = false

/-- Components from the first one on, each of which follows the one before it. -/
structure Component.Linked (cs : List Component) : Prop where
  first : ∃ c ∈ cs.head?, c.IsFirst
  chain : cs.IsChain Component.Follows

namespace Component.Linked

variable {cs : List Component} {c c' : Component}

theorem origin_of_mem (h : (c :: cs).IsChain Component.Follows) : ∀ c' ∈ cs, c'.origin = .separator := by
  induction cs generalizing c with
  | nil => exact nofun
  | cons b cs ih =>
    obtain ⟨hfollows, htail⟩ := List.isChain_cons_cons.1 h
    intro c' hc'
    rcases List.mem_cons.1 hc' with rfl | hc'
    · exact hfollows.origin
    · exact ih htail c' hc'

/-- A component that begins behind the last one. -/
theorem concat (h : Linked (cs ++ [c])) (hfollows : c.Follows c') : Linked (cs ++ [c] ++ [c']) where
  first := by
    obtain ⟨b, hb, hfirst⟩ := h.first
    exact ⟨b, by cases cs <;> simpa using hb, hfirst⟩
  chain := h.chain.append (List.isChain_singleton c') (by simpa using hfollows)

/-- A last component that is written on. -/
theorem modifyLast (h : Linked (cs ++ [c])) (horigin : c'.origin = c.origin)
    (hoptional : c'.isOptional = c.isOptional) {x : String} (htext : c'.text = c.text ++ x) :
    Linked (cs ++ [c']) where
  first := by
    obtain ⟨b, hb, hfirst⟩ := h.first
    cases cs with
    | nil =>
      obtain rfl : c = b := by simpa using hb
      exact ⟨c', by simp, horigin.trans hfirst.origin, hoptional.trans hfirst.isOptional⟩
    | cons a cs => exact ⟨b, by simpa using hb, hfirst⟩
  chain := by
    obtain ⟨hchain, -, hlast⟩ := List.isChain_append.1 h.chain
    refine hchain.append (List.isChain_singleton c') fun b hb d hd => ?_
    obtain rfl : c' = d := by simpa using hd
    have hfollows := hlast b hb c (by simp)
    refine ⟨horigin.trans hfollows.origin, hoptional.trans hfollows.isOptional, ?_⟩
    rw [hoptional, htext, String.toList_append]
    exact hfollows.separator.trans (List.prefix_append ..)

/-- A first component of which only the text is changed. -/
theorem modifyFirst (h : Linked (c :: cs)) (horigin : c'.origin = c.origin)
    (hoptional : c'.isOptional = c.isOptional) (hglobstar : c'.globstar = c.globstar) :
    Linked (c' :: cs) where
  first := by
    obtain ⟨b, hb, hfirst⟩ := h.first
    obtain rfl : c = b := by simpa using hb
    exact ⟨c', by simp, horigin.trans hfirst.origin, hoptional.trans hfirst.isOptional⟩
  chain := by
    obtain ⟨hhead, htail⟩ := List.isChain_cons.1 h.chain
    refine List.isChain_cons.2 ⟨fun d hd => ?_, htail⟩
    obtain ⟨horigin, hoptional, hseparator⟩ := hhead d hd
    exact ⟨horigin, hoptional.trans hglobstar.symm, hseparator⟩

end Component.Linked

/-! ## Runs -/

namespace Scan

variable {d : Dialect} {pattern : String} {s s' : Scan} {x : String}

/-- The components are linked, and a scan knows whether one of them holds a globstar. -/
structure Linked (s : Scan) : Prop where
  linked : Component.Linked s.trail.toList
  hasGlobstar : s.hasGlobstar = true ↔ ∃ c ∈ s.trail.toList, c.globstar = true

theorem Linked.start (c : Cursor) : Linked { cursor := c } where
  linked := ⟨⟨_, rfl, rfl, rfl⟩, List.isChain_singleton _⟩
  hasGlobstar := by simp [Trail.toList]

theorem Linked.adds (h : s.Linked) (hadds : Adds x s s') : s'.Linked := by
  obtain ⟨hlinked, hglobstar⟩ := h
  unfold Trail.toList at hlinked hglobstar
  cases hadds with
  | current done origin isOptional text globstar =>
    refine ⟨?_, ?_⟩
    · rw [Trail.toList, done]
      exact hlinked.modifyLast origin isOptional text
    · rw [Trail.toList, done]
      rcases globstar with ⟨hsame, hhas⟩ | ⟨hset, hhas⟩
      · simpa [hsame, hhas, or_and_right, exists_or] using hglobstar
      · exact iff_of_true hhas ⟨_, List.mem_append_right _ (List.mem_singleton_self _), hset⟩
  | next done origin isOptional text separator globstar hasGlobstar =>
    refine ⟨?_, ?_⟩
    · rw [Trail.toList, done]
      refine hlinked.concat ⟨origin, isOptional, ?_⟩
      rwa [isOptional, text]
    · rw [Trail.toList, done, hasGlobstar, hglobstar]
      simp [Trail.toList, globstar, or_and_right, exists_or]

theorem Moves.adds {c : Char} (h : Moves d s c s') : ∃ x, Adds x s s' := by
  cases h with
  | announces g outside sigil next eq =>
    subst eq
    exact ⟨"", (Adds.refl s).of_eq rfl rfl⟩
  | opens k text x outside opener frames counted pending cursor adds group => exact ⟨x, adds⟩
  | writes x writes other => exact ⟨x, writes.adds⟩
  | closes f x inside closer frames counted cursor adds pending group => exact ⟨x, adds⟩

theorem Linked.of_reached (h : Reached d pattern s) : s.Linked := by
  induction h with
  | refl => exact .start _
  | tail hreached hreads ih =>
    obtain ⟨c, cursor, -, hmoves⟩ := hreads.moves (.of_reached hreached)
    obtain ⟨x, hadds⟩ := hmoves.adds
    exact ih.adds (hadds.of_left rfl rfl)

/-- What the end of a glob adds to its components. -/
theorem adds_cutOffAll (d : Dialect) (h : s.Paired) : ∃ x, Adds x s (s.cutOffAll d) := by
  rcases h.frames_cases with hframes | ⟨f, hframes⟩
  · rw [cutOffAll_of_nil d hframes]
    exact ⟨"", .refl s⟩
  · rw [cutOffAll_of_singleton d hframes]
    unfold cutOff
    split
    · exact ⟨_, (Moves.adds_closeGroup d _).of_left rfl rfl⟩
    · exact ⟨_, .of_append rfl rfl⟩
    all_goals exact ⟨"", (Adds.refl s).of_eq rfl rfl⟩

/-- The components of a rendering, in which the first one has got its guard. -/
theorem Linked.finish (h : s.Linked) (hpaired : s.Paired) : Component.Linked (s.finish d).components ∧
    ((s.finish d).hasGlobstar = true ↔ ∃ c ∈ (s.finish d).components, c.globstar = true) := by
  obtain ⟨x, hadds⟩ := adds_cutOffAll d hpaired
  obtain ⟨hlinked, hglobstar⟩ := h.adds hadds
  obtain ⟨c, cs, hlist⟩ : ∃ c cs, (s.cutOffAll d).trail.toList = c :: cs :=
    List.exists_cons_of_ne_nil (by simp [Trail.toList])
  -- the guard changes the text of the first component only
  have hguard (b : Bool) : (if b then c.guard (Fragment.dotGuard d.dot) else c).origin = c.origin ∧
      (if b then c.guard (Fragment.dotGuard d.dot) else c).isOptional = c.isOptional ∧
      (if b then c.guard (Fragment.dotGuard d.dot) else c).globstar = c.globstar := by
    cases b <;> exact ⟨rfl, rfl, rfl⟩
  obtain ⟨horigin, hoptional, hkept⟩ :=
    hguard (!(s.cutOffAll d).negated && !c.dot && !c.globstar)
  rw [hlist] at hlinked hglobstar
  simp only [Scan.finish, Trail.toList_modifyFirst, hlist, List.modifyHead_cons]
  refine ⟨hlinked.modifyFirst horigin hoptional hkept, ?_⟩
  rw [hglobstar, List.exists_mem_cons_iff, List.exists_mem_cons_iff, hkept]

end Scan

/-! ## Renderings -/

namespace Rendering

variable {d : Dialect} {pattern : String} {r : Rendering}

/-- A rendering is that of an outline, which does not know the dialect. -/
theorem exists_outline (h : ofPattern d pattern = .ok r) :
    ∃ o, Outline.ofPattern pattern = .ok (o, r.unclosed) ∧ Outline.Renders d o r := by
  have hfollows := Outline.ofPattern_follows d pattern
  cases ho : Outline.ofPattern pattern with
  | error e =>
    rw [ho] at hfollows
    cases h.symm.trans hfollows
  | ok p =>
    rw [ho] at hfollows
    obtain ⟨r', hr', hrenders, hunclosed⟩ := hfollows
    obtain rfl : r' = r := Except.ok.inj (hr'.symm.trans h)
    exact ⟨p.1, by rw [hunclosed], hrenders⟩

/-- All but the texts of a rendering is the same in every dialect. -/
theorem ofPattern_dialect (h : ofPattern d pattern = .ok r) (d' : Dialect) :
    ∃ r', ofPattern d' pattern = .ok r' ∧
      r'.components.map Component.erase = r.components.map Component.erase ∧
      r'.hasGlobstar = r.hasGlobstar ∧ r'.negated = r.negated ∧ r'.unclosed = r.unclosed := by
  obtain ⟨o, ho, hrenders⟩ := exists_outline h
  have hfollows := Outline.ofPattern_follows d' pattern
  rw [ho] at hfollows
  obtain ⟨r', hr', hrenders', hunclosed⟩ := hfollows
  exact ⟨r', hr', hrenders'.components.trans hrenders.components.symm,
    hrenders'.hasGlobstar.trans hrenders.hasGlobstar.symm, hrenders'.negated.trans hrenders.negated.symm,
    hunclosed⟩

theorem length_components (h : ofPattern d pattern = .ok r) :
    r.components.length = (tokensOf pattern).count (.plain '/') + 1 := by
  obtain ⟨o, ho, hrenders⟩ := exists_outline h
  obtain ⟨b, bs, ts, tss, hlist, hcomponents, -, htail⟩ := DotMarks.toList_foldl {} (tokensOf pattern)
  calc r.components.length
      = (o.trail.toList.map (·.dot)).length := by
        rw [List.length_map, ← hrenders.components, List.length_map]
    _ = (b :: bs).length := by rw [Outline.dots_ofPattern ho, hlist, List.nil_append]
    _ = (Token.components (tokensOf pattern)).length := by
        rw [hcomponents, List.length_cons, List.length_cons, htail.length_eq]
    _ = (tokensOf pattern).count (.plain '/') + 1 := Token.length_components _

/-- The components of a rendering are linked: the first is not optional, and each later one is optional
just if the one before it holds a globstar, and begins with the separator that goes with it. There is one
more than there are separators that are neither escaped nor in a bracket expression. A rendering has a
globstar if a component has one. In another dialect the texts are other ones, and nothing else. -/
theorem components_linked (h : ofPattern d pattern = .ok r) :
    (∃ c cs, r.components = c :: cs ∧ c.IsFirst ∧ ∀ c' ∈ cs, c'.origin = .separator) ∧
      r.components.IsChain Component.Follows ∧
      r.components.length = (tokensOf pattern).count (.plain '/') + 1 ∧
      (r.hasGlobstar = true ↔ ∃ c ∈ r.components, c.globstar = true) ∧
      ∀ d', ∃ r', ofPattern d' pattern = .ok r' ∧
        r'.components.map Component.erase = r.components.map Component.erase ∧
        r'.hasGlobstar = r.hasGlobstar ∧ r'.negated = r.negated ∧ r'.unclosed = r.unclosed := by
  have hlinked : Component.Linked r.components ∧
      (r.hasGlobstar = true ↔ ∃ c ∈ r.components, c.globstar = true) := by
    obtain ⟨s, -, hreached, -, rfl⟩ := exists_reached h
    exact (Scan.Linked.of_reached hreached).finish (.of_reached hreached)
  obtain ⟨⟨⟨c, hc, hfirst⟩, hchain⟩, hglobstar⟩ := hlinked
  refine ⟨?_, hchain, length_components h, hglobstar, ofPattern_dialect h⟩
  obtain ⟨cs, hcs⟩ : ∃ cs, r.components = c :: cs := List.head?_eq_some_iff.1 hc
  exact ⟨c, cs, hcs, hfirst, Component.Linked.origin_of_mem (hcs ▸ hchain)⟩

/-- A globstar, a separator in a bracket expression, an escaped one, and one in a group that is left
open. -/
theorem components_linked_nested : ∃ r, ofPattern {} "./a/**/[/]\\//(b/c" = .ok r ∧
    r.components.map (fun c => (c.origin, c.isOptional, c.globstar)) =
      [(.start, false, false), (.separator, false, true), (.separator, true, false),
        (.separator, false, false), (.separator, false, false)] ∧
    r.components.IsChain Component.Follows ∧
    r.components.length = (tokensOf "./a/**/[/]\\//(b/c").count (.plain '/') + 1 ∧
    ∃ r', ofPattern { dot := true } "./a/**/[/]\\//(b/c" = .ok r' ∧ r'.unclosed = r.unclosed := by
  obtain ⟨r, hr, hflags⟩ : ∃ r, ofPattern {} "./a/**/[/]\\//(b/c" = .ok r ∧
      decide (r.components.map (fun c => (c.origin, c.isOptional, c.globstar)) =
        [(.start, false, false), (.separator, false, true), (.separator, true, false),
          (.separator, false, false), (.separator, false, false)]) = true :=
    exists_ok_of_any (by decide +kernel)
  obtain ⟨-, hchain, hlength, -, hdialect⟩ := components_linked hr
  obtain ⟨r', hr', -, -, -, hunclosed⟩ := hdialect { dot := true }
  exact ⟨r, hr, of_decide_eq_true hflags, hchain, hlength, r', hr', hunclosed⟩

end Rendering
end PathGlob
