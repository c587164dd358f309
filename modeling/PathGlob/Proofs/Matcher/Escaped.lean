/-
Texts written out. Any character of a glob may have a backslash in front, and those that mean something
need one; behind it they stand for themselves, be it among brace sets, for the comparison of texts or in
the regular expression. So a glob that spells a text accepts this text and no other.
-/
import PathGlob.Proofs.Brace.Limit
import PathGlob.Proofs.Glob.Ordinary
import PathGlob.Proofs.Matcher.Single

namespace PathGlob

open Regex

/-- A glob spells a text: each character is there as it is or behind a backslash, which those with a
meaning of their own need. -/
inductive Spelling : List Char → List Char → Prop
  | nil : Spelling [] []
  | bare {c : Char} {glob text : List Char} (hc : Program.isSpecial c = false)
      (h : Spelling glob text) : Spelling (c :: glob) (c :: text)
  | escaped (c : Char) {glob text : List Char} (h : Spelling glob text) :
      Spelling ('\\' :: c :: glob) (c :: text)

namespace Spelling

variable {glob text : List Char}

/-- What is spelled has a dot in front where its spelling has one. -/
theorem head?_ne_dot (h : Spelling glob text) (hdot : text.head? ≠ some '.') :
    glob.head? ≠ some '.' := by
  cases h with
  | nil => exact hdot
  | bare => exact hdot
  | escaped => exact nofun

/-- Braces are spelled with a backslash, so no brace set is found in a spelling. -/
theorem firstSet?_eq_none (h : Spelling glob text) : Brace.firstSet? glob = none := by
  induction h with
  | nil => rfl
  | @bare c glob text hc _ ih =>
    have hescape : c ≠ '\\' := by rintro rfl; cases hc
    have hbrace : c ≠ '\x7b' := by rintro rfl; cases hc
    rw [Brace.firstSet?, ih, Option.map_none]
    · rintro _ _ rfl
      exact absurd rfl hescape
    · exact hbrace
  | escaped c _ ih =>
    rw [Brace.firstSet?, ih, Option.map_none]

theorem expansions_eq {pattern : String} (h : Spelling pattern.toList text) :
    Group.expansions {} pattern = .ok [pattern] := by
  have hself : Brace.patterns pattern = [pattern] := by
    rw [Brace.patterns, Brace.expansions_of_none h.firstSet?_eq_none, List.map_singleton,
      String.ofList_toList]
  rw [Group.expansions, if_neg (by decide), Brace.expand?_eq, hself]
  rfl

end Spelling

/-! ## Reading a spelling -/

namespace Outline

variable {o : Outline} {b rest : List Char} {c : Char}

/-- A character without meaning of its own opens, closes and announces nothing. -/
theorem step_unspecial (h : o.IsIdle) (hc : Program.isSpecial c = false) : o.step c = .ok (o.plain c) := by
  have hsigil : ExtGlob.ofSigil? c = none := by
    unfold ExtGlob.ofSigil?
    split <;> first | rfl | cases hc
  have hopener : Delimiter.ofOpener? c = none := by
    unfold Delimiter.ofOpener?
    split <;> first | rfl | cases hc
  have hcloser : Delimiter.ofCloser? c = none := by
    unfold Delimiter.ofCloser?
    split <;> first | rfl | cases hc
  rw [step_of_not_bracket o (by rw [h.opened]; rfl), announced?_of_not_sigil hsigil]
  simp only [hopener, hcloser]

/-- A backslash makes a sign of the character behind it. -/
theorem step_escape (h : o.IsIdle) :
    step { o with cursor := ⟨'\\' :: b, c :: rest⟩ } '\\' = .ok
      { o with cursor := ⟨c :: '\\' :: b, rest⟩, parts := o.parts ++ [.glyph (.char c)] } := by
  rw [step_of_not_bracket _ (by simp only [h.opened]; rfl), announced?_of_not_sigil rfl]
  simp only [show Delimiter.ofOpener? '\\' = none from rfl, show Delimiter.ofCloser? '\\' = none from rfl,
    plain]
  rw [settle_of_none (by exact h.closed), escape]
  simp only [Cursor.next?]
  rw [put_flat (isIdle_moved h _)]

/-- A spelling is read as signs that match the characters of what is spelled. -/
theorem run_spelling {text : List Char} (h : o.IsIdle) (hglob : o.place.isGlobstar = false)
    (hspelling : Spelling o.cursor.rest text) :
    ∃ (o' : Outline) (gs : List Glyph), o.run = .ok o' ∧ o'.IsIdle ∧
      o'.negated = o.negated ∧ o'.parts = o.parts ++ gs.map .glyph ∧ Glyph.bar ∉ gs ∧
      ∀ dot, gs.flatMap (Glyph.regexes dot) = text.map Regex.char := by
  generalize hrest : o.cursor.rest = glob at hspelling
  induction hspelling generalizing o with
  | nil => exact ⟨o, [], run_nil hrest, h, rfl, by simp, by simp, fun _ => rfl⟩
  | @bare c glob text hc _ ih =>
    have hcur : o.cursor = ⟨o.cursor.behind, c :: glob⟩ := by rw [← hrest]
    have hflat : isFlat c = true := by
      simp only [Program.isSpecial, decide_eq_false_iff_not, List.mem_cons, not_or] at hc
      simp [isFlat, hc]
    have hadds := plain_flat h hcur hflat (by rintro - rfl; cases hc) (by rintro ⟨rfl, -⟩; cases hc)
    have hnext : (o.place.next c).isGlobstar = false := by
      unfold Place.next
      split <;> first | rfl | exact hglob
    obtain ⟨o', gs, hrun, hidle, hnegated, hparts, hbar, hregexes⟩ :=
      ih hadds.idle (by rw [hadds.place, hnext]) (by rw [hadds.cursor])
    have hglyph : flatGlyph o.place c glob = .separator false ∧ c = '/' ∨
        flatGlyph o.place c glob = .char c := by
      unfold flatGlyph
      split
      · rw [hglob]
        exact .inl ⟨rfl, rfl⟩
      · cases hc
      · cases hc
      · exact .inr rfl
    refine ⟨o', flatGlyph o.place c glob :: gs, ?_, hidle, hnegated.trans hadds.negated, ?_, ?_,
      fun dot => ?_⟩
    · rw [run_cons hcur, step_unspecial (isIdle_moved h _) hc]
      exact hrun
    · rw [hparts, hadds.parts]
      simp
    · rcases hglyph with ⟨hglyph, -⟩ | hglyph <;> simp [hglyph, hbar]
    · rw [List.flatMap_cons, hregexes]
      rcases hglyph with ⟨hglyph, rfl⟩ | hglyph <;> rw [hglyph] <;> rfl
  | @escaped c glob text _ ih =>
    have hcur : o.cursor = ⟨o.cursor.behind, '\\' :: c :: glob⟩ := by rw [← hrest]
    obtain ⟨o', gs, hrun, hidle, hnegated, hparts, hbar, hregexes⟩ :=
      ih (o := { o with cursor := ⟨c :: '\\' :: o.cursor.behind, glob⟩
                        parts := o.parts ++ [.glyph (.char c)] })
        ⟨h.opened, h.announced, h.closed⟩ hglob rfl
    refine ⟨o', .char c :: gs, ?_, hidle, hnegated, ?_, by simp [hbar], fun dot => ?_⟩
    · rw [run_cons hcur, step_escape h]
      exact hrun
    · rw [hparts]
      simp
    · rw [List.flatMap_cons, hregexes]
      rfl

/-- The outline of a spelling. -/
theorem ofPattern_spelling {pattern : String} {text : List Char}
    (hspelling : Spelling pattern.toList text) (hdot : text.head? ≠ some '.') :
    ∃ (out : Outline) (gs : List Glyph),
      ofPattern pattern = .ok (out, []) ∧ out.negated = false ∧ out.parts = gs.map .glyph ∧
      Glyph.bar ∉ gs ∧ ∀ dot, gs.flatMap (Glyph.regexes dot) = text.map Regex.char := by
  have hrelative : Cursor.relative pattern.toList = pattern.toList := by
    refine Cursor.relative_eq_self fun hprefix => ?_
    obtain ⟨cs, hcs⟩ := hprefix
    exact hspelling.head?_ne_dot hdot (by rw [← hcs]; rfl)
  obtain ⟨o', gs, hrun, hidle, hnegated, hparts, hbar, hregexes⟩ :=
    run_spelling (o := { cursor := ⟨[], pattern.toList⟩ }) ⟨rfl, rfl, rfl⟩ rfl hspelling
  have hfinish : o'.finish = o' := by
    unfold finish
    rw [hidle.opened]
    exact settle_of_none hidle.closed
  refine ⟨o', gs, ?_, hnegated, hparts, hbar, hregexes⟩
  rw [ofPattern, Cursor.ofPattern, hrelative, hrun]
  simp only [Except.map, hfinish, hidle.opened]
  rfl

end Outline

/-! ## Matching a spelling -/

/-- A spelling of a text that does not begin with a dot has a matcher, which accepts the text and nothing
else. -/
theorem Matcher.accepts_spelling (pattern text : String) (h : Spelling pattern.toList text.toList)
    (hdot : text.toList.head? ≠ some '.') (hlen : pattern.length ≤ 65536) :
    ∃ m, Matcher.ofPattern {} pattern = .ok m ∧
      ∀ candidate, m.accepts candidate = true ↔ candidate = text := by
  obtain ⟨out, gs, hout, hnegated, hparts, hbar, hregexes⟩ := Outline.ofPattern_spelling h hdot
  have hcompiles : Outline.Compiles {} pattern out (text.toList.map Regex.char) :=
    ⟨hlen, ⟨[], hout, fun _ => rfl⟩, by
      rw [hparts, Part.regexes?_glyphs, ← hregexes]
      rfl⟩
  have hbars : ∀ p ∈ out.parts, p.isBar = false := by
    rw [hparts]
    intro p hp
    obtain ⟨g, hg, rfl⟩ := List.mem_map.1 hp
    simp only [Part.isBar, decide_eq_false_iff_not]
    rintro rfl
    exact hbar hg
  obtain ⟨m, hm, haccepts⟩ :=
    Matcher.exists_of_compiles hcompiles rfl h.expansions_eq rfl rfl rfl hbars
  refine ⟨m, hm, fun candidate => ?_⟩
  rw [haccepts, Outline.Accepts, hnegated, if_neg Bool.false_ne_true, spansAll_chars (Nat.zero_le _),
    List.drop_zero, String.toList_inj]
  refine and_iff_right_of_imp ?_
  -- the guard, if there is one, lets the text itself pass
  rintro rfl - hhides
  rw [Fragment.hides_false, List.getElem?_toArray, ← List.head?_eq_getElem?] at hhides
  exact hdot hhides

/-- A leading sign of negation, brackets, braces and a bare comma, and a needless backslash before a
letter. -/
theorem Matcher.accepts_spelled_signs :
    Spelling "\\!\\[a\\]/.\\\x7bb,\\c\\\x7d".toList "![a]/.\x7bb,c\x7d".toList ∧
    ∃ m, Matcher.ofPattern {} "\\!\\[a\\]/.\\\x7bb,\\c\\\x7d" = .ok m ∧
      ∀ candidate, m.accepts candidate = true ↔ candidate = "![a]/.\x7bb,c\x7d" := by
  have hspelling : Spelling "\\!\\[a\\]/.\\\x7bb,\\c\\\x7d".toList "![a]/.\x7bb,c\x7d".toList :=
    .escaped '!' <| .escaped '[' <| .bare rfl <| .escaped ']' <| .bare rfl <| .bare rfl <|
      .escaped '\x7b' <| .bare rfl <| .bare rfl <| .escaped 'c' <| .escaped '\x7d' .nil
  exact ⟨hspelling, accepts_spelling _ _ hspelling (by decide) (by decide)⟩

end PathGlob
