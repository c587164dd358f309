/-
The groups of a glob and the signs around them. A group is negated only if a `!` announces it, and what
is enclosed is repeated only if a `+` follows the character that closes it. Both are read off what a
single step can add to an outline.
-/
import PathGlob.Proofs.Glob.Grammar
import PathGlob.Proofs.Glob.Widening

namespace PathGlob.Outline

/-! ## What a step adds -/

/-- Signs have been put somewhere. -/
structure Puts (o o' : Outline) : Prop where
  parts : ∀ p ∈ o'.parts, p ∈ o.parts ∨ ∃ g, p = .glyph g
  closed : o'.closed = o.closed
  opened : ∀ g body, o'.opened = .group g body → ∃ body', o.opened = .group g body'
  announced : o'.announced = o.announced

namespace Puts

variable {o o' : Outline}

theorem refl (o : Outline) : Puts o o := ⟨fun _ hp => .inl hp, rfl, fun _ body h => ⟨body, h⟩, rfl⟩

theorem put (h : Puts o o') (x : Glyph) : Puts o (o'.put x) := by
  cases ho : o'.opened with
  | group g body =>
    rw [put_inside ho]
    refine ⟨h.parts, h.closed, fun g' body' hg => ?_, h.announced⟩
    cases hg
    exact h.opened g body ho
  | _ =>
    rw [put_outside (by rw [ho]; rfl)]
    refine ⟨fun p hp => ?_, h.closed, h.opened, h.announced⟩
    rcases List.mem_append.1 hp with hp | hp
    · exact h.parts p hp
    · exact .inr ⟨x, List.mem_singleton.1 hp⟩

/-- What is known of the cursor and the components does not matter. -/
theorem of_eq (h : Puts o o') {u : Outline} (hparts : u.parts = o'.parts) (hclosed : u.closed = o'.closed)
    (hopened : u.opened = o'.opened) (hannounced : u.announced = o'.announced) : Puts o u :=
  ⟨hparts ▸ h.parts, hclosed.trans h.closed, hopened ▸ h.opened, hannounced.trans h.announced⟩

theorem put_of_eq (o : Outline) {u : Outline} (hparts : u.parts = o.parts) (hclosed : u.closed = o.closed)
    (hopened : u.opened = o.opened) (hannounced : u.announced = o.announced) (x : Glyph) :
    Puts o (u.put x) :=
  ((refl o).of_eq hparts hclosed hopened hannounced).put x

/-- A character that is no delimiter and announces no group only puts signs. -/
theorem plain (o : Outline) (c : Char) : ∃ b, (b = true → c = '+') ∧ Puts (o.settle b) (o.plain c) := by
  have hliteral : Puts o.settle (o.settle.literal c) := (refl _).put _
  have hput {u : Outline} (hparts : u.parts = o.settle.parts) (hclosed : u.closed = none)
      (hopened : u.opened = o.opened) (hannounced : u.announced = o.announced) (x : Glyph) :
      ∃ b, (b = true → c = '+') ∧ Puts (o.settle b) (u.put x) :=
    ⟨false, nofun, put_of_eq o.settle hparts hclosed hopened hannounced x⟩
  -- only a `+` repeats, and only what has just been closed
  unfold Outline.plain
  split
  case h_1 =>
    split
    · exact ⟨true, fun _ => rfl, refl _⟩
    · rename_i hclosed
      refine ⟨false, nofun, ?_⟩
      rw [settle_of_none (Option.not_isSome_iff_eq_none.1 hclosed)]
      exact (refl o).put _
  case h_2 =>
    unfold escape
    split <;> exact hput (by rfl) (by rfl) (by rfl) (by rfl) _
  case h_3 => exact hput (by rfl) (by rfl) (by rfl) (by rfl) _
  case h_4 =>
    unfold literalDot
    split <;> exact hput (by rfl) (by rfl) (by rfl) (by rfl) _
  case h_5 =>
    split
    · exact ⟨false, nofun, (refl _).of_eq rfl rfl rfl rfl⟩
    · exact ⟨false, nofun, hliteral⟩
  case h_6 =>
    unfold star
    split
    · obtain ⟨b, hb, hputs⟩ := hput (u := o.settle.mark fun c => { c with globstar := true }) rfl rfl rfl
        rfl (.globstar o.settle.dot)
      exact ⟨b, hb, hputs.of_eq rfl rfl rfl rfl⟩
    · exact hput (by rfl) (by rfl) (by rfl) (by rfl) _
  case h_7 =>
    unfold qmark
    split
    · exact ⟨false, nofun, refl _⟩
    · exact hput (by rfl) (by rfl) (by rfl) (by rfl) _
  case h_8 =>
    unfold colon
    split
    · exact ⟨false, nofun, (refl _).of_eq rfl rfl rfl rfl⟩
    · exact hput (by rfl) (by rfl) (by rfl) (by rfl) _
  case h_9 => exact ⟨false, nofun, hliteral⟩

end Puts

theorem mem_parts_settle {o : Outline} {b : Bool} {p : Part} (hp : p ∈ (o.settle b).parts) :
    p ∈ o.parts ∨ ∃ e, o.closed = some e ∧ p = .enclosed e b := by
  simp only [settle, List.mem_append, Option.mem_toList, Option.map_eq_some_iff] at hp
  rcases hp with hp | ⟨e, he, rfl⟩
  · exact .inl hp
  · exact .inr ⟨e, he, rfl⟩

/-- What a step can do to what is enclosed: it puts signs, moves what the last character closed to the
parts, closes what is open, and opens the group that was announced. -/
structure Gains (c : Char) (o o' : Outline) : Prop where
  parts : ∀ p ∈ o'.parts, p ∈ o.parts ∨ (∃ g, p = .glyph g) ∨
    ∃ e b, o.closed = some e ∧ p = .enclosed e b ∧ (b = true → c = '+')
  closed : ∀ e, o'.closed = some e →
    (o.closed = some e ∧ o.opened.isBracket = true) ∨
    ((c = ')' ∨ c = ']') ∧ o'.opened = .nothing ∧ o'.cursor = o.cursor ∧
      (e.sigil? = none ∨ ∃ body, o.opened = .group e.sigil? body))
  opened : ∀ g body, o'.opened = .group g body →
    (∃ body', o.opened = .group g body') ∨ o.announced = g
  announced : ∀ g, o'.announced = some g → o.announced = some g ∨ ExtGlob.ofSigil? c = some g

namespace Gains

variable {c : Char} {o o' : Outline}

theorem parts_settle {b : Bool} (hb : b = true → c = '+') {p : Part} (hp : p ∈ (o.settle b).parts) :
    p ∈ o.parts ∨ (∃ g, p = .glyph g) ∨
      ∃ e b, o.closed = some e ∧ p = .enclosed e b ∧ (b = true → c = '+') := by
  rcases mem_parts_settle hp with hp | ⟨e, he, hpe⟩
  · exact .inl hp
  · exact .inr (.inr ⟨e, b, he, hpe, hb⟩)

/-- Signs behind what has been settled. -/
theorem of_puts {b : Bool} (hb : b = true → c = '+') (h : Puts (o.settle b) o') : Gains c o o' where
  parts p hp := by
    rcases h.parts p hp with hp | hglyph
    · exact parts_settle hb hp
    · exact .inr (.inl hglyph)
  closed e he := by cases h.closed.symm.trans he
  opened g body hg := .inl (h.opened g body hg)
  announced g hg := .inl (h.announced.symm.trans hg)

theorem stepBracket (b : Bracket) (ho : o.opened = .bracket b) : Gains c o (o.stepBracket b c) where
  parts p hp := by
    rw [parts_stepBracket] at hp
    exact .inl hp
  closed e he := by
    have hbracket : o.opened.isBracket = true := by rw [ho]; rfl
    unfold Outline.stepBracket at he ⊢
    -- all but a `]` behind the first member leave the expression open
    (repeat' split at he) <;> try exact .inl ⟨he, hbracket⟩
    rename_i hsign hcloser hfilled
    rw [if_neg hsign, if_pos hcloser, dif_neg hfilled]
    cases he
    exact .inr ⟨.inr hcloser, rfl, rfl, .inl rfl⟩
  opened g body hg := by
    unfold Outline.stepBracket at hg
    (repeat' split at hg) <;> cases hg
  announced g hg := by
    rw [announced_stepBracket] at hg
    exact .inl hg

/-- Signs behind what leaves nothing closed. -/
theorem puts (h : Gains c o o') (hclosed : o'.closed = none) {u : Outline} (hputs : Puts o' u) :
    Gains c o u where
  parts p hp := by
    rcases hputs.parts p hp with hp | hglyph
    · exact h.parts p hp
    · exact .inr (.inl hglyph)
  closed e he := by cases (hputs.closed.trans hclosed).symm.trans he
  opened g body hg := by
    obtain ⟨body', hg⟩ := hputs.opened g body hg
    exact h.opened g body' hg
  announced g hg := h.announced g (hputs.announced.symm.trans hg)

/-- What is closed has been settled, and something else than a group may be open. -/
theorem settled {u : Outline} (hparts : u.parts = o.settle.parts) (hclosed : u.closed = none)
    (hopened : ∀ g body, u.opened = .group g body → o.announced = g)
    (hannounced : ∀ g, u.announced = some g → o.announced = some g ∨ ExtGlob.ofSigil? c = some g) :
    Gains c o u where
  parts p hp := by
    rw [hparts] at hp
    exact parts_settle (b := false) nofun hp
  closed e he := by cases hclosed.symm.trans he
  opened g body hg := .inr (hopened g body hg)
  announced := hannounced

theorem openAt (o : Outline) (k : Delimiter) (c : Char) : Gains c o (o.settle.openAt k c) := by
  have hliteral : Gains c o (o.settle.literal c) := of_puts (b := false) nofun ((Puts.refl _).put _)
  have hpair (k : Delimiter) : Gains c o (Outline.literal { o.settle with opened := .pair k } c) :=
    have hopen : Gains c o { o.settle with opened := .pair k } :=
      settled rfl rfl nofun fun g hg => .inl hg
    hopen.puts rfl ((Puts.refl _).put _)
  unfold Outline.openAt
  split
  · cases k with
    | paren => exact settled rfl rfl (fun g body hg => (Opened.group.inj hg).1) nofun
    | bracket => exact settled rfl rfl nofun fun g hg => .inl hg
    | angle => exact hpair .angle
    | brace => exact hpair .brace
    | quote => exact hpair .quote
  · exact hliteral

theorem closeAt {k : Delimiter} (hk : Delimiter.ofCloser? c = some k)
    (h : o.settle.closeAt k c = .ok o') : Gains c o o' := by
  have hliteral : Gains c o (o.settle.literal c) := of_puts (b := false) nofun ((Puts.refl _).put _)
  unfold Outline.closeAt at h
  split at h <;> cases h
  · rename_i g body ho
    split
    · rename_i hparen
      rw [hparen] at hk
      have hc : c = ')' := (Delimiter.ofCloser?_closer hk).symm
      refine ⟨fun p hp => parts_settle (b := false) nofun hp, fun e he => ?_, nofun,
        fun g hg => .inl hg⟩
      cases he
      exact .inr ⟨.inl hc, rfl, rfl, .inr ⟨body, ho⟩⟩
    · exact hliteral
  · split
    · have hended : Gains c o { o.settle with opened := .nothing } :=
        settled rfl rfl nofun fun g hg => .inl hg
      exact hended.puts rfl ((Puts.refl _).put _)
    · exact hliteral
  · exact hliteral

theorem step (h : o.step c = .ok o') : Gains c o o' := by
  unfold Outline.step at h
  split at h
  · rename_i b ho
    cases h
    exact stepBracket b ho
  · split at h
    · rename_i g hg
      cases h
      refine ⟨fun p hp => parts_settle (b := false) nofun hp, nofun, fun g body ho => .inl ⟨body, ho⟩,
        fun g' hg' => .inr ?_⟩
      cases hg'
      unfold announced? at hg
      split at hg
      · exact hg
      · cases hg
    · split at h
      · cases h
        exact openAt o _ c
      · split at h
        · rename_i k hk
          exact closeAt hk h
        · cases h
          obtain ⟨b, hb, hputs⟩ := Puts.plain o c
          exact of_puts hb hputs

end Gains

/-- At the end of a glob what is still open is closed, and nothing is repeated. -/
theorem mem_parts_finish {o : Outline} {p : Part} (hp : p ∈ o.finish.parts) : p ∈ o.parts ∨
    ∃ e, p = .enclosed e false ∧
      (o.closed = some e ∨ e.sigil? = none ∨ ∃ body, o.opened = .group e.sigil? body) := by
  have hclosed (h : p ∈ o.settle.parts) : p ∈ o.parts ∨ ∃ e, p = .enclosed e false ∧
      (o.closed = some e ∨ e.sigil? = none ∨ ∃ body, o.opened = .group e.sigil? body) := by
    rcases mem_parts_settle h with hp | ⟨e, he, rfl⟩
    · exact .inl hp
    · exact .inr ⟨e, rfl, .inl he⟩
  unfold finish at hp
  split at hp
  case h_1 => exact hclosed hp
  case h_2 g body ho =>
    rcases mem_parts_settle hp with hp | ⟨e, he, rfl⟩
    · exact hclosed hp
    · cases he
      exact .inr ⟨_, rfl, .inr (.inr ⟨body, ho⟩)⟩
  case h_3 => exact hclosed hp
  case h_4 =>
    rcases mem_parts_settle hp with hp | ⟨e, he, rfl⟩
    · exact hclosed hp
    · cases he
      exact .inr ⟨_, rfl, .inr (.inl rfl)⟩

/-! ## Negated groups -/

/-- Nothing has been negated, and nothing will be. -/
structure Unnegated (o : Outline) : Prop where
  parts : ∀ p ∈ o.parts, p.isNegation = false
  closed : ∀ e, o.closed = some e → e.sigil? ≠ some .negate
  opened : ∀ body, o.opened ≠ .group (some .negate) body
  announced : o.announced ≠ some .negate
  rest : '!' ∉ o.cursor.rest

theorem Unnegated.step {o o' : Outline} {b rest : List Char} {c : Char} (h : Unnegated o)
    (hcursor : o.cursor = ⟨b, c :: rest⟩)
    (hs : Outline.step { o with cursor := ⟨c :: b, rest⟩ } c = .ok o') : Unnegated o' := by
  have hgains := Gains.step hs
  have hrest : '!' ∉ c :: rest := by
    have hrest := h.rest
    rwa [hcursor] at hrest
  have hc : c ≠ '!' := fun hc => hrest (by simp [hc])
  refine ⟨fun p hp => ?_, fun e he hsigil => ?_, fun body hbody => ?_, fun hannounced => ?_, fun hm => ?_⟩
  · rcases hgains.parts p hp with hp | ⟨g, rfl⟩ | ⟨e, b, he, rfl, -⟩
    · exact h.parts p hp
    · rfl
    · simpa [Part.isNegation] using h.closed e he
  · rcases hgains.closed e he with ⟨he, -⟩ | ⟨-, -, -, hnone | ⟨body, hbody⟩⟩
    · exact h.closed e he hsigil
    · cases hsigil.symm.trans hnone
    · rw [hsigil] at hbody
      exact h.opened body hbody
  · rcases hgains.opened _ body hbody with ⟨body', hbody'⟩ | hannounced
    · exact h.opened body' hbody'
    · exact h.announced hannounced
  · rcases hgains.announced _ hannounced with hannounced | hsigil
    · exact h.announced hannounced
    · unfold ExtGlob.ofSigil? at hsigil
      split at hsigil <;> first | exact hc rfl | cases hsigil
  · exact hrest (List.mem_cons_of_mem _ ((suffix_step hs).subset hm))

/-- A glob without exclamation marks is not negated, and no group in it is. -/
theorem ofPattern_unnegated {pattern : String} (h : '!' ∉ pattern.toList) {o : Outline}
    {openers : List Char} (ho : ofPattern pattern = .ok (o, openers)) :
    o.negated = false ∧ ∀ p ∈ o.parts, p.isNegation = false := by
  have hrelative : '!' ∉ Cursor.relative pattern.toList := fun hm =>
    h ((Cursor.suffix_relative _).subset hm)
  unfold ofPattern at ho
  cases hrun : run { cursor := .ofPattern pattern } with
  | error e =>
    rw [hrun] at ho
    cases ho
  | ok o' =>
    rw [hrun] at ho
    cases ho
    have hstart : Unnegated { cursor := .ofPattern pattern } := ⟨nofun, nofun, nofun, nofun, hrelative⟩
    obtain ⟨hend, -⟩ := run_preserves (fun o b c rest o' h => h.step) hstart hrun
    refine ⟨?_, fun p hp => ?_⟩
    · rw [negated_finish, ← Bool.not_eq_true]
      intro hnegated
      exact hrelative (List.mem_of_getElem? ((negated_iff hrun).1 hnegated).1)
    · rcases mem_parts_finish hp with hp | ⟨e, rfl, he⟩
      · exact hend.parts p hp
      · have hsigil : e.sigil? ≠ some .negate := by
          rintro hsigil
          rcases he with he | hnone | ⟨body, hbody⟩
          · exact hend.closed e he hsigil
          · cases hsigil.symm.trans hnone
          · rw [hsigil] at hbody
            exact hend.opened body hbody
        simpa [Part.isNegation] using hsigil

/-! ## Possessive loops -/

/-- Whether an expression is repeated that a group repeats already. -/
def repeatsLoop (pattern : String) : Bool :=
  match ofPattern pattern with
  | .ok (o, _) => o.parts.any Part.isPossessive
  | .error _ => false

/-- No `+` has been read behind what a `)` or a `]` closes, and none will be. -/
structure Unrepeated (o : Outline) : Prop where
  parts : ∀ p ∈ o.parts, p.isPossessive = false
  closed : o.closed.isSome = true → o.opened = .nothing ∧ o.cursor.rest.head? ≠ some '+'
  rest : ∀ c ∈ [')', ']'], ¬ [c, '+'] <:+: o.cursor.rest

theorem Unrepeated.step {o o' : Outline} {b rest : List Char} {c : Char} (h : Unrepeated o)
    (hcursor : o.cursor = ⟨b, c :: rest⟩)
    (hs : Outline.step { o with cursor := ⟨c :: b, rest⟩ } c = .ok o') : Unrepeated o' := by
  have hgains := Gains.step hs
  have hsuffix : o'.cursor.rest <:+ c :: rest := (suffix_step hs).trans (List.suffix_cons c rest)
  have hrest : ∀ x ∈ [')', ']'], ¬ [x, '+'] <:+: c :: rest := by
    have hrest := h.rest
    rwa [hcursor] at hrest
  refine ⟨fun p hp => ?_, fun hclosed => ?_, fun x hx hi => hrest x hx (hi.trans hsuffix.isInfix)⟩
  · rcases hgains.parts p hp with hp | ⟨g, rfl⟩ | ⟨e, isRepeated, he, rfl, hplus⟩
    · exact h.parts p hp
    · rfl
    · -- a `+` that repeats would be the next character behind what was closed
      have hno : isRepeated = false := by
        rw [← Bool.not_eq_true]
        intro hrepeated
        have hclosed : o.closed = some e := he
        have hhead := (h.closed (by rw [hclosed]; rfl)).2
        rw [hcursor, hplus hrepeated] at hhead
        exact hhead rfl
      rw [hno]
      rfl
  · obtain ⟨e, he⟩ := Option.isSome_iff_exists.1 hclosed
    rcases hgains.closed e he with ⟨hstill, hbracket⟩ | ⟨hc, hopened, hcursor', -⟩
    · have hnothing := (h.closed (by rw [show o.closed = some e from hstill]; rfl)).1
      have hopen : o.opened.isBracket = true := hbracket
      rw [hnothing] at hopen
      cases hopen
    · refine ⟨hopened, fun hhead => ?_⟩
      rw [hcursor'] at hhead
      cases rest with
      | nil => cases hhead
      | cons x xs =>
        cases hhead
        exact hrest c (by simpa using hc) ⟨[], xs, rfl⟩

/-- Where no `+` directly follows a `)` or a `]` no loop is repeated. -/
theorem repeatsLoop_eq_false {pattern : String} (h : ∀ c ∈ [')', ']'], ¬ [c, '+'] <:+: pattern.toList) :
    repeatsLoop pattern = false := by
  unfold repeatsLoop ofPattern
  cases hrun : run { cursor := .ofPattern pattern } with
  | error e => rfl
  | ok o =>
    have hstart : Unrepeated { cursor := .ofPattern pattern } :=
      ⟨nofun, nofun, fun c hc hi => h c hc (hi.trans (Cursor.suffix_relative _).isInfix)⟩
    obtain ⟨hend, -⟩ := run_preserves (fun o b c rest o' h => h.step) hstart hrun
    change (o.finish.parts.any Part.isPossessive) = false
    rw [List.any_eq_false]
    intro p hp
    rcases mem_parts_finish hp with hp | ⟨e, rfl, -⟩
    · rw [hend.parts p hp]
      exact Bool.false_ne_true
    · exact Bool.false_ne_true

end PathGlob.Outline
