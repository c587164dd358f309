/-
Text without meaning of its own. Outside bracket expressions such text is read as its characters,
whatever is open and whatever follows it; so a group of such alternatives is read as one, and what
stands before and behind it stands for itself.
-/
import PathGlob.Matcher
import PathGlob.Proofs.Glob.Meaning

namespace PathGlob

/-- Whether a character stands for itself outside bracket expressions and is no part of a path's
structure. -/
def isOrdinary (c : Char) : Bool := !Program.isSpecial c && c ≠ '.' && c ≠ '/'

/-- The parts of a text that stands for itself. -/
def Part.chars (cs : List Char) : List Part := cs.map fun c => .glyph (.char c)

/-- The sign of a character of ordinary alternatives. -/
def Glyph.ofBody (c : Char) : Glyph := if c = '|' then .bar else .char c

/-- The sigil of a group, if it has one. -/
def ExtGlob.sigils (g : Option ExtGlob) : List Char := (g.map sigil).toList

/-- What stands between two texts has operands between theirs, if it has any. -/
theorem Part.regexes?_between (dot : Bool) (p : Part) (pre post : List Char) :
    regexes? dot (chars pre ++ p :: chars post) =
      (p.operands? dot).map fun qs => pre.map Regex.char ++ (qs.map (·.1) ++ post.map Regex.char) := by
  have hchars (cs : List Char) : (chars cs).mapM (operands? dot) =
      some (cs.map fun c => [(Regex.char c, Regex.Quantified.bare)]) := by
    induction cs with
    | nil => rfl
    | cons c cs ih =>
      change (Part.glyph (.char c) :: chars cs).mapM (operands? dot) = _
      rw [List.mapM_cons, ih]
      rfl
  rw [regexes?, List.mapM_append, List.mapM_cons, hchars, hchars]
  cases operands? dot p with
  | none => rfl
  | some qs => simp [← List.flatMap_def, List.flatMap_map, ← List.map_eq_flatMap]

/-- What encloses something between two texts has an operand if what is enclosed has one. -/
theorem Part.regexes?_enclosed (dot : Bool) (e : Enclosed) (pre post : List Char) :
    regexes? dot (chars pre ++ .enclosed e false :: chars post) =
      (e.operand? dot).map fun p => pre.map Regex.char ++ p.1 :: post.map Regex.char := by
  rw [regexes?_between, show operands? dot (.enclosed e false) = (e.operand? dot).map ([·]) by
    simp [operands?]]
  cases e.operand? dot <;> rfl

theorem Part.isBar_between {p : Part} (hp : p.isBar = false) (pre post : List Char) :
    ∀ q ∈ chars pre ++ p :: chars post, q.isBar = false := by
  have hchars (cs : List Char) : ∀ p ∈ chars cs, p.isBar = false := by
    intro p hp
    obtain ⟨c, -, rfl⟩ := List.mem_map.1 hp
    rfl
  intro q hq
  rcases List.mem_append.1 hq with hq | hq
  · exact hchars pre q hq
  · rcases List.mem_cons.1 hq with rfl | hq
    · exact hp
    · exact hchars post q hq

section Characters

variable {c : Char}

theorem ofOpener?_ordinary (h : isOrdinary c = true) : Delimiter.ofOpener? c = none := by
  unfold Delimiter.ofOpener?
  split <;> first | rfl | cases h

theorem ofCloser?_ordinary (h : isOrdinary c = true) : Delimiter.ofCloser? c = none := by
  unfold Delimiter.ofCloser?
  split <;> first | rfl | cases h

theorem ofSigil?_ordinary (h : isOrdinary c = true) : ExtGlob.ofSigil? c = none := by
  unfold ExtGlob.ofSigil?
  split <;> first | rfl | cases h

end Characters

namespace Outline

variable {o : Outline} {b cs rest : List Char} {c : Char}

/-! ## One character -/

theorem announced?_of_not_sigil (hc : ExtGlob.ofSigil? c = none) (o : Outline) :
    o.announced? c = none := by
  unfold announced?
  rw [hc, ite_self]

theorem plain_ordinary (hc : isOrdinary c = true) (o : Outline) :
    o.plain c = o.settle.put (.char c) := by
  have hbar : c ≠ '|' := by
    rintro rfl
    cases hc
  unfold plain
  split
  case h_9 => simp [literal, hbar]
  all_goals cases hc

theorem step_ordinary (hb : o.opened.isBracket = false) (hc : isOrdinary c = true) :
    o.step c = .ok (o.settle.put (.char c)) := by
  rw [step_of_not_bracket o hb, announced?_of_not_sigil (ofSigil?_ordinary hc)]
  simp only [ofOpener?_ordinary hc, ofCloser?_ordinary hc, plain_ordinary hc]

/-- A character of the alternatives of a group. -/
theorem step_body {g : Option ExtGlob} {body : List Glyph} (ho : o.opened = .group g body)
    (hclosed : o.closed = none) (hc : c = '|' ∨ isOrdinary c = true) :
    o.step c = .ok { o with opened := .group g (body ++ [.ofBody c]) } := by
  rcases hc with rfl | hc
  · rw [step_of_not_bracket o (by rw [ho]; rfl), announced?_of_not_sigil rfl]
    simp [Delimiter.ofOpener?, Delimiter.ofCloser?, plain, settle_of_none hclosed, literal, ho,
      Opened.isNothing, put, Glyph.ofBody]
  · have hbar : c ≠ '|' := by
      rintro rfl
      cases hc
    rw [step_ordinary (by rw [ho]; rfl) hc, settle_of_none hclosed, put_inside ho, Glyph.ofBody,
      if_neg hbar]

/-! ## Texts -/

/-- Where nothing is open an ordinary text adds its characters to the parts. -/
theorem run_ordinary (rest : List Char) (ho : o.opened = .nothing) (hclosed : o.closed = none)
    (hcs : ∀ c ∈ cs, isOrdinary c = true) :
    run { o with cursor := ⟨b, cs ++ rest⟩ } =
      run { o with cursor := ⟨cs.reverse ++ b, rest⟩, parts := o.parts ++ Part.chars cs } := by
  induction cs generalizing o b with
  | nil => simp [Part.chars]
  | cons c cs ih =>
    have hstep : step { o with cursor := ⟨c :: b, cs ++ rest⟩ } c = .ok
        { o with cursor := ⟨c :: b, cs ++ rest⟩, parts := o.parts ++ [.glyph (.char c)] } := by
      rw [step_ordinary (by simp only [ho]; rfl) (hcs c (by simp)), settle_of_none (by exact hclosed),
        put_outside (by simp only [ho]; rfl)]
    rw [List.cons_append, run_cons rfl, hstep]
    have hrest := ih (o := { o with parts := o.parts ++ [.glyph (.char c)] }) (b := c :: b) ho hclosed
      fun x hx => hcs x (by simp [hx])
    refine hrest.trans ?_
    simp [Part.chars]

/-- The end of a glob that is ordinary text behind something closed. -/
theorem run_ordinary_end (ho : o.opened = .nothing) (hcs : ∀ c ∈ cs, isOrdinary c = true) :
    ∃ o', run { o with cursor := ⟨b, cs⟩ } = .ok o' ∧ o'.opened = .nothing ∧ o'.finish = { o with
      cursor := ⟨cs.reverse ++ b, []⟩
      closed := none
      parts := o.parts ++ (o.closed.map (Part.enclosed · false)).toList ++ Part.chars cs } := by
  cases cs with
  | nil =>
    refine ⟨_, run_nil rfl, ho, ?_⟩
    simp only [finish, ho]
    simp [settle, Part.chars]
  | cons c cs =>
    have hstep : step { o with cursor := ⟨c :: b, cs⟩ } c = .ok
        { o with cursor := ⟨c :: b, cs⟩, closed := none, parts := o.parts ++
          (o.closed.map (Part.enclosed · false)).toList ++ [.glyph (.char c)] } := by
      rw [step_ordinary (by simp only [ho]; rfl) (hcs c (by simp)),
        put_outside (by simp only [settle, ho]; rfl)]
      rfl
    have hrest : ∀ x ∈ cs, isOrdinary x = true := fun x hx => hcs x (by simp [hx])
    have hrun := run_ordinary (o := { o with closed := none, parts := o.parts ++
      (o.closed.map (Part.enclosed · false)).toList ++ [.glyph (.char c)] }) (b := c :: b) [] ho rfl
      hrest
    rw [run_cons rfl, hstep]
    rw [List.append_nil] at hrun
    refine ⟨_, hrun.trans (run_nil rfl), ho, ?_⟩
    simp only [finish, ho]
    rw [settle_of_none rfl]
    simp [Part.chars]

/-- Ordinary alternatives in a group add their signs to it. -/
theorem run_body {g : Option ExtGlob} {body : List Glyph} (hclosed : o.closed = none)
    (hcs : ∀ c ∈ cs, c = '|' ∨ isOrdinary c = true) :
    run { o with cursor := ⟨b, cs ++ rest⟩, opened := .group g body } =
      run { o with cursor := ⟨cs.reverse ++ b, rest⟩, opened := .group g (body ++ cs.map .ofBody) } := by
  induction cs generalizing b body with
  | nil => simp
  | cons c cs ih =>
    have hstep : step { o with cursor := ⟨c :: b, cs ++ rest⟩, opened := .group g body } c = .ok
        { o with cursor := ⟨c :: b, cs ++ rest⟩, opened := .group g (body ++ [.ofBody c]) } :=
      step_body rfl hclosed (hcs c (by simp))
    rw [List.cons_append, run_cons rfl, hstep]
    refine (ih fun x hx => hcs x (by simp [hx])).trans ?_
    simp

/-- Behind an opening parenthesis a text is read as signs of the group, whatever follows. -/
def IsBody (cs : List Char) (gs : List Glyph) : Prop :=
  ∀ (o : Outline) (g : Option ExtGlob) (b rest : List Char), o.closed = none →
    run { o with cursor := ⟨'(' :: b, cs ++ rest⟩, opened := .group g [] } =
      run { o with cursor := ⟨cs.reverse ++ '(' :: b, rest⟩, opened := .group g gs }

theorem isBody_ordinary (hcs : ∀ c ∈ cs, c = '|' ∨ isOrdinary c = true) :
    IsBody cs (cs.map .ofBody) := fun _ _ _ _ hclosed => run_body hclosed hcs

/-- A group is read as a whole if its text is. -/
theorem run_group {gs : List Glyph} (g : Option ExtGlob) (rest : List Char) (ho : o.opened = .nothing)
    (hclosed : o.closed = none) (hannounced : o.announced = none) (hbody : IsBody cs gs) :
    ∃ b', run { o with cursor := ⟨b, ExtGlob.sigils g ++ '(' :: (cs ++ ')' :: rest)⟩ } =
      run (closeGroup { o with cursor := ⟨b', rest⟩ } g gs) := by
  obtain ⟨b', hb'⟩ : ∃ b',
      run { o with cursor := ⟨b, ExtGlob.sigils g ++ '(' :: (cs ++ ')' :: rest)⟩ } =
        run { o with cursor := ⟨b', '(' :: (cs ++ ')' :: rest)⟩, announced := g } := by
    cases g with
    | none => exact ⟨b, by simp only [hannounced]; rfl⟩
    | some g =>
      refine ⟨g.sigil :: b, ?_⟩
      have hstep (cursor : Cursor) (hnext : cursor.nextIs '(' = true) :
          step { o with cursor } g.sigil = .ok { o with cursor, announced := some g } := by
        rw [step_of_not_bracket _ (by simp only [ho]; rfl)]
        simp only [announced?, ho, hnext, Opened.isNothing, Bool.and_self, if_true,
          ExtGlob.ofSigil?_sigil]
        rw [settle_of_none (by exact hclosed)]
      change run { o with cursor := ⟨b, g.sigil :: '(' :: (cs ++ ')' :: rest)⟩ } = _
      rw [run_cons rfl, hstep _ rfl]
      rfl
  have hopen : step { o with cursor := ⟨'(' :: b', cs ++ ')' :: rest⟩, announced := g } '(' =
      .ok { o with cursor := ⟨'(' :: b', cs ++ ')' :: rest⟩, opened := .group g [] } := by
    rw [step_of_not_bracket _ (by simp only [ho]; rfl), announced?_of_not_sigil rfl]
    simp only [Delimiter.ofOpener?]
    rw [settle_of_none (by exact hclosed)]
    simp only [openAt, ho, hannounced]
  have hclose (b : List Char) : step { o with
      cursor := ⟨b, rest⟩, opened := .group g gs } ')' =
      .ok (closeGroup { o with cursor := ⟨b, rest⟩ } g gs) := by
    rw [step_of_not_bracket _ rfl, announced?_of_not_sigil rfl]
    simp only [Delimiter.ofOpener?, Delimiter.ofCloser?]
    rw [settle_of_none (by exact hclosed)]
    rfl
  refine ⟨')' :: (cs.reverse ++ '(' :: b'), ?_⟩
  rw [hb', run_cons rfl, hopen]
  change run { o with cursor := ⟨'(' :: b', cs ++ ')' :: rest⟩, opened := .group g [] } = _
  rw [hbody o g b' _ hclosed, run_cons rfl, hclose]
  rfl

/-! ## Whole globs -/

theorem relative_ordinary (hpre : ∀ c ∈ b, isOrdinary c = true) (hrest : rest.head? ≠ some '.') :
    Cursor.relative (b ++ rest) = b ++ rest := by
  refine Cursor.relative_eq_self fun hdot => ?_
  obtain ⟨cs, hcs⟩ := hdot
  cases b with
  | nil => exact hrest (by rw [List.nil_append] at hcs; rw [← hcs]; rfl)
  | cons c b =>
    obtain rfl : '.' = c := (List.cons_eq_cons.1 hcs).1
    exact absurd (hpre '.' (by simp)) (by decide)

/-- The outline of a glob with something between ordinary texts that is read as one part. -/
theorem ofPattern_between {pre inner post : List Char} {pattern : String} {p : Part}
    (hpattern : pattern.toList = pre ++ (inner ++ post)) (hhead : (inner ++ post).head? ≠ some '.')
    (hpre : ∀ c ∈ pre, isOrdinary c = true) (hpost : ∀ c ∈ post, isOrdinary c = true)
    (hinner : ∀ b, ∃ o : Outline,
      run { cursor := ⟨b, inner ++ post⟩, parts := Part.chars pre } = run o ∧ o.cursor.rest = post ∧
        o.opened = .nothing ∧ o.settle.parts = Part.chars pre ++ [p] ∧ o.negated = false ∧
        o.isGuarded = true) :
    ∃ o, ofPattern pattern = .ok (o, []) ∧ o.negated = false ∧ o.isGuarded = true ∧
      o.parts = Part.chars pre ++ p :: Part.chars post := by
  have hcursor : Cursor.ofPattern pattern = ⟨[], pre ++ (inner ++ post)⟩ := by
    rw [Cursor.ofPattern, hpattern, relative_ordinary hpre hhead]
  have hrun := run_ordinary (o := { cursor := ⟨[], []⟩ }) (b := []) (inner ++ post) rfl rfl hpre
  obtain ⟨o, hread, rfl, hopened, hparts, hnegated, hguarded⟩ := hinner (pre.reverse ++ [])
  obtain ⟨o', hend, hopened', hfinish⟩ := run_ordinary_end (b := o.cursor.behind) hopened hpost
  refine ⟨o'.finish, ?_, ?_, ?_, ?_⟩
  · have hall : run { cursor := Cursor.ofPattern pattern } = .ok o' := by
      rw [hcursor]
      exact hrun.trans (hread.trans hend)
    unfold ofPattern
    rw [hall]
    simp only [Except.map, hopened']
    rfl
  · rw [hfinish]
    exact hnegated
  · rw [hfinish]
    exact hguarded
  · rw [hfinish]
    exact (congrArg (· ++ Part.chars o.cursor.rest) hparts).trans (List.append_assoc ..)

/-- The outline of a glob that encloses something between ordinary texts, if what is enclosed is read as
a whole. -/
theorem ofPattern_framed {pre inner post : List Char} {pattern : String} {e : Enclosed}
    (hpattern : pattern.toList = pre ++ (inner ++ post)) (hhead : (inner ++ post).head? ≠ some '.')
    (hpre : ∀ c ∈ pre, isOrdinary c = true) (hpost : ∀ c ∈ post, isOrdinary c = true)
    (hinner : ∀ b, ∃ o : Outline,
      run { cursor := ⟨b, inner ++ post⟩, parts := Part.chars pre } = run o ∧ o.cursor.rest = post ∧
        o.opened = .nothing ∧ o.closed = some e ∧ o.parts = Part.chars pre ∧ o.negated = false ∧
        o.isGuarded = true) :
    ∃ o, ofPattern pattern = .ok (o, []) ∧ o.negated = false ∧ o.isGuarded = true ∧
      o.parts = Part.chars pre ++ .enclosed e false :: Part.chars post := by
  refine ofPattern_between hpattern hhead hpre hpost fun b => ?_
  obtain ⟨o, hread, hrest, hopened, hclosed, hparts, hnegated, hguarded⟩ := hinner b
  refine ⟨o, hread, hrest, hopened, ?_, hnegated, hguarded⟩
  rw [settle, hclosed, hparts]
  rfl

/-- The outline of a glob that is a group between ordinary texts. -/
theorem ofPattern_body (g : Option ExtGlob) {pre post : List Char} {gs : List Glyph} {pattern : String}
    (hpattern : pattern.toList = pre ++ (ExtGlob.sigils g ++ '(' :: (cs ++ ')' :: post)))
    (hpre : ∀ c ∈ pre, isOrdinary c = true) (hpost : ∀ c ∈ post, isOrdinary c = true)
    (hbody : IsBody cs gs) :
    ∃ o, ofPattern pattern = .ok (o, []) ∧ o.negated = false ∧ o.isGuarded = true ∧
      o.parts = Part.chars pre ++ .enclosed (.group g gs post.isEmpty) false :: Part.chars post := by
  have hinner : ExtGlob.sigils g ++ '(' :: (cs ++ ')' :: post) =
      ExtGlob.sigils g ++ '(' :: (cs ++ [')']) ++ post := by simp
  rw [hinner] at hpattern
  refine ofPattern_framed hpattern ?_ hpre hpost fun b => ?_
  · rcases g with _ | g
    · exact nofun
    · cases g <;> exact nofun
  · obtain ⟨b', hgroup⟩ := run_group (o := { cursor := ⟨[], []⟩, parts := Part.chars pre }) (b := b) g
      post rfl rfl rfl hbody
    rw [hinner] at hgroup
    refine ⟨_, hgroup, rfl, rfl, rfl, rfl, rfl, ?_⟩
    unfold isGuarded closeGroup mark
    split <;> rfl

/-- The outline of a glob that is a group of ordinary alternatives between ordinary texts. -/
theorem ofPattern_group (g : Option ExtGlob) {pre post : List Char} {pattern : String}
    (hpattern : pattern.toList = pre ++ (ExtGlob.sigils g ++ '(' :: (cs ++ ')' :: post)))
    (hpre : ∀ c ∈ pre, isOrdinary c = true) (hpost : ∀ c ∈ post, isOrdinary c = true)
    (hcs : ∀ c ∈ cs, c = '|' ∨ isOrdinary c = true) :
    ∃ o, ofPattern pattern = .ok (o, []) ∧ o.negated = false ∧ o.isGuarded = true ∧
      o.parts = Part.chars pre ++
        .enclosed (.group g (cs.map .ofBody) post.isEmpty) false :: Part.chars post :=
  ofPattern_body g hpattern hpre hpost (isBody_ordinary hcs)

end Outline
end PathGlob
