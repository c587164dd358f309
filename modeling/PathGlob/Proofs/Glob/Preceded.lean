/-
The start of a glob in another spelling. Of what has been read a step sees the two characters before the
current one, and of the dots that begin components only globstars take note. So behind a start that is
spelled in another way the rest of a glob has the same parts, up to the dots that globstars allow; and this
holds of a first dot and the same dot escaped.
-/
import PathGlob.Proofs.Glob.Grammar
import PathGlob.Proofs.Glob.Negation
import PathGlob.Proofs.Matcher.Members

namespace PathGlob

theorem Alike.of_map_eq {α β γ ε : Type} {x : Except ε α} {y : Except ε β} {f : α → γ} {g : β → γ}
    (h : x.map f = y.map g) : Alike (fun a b => f a = g b) x y := by
  cases x <;> cases y
  case error.error => exact Except.error.inj h
  case ok.ok => exact Except.ok.inj h
  all_goals cases h

/-- A dot that no separator follows is part of the glob. -/
theorem Cursor.not_isPrefix_dot {cs : List Char} (h : cs.head? ≠ some '/') : ¬ ['.', '/'] <+: '.' :: cs := by
  rintro ⟨rest, hrest⟩
  obtain rfl : '/' :: rest = cs := (List.cons.inj hrest).2
  exact h rfl

/-! ## Without dots -/

section Dots

variable (f g : Bool → Bool)

theorem Glyph.mapDots_mapDots (x : Glyph) : (x.mapDots f).mapDots g = x.mapDots (g ∘ f) := by
  cases x <;> rfl

theorem Enclosed.mapDots_mapDots (e : Enclosed) : (e.mapDots f).mapDots g = e.mapDots (g ∘ f) := by
  cases e <;> simp [mapDots, Glyph.mapDots_mapDots]

theorem Part.mapDots_mapDots (p : Part) : (p.mapDots f).mapDots g = p.mapDots (g ∘ f) := by
  cases p <;> simp [mapDots, Glyph.mapDots_mapDots, Enclosed.mapDots_mapDots]

theorem Opened.mapDots_mapDots (u : Opened) : (u.mapDots f).mapDots g = u.mapDots (g ∘ f) := by
  cases u <;> simp [mapDots, Glyph.mapDots_mapDots]

end Dots

/-- The components without their marks for dots. -/
def Trail.undotted (t : Trail) : Trail :=
  ⟨t.done.map ({ · with dot := false }), { t.current with dot := false }⟩

/-- The parts without what their globstars say of dots. -/
def Part.undotted (ps : List Part) : List Part := ps.map (·.mapDots fun _ => false)

namespace Outline

/-! ## Steps behind a start -/

/-- An outline behind a start that has been read to the given parts, without what it knows of dots. -/
def preceded (front : List Char) (ps : List Part) (o : Outline) : Outline :=
  { o with
    cursor := ⟨o.cursor.behind ++ front, o.cursor.rest⟩
    opened := o.opened.mapDots fun _ => false
    closed := o.closed.map (·.mapDots fun _ => false)
    parts := Part.undotted (ps ++ o.parts)
    trail := o.trail.undotted
    dot := false }

/-- An outline without what it knows of dots. -/
def undotted (o : Outline) : Outline := o.preceded [] []

section Steps

variable (front : List Char) (ps : List Part) (o : Outline)

@[simp] theorem opened_preceded :
    (o.preceded front ps).opened = o.opened.mapDots fun _ => false := rfl

@[simp] theorem undotted_preceded : (o.preceded front ps).undotted = o.preceded front ps := by
  have hopened := Opened.mapDots_mapDots (fun _ => false) (fun _ => false) o.opened
  unfold undotted preceded
  simp only [hopened, Option.map_map, List.append_nil, List.nil_append, Part.undotted, Trail.undotted,
    List.map_map, Function.comp_def, Enclosed.mapDots_mapDots, Part.mapDots_mapDots]

theorem preceded_put (g : Glyph) :
    (o.put g).preceded front ps = (o.preceded front ps).put (g.mapDots fun _ => false) := by
  unfold put preceded
  cases o.opened <;> simp [Opened.mapDots, Part.undotted, Part.mapDots]

theorem preceded_settle (b : Bool) :
    (o.settle b).preceded front ps = (o.preceded front ps).settle b := by
  unfold settle preceded
  cases o.closed <;> simp [Part.undotted, Part.mapDots]

theorem isNothing_preceded : (o.preceded front ps).opened.isNothing = o.opened.isNothing := by
  cases ho : o.opened <;> simp [preceded, Opened.mapDots, Opened.isNothing, ho]

theorem isGroup_preceded : (o.preceded front ps).opened.isGroup = o.opened.isGroup := by
  cases ho : o.opened <;> simp [preceded, Opened.mapDots, Opened.isGroup, ho]

theorem preceded_literal (c : Char) :
    (o.literal c).preceded front ps = (o.preceded front ps).literal c := by
  unfold literal
  rw [preceded_put, isNothing_preceded]
  split <;> rfl

/-- Marks that have nothing to do with dots. -/
theorem preceded_mark {change : Component → Component}
    (h : ∀ c : Component, { change c with dot := false } = change { c with dot := false }) :
    (o.mark change).preceded front ps = (o.preceded front ps).mark change := by
  unfold mark preceded Trail.modify Trail.undotted
  simp only [h]

theorem preceded_closeGroup (g : Option ExtGlob) (body : List Glyph) :
    (o.closeGroup g body).preceded front ps =
      (o.preceded front ps).closeGroup g (body.map (·.mapDots fun _ => false)) := by
  unfold closeGroup
  rw [preceded_mark]
  · rfl
  · intro c
    split <;> rfl

theorem preceded_closeBracket (b : Bracket) (isClosed : Bool) (h : isClosed = true → b.members ≠ []) :
    (o.closeBracket b isClosed h).preceded front ps = (o.preceded front ps).closeBracket b isClosed h := rfl

theorem preceded_openAt (k : Delimiter) (c : Char) :
    (o.openAt k c).preceded front ps = (o.preceded front ps).openAt k c := by
  unfold openAt
  rw [opened_preceded]
  cases o.opened with
  | nothing =>
    cases k with
    | paren => rfl
    | bracket => rfl
    | angle | brace | quote => exact preceded_literal ..
  | _ => exact preceded_literal ..

theorem preceded_closeAt (k : Delimiter) (c : Char) :
    (o.closeAt k c).map (preceded front ps) = (o.preceded front ps).closeAt k c := by
  have hliteral := preceded_literal front ps o c
  unfold closeAt
  rw [opened_preceded]
  cases o.opened with
  | nothing => rfl
  | group g body =>
    simp only [Except.map, Opened.mapDots]
    split
    · rw [preceded_closeGroup]
    · rw [hliteral]
  | pair l =>
    simp only [Except.map, Opened.mapDots]
    split
    · rw [preceded_literal]
      rfl
    · rw [hliteral]
  | bracket b => simp only [Except.map, Opened.mapDots, hliteral]

theorem preceded_stepBracket (b : Bracket) (c : Char) :
    (o.stepBracket b c).preceded front ps = (o.preceded front ps).stepBracket b c := by
  unfold stepBracket
  split
  · rfl
  · split
    · split <;> rfl
    · split
      · obtain ⟨⟨behind, rest⟩, _⟩ := o
        cases rest <;> rfl
      · split
        · -- what is ahead is the same in both
          have hat : PosixClass.at? (o.preceded front ps).cursor = PosixClass.at? o.cursor := rfl
          split
          · rename_i m hm
            split
            · rename_i m' hm'
              obtain rfl : m' = m := Option.some.inj (hm'.symm.trans (hat.trans hm))
              simp [preceded, member, Cursor.skip, Opened.mapDots]
            · rename_i hm'
              rw [← hat, hm'] at hm
              cases hm
          · rename_i hm
            split
            · rename_i m' hm'
              rw [← hat, hm'] at hm
              cases hm
            · rfl
        · rfl

theorem preceded_escape : o.escape.preceded front ps = (o.preceded front ps).escape := by
  have hput := fun (o : Outline) c => preceded_put front ps o (.char c)
  obtain ⟨⟨behind, rest⟩, _⟩ := o
  cases rest <;> exact hput ..

theorem preceded_separator : o.separator.preceded front ps = (o.preceded front ps).separator := by
  unfold separator
  rw [preceded_put]
  simp [preceded, Trail.begin, Trail.undotted, Trail.toList, Glyph.mapDots]

theorem preceded_globstar : o.globstar.preceded front ps = (o.preceded front ps).globstar := by
  have hput := preceded_put front ps (o.mark fun c => { c with globstar := true }) (.globstar o.dot)
  rw [preceded_mark] at hput
  · have hdot : (Glyph.globstar o.dot).mapDots (fun _ => false) =
        .globstar (o.preceded front ps).dot := rfl
    rw [hdot] at hput
    unfold globstar
    dsimp only
    rw [← hput]
    simp [preceded, Cursor.skipRun, Cursor.skip]
  · exact fun _ => rfl

/-- The character before the current one is the same if anything is read before it. -/
theorem last_preceded (h : 2 ≤ o.cursor.behind.length) :
    (o.preceded front ps).cursor.last = o.cursor.last := List.getElem?_append_left (by omega)

theorem preceded_star (h : 2 ≤ o.cursor.behind.length) :
    o.star.preceded front ps = (o.preceded front ps).star := by
  have hnext (c : Char) : (o.preceded front ps).cursor.nextIs c = o.cursor.nextIs c := rfl
  unfold star
  rw [last_preceded front ps o h, hnext, hnext]
  split
  · exact preceded_globstar front ps o
  · exact preceded_put ..

theorem preceded_qmark (h : 2 ≤ o.cursor.behind.length) :
    o.qmark.preceded front ps = (o.preceded front ps).qmark := by
  unfold qmark
  rw [last_preceded front ps o h, isGroup_preceded]
  split
  · rfl
  · exact preceded_put ..

theorem preceded_colon (hfront : '(' ∉ front) (h : 2 ≤ o.cursor.behind.length) :
    o.colon.preceded front ps = (o.preceded front ps).colon := by
  have hbefore : (o.preceded front ps).cursor.beforeLast = some '(' ↔ o.cursor.beforeLast = some '(' := by
    change (o.cursor.behind ++ front)[2]? = _ ↔ o.cursor.behind[2]? = _
    rw [List.getElem?_append]
    split
    · rfl
    · rename_i hlen
      rw [List.getElem?_eq_none (Nat.le_of_not_lt hlen)]
      refine iff_of_false (fun hmem => hfront (List.mem_of_getElem? hmem)) nofun
  unfold colon
  simp only [last_preceded front ps o h, isGroup_preceded, hbefore]
  split
  · exact preceded_mark front ps o fun _ => rfl
  · exact preceded_literal ..

/-- A dot may be marked as the start of a component in both, but the mark is left out. -/
theorem preceded_literalDot (h : 2 ≤ o.cursor.behind.length) :
    o.literalDot.preceded front ps = (o.preceded front ps).literalDot.undotted := by
  have hput (u : Outline) : (u.put (.char '.')).undotted = u.undotted.put (.char '.') :=
    preceded_put [] [] u (.char '.')
  have hmarked (u : Outline) (front : List Char) (ps : List Part) :
      preceded front ps { u.mark fun c => { c with dot := true } with dot := true } =
        u.preceded front ps := rfl
  have hself := undotted_preceded front ps o
  unfold literalDot
  rw [last_preceded front ps o h]
  split
  · dsimp only
    rw [preceded_put, hmarked, hput, undotted, hmarked, ← undotted, hself]
    rfl
  · dsimp only
    rw [preceded_put, hput, hself]
    rfl

theorem preceded_plain (hfront : '(' ∉ front) (h : 2 ≤ o.cursor.behind.length) (c : Char) :
    (o.plain c).preceded front ps = ((o.preceded front ps).plain c).undotted := by
  have hclosed : (o.preceded front ps).closed.isSome = o.closed.isSome := Option.isSome_map ..
  have hfirst : (o.preceded front ps).cursor.isFirst = false ∧ o.cursor.isFirst = false := by
    simp [Cursor.isFirst, preceded]
    omega
  unfold plain
  split
  · rw [hclosed]
    split
    · rw [← preceded_settle, undotted_preceded]
    · rw [← preceded_literal, undotted_preceded]
  · rw [← preceded_settle, ← preceded_escape, undotted_preceded]
  · rw [← preceded_settle, ← preceded_separator, undotted_preceded]
  · rw [← preceded_settle, ← preceded_literalDot front ps o.settle h]
  · simp only [hfirst, Bool.false_eq_true, if_false]
    rw [← preceded_settle, ← preceded_literal, undotted_preceded]
  · rw [← preceded_settle, ← preceded_star front ps o.settle h, undotted_preceded]
  · rw [← preceded_settle, ← preceded_qmark front ps o.settle h, undotted_preceded]
  · rw [← preceded_settle, ← preceded_colon front ps o.settle hfront h, undotted_preceded]
  · rw [← preceded_settle, ← preceded_literal, undotted_preceded]

/-- Outside bracket expressions a step behind further characters does the same. -/
theorem preceded_outside (hfront : '(' ∉ front) (h : 2 ≤ o.cursor.behind.length)
    (hb : o.opened.isBracket = false) (c : Char) :
    (o.step c).map (preceded front ps) = ((o.preceded front ps).step c).map undotted := by
  have hannounced : (o.preceded front ps).announced? c = o.announced? c := by
    unfold announced?
    rw [isNothing_preceded]
    rfl
  have hb' : (o.preceded front ps).opened.isBracket = false := by
    cases ho : o.opened with
    | bracket b => rw [ho] at hb; cases hb
    | _ => simp [preceded, ho, Opened.mapDots, Opened.isBracket]
  rw [step_of_not_bracket o hb, step_of_not_bracket _ hb', hannounced]
  cases o.announced? c with
  | some g =>
    have hannounce (u : Outline) (front : List Char) (ps : List Part) :
        preceded front ps { u with announced := some g } =
          { u.preceded front ps with announced := some g } := rfl
    simp only [Except.map, hannounce, undotted]
    rw [← preceded_settle, ← undotted, undotted_preceded]
  | none =>
    cases Delimiter.ofOpener? c with
    | some k =>
      simp only [Except.map]
      rw [← preceded_settle, ← preceded_openAt, undotted_preceded]
    | none =>
      cases Delimiter.ofCloser? c with
      | some k =>
        simp only
        rw [← preceded_settle, ← preceded_closeAt]
        cases o.settle.closeAt k c with
        | error e => rfl
        | ok u => simp only [Except.map, undotted_preceded]
      | none =>
        simp only [Except.map]
        rw [← preceded_plain front ps o hfront h]

/-- A step behind further characters does the same, unless the current one is the first. -/
theorem preceded_step (hfront : '(' ∉ front) (h : 2 ≤ o.cursor.behind.length) (c : Char) :
    (o.step c).map (preceded front ps) = ((o.preceded front ps).step c).map undotted := by
  cases ho : o.opened with
  | bracket b =>
    have hn : (o.preceded front ps).opened = .bracket b := by rw [opened_preceded, ho]; rfl
    rw [step_bracket ho, step_bracket hn, Except.map, Except.map, ← preceded_stepBracket, undotted_preceded]
  | _ => exact preceded_outside front ps o hfront h (by rw [ho]; rfl) c

end Steps

/-- A run behind further characters goes on as it would without. -/
theorem preceded_run {front : List Char} (hfront : '(' ∉ front) (ps : List Part) {o : Outline}
    (h : o.cursor.behind ≠ []) :
    o.run.map (preceded front ps) = (o.preceded front ps).run.map undotted := by
  -- On what is left to read. A step may mark a dot in one run and not in the other, so the runs go on from
  -- outlines that are the same only without dots, and the hypothesis is used for each of them.
  induction hl : o.cursor.rest.length using Nat.strongRecOn generalizing o front ps with
  | _ m ih =>
    rcases ho : o.cursor with ⟨b, _ | ⟨c, rest⟩⟩
    · have hrest : o.cursor.rest = [] := by rw [ho]
      rw [run_nil hrest, run_nil (o := o.preceded front ps) hrest, Except.map, Except.map, undotted_preceded]
    · have hn : (o.preceded front ps).cursor = ⟨b ++ front, c :: rest⟩ := by simp [preceded, ho]
      have hlen : 2 ≤ (c :: b).length := by
        rw [ho] at h
        exact Nat.succ_le_succ (List.length_pos_iff.2 h)
      have hstep := preceded_step front ps { o with cursor := ⟨c :: b, rest⟩ } hfront hlen c
      rw [run_cons ho, run_cons hn]
      change _ = ((step (preceded front ps { o with cursor := ⟨c :: b, rest⟩ }) c).bind run).map _
      rcases (Alike.of_map_eq hstep).cases with ⟨o', n', ho', hn', heq⟩ | ⟨e, ho', hn'⟩
      · rw [ho', hn']
        have hlt : o'.cursor.rest.length < m := by
          have hle := rest_step_le ho'
          rw [← hl, ho]
          exact Nat.lt_succ_of_le hle
        have hlt' : n'.cursor.rest.length < m := by
          have hrest : o'.cursor.rest = n'.cursor.rest := congrArg (·.cursor.rest) heq
          rwa [← hrest]
        have hbegun := begun_step (List.cons_ne_nil c b) ho'
        have hbegun' : n'.cursor.behind ≠ [] := begun_step (List.cons_ne_nil c (b ++ front)) hn'
        calc o'.run.map (preceded front ps)
            = (o'.preceded front ps).run.map undotted := ih _ hlt hfront ps hbegun rfl
          _ = (n'.undotted).run.map undotted := by rw [heq]
          _ = n'.run.map undotted := (ih _ hlt' List.not_mem_nil [] hbegun' rfl).symm
      · rw [ho', hn']
        rfl

/-- A run from a place that differs from another in no more than its start. -/
theorem run_of_undotted {front : List Char} (hfront : '(' ∉ front) {ps : List Part} {o u : Outline}
    (h : o.undotted = u.preceded front ps) (ho : o.cursor.behind ≠ []) (hu : u.cursor.behind ≠ []) :
    Alike (fun o u => o.undotted = u.preceded front ps) o.run u.run := by
  have hruns : o.run.map undotted = u.run.map (preceded front ps) :=
    calc o.run.map undotted
        = o.undotted.run.map undotted := preceded_run List.not_mem_nil [] ho
      _ = (u.preceded front ps).run.map undotted := by rw [h]
      _ = u.run.map (preceded front ps) := (preceded_run hfront ps hu).symm
  exact Alike.of_map_eq hruns

/-- The end is the same, and the same is left open. -/
theorem preceded_finish (front : List Char) (ps : List Part) (o : Outline) :
    o.finish.preceded front ps = (o.preceded front ps).finish ∧
      (o.preceded front ps).opened.openers = o.opened.openers := by
  unfold finish
  rw [preceded_settle, opened_preceded]
  cases o.opened with
  | nothing => exact ⟨rfl, rfl⟩
  | group g body =>
    rw [preceded_closeGroup, preceded_settle]
    exact ⟨rfl, rfl⟩
  | pair k => exact ⟨rfl, rfl⟩
  | bracket b =>
    rw [preceded_closeBracket, preceded_settle]
    exact ⟨rfl, rfl⟩

/-! ## A dot at the start -/

/-- The outlines of a glob that begins with a dot and of the glob with that dot escaped: of their parts
only the globstars may differ. -/
structure EscapesDot (o n : Outline) : Prop where
  positive : o.negated = false ∧ n.negated = false
  parts : ∃ ps qs, o.parts = .glyph (.char '.') :: ps ∧ n.parts = .glyph (.char '.') :: qs ∧
    Part.undotted qs = Part.undotted ps

/-- What a run behind a dot ends in begins with the dot. -/
theorem finish_of_undotted {front : List Char} {o u : Outline}
    (h : o.undotted = u.preceded front [.glyph (.char '.')]) :
    o.finish.negated = u.negated ∧ o.opened.openers = u.opened.openers ∧
      ∃ ps, o.finish.parts = .glyph (.char '.') :: ps ∧
        Part.undotted ps = Part.undotted u.finish.parts := by
  obtain ⟨hfinish, hopeners⟩ := preceded_finish [] [] o
  obtain ⟨hfinish', hopeners'⟩ := preceded_finish front [.glyph (.char '.')] u
  have hparts : Part.undotted o.finish.parts = .glyph (.char '.') :: Part.undotted u.finish.parts := by
    refine congrArg (·.parts) (?_ : o.finish.undotted = u.finish.preceded front [.glyph (.char '.')])
    rw [undotted, hfinish, ← undotted, h, ← hfinish']
  refine ⟨?_, ?_, ?_⟩
  · rw [negated_finish]
    exact congrArg (·.negated) h
  · rw [← hopeners, ← hopeners', ← undotted, h]
  · obtain ⟨p, ps, hps, hp, htail⟩ := List.map_eq_cons_iff.1 hparts
    rw [Part.mapDots_eq_char hp] at hps
    exact ⟨ps, hps, htail⟩

/-- A dot at the start is read as a sign, and so is an escaped one. -/
theorem run_dot (cs : List Char) :
    Alike (fun o u => o.undotted = u.preceded [] [.glyph (.char '.')])
      (run { cursor := ⟨[], '.' :: cs⟩ }) (run { cursor := ⟨['.'], cs⟩ }) ∧
    Alike (fun n u => n.undotted = u.preceded ['\\'] [.glyph (.char '.')])
      (run { cursor := ⟨[], '\\' :: '.' :: cs⟩ }) (run { cursor := ⟨['.'], cs⟩ }) := by
  have hstep (o : Outline) (ho : o.opened = .nothing) {c : Char} (hc : c = '.' ∨ c = '\\') :
      o.step c = .ok (o.plain c) := by
    have hannounced : o.announced? c = none := by
      unfold announced?
      split
      · rcases hc with rfl | rfl <;> rfl
      · rfl
    rw [step_of_not_bracket o (by rw [ho]; rfl), hannounced]
    rcases hc with rfl | rfl <;> rfl
  constructor
  · rw [run_cons rfl, hstep _ rfl (.inl rfl)]
    exact run_of_undotted List.not_mem_nil rfl (List.cons_ne_nil _ _) (List.cons_ne_nil _ _)
  · rw [run_cons rfl, hstep _ rfl (.inr rfl)]
    exact run_of_undotted (by decide) rfl (List.cons_ne_nil _ _) (List.cons_ne_nil _ _)

/-- A glob that begins with a dot, and not with `./`, and the glob with that dot escaped are read to the
same end. -/
theorem ofPattern_escaped_dot {pattern : String} (hsep : pattern.toList.head? ≠ some '/') :
    Alike (fun o n => EscapesDot o.1 n.1 ∧ n.2 = o.2)
      (ofPattern ("." ++ pattern)) (ofPattern ("\\." ++ pattern)) := by
  have hdot : Cursor.ofPattern ("." ++ pattern) = ⟨[], '.' :: pattern.toList⟩ := by
    unfold Cursor.ofPattern
    rw [String.toList_append]
    exact congrArg (Cursor.mk []) (Cursor.relative_eq_self (Cursor.not_isPrefix_dot hsep))
  have hescaped : Cursor.ofPattern ("\\." ++ pattern) = ⟨[], '\\' :: '.' :: pattern.toList⟩ := by
    unfold Cursor.ofPattern
    rw [String.toList_append]
    rfl
  -- both runs are one run behind different starts
  obtain ⟨hbare, hspelled⟩ := run_dot pattern.toList
  unfold ofPattern
  rw [hdot, hescaped]
  refine (hbare.join hspelled).map ?_
  rintro o n ⟨u, hu, ho, hn⟩
  have hpositive : u.negated = false := run_negated_eq (List.cons_ne_nil _ _) hu
  obtain ⟨hnegated, hopeners, ps, hps, htail⟩ := finish_of_undotted ho
  obtain ⟨hnegated', hopeners', qs, hqs, htail'⟩ := finish_of_undotted hn
  exact ⟨⟨⟨hnegated.trans hpositive, hnegated'.trans hpositive⟩, ps, qs, hps, hqs,
    htail'.trans htail.symm⟩, hopeners'.trans hopeners.symm⟩

end Outline
end PathGlob
