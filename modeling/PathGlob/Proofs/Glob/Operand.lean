/-
The parts of a glob as operands of a regular expression. The text of a part is read, wherever it
stands, as the operands of the part, so a rendered glob is read as the operands of its parts one
after the other. Only a custom text for `*` is left out of this.
-/
import PathGlob.Proofs.Glob.Part
import PathGlob.Proofs.Regex.Reading

namespace PathGlob

open Regex (Level Draft Quantified)

/-! ## What the fragments are read as -/

namespace Fragment

/-- The expression of `?`. -/
def qmarkRegex : Regex := .set (.compl (.union .empty (.single '/')))

/-- The expression of `?` where no dot may stand. -/
def qmarkNoDotRegex : Regex := .set (.compl (.union (.union .empty (.single '.')) (.single '/')))

/-- The expression of `*`. -/
def starRegex : Regex := .loop qmarkRegex 0 none true

/-- One or two dots, and then the end of a component. -/
def dotsRegex : Regex := .seq (.loop (.char '.') 1 (some 2) false) (.alt .stop (.char '/'))

/-- The expression of a guard. -/
def dotGuardRegex (dots : Bool) : Regex :=
  .look .notAhead (if dots then dotsRegex else .char '.')

/-- What must not lie ahead of a character that a globstar takes. -/
def hiddenRegex (dots : Bool) : Regex :=
  let head := Regex.alt (.char '/') .start
  if dots then .seq (.seq head (.loop (.char '.') 1 (some 2) false)) (.alt .stop (.char '/'))
  else .seq head (.char '.')

/-- The expression of `**`. -/
def globstarRegex (dots : Bool) : Regex :=
  .loop (.seq (.look .notAhead (hiddenRegex dots)) .any) 0 none true

/-- The expression of `/`. -/
def separatorRegex (isOptional : Bool) : Regex :=
  if isOptional then .alt (.char '/') (.alt .start (.look .behind (.char '/'))) else .char '/'

end Fragment

namespace Regex

@[simp] theorem empty_append (r : Regex) : append .empty r = r := rfl

@[simp] theorem append_empty (r : Regex) : append r .empty = r := by
  unfold append
  split
  · rename_i h; exact h.symm
  · rfl

/-- Characters that stand for themselves, one after the other. -/
def literals (cs : List Char) : Regex := cs.foldl (fun r c => r.append (.char c)) .empty

namespace Level

/-- Takes an operand that may be quantified. -/
def add (l : Level) (p : Regex × Quantified) : Level := { l.push p.1 with quantified := p.2 }

/-- The alternative being read. -/
def content (l : Level) : Regex := l.items.append l.last

@[simp] theorem content_push (l : Level) (r : Regex) : (l.push r).content = l.content.append r := rfl

@[simp] theorem content_add (l : Level) (p : Regex × Quantified) :
    (l.add p).content = l.content.append p.1 := rfl

theorem repeated?_push (l : Level) (r : Regex) (lo : Nat) (hi : Option Nat) :
    (l.push r).repeated? lo hi = if r.isRepeatable && hi.all (lo ≤ ·) then
      some (l.add (.loop r lo hi false, .greedy)) else none := rfl

theorem plus?_push (l : Level) (r : Regex) : (l.push r).plus? = (l.push r).repeated? 1 none := rfl

theorem question?_push (l : Level) (r : Regex) :
    (l.push r).question? = (l.push r).repeated? 0 (some 1) := by
  unfold question?
  split
  · rename_i h _
    cases h
  · rfl

end Level
end Regex

/-! ## Signs -/

namespace Glyph

/-- The operands of a sign; a bar is none but ends an alternative. -/
def operands (dot : Bool) : Glyph → List (Regex × Quantified)
  | char c => [(.char c, .bare)]
  | bar => []
  | separator isOptional => [(Fragment.separatorRegex isOptional, .bare)]
  | star isGuarded =>
    (if isGuarded then [(Fragment.dotGuardRegex dot, .bare)] else []) ++
      [(Fragment.starRegex, .sparing)]
  | globstar dots => [(Fragment.globstarRegex (dots || dot), .sparing)]
  | qmark isFirst =>
    [(if isFirst && !dot then Fragment.qmarkNoDotRegex else Fragment.qmarkRegex, .bare)]

/-- Takes a sign into the alternatives being read. -/
def takenBy (dot : Bool) (l : Level) : Glyph → Level
  | bar => l.bar
  | g => (g.operands dot).foldl Level.add l

/-- Takes signs one after the other. -/
def allTakenBy (dot : Bool) (l : Level) (gs : List Glyph) : Level := gs.foldl (takenBy dot) l

end Glyph

namespace Fragment

open Regex

variable (D : Draft) (cs : List Char)

theorem read_literal (c : Char) :
    D.read ((literal c).toList ++ cs) = (D.push (.char c)).read cs := by
  unfold literal char
  split
  · rename_i h
    rw [String.toList_push]
    have : c.isAlphanum = false := by
      unfold isMeta at h
      revert h
      simp only [decide_eq_true_eq, List.mem_cons, List.not_mem_nil, or_false]
      rintro (rfl | rfl | rfl | rfl | rfl | rfl | rfl | rfl | rfl | rfl | rfl | rfl | rfl | rfl | rfl) <;> rfl
    exact D.read_escaped cs this
  · rename_i h
    rw [String.toList_singleton]
    refine D.read_char cs fun hc => h ?_
    unfold isMeta
    simp only [List.mem_cons, List.not_mem_nil, or_false, decide_eq_true_eq] at hc ⊢
    grind

theorem read_qmark : D.read (qmark.toList ++ cs) = (D.push qmarkRegex).read cs := by
  refine Draft.read_set D (show bracket? ('^' :: '/' :: ']' :: cs) = _ from ?_)
  change (members? none .empty ('/' :: ']' :: cs)).map _ = _
  rw [members?_member (by decide) (by simp) (show member? ('/' :: ']' :: cs) = some ('/', _) from rfl)
    (by simp), members?_closing]
  rfl

theorem read_qmarkNoDot : D.read (qmarkNoDot.toList ++ cs) = (D.push qmarkNoDotRegex).read cs := by
  refine Draft.read_set D (show bracket? ('^' :: '.' :: '/' :: ']' :: cs) = _ from ?_)
  change (members? none .empty ('.' :: '/' :: ']' :: cs)).map _ = _
  rw [members?_member (by decide) (by simp)
      (show member? ('.' :: '/' :: ']' :: cs) = some ('.', _) from rfl) (by simp),
    members?_member (by decide) (by simp) (show member? ('/' :: ']' :: cs) = some ('/', _) from rfl)
      (by simp), members?_closing]
  rfl

theorem read_star :
    D.read (star.toList ++ cs) = Draft.read { D with inner := D.inner.add (starRegex, .sparing) } cs := by
  have : star.toList = qmark.toList ++ ['*', '?'] := rfl
  rw [this, List.append_assoc, read_qmark]
  simp [Level.repeated?, Level.question?, Level.add, Level.push, Draft.push, isRepeatable, qmarkRegex,
    starRegex]

theorem read_dotGuard (dots : Bool) :
    D.read ((dotGuard dots).toList ++ cs) = (D.push (dotGuardRegex dots)).read cs := by
  cases dots <;> simp [dotGuard, dotGuardRegex, dotsRegex, Draft.push, Level.push, Level.close,
    Level.body, Level.repeated?, Level.bar, isRepeatable, alts, append]

theorem read_globstar (dots : Bool) : D.read ((globstar dots).toList ++ cs) =
    Draft.read { D with inner := D.inner.add (globstarRegex dots, .sparing) } cs := by
  cases dots <;> simp [globstar, globstarRegex, hiddenRegex, Draft.push, Level.push, Level.close,
    Level.body, Level.repeated?, Level.question?, Level.bar, Level.add, isRepeatable, alts, append]

theorem read_separator (isOptional : Bool) : D.read ((separator isOptional).toList ++ cs) =
    (D.push (separatorRegex isOptional)).read cs := by
  cases isOptional <;> simp [separator, separatorRegex, Draft.push, Level.push, Level.close,
    Level.body, Level.bar, alts, append]

end Fragment

/-- The text of a sign is read as its operands. -/
theorem Glyph.read_text {d : Dialect} (hs : d.star = none) (g : Glyph) (D : Draft) (cs : List Char) :
    D.read ((g.text d).toList ++ cs) =
      Draft.read { D with inner := g.takenBy d.dot D.inner } cs := by
  cases g with
  | char c => exact Fragment.read_literal D cs c
  | bar =>
    simp only [text]
    exact D.read_bar cs
  | separator isOptional => exact Fragment.read_separator D cs isOptional
  | star isGuarded =>
    have hstar : d.starText = Fragment.star := by rw [Dialect.starText, hs]; rfl
    simp only [text, hstar, String.toList_append, List.append_assoc]
    cases isGuarded with
    | false => exact Fragment.read_star D cs
    | true =>
      simp only [if_true]
      rw [Fragment.read_dotGuard, Fragment.read_star]
      rfl
  | globstar dots => exact Fragment.read_globstar D cs _
  | qmark isFirst =>
    simp only [text]
    split
    · rename_i h
      rw [Fragment.read_qmarkNoDot]
      simp [takenBy, operands, Regex.Level.add, Regex.Draft.push, Regex.Level.push, h]
    · rename_i h
      rw [Fragment.read_qmark]
      simp [takenBy, operands, Regex.Level.add, Regex.Draft.push, Regex.Level.push, h]

theorem Glyph.read_texts {d : Dialect} (hs : d.star = none) (gs : List Glyph) (D : Draft)
    (cs : List Char) : D.read ((texts d gs).toList ++ cs) =
      Draft.read { D with inner := allTakenBy d.dot D.inner gs } cs := by
  induction gs generalizing D with
  | nil => simp [allTakenBy]
  | cons g gs ih =>
    rw [← List.singleton_append, texts_append, texts_singleton, String.toList_append,
      List.append_assoc, read_text hs, ih]
    rfl

/-! ## Groups and bracket expressions -/

namespace Bracket

/-- The members as they stand in a bracket expression of the regular expression. One that is cut
off while empty gets an opening bracket as its member. -/
def content (b : Bracket) (isClosed : Bool) : List Char :=
  b.members.flatMap (·.text.toList) ++ (if !isClosed && b.members.isEmpty then ['\\', '['] else [])

/-- The set of characters that a bracket expression takes, if it is one. -/
def set? (b : Bracket) (isClosed : Bool) : Option CharSet :=
  (Regex.bracket? ((if b.sign.isSome then ['^'] else []) ++ b.content isClosed ++ [']'])).map (·.1)

/-- The expression of the glob's own text. -/
def ownText (b : Bracket) (isClosed : Bool) : Regex :=
  Regex.literals ('[' :: b.raw.toList ++ if isClosed then [']'] else [])

end Bracket

/-- Whether a sigil makes a loop of its group. -/
def ExtGlob.isLoop : ExtGlob → Bool
  | zeroOrMore | oneOrMore | zeroOrOne => true
  | exactlyOne | negate => false

namespace Enclosed

/-- The expression of signs, with alternatives between their bars. -/
def bodyRegex (dot : Bool) (body : List Glyph) : Regex :=
  (Glyph.allTakenBy dot { opening := .plain } body).body

/-- The operand of a group, or nothing if it would repeat the empty text. -/
def groupOperand? (g : Option ExtGlob) (r : Regex) (atEnd : Bool) :
    Option (Regex × Quantified) :=
  match g with
  | none => some (.capture r, .bare)
  | some .exactlyOne => some (r, .bare)
  | some .zeroOrMore => if r.isRepeatable then some (.loop r 0 none false, .greedy) else none
  | some .oneOrMore => if r.isRepeatable then some (.loop r 1 none false, .greedy) else none
  | some .zeroOrOne => if r.isRepeatable then some (.loop r 0 (some 1) false, .greedy) else none
  | some .negate =>
    some (.seq (.look .notAhead (if atEnd then r.append .stop else r)) Fragment.starRegex, .bare)

/-- The operand of a group or bracket expression, if it has one. -/
def operand? (dot : Bool) : Enclosed → Option (Regex × Quantified)
  | group g body atEnd => groupOperand? g (bodyRegex dot body) atEnd
  | bracket b isClosed _ => (b.set? isClosed).map fun s => (.alt (.set s) (b.ownText isClosed), .bare)

theorem allTakenBy_opening (dot : Bool) (o : Regex.Opening) (l : Level) (gs : List Glyph) :
    Glyph.allTakenBy dot { l with opening := o } gs =
      { Glyph.allTakenBy dot l gs with opening := o } := by
  have hadd (ps : List (Regex × Quantified)) (l : Level) :
      ps.foldl Level.add { l with opening := o } = { ps.foldl Level.add l with opening := o } := by
    induction ps generalizing l with
    | nil => rfl
    | cons p ps ih => exact ih (l.add p)
  unfold Glyph.allTakenBy
  induction gs generalizing l with
  | nil => rfl
  | cons g gs ih =>
    rw [List.foldl_cons, List.foldl_cons, ← ih]
    congr 1
    cases g <;> first | rfl | exact hadd ..

/-- A draft inside a group of signs, and what closing the group gives. -/
theorem read_body {d : Dialect} (hs : d.star = none) (o : Regex.Opening) (body : List Glyph) (l : Level)
    (ls : List Level) (cs : List Char) :
    Draft.read ⟨{ opening := o }, l :: ls⟩ ((Glyph.texts d body).toList ++ ')' :: cs) =
      Draft.read ⟨l.push (Level.close
        { Glyph.allTakenBy d.dot { opening := .plain } body with opening := o }), ls⟩ cs := by
  rw [Glyph.read_texts hs, ← Draft.read_closing]
  congr 2
  exact allTakenBy_opening d.dot o { opening := .plain } body

/-- The text of a sign never begins with a question mark. -/
theorem text_cons {d : Dialect} (hs : d.star = none) (g : Glyph) :
    ∃ c cs, (g.text d).toList = c :: cs ∧ c ≠ '?' := by
  have hstar : d.starText = Fragment.star := by rw [Dialect.starText, hs]; rfl
  cases g with
  | char c =>
    simp only [Glyph.text, Fragment.literal, Fragment.char]
    split
    · exact ⟨'\\', [c], by simp, by decide⟩
    · rename_i h
      exact ⟨c, [], by simp, by rintro rfl; exact h (by decide)⟩
  | bar => exact ⟨'|', [], by simp [Glyph.text], by decide⟩
  | separator isOptional =>
    simp only [Glyph.text]
    cases isOptional <;> exact ⟨_, _, rfl, by decide⟩
  | star isGuarded =>
    simp only [Glyph.text, hstar]
    cases isGuarded <;> cases d.dot <;> exact ⟨_, _, rfl, by decide⟩
  | globstar dots =>
    simp only [Glyph.text]
    cases dots <;> cases d.dot <;> exact ⟨_, _, rfl, by decide⟩
  | qmark isFirst =>
    simp only [Glyph.text]
    cases isFirst <;> cases d.dot <;> exact ⟨_, _, rfl, by decide⟩

theorem head?_texts {d : Dialect} (hs : d.star = none) (body : List Glyph) (cs : List Char)
    (hcs : cs.head? ≠ some '?') : ((Glyph.texts d body).toList ++ cs).head? ≠ some '?' := by
  cases body with
  | nil => simpa using hcs
  | cons g gs =>
    obtain ⟨c, cs', hg, hc⟩ := text_cons hs g
    rw [← List.singleton_append, Glyph.texts_append, Glyph.texts_singleton, String.toList_append, hg]
    simpa using hc

theorem read_group {d : Dialect} (hs : d.star = none) (g : Option ExtGlob) (body : List Glyph)
    (atEnd : Bool) (D : Draft) (cs : List Char) :
    D.read (((group g body atEnd).text d).toList ++ cs) =
      ((group g body atEnd).operand? d.dot).bind fun p =>
        Draft.read { D with inner := D.inner.add p } cs := by
  have hstar : d.starText = Fragment.star := by rw [Dialect.starText, hs]; rfl
  simp only [text, String.toList_append, List.append_assoc]
  have plain (x : List Char) : D.read ('(' :: '?' :: ':' :: ((Glyph.texts d body).toList ++ ')' :: x)) =
      Draft.read (D.push (bodyRegex d.dot body)) x :=
    (D.read_plain _).trans (read_body hs .plain body D.inner D.outer x)
  have repeated (lo : Nat) (hi : Option Nat) (h : hi.all (lo ≤ ·) = true) :
      ((D.inner.push (bodyRegex d.dot body)).repeated? lo hi).bind
        (fun l => Draft.read { D with inner := l } cs) =
      (if (bodyRegex d.dot body).isRepeatable then
        some (Regex.loop (bodyRegex d.dot body) lo hi false, Quantified.greedy) else none).bind
        fun p => Draft.read { D with inner := D.inner.add p } cs := by
    rw [Level.repeated?_push, h, Bool.and_true]
    split <;> rfl
  cases g with
  | none =>
    simp only [ExtGlob.openingText, ExtGlob.closingText, Option.map_none, Option.getD_none,
      String.reduceToList, List.cons_append, List.nil_append]
    rw [D.read_capture (head?_texts hs body _ (by simp)), read_body hs]
    rfl
  | some x =>
    simp only [ExtGlob.openingText, ExtGlob.closingText, Option.map_some, Option.getD_some]
    cases x with
    | exactlyOne =>
      simp only [ExtGlob.opening, ExtGlob.closing, String.reduceToList, List.cons_append, List.nil_append]
      rw [plain]
      rfl
    | zeroOrMore =>
      simp only [ExtGlob.opening, ExtGlob.closing, ExtGlob.sigil, String.reduceToList,
        String.toList_append, String.toList_singleton, List.cons_append, List.nil_append]
      rw [plain, Draft.read_star, Draft.push, repeated _ _ rfl]
      rfl
    | oneOrMore =>
      simp only [ExtGlob.opening, ExtGlob.closing, ExtGlob.sigil, String.reduceToList,
        String.toList_append, String.toList_singleton, List.cons_append, List.nil_append]
      rw [plain, Draft.read_plus, Draft.push, Level.plus?_push, repeated _ _ rfl]
      rfl
    | zeroOrOne =>
      simp only [ExtGlob.opening, ExtGlob.closing, ExtGlob.sigil, String.reduceToList,
        String.toList_append, String.toList_singleton, List.cons_append, List.nil_append]
      rw [plain, Draft.read_question, Draft.push, Level.question?_push, repeated _ _ rfl]
      rfl
    | negate =>
      simp only [ExtGlob.opening, ExtGlob.closing, String.reduceToList, String.toList_append,
        List.cons_append, List.nil_append, List.append_assoc, hstar]
      rw [Draft.read_plain, Draft.read_notAhead, Draft.read_plain, read_body hs]
      cases atEnd with
      | false =>
        simp only [Bool.false_eq_true, if_false, String.toList_empty, List.nil_append]
        rw [Draft.read_closing, Fragment.read_star, Draft.read_closing]
        rfl
      | true =>
        simp only [if_true, String.reduceToList, List.cons_append, List.nil_append]
        rw [Draft.read_stop, Draft.push, Draft.read_closing, Fragment.read_star, Draft.read_closing]
        rfl

end Enclosed

/-! ## Reading a bracket expression -/

namespace Bracket

theorem spells_text (m : Member) : Regex.SpellsMembers m.text.toList := by
  refine .of_check ?_
  cases m with
  | char c =>
    simp only [Member.text, Fragment.member, Fragment.char]
    split
    · rename_i h
      simp only [decide_eq_true_eq, List.mem_cons, List.not_mem_nil, or_false] at h
      rw [String.toList_push]
      rcases h with rfl | rfl | rfl | rfl | rfl | rfl <;> decide
    · rename_i h
      simp only [decide_eq_true_eq, List.mem_cons, List.not_mem_nil, or_false, not_or] at h
      simp [Regex.spellsMembers, h]
  | named n h =>
    obtain ⟨name, ranges⟩ := n
    simp only [Member.text, PosixClass.ranges?] at h ⊢
    split at h <;> cases h <;> decide

theorem spells_content (b : Bracket) (isClosed : Bool) :
    Regex.SpellsMembers (b.content isClosed) := by
  refine .append (.flatMap fun m _ => spells_text m) ?_
  split
  · exact .of_check (by decide)
  · exact .nil

theorem content_cons {b : Bracket} {isClosed : Bool} (h : isClosed = true → b.members ≠ []) :
    ∃ c cs, b.content isClosed = c :: cs ∧ c ≠ '^' := by
  unfold content
  cases hm : b.members with
  | nil =>
    cases isClosed with
    | true => exact absurd hm (h rfl)
    | false => exact ⟨'\\', ['['], by simp, by decide⟩
  | cons m ms =>
    obtain ⟨c, cs, hc, hne⟩ := m.text_cons
    exact ⟨c, _, by rw [List.flatMap_cons, hc, List.cons_append, List.cons_append], hne⟩

/-- A bracket expression is read to its end, or refused, whatever follows. -/
theorem bracket?_content {b : Bracket} {isClosed : Bool} (h : isClosed = true → b.members ≠ [])
    (rest : List Char) :
    Regex.bracket? ((if b.sign.isSome then ['^'] else []) ++ b.content isClosed ++ ']' :: rest) =
      (b.set? isClosed).map (·, rest) := by
  obtain ⟨c, cs, hc, hne⟩ := content_cons h
  obtain ⟨o, ho⟩ := Regex.bracket?_members b.sign.isSome (b.spells_content isClosed)
    (by rw [hc]; simp) (by rw [hc]; simpa using hne)
  have hset : b.set? isClosed = o := by
    rw [set?, ho []]
    cases o <;> rfl
  rw [ho, hset]

theorem text_ending (b : Bracket) (isClosed : Bool) :
    (b.text ++ b.ending isClosed).toList =
      '[' :: ((if b.sign.isSome then ['^'] else []) ++ b.content isClosed ++
        ']' :: '|' :: '\\' :: '[' :: ((Fragment.literals b.raw.toList).toList ++
          ((if isClosed then ['\\', ']'] else []) ++ [')']))) := by
  rw [String.toList_append, toList_text]
  unfold ending content
  cases b.sign <;> cases isClosed <;> cases b.members.isEmpty <;> simp

end Bracket

namespace Fragment

/-- Takes characters that stand for themselves. -/
def charsTakenBy (l : Level) (cs : List Char) : Level := cs.foldl (fun l c => l.push (.char c)) l

theorem read_literals (cs : List Char) (D : Draft) (rest : List Char) :
    D.read ((literals cs).toList ++ rest) =
      Draft.read { D with inner := charsTakenBy D.inner cs } rest := by
  induction cs generalizing D with
  | nil => simp [literals, charsTakenBy]
  | cons c cs ih =>
    have : (literals (c :: cs)).toList = (literal c).toList ++ (literals cs).toList := by
      simp [literals]
    rw [this, List.append_assoc, read_literal, ih]
    rfl

theorem charsTakenBy_spec (cs : List Char) (l : Level) :
    (charsTakenBy l cs).content = cs.foldl (fun r c => r.append (.char c)) l.content ∧
      (charsTakenBy l cs).finished = l.finished ∧ (charsTakenBy l cs).opening = l.opening := by
  induction cs generalizing l with
  | nil => exact ⟨rfl, rfl, rfl⟩
  | cons c cs ih => exact ih (l.push (.char c))

end Fragment

namespace Enclosed

theorem read_bracket (d : Dialect) {b : Bracket} {isClosed : Bool}
    (h : isClosed = true → b.members ≠ []) (D : Draft) (cs : List Char) :
    D.read (((bracket b isClosed h).text d).toList ++ cs) =
      ((bracket b isClosed h).operand? d.dot).bind fun p =>
        Draft.read { D with inner := D.inner.add p } cs := by
  have htext : ((bracket b isClosed h).text d).toList = '(' :: '?' :: ':' ::
      (b.text ++ b.ending isClosed).toList := by
    simp [text, String.append_assoc]
  rw [htext, b.text_ending]
  simp only [List.cons_append, List.append_assoc]
  rw [Draft.read_plain]
  have hb := Bracket.bracket?_content h ('|' :: '\\' :: '[' :: ((Fragment.literals b.raw.toList).toList ++
          ((if isClosed then ['\\', ']'] else []) ++ [')'] ++ cs)))
  simp only [List.cons_append, List.append_assoc] at hb
  cases hs : b.set? isClosed with
  | none =>
    rw [hs] at hb
    rw [Draft.read_none (by rw [Regex.lexeme?]; exact congrArg (Option.map _) hb)]
    simp [operand?, hs]
  | some s =>
    rw [hs] at hb
    rw [Draft.read_set _ hb, Draft.read_bar, Draft.read_escaped _ _ rfl, Fragment.read_literals]
    simp only [operand?, hs, Option.map_some, Option.bind_some]
    -- the group holds the set and, behind the bar, the glob's own text
    have close {l : Level} (cs : List Char) (hl : l = Fragment.charsTakenBy
        (Level.bar (Level.push { opening := .plain } (.set s))) cs) :
        l.close = .alt (.set s) (Regex.literals cs) := by
      obtain ⟨hc, hf, ho⟩ := Fragment.charsTakenBy_spec cs
        (Level.bar (Level.push { opening := .plain } (.set s)))
      rw [← hl] at hc hf ho
      unfold Level.close Level.body
      rw [ho, hf]
      exact congrArg _ hc
    have closing (cs' : List Char) : Draft.read ⟨Fragment.charsTakenBy
        (Level.bar (Level.push { opening := .plain } (.set s))) cs', D.inner :: D.outer⟩ (')' :: cs) =
        Draft.read (D.push (.alt (.set s) (Regex.literals cs'))) cs := by
      rw [Draft.read_closing, close cs' rfl]
      rfl
    cases isClosed with
    | false =>
      simp only [Bracket.ownText, Bool.false_eq_true, if_false, List.append_nil]
      exact closing ('[' :: b.raw.toList)
    | true =>
      simp only [Bracket.ownText, if_true, List.cons_append, List.nil_append]
      rw [Draft.read_escaped _ _ rfl]
      refine Eq.trans ?_ (closing ('[' :: b.raw.toList ++ [']']))
      simp only [Fragment.charsTakenBy, List.cons_append, List.foldl_cons, List.foldl_append,
        List.foldl_nil]
      rfl

/-- The text of a group or bracket expression is read as its operand, or refused with it. -/
theorem read_text {d : Dialect} (hs : d.star = none) (e : Enclosed) (D : Draft) (cs : List Char) :
    D.read ((e.text d).toList ++ cs) =
      (e.operand? d.dot).bind fun p => Draft.read { D with inner := D.inner.add p } cs := by
  cases e with
  | group g body atEnd => exact read_group hs g body atEnd D cs
  | bracket b isClosed h => exact read_bracket d h D cs

end Enclosed

/-! ## What can be repeated -/

theorem Regex.isRepeatable_append {a b : Regex} (h : b.isRepeatable = true) :
    (a.append b).isRepeatable = true := by
  unfold append
  split
  · exact h
  · split
    · rename_i hb
      rw [hb] at h
      cases h
    · rfl

/-- A group can be repeated unless it is empty. -/
theorem Enclosed.isRepeatable_bodyRegex (dot : Bool) (body : List Glyph) :
    (bodyRegex dot body).isRepeatable = !body.isEmpty := by
  rcases List.eq_nil_or_concat body with rfl | ⟨gs, g, rfl⟩
  · rfl
  · unfold bodyRegex Glyph.allTakenBy
    rw [List.concat_eq_append, List.foldl_append]
    generalize gs.foldl (Glyph.takenBy dot) { opening := .plain } = l
    -- the last sign either ends an alternative or is an operand that can be repeated
    have hlast : (g.takenBy dot l).finished ≠ [] ∨ (g.takenBy dot l).content.isRepeatable = true := by
      cases g with
      | bar => exact .inl (List.cons_ne_nil _ _)
      | separator isOptional => cases isOptional <;> exact .inr (Regex.isRepeatable_append rfl)
      | star isGuarded => cases isGuarded <;> exact .inr (Regex.isRepeatable_append rfl)
      | qmark isFirst =>
        refine .inr (Regex.isRepeatable_append ?_)
        change Regex.isRepeatable (if isFirst && !dot then _ else _) = true
        split <;> rfl
      | _ => exact .inr (Regex.isRepeatable_append rfl)
    have hempty : (gs ++ [g]).isEmpty = false := by simp
    rw [hempty, List.foldl_cons, List.foldl_nil]
    unfold Level.body
    split
    · rename_i hfinished
      rw [List.reverse_eq_nil_iff] at hfinished
      exact hlast.resolve_left (absurd hfinished)
    · rename_i r rs _
      cases rs <;> rfl

section GroupOperand

variable {g : Option ExtGlob} {r : Regex} {atEnd : Bool}

/-- A group has an operand unless it would repeat the empty text. -/
theorem Enclosed.groupOperand?_eq_none_iff :
    groupOperand? g r atEnd = none ↔ r.isRepeatable = false ∧ g.any ExtGlob.isLoop = true := by
  unfold groupOperand?
  split <;> simp [ExtGlob.isLoop]

theorem Enclosed.groupOperand?_isSome (h : r.isRepeatable = true) :
    (groupOperand? g r atEnd).isSome = true := by
  rw [← Option.ne_none_iff_isSome, ne_eq, groupOperand?_eq_none_iff, h]
  simp

end GroupOperand

/-! ## Parts -/

namespace Part

/-- What a `+` makes of the operand before it: it repeats one that is not quantified yet and makes
a loop possessive. -/
def repeat? (p : Regex × Quantified) : Option (Regex × Quantified) :=
  match p.2 with
  | .greedy | .sparing => some (.atomic p.1, .possessive)
  | .bare => if p.1.isRepeatable then some (.loop p.1 1 none false, .greedy) else none
  | .possessive => none

/-- The operands of a part other than a bar. -/
def operands? (dot : Bool) : Part → Option (List (Regex × Quantified))
  | glyph g => some (g.operands dot)
  | enclosed e isRepeated =>
    (((e.operand? dot).bind fun p => if isRepeated then repeat? p else some p)).map ([·])

/-- Takes a part into the alternatives being read. -/
def take? (dot : Bool) (l : Level) : Part → Option Level
  | glyph g => some (g.takenBy dot l)
  | p => (p.operands? dot).map (·.foldl Level.add l)

theorem plus?_add (l : Level) (p : Regex × Quantified) : (l.add p).plus? = (repeat? p).map l.add := by
  obtain ⟨r, q⟩ := p
  cases q with
  | bare =>
    change (l.push r).plus? = _
    rw [Level.plus?_push, Level.repeated?_push]
    simp only [repeat?, Option.all_none, Bool.and_true]
    split <;> rfl
  | greedy | sparing | possessive => rfl

theorem read_text {d : Dialect} (hs : d.star = none) (p : Part) (D : Draft) (cs : List Char) :
    D.read ((p.text d).toList ++ cs) =
      (p.take? d.dot D.inner).bind fun l => Draft.read { D with inner := l } cs := by
  cases p with
  | glyph g => exact Glyph.read_text hs g D cs
  | enclosed e isRepeated =>
    cases isRepeated with
    | false =>
      simp only [text, Bool.false_eq_true, if_false, String.append_empty]
      rw [Enclosed.read_text hs]
      simp only [take?, operands?]
      cases e.operand? d.dot <;> rfl
    | true =>
      simp only [text, if_true, String.toList_append, List.append_assoc]
      rw [Enclosed.read_text hs]
      simp only [take?, operands?]
      cases ho : e.operand? d.dot with
      | none => rfl
      | some p =>
        simp only [Option.bind_some, String.reduceToList, List.cons_append, List.nil_append]
        rw [Draft.read_plus, plus?_add]
        cases repeat? p <;> rfl

/-- The text of a glob's parts is read as its parts one after the other. -/
theorem read_texts {d : Dialect} (hs : d.star = none) (ps : List Part) (D : Draft) (cs : List Char) :
    D.read ((texts d ps).toList ++ cs) =
      (ps.foldlM (take? d.dot) D.inner).bind fun l => Draft.read { D with inner := l } cs := by
  induction ps generalizing D with
  | nil => simp
  | cons p ps ih =>
    rw [← List.singleton_append, texts_append, texts_singleton, String.toList_append,
      List.append_assoc, read_text hs, List.singleton_append, List.foldlM_cons]
    cases take? d.dot D.inner p with
    | none => rfl
    | some l => exact ih { D with inner := l }

end Part

end PathGlob
