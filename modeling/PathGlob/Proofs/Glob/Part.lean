/-
What a glob consists of: signs that enclose nothing, bracket expressions, and groups of signs. The
parts of a glob do not depend on the dialect, which only says how each of them is written as
regular expression text.
-/
import PathGlob.Glob.Scan

namespace PathGlob

/-! ## Signs -/

/-- A sign that encloses nothing. -/
inductive Glyph where
  | char (c : Char)
  /-- A bar between delimiters, which separates alternatives. -/
  | bar
  | separator (isOptional : Bool)
  /-- `*`, guarded or not. -/
  | star (isGuarded : Bool)
  /-- `**`; `dots` if the globs before it, up to another one, had a component begin with a dot. -/
  | globstar (dots : Bool)
  /-- `?`, right behind a separator or not. -/
  | qmark (isFirst : Bool)
  deriving DecidableEq, Repr

namespace Glyph

/-- The regular expression text of a sign. -/
def text (d : Dialect) : Glyph → String
  | char c => Fragment.literal c
  | bar => "|"
  | separator isOptional => Fragment.separator isOptional
  | star isGuarded => (if isGuarded then Fragment.dotGuard d.dot else "") ++ d.starText
  | globstar dots => Fragment.globstar (dots || d.dot)
  | qmark isFirst => if isFirst && !d.dot then Fragment.qmarkNoDot else Fragment.qmark

/-- The text of several signs. -/
def texts (d : Dialect) (gs : List Glyph) : String := String.join (gs.map (text d))

@[simp] theorem texts_nil (d : Dialect) : texts d [] = "" := by simp [texts]

@[simp] theorem texts_append (d : Dialect) (gs hs : List Glyph) :
    texts d (gs ++ hs) = texts d gs ++ texts d hs := by simp [texts, String.join_append]

@[simp] theorem texts_singleton (d : Dialect) (g : Glyph) : texts d [g] = g.text d := by simp [texts]

end Glyph

/-! ## Bracket expressions -/

/-- A member of a bracket expression. -/
inductive Member where
  | char (c : Char)
  | named (n : PosixClass.Named) (isNamed : PosixClass.ranges? n.name = some n.ranges)

namespace Member

/-- How a member is written in the regular expression. -/
def text : Member → String
  | char c => Fragment.member c
  | named n _ => n.ranges

/-- How a member is written in the glob, an escape resolved. -/
def raw : Member → String
  | char c => String.singleton c
  | named n _ => n.text

/-- A member is never written as nothing, nor as the sign of negation. -/
theorem text_cons (m : Member) : ∃ c cs, m.text.toList = c :: cs ∧ c ≠ '^' := by
  cases m with
  | char c =>
    simp only [text, Fragment.member, Fragment.char]
    split
    · exact ⟨'\\', [c], by simp, by decide⟩
    · rename_i h
      exact ⟨c, [], by simp, by rintro rfl; exact h (by decide)⟩
  | named n h =>
    obtain ⟨name, ranges⟩ := n
    simp only [text, PosixClass.ranges?] at h ⊢
    split at h <;> cases h <;> exact ⟨_, _, rfl, by decide⟩

end Member

/-- A bracket expression, as far as it has been read: its sign of negation and its members. -/
structure Bracket where
  sign : Option Char := none
  members : List Member := []

namespace Bracket

/-- The regular expression text from the opening bracket on. -/
def text (b : Bracket) : String :=
  "[" ++ (b.sign.map fun _ => "^").getD "" ++ String.join (b.members.map Member.text)

/-- The characters of the glob behind the opening bracket. -/
def raw (b : Bracket) : String :=
  (b.sign.map String.singleton).getD "" ++ String.join (b.members.map Member.raw)

/-- A bracket expression with one more member. -/
def add (b : Bracket) (m : Member) : Bracket := { b with members := b.members ++ [m] }

@[simp] theorem text_add (b : Bracket) (m : Member) : (b.add m).text = b.text ++ m.text := by
  simp [text, add, String.join_append, String.append_assoc]

@[simp] theorem raw_add (b : Bracket) (m : Member) : (b.add m).raw = b.raw ++ m.raw := by
  simp [raw, add, String.join_append, String.append_assoc]

theorem toList_text (b : Bracket) : b.text.toList =
    '[' :: ((b.sign.map fun _ => ['^']).getD [] ++ b.members.flatMap (·.text.toList)) := by
  rcases b with ⟨_ | c, ms⟩ <;> simp [text, String.toList_join, List.flatMap_map]

/-- A bracket expression written as nothing but its start has no members, for no member is written
as nothing or as the sign of negation. -/
theorem text_eq_start (b : Bracket) :
    (b.text = "[" ↔ b.sign = none ∧ b.members = []) ∧
      (b.text = "[^" ↔ b.sign.isSome ∧ b.members = []) := by
  rw [← String.toList_inj, ← String.toList_inj, toList_text]
  rcases b with ⟨_ | c, _ | ⟨m, ms⟩⟩
  · decide
  · obtain ⟨c, cs, h, hc⟩ := m.text_cons
    simp only [List.flatMap_cons, h]
    simp [hc]
  · simp
  · obtain ⟨c, cs, h, -⟩ := m.text_cons
    simp only [List.flatMap_cons, h]
    simp

/-- Whether there is neither a sign nor a member yet. -/
def isFresh (b : Bracket) : Bool := b.sign.isNone && b.members.isEmpty

/-- The regular expression text behind the members: the end of the class and, as an alternative,
the glob's own text. -/
def ending (b : Bracket) (isClosed : Bool) : String :=
  (if !isClosed && b.members.isEmpty then "\\[" else "") ++ "]|\\[" ++
    Fragment.literals b.raw.toList ++ (if isClosed then "\\]" else "") ++ ")"

end Bracket

/-! ## Parts -/

/-- A group or a bracket expression, ended by its closing character or by the end of the glob. -/
inductive Enclosed where
  /-- `atEnd` if nothing follows the group. -/
  | group (g : Option ExtGlob) (body : List Glyph) (atEnd : Bool)
  /-- One that has been closed has members. -/
  | bracket (b : Bracket) (isClosed : Bool) (isFilled : isClosed = true → b.members ≠ [])

/-- The regular expression text that opens a group. -/
def ExtGlob.openingText (g : Option ExtGlob) : String := (g.map opening).getD "("

/-- The regular expression text that closes a group. -/
def ExtGlob.closingText (d : Dialect) (g : Option ExtGlob) (atEnd : Bool) : String :=
  (g.map (·.closing atEnd d.starText)).getD ")"

/-- The regular expression text of a group or bracket expression. -/
def Enclosed.text (d : Dialect) : Enclosed → String
  | group g body atEnd =>
    ExtGlob.openingText g ++ Glyph.texts d body ++ ExtGlob.closingText d g atEnd
  | bracket b isClosed _ => "(?:" ++ b.text ++ b.ending isClosed

/-- A part of a glob outside all groups; `isRepeated` if a `+` follows what is enclosed. -/
inductive Part where
  | glyph (g : Glyph)
  | enclosed (e : Enclosed) (isRepeated : Bool)

namespace Part

/-- The regular expression text of a part. -/
def text (d : Dialect) : Part → String
  | glyph g => g.text d
  | enclosed e isRepeated => e.text d ++ (if isRepeated then "+" else "")

/-- The text of several parts. -/
def texts (d : Dialect) (ps : List Part) : String := String.join (ps.map (text d))

@[simp] theorem texts_nil (d : Dialect) : texts d [] = "" := by simp [texts]

@[simp] theorem texts_append (d : Dialect) (ps qs : List Part) :
    texts d (ps ++ qs) = texts d ps ++ texts d qs := by simp [texts, String.join_append]

@[simp] theorem texts_singleton (d : Dialect) (p : Part) : texts d [p] = p.text d := by simp [texts]

end Part
end PathGlob
