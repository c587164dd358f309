/-
The regular expression that a source text spells. The lexemes are taken one by one into a draft: a
stack of the groups still open, each with the alternatives it has so far. A quantifier after a
quantifier changes it: `?` makes it lazy, and `+` makes it possessive.
-/
import PathGlob.Regex.Lexeme

namespace PathGlob.Regex

/-- How the last operand is quantified: whether a further sign may still change it. -/
inductive Quantified where
  | bare
  | greedy
  | sparing
  | possessive
  deriving DecidableEq, Repr

/-- An open group: its finished alternatives, latest first, and the one being read, of which the
last operand is kept apart for a quantifier. -/
structure Level where
  opening : Opening
  finished : List Regex := []
  items : Regex := .empty
  last : Regex := .empty
  quantified : Quantified := .bare

namespace Level

def push (l : Level) (r : Regex) : Level :=
  { l with items := l.items.append l.last, last := r, quantified := .bare }

def bar (l : Level) : Level :=
  { opening := l.opening, finished := l.items.append l.last :: l.finished }

def body (l : Level) : Regex :=
  match l.finished.reverse with
  | [] => l.items.append l.last
  | r :: rs => Regex.alts r (rs ++ [l.items.append l.last])

def close (l : Level) : Regex :=
  match l.opening with
  | .capture => .capture l.body
  | .plain => l.body
  | .atomic => .atomic l.body
  | .look k => .look k l.body

/-- Repeats the last operand, which must be one that can be repeated. -/
def repeated? (l : Level) (lo : Nat) (hi : Option Nat) : Option Level :=
  match l.quantified with
  | .bare =>
    if l.last.isRepeatable && hi.all (lo ≤ ·) then
      some { l with last := .loop l.last lo hi false, quantified := .greedy }
    else none
  | _ => none

/-- `?` repeats at most once, or makes the loop before it lazy. -/
def question? (l : Level) : Option Level :=
  match l.quantified, l.last with
  | .greedy, .loop r lo hi _ => some { l with last := .loop r lo hi true, quantified := .sparing }
  | _, _ => l.repeated? 0 (some 1)

/-- `+` repeats at least once, or makes the loop before it possessive. -/
def plus? (l : Level) : Option Level :=
  match l.quantified with
  | .greedy | .sparing => some { l with last := .atomic l.last, quantified := .possessive }
  | _ => l.repeated? 1 none

end Level

/-- A partly read expression: the innermost open group and those around it, the last of which is
the whole text. -/
structure Draft where
  inner : Level
  outer : List Level

namespace Draft

def empty : Draft := ⟨{ opening := .plain }, []⟩

def push (d : Draft) (r : Regex) : Draft := { d with inner := d.inner.push r }

/-- Takes the next lexeme; one that does not fit is refused. -/
def take? (d : Draft) : Lexeme → Option Draft
  | .char c => some (d.push (.char c))
  | .any => some (d.push .any)
  | .start => some (d.push .start)
  | .stop => some (d.push .stop)
  | .set s => some (d.push (.set s))
  | .opening o => some ⟨{ opening := o }, d.inner :: d.outer⟩
  | .closing =>
    match d.outer with
    | [] => none
    | l :: ls => some ⟨l.push d.inner.close, ls⟩
  | .bar => some { d with inner := d.inner.bar }
  | .star => (d.inner.repeated? 0 none).map ({ d with inner := · })
  | .count lo hi => (d.inner.repeated? lo hi).map ({ d with inner := · })
  | .question => d.inner.question?.map ({ d with inner := · })
  | .plus => d.inner.plus?.map ({ d with inner := · })

def finish? (d : Draft) : Option Regex :=
  match d.outer with
  | [] => some d.inner.close
  | _ :: _ => none

end Draft

def ofLexemes? (ls : List Lexeme) : Option Regex :=
  (ls.foldlM Draft.take? Draft.empty).bind Draft.finish?

def ofChars? (cs : List Char) : Option Regex := (lexemes? cs).bind ofLexemes?

end PathGlob.Regex
