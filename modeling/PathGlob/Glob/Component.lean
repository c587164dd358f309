/-
The components of a pattern, that is its parts between separators, with the regular expression
text of each and what was learnt about it. Only the latest component changes, save that the first
one may get a guard in front.
-/

namespace PathGlob

inductive Component.Origin where
  | start
  | separator
  deriving DecidableEq, Repr

/-- One component of a pattern: `dot` if it begins with a literal dot, `globstar` if it holds a
`**`, `isOptional` if its separator may be left out, `capture` and `extGlob` for its groups. -/
structure Component where
  origin : Component.Origin := .start
  text : String := ""
  dot : Bool := false
  globstar : Bool := false
  isOptional : Bool := false
  capture : Bool := false
  extGlob : Bool := false
  deriving DecidableEq, Repr

namespace Component

def append (c : Component) (text : String) : Component := { c with text := c.text ++ text }

def guard (c : Component) (text : String) : Component := { c with text := text ++ c.text }

end Component

/-- The components so far: those that are finished, and the current one. -/
structure Trail where
  done : List Component := []
  current : Component := {}
  deriving DecidableEq, Repr

namespace Trail

def toList (t : Trail) : List Component := t.done ++ [t.current]

/-- Finishes the current component and begins the next one, with or without need of its
separator. -/
def begin (t : Trail) (isOptional : Bool) : Trail :=
  ⟨t.toList, { origin := .separator, isOptional }⟩

def modify (t : Trail) (change : Component → Component) : Trail :=
  { t with current := change t.current }

def append (t : Trail) (text : String) : Trail := t.modify (·.append text)

def modifyFirst (t : Trail) (change : Component → Component) : Trail :=
  match t.done with
  | [] => t.modify change
  | c :: cs => { t with done := change c :: cs }

/-- The `n`-th component from the end; the first of them is the current one. -/
def lookbehind (t : Trail) : Nat → Option Component
  | 0 => none
  | n + 1 => t.toList.reverse[n]?

@[simp] theorem toList_begin (t : Trail) (o : Bool) :
    (t.begin o).toList = t.toList ++ [{ origin := .separator, isOptional := o }] := rfl

@[simp] theorem toList_modifyFirst (t : Trail) (change : Component → Component) :
    (t.modifyFirst change).toList = t.toList.modifyHead change := by
  unfold modifyFirst
  split <;> rename_i h <;> simp [toList, modify, h]

end Trail
end PathGlob
