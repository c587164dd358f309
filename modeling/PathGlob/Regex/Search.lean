/-
Matching by backtracking, said without it: for each expression and each position the list of the
positions where a match can end, the preferred one first and none twice. A loop visits a position
only once, and a repetition that takes no character ends its loop. Where only the preferred match
counts and there is no lookaround, the automaton of the expression says which match that is.
-/
import PathGlob.Regex.Automaton
import PathGlob.Regex.Factor

namespace PathGlob.Regex

/-! ## Lists of positions -/

/-- Positions collected in order of preference, each at most once; `seen` has a bit for each. -/
structure Ends where
  seen : Nat := 0
  found : List Nat := []

namespace Ends

def add (e : Ends) (i : Nat) : Ends :=
  if e.seen.testBit i then e else ⟨e.seen ||| 1 <<< i, i :: e.found⟩

def toList (e : Ends) : List Nat := e.found.reverse

end Ends

/-- Every position once, at its first place. -/
def distinct (is : List Nat) : List Nat := (is.foldl Ends.add {}).toList

/-- The ends of a second match behind each of the given ends. -/
def after (is : List Nat) (next : Nat → List Nat) : List Nat := distinct (is.flatMap next)

/-! ## Loops -/

/-- A loop's search: the positions it has come to, and the ends it has found. -/
structure Tour where
  visited : Nat := 0
  ends : Ends := {}

/-- Visits a position of an unbounded loop: from there it goes on with every end of the body in
turn, and the position itself is an end, the last one tried or, if lazy, the first. A position
beyond the end of the text, `room` characters ahead, is never come to. -/
def Tour.visit (body : Nat → List Nat) (isLazy : Bool) : (room : Nat) → Tour → Nat → Tour
  | 0, t, i => { t with ends := t.ends.add i }
  | room + 1, t, i =>
    if t.visited.testBit i then t
    else
      let t := { t with visited := t.visited ||| 1 <<< i }
      let t := if isLazy then { t with ends := t.ends.add i } else t
      let t := (body i).foldl (fun t j =>
        if i < j then Tour.visit body isLazy room t j else { t with ends := t.ends.add i }) t
      if isLazy then t else { t with ends := t.ends.add i }

def repeatAny (body : Nat → List Nat) (isLazy : Bool) (room : Nat) (is : List Nat) : List Nat :=
  (is.foldl (Tour.visit body isLazy room) {}).ends.toList

def repeatUpTo (body : Nat → List Nat) (isLazy : Bool) : Nat → Nat → List Nat
  | 0, i => [i]
  | n + 1, i =>
    let more := after (body i) (repeatUpTo body isLazy n)
    distinct (if isLazy then i :: more else more ++ [i])

def repeatExactly (body : Nat → List Nat) : Nat → List Nat → List Nat
  | 0, is => is
  | n + 1, is => repeatExactly body n (after is body)

/-! ## Matching -/

def step (s : Array Char) (test : Char → Bool) (i : Nat) : List Nat :=
  match s[i]? with
  | some c => if test c then [i + 1] else []
  | none => []

/-- The position itself under a condition. -/
def stay (b : Bool) (i : Nat) : List Nat := if b then [i] else []

def sameChar (nocase : Bool) (c d : Char) : Bool :=
  if nocase then CaseFold.fold c == CaseFold.fold d else c == d

/-- Where a single character or a condition on the position ends; other expressions do not match. -/
def single (nocase : Bool) (s : Array Char) : Regex → Nat → List Nat
  | .char c, i => step s (sameChar nocase c) i
  | .any, i => step s (· != '\n') i
  | .set cs, i => step s (cs.contains nocase) i
  | .start, i => stay (i == 0) i
  | .stop, i => stay (i == s.size) i
  | _, _ => []

def preferred (nocase : Bool) (s : Array Char) (r : Regex) (i : Nat) (is : List Nat) : List Nat :=
  if r.isPlain then
    let best := (r.factored nocase).preferredEnd? (single nocase s) (s.size + 1) i
    is.filter (best = some ·)
  else is.take 1

/-- The positions where a match that starts at a given one can end, the preferred one first. -/
def ends (nocase : Bool) (s : Array Char) : Regex → Nat → List Nat
  | .empty, i => [i]
  | .seq a b, i => after (ends nocase s a i) (ends nocase s b)
  | .alt a b, i => distinct (ends nocase s a i ++ ends nocase s b i)
  | .capture r, i => ends nocase s r i
  | .loop r lo none isLazy, i =>
    repeatAny (ends nocase s r) isLazy (s.size + 1) (repeatExactly (ends nocase s r) lo [i])
  | .loop r lo (some hi) isLazy, i =>
    after (repeatExactly (ends nocase s r) lo [i]) (repeatUpTo (ends nocase s r) isLazy (hi - lo))
  | .atomic r, i => preferred nocase s r i (ends nocase s r i)
  | .look .ahead r, i => stay (!(ends nocase s r i).isEmpty) i
  | .look .notAhead r, i => stay (ends nocase s r i).isEmpty i
  | .look .behind r, i => stay ((List.range (i + 1)).any fun k => (ends nocase s r k).contains i) i
  | .look .notBehind r, i =>
    stay (!(List.range (i + 1)).any fun k => (ends nocase s r k).contains i) i
  | r, i => single nocase s r i

theorem ends_alt (nocase : Bool) (s : Array Char) (a b : Regex) (i : Nat) :
    (alt a b).ends nocase s i = distinct (a.ends nocase s i ++ b.ends nocase s i) := by
  rw [ends]

/-- Whether a match starts anywhere in the text. -/
def matchesIn (r : Regex) (nocase : Bool) (s : Array Char) : Bool :=
  (List.range (s.size + 1)).any fun i => !(r.ends nocase s i).isEmpty

end PathGlob.Regex
