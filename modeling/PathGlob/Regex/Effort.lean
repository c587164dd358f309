/-
How often a search by backtracking turns back. At every choice it takes the preferred way first, and when
that way has failed it turns back and takes the other. Parts without lookaround and inner preference are
handed over to a search that does not turn back, where nothing but such parts is behind them.
An engine may give up a search that has turned back too often.
-/
import PathGlob.Regex.Search

namespace PathGlob.Regex

/-- How often a search has turned back, and whether it has found a match. -/
structure Effort where
  backtracks : Nat
  found : Bool
  deriving DecidableEq, Repr

namespace Effort

def failed : Effort := ⟨0, false⟩

def finished : Effort := ⟨0, true⟩

/-- A choice of two ways. -/
def orElse (x y : Effort) : Effort :=
  if x.found then x else ⟨x.backtracks + 1 + y.backtracks, y.found⟩

/-- The search goes on behind a part in which it has turned back `n` times. -/
def behind (n : Nat) (y : Effort) : Effort := ⟨n + y.backtracks, y.found⟩

end Effort

/-- What a search takes, by the position from where it goes on: a table of the positions from `start` on. -/
structure Efforts where
  start : Nat
  efforts : List Effort

namespace Efforts

def ofFn (s : Array Char) (f : Nat → Effort) : Efforts := ⟨0, (List.range (s.size + 1)).map f⟩

def get (k : Efforts) (i : Nat) : Effort := k.efforts[i - k.start]?.getD .failed

/-- One position more, the one in front of the others. -/
def add (i : Nat) (x : Effort) (later : Efforts) : Efforts := ⟨i, x :: later.efforts⟩

/-- A part is matched in the preferred one of some ways, and the search goes on behind it. -/
def next (s : Array Char) (ends : Nat → List Nat) (k : Efforts) : Efforts :=
  ofFn s fun i =>
    match (ends i).head? with
    | some j => k.get j
    | none => .failed

def choice (s : Array Char) (k l : Efforts) : Efforts := ofFn s fun i => (k.get i).orElse (l.get i)

/-- What a loop in front of `k` takes, one position added. A repetition that takes no character ends the
loop there. -/
def addLoop (body : Efforts → Efforts) (isLazy : Bool) (k : Efforts) (i : Nat) (later : Efforts) :
    Efforts :=
  let out := k.get i
  let more := (body (later.add i out)).get i
  later.add i (if isLazy then out.orElse more else more.orElse out)

/-- Any number of repetitions of a body, and `k` behind them. Later positions come first, since a loop does
not go back in the text. -/
def loop (s : Array Char) (body : Efforts → Efforts) (isLazy : Bool) (k : Efforts) : Efforts :=
  (List.range (s.size + 1)).foldr (addLoop body isLazy k) ⟨s.size + 1, []⟩

def upTo (s : Array Char) (body : Efforts → Efforts) (isLazy : Bool) (k : Efforts) : Nat → Efforts
  | 0 => k
  | n + 1 =>
    let more := body (upTo s body isLazy k n)
    if isLazy then choice s k more else choice s more k

end Efforts

/-- What is still to be searched for behind an expression. -/
inductive Rest where
  /-- Nothing but the expression, which can be handed over. -/
  | plain (r : Regex)
  | efforts (k : Efforts)

section Search

variable (nocase : Bool) (s : Array Char)

/-- A search that does not turn back, with nothing behind it. -/
def handedOver (r : Regex) : Efforts :=
  .ofFn s fun i => if (ends nocase s r i).isEmpty then .failed else .finished

namespace Rest

def toEfforts : Rest → Efforts
  | plain r => handedOver nocase s r
  | efforts k => k

/-- What is handed over together with an expression, if it can be. -/
def whole? (rest : Rest) (r : Regex) : Option Regex :=
  match rest with
  | plain t => if r.isPlain then some (r.append t) else none
  | efforts _ => none

/-- The same rest for the parts of an expression, which are handed over if nothing at all is behind. -/
def inner : Rest → Rest
  | plain .empty => plain .empty
  | rest => efforts (rest.toEfforts nocase s)

end Rest

/-- What the search for an expression takes, and for the rest behind it. -/
def tried : Regex → Rest → Efforts
  | r, rest =>
    match rest.whole? r with
    | some whole => handedOver nocase s whole
    | none =>
      match r with
      | .empty => rest.toEfforts nocase s
      | .seq a b =>
        match rest.whole? b with
        | some whole => a.tried (.plain whole)
        | none => a.tried (.efforts (b.tried (.efforts (rest.toEfforts nocase s))))
      | .alt a b => .choice s (a.tried (rest.inner nocase s)) (b.tried (rest.inner nocase s))
      | .capture r => r.tried (rest.inner nocase s)
      | .loop r lo none isLazy =>
        Nat.repeat (fun k => r.tried (.efforts k)) lo
          (.loop s (fun k => r.tried (.efforts k)) isLazy (rest.toEfforts nocase s))
      | .loop r lo (some hi) isLazy =>
        Nat.repeat (fun k => r.tried (.efforts k)) lo
          (.upTo s (fun k => r.tried (.efforts k)) isLazy (rest.toEfforts nocase s) (hi - lo))
      | .atomic r =>
        let body := r.tried (.plain .empty)
        let k := rest.toEfforts nocase s
        .ofFn s fun i =>
          match (ends nocase s (.atomic r) i).head? with
          | some j => .behind (body.get i).backtracks (k.get j)
          | none => { body.get i with found := false }
      | .look .ahead r =>
        let body := r.tried (.plain .empty)
        let k := rest.toEfforts nocase s
        .ofFn s fun i =>
          if (body.get i).found then .behind (body.get i).backtracks (k.get i) else body.get i
      | .look .notAhead r =>
        let body := r.tried (.plain .empty)
        let k := rest.toEfforts nocase s
        .ofFn s fun i =>
          if (body.get i).found then { body.get i with found := false }
          else (body.get i).orElse (k.get i)
      | r => .next s (ends nocase s r) (rest.toEfforts nocase s)
  termination_by structural r => r

theorem tried_of_whole {rest : Rest} {r whole : Regex} (h : rest.whole? r = some whole) :
    r.tried nocase s rest = handedOver nocase s whole := by
  unfold tried
  simp only [h]

/-- What a search takes to find a match anywhere in the text, or none. An expression without lookaround and
inner preference is handed over as a whole; where it begins with the start of the text, no other place is
tried. -/
def effort (r : Regex) : Effort :=
  if r.isPlain then { backtracks := 0, found := r.matchesIn nocase s }
  else
    let k := r.tried nocase s (.plain .empty)
    if r.operands.head? = some .start then k.get 0
    else (List.range (s.size + 1)).foldr (fun i later => (k.get i).orElse later) .failed

end Search
end Regex

/-! ## Engines -/

/-- What searches for regular expressions. It may give up a search before it knows of a match. -/
structure Engine where
  givesUp : Regex → Bool → Array Char → Bool

namespace Engine

/-- Every search comes to its end. -/
def exhaustive : Engine := ⟨fun _ _ _ => false⟩

/-- Gives up when it has turned back more often than `limit` times. -/
def backtracking (limit : Nat) : Engine :=
  ⟨fun r nocase s => decide (limit < (r.effort nocase s).backtracks)⟩

def standard : Engine := backtracking 1000000

/-- Whether a text has a match in it, if the search is not given up. -/
def answer? (e : Engine) (r : Regex) (nocase : Bool) (s : Array Char) : Option Bool :=
  if e.givesUp r nocase s then none else some (r.matchesIn nocase s)

end Engine
end PathGlob
