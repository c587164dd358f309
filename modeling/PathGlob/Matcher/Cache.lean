/-
A cache of matchers by pattern and options. Every matcher built gets a serial number, so that one
can tell whether two requests were given the same one.
-/
import PathGlob.Matcher

namespace PathGlob

structure Handle where
  serial : Nat
  matcher : Matcher
  deriving DecidableEq, Repr

structure Cache.Entry where
  pattern : String
  options : Options
  handle : Handle
  deriving DecidableEq, Repr

/-- Matchers by pattern and options, and the number of matchers built for them so far. -/
structure Cache where
  entries : List Cache.Entry := []
  built : Nat := 0
  deriving DecidableEq, Repr

namespace Cache

def find? (c : Cache) (o : Options) (pattern : String) : Option Handle :=
  (c.entries.find? fun e => e.pattern = pattern ∧ e.options = o).map (·.handle)

/-- The matcher for a pattern and options, built on first use. A failure is not kept. -/
def get (c : Cache) (o : Options) (pattern : String) : Except Failure Handle × Cache :=
  match c.find? o pattern with
  | some h => (.ok h, c)
  | none =>
    match Matcher.ofPattern o pattern with
    | .error f => (.error f, c)
    | .ok matcher =>
      let handle := { serial := c.built, matcher }
      (.ok handle, { entries := ⟨pattern, o, handle⟩ :: c.entries, built := c.built + 1 })

def clear (c : Cache) : Cache := { c with entries := [] }

def size (c : Cache) : Nat := c.entries.length

/-- Whether a pattern accepts a candidate, by the cached matcher unless the options forbid it. -/
def isMatch (c : Cache) (e : Engine) (o : Options) (pattern candidate : String) :
    Except Failure Bool × Cache :=
  if o.nocache then ((Matcher.ofPattern o pattern).map (·.isMatch e candidate), c)
  else
    let (h, c) := c.get o pattern
    (h.map (·.matcher.isMatch e candidate), c)

end Cache
end PathGlob
