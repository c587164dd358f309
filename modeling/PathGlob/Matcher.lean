/-
Matchers: each pattern is expanded, every resulting pattern rendered and compiled by itself, and a
candidate is accepted if one of them accepts it or, when all of them are negated, if all do.
-/
import PathGlob.Brace.Expansion
import PathGlob.Failure
import PathGlob.Glob.Scan
import PathGlob.Options
import PathGlob.Path.Separator
import PathGlob.Regex.Effort
import PathGlob.Regex.Reader

namespace PathGlob

/-! ## Single patterns -/

structure CompiledRegex where
  source : String
  nocase : Bool
  regex : Regex
  deriving DecidableEq, Repr

namespace CompiledRegex

/-- The text of the expression, with a mark in front if letter case is ignored. -/
def text (r : CompiledRegex) : String := if r.nocase then "(?i)" ++ r.source else r.source

/-- Whether the expression is found in a candidate, if the search is not given up. -/
def answer? (r : CompiledRegex) (e : Engine) (candidate : String) : Option Bool :=
  e.answer? r.regex r.nocase candidate.toList.toArray

/-- Whether the expression is found by a search that comes to its end. -/
def accepts (r : CompiledRegex) (candidate : String) : Bool :=
  r.regex.matchesIn r.nocase candidate.toList.toArray

def ofRendering (o : Options) (r : Rendering) : Except Failure CompiledRegex :=
  match Regex.ofChars? r.source.toList with
  | some regex => .ok { source := r.source, nocase := o.nocase, regex }
  | none => .error .wrongRegularExpression

end CompiledRegex

/-- A pattern ready to test candidates: by comparison where that is enough. -/
inductive Program where
  | literal (text : String)
  | regex (r : CompiledRegex)
  deriving DecidableEq, Repr

namespace Program

/-- The characters that give a pattern another meaning than its own text. -/
def isSpecial (c : Char) : Bool :=
  c ∈ ['*', '?', '[', ']', '\x7b', '\x7d', '(', ')', '<', '>', '!', '@', '+', '\\', '|', '"', '\'',
    '\x60', '“', '”', ':']

/-- Whether a pattern accepts its own text and nothing else. -/
def isLiteral (o : Options) (pattern : String) : Bool :=
  !o.nocase && o.lead.isNone && o.trail.isNone && !pattern.toList.any isSpecial

def compile (o : Options) (pattern : String) (r : Rendering) : Except Failure Program :=
  if isLiteral o pattern then .ok (.literal (String.ofList (Cursor.relative pattern.toList)))
  else (CompiledRegex.ofRendering o r).map .regex

/-- Whether a candidate is accepted. A search that is given up has found nothing. -/
def isMatch (p : Program) (e : Engine) (candidate : String) : Bool :=
  match p with
  | literal text => text == candidate
  | regex r => (r.answer? e candidate).getD false

/-- Whether a candidate is accepted where every search comes to its end. -/
def accepts (p : Program) (candidate : String) : Bool := p.isMatch .exhaustive candidate

@[simp] theorem accepts_regex (r : CompiledRegex) (candidate : String) :
    (regex r).accepts candidate = r.accepts candidate := rfl

end Program

def checkLength (o : Options) (pattern : String) : Except Failure Unit :=
  if pattern.length ≤ o.maxLength then .ok ()
  else .error (.patternTooLong pattern.length o.maxLength)

/-- Renders a pattern; where brackets are strict it must close what it opens. -/
def render (o : Options) (pattern : String) : Except Failure Rendering :=
  match Rendering.ofPattern o.dialect pattern with
  | .error e => .error (.ofMissingOpening e)
  | .ok r =>
    match r.unclosed with
    | c :: _ =>
      if o.strictBrackets then
        .error (.missingClosing (((Delimiter.ofOpener? c).map Delimiter.closer).getD c))
      else .ok r
    | [] => .ok r

/-- The regular expression of a pattern taken as it stands, its brace sets included. -/
def makeRegex (o : Options) (pattern : String) : Except Failure CompiledRegex := do
  checkLength o pattern
  CompiledRegex.ofRendering o (← render o pattern)

/-! ## Matchers -/

/-- What one pattern expands to: the renderings and programs of its expansions. -/
structure Group where
  pattern : String
  members : List (Rendering × Program)
  deriving DecidableEq, Repr

namespace Group

def isNegated (g : Group) : Bool := !g.members.isEmpty && g.members.all (·.1.negated)

/-- Whether a candidate is accepted: by all expansions if negated, else by any. -/
def isMatch (g : Group) (e : Engine) (candidate : String) : Bool :=
  if g.isNegated then g.members.all (·.2.isMatch e candidate)
  else g.members.any (·.2.isMatch e candidate)

def accepts (g : Group) (candidate : String) : Bool := g.isMatch .exhaustive candidate

theorem accepts_eq (g : Group) (candidate : String) :
    g.accepts candidate = if g.isNegated then g.members.all (·.2.accepts candidate)
      else g.members.any (·.2.accepts candidate) := rfl

def expansions (o : Options) (pattern : String) : Except Failure (List String) :=
  if o.nobrace then .ok [pattern]
  else
    match Brace.expand? o.maxExpansions pattern with
    | some ps => .ok ps
    | none => .error (.tooManyExpansions o.maxExpansions)

def member (o : Options) (pattern : String) : Except Failure (Rendering × Program) := do
  let r ← render o pattern
  return (r, ← Program.compile o pattern r)

def compile (o : Options) (pattern : String) : Except Failure Group := do
  checkLength o pattern
  let members ← (← expansions o pattern).mapM (member o)
  return { pattern, members }

end Group

/-- A matcher: the groups of its patterns, any of which may accept a candidate. -/
structure Matcher where
  windows : Bool
  groups : List Group
  deriving DecidableEq, Repr

namespace Matcher

def ofPatterns (o : Options) (patterns : List String) : Except Failure Matcher := do
  return { windows := o.windows, groups := ← patterns.mapM (Group.compile o) }

def ofPattern (o : Options) (pattern : String) : Except Failure Matcher := ofPatterns o [pattern]

def patterns (m : Matcher) : List String := m.groups.map (·.pattern)

def renderings (m : Matcher) : List Rendering :=
  m.groups.flatMap fun g => g.members.map (·.1)

def sources (m : Matcher) : List String := m.renderings.map (·.source)

def isNegated (m : Matcher) : Bool := !m.groups.isEmpty && m.groups.all (·.isNegated)

/-- Whether a path is accepted as it stands. -/
def test (m : Matcher) (e : Engine) (path : String) : Bool := m.groups.any (·.isMatch e path)

/-- Whether a candidate is accepted; where backslashes are separators, also without the separator at
its end. -/
def isMatch (m : Matcher) (e : Engine) (candidate : String) : Bool :=
  if m.windows then
    let path := Path.unixify candidate
    m.test e path || (Path.trimSeparator? path).any (m.test e)
  else m.test e candidate

/-- Whether a candidate is accepted where every search comes to its end. -/
def accepts (m : Matcher) (candidate : String) : Bool := m.isMatch .exhaustive candidate

@[simp] theorem test_exhaustive (m : Matcher) (path : String) :
    m.test .exhaustive path = m.groups.any (·.accepts path) := rfl

theorem accepts_eq (m : Matcher) (candidate : String) :
    m.accepts candidate =
      if m.windows then
        let path := Path.unixify candidate
        m.test .exhaustive path || (Path.trimSeparator? path).any (m.test .exhaustive)
      else m.test .exhaustive candidate := rfl

end Matcher

def accepted (e : Engine) (o : Options) (pattern : String) (candidates : List String) :
    Except Failure (List String) :=
  (Matcher.ofPattern o pattern).map fun m => candidates.filter (m.isMatch e)

end PathGlob
