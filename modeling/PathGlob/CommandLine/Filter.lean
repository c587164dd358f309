/-
The run of the program: candidates from the command line, or the lines of the input, are looked at one
after another and printed if the pattern accepts them. The status is 0 if anything was found, 1 if
nothing was, and 2 after a failure.
-/
import PathGlob.CommandLine.Invocation
import PathGlob.Matcher

namespace PathGlob.CommandLine

/-! ## Input -/

def withoutReturn (s : String) : String :=
  match s.toList.reverse with
  | '\r' :: cs => String.ofList cs.reverse
  | _ => s

abbrev ByteLine := List UInt8 × Bool

def consByte (b : UInt8) (lines : List ByteLine) : List ByteLine :=
  if b = 10 then ([], true) :: lines
  else
    match lines with
    | [] => [([b], false)]
    | (l, isEnded) :: ls => (b :: l, isEnded) :: ls

/-- The lines of an input. A line feed ends a line; what is behind the last one is a line too, unless
it is empty. -/
def byteLines (bytes : List UInt8) : List ByteLine := bytes.foldr consByte []

/-- A line as text, which has to be valid UTF-8; one carriage return before its line feed is dropped. -/
def decoded (line : ByteLine) : Except Failure String :=
  match String.fromUTF8? (ByteArray.mk line.1.toArray) with
  | some s => .ok (if line.2 then withoutReturn s else s)
  | none => .error .unreadableInput

/-- What reading gives, one line after another: the line, or why it cannot be read. -/
abbrev Lines := List (Except Failure String)

def Lines.ofBytes (input : List UInt8) : Lines := (byteLines input).map decoded

/-! ## Output -/

/-- What a run printed, and how it ended: whether it found anything, or why it failed. -/
structure Outcome where
  printed : List String := []
  ending : Except Failure Bool
  deriving Repr

namespace Outcome

def status (o : Outcome) : Nat :=
  match o.ending with
  | .ok true => 0
  | .ok false => 1
  | .error _ => 2

def failure? (o : Outcome) : Option Failure :=
  match o.ending with
  | .ok _ => none
  | .error f => some f

def output (o : Outcome) : String := String.join (o.printed.map (· ++ "\n"))

end Outcome

/-! ## The run -/

/-- What has been printed so far, the latest line first, and whether anything has been found. -/
structure Progress where
  printed : List String := []
  found : Bool := false
  deriving DecidableEq, Repr

/-- Prints a candidate if a matcher accepts it or, inverted, does not accept it. -/
def Progress.offer (e : Engine) (m : Matcher) (invert : Bool) (p : Progress) (candidate : String) :
    Progress :=
  if m.isMatch e candidate != invert then { printed := candidate :: p.printed, found := true } else p

/-- Offers candidates one after another, up to the first that cannot be read. -/
def Progress.filter (e : Engine) (m : Matcher) (invert : Bool) (p : Progress) : Lines → Outcome
  | [] => { printed := p.printed.reverse, ending := .ok p.found }
  | .ok candidate :: rest => (p.offer e m invert candidate).filter e m invert rest
  | .error f :: _ => { printed := p.printed.reverse, ending := .error f }

namespace Invocation

def matcher (v : Invocation) (settings : Except Failure Settings) : Except Failure Matcher :=
  settings.bind fun s => Matcher.ofPattern (v.options s) v.pattern

/-- The candidates as they come. The input is looked at only if none are given. -/
def offered (v : Invocation) (input : Lines) : Lines :=
  if v.candidates.isEmpty then input else v.candidates.map .ok

end Invocation

def run (e : Engine) (v : Invocation) (settings : Except Failure Settings) (input : Lines) : Outcome :=
  match v.matcher settings with
  | .error f => { ending := .error f }
  | .ok m =>
    if v.source then { printed := m.sources, ending := .ok true }
    else Progress.filter e m v.invert {} (v.offered input)

/-! ## The whole program -/

def versionText : String := "globcraft 0.1.0\n"

def helpText : String :=
  "Filters paths through an extended shell glob pattern\n\n" ++
  "Usage: globcraft [OPTIONS] <PATTERN> [CANDIDATE]...\n\n" ++
  "Arguments:\n" ++
  "  <PATTERN>         Glob pattern\n" ++
  "  [CANDIDATE]...    Candidate paths; lines of standard input if there are none\n\n" ++
  "Options:\n" ++
  "      --config <CONFIG>    Configuration file path\n" ++
  "      --dot                Let wildcards match path components starting with a dot\n" ++
  "  -i, --nocase             Match case-insensitively\n" ++
  "      --no-brace           Keep brace sets literal\n" ++
  "      --strict-brackets    Fail on patterns leaving a group or bracket expression open\n" ++
  "      --windows            Treat backslashes in candidates as path separators\n" ++
  "      --prefix <PREFIX>    Regular expression inserted after the leading anchor\n" ++
  "      --suffix <SUFFIX>    Regular expression inserted before the trailing anchor\n" ++
  "      --star <STAR>        Regular expression used in place of a single *\n" ++
  "      --source             Print the compiled regular expressions instead of filtering\n" ++
  "  -v, --invert             Print candidates that do not match\n" ++
  "  -h, --help               Print help\n" ++
  "  -V, --version            Print version\n"

def Stop.message : Stop → String
  | .help | .version => ""
  | .missingPattern => "a required argument was not provided: <PATTERN>"
  | .unknownArgument w => "unexpected argument: " ++ w
  | .invalidValue a => "invalid or missing value for --" ++ a
  | .repeated a => "argument cannot be used multiple times: --" ++ a
  | .needlessValue a => "unexpected value for --" ++ a

structure Report where
  status : Nat
  output : String := ""
  errors : String := ""
  deriving DecidableEq, Repr

def Outcome.report (o : Outcome) (wording : Failure → String) : Report :=
  { status := o.status, output := o.output, errors := (o.failure?.map wording).getD "" }

def Stop.report : Stop → Report
  | .help => { status := 0, output := helpText }
  | .version => { status := 0, output := versionText }
  | s => { status := 2, errors := "error: " ++ s.message ++ "\n" }

/-- The whole program on given surroundings: the environment, the user's configuration file, any
other file by its path, and the input. -/
def report (e : Engine) (environment : String → Option String) (user : Option String)
    (file : String → Option String) (words : List String) (input : List UInt8) : Report :=
  match Invocation.ofWords environment words with
  | .error s => s.report
  | .ok v =>
    let settings := Settings.load user (v.config.map fun path => ⟨path, file path⟩)
    (run e v settings (Lines.ofBytes input)).report Failure.plain

end PathGlob.CommandLine
