/-
What can go wrong between a pattern and its answers, and the wording of each.
-/
import PathGlob.Glob.Delimiter

namespace PathGlob

inductive Failure where
  | missingOpening (opener : Char)
  | missingClosing (closer : Char)
  | patternTooLong (length limit : Nat)
  | tooManyExpansions (limit : Nat)
  | wrongRegularExpression
  | badConfiguration
  | unreadableInput
  deriving DecidableEq, Repr

namespace Failure

def quoted (c : Char) : String := "\"" ++ String.singleton c ++ "\""

def message : Failure → String
  | missingOpening c => "missing opening: " ++ quoted c
  | missingClosing c => "missing closing: " ++ quoted c
  | patternTooLong length limit =>
    "pattern is too long: " ++ toString length ++ " characters exceed the limit of "
      ++ toString limit
  | tooManyExpansions limit =>
    "brace expansion produces more than " ++ toString limit ++ " patterns"
  | wrongRegularExpression => "wrong regular expression"
  | badConfiguration => "failed to load configuration"
  | unreadableInput => "stream did not contain valid UTF-8"

def plain (f : Failure) : String := "error: " ++ f.message ++ "\n"

/-- A failure as a line for a terminal, its first word bold and bright red. -/
def styled (f : Failure) : String :=
  "\x1b[1m\x1b[91merror:\x1b[39m\x1b[0m " ++ f.message ++ "\n"

def ofMissingOpening (e : MissingOpening) : Failure := missingOpening e.opener

end Failure
end PathGlob
