/-
Separators of candidate paths: backslashes become slashes, a whole run of them one, and a single
separator at the end may be dropped.
-/

namespace PathGlob.Path

/-- Every run of backslashes as one slash; `inRun` right behind a backslash. -/
def slashed : (inRun : Bool) → List Char → List Char
  | _, [] => []
  | inRun, c :: cs =>
    if c = '\\' then if inRun then slashed true cs else '/' :: slashed true cs
    else c :: slashed false cs

def unixify (path : String) : String := String.ofList (slashed false path.toList)

/-- A path without the one separator at its end, if something is left of it. -/
def trimSeparator? (path : String) : Option String :=
  match path.toList.reverse with
  | '/' :: c :: cs => some (String.ofList (c :: cs).reverse)
  | _ => none

theorem slashed_no_backslash (b : Bool) (cs : List Char) : '\\' ∉ slashed b cs := by
  fun_induction slashed b cs <;> simp_all [eq_comm]

end PathGlob.Path
