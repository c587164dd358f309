/-
The lexemes of a regular expression's source text: single characters with a meaning, escaped and
plain literals, group openings, counts in braces and whole bracket expressions. Each reader hands
back a shorter rest, so reading a text to its end needs no other bound.
-/
import PathGlob.Regex.Basic

namespace PathGlob.Regex

/-! ## Escapes -/

def hexValue? (c : Char) : Option Nat :=
  if '0' ≤ c ∧ c ≤ '9' then some (c.toNat - '0'.toNat)
  else if 'a' ≤ c ∧ c ≤ 'f' then some (c.toNat - 'a'.toNat + 10)
  else if 'A' ≤ c ∧ c ≤ 'F' then some (c.toNat - 'A'.toNat + 10)
  else none

/-- The character that the text after a backslash stands for, and the text behind it: two
hexadecimal digits after `x`, the blanks `t`, `r` and `n`, and every sign for itself. -/
def escaped? : List Char → Option (Char × List Char)
  | 'x' :: a :: b :: rest =>
    match hexValue? a, hexValue? b with
    | some m, some n => some (Char.ofNat (16 * m + n), rest)
    | _, _ => none
  | 't' :: rest => some ('\t', rest)
  | 'r' :: rest => some ('\r', rest)
  | 'n' :: rest => some ('\n', rest)
  | c :: rest => if c.isAlphanum then none else some (c, rest)
  | [] => none

theorem escaped?_shorter {cs rest : List Char} {c : Char} (h : escaped? cs = some (c, rest)) :
    rest.length < cs.length := by
  unfold escaped? at h
  split at h
  · split at h
    · cases h; simp; omega
    · cases h
  all_goals first
    | (cases h; simp)
    | (split at h <;> cases h; simp)
    | cases h

/-! ## Bracket expressions -/

def member? : List Char → Option (Char × List Char)
  | '\\' :: rest => escaped? rest
  | '[' :: _ => none
  | c :: rest => some (c, rest)
  | [] => none

theorem member?_shorter {cs rest : List Char} {c : Char} (h : member? cs = some (c, rest)) :
    rest.length < cs.length := by
  unfold member? at h
  split at h
  · have := escaped?_shorter h; simp; omega
  all_goals first | (cases h; simp) | cases h

/-- What the members read so far amount to, given the set they are taken from if any. -/
def settle (minuend : Option CharSet) (members : CharSet) : CharSet :=
  match minuend with
  | none => members
  | some m => .diff m members

/-- Reads members up to the closing `]`: `lo-hi` is a range, `--` takes what follows away from
what came before, and a hyphen that can do neither stands for itself. -/
def members? (minuend : Option CharSet) (acc : CharSet) (cs : List Char) :
    Option (CharSet × List Char) :=
  match cs with
  | [] => none
  | ']' :: rest => some (settle minuend acc, rest)
  | '-' :: '-' :: rest => members? (some (settle minuend acc)) .empty rest
  | c :: rest =>
    match _h : member? (c :: rest) with
    | none => none
    | some (lo, '-' :: d :: after) =>
      if d = ']' ∨ d = '-' then members? minuend (.union acc (.single lo)) ('-' :: d :: after)
      else
        match _h' : member? (d :: after) with
        | none => none
        | some (hi, behind) =>
          if lo ≤ hi then members? minuend (.union acc (.range lo hi)) behind else none
    | some (lo, behind) => members? minuend (.union acc (.single lo)) behind
termination_by cs.length
decreasing_by
  · simp only [List.length_cons]; omega
  · exact member?_shorter _h
  · have h1 := member?_shorter _h
    have h2 := member?_shorter _h'
    simp only [List.length_cons] at *
    omega
  · exact member?_shorter _h

theorem members?_shorter {minuend : Option CharSet} {acc s : CharSet} {cs rest : List Char}
    (h : members? minuend acc cs = some (s, rest)) : rest.length < cs.length := by
  fun_induction members? minuend acc cs with
  | case1 => cases h
  | case2 => cases h; simp
  | case3 minuend acc rest' ih => have := ih h; simp; omega
  | case4 => cases h
  | case5 minuend acc c r hc hm lo d after hr hd ih =>
    have h1 := member?_shorter hr; have := ih h; omega
  | case6 => cases h
  | case7 minuend acc c r hc hm lo d after hr hd hi behind hr' hle ih =>
    have h1 := member?_shorter hr
    have h2 := member?_shorter hr'
    have := ih h
    simp only [List.length_cons] at *
    omega
  | case8 => cases h
  | case9 minuend acc c r hc hm lo behind hn hr ih =>
    have h1 := member?_shorter hr; have := ih h; omega

/-- The hyphens right at the start of a bracket expression stand for themselves. -/
def leadingHyphens : List Char → CharSet × List Char
  | '-' :: rest => let (s, rest) := leadingHyphens rest; (.union (.single '-') s, rest)
  | cs => (.empty, cs)

theorem leadingHyphens_le (cs : List Char) : (leadingHyphens cs).2.length ≤ cs.length := by
  fun_induction leadingHyphens cs with
  | case1 rest s rest' h ih => simp_all; omega
  | case2 => simp

/-- Reads the rest of a bracket expression behind its opening and its sign of negation; a `]`
right there is a member. -/
def bracketBody? (cs : List Char) : Option (CharSet × List Char) :=
  match cs with
  | ']' :: rest => members? none (.single ']') rest
  | _ => let (s, rest) := leadingHyphens cs; members? none s rest

theorem bracketBody?_shorter {cs rest : List Char} {s : CharSet}
    (h : bracketBody? cs = some (s, rest)) : rest.length < cs.length := by
  unfold bracketBody? at h
  split at h
  · have := members?_shorter h; simp; omega
  · have := members?_shorter h
    have := leadingHyphens_le cs
    omega

def bracket? (cs : List Char) : Option (CharSet × List Char) :=
  match cs with
  | '^' :: rest => (bracketBody? rest).map fun (s, rest) => (.compl s, rest)
  | _ => bracketBody? cs

theorem bracket?_shorter {cs rest : List Char} {s : CharSet} (h : bracket? cs = some (s, rest)) :
    rest.length < cs.length := by
  unfold bracket? at h
  split at h
  · obtain ⟨⟨s', r'⟩, h1, h2⟩ := Option.map_eq_some_iff.1 h
    cases h2
    have := bracketBody?_shorter h1
    simp; omega
  · exact bracketBody?_shorter h

/-! ## Lexemes -/

inductive Opening where
  | capture
  | plain
  | atomic
  | look (k : Look)
  deriving DecidableEq, Repr

inductive Lexeme where
  | char (c : Char)
  | any
  | start
  | stop
  | set (s : CharSet)
  | opening (o : Opening)
  | closing
  | bar
  | star
  | plus
  | question
  /-- A count in braces; no upper bound means any number. -/
  | count (lo : Nat) (hi : Option Nat)
  deriving DecidableEq, Repr

def opening? : List Char → Option (Opening × List Char)
  | '?' :: ':' :: rest => some (.plain, rest)
  | '?' :: '>' :: rest => some (.atomic, rest)
  | '?' :: '=' :: rest => some (.look .ahead, rest)
  | '?' :: '!' :: rest => some (.look .notAhead, rest)
  | '?' :: '<' :: '=' :: rest => some (.look .behind, rest)
  | '?' :: '<' :: '!' :: rest => some (.look .notBehind, rest)
  | '?' :: _ => none
  | cs => some (.capture, cs)

theorem opening?_le {cs rest : List Char} {o : Opening} (h : opening? cs = some (o, rest)) :
    rest.length ≤ cs.length := by
  unfold opening? at h
  split at h <;> cases h <;> simp <;> omega

def number? (cs : List Char) : Option Nat × List Char :=
  let digits := cs.takeWhile Char.isDigit
  (if digits.isEmpty then none
    else some (digits.foldl (fun n c => 10 * n + (c.toNat - '0'.toNat)) 0),
    cs.dropWhile Char.isDigit)

theorem number?_le (cs : List Char) : (number? cs).2.length ≤ cs.length := by
  unfold number?
  exact (List.dropWhile_sublist _).length_le

/-- Reads a count behind its opening brace: `{n}`, `{n,}`, `{,n}` or `{m,n}`. -/
def count? (cs : List Char) : Option ((Nat × Option Nat) × List Char) :=
  match number? cs with
  | (lo, ',' :: cs) =>
    match lo, number? cs with
    | none, (none, _) => none
    | _, (hi, '}' :: rest) => some ((lo.getD 0, hi), rest)
    | _, _ => none
  | (some n, '}' :: rest) => some ((n, some n), rest)
  | _ => none

theorem count?_le {cs rest : List Char} {b : Nat × Option Nat} (h : count? cs = some (b, rest)) :
    rest.length ≤ cs.length := by
  unfold count? at h
  have h0 := number?_le cs
  split at h
  · rename_i lo cs' e
    rw [e] at h0
    have h1 := number?_le cs'
    split at h
    · cases h
    · rename_i e' _ _
      simp_all
      obtain ⟨-, rfl⟩ := h
      omega
    · cases h
  · rename_i e
    rw [e] at h0
    cases h
    simp at h0
    omega
  · cases h

def lexeme? : List Char → Option (Lexeme × List Char)
  | [] => none
  | '.' :: rest => some (.any, rest)
  | '^' :: rest => some (.start, rest)
  | '$' :: rest => some (.stop, rest)
  | ')' :: rest => some (.closing, rest)
  | '|' :: rest => some (.bar, rest)
  | '*' :: rest => some (.star, rest)
  | '+' :: rest => some (.plus, rest)
  | '?' :: rest => some (.question, rest)
  | '(' :: rest => (opening? rest).map fun (o, rest) => (.opening o, rest)
  | '[' :: rest => (bracket? rest).map fun (s, rest) => (.set s, rest)
  | '\\' :: rest => (escaped? rest).map fun (c, rest) => (.char c, rest)
  | '{' :: rest =>
    match count? rest with
    | some ((lo, hi), rest) => some (.count lo hi, rest)
    | none => some (.char '{', rest)
  | c :: rest => some (.char c, rest)

theorem lexeme?_shorter {cs rest : List Char} {l : Lexeme} (h : lexeme? cs = some (l, rest)) :
    rest.length < cs.length := by
  unfold lexeme? at h
  split at h
  case h_10 =>
    obtain ⟨⟨o, r⟩, h1, h2⟩ := Option.map_eq_some_iff.1 h
    cases h2; have := opening?_le h1; simp; omega
  case h_11 =>
    obtain ⟨⟨o, r⟩, h1, h2⟩ := Option.map_eq_some_iff.1 h
    cases h2; have := bracket?_shorter h1; simp; omega
  case h_12 =>
    obtain ⟨⟨o, r⟩, h1, h2⟩ := Option.map_eq_some_iff.1 h
    cases h2; have := escaped?_shorter h1; simp; omega
  case h_13 =>
    split at h
    · rename_i h1; cases h; have := count?_le h1; simp; omega
    · cases h; simp
  all_goals first | (cases h; simp) | cases h

/-- The lexemes of a text, or nothing when a group opening, an escape or a bracket expression is
malformed. -/
def lexemes? (cs : List Char) : Option (List Lexeme) :=
  match cs with
  | [] => some []
  | c :: cs =>
    match _h : lexeme? (c :: cs) with
    | none => none
    | some (l, rest) => (lexemes? rest).map (l :: ·)
termination_by cs.length
decreasing_by exact lexeme?_shorter _h

end PathGlob.Regex
