/-
Bracket expressions of escaped characters. An escape makes a member of the character behind it, but a
member that is a hyphen is written as a bare one, which the regular expression reads as a sign: between
two other members it makes a range of them, and two in a row take away what follows. Hyphens at the
start of the expression and at its end stand for themselves, and so does every other character anywhere.
-/
import PathGlob.Proofs.Matcher.Bracketed
import PathGlob.Proofs.Matcher.Members

namespace PathGlob

/-! ## Clauses -/

/-- Whether one of some ranges holds a character. -/
def holds (rs : List (Char × Char)) (c : Char) : Bool := rs.any fun r => r.1 ≤ c && c ≤ r.2

/-- The clauses of a bracket expression: ranges, and those of each clause behind a pair of hyphens. -/
structure Clauses where
  ranges : List (Char × Char) := []
  others : List (List (Char × Char)) := []
  deriving DecidableEq, Repr

namespace Clauses

/-- Whether a character is left: one of the first clause that is in none behind it. -/
def contains (p : Clauses) (c : Char) : Bool := holds p.ranges c && p.others.all fun rs => !holds rs c

/-- The clauses with a range in front. -/
def add (r : Char × Char) (p : Clauses) : Clauses := { p with ranges := r :: p.ranges }

/-- The clauses behind a pair of hyphens. -/
def behind (p : Clauses) : Clauses := ⟨[], p.ranges :: p.others⟩

/-- The clauses that characters make up one behind the other, or nothing if the ends of a range are in
the wrong order. -/
def ofChars? : List Char → Option Clauses
  | [] => some {}
  | '-' :: '-' :: cs => (ofChars? cs).map behind
  | c :: '-' :: '-' :: cs => (ofChars? cs).map fun p => p.behind.add (c, c)
  | lo :: '-' :: hi :: cs => if lo ≤ hi then (ofChars? cs).map (add (lo, hi)) else none
  | c :: cs => (ofChars? cs).map (add (c, c))

/-- The clauses of a whole bracket expression, where the hyphens at the start stand for themselves. -/
def ofBracket? (cs : List Char) : Option Clauses :=
  (ofChars? (cs.dropWhile (· = '-'))).map fun p =>
    { p with ranges := (cs.takeWhile (· = '-')).map (fun c => (c, c)) ++ p.ranges }

end Clauses

section Clauses

variable {cs us : List Char} {c : Char}

theorem holds_append (rs ts : List (Char × Char)) (c : Char) :
    holds (rs ++ ts) c = (holds rs c || holds ts c) := List.any_append

/-- Ranges of one character each hold just these. -/
theorem holds_singles : holds (us.map fun c => (c, c)) c = true ↔ c ∈ us := by
  simp only [holds, List.any_map, List.any_eq_true, Function.comp, Bool.and_eq_true, decide_eq_true_eq]
  constructor
  · rintro ⟨d, hd, hdc, hcd⟩
    rwa [Char.le_antisymm hcd hdc]
  · exact fun hc => ⟨c, hc, Char.le_refl c, Char.le_refl c⟩

namespace Clauses

/-- A character with no hyphen behind it, or only the last one, stands for itself. -/
theorem ofChars?_cons (hc : c = '-' → cs.head? ≠ some '-') (hcs : ∀ d ds, cs ≠ '-' :: d :: ds) :
    ofChars? (c :: cs) = (ofChars? cs).map (add (c, c)) := by
  rw [ofChars?]
  · rintro ds rfl rfl
    exact hc rfl rfl
  · rintro ds rfl
    exact hcs _ _ rfl
  · rintro d ds rfl
    exact hcs _ _ rfl

/-- Without hyphens but the last one, characters stand for themselves. -/
theorem ofChars?_singles {tail : List Char} (hus : '-' ∉ us) (htail : tail = [] ∨ tail = ['-']) :
    ofChars? (us ++ tail) = some { ranges := (us ++ tail).map fun c => (c, c) } := by
  induction us with
  | nil => rcases htail with rfl | rfl <;> rfl
  | cons c us ih =>
    rw [List.mem_cons, not_or] at hus
    have hnext : ∀ d ds, us ++ tail ≠ '-' :: d :: ds := by
      intro d ds heq
      rcases us with _ | ⟨x, xs⟩
      · rcases htail with rfl | rfl <;> cases heq
      · exact hus.2 (by rw [(List.cons_eq_cons.1 heq).1]; exact List.mem_cons_self)
    rw [List.cons_append, ofChars?_cons (fun h => absurd h.symm hus.1) hnext, ih hus.2]
    rfl

/-- All characters stand for themselves if none between the hyphens at the start and the last
character is a hyphen. -/
theorem ofBracket?_singles (h : '-' ∉ (cs.dropWhile (· = '-')).dropLast) :
    ofBracket? cs = some { ranges := cs.map fun c => (c, c) } := by
  obtain ⟨us, e, hus, he, hrest⟩ :
      ∃ us e, '-' ∉ us ∧ (e = [] ∨ e = ['-']) ∧ cs.dropWhile (· = '-') = us ++ e := by
    rcases List.eq_nil_or_concat (cs.dropWhile (· = '-')) with hnil | ⟨us, c, hlast⟩
    · exact ⟨[], [], nofun, .inl rfl, hnil⟩
    · rw [List.concat_eq_append] at hlast
      rw [hlast, List.dropLast_concat] at h
      by_cases hc : c = '-'
      · exact ⟨us, ['-'], h, .inr rfl, by rw [hlast, hc]⟩
      · exact ⟨us ++ [c], [], by simpa [eq_comm, h] using hc, .inl rfl, by rw [hlast, List.append_nil]⟩
  rw [ofBracket?, hrest, ofChars?_singles hus he, Option.map_some]
  simp only [← List.map_append, ← hrest, List.takeWhile_append_dropWhile]

theorem contains_singles : contains { ranges := us.map fun c => (c, c) } c = true ↔ c ∈ us := by
  rw [contains, List.all_nil, Bool.and_true, holds_singles]

end Clauses
end Clauses

/-! ## Reading members -/

namespace CharSet

/-- What is left of a set, itself taken from another if there is one, without those of further
clauses. -/
def takeAway (minuend : Option CharSet) (acc : CharSet) : List (List (Char × Char)) → CharSet
  | [] => Regex.settle minuend acc
  | s :: ss => takeAway (some (Regex.settle minuend acc)) (.addRanges .empty s) ss

theorem contains_takeAway (minuend : Option CharSet) (acc : CharSet) (ss : List (List (Char × Char)))
    (c : Char) : (takeAway minuend acc ss).contains false c =
      ((Regex.settle minuend acc).contains false c && ss.all fun s => !holds s c) := by
  induction ss generalizing minuend acc with
  | nil => simp [takeAway]
  | cons s ss ih =>
    have hsettle : (Regex.settle (some (Regex.settle minuend acc)) (.addRanges .empty s)).contains false c =
        ((Regex.settle minuend acc).contains false c && !holds s c) := by
      rw [Regex.settle, contains, contains_addRanges]
      rfl
    rw [takeAway, ih, hsettle, List.all_cons, Bool.and_assoc]

end CharSet

/-- How characters are written as members of a bracket expression. -/
def Fragment.members (cs : List Char) : List Char := cs.flatMap fun c => (member c).toList

theorem Fragment.members_cons (c : Char) (cs : List Char) :
    members (c :: cs) = (member c).toList ++ members cs := List.flatMap_cons

theorem Fragment.members_hyphen (cs : List Char) : members ('-' :: cs) = '-' :: members cs := rfl

namespace Regex

variable {minuend : Option CharSet} {acc : CharSet}

/-- A member is no closing bracket and, unless it is a hyphen itself, does not begin with one. -/
theorem member_cons (c : Char) : ∃ x xs, (Fragment.member c).toList = x :: xs ∧ x ≠ ']' ∧
    (x = '-' → c = '-' ∧ xs = []) ∧ ∀ rest, member? (x :: (xs ++ rest)) = some (c, rest) := by
  obtain ⟨x, xs, hx, -⟩ := (Member.char c).text_cons
  have hread (rest : List Char) := member?_append (Member.member?_text c) rest
  have hhead : x ≠ ']' ∧ (x = '-' → c = '-' ∧ xs = []) := by
    by_cases hc : c = '-'
    · subst hc
      obtain ⟨rfl, rfl⟩ : '-' = x ∧ [] = xs := List.cons_eq_cons.1 hx
      exact ⟨by decide, fun _ => ⟨rfl, rfl⟩⟩
    · have hsign := Member.head?_text hc
      rw [show (Fragment.member c).toList = x :: xs from hx] at hsign
      exact ⟨by simpa using hsign.2, fun h => absurd (by rw [h]; rfl) hsign.1⟩
  refine ⟨x, xs, hx, hhead.1, hhead.2, fun rest => ?_⟩
  have hrest := hread rest
  rwa [show (Fragment.member c).toList = x :: xs from hx] at hrest

/-- A member with no hyphen behind it. -/
theorem members?_char (c : Char) {rest : List Char} (h : rest.head? ≠ some '-') :
    members? minuend acc ((Fragment.member c).toList ++ rest) =
      members? minuend (.union acc (.single c)) rest := by
  obtain ⟨x, xs, hx, hclosing, hhyphen, hread⟩ := member_cons c
  rw [hx, List.cons_append]
  refine members?_member hclosing (fun hc => ?_) (hread rest) fun d after heq => h (by rw [heq]; rfl)
  rwa [(hhyphen hc).2]

/-- A member with a hyphen behind it that cannot make a range. -/
theorem members?_char_hyphen {c d : Char} (hc : c ≠ '-') (hd : d = ']' ∨ d = '-')
    (rest : List Char) : members? minuend acc ((Fragment.member c).toList ++ '-' :: d :: rest) =
      members? minuend (.union acc (.single c)) ('-' :: d :: rest) := by
  obtain ⟨x, xs, hx, hclosing, hhyphen, hread⟩ := member_cons c
  rw [hx, List.cons_append]
  exact members?_hyphen hclosing (fun h => absurd (hhyphen h).1 hc) (hread _) hd

/-- A member with a hyphen and another member behind it. -/
theorem members?_char_range {lo hi : Char} (hlo : lo ≠ '-') (hhi : hi ≠ '-') (rest : List Char) :
    members? minuend acc
        ((Fragment.member lo).toList ++ '-' :: ((Fragment.member hi).toList ++ rest)) =
      if lo ≤ hi then members? minuend (.union acc (.range lo hi)) rest else none := by
  obtain ⟨x, xs, hx, hclosing, hhyphen, hread⟩ := member_cons lo
  obtain ⟨y, ys, hy, hclosing', hhyphen', hread'⟩ := member_cons hi
  rw [hx, hy, List.cons_append, List.cons_append]
  refine members?_range hclosing (fun h => absurd (hhyphen h).1 hlo) (hread _) ?_ (hread' rest)
  rintro (h | h)
  · exact hclosing' h
  · exact hhi (hhyphen' h).1

theorem head?_members {cs : List Char} (h : cs.head? ≠ some '-') (rest : List Char) :
    (Fragment.members cs ++ ']' :: rest).head? ≠ some '-' := by
  cases cs with
  | nil => exact nofun
  | cons c cs =>
    obtain ⟨x, xs, hx, -, hhyphen, -⟩ := member_cons c
    rw [Fragment.members_cons, hx]
    intro hhead
    exact h (by rw [(hhyphen (Option.some.inj hhead)).1]; rfl)

/-- Members are read as the clauses of their characters. -/
theorem members?_members (cs rest : List Char) :
    members? minuend acc (Fragment.members cs ++ ']' :: rest) =
      (Clauses.ofChars? cs).map fun p =>
        (.takeAway minuend (acc.addRanges p.ranges) p.others, rest) := by
  fun_induction Clauses.ofChars? cs generalizing minuend acc with
  | case1 => exact members?_closing rest
  | case2 cs ih =>
    rw [Fragment.members_hyphen, Fragment.members_hyphen, List.cons_append, List.cons_append, members?,
      ih, Option.map_map]
    rfl
  | case3 c cs hc ih =>
    rw [Fragment.members_cons, Fragment.members_hyphen, Fragment.members_hyphen, List.append_assoc,
      List.cons_append, List.cons_append, members?_char_hyphen hc (.inr rfl), members?, ih,
      Option.map_map]
    rfl
  | case4 lo hi cs hlo hhi hle ih =>
    rw [Fragment.members_cons, Fragment.members_hyphen, Fragment.members_cons, List.append_assoc,
      List.cons_append, List.append_assoc, members?_char_range hlo hhi, if_pos hle, ih, Option.map_map]
    rfl
  | case5 lo hi cs hlo hhi hle =>
    rw [Fragment.members_cons, Fragment.members_hyphen, Fragment.members_cons, List.append_assoc,
      List.cons_append, List.append_assoc, members?_char_range hlo hhi, if_neg hle]
    rfl
  | case6 c cs hpair hpair' hrange ih =>
    have hread : members? minuend acc (Fragment.members (c :: cs) ++ ']' :: rest) =
        members? minuend (.union acc (.single c)) (Fragment.members cs ++ ']' :: rest) := by
      rw [Fragment.members_cons, List.append_assoc]
      by_cases hhead : cs.head? = some '-'
      · -- a hyphen that neither makes a range nor has another behind it is the last member
        obtain ⟨ds, rfl⟩ := List.head?_eq_some_iff.1 hhead
        obtain rfl : ds = [] := by
          cases ds with
          | nil => rfl
          | cons d ds => exact (hrange d ds rfl).elim
        exact members?_char_hyphen (fun hc => hpair [] hc rfl) (.inl rfl) rest
      · exact members?_char c (head?_members hhead rest)
    rw [hread, ih, Option.map_map]
    rfl

/-- The hyphens at the start of members. -/
theorem leadingHyphens_members (cs rest : List Char) : ∃ s,
    leadingHyphens (Fragment.members cs ++ ']' :: rest) =
      (s, Fragment.members (cs.dropWhile (· = '-')) ++ ']' :: rest) ∧
    ∀ c, s.contains false c = holds ((cs.takeWhile (· = '-')).map fun c => (c, c)) c := by
  induction cs with
  | nil => exact ⟨.empty, rfl, fun _ => rfl⟩
  | cons c cs ih =>
    by_cases hc : c = '-'
    · subst hc
      obtain ⟨s, hs, hcontains⟩ := ih
      refine ⟨.union (.single '-') s, ?_, fun d => ?_⟩
      · rw [Fragment.members_hyphen, List.cons_append, leadingHyphens, hs]
        rfl
      · rw [CharSet.contains, hcontains]
        rfl
    · have hhead := head?_members (show (c :: cs).head? ≠ some '-' by simpa using hc) rest
      refine ⟨.empty, ?_, fun d => ?_⟩
      · rw [List.dropWhile_cons_of_neg (by simpa using hc), leadingHyphens]
        intro cs' heq
        exact hhead (by rw [heq]; rfl)
      · rw [List.takeWhile_cons_of_neg (by simpa using hc)]
        rfl

/-- A bracket expression of members is read as the clauses behind its leading hyphens. -/
theorem bracketBody?_members {cs : List Char} (h : cs ≠ []) (rest : List Char) : ∃ s : CharSet,
    bracketBody? (Fragment.members cs ++ ']' :: rest) =
      (Clauses.ofChars? (cs.dropWhile (· = '-'))).map
        (fun p => (.takeAway none (s.addRanges p.ranges) p.others, rest)) ∧
    ∀ c, s.contains false c = holds ((cs.takeWhile (· = '-')).map fun c => (c, c)) c := by
  obtain ⟨s, hleading, hcontains⟩ := leadingHyphens_members cs rest
  refine ⟨s, ?_, hcontains⟩
  rw [← members?_members]
  obtain ⟨c, cs, rfl⟩ := List.exists_cons_of_ne_nil h
  obtain ⟨x, xs, hx, hclosing, -, -⟩ := member_cons c
  rw [bracketBody?, hleading]
  rw [Fragment.members_cons, hx]
  rintro _ ⟨⟩
  exact hclosing rfl

end Regex

/-- The bracket expression of characters. -/
def Bracket.ofChars (cs : List Char) : Bracket := { members := cs.map .char }

theorem Bracket.ofChars_filled {cs : List Char} (h : cs ≠ []) : (ofChars cs).members ≠ [] := by
  simpa [ofChars] using h

/-- A bracket expression of characters takes what their clauses leave. -/
theorem Bracket.set?_ofChars {cs : List Char} (h : cs ≠ []) :
    match Clauses.ofBracket? cs with
    | none => (ofChars cs).set? true = none
    | some p => ∃ s, (ofChars cs).set? true = some s ∧ ∀ c, s.contains false c = p.contains c := by
  have hcontent : (ofChars cs).content true = Fragment.members cs := by
    simp [content, ofChars, Fragment.members, List.flatMap_map, Member.text]
  obtain ⟨c, t, hstart, hsign⟩ := content_cons (b := ofChars cs) fun _ => ofChars_filled h
  rw [hcontent] at hstart
  obtain ⟨s, hbody, hcontains⟩ := Regex.bracketBody?_members h []
  have hbracket : Regex.bracket? (Fragment.members cs ++ [']']) =
      Regex.bracketBody? (Fragment.members cs ++ [']']) := by
    rw [hstart, List.cons_append, Regex.bracket?]
    rintro _ ⟨⟩
    exact hsign rfl
  have hset : (ofChars cs).set? true =
      (Clauses.ofChars? (cs.dropWhile (· = '-'))).map fun p =>
        .takeAway none (s.addRanges p.ranges) p.others := by
    rw [set?, hcontent]
    change (Regex.bracket? (Fragment.members cs ++ [']'])).map _ = _
    rw [hbracket, hbody, Option.map_map]
    rfl
  rw [Clauses.ofBracket?, hset]
  cases Clauses.ofChars? (cs.dropWhile (· = '-')) with
  | none => rfl
  | some p =>
    refine ⟨_, rfl, fun c => ?_⟩
    rw [CharSet.contains_takeAway, Regex.settle, CharSet.contains_addRanges, hcontains,
      Clauses.contains, holds_append]
    rfl

/-- The operand of a bracket expression of characters takes them as their clauses say, and its own
text. -/
theorem Bracket.operand?_ofChars {cs : List Char} (h : cs ≠ []) (dot : Bool) :
    match Clauses.ofBracket? cs with
    | none => Enclosed.operand? dot (.bracket (ofChars cs) true fun _ => ofChars_filled h) = none
    | some p => ∃ q,
        Enclosed.operand? dot (.bracket (ofChars cs) true fun _ => ofChars_filled h) = some q ∧
        Regex.Denotes q.1 {w | (∃ c, p.contains c = true ∧ w = [c]) ∨ w = '[' :: (cs ++ [']'])} := by
  have hraw : (ofChars cs).raw.toList = cs := by
    simp [raw, ofChars, String.toList_join, List.flatMap_map, Member.raw]
  have hown : (ofChars cs).ownText true = Regex.literals ('[' :: (cs ++ [']'])) := by
    rw [ownText, hraw]
    rfl
  have hset := set?_ofChars h
  cases hp : Clauses.ofBracket? cs with
  | none =>
    rw [hp] at hset
    simp only [Enclosed.operand?, hset, Option.map_none]
  | some p =>
    rw [hp] at hset
    obtain ⟨s, hs, hcontains⟩ := hset
    refine ⟨_, by rw [Enclosed.operand?, hs]; rfl, ?_⟩
    have hwords := (Regex.Denotes.set s).alt (.literals ('[' :: (cs ++ [']'])))
    simp only [hcontains] at hwords
    rw [hown]
    exact hwords

/-! ## Reading escapes -/

/-- The glob of a bracket expression in which each character is escaped. -/
def Bracket.escaped (cs : List Char) : String :=
  String.ofList ('[' :: (cs.flatMap (['\\', ·]) ++ [']']))

namespace Outline

variable {o : Outline} {b rest : List Char} {br : Bracket}

/-- An escape in a bracket expression makes a member of the character behind it. -/
theorem run_escapes (cs : List Char) :
    run { o with cursor := ⟨b, cs.flatMap (['\\', ·]) ++ rest⟩, opened := .bracket br } =
      run { o with
        cursor := ⟨(cs.flatMap (['\\', ·])).reverse ++ b, rest⟩
        opened := .bracket { br with members := br.members ++ cs.map .char } } := by
  induction cs generalizing b br with
  | nil => simp
  | cons c cs ih =>
    have hstep (rest : List Char) :
        step { o with cursor := ⟨'\\' :: b, c :: rest⟩, opened := .bracket br } '\\' =
          .ok { o with cursor := ⟨c :: '\\' :: b, rest⟩, opened := .bracket (br.add (.char c)) } := by
      rw [step_bracket rfl, stepBracket, if_neg (not_sign fun _ => by decide), if_neg (by decide),
        if_pos rfl]
      rfl
    have hsplit : (c :: cs).flatMap (['\\', ·]) ++ rest =
        '\\' :: c :: (cs.flatMap (['\\', ·]) ++ rest) := rfl
    rw [hsplit, run_cons rfl, hstep]
    refine (ih (b := c :: '\\' :: b)).trans ?_
    simp [Bracket.add]

theorem ofPattern_escaped {cs : List Char} (h : cs ≠ []) :
    ∃ o, ofPattern (Bracket.escaped cs) = .ok (o, []) ∧ o.negated = false ∧ o.isGuarded = true ∧
      o.parts = Part.chars [] ++
        .enclosed (.bracket (.ofChars cs) true fun _ => Bracket.ofChars_filled h) false ::
          Part.chars [] := by
  have hpattern : (Bracket.escaped cs).toList = [] ++ ((Bracket.escaped cs).toList ++ []) := by simp
  refine ofPattern_framed hpattern ?_ nofun nofun fun b => ?_
  · rw [Bracket.escaped, String.toList_ofList]
    exact nofun
  · have hread := run_closed (o := { cursor := ⟨[], []⟩ }) (b := b) [] rfl rfl
      (Bracket.ofChars_filled h) (run_escapes cs)
    rw [Bracket.escaped, String.toList_ofList, List.append_nil]
    exact ⟨_, hread, rfl, rfl, rfl, rfl, rfl, rfl⟩

end Outline

/-! ## Whole globs -/

/-- A bracket expression of escaped characters accepts a character that their clauses leave, but no dot,
and its own text without the escapes. -/
theorem Matcher.exists_of_clauses {cs : List Char} {p : Clauses} (hne : cs ≠ [])
    (hlen : (Bracket.escaped cs).length ≤ 65536) (hp : Clauses.ofBracket? cs = some p) :
    ∃ m, Matcher.ofPattern { nobrace := true } (Bracket.escaped cs) = .ok m ∧
      ∀ candidate, m.accepts candidate = true ↔
        (∃ c, c ≠ '.' ∧ p.contains c = true ∧ candidate = String.singleton c) ∨
          candidate = "[" ++ String.ofList cs ++ "]" := by
  obtain ⟨out, hout, hnegated, hguarded, hparts⟩ := Outline.ofPattern_escaped hne
  have hoperand := Bracket.operand?_ofChars hne false
  rw [hp] at hoperand
  obtain ⟨q, hq, hdenotes⟩ := hoperand
  obtain ⟨m, hm, haccepts⟩ := Matcher.exists_of_framed (o := { nobrace := true }) hout hnegated hparts hq
    hlen rfl rfl rfl rfl rfl
  refine ⟨m, hm, fun candidate => ?_⟩
  rw [haccepts, hdenotes.framed, hguarded, Fragment.hides_false, List.getElem?_toArray,
    ← List.head?_eq_getElem?]
  simp only [← String.toList_inj, String.toList_singleton]
  constructor
  · rintro ⟨hdot, w, ⟨c, hc, rfl⟩ | rfl, hsame⟩
    · refine .inl ⟨c, ?_, hc, by simpa using hsame⟩
      rintro rfl
      exact hdot trivial (by rw [hsame]; rfl)
    · exact .inr (by simpa using hsame)
  · rintro (⟨c, hdot, hc, hsame⟩ | hsame)
    · refine ⟨fun _ => ?_, [c], .inl ⟨c, hc, rfl⟩, by simpa using hsame⟩
      rw [hsame]
      simpa using hdot
    · refine ⟨fun _ => ?_, _, .inr rfl, by simpa using hsame⟩
      rw [hsame, String.toList_append, String.toList_append]
      exact nofun

/-- A bracket expression of escaped characters accepts what their clauses leave, and it has no matcher
if a range is in the wrong order. It accepts just the escaped characters if no hyphen is between those
at the start and the last character. -/
theorem Matcher.accepts_escaped_members (cs : List Char) (hne : cs ≠ [])
    (hlen : (Bracket.escaped cs).length ≤ 65536) :
    (Clauses.ofBracket? cs = none →
      Matcher.ofPattern { nobrace := true } (Bracket.escaped cs) = .error .wrongRegularExpression) ∧
    (∀ p, Clauses.ofBracket? cs = some p →
      ∃ m, Matcher.ofPattern { nobrace := true } (Bracket.escaped cs) = .ok m ∧
        ∀ d, d ≠ '.' → m.accepts (String.singleton d) = p.contains d) ∧
    ('-' ∉ (cs.dropWhile (· = '-')).dropLast →
      ∃ m, Matcher.ofPattern { nobrace := true } (Bracket.escaped cs) = .ok m ∧
        ∀ d, d ≠ '.' → (m.accepts (String.singleton d) = true ↔ d ∈ cs)) := by
  have hsome (p : Clauses) (hp : Clauses.ofBracket? cs = some p) :
      ∃ m, Matcher.ofPattern { nobrace := true } (Bracket.escaped cs) = .ok m ∧
        ∀ d, d ≠ '.' → m.accepts (String.singleton d) = p.contains d := by
    obtain ⟨m, hm, haccepts⟩ := Matcher.exists_of_clauses hne hlen hp
    refine ⟨m, hm, fun d hd => ?_⟩
    rw [Bool.eq_iff_iff, haccepts]
    constructor
    · rintro (⟨c, -, hc, hsame⟩ | hsame)
      · obtain rfl : d = c := by simpa [← String.toList_inj] using hsame
        exact hc
      · -- the expression's own text is longer
        have hlength := congrArg String.length hsame
        simp only [String.length_singleton, String.length_append, String.length_ofList] at hlength
        change 1 = 1 + cs.length + 1 at hlength
        omega
    · exact fun hc => .inl ⟨d, hd, hc, rfl⟩
  refine ⟨fun hnone => ?_, hsome, fun hhyphens => ?_⟩
  · obtain ⟨out, hout, -, -, hparts⟩ := Outline.ofPattern_escaped hne
    have hoperand := Bracket.operand?_ofChars hne false
    rw [hnone] at hoperand
    exact Matcher.error_of_framed (o := { nobrace := true }) hout hparts hoperand hlen rfl rfl rfl rfl rfl
  · obtain ⟨m, hm, haccepts⟩ := hsome _ (Clauses.ofBracket?_singles hhyphens)
    exact ⟨m, hm, fun d hd => by rw [haccepts d hd, Clauses.contains_singles]⟩

/-- The signs that bracket expressions are read by are taken for themselves, and so are hyphens at both
ends; further in there may be a range, something taken away from it, or neither. -/
theorem Matcher.accepts_escaped_signs :
    (∃ m, Matcher.ofPattern { nobrace := true } (Bracket.escaped "--]^\\&&[:-".toList) = .ok m ∧
      ∀ d, d ≠ '.' → (m.accepts (String.singleton d) = true ↔ d ∈ "--]^\\&&[:-".toList)) ∧
    (∃ m, Matcher.ofPattern { nobrace := true } (Bracket.escaped "a-e--c".toList) = .ok m ∧
      m.accepts "b" = true ∧ m.accepts "c" = false) ∧
    Matcher.ofPattern { nobrace := true } (Bracket.escaped "z-a".toList) =
      .error .wrongRegularExpression := by
  obtain ⟨-, -, hself⟩ := Matcher.accepts_escaped_members "--]^\\&&[:-".toList (by decide) (by decide)
  obtain ⟨-, hsome, -⟩ := Matcher.accepts_escaped_members "a-e--c".toList (by decide) (by decide)
  obtain ⟨hnone, -, -⟩ := Matcher.accepts_escaped_members "z-a".toList (by decide) (by decide)
  obtain ⟨m, hm, haccepts⟩ := hsome ⟨[('a', 'e')], [[('c', 'c')]]⟩ (by decide)
  exact ⟨hself (by decide), ⟨m, hm, haccepts 'b' (by decide), haccepts 'c' (by decide)⟩,
    hnone (by decide)⟩

/-- A hyphen between two characters makes a range of them, be it escaped or not. -/
theorem Matcher.accepts_between_escaped_members :
    ∃ m, Matcher.ofPattern { nobrace := true } (Bracket.escaped ['a', '-', 'z']) = .ok m ∧
      m.accepts "b" = true ∧ m.accepts "-" = false ∧
      ¬ ∀ d, d ≠ '.' → (m.accepts (String.singleton d) = true ↔ d ∈ ['a', '-', 'z']) := by
  obtain ⟨m, hm, haccepts⟩ :
      ∃ m, Matcher.ofPattern { nobrace := true } (Bracket.escaped ['a', '-', 'z']) = .ok m ∧
        (m.accepts "b" && !m.accepts "-") = true := exists_ok_of_any (by decide +kernel)
  rw [Bool.and_eq_true, Bool.not_eq_true'] at haccepts
  refine ⟨m, hm, haccepts.1, haccepts.2, fun hall => ?_⟩
  exact absurd ((hall 'b' (by decide)).1 haccepts.1) (by decide)

end PathGlob
