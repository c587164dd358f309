/-
Reading a source text piece by piece. A draft takes the lexemes of a text from wherever it stands,
and most beginnings of a text are one lexeme whatever follows, so the reading of a text put together
from pieces is that of its pieces one after the other. Bracket expressions are read to their closing
bracket; one whose members are plain or escaped characters is read alike whatever follows it.
-/
import PathGlob.Regex.Reader

namespace PathGlob.Regex

/-! ## Reading from a draft on -/

/-- A sign behind a backslash stands for itself. -/
theorem escaped?_sign {c : Char} (h : c.isAlphanum = false) (rest : List Char) :
    escaped? (c :: rest) = some (c, rest) := by
  unfold escaped?
  split
  case h_5 =>
    rename_i heq
    cases heq
    rw [h, if_neg (by decide)]
  case h_6 => rename_i heq; cases heq
  all_goals (rename_i heq; cases heq; cases h)

namespace Draft

/-- Reads further source text. -/
def read (d : Draft) (cs : List Char) : Option Draft :=
  (lexemes? cs).bind fun ls => ls.foldlM take? d

end Draft

theorem ofChars?_eq_read (cs : List Char) :
    ofChars? cs = (Draft.empty.read cs).bind Draft.finish? := by
  unfold ofChars? Draft.read ofLexemes?
  cases lexemes? cs <;> rfl

namespace Draft

variable (d : Draft) (cs : List Char)

@[simp] theorem read_nil : d.read [] = some d := by
  rw [read, lexemes?]
  rfl

/-- A text is read lexeme by lexeme. -/
theorem read_lexeme {d : Draft} {cs rest : List Char} {l : Lexeme}
    (h : lexeme? cs = some (l, rest)) : d.read cs = (d.take? l).bind (·.read rest) := by
  cases cs with
  | nil => cases h
  | cons c cs =>
    rw [read, lexemes?]
    split
    · rename_i hn
      rw [h] at hn
      cases hn
    · rename_i l' rest' hs
      rw [h] at hs
      cases hs
      unfold read
      cases hr : lexemes? rest with
      | none => cases d.take? l <;> rfl
      | some ls => cases ht : d.take? l <;> simp [ht]

theorem read_taken {d d' : Draft} {cs rest : List Char} {l : Lexeme}
    (h : lexeme? cs = some (l, rest)) (ht : d.take? l = some d') : d.read cs = d'.read rest := by
  rw [read_lexeme h, ht, Option.bind_some]

/-- A text that begins with no lexeme is not read. -/
theorem read_none {d : Draft} {c : Char} {cs : List Char} (h : lexeme? (c :: cs) = none) :
    d.read (c :: cs) = none := by
  rw [read, lexemes?]
  split
  · rfl
  · rename_i hs
    rw [h] at hs
    cases hs

/-! ## Lexemes of one spelling -/

@[simp] theorem read_any : d.read ('.' :: cs) = (d.push .any).read cs := read_taken rfl rfl

@[simp] theorem read_start : d.read ('^' :: cs) = (d.push .start).read cs := read_taken rfl rfl

@[simp] theorem read_stop : d.read ('$' :: cs) = (d.push .stop).read cs := read_taken rfl rfl

@[simp] theorem read_bar : d.read ('|' :: cs) = read { d with inner := d.inner.bar } cs :=
  read_taken rfl rfl

@[simp] theorem read_plain :
    d.read ('(' :: '?' :: ':' :: cs) = read ⟨{ opening := .plain }, d.inner :: d.outer⟩ cs :=
  read_taken rfl rfl

@[simp] theorem read_notAhead : d.read ('(' :: '?' :: '!' :: cs) =
    read ⟨{ opening := .look .notAhead }, d.inner :: d.outer⟩ cs :=
  read_taken rfl rfl

@[simp] theorem read_behind : d.read ('(' :: '?' :: '<' :: '=' :: cs) =
    read ⟨{ opening := .look .behind }, d.inner :: d.outer⟩ cs :=
  read_taken rfl rfl

/-- A parenthesis opens a capture unless a question mark follows. -/
theorem read_capture {cs : List Char} (h : cs.head? ≠ some '?') :
    d.read ('(' :: cs) = read ⟨{ opening := .capture }, d.inner :: d.outer⟩ cs := by
  refine read_taken (l := .opening .capture) ?_ rfl
  have : opening? cs = some (.capture, cs) := by
    unfold opening?
    split <;> first | rfl | exact absurd rfl h
  simp [lexeme?, this]

@[simp] theorem read_closing (l m : Level) (ls : List Level) :
    read ⟨l, m :: ls⟩ (')' :: cs) = read ⟨m.push l.close, ls⟩ cs := read_taken rfl rfl

@[simp] theorem read_star : d.read ('*' :: cs) =
    (d.inner.repeated? 0 none).bind fun l => read { d with inner := l } cs := by
  rw [read_lexeme (show lexeme? ('*' :: cs) = some (.star, cs) from rfl), take?, Option.bind_map]
  rfl

@[simp] theorem read_plus : d.read ('+' :: cs) =
    d.inner.plus?.bind fun l => read { d with inner := l } cs := by
  rw [read_lexeme (show lexeme? ('+' :: cs) = some (.plus, cs) from rfl), take?, Option.bind_map]
  rfl

@[simp] theorem read_question : d.read ('?' :: cs) =
    d.inner.question?.bind fun l => read { d with inner := l } cs := by
  rw [read_lexeme (show lexeme? ('?' :: cs) = some (.question, cs) from rfl), take?, Option.bind_map]
  rfl

@[simp] theorem read_count : d.read ('\x7b' :: '1' :: ',' :: '2' :: '\x7d' :: cs) =
    (d.inner.repeated? 1 (some 2)).bind fun l => read { d with inner := l } cs := by
  have hcount : lexeme? ('\x7b' :: '1' :: ',' :: '2' :: '\x7d' :: cs) = some (.count 1 (some 2), cs) :=
    rfl
  rw [read_lexeme hcount, take?, Option.bind_map]
  rfl

theorem read_set {s : CharSet} {cs rest : List Char} (h : bracket? cs = some (s, rest)) :
    d.read ('[' :: cs) = (d.push (.set s)).read rest :=
  read_taken (by rw [lexeme?, h]; rfl) rfl

/-! ## Characters -/

theorem read_escaped {c : Char} (h : c.isAlphanum = false) :
    d.read ('\\' :: c :: cs) = (d.push (.char c)).read cs :=
  read_taken (by rw [lexeme?, escaped?_sign h]; rfl) rfl

@[simp] theorem read_escaped_slash : d.read ('\\' :: '/' :: cs) = (d.push (.char '/')).read cs :=
  d.read_escaped cs rfl

@[simp] theorem read_escaped_dot : d.read ('\\' :: '.' :: cs) = (d.push (.char '.')).read cs :=
  d.read_escaped cs rfl

/-- A character without a meaning of its own stands for itself. -/
theorem read_char {c : Char}
    (h : c ∉ ['.', '^', '$', ')', '|', '*', '+', '?', '(', '[', '\\', '\x7b']) :
    d.read (c :: cs) = (d.push (.char c)).read cs := by
  refine read_taken (l := .char c) ?_ rfl
  unfold lexeme?
  split
  case h_14 => rename_i heq; cases heq; rfl
  case h_1 => rename_i heq; cases heq
  all_goals (rename_i heq; cases heq; exact absurd (by decide) h)

end Draft

/-! ## Bracket expressions -/

/-- The first character of a text spells one member of a bracket expression, whatever follows; only
a hyphen by itself may act as a sign between members. -/
structure IsMember (u : List Char) : Prop where
  read : ∃ c, ∀ rest, member? (u ++ rest) = some (c, rest)
  notClosing : u.head? ≠ some ']'
  hyphen : u.head? = some '-' → u = ['-']

theorem IsMember.plain {c : Char} (h : c ≠ '\\' ∧ c ≠ '[' ∧ c ≠ ']') : IsMember [c] where
  read := ⟨c, fun rest => by
    change member? (c :: rest) = _
    unfold member?
    split <;> rename_i heq <;> cases heq <;> simp_all⟩
  notClosing := by simpa using h.2.2
  hyphen := by simp

theorem IsMember.escaped {cs : List Char} {c : Char}
    (h : ∀ rest, escaped? (cs ++ rest) = some (c, rest)) : IsMember ('\\' :: cs) where
  read := ⟨c, h⟩
  notClosing := by simp
  hyphen := by simp

theorem IsMember.ne_nil {u : List Char} (h : IsMember u) : u ≠ [] := by
  rintro rfl
  obtain ⟨c, hc⟩ := h.read
  cases hc []

theorem IsMember.eq_cons {u : List Char} (h : IsMember u) :
    ∃ c cs, u = c :: cs ∧ c ≠ ']' ∧ (c = '-' → cs = []) := by
  obtain ⟨c, cs, rfl⟩ := List.exists_cons_of_ne_nil h.ne_nil
  refine ⟨c, cs, rfl, fun hc => h.notClosing (by rw [hc]; rfl), ?_⟩
  rintro rfl
  exact (List.cons.inj (h.hyphen rfl)).2

section Members

variable {minuend : Option CharSet} {acc : CharSet} {c d lo hi : Char} {cs after behind : List Char}

theorem members?_closing (rest : List Char) :
    members? minuend acc (']' :: rest) = some (settle minuend acc, rest) := by
  rw [members?]

theorem members?_member (h : c ≠ ']') (hh : c = '-' → cs.head? ≠ some '-')
    (hm : member? (c :: cs) = some (lo, behind)) (hb : ∀ d after, behind ≠ '-' :: d :: after) :
    members? minuend acc (c :: cs) = members? minuend (.union acc (.single lo)) behind := by
  rw [members?]
  · split
    · rename_i hn; rw [hm] at hn; cases hn
    · rename_i d after hs
      rw [hm] at hs
      cases hs
      exact absurd rfl (hb d after)
    · rename_i hs
      rw [hm] at hs
      cases hs
      rfl
  · exact h
  · rintro rest rfl rfl
    exact hh rfl rfl

theorem members?_hyphen (h : c ≠ ']') (hh : c = '-' → cs.head? ≠ some '-')
    (hm : member? (c :: cs) = some (lo, '-' :: d :: after)) (hd : d = ']' ∨ d = '-') :
    members? minuend acc (c :: cs) =
      members? minuend (.union acc (.single lo)) ('-' :: d :: after) := by
  rw [members?]
  · split
    · rename_i hn; rw [hm] at hn; cases hn
    · rename_i hs
      rw [hm] at hs
      cases hs
      rw [if_pos hd]
    · rename_i hne hs
      rw [hm] at hs
      cases hs
      exact absurd rfl (hne _ _)
  · exact h
  · rintro rest rfl rfl
    exact hh rfl rfl

theorem members?_range (h : c ≠ ']') (hh : c = '-' → cs.head? ≠ some '-')
    (hm : member? (c :: cs) = some (lo, '-' :: d :: after)) (hd : ¬ (d = ']' ∨ d = '-'))
    (hm' : member? (d :: after) = some (hi, behind)) :
    members? minuend acc (c :: cs) =
      if lo ≤ hi then members? minuend (.union acc (.range lo hi)) behind else none := by
  rw [members?]
  · split
    · rename_i hn; rw [hm] at hn; cases hn
    · rename_i hs
      rw [hm] at hs
      cases hs
      rw [if_neg hd]
      split
      · rename_i hn; rw [hm'] at hn; cases hn
      · rename_i hs
        rw [hm'] at hs
        cases hs
        rfl
    · rename_i hne hs
      rw [hm] at hs
      cases hs
      exact absurd rfl (hne _ _)
  · exact h
  · rintro rest rfl rfl
    exact hh rfl rfl

/-- Members are read alike, whatever follows the bracket that ends them. -/
def ReadsAlike (minuend : Option CharSet) (acc : CharSet) (us : List (List Char)) : Prop :=
  ∃ o : Option CharSet, ∀ rest, members? minuend acc (us.flatten ++ ']' :: rest) = o.map (·, rest)

namespace ReadsAlike

variable {u w : List Char} {us : List (List Char)}

theorem nil : ReadsAlike minuend acc [] :=
  ⟨some (settle minuend acc), fun rest => members?_closing rest⟩

/-- A member with no hyphen behind it. -/
theorem member (hu : IsMember u) (hlo : ∀ rest, member? (u ++ rest) = some (lo, rest))
    (hus : us.flatten.head? ≠ some '-') (h : ReadsAlike minuend (.union acc (.single lo)) us) :
    ReadsAlike minuend acc (u :: us) := by
  obtain ⟨o, ho⟩ := h
  obtain ⟨c, cs, rfl, hc, hminus⟩ := hu.eq_cons
  refine ⟨o, fun rest => ?_⟩
  have hhead : (us.flatten ++ ']' :: rest).head? ≠ some '-' := by
    cases hf : us.flatten with
    | nil => simp
    | cons x xs => rwa [hf] at hus
  rw [← ho rest, List.flatten_cons, List.append_assoc]
  refine members?_member hc (fun h => ?_) (hlo _) fun d after heq => hhead (by rw [heq]; rfl)
  rw [hminus h]
  exact hhead

/-- A member with a hyphen behind it that is no sign, as the bracket or a further hyphen follows. -/
theorem hyphen (hu : IsMember u) (hlo : ∀ rest, member? (u ++ rest) = some (lo, rest))
    (hne : u ≠ ['-']) (hus : us = [] ∨ us.flatten.head? = some '-')
    (h : ReadsAlike minuend (.union acc (.single lo)) (['-'] :: us)) :
    ReadsAlike minuend acc (u :: ['-'] :: us) := by
  obtain ⟨o, ho⟩ := h
  obtain ⟨c, cs, rfl, hc, hminus⟩ := hu.eq_cons
  refine ⟨o, fun rest => ?_⟩
  obtain ⟨d, after, hafter, hd⟩ : ∃ d after,
      us.flatten ++ ']' :: rest = d :: after ∧ (d = ']' ∨ d = '-') := by
    rcases hus with rfl | hus
    · exact ⟨_, _, rfl, .inl rfl⟩
    · obtain ⟨xs, hxs⟩ := List.head?_eq_some_iff.1 hus
      exact ⟨_, _, by rw [hxs]; rfl, .inr rfl⟩
  have hm := hlo ('-' :: d :: after)
  have h := ho rest
  rw [List.flatten_cons, List.append_assoc, hafter] at h
  rw [← h, List.flatten_cons, List.flatten_cons, List.append_assoc, List.append_assoc, hafter]
  exact members?_hyphen hc (fun h => absurd (by rw [h, hminus h]) hne) hm hd

/-- A range. -/
theorem range (hu : IsMember u) (hlo : ∀ rest, member? (u ++ rest) = some (lo, rest))
    (hne : u ≠ ['-']) (hw : IsMember w) (hhi : ∀ rest, member? (w ++ rest) = some (hi, rest))
    (hne' : w ≠ ['-']) (h : ReadsAlike minuend (.union acc (.range lo hi)) us) :
    ReadsAlike minuend acc (u :: ['-'] :: w :: us) := by
  obtain ⟨o, ho⟩ := h
  obtain ⟨c, cs, rfl, hc, hminus⟩ := hu.eq_cons
  obtain ⟨d, ds, rfl, hd, hminus'⟩ := hw.eq_cons
  refine ⟨if lo ≤ hi then o else none, fun rest => ?_⟩
  have hd' : d ≠ '-' := fun h => hne' (by rw [h, hminus' h])
  have hm := hlo ('-' :: d :: ds ++ us.flatten ++ ']' :: rest)
  have hm' := hhi (us.flatten ++ ']' :: rest)
  have hrange : members? minuend acc (c :: (cs ++ '-' :: d :: (ds ++ (us.flatten ++ ']' :: rest)))) =
      if lo ≤ hi then members? minuend (.union acc (.range lo hi)) (us.flatten ++ ']' :: rest)
      else none :=
    members?_range hc (fun h => absurd (by rw [h, hminus h]) hne) (by simpa using hm)
      (by simp [hd, hd']) (by simpa using hm')
  simp only [List.flatten_cons, List.cons_append, List.append_assoc, List.nil_append] at hrange ⊢
  rw [hrange]
  split
  · exact ho rest
  · rfl

/-- A difference. -/
theorem minus (h : ReadsAlike (some (settle minuend acc)) .empty us) :
    ReadsAlike minuend acc (['-'] :: ['-'] :: us) := by
  obtain ⟨o, ho⟩ := h
  refine ⟨o, fun rest => ?_⟩
  rw [← ho rest]
  simp [members?]

end ReadsAlike

end Members

/-- What stands behind a member decides what it is the beginning of, so the induction takes up to
three of them at once. -/
theorem members?_flatten {us : List (List Char)} (hus : ∀ u ∈ us, IsMember u)
    (minuend : Option CharSet) (acc : CharSet) : ReadsAlike minuend acc us := by
  induction hn : us.length using Nat.strongRecOn generalizing us minuend acc with
  | _ n ih =>
    have next {vs : List (List Char)} (hvs : vs <:+ us) (hlt : vs.length < n) (m a) :
        ReadsAlike m a vs :=
      ih vs.length hlt (fun v hv => hus v (hvs.subset hv)) m a rfl
    rcases us with _ | ⟨u, _ | ⟨v, vs⟩⟩
    · exact .nil
    · obtain ⟨lo, hlo⟩ := (hus u (by simp)).read
      exact .member (hus u (by simp)) hlo (by simp) (next List.nil_suffix (hn ▸ Nat.succ_pos _) _ _)
    · have hu := hus u (by simp)
      obtain ⟨lo, hlo⟩ := hu.read
      have hvs : v :: vs <:+ u :: v :: vs := List.suffix_cons ..
      by_cases hv : v = ['-']
      · subst hv
        have hws : vs <:+ u :: ['-'] :: vs := (List.suffix_cons ..).trans hvs
        by_cases hu' : u = ['-']
        · subst hu'
          exact .minus (next hws (by simp only [List.length_cons] at hn; omega) _ _)
        · rcases vs with _ | ⟨w, ws⟩
          · exact .hyphen hu hlo hu' (.inl rfl) (next hvs (hn ▸ Nat.lt_succ_self _) _ _)
          · by_cases hw : w = ['-']
            · subst hw
              exact .hyphen hu hlo hu' (.inr rfl) (next hvs (hn ▸ Nat.lt_succ_self _) _ _)
            · obtain ⟨hi, hhi⟩ := (hus w (by simp)).read
              exact .range hu hlo hu' (hus w (by simp)) hhi hw
                (next ((List.suffix_cons ..).trans hws) (by simp only [List.length_cons] at hn; omega) _ _)
      · refine .member hu hlo ?_ (next hvs (hn ▸ Nat.lt_succ_self _) _ _)
        obtain ⟨d, ds, rfl, -, hminus⟩ := (hus v (by simp)).eq_cons
        rintro hhead
        cases hhead
        exact hv (by rw [hminus rfl])

theorem leadingHyphens_flatten {us : List (List Char)} (hus : ∀ u ∈ us, IsMember u) :
    ∃ (s : CharSet) (vs : List (List Char)), (∀ v ∈ vs, IsMember v) ∧
      ∀ rest, leadingHyphens (us.flatten ++ ']' :: rest) = (s, vs.flatten ++ ']' :: rest) := by
  induction us with
  | nil => exact ⟨.empty, [], by simp, fun rest => rfl⟩
  | cons u us ih =>
    have hu := hus u (by simp)
    obtain ⟨c, u', rfl⟩ := List.exists_cons_of_ne_nil hu.ne_nil
    by_cases hc : c = '-'
    · subst hc
      cases hu.hyphen rfl
      obtain ⟨s, vs, hvs, h⟩ := ih fun v hv => hus v (by simp [hv])
      exact ⟨.union (.single '-') s, vs, hvs, fun rest => by simp [leadingHyphens, h rest]⟩
    · refine ⟨.empty, (c :: u') :: us, hus, fun rest => ?_⟩
      simp only [List.flatten_cons, List.cons_append]
      unfold leadingHyphens
      split
      · rename_i heq
        cases heq
        exact absurd rfl hc
      · rfl

theorem bracketBody?_flatten {us : List (List Char)} (hus : ∀ u ∈ us, IsMember u) (hne : us ≠ []) :
    ∃ o : Option CharSet, ∀ rest,
      bracketBody? (us.flatten ++ ']' :: rest) = o.map (·, rest) := by
  obtain ⟨s, vs, hvs, hl⟩ := leadingHyphens_flatten hus
  obtain ⟨o, ho⟩ := members?_flatten hvs none s
  refine ⟨o, fun rest => ?_⟩
  obtain ⟨u, us, rfl⟩ := List.exists_cons_of_ne_nil hne
  have hu := hus u (by simp)
  obtain ⟨c, u', rfl⟩ := List.exists_cons_of_ne_nil hu.ne_nil
  have := hl rest
  simp only [List.flatten_cons, List.cons_append] at this ⊢
  unfold bracketBody?
  split
  · rename_i heq
    cases heq
    exact absurd rfl hu.notClosing
  · rw [this]
    exact ho rest

/-! ## Texts of members -/

/-- A text that consists of members of bracket expressions. -/
def SpellsMembers (cs : List Char) : Prop :=
  ∃ us : List (List Char), (∀ u ∈ us, IsMember u) ∧ us.flatten = cs

namespace SpellsMembers

theorem nil : SpellsMembers [] := ⟨[], by simp, rfl⟩

theorem append {cs ds : List Char} (h : SpellsMembers cs) (h' : SpellsMembers ds) :
    SpellsMembers (cs ++ ds) := by
  obtain ⟨us, hus, rfl⟩ := h
  obtain ⟨vs, hvs, rfl⟩ := h'
  refine ⟨us ++ vs, fun u hu => ?_, List.flatten_append⟩
  rcases List.mem_append.1 hu with hu | hu
  · exact hus u hu
  · exact hvs u hu

theorem one {u : List Char} (h : IsMember u) : SpellsMembers u := ⟨[u], by simpa using h, by simp⟩

theorem flatMap {α : Type} {f : α → List Char} {as : List α} (h : ∀ a ∈ as, SpellsMembers (f a)) :
    SpellsMembers (as.flatMap f) := by
  induction as with
  | nil => exact nil
  | cons a as ih =>
    rw [List.flatMap_cons]
    exact append (h a (by simp)) (ih fun b hb => h b (by simp [hb]))

end SpellsMembers

/-- Checks that a text consists of members, plain ones and escaped ones. -/
def spellsMembers : List Char → Bool
  | [] => true
  | '\\' :: 'x' :: a :: b :: cs => (hexValue? a).isSome && (hexValue? b).isSome && spellsMembers cs
  | '\\' :: c :: cs => (c ∈ ['t', 'r', 'n'] || !c.isAlphanum) && spellsMembers cs
  | c :: cs => c ∉ ['\\', '[', ']'] && spellsMembers cs

theorem SpellsMembers.of_check {cs : List Char} (h : spellsMembers cs = true) :
    SpellsMembers cs := by
  fun_induction spellsMembers cs with
  | case1 => exact .nil
  | case2 a b cs ih =>
    simp only [Bool.and_eq_true, Option.isSome_iff_exists] at h
    obtain ⟨⟨⟨m, hm⟩, n, hn⟩, hcs⟩ := h
    exact .append (.one (u := ['\\', 'x', a, b])
      (.escaped (c := Char.ofNat (16 * m + n)) fun rest => by simp [escaped?, hm, hn])) (ih hcs)
  | case3 c cs hx ih =>
    simp only [Bool.and_eq_true, Bool.or_eq_true, decide_eq_true_eq, Bool.not_eq_true',
      List.mem_cons, List.not_mem_nil, or_false] at h
    obtain ⟨hc, hcs⟩ := h
    refine .append (.one (u := ['\\', c]) ?_) (ih hcs)
    rcases hc with (rfl | rfl | rfl) | hc
    · exact .escaped (c := '\t') fun rest => rfl
    · exact .escaped (c := '\r') fun rest => rfl
    · exact .escaped (c := '\n') fun rest => rfl
    · exact .escaped fun rest => escaped?_sign hc rest
  | case4 c cs h1 h2 ih =>
    simp only [Bool.and_eq_true, decide_eq_true_eq, List.mem_cons, List.not_mem_nil, or_false,
      not_or] at h
    exact .append (.one (u := [c]) (.plain h.1)) (ih h.2)

/-- A bracket expression of such members is read alike whatever follows it. -/
theorem bracket?_members (isNegated : Bool) {cs : List Char} (h : SpellsMembers cs)
    (hne : cs ≠ []) (hc : cs.head? ≠ some '^') :
    ∃ o : Option CharSet, ∀ rest,
      bracket? ((if isNegated then ['^'] else []) ++ cs ++ ']' :: rest) = o.map (·, rest) := by
  obtain ⟨us, hus, rfl⟩ := h
  obtain ⟨o, ho⟩ := bracketBody?_flatten hus (by rintro rfl; exact hne rfl)
  cases isNegated with
  | true =>
    refine ⟨o.map .compl, fun rest => ?_⟩
    simp only [if_true, List.cons_append, List.nil_append, bracket?, ho rest]
    cases o <;> rfl
  | false =>
    refine ⟨o, fun rest => ?_⟩
    obtain ⟨c, cs, heq⟩ := List.exists_cons_of_ne_nil hne
    rw [heq, List.head?_cons] at hc
    have := ho rest
    simp only [heq, Bool.false_eq_true, if_false, List.nil_append, List.cons_append] at this ⊢
    unfold bracket?
    split
    · rename_i hcaret
      cases hcaret
      exact absurd rfl hc
    · exact this

end PathGlob.Regex
