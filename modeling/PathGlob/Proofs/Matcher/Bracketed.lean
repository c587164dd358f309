/-
Globs that are one bracket expression between ordinary texts. Such a glob accepts the texts between
which stands one of the characters that the expression is written to take, and besides them its own text.
-/
import PathGlob.Proofs.Glob.BracketSet
import PathGlob.Proofs.Matcher.Framed

namespace PathGlob

open Regex (Denotes SpellsRanges)
open scoped Computability

namespace Bracket

/-! ## Items -/

/-- Whether a character is none of those that a bracket expression is read by. -/
def isPlain (c : Char) : Bool := c ∉ ['\\', '[', ']', '-']

/-- What a bracket expression is written of: characters, ranges and named classes. -/
inductive Item where
  | char (c : Char) (isPlain : isPlain c = true)
  | range (lo hi : Char) (isPlain : isPlain lo = true ∧ isPlain hi = true) (isOrdered : lo ≤ hi)
  | named (name : String) (isName : name ∈ PosixClass.names)

namespace Item

/-- How an item is written. -/
def chars : Item → List Char
  | char c _ => [c]
  | range lo hi _ _ => [lo, '-', hi]
  | named name _ => '[' :: PosixClass.tail name

/-- Whether an item takes a character. -/
def contains : Item → Char → Bool
  | char d _, c => c = d
  | range lo hi _ _, c => lo ≤ c && c ≤ hi
  | named name _, c => PosixClass.contains name c

/-- The members that an item is read as. -/
def members : Item → List Member
  | char c _ => [.char c]
  | range lo hi _ _ => [.char lo, .char '-', .char hi]
  | named name h =>
    [.named ⟨name, (PosixClass.ranges? name).get (PosixClass.ranges?_isSome name h)⟩ (by simp)]

/-- The ranges that an item stands for. -/
def ranges : Item → List (Char × Char)
  | char c _ => [(c, c)]
  | range lo hi _ _ => [(lo, hi)]
  | named name _ => PosixClass.intervals name

variable (i : Item)

theorem chars_cons : ∃ c cs, i.chars = c :: cs := by
  cases i <;> exact ⟨_, _, rfl⟩

theorem members_ne_nil : i.members ≠ [] := by
  cases i <;> exact nofun

theorem members_named {n : PosixClass.Named} (hn : PosixClass.ranges? n.name = some n.ranges)
    (h : n.name ∈ PosixClass.names) : (named n.name h).members = [.named n hn] := by
  obtain ⟨name, ranges⟩ := n
  have hget : (PosixClass.ranges? name).get (PosixClass.ranges?_isSome name h) = ranges :=
    Option.get_of_eq_some _ hn
  simp only [members, hget]

theorem raw_members : i.members.flatMap (·.raw.toList) = i.chars := by
  cases i with
  | char c h => simp [members, Member.raw, chars]
  | range lo hi h hle => simp [members, Member.raw, chars]
  | named name h => simp [members, Member.raw, chars, PosixClass.Named.text, PosixClass.tail]

theorem spells_ranges : SpellsRanges (i.members.flatMap (·.text.toList)) i.ranges := by
  have hhead {c : Char} (h : isPlain c = true) : (Fragment.member c).toList.head? ≠ some '-' ∧
      (Fragment.member c).toList.head? ≠ some ']' := by
    refine Member.head?_text ?_
    rintro rfl
    cases h
  cases i with
  | char c h =>
    simpa [members, Member.text, ranges] using SpellsRanges.single (Member.member?_text c) (hhead h)
  | range lo hi h hle =>
    have hrange := SpellsRanges.range (Member.member?_text lo) (Member.member?_text hi) (hhead h.1)
      (hhead h.2) hle
    simpa [members, Member.text, ranges, Fragment.member, Fragment.char] using hrange
  | named name h =>
    have hranges : PosixClass.ranges? name =
      some ((PosixClass.ranges? name).get (PosixClass.ranges?_isSome name h)) := by simp
    have hspelled := SpellsRanges.of_spelled? (PosixClass.spelled?_ranges hranges)
    simpa [members, Member.text, ranges] using hspelled

theorem any_ranges (c : Char) : (i.ranges.any fun r => r.1 ≤ c && c ≤ r.2) = i.contains c := by
  cases i with
  | char d h =>
    rw [Bool.eq_iff_iff]
    simp only [ranges, contains, List.any_cons, List.any_nil, Bool.or_false, Bool.and_eq_true,
      decide_eq_true_eq]
    constructor
    · rintro ⟨hd, hc⟩
      exact Char.le_antisymm hc hd
    · rintro rfl
      exact ⟨Char.le_refl _, Char.le_refl _⟩
  | range lo hi h hle => simp [ranges, contains]
  | named name h => exact PosixClass.any_intervals h c

end Item

@[simp] theorem isFresh_add (b : Bracket) (m : Member) : (b.add m).isFresh = false := by
  simp [isFresh, add]

/-- The bracket expression of items. -/
def ofItems (sign : Option Char) (items : List Item) : Bracket := ⟨sign, items.flatMap Item.members⟩

/-- How the bracket expression of items is written. -/
def source (sign : Option Char) (items : List Item) : String :=
  String.ofList ('[' :: (sign.toList ++ items.flatMap Item.chars ++ [']']))

/-- The words that the bracket expression of items takes: a character that one of the items takes or,
behind a sign of negation, that none does; and its own text. -/
def language (sign : Option Char) (items : List Item) : Language Char :=
  {w | (∃ c, (items.any (·.contains c) != sign.isSome) = true ∧ w = [c]) ∨
    w = (source sign items).toList}

section Items

variable {sign : Option Char} {items : List Item}

theorem ofItems_filled (h : items ≠ []) : (ofItems sign items).members ≠ [] := by
  obtain ⟨i, is, rfl⟩ := List.exists_cons_of_ne_nil h
  simp [ofItems, i.members_ne_nil]

theorem ownText_ofItems :
    (ofItems sign items).ownText true = Regex.literals (source sign items).toList := by
  have hraw : (ofItems sign items).raw.toList = sign.toList ++ items.flatMap Item.chars := by
    cases sign <;>
      simp [raw, ofItems, String.toList_join, List.flatMap_map, List.flatMap_assoc, Item.raw_members]
  rw [ownText, hraw, source, String.toList_ofList]
  simp

theorem operand?_ofItems (h : items ≠ []) (dot : Bool) : ∃ p,
    Enclosed.operand? dot (.bracket (ofItems sign items) true fun _ => ofItems_filled h) = some p ∧
      Denotes p.1 (language sign items) := by
  have hspells : SpellsRanges ((ofItems sign items).content true) (items.flatMap Item.ranges) := by
    have hitems := SpellsRanges.flatMap fun i (_ : i ∈ items) => i.spells_ranges
    simpa [content, ofItems, List.flatMap_assoc] using hitems
  have hany (c : Char) : ((items.flatMap Item.ranges).any fun r => r.1 ≤ c && c ≤ r.2) =
      items.any (·.contains c) := by
    rw [List.any_flatMap]
    exact congrArg items.any (funext fun i => i.any_ranges c)
  have hset := set?_spelled (fun _ => ofItems_filled h) hspells
  refine ⟨_, by rw [Enclosed.operand?, hset]; rfl, ?_⟩
  have hwords := (Denotes.set (if sign.isSome then
      .compl (.addRanges .empty (items.flatMap Item.ranges))
    else .addRanges .empty (items.flatMap Item.ranges))).alt (.literals (source sign items).toList)
  have hcontains (c : Char) : CharSet.contains false
      (if sign.isSome then .compl (.addRanges .empty (items.flatMap Item.ranges))
        else .addRanges .empty (items.flatMap Item.ranges)) c =
      (items.any (·.contains c) != sign.isSome) := by
    cases sign <;> simp [CharSet.contains, CharSet.contains_addRanges, hany]
  simp only [hcontains] at hwords
  rw [ownText_ofItems]
  exact hwords

end Items
end Bracket

/-! ## Reading items -/

namespace Outline

variable {o : Outline} {b rest : List Char} {br : Bracket} {items : List Bracket.Item}

theorem not_sign {c : Char} (h : br.isFresh = true → c ≠ '!' ∧ c ≠ '^') :
    ¬ (br.isFresh && (c = '!' || c = '^')) = true := by
  simp only [Bool.and_eq_true, Bool.or_eq_true, decide_eq_true_eq]
  rintro ⟨hfresh, heq | heq⟩
  · exact (h hfresh).1 heq
  · exact (h hfresh).2 heq

/-- A character that a bracket expression is not read by, no sign at its start. -/
theorem run_member {c : Char} (hc : c ∉ ['\\', '[', ']'])
    (hsign : br.isFresh = true → c ≠ '!' ∧ c ≠ '^') :
    run { o with cursor := ⟨b, c :: rest⟩, opened := .bracket br } =
      run { o with cursor := ⟨c :: b, rest⟩, opened := .bracket (br.add (.char c)) } := by
  simp only [List.mem_cons, List.not_mem_nil, or_false, not_or] at hc
  rw [run_cons rfl, step_bracket rfl, stepBracket, if_neg (not_sign hsign), if_neg hc.2.2,
    if_neg hc.1, if_neg hc.2.1]
  rfl

theorem run_item (i : Bracket.Item)
    (hsign : br.isFresh = true → ∀ c ∈ i.chars.head?, c ≠ '!' ∧ c ≠ '^') :
    run { o with cursor := ⟨b, i.chars ++ rest⟩, opened := .bracket br } =
      run { o with
        cursor := ⟨i.chars.reverse ++ b, rest⟩
        opened := .bracket { br with members := br.members ++ i.members } } := by
  have hplain {c : Char} (h : Bracket.isPlain c = true) : c ∉ ['\\', '[', ']'] := by
    simp only [Bracket.isPlain, decide_eq_true_eq, List.mem_cons, List.not_mem_nil, or_false,
      not_or] at h ⊢
    exact ⟨h.1, h.2.1, h.2.2.1⟩
  cases i with
  | char c h => exact run_member (hplain h) fun hfresh => hsign hfresh c rfl
  | range lo hi h hle =>
    -- the glob reads three members, of which only the regular expression makes a range
    refine (run_member (hplain h.1) fun hfresh => hsign hfresh lo rfl).trans ?_
    refine (run_member (c := '-') (by decide) (by simp)).trans ?_
    refine (run_member (hplain h.2) (by simp)).trans ?_
    simp [Bracket.Item.chars, Bracket.Item.members, Bracket.add]
  | named name h =>
    obtain ⟨n, hat, rfl⟩ := PosixClass.at?_tail h ('[' :: b) rest
    rw [Bracket.Item.chars, List.cons_append, run_cons rfl, step_bracket rfl, stepBracket,
      if_neg (not_sign fun _ => by decide), if_neg (by decide), if_neg (by decide), if_pos rfl]
    have hskip : Cursor.skip ⟨'[' :: b, PosixClass.tail n.name ++ rest⟩ n.text.length.pred =
        ⟨('[' :: PosixClass.tail n.name).reverse ++ b, rest⟩ := by
      rw [PosixClass.length_text, Cursor.skip, List.take_left, List.drop_left]
      simp
    simp only [Except.bind]
    split
    · rename_i n' hat'
      obtain rfl : n = n' := Option.some.inj (hat.symm.trans hat')
      rw [hskip, Bracket.Item.members_named (PosixClass.at?_isNamed hat)]
      rfl
    · rename_i hnone
      cases hat.symm.trans hnone

/-- Items add their members, if the first of them does not begin like a sign. -/
theorem run_items (hsign : br.isFresh = true →
      ∀ c ∈ (items.flatMap Bracket.Item.chars).head?, c ≠ '!' ∧ c ≠ '^') :
    run { o with cursor := ⟨b, items.flatMap Bracket.Item.chars ++ rest⟩, opened := .bracket br } =
      run { o with
        cursor := ⟨(items.flatMap Bracket.Item.chars).reverse ++ b, rest⟩
        opened := .bracket { br with members := br.members ++ items.flatMap Bracket.Item.members } } := by
  induction items generalizing b br with
  | nil => simp
  | cons i is ih =>
    have hfirst : br.isFresh = true → ∀ c ∈ i.chars.head?, c ≠ '!' ∧ c ≠ '^' := by
      obtain ⟨x, xs, hx⟩ := i.chars_cons
      simpa [hx] using hsign
    have hfilled : Bracket.isFresh { br with members := br.members ++ i.members } = false := by
      simp [Bracket.isFresh, i.members_ne_nil]
    rw [List.flatMap_cons, List.append_assoc]
    refine (run_item i hfirst).trans ((ih fun hfresh => ?_).trans ?_)
    · rw [hfilled] at hfresh
      cases hfresh
    · simp

/-- The sign of a bracket expression. -/
theorem run_sign {sign : Option Char} (hsign : ∀ c ∈ sign, c = '!' ∨ c = '^') :
    run { o with cursor := ⟨b, sign.toList ++ rest⟩, opened := .bracket {} } =
      run { o with cursor := ⟨sign.toList ++ b, rest⟩, opened := .bracket { sign } } := by
  cases sign with
  | none => rfl
  | some c =>
    have hc : (({} : Bracket).isFresh && (c = '!' || c = '^')) = true := by
      simpa [Bracket.isFresh] using hsign c rfl
    change run { o with cursor := ⟨b, c :: rest⟩, opened := .bracket {} } = _
    rw [run_cons rfl, step_bracket rfl, stepBracket, if_pos hc]
    rfl

/-- A bracket expression is read as a whole if the text in it is read as members. -/
theorem run_closed {cs : List Char} (rest : List Char) (ho : o.opened = .nothing)
    (hclosed : o.closed = none) (hfilled : br.members ≠ [])
    (hmembers : run { o with cursor := ⟨'[' :: b, cs ++ ']' :: rest⟩, opened := .bracket {} } =
      run { o with cursor := ⟨cs.reverse ++ '[' :: b, ']' :: rest⟩, opened := .bracket br }) :
    run { o with cursor := ⟨b, '[' :: (cs ++ ']' :: rest)⟩ } =
      run (closeBracket { o with cursor := ⟨']' :: (cs.reverse ++ '[' :: b), rest⟩ } br true
        fun _ => hfilled) := by
  have hopen (cursor : Cursor) :
      step { o with cursor } '[' = .ok { o with cursor, opened := .bracket {} } := by
    rw [step_of_not_bracket _ (by simp only [ho]; rfl), announced?_of_not_sigil rfl]
    simp only [Delimiter.ofOpener?]
    rw [settle_of_none (by exact hclosed)]
    simp only [openAt, ho]
  have hclose (cursor : Cursor) : step { o with cursor, opened := .bracket br } ']' =
      .ok (closeBracket { o with cursor } br true fun _ => hfilled) := by
    rw [step_bracket rfl, stepBracket, if_neg (not_sign fun _ => by decide), if_pos rfl,
      dif_neg hfilled]
    rfl
  rw [run_cons rfl, hopen]
  refine hmembers.trans ?_
  rw [run_cons rfl]
  exact congrArg (·.bind run) (hclose _)

/-- The bracket expression of items is read as a whole. -/
theorem run_bracket {sign : Option Char} (rest : List Char) (ho : o.opened = .nothing)
    (hclosed : o.closed = none) (hsign : ∀ c ∈ sign, c = '!' ∨ c = '^') (hne : items ≠ [])
    (hfirst : ∀ c ∈ (items.flatMap Bracket.Item.chars).head?, c ≠ '!' ∧ c ≠ '^') :
    ∃ b', run { o with cursor := ⟨b, (Bracket.source sign items).toList ++ rest⟩ } =
      run (closeBracket { o with cursor := ⟨b', rest⟩ } (.ofItems sign items) true
        fun _ => Bracket.ofItems_filled hne) := by
  have hsource : (Bracket.source sign items).toList ++ rest =
      '[' :: (sign.toList ++ items.flatMap Bracket.Item.chars ++ ']' :: rest) := by
    simp [Bracket.source]
  have hreverse : sign.toList.reverse = sign.toList := by cases sign <;> rfl
  rw [hsource]
  refine ⟨_, run_closed rest ho hclosed (Bracket.ofItems_filled hne) ?_⟩
  rw [List.append_assoc]
  refine (run_sign hsign).trans ((run_items fun _ => hfirst).trans ?_)
  rw [List.reverse_append, hreverse, List.append_assoc]
  rfl

/-- The outline of a glob that is a bracket expression of items between ordinary texts. -/
theorem ofPattern_bracket {sign : Option Char} {pre post : List Char} {pattern : String}
    (hpattern : pattern.toList = pre ++ ((Bracket.source sign items).toList ++ post))
    (hpre : ∀ c ∈ pre, isOrdinary c = true) (hpost : ∀ c ∈ post, isOrdinary c = true)
    (hsign : ∀ c ∈ sign, c = '!' ∨ c = '^') (hne : items ≠ [])
    (hfirst : ∀ c ∈ (items.flatMap Bracket.Item.chars).head?, c ≠ '!' ∧ c ≠ '^') :
    ∃ o, ofPattern pattern = .ok (o, []) ∧ o.negated = false ∧ o.isGuarded = true ∧
      o.parts = Part.chars pre ++ .enclosed (.bracket (.ofItems sign items) true fun _ =>
        Bracket.ofItems_filled hne) false :: Part.chars post := by
  refine ofPattern_framed hpattern ?_ hpre hpost fun b => ?_
  · rw [Bracket.source, String.toList_ofList]
    exact nofun
  · obtain ⟨b', hbracket⟩ := run_bracket (o := { cursor := ⟨[], []⟩, parts := Part.chars pre }) (b := b)
      post rfl rfl hsign hne hfirst
    exact ⟨_, hbracket, rfl, rfl, rfl, rfl, rfl, rfl⟩

end Outline

/-! ## Whole globs -/

/-- A bracket expression of items between ordinary texts, the first of them not empty, accepts what is
one character between the texts that an item takes, or that none does behind a sign of negation; and it
accepts the pattern itself. -/
theorem Matcher.accepts_bracket (pre post : String) (sign : Option Char) (items : List Bracket.Item)
    (hpre : ∀ c ∈ pre.toList, isOrdinary c = true) (hpost : ∀ c ∈ post.toList, isOrdinary c = true)
    (hbegin : pre ≠ "") (hsign : ∀ c ∈ sign, c = '!' ∨ c = '^') (hne : items ≠ [])
    (hfirst : ∀ c ∈ (items.flatMap Bracket.Item.chars).head?, c ≠ '!' ∧ c ≠ '^')
    (hlen : (pre ++ Bracket.source sign items ++ post).length ≤ 65536) :
    ∃ m, Matcher.ofPattern { nobrace := true } (pre ++ Bracket.source sign items ++ post) = .ok m ∧
      ∀ candidate, m.accepts candidate = true ↔
        (∃ c, (items.any (·.contains c) != sign.isSome) = true ∧
          candidate = pre ++ String.singleton c ++ post) ∨
        candidate = pre ++ Bracket.source sign items ++ post := by
  have hpattern : (pre ++ Bracket.source sign items ++ post).toList =
      pre.toList ++ ((Bracket.source sign items).toList ++ post.toList) := by simp
  obtain ⟨out, hout, hnegated, -, hparts⟩ :=
    Outline.ofPattern_bracket hpattern hpre hpost hsign hne hfirst
  obtain ⟨p, hp, hdenotes⟩ := Bracket.operand?_ofItems hne false
  obtain ⟨m, hm, haccepts⟩ := Matcher.exists_of_framed (o := { nobrace := true }) hout hnegated hparts hp
    hlen rfl rfl rfl rfl rfl
  refine ⟨m, hm, fun candidate => ?_⟩
  have hwords : (∃ w ∈ Bracket.language sign items, candidate.toList = pre.toList ++ w ++ post.toList) ↔
      (∃ c, (items.any (·.contains c) != sign.isSome) = true ∧
        candidate = pre ++ String.singleton c ++ post) ∨
      candidate = pre ++ Bracket.source sign items ++ post := by
    simp only [← String.toList_inj, String.toList_append, String.toList_singleton]
    constructor
    · rintro ⟨w, ⟨c, hc, rfl⟩ | rfl, h⟩
      · exact .inl ⟨c, hc, h⟩
      · exact .inr h
    · rintro (⟨c, hc, h⟩ | h)
      · exact ⟨[c], .inl ⟨c, hc, rfl⟩, h⟩
      · exact ⟨_, .inr rfl, h⟩
  rw [haccepts, hdenotes.framed, Fragment.hides_false, List.getElem?_toArray, ← List.head?_eq_getElem?,
    hwords]
  refine and_iff_right_of_imp fun haccepted _ hdot => ?_
  -- whatever is accepted begins in `pre`, where no character is a dot
  obtain ⟨w, -, hsame⟩ := hwords.2 haccepted
  obtain ⟨c, cs, hcs⟩ := List.exists_cons_of_ne_nil (l := pre.toList) (by simpa using hbegin)
  rw [hsame, hcs] at hdot
  cases hdot
  exact absurd (hpre '.' (by rw [hcs]; simp)) (by decide)

/-- Behind a sign of negation a range and a named class are taken away, and the glob's own text is
not. -/
theorem Matcher.accepts_negated_bracket : ∃ m,
    Matcher.ofPattern { nobrace := true } "a[!b-d[:digit:]]" = .ok m ∧ m.accepts "a/" = true ∧
      m.accepts "ac" = false ∧ m.accepts "a[!b-d[:digit:]]" = true := by
  have hpattern : "a" ++ Bracket.source (some '!') [.range 'b' 'd' (by decide) (by decide),
      .named "digit" (by decide)] ++ "" = "a[!b-d[:digit:]]" := by decide +kernel
  obtain ⟨m, hm, haccepts⟩ := Matcher.accepts_bracket "a" "" (some '!')
    [.range 'b' 'd' (by decide) (by decide), .named "digit" (by decide)]
    (List.all_eq_true.1 (by decide)) nofun (by decide) (by simp) nofun (by rintro _ ⟨⟩; decide)
    (by rw [hpattern]; decide)
  rw [hpattern] at hm haccepts
  refine ⟨m, hm, (haccepts _).2 (.inl ⟨'/', by decide, by decide⟩), ?_, (haccepts _).2 (.inr rfl)⟩
  rw [← Bool.not_eq_true, haccepts]
  rintro (⟨c, hc, hsame⟩ | hsame)
  · rw [← String.toList_inj] at hsame
    obtain rfl : 'c' = c := by simpa using hsame
    exact absurd hc (by decide)
  · exact absurd hsame (by decide)

end PathGlob
