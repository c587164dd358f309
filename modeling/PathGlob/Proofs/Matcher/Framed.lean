/-
Globs that enclose something between ordinary texts, and among them those that are one group of
alternatives. Such a glob accepts the texts between which a word of the group stands: one of its
alternatives, repeated as its sigil says.
-/
import PathGlob.Proofs.Glob.Ordinary
import PathGlob.Proofs.Regex.Language

namespace PathGlob

open Regex
open scoped Computability

/-! ## Groups of ordinary alternatives -/

/-- The words that a group takes, by the words that its alternatives take; a negated group that ends
the glob takes all others of a component. -/
def ExtGlob.language (g : Option ExtGlob) (L : Language Char) : Language Char :=
  match g with
  | none | some .exactlyOne => L
  | some .zeroOrOne => 1 + L
  | some .zeroOrMore => L∗
  | some .oneOrMore => L * L∗
  | some .negate => {w | '/' ∉ w ∧ w ∉ L}

theorem mem_intercalate {α : Type} {c : α} {sep : List α} {us : List (List α)}
    (h : c ∈ sep.intercalate us) : c ∈ sep ∨ ∃ u ∈ us, c ∈ u := by
  induction us with
  | nil => cases h
  | cons u us ih =>
    cases us with
    | nil => exact .inr ⟨u, by simp, by simpa using h⟩
    | cons v vs =>
      rw [List.intercalate_cons_cons, List.mem_append, List.mem_append] at h
      rcases h with (h | h) | h
      · exact .inr ⟨u, by simp, h⟩
      · exact .inl h
      · exact (ih h).imp_right fun ⟨x, hx, hc⟩ => ⟨x, List.mem_cons_of_mem _ hx, hc⟩

theorem map_intercalate {α β : Type} (f : α → β) (sep : List α) (us : List (List α)) :
    (sep.intercalate us).map f = (sep.map f).intercalate (us.map (·.map f)) := by
  induction us with
  | nil => rfl
  | cons u us ih =>
    cases us with
    | nil => simp
    | cons v vs =>
      simp only [List.map_cons] at ih
      simp [List.intercalate_cons_cons, ih]

namespace Part

theorem branches?_barless (dot : Bool) {gs : List Glyph} (h : Glyph.bar ∉ gs) (ps : List Part) :
    branches? dot (gs.map .glyph ++ ps) =
      (branches? dot ps).map fun (rs, bs) => (gs.flatMap (Glyph.regexes dot) ++ rs, bs) := by
  induction gs with
  | nil =>
    change branches? dot ps = _
    cases branches? dot ps <;> rfl
  | cons g gs ih =>
    have hbar : isBar (.glyph g) = false := by
      simp only [isBar, decide_eq_false_iff_not]
      rintro rfl
      exact h List.mem_cons_self
    rw [List.map_cons, List.cons_append, branches?, ih fun hgs => h (List.mem_cons_of_mem _ hgs)]
    cases branches? dot ps <;> simp [hbar, operands?, Glyph.regexes]

/-- Alternatives without bars are the branches between the bars. -/
theorem branches?_alternatives (dot : Bool) {a : List Glyph} {as : List (List Glyph)}
    (h : ∀ x ∈ a :: as, Glyph.bar ∉ x) :
    branches? dot (([Glyph.bar].intercalate (a :: as)).map .glyph) =
      some (a.flatMap (Glyph.regexes dot), as.map (·.flatMap (Glyph.regexes dot))) := by
  induction as generalizing a with
  | nil =>
    have hnone := branches?_barless dot (h a (by simp)) []
    rw [List.intercalate_singleton, ← List.append_nil (a.map _), hnone]
    simp [branches?]
  | cons b bs ih =>
    have hbs := ih (a := b) fun x hx => h x (List.mem_cons_of_mem _ hx)
    rw [List.intercalate_cons_cons, List.map_append, List.map_append, List.append_assoc,
      branches?_barless dot (h a (by simp))]
    change (branches? dot (.glyph .bar :: ([Glyph.bar].intercalate (b :: bs)).map .glyph)).map _ = _
    rw [branches?, hbs]
    simp [isBar]

end Part

/-- A group of alternatives takes what one of them takes. -/
theorem Enclosed.denotes_alternatives {α : Type} (dot : Bool) {xs : List α} (hne : xs ≠ [])
    (f : α → List Glyph) (L : α → Language Char) (hbar : ∀ x ∈ xs, Glyph.bar ∉ f x)
    (hL : ∀ x ∈ xs, ∀ ⦃s : List Char⦄ ⦃i j : Nat⦄, i ≤ s.length →
      (SpansAll false s.toArray ((f x).flatMap (Glyph.regexes dot)) i j ↔ Reaches (L x) s i j)) :
    Denotes (bodyRegex dot ([Glyph.bar].intercalate (xs.map f))) {w | ∃ x ∈ xs, w ∈ L x} := by
  obtain ⟨y, ys, rfl⟩ := List.exists_cons_of_ne_nil hne
  obtain ⟨rs, bs, hbranches, hspans⟩ :=
    spans_bodyRegex_iff dot ([Glyph.bar].intercalate ((y :: ys).map f))
  rw [List.map_cons, Part.branches?_alternatives dot (by simpa using hbar)] at hbranches
  cases hbranches
  intro s i j hi
  rw [hspans, ← List.map_cons, ← List.map_cons]
  simp only [List.mem_map, exists_exists_and_eq_and]
  constructor
  · rintro ⟨x, hx, hword⟩
    obtain ⟨w, hw, hreach⟩ := (hL x hx hi).1 hword
    exact ⟨w, ⟨x, hx, hw⟩, hreach⟩
  · rintro ⟨w, ⟨x, hx, hw⟩, hreach⟩
    exact ⟨x, hx, (hL x hx hi).2 ⟨w, hw, hreach⟩⟩

theorem Glyph.map_ofBody {us : List (List Char)} (h : ∀ u ∈ us, '|' ∉ u) :
    (['|'].intercalate us).map ofBody = [bar].intercalate (us.map (·.map .char)) := by
  have hchars : us.map (·.map ofBody) = us.map (·.map Glyph.char) :=
    List.map_congr_left fun u hu => List.map_congr_left fun c hc => by
      rw [ofBody, if_neg]
      rintro rfl
      exact h u hu hc
  rw [map_intercalate, hchars]
  rfl

/-- A group of alternatives takes one of them. -/
theorem Enclosed.denotes_bodyRegex (dot : Bool) {a : List Char} {as : List (List Char)}
    (h : ∀ x ∈ a :: as, '|' ∉ x) :
    Denotes (bodyRegex dot ((['|'].intercalate (a :: as)).map .ofBody)) {w | w ∈ a :: as} := by
  have hchars (u : List Char) : (u.map Glyph.char).flatMap (Glyph.regexes dot) = u.map Regex.char := by
    rw [List.flatMap_map, List.map_eq_flatMap]
    rfl
  have hdenotes := denotes_alternatives dot (List.cons_ne_nil a as) (·.map .char) (fun u => {u})
    (by simp) fun u _ s i j hi => by rw [hchars, spansAll_chars_iff hi]
  rw [Glyph.map_ofBody h]
  simpa [Regex.mem_word] using hdenotes

namespace Enclosed

variable {g : Option ExtGlob} {r : Regex} {L : Language Char} {p : Regex × Quantified} {atEnd : Bool}

/-- A group takes what its sigil makes of its alternatives. -/
theorem denotes_groupOperand (h : Denotes r L) (hg : g ≠ some .negate)
    (hp : groupOperand? g r atEnd = some p) : Denotes p.1 (ExtGlob.language g L) := by
  unfold groupOperand? at hp
  split at hp
  case h_1 => cases hp; exact h.capture
  case h_2 => cases hp; exact h
  case h_3 => split at hp <;> cases hp; exact h.loop
  case h_4 => split at hp <;> cases hp; exact h.loop_one
  case h_5 => split at hp <;> cases hp; exact h.loop_upTo
  case h_6 => exact absurd rfl hg

/-- A negated group at the end of a glob takes the rest of a component that is no alternative. -/
theorem spans_negated (h : Denotes r L) (hp : groupOperand? (some .negate) r true = some p)
    {s : List Char} {i : Nat} (hi : i ≤ s.length) :
    Spans false s.toArray p.1 i s.length ↔ s.drop i ∈ ExtGlob.language (some .negate) L := by
  cases hp
  have hno : (∃ k, Spans false s.toArray (r.append .stop) i k) ↔ s.drop i ∈ L := by
    simp only [spans_append, spans_stop, h hi, ← reaches_end hi]
    constructor
    · rintro ⟨_, _, hk, rfl, rfl⟩
      exact hk
    · exact fun hk => ⟨_, _, hk, rfl, rfl⟩
  have hstar : Spans false s.toArray Fragment.starRegex i s.length ↔ '/' ∉ s.drop i := by
    have hwithin := Fragment.spans_star_within (u := s.take i) (w := s.drop i) (v := [])
    rwa [List.append_nil, List.take_append_drop, List.length_take, List.length_drop,
      Nat.min_eq_left hi, Nat.add_sub_cancel' hi] at hwithin
  simp only [spans_seq, spans_notAhead, hno, if_true]
  constructor
  · rintro ⟨_, ⟨rfl, hnot⟩, hrest⟩
    exact ⟨hstar.1 hrest, hnot⟩
  · rintro ⟨hsep, hnot⟩
    exact ⟨i, ⟨rfl, hnot⟩, hstar.2 hsep⟩

/-- Between ordinary texts a group takes a word of its language. -/
theorem spansAll_group (h : Denotes r L) {pre post s : List Char}
    (hp : groupOperand? g r post.isEmpty = some p) (hnegate : g = some .negate → post = []) :
    SpansAll false s.toArray (pre.map Regex.char ++ p.1 :: post.map Regex.char) 0 s.length ↔
      ∃ w ∈ ExtGlob.language g L, s = pre ++ w ++ post := by
  by_cases hg : g = some .negate
  · subst hg
    obtain rfl := hnegate rfl
    have hword (w : List Char) : Spans false (pre ++ w ++ []).toArray p.1 pre.length
        (pre.length + w.length) ↔ w ∈ ExtGlob.language (some .negate) L := by
      have hrest := spans_negated h hp (s := pre ++ w) (i := pre.length) (by simp)
      rwa [List.length_append, List.drop_left, ← List.append_nil (pre ++ w)] at hrest
    rw [spansAll_framed]
    constructor
    · rintro ⟨w, rfl, hw⟩
      exact ⟨w, (hword w).1 hw, rfl⟩
    · rintro ⟨w, hw, rfl⟩
      exact ⟨w, rfl, (hword w).2 hw⟩
  · exact (denotes_groupOperand h hg hp).framed

end Enclosed

/-- A group that is not negated takes only characters of its alternatives. -/
theorem ExtGlob.forall_mem_language {g : Option ExtGlob} (hg : g ≠ some .negate) {L : Language Char}
    {P : Char → Prop} (hL : ∀ u ∈ L, ∀ c ∈ u, P c) {w : List Char} (hw : w ∈ language g L) :
    ∀ c ∈ w, P c := by
  have hstar {w : List Char} (hw : w ∈ L∗) : ∀ c ∈ w, P c := by
    obtain ⟨us, rfl, hus⟩ := Language.mem_kstar.1 hw
    intro c hc
    obtain ⟨u, hu, hc⟩ := List.mem_flatten.1 hc
    exact hL u (hus u hu) c hc
  unfold language at hw
  split at hw
  · exact hL w hw
  · exact hL w hw
  · rcases (Language.mem_add ..).1 hw with hw | hw
    · rw [(Language.mem_one w).1 hw]
      simp
    · exact hL w hw
  · exact hstar hw
  · obtain ⟨u, hu, v, hv, rfl⟩ := Language.mem_mul.1 hw
    intro c hc
    rcases List.mem_append.1 hc with hc | hc
    · exact hL u hu c hc
    · exact hstar hv c hc
  · exact absurd rfl hg

/-! ## Whole globs -/

/-- A glob of one part between ordinary texts has a matcher, which accepts what the operand of the part
matches between the texts, if no guard hides it. -/
theorem Matcher.exists_of_between {o : Options} {pattern : String} {out : Outline} {part : Part}
    {p : Regex × Quantified} {pre post : List Char} (hout : Outline.ofPattern pattern = .ok (out, []))
    (hnegated : out.negated = false)
    (hparts : out.parts = Part.chars pre ++ part :: Part.chars post)
    (hbar : part.isBar = false) (hpart : part.operands? o.dot = some [p])
    (hlen : pattern.length ≤ o.maxLength)
    (hexp : Group.expansions o pattern = .ok [pattern]) (hw : o.windows = false)
    (hlead : o.lead = none) (htrail : o.trail = none) (hstar : o.star = none) :
    ∃ m, Matcher.ofPattern o pattern = .ok m ∧ ∀ candidate, m.accepts candidate = true ↔
      (out.isGuarded → ¬ Fragment.Hides o.dot candidate.toList.toArray 0) ∧
        SpansAll o.nocase candidate.toList.toArray (pre.map Regex.char ++ p.1 :: post.map Regex.char) 0
          candidate.toList.length := by
  have hcompiles : Outline.Compiles o pattern out
      (pre.map Regex.char ++ p.1 :: post.map Regex.char) :=
    ⟨hlen, ⟨[], hout, fun _ => rfl⟩, by rw [hparts, Part.regexes?_between, hpart]; rfl⟩
  obtain ⟨m, hm, haccepts⟩ := Matcher.exists_of_compiles hcompiles hw hexp hlead htrail hstar
    (by rw [hparts]; exact Part.isBar_between hbar pre post)
  refine ⟨m, hm, fun candidate => ?_⟩
  rw [haccepts, Outline.Accepts, hnegated, if_neg Bool.false_ne_true]

/-- A glob of something enclosed between ordinary texts has a matcher, which accepts what the operand
of the enclosed matches between the texts, if no guard hides it. -/
theorem Matcher.exists_of_framed {o : Options} {pattern : String} {out : Outline} {e : Enclosed}
    {p : Regex × Quantified} {pre post : List Char} (hout : Outline.ofPattern pattern = .ok (out, []))
    (hnegated : out.negated = false)
    (hparts : out.parts = Part.chars pre ++ .enclosed e false :: Part.chars post)
    (he : e.operand? o.dot = some p) (hlen : pattern.length ≤ o.maxLength)
    (hexp : Group.expansions o pattern = .ok [pattern]) (hw : o.windows = false)
    (hlead : o.lead = none) (htrail : o.trail = none) (hstar : o.star = none) :
    ∃ m, Matcher.ofPattern o pattern = .ok m ∧ ∀ candidate, m.accepts candidate = true ↔
      (out.isGuarded → ¬ Fragment.Hides o.dot candidate.toList.toArray 0) ∧
        SpansAll o.nocase candidate.toList.toArray (pre.map Regex.char ++ p.1 :: post.map Regex.char) 0
          candidate.toList.length :=
  Matcher.exists_of_between hout hnegated hparts rfl (by rw [Part.operands?, he]; rfl) hlen hexp hw hlead
    htrail hstar

/-- Such a glob has no matcher if what is enclosed has no operand. -/
theorem Matcher.error_of_framed {o : Options} {pattern : String} {out : Outline} {e : Enclosed}
    {pre post : List Char} (hout : Outline.ofPattern pattern = .ok (out, []))
    (hparts : out.parts = Part.chars pre ++ .enclosed e false :: Part.chars post)
    (he : e.operand? o.dot = none) (hlen : pattern.length ≤ o.maxLength)
    (hexp : Group.expansions o pattern = .ok [pattern]) (hw : o.windows = false)
    (hlead : o.lead = none) (htrail : o.trail = none) (hstar : o.star = none) :
    Matcher.ofPattern o pattern = .error .wrongRegularExpression := by
  have hfollows := Outline.ofPattern_follows o.dialect pattern
  rw [hout] at hfollows
  obtain ⟨r, hr, hrenders, hunclosed⟩ := hfollows
  have hsource := hrenders.ofChars?_source hstar hlead htrail
    (by rw [hparts]; exact Part.isBar_between rfl pre post)
  rw [hparts, Part.regexes?_enclosed, show e.operand? o.dialect.dot = none from he, Option.map_none,
    Option.map_none] at hsource
  have hrender : render o pattern = .ok r := render_ok_iff.2 ⟨hr, fun _ => hunclosed⟩
  have hmake : makeRegex o pattern = .error .wrongRegularExpression := by
    unfold makeRegex checkLength CompiledRegex.ofRendering
    rw [if_pos hlen, hrender]
    simp only [bind, Except.bind, hsource]
  rcases Matcher.ofPattern_agrees hw hexp with ⟨m, c, -, hc, -⟩ | ⟨f, hf, hf'⟩
  · cases hmake.symm.trans hc
  · cases hmake.symm.trans hf'
    exact hf

/-- A group of alternatives between two texts. -/
def ExtGlob.pattern (g : Option ExtGlob) (pre : String) (alts : List String) (post : String) :
    String :=
  pre ++ String.ofList (sigils g) ++ "(" ++ "|".intercalate alts ++ ")" ++ post

theorem ExtGlob.toList_pattern (g : Option ExtGlob) (pre : String) (alts : List String)
    (post : String) : (pattern g pre alts post).toList = pre.toList ++
      (sigils g ++ '(' :: (['|'].intercalate (alts.map String.toList) ++ ')' :: post.toList)) := by
  simp [pattern, String.toList_intercalate]

section Alternatives

variable {g : Option ExtGlob} {pre post : String} {alts : List String}

theorem isOrdinary_alternatives (halts : ∀ a ∈ alts, a ≠ "" ∧ ∀ c ∈ a.toList, isOrdinary c = true) :
    ∀ u ∈ alts.map String.toList, ∀ c ∈ u, isOrdinary c = true := by
  intro u hu c hc
  obtain ⟨a, ha, rfl⟩ := List.mem_map.1 hu
  exact (halts a ha).2 c hc

theorem isOrdinary_intercalate (halts : ∀ a ∈ alts, a ≠ "" ∧ ∀ c ∈ a.toList, isOrdinary c = true) :
    ∀ c ∈ ['|'].intercalate (alts.map String.toList), c = '|' ∨ isOrdinary c = true := by
  intro c hc
  rcases mem_intercalate hc with hc | ⟨u, hu, hc⟩
  · exact .inl (List.mem_singleton.1 hc)
  · exact .inr (isOrdinary_alternatives halts u hu c hc)

theorem ExtGlob.brace_notMem_framed (hpre : ∀ c ∈ pre.toList, isOrdinary c = true)
    (hpost : ∀ c ∈ post.toList, isOrdinary c = true)
    (halts : '{' ∉ ['|'].intercalate (alts.map String.toList)) :
    '{' ∉ (pattern g pre alts post).toList := by
  rw [toList_pattern]
  simp only [List.mem_append, List.mem_cons, not_or]
  refine ⟨fun h => ?_, fun h => ?_, by decide, halts, by decide, fun h => ?_⟩
  · exact absurd (hpre _ h) (by decide)
  · rcases g with _ | g
    · cases h
    · cases g <;> exact absurd h (by decide)
  · exact absurd (hpost _ h) (by decide)

theorem ExtGlob.brace_notMem_pattern (hpre : ∀ c ∈ pre.toList, isOrdinary c = true)
    (hpost : ∀ c ∈ post.toList, isOrdinary c = true)
    (halts : ∀ a ∈ alts, a ≠ "" ∧ ∀ c ∈ a.toList, isOrdinary c = true) :
    '{' ∉ (pattern g pre alts post).toList :=
  brace_notMem_framed hpre hpost fun h => absurd (isOrdinary_intercalate halts _ h) (by decide)

/-- A group of ordinary alternatives can be repeated. -/
theorem Enclosed.isRepeatable_alternatives (hne : alts ≠ [])
    (halts : ∀ a ∈ alts, a ≠ "" ∧ ∀ c ∈ a.toList, isOrdinary c = true) :
    (bodyRegex false ((['|'].intercalate (alts.map String.toList)).map .ofBody)).isRepeatable =
      true := by
  obtain ⟨a, as, rfl⟩ := List.exists_cons_of_ne_nil hne
  have ha : a.toList ≠ [] := by simpa using (halts a (by simp)).1
  rw [isRepeatable_bodyRegex]
  cases as <;> simp [List.intercalate_cons_cons, ha]

/-- A group of ordinary alternatives has an operand, in which one of them is taken. -/
theorem Enclosed.exists_groupOperand (g : Option ExtGlob) (atEnd : Bool) (hne : alts ≠ [])
    (halts : ∀ a ∈ alts, a ≠ "" ∧ ∀ c ∈ a.toList, isOrdinary c = true) :
    ∃ p, operand? false (.group g ((['|'].intercalate (alts.map String.toList)).map .ofBody) atEnd) =
        some p ∧
      Denotes (bodyRegex false ((['|'].intercalate (alts.map String.toList)).map .ofBody))
        {u | u ∈ alts.map String.toList} := by
  have hbars : ∀ u ∈ alts.map String.toList, '|' ∉ u := fun u hu hbar =>
    absurd (isOrdinary_alternatives halts u hu '|' hbar) (by decide)
  have hrepeatable := isRepeatable_alternatives hne halts
  obtain ⟨a, as, rfl⟩ := List.exists_cons_of_ne_nil hne
  obtain ⟨p, hp⟩ := Option.isSome_iff_exists.1 (groupOperand?_isSome hrepeatable)
  exact ⟨p, hp, denotes_bodyRegex false hbars⟩

/-- A text that a group of ordinary alternatives has a word in begins with a dot only if the group is
negated and nothing stands before it. -/
theorem ExtGlob.head?_ne_dot {w : List Char} (hpre : ∀ c ∈ pre.toList, isOrdinary c = true)
    (hpost : ∀ c ∈ post.toList, isOrdinary c = true)
    (halts : ∀ a ∈ alts, a ≠ "" ∧ ∀ c ∈ a.toList, isOrdinary c = true)
    (hnegate : g = some .negate → post = "") (hw : w ∈ language g {u | u ∈ alts.map String.toList})
    (hdot : g = some .negate → pre = "" → w.head? ≠ some '.') :
    (pre.toList ++ w ++ post.toList).head? ≠ some '.' := by
  intro hhead
  rcases hempty : pre.toList with _ | ⟨c, cs⟩
  · rw [hempty, List.nil_append] at hhead
    by_cases hg : g = some .negate
    · rw [hnegate hg] at hhead
      exact hdot hg (String.toList_inj.1 hempty) (by simpa using hhead)
    · have hword : ∀ c ∈ w, isOrdinary c = true :=
        forall_mem_language hg (isOrdinary_alternatives halts) hw
      rcases List.mem_append.1 (List.mem_of_head? hhead) with hmem | hmem
      · exact absurd (hword '.' hmem) (by decide)
      · exact absurd (hpost '.' hmem) (by decide)
  · rw [hempty] at hhead
    cases hhead
    exact absurd (hpre '.' (by rw [hempty]; simp)) (by decide)

end Alternatives

/-- A group of ordinary alternatives between ordinary texts accepts what is a word of the group's
language between the texts; a negated group at the start of a glob takes no leading dot. -/
theorem Matcher.accepts_group (g : Option ExtGlob) (pre post : String) (alts : List String)
    (hpre : ∀ c ∈ pre.toList, isOrdinary c = true) (hpost : ∀ c ∈ post.toList, isOrdinary c = true)
    (hne : alts ≠ []) (halts : ∀ a ∈ alts, a ≠ "" ∧ ∀ c ∈ a.toList, isOrdinary c = true)
    (hnegate : g = some .negate → post = "")
    (hlen : (ExtGlob.pattern g pre alts post).length ≤ 65536) :
    ∃ m, Matcher.ofPattern {} (ExtGlob.pattern g pre alts post) = .ok m ∧
      ∀ candidate, m.accepts candidate = true ↔ ∃ w, candidate = pre ++ w ++ post ∧
        w.toList ∈ ExtGlob.language g {u | u ∈ alts.map String.toList} ∧
        (g = some .negate → pre = "" → w.toList.head? ≠ some '.') := by
  obtain ⟨out, hout, hnegated, hguarded, hparts⟩ := Outline.ofPattern_group g
    (ExtGlob.toList_pattern g pre alts post) hpre hpost (isOrdinary_intercalate halts)
  obtain ⟨p, hp, hdenotes⟩ := Enclosed.exists_groupOperand g post.toList.isEmpty hne halts
  have hbrace : '{' ∉ (ExtGlob.pattern g pre alts post).toList :=
    ExtGlob.brace_notMem_pattern hpre hpost halts
  obtain ⟨m, hm, haccepts⟩ := Matcher.exists_of_framed (o := {}) hout hnegated hparts hp hlen
    ((Group.expansions_of_no_brace hbrace).trans rfl) rfl rfl rfl rfl
  refine ⟨m, hm, fun candidate => ?_⟩
  rw [haccepts, Enclosed.spansAll_group hdenotes hp fun h => by rw [hnegate h]; rfl, hguarded,
    Fragment.hides_false, List.getElem?_toArray, ← List.head?_eq_getElem?]
  constructor
  · rintro ⟨hno, w, hw, hsame⟩
    refine ⟨String.ofList w, ?_, by rwa [String.toList_ofList], fun hg hempty => ?_⟩
    · rw [← String.toList_inj, hsame]
      simp
    · rw [hsame, hempty, hnegate hg] at hno
      simpa using hno
  · rintro ⟨w, rfl, hw, hdot⟩
    refine ⟨fun _ => ?_, w.toList, hw, by simp⟩
    rw [String.toList_append, String.toList_append]
    exact ExtGlob.head?_ne_dot hpre hpost halts hnegate hw hdot

/-- Alternatives that begin alike are told apart by what follows them, and one of them is required. -/
theorem Matcher.accepts_repeated_alternatives : ∃ m, Matcher.ofPattern {} "a+(b|bc)d" = .ok m ∧
    m.accepts "abcbd" = true ∧ m.accepts "ad" = false := by
  have hpattern : ExtGlob.pattern (some .oneOrMore) "a" ["b", "bc"] "d" = "a+(b|bc)d" := by
    decide +kernel
  obtain ⟨m, hm, haccepts⟩ := Matcher.accepts_group (some .oneOrMore) "a" "d" ["b", "bc"]
    (List.all_eq_true.1 (by decide)) (List.all_eq_true.1 (by decide)) (by decide)
    (by simp [isOrdinary, Program.isSpecial]) (by simp) (by rw [hpattern]; decide)
  rw [hpattern] at hm
  refine ⟨m, hm, ?_, ?_⟩
  · rw [haccepts]
    refine ⟨"bcb", by decide, Language.mem_mul.2 ⟨['b', 'c'], ?_, ['b'], ?_, by decide⟩, by simp⟩
    · exact List.mem_cons_of_mem _ List.mem_cons_self
    · exact Language.mem_kstar.2 ⟨[['b']], rfl, fun u hu => by
        rw [List.mem_singleton.1 hu]
        exact List.mem_cons_self⟩
  · rw [← Bool.not_eq_true, haccepts]
    rintro ⟨w, hw, hmem, -⟩
    obtain ⟨u, hu, v, -, huv⟩ := Language.mem_mul.1 hmem
    rw [← String.toList_inj] at hw
    have hempty : w.toList = [] := by simpa using hw
    rw [hempty, List.append_eq_nil_iff] at huv
    rw [huv.1] at hu
    exact absurd (show [] ∈ [['b'], ['b', 'c']] from hu) (by decide)

end PathGlob
