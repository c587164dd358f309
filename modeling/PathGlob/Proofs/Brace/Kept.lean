/-
Pairs of braces that are no sets. Such a pair is kept while it is neither list nor range; but the whole
text is looked at again whenever a set is replaced, so a pair is judged by what its content has become
when no set is left in it. A pair around a range that is put together in this way is a range.
-/
import PathGlob.Proofs.Brace.Tree

namespace PathGlob.Brace

/-- A text between two braces. -/
def braced (cs : List Char) : List Char := '\x7b' :: cs ++ ['\x7d']

/-- What a pair around a text stands for: what the text offers, or else the pair itself. -/
def offered (cs : List Char) : List (List Char) :=
  ((Alternatives.ofText? cs).map Alternatives.values).getD [braced cs]

theorem offered_of_none {cs : List Char} (h : Alternatives.ofText? cs = none) :
    offered cs = [braced cs] := by
  rw [offered, h]
  rfl

theorem offered_of_some {cs : List Char} {a : Alternatives} (h : Alternatives.ofText? cs = some a) :
    offered cs = a.values := by
  rw [offered, h]
  rfl

/-! ## Nests -/

/-- The structure of a text with pairs of braces, be they sets or not. -/
inductive Nest where
  | signs (ss : List Sign)
  | sequence (ns : List Nest)
  | pair (content : Nest)
  | list (first second : Nest) (others : List Nest)
  | numbers (s : NumberSet)
  | letters (s : LetterSet)

namespace Nest

/-- How a nest is written. -/
def text : Nest → List Char
  | signs ss => Sign.texts ss
  | sequence ns => ns.flatMap text
  | pair content => braced content.text
  | list first second others =>
    braced (first.text ++ ',' :: second.text ++ others.flatMap fun n => ',' :: n.text)
  | numbers s => braced s.text
  | letters s => braced s.text

/-- The texts that a nest stands for, in order, if a pair around a text stands for those that `around`
says. -/
def enumerate (around : List Char → List (List Char)) : Nest → List (List Char)
  | signs ss => [Sign.texts ss]
  | sequence ns => (ns.map (enumerate around)).foldr product [[]]
  | pair content => (content.enumerate around).flatMap around
  | list first second others =>
    first.enumerate around ++ second.enumerate around ++ others.flatMap (enumerate around)
  | numbers s => s.values
  | letters s => s.values

/-- The texts that a nest stands for if pairs are kept whatever they come to hold. -/
def kept (n : Nest) : List (List Char) := n.enumerate fun cs => [braced cs]

/-- The texts that a nest stands for: a pair is kept unless it has come to hold a range. -/
def values (n : Nest) : List (List Char) := n.enumerate offered

theorem values_signs (ss : List Sign) : (signs ss).values = [Sign.texts ss] := by
  rw [values, enumerate]

theorem values_sequence (ns : List Nest) :
    (sequence ns).values = (ns.map values).foldr product [[]] := by
  rw [values, enumerate]
  rfl

theorem values_pair (n : Nest) : (pair n).values = n.values.flatMap offered := by
  rw [values, enumerate]
  rfl

theorem values_list (first second : Nest) (others : List Nest) :
    (list first second others).values = first.values ++ second.values ++ others.flatMap values := by
  rw [values, enumerate]
  rfl

theorem values_numbers (s : NumberSet) : (numbers s).values = s.values := by
  rw [values, enumerate]

theorem values_letters (s : LetterSet) : (letters s).values = s.values := by
  rw [values, enumerate]

/-- What the pairs of a nest that are not written as sets hold. -/
def contents : Nest → List Nest
  | signs _ => []
  | sequence ns => ns.flatMap contents
  | pair content => content :: content.contents
  | list first second others => first.contents ++ second.contents ++ others.flatMap contents
  | numbers _ => []
  | letters _ => []

/-- What holds of a nest if it holds of its parts holds of every nest. -/
theorem induct {P : Nest → Prop} (signs : ∀ ss, P (.signs ss))
    (sequence : ∀ ns, (∀ n ∈ ns, P n) → P (.sequence ns)) (pair : ∀ n, P n → P (.pair n))
    (list : ∀ first second others, P first → P second → (∀ n ∈ others, P n) →
      P (.list first second others))
    (numbers : ∀ s, P (.numbers s)) (letters : ∀ s, P (.letters s)) : ∀ n, P n
  | .signs ss => signs ss
  | .sequence ns => sequence ns fun n _ => induct signs sequence pair list numbers letters n
  | .pair n => pair n (induct signs sequence pair list numbers letters n)
  | .list first second others =>
    list first second others (induct signs sequence pair list numbers letters first)
      (induct signs sequence pair list numbers letters second)
      fun n _ => induct signs sequence pair list numbers letters n
  | .numbers s => numbers s
  | .letters s => letters s

end Nest

/-! ## Searching among pairs -/

theorem mem_of_firstSet? {cs : List Char} {l : Located} (h : firstSet? cs = some l) : '\x7b' ∈ cs := by
  have hpos := Located.length_patterns_pos h
  obtain ⟨q, qs, hqs⟩ := List.exists_cons_of_length_pos hpos
  have hbraces := Located.braces_of_mem_patterns h (q := q) (by rw [hqs]; exact List.mem_cons_self)
  exact List.count_pos_iff.1 (Nat.zero_lt_of_lt hbraces)

/-- Where all commas are inside braces there is no list, so what is offered is a range. -/
theorem Alternatives.ofText?_balanced {cs : List Char} (h : Balanced 0 cs) {a : Alternatives}
    (ha : ofText? cs = some a) : (∀ c ∈ cs, isPlain c = true) ∧
      ∀ v ∈ a.values, ∃ ss, Sign.texts ss = v := by
  have hparts : parts 0 cs = [cs] := by
    have happend := h.parts 0 [] le_rfl
    rw [List.append_nil] at happend
    rw [happend, parts, consPart, List.append_nil]
  unfold ofText? at ha
  rw [hparts] at ha
  split at ha
  · rename_i r hr
    cases ha
    exact ⟨NumberRange.isPlain_of_ofText? hr, r.exists_texts⟩
  · split at ha
    · rename_i r hr
      cases ha
      exact ⟨LetterRange.isPlain_of_ofText? hr, r.exists_texts⟩
    · cases ha

/-- A pair around a set is none itself, if the commas around that set are inside braces. -/
theorem Alternatives.ofText?_of_firstSet? {cs : List Char} {l : Located} (hbalanced : Balanced 0 cs)
    (h : firstSet? cs = some l) : ofText? cs = none := by
  rw [Option.eq_none_iff_forall_ne_some]
  intro a ha
  have hplain := (ofText?_balanced hbalanced ha).1 _ (mem_of_firstSet? h)
  exact absurd hplain (by decide)

theorem Balanced.braced {least : Nat} {cs : List Char} (h : Balanced 1 cs) : Balanced least (braced cs) :=
  h.pair

theorem firstSet?_braced {body : List Char} (hbody : Balanced 1 body) (rest : List Char) :
    firstSet? (braced body ++ rest) =
      ((Alternatives.ofText? body).map fun a => ⟨[], a, rest⟩).orElse fun _ =>
        (firstSet? (body ++ '\x7d' :: rest)).map (.behind ['\x7b']) := by
  have hsplit : braced body ++ rest = '\x7b' :: (body ++ '\x7d' :: rest) := by simp [braced]
  rw [hsplit, firstSet?, setHere?_balanced hbody]
  cases Alternatives.ofText? body <;> rfl

/-- The search goes on behind a closing brace. -/
theorem firstSet?_closing (rest : List Char) :
    firstSet? ('\x7d' :: rest) = (firstSet? rest).map (.behind ['\x7d']) := by
  rw [firstSet?]
  · rintro _ _ ⟨⟩
  · decide

/-- A set is the first one of a text, whatever follows. -/
def Located.IsFirst (l : Located) (cs : List Char) : Prop :=
  ∀ rest, firstSet? (cs ++ rest) = some { l with tail := l.tail ++ rest }

/-- A pair with something to offer is the first set. -/
theorem Located.isFirst_braced {body : List Char} {a : Alternatives} (hbody : Balanced 1 body)
    (ha : Alternatives.ofText? body = some a) : Located.IsFirst ⟨[], a, []⟩ (braced body) := by
  intro rest
  rw [firstSet?_braced hbody, ha]
  rfl

/-- A text in which nothing is left to replace: the search for a set passes over it. -/
structure IsFinal (cs : List Char) : Prop where
  balanced : Balanced 0 cs
  passed : ∀ rest, firstSet? (cs ++ rest) = (firstSet? rest).map (.behind cs)

namespace IsFinal

variable {cs ds : List Char}

theorem expansions_eq (h : IsFinal cs) : expansions cs = [cs] := by
  have hnone := h.passed []
  rw [List.append_nil] at hnone
  exact expansions_of_none hnone

theorem nil : IsFinal [] where
  balanced := .nil
  passed rest := by
    rw [List.nil_append, show Located.behind [] = id from rfl, Option.map_id, id]

theorem append (h : IsFinal cs) (h' : IsFinal ds) : IsFinal (cs ++ ds) where
  balanced := h.balanced.append h'.balanced
  passed rest := by
    rw [List.append_assoc, h.passed, h'.passed, Option.map_map]
    congr 1
    funext l
    simp [Located.behind]

theorem signs (ss : List Sign) : IsFinal (Sign.texts ss) := by
  induction ss with
  | nil => exact nil
  | cons s ss ih => exact append ⟨.sign s, firstSet?_sign s⟩ ih

/-- A pair that has nothing to offer is passed over. -/
theorem braced (h : IsFinal cs) (hnone : Alternatives.ofText? cs = none) : IsFinal (braced cs) where
  balanced := .braced h.balanced.mono
  passed rest := by
    rw [firstSet?_braced h.balanced.mono, hnone, h.passed, firstSet?_closing]
    simp only [Option.map_none, Option.orElse_none, Option.map_map]
    congr 1
    funext l
    simp [Located.behind, Brace.braced]

end IsFinal

/-! ## Replacing among pairs -/

/-- The first set of a text is the first one between these two as well. -/
def Surrounds (before after : List Char) : Prop :=
  ∀ cs l, Balanced 0 cs → Located.IsFirst l cs →
    firstSet? (before ++ cs ++ after) = some ⟨before ++ l.head, l.alternatives, l.tail ++ after⟩

namespace Surrounds

variable {before after cs : List Char}

theorem nil : Surrounds [] [] := fun _ _ _ hl => hl []

/-- Behind a text in which nothing is left to replace. -/
theorem behind (h : Surrounds before after) (hcs : IsFinal cs) : Surrounds (before ++ cs) after := by
  intro ds l hds hl
  have hfirst : (l.behind cs).IsFirst (cs ++ ds) := fun rest => by
    rw [List.append_assoc, hcs.passed, hl]
    rfl
  have hwhole := h _ _ (hcs.balanced.append hds) hfirst
  simpa [Located.behind, List.append_assoc] using hwhole

/-- With another text in front of what follows. -/
theorem ahead (h : Surrounds before after) (hcs : Balanced 0 cs) : Surrounds before (cs ++ after) := by
  intro ds l hds hl
  have hfirst : Located.IsFirst { l with tail := l.tail ++ cs } (ds ++ cs) := fun rest => by
    rw [List.append_assoc, hl, List.append_assoc]
  have hwhole := h _ _ (hds.append hcs) hfirst
  simpa [List.append_assoc] using hwhole

/-- Within a pair of braces, which is no set while there is one inside. -/
theorem braces (h : Surrounds before after) :
    Surrounds (before ++ ['\x7b']) ('\x7d' :: after) := by
  intro ds l hds hl
  have hnone : Alternatives.ofText? ds = none := by
    have hset := hl []
    rw [List.append_nil] at hset
    exact Alternatives.ofText?_of_firstSet? hds hset
  have hfirst : Located.IsFirst ⟨'\x7b' :: l.head, l.alternatives, l.tail ++ ['\x7d']⟩ (braced ds) :=
    fun rest => by
      rw [firstSet?_braced hds.mono, hnone, hl]
      simp [Located.behind]
  have hwhole := h _ _ (.braced hds.mono) hfirst
  simpa [braced, List.append_assoc] using hwhole

/-- A set between the two is replaced by each of its alternatives in turn. -/
theorem expansions_set {body : List Char} {a : Alternatives} (h : Surrounds before after)
    (hbody : Balanced 1 body) (ha : Alternatives.ofText? body = some a) :
    expansions (before ++ braced body ++ after) =
      a.values.flatMap fun v => expansions (before ++ v ++ after) := by
  have hfirst := h _ _ (.braced hbody) (Located.isFirst_braced hbody ha)
  rw [List.append_nil, List.nil_append] at hfirst
  rw [expansions_of_some hfirst, Located.patterns, List.flatMap_map]
  rfl

end Surrounds

/-! ## Expanding nests -/

namespace Nest

theorem text_list (first second : Nest) (others : List Nest) : (list first second others).text =
    braced (first.text ++ (second.text :: others.map text).flatMap (',' :: ·)) := by
  simp [text, List.flatMap_map]

theorem balanced (n : Nest) : Balanced 0 n.text := by
  induction n using Nest.induct with
  | signs ss =>
    rw [text]
    exact .signs ss
  | sequence ns ih =>
    rw [text]
    exact .flatMap ih
  | pair n ih =>
    rw [text]
    exact .braced ih.mono
  | list first second others hfirst hsecond hothers =>
    rw [text_list]
    apply Balanced.braced
    apply Balanced.list
    intro p hp
    simp only [List.mem_cons, List.mem_map] at hp
    rcases hp with rfl | rfl | ⟨n, hn, rfl⟩
    · exact hfirst
    · exact hsecond
    · exact hothers n hn
  | numbers s =>
    rw [text]
    exact s.balanced.braced
  | letters s =>
    rw [text]
    exact s.balanced.braced

theorem isFinal_of_mem_foldr {vss : List (List (List Char))} (h : ∀ vs ∈ vss, ∀ v ∈ vs, IsFinal v) :
    ∀ v ∈ vss.foldr product [[]], IsFinal v := by
  induction vss with
  | nil =>
    intro v hv
    cases List.mem_singleton.1 hv
    exact .nil
  | cons vs vss ih =>
    intro v hv
    obtain ⟨u, hu, hv⟩ := List.mem_flatMap.1 hv
    obtain ⟨w, hw, rfl⟩ := List.mem_map.1 hv
    have hrest := ih fun ws hws => h ws (List.mem_cons_of_mem _ hws)
    exact (h vs List.mem_cons_self u hu).append (hrest w hw)

/-- Nothing is left to replace in what a nest stands for. -/
theorem isFinal_of_mem_values (n : Nest) : ∀ v ∈ n.values, IsFinal v := by
  induction n using Nest.induct with
  | signs ss =>
    intro v hv
    rw [values_signs, List.mem_singleton] at hv
    rw [hv]
    exact .signs ss
  | sequence ns ih =>
    rw [values_sequence]
    apply isFinal_of_mem_foldr
    intro vs hvs
    obtain ⟨n, hn, rfl⟩ := List.mem_map.1 hvs
    exact ih n hn
  | pair n ih =>
    intro v hv
    rw [values_pair] at hv
    obtain ⟨x, hx, hv⟩ := List.mem_flatMap.1 hv
    cases ha : Alternatives.ofText? x with
    | none =>
      rw [offered_of_none ha, List.mem_singleton] at hv
      rw [hv]
      exact (ih x hx).braced ha
    | some a =>
      rw [offered_of_some ha] at hv
      obtain ⟨ss, rfl⟩ := (Alternatives.ofText?_balanced (ih x hx).balanced ha).2 v hv
      exact .signs ss
  | list first second others hfirst hsecond hothers =>
    intro v hv
    simp only [values_list, List.mem_append, List.mem_flatMap] at hv
    rcases hv with (hv | hv) | ⟨n, hn, hv⟩
    · exact hfirst v hv
    · exact hsecond v hv
    · exact hothers n hn v hv
  | numbers s =>
    intro v hv
    rw [values_numbers] at hv
    obtain ⟨ss, rfl⟩ := s.exists_texts v hv
    exact .signs ss
  | letters s =>
    intro v hv
    rw [values_letters] at hv
    obtain ⟨ss, rfl⟩ := s.exists_texts v hv
    exact .signs ss

/-- Between two texts that leave its sets in their order, a nest is replaced by each of its values in
turn. -/
theorem expansions_between (n : Nest) {before after : List Char} (h : Surrounds before after) :
    expansions (before ++ n.text ++ after) =
      n.values.flatMap fun v => expansions (before ++ v ++ after) := by
  induction n using Nest.induct generalizing before after with
  | signs ss => rw [text, values_signs, List.flatMap_singleton]
  | sequence ns ih =>
    rw [text, values_sequence]
    induction ns generalizing before with
    | nil => simp
    | cons n ns ihs =>
      have hns : Balanced 0 (ns.flatMap text) := .flatMap fun m _ => m.balanced
      have hsplit : before ++ (n :: ns).flatMap text ++ after =
          before ++ n.text ++ (ns.flatMap text ++ after) := by simp [List.append_assoc]
      rw [hsplit, ih n List.mem_cons_self (h.ahead hns), List.map_cons, List.foldr_cons, product,
        List.flatMap_assoc]
      apply List.flatMap_congr
      intro v hv
      have hrest := ihs (fun m hm => ih m (List.mem_cons_of_mem _ hm))
        (h.behind (n.isFinal_of_mem_values v hv))
      rw [← List.append_assoc, hrest, List.flatMap_map]
      simp only [List.append_assoc]
  | pair n ih =>
    have hsplit (cs : List Char) :
        before ++ braced cs ++ after = before ++ ['\x7b'] ++ cs ++ '\x7d' :: after := by simp [braced]
    -- the content is replaced first, and then each pair is read again
    rw [text, hsplit, ih h.braces, values_pair, List.flatMap_assoc]
    apply List.flatMap_congr
    intro x hx
    rw [← hsplit]
    cases ha : Alternatives.ofText? x with
    | none => rw [offered_of_none ha, List.flatMap_singleton]
    | some a =>
      rw [offered_of_some ha]
      exact h.expansions_set (n.isFinal_of_mem_values x hx).balanced.mono ha
  | list first second others hfirst hsecond hothers =>
    have hbalanced : ∀ p ∈ first.text :: second.text :: others.map text, Balanced 0 p := by
      intro p hp
      simp only [List.mem_cons, List.mem_map] at hp
      rcases hp with rfl | rfl | ⟨n, -, rfl⟩
      · exact first.balanced
      · exact second.balanced
      · exact n.balanced
    have hlist := Alternatives.ofText?_list hbalanced
    rw [text_list, h.expansions_set (Balanced.list hbalanced) hlist]
    change (first.text :: second.text :: others.map text).flatMap _ = _
    rw [List.flatMap_cons, List.flatMap_cons, List.flatMap_map, hfirst h, hsecond h, values_list,
      List.flatMap_append, List.flatMap_append, List.flatMap_assoc, List.append_assoc]
    congr 2
    apply List.flatMap_congr
    intro n hn
    exact hothers n hn h
  | numbers s =>
    rw [text, h.expansions_set s.balanced s.alternatives, values_numbers, ← s.values_range]
    rfl
  | letters s =>
    rw [text, h.expansions_set s.balanced s.alternatives, values_letters, ← s.values_range]
    rfl

/-- A nest's text expands to the values of the nest. -/
theorem expansions_text (n : Nest) : expansions n.text = n.values := by
  have hbetween := n.expansions_between .nil
  rw [List.nil_append, List.append_nil] at hbetween
  rw [hbetween]
  have hfinal : n.values.flatMap (fun v => expansions ([] ++ v ++ [])) = n.values.flatMap fun v => [v] := by
    apply List.flatMap_congr
    intro v hv
    rw [List.nil_append, List.append_nil, (n.isFinal_of_mem_values v hv).expansions_eq]
  rw [hfinal, List.flatMap_singleton']

/-- Only what pairs come to hold tells two ways to take them apart. -/
theorem enumerate_congr {f g : List Char → List (List Char)} (n : Nest)
    (h : ∀ m ∈ n.contents, ∀ cs ∈ m.enumerate g, f cs = g cs) : n.enumerate f = n.enumerate g := by
  induction n using Nest.induct with
  | signs ss => rw [enumerate, enumerate]
  | sequence ns ih =>
    have hparts : ns.map (enumerate f) = ns.map (enumerate g) :=
      List.map_congr_left fun n hn => ih n hn fun m hm =>
        h m (by rw [contents]; exact List.mem_flatMap_of_mem hn hm)
    rw [enumerate, enumerate, hparts]
  | pair n ih =>
    rw [enumerate, enumerate, ih fun m hm => h m (by rw [contents]; exact List.mem_cons_of_mem _ hm)]
    apply List.flatMap_congr
    exact h n (by rw [contents]; exact List.mem_cons_self)
  | list first second others hfirst hsecond hothers =>
    simp only [contents, List.mem_append, List.mem_flatMap] at h
    have hrest : others.flatMap (enumerate f) = others.flatMap (enumerate g) :=
      List.flatMap_congr fun n hn => hothers n hn fun m hm => h m (.inr ⟨n, hn, hm⟩)
    rw [enumerate, enumerate, hfirst fun m hm => h m (.inl (.inl hm)),
      hsecond fun m hm => h m (.inl (.inr hm)), hrest]
  | numbers s => rw [enumerate, enumerate]
  | letters s => rw [enumerate, enumerate]

/-- The text of a nest expands to just the values of the nest, in their order, under every limit that
has room for them. Each pair is kept in those if none ever comes to hold a range. -/
theorem expand?_nest (n : Nest) (limit : Nat) (h : n.values.length ≤ limit) :
    expand? limit (String.ofList n.text) = some (n.values.map String.ofList) ∧
    ((∀ m ∈ n.contents, ∀ cs ∈ m.kept, Alternatives.ofText? cs = none) → n.values = n.kept) := by
  refine ⟨?_, fun hkept => enumerate_congr n fun m hm cs hcs => offered_of_none (hkept m hm cs hcs)⟩
  have hvalues : patterns (String.ofList n.text) = n.values.map String.ofList := by
    rw [patterns, String.toList_ofList, n.expansions_text]
  rw [expand?_eq, hvalues, if_pos (by simpa using h)]

/-- The range `1..2`. -/
def oneToTwo : NumberSet where
  first := ⟨false, ['1'], by decide, by decide, by decide⟩
  last := ⟨false, ['2'], by decide, by decide, by decide⟩

/-- The nest of `{{a,b}}{{{1..2}.}}`: pairs around a list and around a range that goes on. -/
def wrapped : Nest :=
  .sequence [.pair (.list (.signs [.plain 'a' (.refl true)]) (.signs [.plain 'b' (.refl true)]) []),
    .pair (.pair (.sequence [.numbers oneToTwo, .signs [.plain '.' (.refl true)]]))]

theorem expand?_wrapped : wrapped.values.length ≤ 4 ∧
    (∀ m ∈ wrapped.contents, ∀ cs ∈ m.kept, Alternatives.ofText? cs = none) ∧
    expand? 4 "{{a,b}}{{{1..2}.}}" = some ["{a}{{1.}}", "{a}{{2.}}", "{b}{{1.}}", "{b}{{2.}}"] := by
  have hrange : oneToTwo.values = [['1'], ['2']] := by decide +kernel
  have hkept : wrapped.kept.map String.ofList =
      ["{a}{{1.}}", "{a}{{2.}}", "{b}{{1.}}", "{b}{{2.}}"] := by
    simp [wrapped, kept, enumerate, braced, product, Sign.texts, Sign.text, hrange]
  have hnone : ∀ m ∈ wrapped.contents, ∀ cs ∈ m.kept, Alternatives.ofText? cs = none := by
    simp [wrapped, contents, kept, enumerate, braced, product, Sign.texts, Sign.text, hrange]
    decide +kernel
  have htext : String.ofList wrapped.text = "{{a,b}}{{{1..2}.}}" := by cbv
  have hlength : wrapped.values.length ≤ 4 := by
    rw [values, enumerate_congr wrapped fun m hm cs hcs => offered_of_none (hnone m hm cs hcs), ← kept,
      ← List.length_map (f := String.ofList), hkept]
    exact Nat.le_refl _
  obtain ⟨hexpand, hvalues⟩ := wrapped.expand?_nest 4 hlength
  refine ⟨hlength, hnone, ?_⟩
  rw [← htext, ← hkept, ← hvalues hnone]
  exact hexpand

/-- The nest of `{{1,2}..3}`: the pair is written as no set, but it comes to hold ranges. -/
def joined : Nest :=
  .pair (.sequence [.list (.signs [.plain '1' (.refl true)]) (.signs [.plain '2' (.refl true)]) [],
    .signs [.plain '.' (.refl true), .plain '.' (.refl true), .plain '3' (.refl true)]])

/-- Kept pairs would leave two patterns, but the ranges that these hold are expanded as well. -/
theorem expand?_joined : String.ofList joined.text = "{{1,2}..3}" ∧
    (∀ m ∈ joined.contents, Alternatives.ofText? m.text = none) ∧
    joined.kept.map String.ofList = ["{1..3}", "{2..3}"] ∧
    ∀ limit, expand? limit "{{1,2}..3}" =
      if 5 ≤ limit then some ["1", "2", "3", "2", "3"] else none := by
  have hpatterns : patterns "{{1,2}..3}" = ["1", "2", "3", "2", "3"] := by decide +kernel
  refine ⟨by cbv, ?_, by cbv, fun limit => ?_⟩
  · simp only [joined, contents, List.flatMap_cons, List.flatMap_nil, List.append_nil, List.mem_singleton,
      forall_eq, text, braced]
    decide +kernel
  · rw [expand?_eq, hpatterns]
    rfl

end Nest

end PathGlob.Brace
