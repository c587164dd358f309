/-
Brace sets by their structure: text, sequences, lists of alternatives and ranges, nested at will. A
tree is spelled with braces and commas, and it stands for texts: a list for those of its alternatives
one after the other, a sequence for the product of its parts, the first of which varies slowest. The
expansion of a tree's text, which replaces the first set of a flat text over and over, finds exactly
what the tree stands for, in that order.
-/
import PathGlob.Proofs.Brace.Limit
import PathGlob.Proofs.Brace.Range

namespace PathGlob.Brace

/-! ## Text -/

/-- A sign of a text: a character that means nothing to brace sets, or any one behind a backslash. -/
inductive Sign where
  | plain (c : Char) (h : isPlain c = true)
  | escaped (c : Char)

/-- How a sign is written. -/
def Sign.text : Sign → List Char
  | plain c _ => [c]
  | escaped c => ['\\', c]

/-- How signs are written. -/
def Sign.texts (ss : List Sign) : List Char := ss.flatMap text

/-- A text without anything that brace sets have a meaning for is one of signs. -/
theorem Sign.exists_texts {cs : List Char} (h : ∀ c ∈ cs, isPlain c = true) :
    ∃ ss, texts ss = cs := by
  induction cs with
  | nil => exact ⟨[], rfl⟩
  | cons c cs ih =>
    obtain ⟨ss, hss⟩ := ih fun d hd => h d (List.mem_cons_of_mem _ hd)
    exact ⟨plain c (h c List.mem_cons_self) :: ss, congrArg (c :: ·) hss⟩

/-! ## Trees -/

/-- Each of some texts before each of others; the former vary slowest. -/
def product (vs ws : List (List Char)) : List (List Char) := vs.flatMap fun v => ws.map (v ++ ·)

/-- The structure of a text with brace sets. A list has two alternatives at least. -/
inductive Tree where
  | signs (ss : List Sign)
  | sequence (ts : List Tree)
  | list (first second : Tree) (others : List Tree)
  | numbers (s : NumberSet)
  | letters (s : LetterSet)

namespace Tree

/-- How a tree is written. -/
def text : Tree → List Char
  | signs ss => Sign.texts ss
  | sequence ts => ts.flatMap text
  | list first second others =>
    '\x7b' :: first.text ++ ',' :: second.text ++ (others.flatMap fun t => ',' :: t.text) ++ ['\x7d']
  | numbers s => '\x7b' :: s.text ++ ['\x7d']
  | letters s => '\x7b' :: s.text ++ ['\x7d']

/-- The texts that a tree stands for, in order. -/
def values : Tree → List (List Char)
  | signs ss => [Sign.texts ss]
  | sequence ts => (ts.map values).foldr product [[]]
  | list first second others => first.values ++ second.values ++ others.flatMap values
  | numbers s => s.values
  | letters s => s.values

/-- What holds of a tree if it holds of its parts holds of every tree. -/
theorem induct {P : Tree → Prop} (signs : ∀ ss, P (.signs ss))
    (sequence : ∀ ts, (∀ t ∈ ts, P t) → P (.sequence ts))
    (list : ∀ first second others, P first → P second → (∀ t ∈ others, P t) →
      P (.list first second others))
    (numbers : ∀ s, P (.numbers s)) (letters : ∀ s, P (.letters s)) : ∀ t, P t
  | .signs ss => signs ss
  | .sequence ts => sequence ts fun t _ => induct signs sequence list numbers letters t
  | .list first second others =>
    list first second others (induct signs sequence list numbers letters first)
      (induct signs sequence list numbers letters second)
      fun t _ => induct signs sequence list numbers letters t
  | .numbers s => numbers s
  | .letters s => letters s

end Tree

/-! ## Balanced texts -/

theorem consPart_consPart (as bs : List Char) (ps : List (List Char)) :
    consPart as (consPart bs ps) = consPart (as ++ bs) ps := by
  cases ps with
  | nil => rfl
  | cons p ps => simp [consPart]

theorem consPart_ne_nil (cs : List Char) (ps : List (List Char)) : consPart cs ps ≠ [] := by
  cases ps <;> exact List.cons_ne_nil _ _

theorem parts_ne_nil (depth : Nat) (cs : List Char) : parts depth cs ≠ [] := by
  unfold parts
  split <;> first | exact consPart_ne_nil _ _ | exact List.cons_ne_nil _ _

theorem enclosed?_char {c : Char} (h : c ≠ '\\' ∧ c ≠ '\x7b' ∧ c ≠ '\x7d') (depth : Nat)
    (cs : List Char) :
    enclosed? depth (c :: cs) = (enclosed? depth cs).map fun (b, r) => (c :: b, r) := by
  rw [enclosed?]
  all_goals (intros; simp_all)

theorem parts_char {c : Char} (h : c ≠ '\\' ∧ c ≠ '\x7b' ∧ c ≠ '\x7d') {depth : Nat}
    (hcomma : c = ',' → 0 < depth) (cs : List Char) :
    parts depth (c :: cs) = consPart [c] (parts depth cs) := by
  rw [parts]
  all_goals (intros; simp_all)

/-- A text in which every brace has its partner. Its commas separate parts only where fewer braces
than `least` are open around it. -/
structure Balanced (least : Nat) (cs : List Char) : Prop where
  enclosed : ∀ depth rest, enclosed? depth (cs ++ rest) =
    (enclosed? depth rest).map fun (b, r) => (cs ++ b, r)
  parts : ∀ depth rest, least ≤ depth → parts depth (cs ++ rest) = consPart cs (parts depth rest)

namespace Balanced

variable {least : Nat} {cs ds : List Char}

theorem nil : Balanced least [] where
  enclosed depth rest := by simp
  parts depth rest _ := by
    obtain ⟨p, ps, hps⟩ := List.exists_cons_of_ne_nil (parts_ne_nil depth rest)
    rw [List.nil_append, hps]
    rfl

theorem append (h : Balanced least cs) (h' : Balanced least ds) : Balanced least (cs ++ ds) where
  enclosed depth rest := by
    rw [List.append_assoc, h.enclosed, h'.enclosed, Option.map_map]
    congr 1
    funext p
    simp
  parts depth rest hd := by
    rw [List.append_assoc, h.parts _ _ hd, h'.parts _ _ hd, consPart_consPart]

theorem mono (h : Balanced 0 cs) : Balanced least cs where
  enclosed := h.enclosed
  parts depth rest _ := h.parts depth rest (Nat.zero_le _)

theorem flatMap {α : Type} {f : α → List Char} {as : List α}
    (h : ∀ a ∈ as, Balanced least (f a)) : Balanced least (as.flatMap f) := by
  induction as with
  | nil => exact nil
  | cons a as ih =>
    rw [List.flatMap_cons]
    exact (h a List.mem_cons_self).append (ih fun b hb => h b (List.mem_cons_of_mem _ hb))

theorem sign (s : Sign) : Balanced least s.text where
  enclosed depth rest := by
    cases s with
    | plain c h =>
      obtain ⟨h1, h2, h3, -⟩ := isPlain_iff.1 h
      exact enclosed?_char ⟨h1, h2, h3⟩ depth rest
    | escaped c => rfl
  parts depth rest hd := by
    cases s with
    | plain c h =>
      obtain ⟨h1, h2, h3, h4⟩ := isPlain_iff.1 h
      exact parts_char ⟨h1, h2, h3⟩ (fun hc => absurd hc h4) rest
    | escaped c => rfl

theorem signs (ss : List Sign) : Balanced least (Sign.texts ss) := flatMap fun s _ => sign s

/-- A comma inside braces separates nothing around them. -/
theorem comma : Balanced 1 [','] where
  enclosed depth rest := enclosed?_char (by decide) depth rest
  parts depth rest hd := parts_char (by decide) (fun _ => hd) rest

theorem pair (h : Balanced 1 cs) : Balanced least ('\x7b' :: cs ++ ['\x7d']) where
  enclosed depth rest := by
    have hopen (cs : List Char) : enclosed? depth ('\x7b' :: cs) =
        (enclosed? (depth + 1) cs).map fun (b, r) => ('\x7b' :: b, r) := rfl
    have hclose : enclosed? (depth + 1) ('\x7d' :: rest) =
        (enclosed? depth rest).map fun (b, r) => ('\x7d' :: b, r) := rfl
    rw [List.append_assoc, List.cons_append, hopen, h.enclosed, List.singleton_append, hclose,
      Option.map_map, Option.map_map]
    congr 1
    funext p
    simp
  parts depth rest hd := by
    have hopen (cs : List Char) :
        Brace.parts depth ('\x7b' :: cs) = consPart ['\x7b'] (Brace.parts (depth + 1) cs) := by
      rw [Brace.parts]
    have hclose :
        Brace.parts (depth + 1) ('\x7d' :: rest) = consPart ['\x7d'] (Brace.parts depth rest) := by
      rw [Brace.parts]
      rfl
    rw [List.append_assoc, List.cons_append, hopen, h.parts _ _ (Nat.le_add_left ..),
      List.singleton_append, hclose, consPart_consPart, consPart_consPart]
    rfl

end Balanced

/-! ## Expanding text -/

theorem Located.patterns_behind (cs : List Char) (l : Located) :
    (l.behind cs).patterns = l.patterns.map (cs ++ ·) := by
  unfold patterns behind
  rw [List.map_map]
  apply List.map_congr_left
  intro v _
  simp [replaced, List.append_assoc]

/-- What is passed over in the search of a set stays in front of all that the rest stands for. -/
theorem expansions_behind {cs : List Char}
    (h : ∀ rest, firstSet? (cs ++ rest) = (firstSet? rest).map (.behind cs)) (rest : List Char) :
    expansions (cs ++ rest) = (expansions rest).map (cs ++ ·) := by
  induction rest using expansions_induction with
  | plain rest hnone =>
    have hbehind : firstSet? (cs ++ rest) = none := by rw [h, hnone, Option.map_none]
    rw [expansions_of_none hnone, expansions_of_none hbehind]
    rfl
  | set rest l hl ih =>
    have hbehind : firstSet? (cs ++ rest) = some (l.behind cs) := by rw [h, hl, Option.map_some]
    rw [expansions_of_some hl, expansions_of_some hbehind, Located.patterns_behind,
      List.flatMap_map, List.map_flatMap]
    apply List.flatMap_congr
    intro q hq
    exact ih q hq

theorem firstSet?_sign (s : Sign) (rest : List Char) :
    firstSet? (s.text ++ rest) = (firstSet? rest).map (.behind s.text) := by
  cases s with
  | escaped c => rfl
  | plain c h =>
    obtain ⟨hescape, hbrace, -⟩ := isPlain_iff.1 h
    change firstSet? (c :: rest) = _
    rw [firstSet?]
    · rfl
    · rintro _ _ rfl
      exact absurd rfl hescape
    · exact hbrace

theorem expansions_signs (ss : List Sign) (rest : List Char) :
    expansions (Sign.texts ss ++ rest) = (expansions rest).map (Sign.texts ss ++ ·) := by
  induction ss with
  | nil => simp [Sign.texts]
  | cons s ss ih =>
    have hcons : Sign.texts (s :: ss) = s.text ++ Sign.texts ss := List.flatMap_cons
    rw [hcons, List.append_assoc, expansions_behind (firstSet?_sign s), ih, List.map_map]
    apply List.map_congr_left
    intro v _
    simp [List.append_assoc]

/-! ## Expanding sets -/

/-- A brace begins a set with what is between it and its partner. -/
theorem setHere?_balanced {body : List Char} (hbody : Balanced 1 body) (rest : List Char) :
    setHere? (body ++ '\x7d' :: rest) = (Alternatives.ofText? body).map fun a => ⟨[], a, rest⟩ := by
  have hclose : enclosed? 0 ('\x7d' :: rest) = some ([], rest) := rfl
  unfold setHere?
  rw [hbody.enclosed, hclose, Option.map_some]
  simp only [List.append_nil]

/-- A set at the start is replaced by each of its alternatives in turn. -/
theorem expansions_set {body : List Char} {a : Alternatives} (hbody : Balanced 1 body)
    (ha : Alternatives.ofText? body = some a) (rest : List Char) :
    expansions ('\x7b' :: body ++ ['\x7d'] ++ rest) =
      a.values.flatMap fun v => expansions (v ++ rest) := by
  have hfirst : firstSet? ('\x7b' :: body ++ ['\x7d'] ++ rest) = some ⟨[], a, rest⟩ := by
    rw [List.append_assoc, List.cons_append, List.singleton_append, firstSet?, setHere?_balanced hbody,
      ha, Option.map_some]
  rw [expansions_of_some hfirst, Located.patterns, List.flatMap_map]
  rfl

theorem Balanced.list {p : List Char} {ps : List (List Char)} (h : ∀ q ∈ p :: ps, Balanced 0 q) :
    Balanced 1 (p ++ ps.flatMap (',' :: ·)) := by
  apply (h p List.mem_cons_self).mono.append
  apply Balanced.flatMap
  intro q hq
  exact Balanced.comma.append (h q (List.mem_cons_of_mem _ hq)).mono

/-- The texts of the parts of a list, which commas separate. -/
theorem parts_list {p : List Char} {ps : List (List Char)} (h : ∀ q ∈ p :: ps, Balanced 0 q) :
    parts 0 (p ++ ps.flatMap (',' :: ·)) = p :: ps := by
  induction ps generalizing p with
  | nil =>
    rw [List.flatMap_nil, (h p List.mem_cons_self).parts 0 [] le_rfl]
    simp [parts, consPart]
  | cons q ps ih =>
    have hcomma (cs : List Char) : parts 0 (',' :: cs) = [] :: parts 0 cs := by
      rw [parts]
    have hps := ih fun r hr => h r (List.mem_cons_of_mem _ hr)
    rw [List.flatMap_cons, (h p List.mem_cons_self).parts 0 _ le_rfl, List.cons_append, hcomma, hps]
    simp [consPart]

/-- What has a comma is no range. -/
theorem Alternatives.ofText?_list {p q : List Char} {ps : List (List Char)}
    (h : ∀ r ∈ p :: q :: ps, Balanced 0 r) :
    ofText? (p ++ (q :: ps).flatMap (',' :: ·)) = some (.list (p :: q :: ps)) := by
  have hcomma : ',' ∈ p ++ (q :: ps).flatMap (',' :: ·) := by simp
  have hplain : ¬ isPlain ',' = true := by decide
  have hnumbers : NumberRange.ofText? (p ++ (q :: ps).flatMap (',' :: ·)) = none := by
    rw [Option.eq_none_iff_forall_ne_some]
    intro r hr
    exact hplain (NumberRange.isPlain_of_ofText? hr _ hcomma)
  have hletters : LetterRange.ofText? (p ++ (q :: ps).flatMap (',' :: ·)) = none := by
    rw [Option.eq_none_iff_forall_ne_some]
    intro r hr
    exact hplain (LetterRange.isPlain_of_ofText? hr _ hcomma)
  unfold ofText?
  rw [hnumbers, hletters, parts_list h]

/-- Alternatives without sets in them are put in front of what the rest stands for. -/
theorem flatMap_expansions {vs : List (List Char)} (h : ∀ v ∈ vs, ∃ ss, Sign.texts ss = v)
    (rest : List Char) :
    (vs.flatMap fun v => expansions (v ++ rest)) = product vs (expansions rest) := by
  unfold product
  apply List.flatMap_congr
  intro v hv
  obtain ⟨ss, rfl⟩ := h v hv
  exact expansions_signs ss rest

/-! ## Products -/

theorem product_nil_left (ws : List (List Char)) : product [[]] ws = ws := by
  simp [product]

theorem product_nil_right (vs : List (List Char)) : product vs [[]] = vs := by
  simp [product]

theorem product_assoc (us vs ws : List (List Char)) :
    product (product us vs) ws = product us (product vs ws) := by
  unfold product
  rw [List.flatMap_assoc]
  apply List.flatMap_congr
  intro u _
  rw [List.flatMap_map, List.map_flatMap]
  apply List.flatMap_congr
  intro v _
  simp [List.append_assoc]

theorem product_append (us vs ws : List (List Char)) :
    product (us ++ vs) ws = product us ws ++ product vs ws := List.flatMap_append

theorem product_flatMap {α : Type} (as : List α) (f : α → List (List Char))
    (ws : List (List Char)) : product (as.flatMap f) ws = as.flatMap fun a => product (f a) ws :=
  List.flatMap_assoc

/-! ## The values of ranges -/

theorem isPlain_written (width : Nat) (n : Int) : ∀ c ∈ written width n, isPlain c = true := by
  have hpadded (width n : Nat) : ∀ c ∈ zeroPadded width n, isPlain c = true := by
    intro c hc
    exact isPlain_of_isAlphanum (isAlphanum_of_isDigit (isDigit_of_mem_zeroPadded hc))
  intro c hc
  unfold written at hc
  split at hc
  · rcases List.mem_cons.1 hc with rfl | hc
    · decide
    · exact hpadded _ _ c hc
  · exact hpadded _ _ c hc

theorem NumberRange.exists_texts (r : NumberRange) : ∀ v ∈ r.values, ∃ ss, Sign.texts ss = v := by
  intro v hv
  obtain ⟨k, -, rfl⟩ := List.mem_map.1 hv
  exact Sign.exists_texts (isPlain_written _ _)

theorem LetterRange.exists_texts (r : LetterRange) : ∀ v ∈ r.values, ∃ ss, Sign.texts ss = v := by
  have hletter (c : Char) :
      ∃ ss, Sign.texts ss = if c.isAlphanum then [c] else ['\\', c] := by
    by_cases h : c.isAlphanum = true
    · rw [if_pos h]
      exact ⟨[.plain c (isPlain_of_isAlphanum h)], rfl⟩
    · rw [if_neg h]
      exact ⟨[.escaped c], rfl⟩
  intro v hv
  obtain ⟨k, -, rfl⟩ := List.mem_map.1 hv
  exact hletter _

theorem NumberSet.exists_texts (s : NumberSet) : ∀ v ∈ s.values, ∃ ss, Sign.texts ss = v := by
  rw [← s.values_range]
  exact s.range.exists_texts

theorem LetterSet.exists_texts (s : LetterSet) : ∀ v ∈ s.values, ∃ ss, Sign.texts ss = v := by
  rw [← s.values_range]
  exact s.range.exists_texts

/-! ## Expanding trees -/

theorem NumberSet.alternatives (s : NumberSet) :
    Alternatives.ofText? s.text = some (.numbers s.range) := by
  unfold Alternatives.ofText?
  rw [s.ofText?_text]

theorem LetterSet.alternatives (s : LetterSet) :
    Alternatives.ofText? s.text = some (.letters s.range) := by
  unfold Alternatives.ofText?
  rw [s.not_number, s.ofText?_text]

theorem NumberSet.balanced {least : Nat} (s : NumberSet) : Balanced least s.text := by
  obtain ⟨ss, hss⟩ := Sign.exists_texts (NumberRange.isPlain_of_ofText? s.ofText?_text)
  rw [← hss]
  exact .signs ss

theorem LetterSet.balanced {least : Nat} (s : LetterSet) : Balanced least s.text := by
  obtain ⟨ss, hss⟩ := Sign.exists_texts (LetterRange.isPlain_of_ofText? s.ofText?_text)
  rw [← hss]
  exact .signs ss

namespace Tree

/-- The text of a list between its braces. -/
theorem text_list (first second : Tree) (others : List Tree) : (list first second others).text =
    '\x7b' :: (first.text ++ (second.text :: others.map text).flatMap (',' :: ·)) ++ ['\x7d'] := by
  simp [text, List.flatMap_map]

theorem balanced (t : Tree) : Balanced 0 t.text := by
  induction t using Tree.induct with
  | signs ss =>
    rw [text]
    exact .signs ss
  | sequence ts ih =>
    rw [text]
    exact .flatMap ih
  | list first second others hfirst hsecond hothers =>
    rw [text_list]
    apply Balanced.pair
    apply Balanced.list
    intro p hp
    simp only [List.mem_cons, List.mem_map] at hp
    rcases hp with rfl | rfl | ⟨t, ht, rfl⟩
    · exact hfirst
    · exact hsecond
    · exact hothers t ht
  | numbers s =>
    rw [text]
    exact s.balanced.pair
  | letters s =>
    rw [text]
    exact s.balanced.pair

/-- The text of a tree stands for the values of the tree, each before what the text behind it stands
for. -/
theorem expansions_text (t : Tree) (rest : List Char) :
    expansions (t.text ++ rest) = product t.values (expansions rest) := by
  induction t using Tree.induct generalizing rest with
  | signs ss =>
    rw [text, values, expansions_signs, product, List.flatMap_singleton]
  | sequence ts ih =>
    rw [text, values]
    induction ts with
    | nil => exact (product_nil_left _).symm
    | cons t ts ihs =>
      rw [List.flatMap_cons, List.append_assoc, ih t List.mem_cons_self,
        ihs fun u hu => ih u (List.mem_cons_of_mem _ hu), List.map_cons, List.foldr_cons,
        product_assoc]
  | list first second others hfirst hsecond hothers =>
    have hbalanced : ∀ p ∈ first.text :: second.text :: others.map text, Balanced 0 p := by
      intro p hp
      simp only [List.mem_cons, List.mem_map] at hp
      rcases hp with rfl | rfl | ⟨t, -, rfl⟩
      · exact first.balanced
      · exact second.balanced
      · exact t.balanced
    -- the commas inside the alternatives are between their braces, so the parts are the alternatives
    have hlist := Alternatives.ofText?_list hbalanced
    rw [text_list, expansions_set (Balanced.list hbalanced) hlist]
    change (first.text :: second.text :: others.map text).flatMap _ = _
    rw [List.flatMap_cons, List.flatMap_cons, List.flatMap_map, hfirst, hsecond, values,
      product_append, product_append, product_flatMap, List.append_assoc]
    congr 2
    apply List.flatMap_congr
    intro t ht
    exact hothers t ht rest
  | numbers s =>
    rw [text, values, expansions_set s.balanced s.alternatives]
    change s.range.values.flatMap _ = _
    rw [s.values_range, flatMap_expansions s.exists_texts]
  | letters s =>
    rw [text, values, expansions_set s.balanced s.alternatives]
    change s.range.values.flatMap _ = _
    rw [s.values_range, flatMap_expansions s.exists_texts]

/-- A tree's text expands to just the values of the tree, in their order, under every limit that has
room for them. -/
theorem expand?_text (t : Tree) (limit : Nat) (h : t.values.length ≤ limit) :
    expand? limit (String.ofList t.text) = some (t.values.map String.ofList) := by
  have hvalues : patterns (String.ofList t.text) = t.values.map String.ofList := by
    have hall := t.expansions_text []
    have hempty : expansions [] = [[]] := expansions_of_none rfl
    rw [List.append_nil, hempty, product_nil_right] at hall
    rw [patterns, String.toList_ofList, hall]
  rw [expand?_eq, hvalues, if_pos (by simpa using h)]

/-- The range `9..10`. -/
def nineToTen : NumberSet where
  first := ⟨false, ['9'], by decide, by decide, by decide⟩
  last := ⟨false, ['1', '0'], by decide, by decide, by decide⟩

/-- The tree of `\,{,{a,b}c,9..10}{9..10}`: a list inside a list, where what looks like a range is
text, and a range behind it. -/
def nested : Tree :=
  .sequence [.signs [.escaped ','],
    .list (.signs [])
      (.sequence [.list (.signs [.plain 'a' rfl]) (.signs [.plain 'b' rfl]) [],
        .signs [.plain 'c' rfl]])
      [.signs [.plain '9' rfl, .plain '.' rfl, .plain '.' rfl, .plain '1' rfl, .plain '0' rfl]],
    .numbers nineToTen]

theorem expand?_nested : nested.values.length ≤ 8 ∧
    expand? 8 "\\,{,{a,b}c,9..10}{9..10}" =
      some ["\\,9", "\\,10", "\\,ac9", "\\,ac10", "\\,bc9", "\\,bc10", "\\,9..109", "\\,9..1010"] := by
  have hrange : nineToTen.values = [['9'], ['1', '0']] := by decide +kernel
  have htext : String.ofList nested.text = "\\,{,{a,b}c,9..10}{9..10}" := by cbv
  have hvalues : nested.values.map String.ofList =
      ["\\,9", "\\,10", "\\,ac9", "\\,ac10", "\\,bc9", "\\,bc10", "\\,9..109", "\\,9..1010"] := by
    simp [nested, values, product, Sign.texts, Sign.text, hrange]
  have hlength : nested.values.length ≤ 8 := by
    rw [← List.length_map (f := String.ofList), hvalues]
    exact Nat.le_refl _
  refine ⟨hlength, ?_⟩
  rw [← htext, ← hvalues]
  exact nested.expand?_text 8 hlength

end Tree
end PathGlob.Brace
