/-
Text in quotes. Quotes are read as themselves and shield nothing: a flat glob in quotes accepts its own
text, but where a wildcard stands in it, it accepts others as well. So it stands for its own text alone
only if there are no wildcards between the quotes.
-/
import PathGlob.Proofs.Matcher.Answered

namespace PathGlob

open Regex

/-! ## Texts with something in place of the wildcards -/

/-- Characters put in place of wildcards. Dots, separators and line feeds are none of them, since not
every wildcard takes these everywhere. -/
structure IsFilling (f : Char → Char) : Prop where
  keeps : ∀ c, c ≠ '*' → c ≠ '?' → f c = c
  takes : ∀ c, c = '*' ∨ c = '?' → f c ≠ '.' ∧ f c ≠ '/' ∧ f c ≠ '\n'

theorem IsFilling.id : IsFilling id where
  keeps _ _ _ := rfl
  takes := by rintro _ (rfl | rfl) <;> decide

/-- An `x` in place of each wildcard. -/
theorem IsFilling.letter : IsFilling fun c => if c = '*' ∨ c = '?' then 'x' else c where
  keeps _ hstar hqmark := if_neg (not_or.2 ⟨hstar, hqmark⟩)
  takes c hc := by
    rw [if_pos hc]
    decide

namespace IsFilling

variable {f : Char → Char} {pre s : List Char}

/-- A sign other than a globstar takes what is put in its place. -/
theorem spans_flatGlyph (hf : IsFilling f) (dot : Bool) (p : Place) (c : Char) (after : List Char) :
    SpansAll false (pre ++ f c :: s).toArray (Glyph.regexes dot (flatGlyph p c after)) pre.length
      (pre.length + 1) := by
  have hget : (pre ++ f c :: s)[pre.length]? = some (f c) := by simp
  have hle : pre.length + 1 ≤ (pre ++ f c :: s).length := by simp
  unfold flatGlyph
  split
  · rw [hf.keeps _ (by decide) (by decide)] at hget ⊢
    exact Glyph.spans_separator.2 (.inl ⟨hget, rfl⟩)
  · obtain ⟨hdot, hsep, -⟩ := hf.takes '*' (.inl rfl)
    refine (Glyph.spans_star (by omega)).2 ⟨fun _ hhides => ?_, by omega, hle, fun k hk hlt => ?_⟩
    · have hhead := hhides.1
      rw [List.getElem?_toArray, hget] at hhead
      exact hdot (Option.some.inj hhead)
    · obtain rfl : k = pre.length := by omega
      exact ⟨f '*', hget, hsep⟩
  · obtain ⟨hdot, hsep, -⟩ := hf.takes '?' (.inr rfl)
    exact Glyph.spans_qmark.2 ⟨⟨f '?', hget, hsep, fun _ _ => hdot⟩, rfl⟩
  · rename_i hstar hqmark
    rw [hf.keeps c hstar hqmark] at hget ⊢
    exact Glyph.spans_char.2 ⟨hget, rfl⟩

/-- A globstar takes what is put in place of its run of `*`. -/
theorem spans_globstar (hf : IsFilling f) (dot dots : Bool) (n : Nat) :
    SpansAll false (pre ++ (List.replicate n (f '*') ++ s)).toArray
      (Glyph.regexes dot (.globstar dots)) pre.length (pre.length + n) := by
  obtain ⟨hdot, hsep, hfeed⟩ := hf.takes '*' (.inl rfl)
  refine (Glyph.spans_globstar (by simp)).2 ⟨by omega, by simp, fun k hk hlt => ?_⟩
  have hget : (pre ++ (List.replicate n (f '*') ++ s))[k]? = some (f '*') := by
    rw [List.getElem?_append_right hk, List.getElem?_append_left (by simp; omega)]
    exact List.getElem?_replicate_of_lt (by omega)
  refine ⟨⟨f '*', hget, hfeed⟩, ?_⟩
  rintro (⟨hc, -⟩ | ⟨rfl, hc, -⟩)
  · rw [List.getElem?_toArray, hget] at hc
    exact hsep (Option.some.inj hc)
  · rw [List.getElem?_toArray, hget] at hc
    exact hdot (Option.some.inj hc)

/-- The signs of a flat glob take the text that its wildcards are replaced in. -/
theorem spans_flatGlyphs (hf : IsFilling f) (dot : Bool) (p : Place) (pre cs : List Char) :
    SpansAll false (pre ++ cs.map f).toArray ((flatGlyphs p cs).flatMap (Glyph.regexes dot))
      pre.length (pre.length + cs.length) := by
  fun_induction flatGlyphs p cs generalizing pre with
  | case1 => rfl
  | case2 p c cs hrun ih =>
    obtain ⟨rfl, -⟩ := hrun
    -- the globstar stands for the whole run of `*`, and so does what is put in its place
    obtain ⟨n, hn⟩ : ∃ n, cs = List.replicate n '*' ++ cs.dropWhile (· = '*') := by
      have hall : ∀ c ∈ cs.takeWhile (· = '*'), c = '*' := fun c hc => by
        simpa using List.all_eq_true.1 List.all_takeWhile c hc
      refine ⟨(cs.takeWhile (· = '*')).length, ?_⟩
      rw [← List.eq_replicate_of_mem hall, List.takeWhile_append_dropWhile]
    generalize cs.dropWhile (· = '*') = rest at hn ih ⊢
    have htext : ('*' :: cs).map f = List.replicate (n + 1) (f '*') ++ rest.map f := by
      rw [hn, List.map_cons, List.map_append, List.map_replicate, List.replicate_succ, List.cons_append]
    have hlength : ('*' :: cs).length = n + 1 + rest.length := by
      rw [hn]
      simp
      omega
    have hrest := ih (pre ++ List.replicate (n + 1) (f '*'))
    rw [List.append_assoc, List.length_append, List.length_replicate] at hrest
    rw [List.flatMap_cons, spansAll_append, htext, hlength, ← Nat.add_assoc]
    exact ⟨_, hf.spans_globstar dot p.dots (n + 1), hrest⟩
  | case3 p c cs hrun ih =>
    have hrest := ih (pre ++ [f c])
    rw [List.append_assoc, List.length_append, List.length_singleton] at hrest
    rw [List.flatMap_cons, spansAll_append, List.length_cons, Nat.add_comm cs.length,
      ← Nat.add_assoc]
    exact ⟨_, hf.spans_flatGlyph dot p c cs, hrest⟩

/-- So a flat glob as a whole takes such a text from end to end. -/
theorem spans_whole (hf : IsFilling f) (dot : Bool) (cs : List Char) :
    SpansAll false (cs.map f).toArray ((flatGlyphs {} cs).flatMap (Glyph.regexes dot)) 0
      (cs.map f).length := by
  have hspans := hf.spans_flatGlyphs dot {} [] cs
  rwa [List.nil_append, List.length_nil, Nat.zero_add, ← List.length_map f] at hspans

end IsFilling

/-- A flat glob without wildcards consists of its characters. -/
theorem regexes_plain {cs : List Char} (h : ∀ c ∈ cs, c ≠ '*' ∧ c ≠ '?') (dot : Bool) :
    (flatGlyphs {} cs).flatMap (Glyph.regexes dot) = cs.map Regex.char := by
  rw [flatGlyphs_plain h rfl]
  exact Option.some.inj ((Part.regexes?_glyphs dot _).symm.trans (regexes?_textGlyphs dot cs))

/-! ## Globs in quotes -/

section Quoted

variable {text : String}

theorem toList_quoted (text : String) :
    ("\"" ++ text ++ "\"").toList = '"' :: (text.toList ++ ['"']) := by
  simp

theorem mem_quoted {c : Char} : c ∈ ("\"" ++ text ++ "\"").toList ↔ c = '"' ∨ c ∈ text.toList := by
  rw [toList_quoted, List.mem_cons, List.mem_append, List.mem_singleton]
  constructor
  · rintro (hc | hc | hc)
    · exact .inl hc
    · exact .inr hc
    · exact .inl hc
  · rintro (hc | hc)
    · exact .inl hc
    · exact .inr (.inl hc)

/-- A flat glob in quotes has a matcher, which accepts what its signs match: a text that begins with a
quote passes every guard. -/
theorem Matcher.exists_of_quoted (hflat : ∀ c ∈ text.toList, isFlat c = true)
    (hlen : ("\"" ++ text ++ "\"").length ≤ 65536) :
    ∃ m, Matcher.ofPattern {} ("\"" ++ text ++ "\"") = .ok m ∧
      ∀ candidate, m.accepts candidate = true ↔
        SpansAll false candidate.toList.toArray
          ((flatGlyphs {} ("\"" ++ text ++ "\"").toList).flatMap (Glyph.regexes false)) 0
          candidate.toList.length := by
  have hall : ∀ c ∈ ("\"" ++ text ++ "\"").toList, isFlat c = true := by
    intro c hc
    rcases mem_quoted.1 hc with rfl | hc
    · rfl
    · exact hflat c hc
  obtain ⟨out, m, -, hm, haccepts⟩ := Matcher.exists_of_flat (o := {}) hlen hall
    (by simp) (by simp) rfl rfl rfl rfl rfl
  refine ⟨m, hm, fun candidate => ?_⟩
  rw [haccepts]
  refine and_iff_right_of_imp fun hspans _ => ?_
  rw [toList_quoted, flatGlyphs, if_neg (by simp), List.flatMap_cons, spansAll_append] at hspans
  obtain ⟨k, hquote, -⟩ := hspans
  obtain ⟨hget, -⟩ := Glyph.spans_char.1 hquote
  rw [Fragment.hides_false, List.getElem?_toArray, hget]
  decide

end Quoted

/-- A flat glob in quotes has a matcher, which accepts the glob's text with its quotes unless the search is
given up; and where searches come to their ends it accepts nothing else if and only if no wildcard is
between the quotes. -/
theorem Matcher.accepts_quoted (text : String) (hflat : ∀ c ∈ text.toList, isFlat c = true)
    (hlen : ("\"" ++ text ++ "\"").length ≤ 65536) :
    ∃ m, Matcher.ofPattern {} ("\"" ++ text ++ "\"") = .ok m ∧
      (∀ e : Engine, m.isMatch e ("\"" ++ text ++ "\"") = m.isAnswered e ("\"" ++ text ++ "\"")) ∧
      ((∀ candidate, m.accepts candidate = true ↔ candidate = "\"" ++ text ++ "\"") ↔
        ∀ c ∈ text.toList, c ≠ '*' ∧ c ≠ '?') := by
  obtain ⟨m, hm, haccepts⟩ := Matcher.exists_of_quoted hflat hlen
  have hown : m.accepts ("\"" ++ text ++ "\"") = true := by
    rw [haccepts]
    have hspans := IsFilling.id.spans_whole false ("\"" ++ text ++ "\"").toList
    rwa [List.map_id] at hspans
  have hbrace : '{' ∉ ("\"" ++ text ++ "\"").toList := fun hc =>
    (mem_quoted.1 hc).elim (by decide) fun hc => absurd (hflat _ hc) (by decide)
  refine ⟨m, hm, fun e => ?_, ?_⟩
  · rw [isMatch_eq rfl (expansions_of_ok hbrace hm) hm, hown, Bool.and_true]
  constructor
  · -- an `x` in place of a wildcard makes another text that is accepted
    intro hall c hc
    have hother := IsFilling.letter.spans_whole false ("\"" ++ text ++ "\"").toList
    rw [← String.toList_ofList (l := List.map _ _), ← haccepts, hall, ← String.toList_inj,
      String.toList_ofList] at hother
    have hsame := List.map_eq_map_iff.1 (hother.trans (List.map_id _).symm) c
      (mem_quoted.2 (.inr hc))
    rw [← not_or]
    intro hwild
    rw [if_pos hwild, id_eq] at hsame
    subst hsame
    exact absurd hwild (by decide)
  · intro hplain candidate
    have hnone : ∀ c ∈ ("\"" ++ text ++ "\"").toList, c ≠ '*' ∧ c ≠ '?' := by
      intro c hc
      rcases mem_quoted.1 hc with rfl | hc
      · decide
      · exact hplain c hc
    rw [haccepts, regexes_plain hnone, spansAll_chars (Nat.zero_le _), List.drop_zero,
      String.toList_inj]

/-- What means something in front of a glob or between delimiters stands for itself in quotes. -/
theorem Matcher.accepts_quoted_signs : ∃ m, Matcher.ofPattern {} "\"!a/.b|+@:\"" = .ok m ∧
    ∀ candidate, m.accepts candidate = true ↔ candidate = "\"!a/.b|+@:\"" := by
  obtain ⟨m, hm, -, hall⟩ := Matcher.accepts_quoted "!a/.b|+@:" (by simp [isFlat]) (by decide)
  exact ⟨m, hm, hall.2 (by simp)⟩

/-- A star in quotes is a wildcard. -/
theorem Matcher.accepts_quoted_star : ∃ m, Matcher.ofPattern {} ("\"" ++ "*" ++ "\"") = .ok m ∧
    m.accepts "\"x\"" = true ∧
    ¬ ∀ candidate, m.accepts candidate = true ↔ candidate = "\"" ++ "*" ++ "\"" := by
  obtain ⟨m, hm, haccepts⟩ : ∃ m, Matcher.ofPattern {} ("\"" ++ "*" ++ "\"") = .ok m ∧
      m.accepts "\"x\"" = true := exists_ok_of_any (by decide +kernel)
  refine ⟨m, hm, haccepts, fun hall => ?_⟩
  exact absurd ((hall _).1 haccepts) (by decide)

end PathGlob
