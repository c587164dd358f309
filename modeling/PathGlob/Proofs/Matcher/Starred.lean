/-
A star and a globstar in the same place. Between texts without wildcards a globstar takes whatever a star
takes, a line feed excepted: the star takes any character but a separator, the globstar any character but
a line feed.
-/
import PathGlob.Proofs.Matcher.Members
import PathGlob.Proofs.Matcher.Single
import PathGlob.Proofs.Regex.Language

namespace PathGlob

open Regex

/-- Whether a character stands for itself in a path and is neither a dot nor a line feed: letters, digits and
separators, among others. -/
def isPathText (c : Char) : Bool := isFlat c && c ∉ ['*', '?', '!', '.', '\n']

section Signs

variable {p : Place} {s cs ds : List Char} {i j : Nat}

theorem isPathText_iff {c : Char} : isPathText c = true ↔
    isFlat c = true ∧ c ≠ '*' ∧ c ≠ '?' ∧ c ≠ '!' ∧ c ≠ '.' ∧ c ≠ '\n' := by
  simp [isPathText]

theorem flatGlyph_text {c : Char} (hc : isPathText c = true) (p : Place) (after : List Char) :
    flatGlyph p c after = if c = '/' then .separator p.isGlobstar else .char c := by
  obtain ⟨-, hstar, hqmark, -⟩ := isPathText_iff.1 hc
  unfold flatGlyph
  split
  · rw [if_pos rfl]
  · exact absurd rfl hstar
  · exact absurd rfl hqmark
  · rename_i hsep _ _
    rw [if_neg hsep]

theorem flatGlyphs_text_cons {c : Char} (hc : isPathText c = true) (p : Place) (cs : List Char) :
    flatGlyphs p (c :: cs) =
      (if c = '/' then .separator p.isGlobstar else .char c) :: flatGlyphs (p.next c) cs := by
  rw [flatGlyphs, if_neg fun h => (isPathText_iff.1 hc).2.1 h.1, flatGlyph_text hc]

/-- Text without wildcards leads to a place in no globstar and behind no dot. -/
theorem Place.next_text {c : Char} (hc : isPathText c = true) (hp : p.isGlobstar = false)
    (hdots : p.dots = false) : (p.next c).isGlobstar = false ∧ (p.next c).dots = false := by
  obtain ⟨-, -, -, -, hdot, -⟩ := isPathText_iff.1 hc
  unfold next
  split
  · exact ⟨rfl, hdots⟩
  · exact absurd rfl hdot
  · exact ⟨hp, hdots⟩

/-- Text without wildcards is read as itself, and what follows as what it is there. -/
theorem flatGlyphs_text_append (hcs : ∀ c ∈ cs, isPathText c = true) (hp : p.isGlobstar = false)
    (hdots : p.dots = false) : ∃ q : Place, q.isGlobstar = false ∧ q.dots = false ∧
      ∀ ds, flatGlyphs p (cs ++ ds) = textGlyphs cs ++ flatGlyphs q ds := by
  induction cs generalizing p with
  | nil => exact ⟨p, hp, hdots, fun _ => rfl⟩
  | cons c cs ih =>
    have hc := hcs c List.mem_cons_self
    obtain ⟨hp', hdots'⟩ := p.next_text hc hp hdots
    obtain ⟨q, hq, hqdots, h⟩ := ih (fun x hx => hcs x (List.mem_cons_of_mem c hx)) hp' hdots'
    refine ⟨q, hq, hqdots, fun ds => ?_⟩
    rw [List.cons_append, flatGlyphs_text_cons hc, h ds, hp]
    rfl

theorem regexes_textGlyphs (dot : Bool) (cs : List Char) :
    (textGlyphs cs).flatMap (Glyph.regexes dot) = cs.map Regex.char :=
  Option.some.inj ((Part.regexes?_glyphs dot _).symm.trans (regexes?_textGlyphs dot cs))

/-- The signs of a text without wildcards take the text, also where a separator may be missing. -/
theorem spansAll_flatGlyphs_text {dot : Bool} (hcs : ∀ c ∈ cs, isPathText c = true)
    (h : SpansAll false s.toArray (cs.map Regex.char) i j) :
    SpansAll false s.toArray ((flatGlyphs p cs).flatMap (Glyph.regexes dot)) i j := by
  induction cs generalizing p i with
  | nil =>
    rw [flatGlyphs]
    exact h
  | cons c cs ih =>
    obtain ⟨k, hk, h⟩ := spansAll_cons.1 h
    rw [flatGlyphs_text_cons (hcs c List.mem_cons_self), List.flatMap_cons, spansAll_append]
    refine ⟨k, ?_, ih (fun x hx => hcs x (List.mem_cons_of_mem c hx)) h⟩
    have hchar : SpansAll false s.toArray (Glyph.regexes dot (.char c)) i k := spansAll_singleton.2 hk
    split
    · rename_i hsep
      subst hsep
      exact Glyph.spans_separator.2 (.inl (Glyph.spans_char.1 hchar))
    · exact hchar

/-- They take no line feed. -/
theorem notMem_of_spansAll_flatGlyphs {dot : Bool} (hcs : ∀ c ∈ cs, isPathText c = true)
    (h : SpansAll false s.toArray ((flatGlyphs p cs).flatMap (Glyph.regexes dot)) i j) :
    i ≤ j ∧ ∀ k, i ≤ k → k < j → s[k]? ≠ some '\n' := by
  induction cs generalizing p i with
  | nil =>
    rw [flatGlyphs] at h
    obtain rfl : i = j := h
    exact ⟨Nat.le_refl _, fun k hk hlt => absurd hk (Nat.not_le.2 hlt)⟩
  | cons c cs ih =>
    obtain ⟨-, -, -, -, -, hline⟩ := isPathText_iff.1 (hcs c List.mem_cons_self)
    rw [flatGlyphs_text_cons (hcs c List.mem_cons_self), List.flatMap_cons, spansAll_append] at h
    obtain ⟨l, hl, h⟩ := h
    obtain ⟨hle, hrest⟩ := ih (fun x hx => hcs x (List.mem_cons_of_mem c hx)) h
    -- the first sign takes one character, or nothing if it is a separator that may be missing
    have hfirst : s[i]? = some c ∧ l = i + 1 ∨ l = i := by
      split at hl
      · rename_i hsep
        subst hsep
        exact (Glyph.spans_separator.1 hl).imp_right fun h => h.2.2
      · exact .inl (Glyph.spans_char.1 hl)
    rcases hfirst with ⟨hc, rfl⟩ | rfl
    · refine ⟨by omega, fun k hk hlt => ?_⟩
      by_cases hki : k = i
      · rw [hki, hc]
        exact fun h => hline (Option.some.inj h)
      · exact hrest k (by omega) hlt
    · exact ⟨hle, hrest⟩

theorem flatGlyphs_star (hp : p.isGlobstar = false) (hcs : ∀ c ∈ cs, isPathText c = true) :
    ∃ b, flatGlyphs p ('*' :: cs) = .star b :: textGlyphs cs := by
  have hhead : cs.head? ≠ some '*' := fun h =>
    (isPathText_iff.1 (hcs _ (List.mem_of_head? h))).2.1 rfl
  have hrest : flatGlyphs (p.next '*') cs = textGlyphs cs :=
    flatGlyphs_plain (fun c hc => ⟨(isPathText_iff.1 (hcs c hc)).2.1, (isPathText_iff.1 (hcs c hc)).2.2.1⟩) hp
  rw [flatGlyphs, if_neg fun h => hhead h.2, hrest]
  exact ⟨_, rfl⟩

theorem flatGlyphs_globstar_text (hdots : p.dots = false) (hcs : ∀ c ∈ cs, isPathText c = true) :
    flatGlyphs p ('*' :: '*' :: cs) = .globstar false :: flatGlyphs p.nextGlobstar cs := by
  have hhead : cs.head? ≠ some '*' := fun h =>
    (isPathText_iff.1 (hcs _ (List.mem_of_head? h))).2.1 rfl
  have hdrop : ('*' :: cs).dropWhile (· = '*') = cs := by
    rw [List.dropWhile_cons_of_pos (by decide)]
    cases cs with
    | nil => rfl
    | cons c cs => exact List.dropWhile_cons_of_neg (by simpa using hhead)
  rw [flatGlyphs, if_pos ⟨rfl, rfl⟩, hdrop, hdots]

/-- Of what a star takes, a globstar takes what has no line feed: no guard finds anything in one component
that begins with no dot. -/
theorem spans_globstar_of_star {isGuarded : Bool} (hvisible : ¬ Fragment.Hides false s.toArray 0)
    (hi : i ≤ s.length) (h : SpansAll false s.toArray (Glyph.regexes false (.star isGuarded)) i j)
    (hline : '\n' ∉ s) : SpansAll false s.toArray (Glyph.regexes false (.globstar false)) i j := by
  obtain ⟨-, hle, hlen, htaken⟩ := (Glyph.spans_star hi).1 h
  refine (Glyph.spans_globstar hi).2 ⟨hle, hlen, fun k hk hlt => ?_⟩
  obtain ⟨c, hc, hsep⟩ := htaken k hk hlt
  refine ⟨⟨c, hc, fun heq => hline (heq ▸ List.mem_of_getElem? hc)⟩, ?_⟩
  rintro (⟨hslash, -⟩ | ⟨rfl, hhides⟩)
  · rw [List.getElem?_toArray, hc] at hslash
    exact hsep (Option.some.inj hslash)
  · exact hvisible hhides

end Signs

namespace Matcher

variable {pre post : String}

/-- Text with stars in between is a flat glob, which has a matcher. -/
theorem exists_of_starred (stars : String) (hstars : ∀ c ∈ stars.toList, c = '*')
    (hpre : ∀ c ∈ pre.toList, isPathText c = true) (hpost : ∀ c ∈ post.toList, isPathText c = true)
    (hlen : (pre ++ stars ++ post).length ≤ 65536) :
    ∃ (out : Outline) (m : Matcher), ofPattern {} (pre ++ stars ++ post) = .ok m ∧
      ((∀ g ∈ flatGlyphs {} (pre.toList ++ (stars.toList ++ post.toList)), g.marks = false) →
        out.isGuarded = true) ∧
      ∀ candidate, m.accepts candidate = true ↔
        (out.isGuarded → ¬ Fragment.Hides false candidate.toList.toArray 0) ∧
          SpansAll false candidate.toList.toArray
            ((flatGlyphs {} (pre.toList ++ (stars.toList ++ post.toList))).flatMap
              (Glyph.regexes false)) 0 candidate.toList.length := by
  have htext {c : Char} (hc : isPathText c = true) : isFlat c = true ∧ c ≠ '!' ∧ c ≠ '.' := by
    obtain ⟨hflat, -, -, hneg, hdot, -⟩ := isPathText_iff.1 hc
    exact ⟨hflat, hneg, hdot⟩
  have hpattern : (pre ++ stars ++ post).toList = pre.toList ++ (stars.toList ++ post.toList) := by
    simp
  have hall : ∀ c ∈ (pre ++ stars ++ post).toList, isFlat c = true ∧ c ≠ '!' ∧ c ≠ '.' := by
    rw [hpattern]
    intro c hc
    rcases List.mem_append.1 hc with hc | hc
    · exact htext (hpre c hc)
    · rcases List.mem_append.1 hc with hc | hc
      · rw [hstars c hc]
        decide
      · exact htext (hpost c hc)
  have hflat : ∀ c ∈ (pre ++ stars ++ post).toList, isFlat c = true := fun c hc => (hall c hc).1
  have hneg : (pre ++ stars ++ post).toList.head? ≠ some '!' :=
    fun h => (hall _ (List.mem_of_head? h)).2.1 rfl
  have hrel : ¬ ['.', '/'] <+: (pre ++ stars ++ post).toList :=
    fun h => (hall '.' (h.subset List.mem_cons_self)).2.2 rfl
  obtain ⟨out, m, hout, hm, haccepts⟩ :=
    exists_of_flat (o := {}) hlen hflat hneg hrel rfl rfl rfl rfl rfl
  have hrelative := Cursor.relative_eq_self hrel
  obtain ⟨out', hout', -, -, -, hguarded⟩ :=
    Outline.ofPattern_flat (pre ++ stars ++ post) (by rwa [hrelative]) (by rwa [hrelative])
  cases hout.symm.trans hout'
  rw [hrelative, hpattern] at hguarded
  rw [hpattern] at haccepts
  exact ⟨out, m, hm, hguarded, haccepts⟩

/-- What a star between two texts takes, a globstar in its place takes as well if no line ends in it. Every
other candidate that the pattern with the star accepts, that with the globstar refuses. -/
theorem accepts_globstar_iff (pre post : String) (hpre : ∀ c ∈ pre.toList, isPathText c = true)
    (hpost : ∀ c ∈ post.toList, isPathText c = true) (hlen : (pre ++ "**" ++ post).length ≤ 65536) :
    ∃ m m', ofPattern {} (pre ++ "*" ++ post) = .ok m ∧ ofPattern {} (pre ++ "**" ++ post) = .ok m' ∧
      ∀ candidate, m.accepts candidate = true →
        (m'.accepts candidate = true ↔ '\n' ∉ candidate.toList) := by
  have hshorter : (pre ++ "*" ++ post).length ≤ 65536 := by
    have hstars : "*".length = 1 ∧ "**".length = 2 := ⟨rfl, rfl⟩
    simp only [String.length_append] at hlen ⊢
    omega
  obtain ⟨q, hq, hdots, hread⟩ := flatGlyphs_text_append (p := {}) hpre rfl rfl
  obtain ⟨b, hstar⟩ := flatGlyphs_star hq hpost
  have hglobstar := flatGlyphs_globstar_text hdots hpost
  obtain ⟨out, m, hm, hguarded, haccepts⟩ :=
    exists_of_starred "*" (by simp) hpre hpost hshorter
  obtain ⟨out', m', hm', -, haccepts'⟩ :=
    exists_of_starred "**" (by simp) hpre hpost hlen
  rw [show "*".toList = ['*'] from rfl, hread, List.singleton_append, hstar] at hguarded haccepts
  rw [show "**".toList = ['*', '*'] from rfl, hread, List.cons_append, List.singleton_append,
    hglobstar] at haccepts'
  simp only [List.flatMap_append, List.flatMap_cons, spansAll_append, regexes_textGlyphs]
    at haccepts haccepts'
  -- no sign of the pattern with the star lifts the guard at its start
  have hmarks (cs : List Char) (hcs : ∀ c ∈ cs, isPathText c = true) :
      ∀ g ∈ textGlyphs cs, g.marks = false := by
    intro g hg
    obtain ⟨c, hc, rfl⟩ := List.mem_map.1 hg
    split
    · rfl
    · exact decide_eq_false (isPathText_iff.1 (hcs c hc)).2.2.2.2.1
  have hguard : out.isGuarded = true := hguarded fun g hg => by
    rcases List.mem_append.1 hg with hg | hg
    · exact hmarks _ hpre g hg
    · rcases List.mem_cons.1 hg with rfl | hg
      · rfl
      · exact hmarks _ hpost g hg
  refine ⟨m, m', hm, hm', fun candidate hcandidate => ?_⟩
  obtain ⟨hvisible, k, hk, l, hl, hrest⟩ := (haccepts candidate).1 hcandidate
  constructor
  · intro hcandidate' hline
    obtain ⟨-, k', hk', l', hl', hrest'⟩ := (haccepts' candidate).1 hcandidate'
    obtain ⟨n, hn⟩ := List.mem_iff_getElem?.1 hline
    have htext : SpansAll false candidate.toList.toArray
        ((flatGlyphs {} pre.toList).flatMap (Glyph.regexes false)) 0 k' :=
      spansAll_flatGlyphs_text hpre hk'
    have hbefore := (notMem_of_spansAll_flatGlyphs hpre htext).2
    have hbehind := (notMem_of_spansAll_flatGlyphs hpost hrest').2
    have hsize : k' ≤ candidate.toList.length :=
      ((spansAll_chars_iff (Nat.zero_le _)).1 hk').onward (Nat.zero_le _) |>.2
    obtain ⟨-, -, htaken⟩ := (Glyph.spans_globstar hsize).1 hl'
    by_cases hnk : n < k'
    · exact hbefore n (Nat.zero_le n) hnk hn
    · by_cases hnl : n < l'
      · obtain ⟨c, hc, hne⟩ := (htaken n (Nat.not_lt.1 hnk) hnl).1
        exact hne (Option.some.inj (hc.symm.trans hn))
      · exact hbehind n (Nat.not_lt.1 hnl) (List.getElem?_eq_some_iff.1 hn).1 hn
  · intro hline
    have hsize : k ≤ candidate.toList.length :=
      ((spansAll_chars_iff (Nat.zero_le _)).1 hk).onward (Nat.zero_le _) |>.2
    refine (haccepts' candidate).2 ⟨fun _ => hvisible hguard, k, hk, l, ?_, ?_⟩
    · exact spans_globstar_of_star (hvisible hguard) hsize hl hline
    · exact spansAll_flatGlyphs_text hpost hrest

/-- Both take the name of a file below a directory. -/
theorem accepts_globstar_iff_nested : ∃ m m', ofPattern {} "a/*b/c" = .ok m ∧
    ofPattern {} "a/**b/c" = .ok m' ∧ m.accepts "a/xb/c" = true ∧ m'.accepts "a/xb/c" = true := by
  obtain ⟨m, m', hm, hm', h⟩ := accepts_globstar_iff "a/" "b/c" (List.all_eq_true.1 (by decide))
    (List.all_eq_true.1 (by decide)) (by decide)
  obtain ⟨m₁, hm₁, haccepts⟩ : ∃ m, ofPattern {} "a/*b/c" = .ok m ∧ m.accepts "a/xb/c" = true :=
    exists_ok_of_any (by decide +kernel)
  cases hm.symm.trans hm₁
  exact ⟨m, m', hm, hm', haccepts, (h "a/xb/c" haccepts).2 (by decide)⟩

/-- A line feed in a component is no obstacle to a star, but one to a globstar. -/
theorem not_accepts_globstar_line : ∃ m m', ofPattern {} "a*" = .ok m ∧ ofPattern {} "a**" = .ok m' ∧
    m.accepts "a\n" = true ∧ m'.accepts "a\n" = false := by
  obtain ⟨m, hm, haccepts⟩ : ∃ m, ofPattern {} "a*" = .ok m ∧ m.accepts "a\n" = true :=
    exists_ok_of_any (by decide +kernel)
  obtain ⟨m', hm', hrefuses⟩ : ∃ m, ofPattern {} "a**" = .ok m ∧ (!m.accepts "a\n") = true :=
    exists_ok_of_any (by decide +kernel)
  exact ⟨m, m', hm, hm', haccepts, by simpa using hrefuses⟩

end Matcher
end PathGlob
