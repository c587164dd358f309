/-
A `!` in front of a pattern. The matcher of the negated pattern accepts what the matcher of the
pattern does not, as far as candidates begin with no dot and hold no line feed: on the others both
may refuse, for a negated expression guards nothing and takes no line feeds.
-/
import PathGlob.Proofs.Glob.Negation
import PathGlob.Proofs.Matcher.Answered

namespace PathGlob

open Regex

/-! ## Expressions up to the dots of globstars -/

namespace Part

/-- Whether a group has an operand depends on no more of its body than whether that can be
repeated. -/
theorem isSome_groupOperand? {r r' : Regex} (h : r.isRepeatable = r'.isRepeatable)
    (g : Option ExtGlob) (atEnd isRepeated : Bool) :
    ((Enclosed.groupOperand? g r atEnd).bind fun p => if isRepeated then repeat? p else some p).isSome =
      ((Enclosed.groupOperand? g r' atEnd).bind fun p =>
        if isRepeated then repeat? p else some p).isSome := by
  have hcapture (r : Regex) : (Regex.capture r).isRepeatable = true := rfl
  have hseq (a b : Regex) : (Regex.seq a b).isRepeatable = true := rfl
  cases hr : r'.isRepeatable <;> rw [hr] at h <;> cases isRepeated <;>
    rcases g with _ | _ | _ | _ | _ | _ <;>
    simp [Enclosed.groupOperand?, repeat?, h, hr, hcapture, hseq]

/-- What globstars say of dots has no part in whether a part has an expression. -/
theorem isSome_operands?_mapDots (f : Bool → Bool) (dot : Bool) (p : Part) :
    ((p.mapDots f).operands? dot).isSome = (p.operands? dot).isSome := by
  cases p with
  | glyph g => rfl
  | enclosed e isRepeated =>
    cases e with
    | bracket b isClosed h => rfl
    | group g body atEnd =>
      unfold mapDots Enclosed.mapDots operands? Enclosed.operand?
      rw [Option.isSome_map, Option.isSome_map]
      refine isSome_groupOperand? ?_ g atEnd isRepeated
      rw [Enclosed.isRepeatable_bodyRegex, Enclosed.isRepeatable_bodyRegex]
      cases body <;> rfl

/-- A glob that begins with a dot matches no text that does not. -/
theorem not_spansAll_of_dot {dot nocase : Bool} {ps : List Part} {rs : List Regex} {s : Array Char}
    {j : Nat} (hps : ps.head? = some (.glyph (.char '.'))) (hrs : regexes? dot ps = some rs)
    (hs : s[0]? ≠ some '.') : ¬ SpansAll nocase s rs 0 j := by
  obtain ⟨ps', rfl⟩ : ∃ ps', ps = .glyph (.char '.') :: ps' := by
    cases ps with
    | nil => cases hps
    | cons p ps' => cases hps; exact ⟨ps', rfl⟩
  obtain ⟨os, hos, rfl⟩ := Option.map_eq_some_iff.1 hrs
  rw [List.mapM_cons] at hos
  simp only [operands?, Option.bind_eq_bind, Option.bind_some] at hos
  obtain ⟨oss, -, hos⟩ := Option.bind_eq_some_iff.1 hos
  cases hos
  rintro ⟨k, hk, -⟩
  exact hs ((Fragment.spans_sign (.inl rfl)).1 hk).1

end Part

/-! ## Globs and their negations -/

namespace Outline.Negates

variable {f : Bool → Bool} {o n : Outline}

/-- On texts that do not begin with a dot, both expressions match the same. -/
theorem spansAll_iff (h : Negates f o n) {dot nocase : Bool} {rs ts : List Regex}
    (hrs : Part.regexes? dot o.parts = some rs) (hts : Part.regexes? dot n.parts = some ts)
    {s : Array Char} (hs : s[0]? ≠ some '.') (j : Nat) :
    SpansAll nocase s ts 0 j ↔ SpansAll nocase s rs 0 j := by
  rcases h.dotted with rfl | hdot
  · have hparts : n.parts = o.parts := by
      simpa only [Part.mapDots_id, List.map_id'] using h.parts
    rw [hparts, hrs] at hts
    cases hts
    rfl
  · -- neither matches, as both begin with the dot
    have hdot' : n.parts.head? = some (.glyph (.char '.')) := by
      have := congrArg List.head? h.parts
      rw [List.head?_map, List.head?_map, hdot] at this
      obtain ⟨p, hp, hchar⟩ := Option.map_eq_some_iff.1 this
      rw [hp, Part.mapDots_eq_char hchar]
    exact iff_of_false (Part.not_spansAll_of_dot hdot' hts hs) (Part.not_spansAll_of_dot hdot hrs hs)

/-- The negation accepts what the glob does not. -/
theorem accepts_iff (h : Negates f o n) {opts : Options} {rs ts : List Regex}
    (hrs : Part.regexes? opts.dot o.parts = some rs) (hts : Part.regexes? opts.dot n.parts = some ts)
    {s : List Char} (hnl : ∀ c ∈ s, c ≠ '\n') (hdot : s.head? ≠ some '.') :
    n.Accepts opts ts s ↔ ¬ o.Accepts opts rs s := by
  have hhead : s.toArray[0]? ≠ some '.' := by
    rwa [List.getElem?_toArray, ← List.head?_eq_getElem?]
  unfold Accepts
  -- neither the guard nor the line feeds matter here
  rw [h.negative, if_pos rfl, and_iff_left hnl, h.positive, if_neg (by decide),
    and_iff_right fun _ hh => hhead hh.1, h.spansAll_iff hrs hts hhead]

end Outline.Negates

end PathGlob
