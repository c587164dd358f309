/-
Negated groups with text behind them. The condition of such a group is not tied to where the group
ends: it looks for an alternative at the start of all that is left. So what the group takes is not
only no alternative, but nothing that begins with one, be it together with the text behind it.
-/
import PathGlob.Proofs.Matcher.Framed
import PathGlob.Proofs.Matcher.Members

namespace PathGlob

open Regex

namespace Enclosed

variable {r : Regex} {L : Language Char} {p : Regex × Quantified} {u w v : List Char}

/-- A negated group that text follows takes a piece of a component if no alternative begins what the
piece and the rest of the text are together. -/
theorem spans_excluding (h : Denotes r L) (hp : groupOperand? (some .negate) r false = some p) :
    Spans false (u ++ w ++ v).toArray p.1 u.length (u.length + w.length) ↔
      '/' ∉ w ∧ ∀ x ∈ L, ¬ x <+: w ++ v := by
  cases hp
  -- the condition looks at the rest of the text from where the group begins
  have hno : (¬ ∃ k, Spans false (u ++ w ++ v).toArray r u.length k) ↔ ∀ x ∈ L, ¬ x <+: w ++ v := by
    simp only [h (show u.length ≤ (u ++ w ++ v).length by simp), Reaches]
    rw [List.append_assoc, List.drop_left]
    constructor
    · intro hnone x hx hprefix
      exact hnone ⟨_, x, hx, hprefix, rfl⟩
    · rintro hnone ⟨_, x, hx, hprefix, -⟩
      exact hnone x hx hprefix
  simp only [spans_seq, spans_notAhead, Bool.false_eq_true, if_false, hno]
  constructor
  · rintro ⟨_, ⟨rfl, hnot⟩, hstar⟩
    exact ⟨Fragment.spans_star_within.1 hstar, hnot⟩
  · rintro ⟨hsep, hnot⟩
    exact ⟨u.length, ⟨rfl, hnot⟩, Fragment.spans_star_within.2 hsep⟩

/-- A negated group of alternatives with text behind it, as a condition on the whole text. -/
theorem spansAll_excluding (h : Denotes r L) (hp : groupOperand? (some .negate) r false = some p)
    {s post : List Char} :
    SpansAll false s.toArray (p.1 :: post.map Regex.char) 0 s.length ↔
      (∃ w, s = w ++ post ∧ '/' ∉ w) ∧ ∀ x ∈ L, ¬ x <+: s := by
  have hframed := spansAll_framed (s := s) (u := []) (v := post) (r := p.1)
  rw [List.map_nil, List.nil_append] at hframed
  rw [hframed]
  constructor
  · rintro ⟨w, rfl, hw⟩
    obtain ⟨hsep, hnot⟩ := (spans_excluding h hp).1 hw
    exact ⟨⟨w, rfl, hsep⟩, hnot⟩
  · rintro ⟨⟨w, rfl, hsep⟩, hnot⟩
    exact ⟨w, rfl, (spans_excluding (u := []) h hp).2 ⟨hsep, hnot⟩⟩

end Enclosed

/-- Ordinary text brings no leading dot with it. -/
theorem head?_append_ordinary {post : List Char} (hpost : ∀ c ∈ post, isOrdinary c = true)
    (t : List Char) : (t ++ post).head? ≠ some '.' ↔ t.head? ≠ some '.' := by
  cases t with
  | nil =>
    rw [List.nil_append, List.head?_nil]
    refine iff_of_true (fun hhead => ?_) nofun
    exact absurd (hpost '.' (List.mem_of_head? hhead)) (by decide)
  | cons c cs => rfl

/-- A negated group in front of ordinary text accepts the texts that end in the text, hold no
separator before it, do not begin with a dot and begin with none of the alternatives. -/
theorem Matcher.accepts_excluding (alts : List String) (post : String) (hne : alts ≠ [])
    (halts : ∀ a ∈ alts, a ≠ "" ∧ ∀ c ∈ a.toList, isOrdinary c = true)
    (hpost : post ≠ "" ∧ ∀ c ∈ post.toList, isOrdinary c = true)
    (hlen : (ExtGlob.pattern (some .negate) "" alts post).length ≤ 65536) :
    ∃ m, Matcher.ofPattern {} (ExtGlob.pattern (some .negate) "" alts post) = .ok m ∧
      ∀ candidate, m.accepts candidate = true ↔
        (∃ t, candidate = t ++ post ∧ '/' ∉ t.toList ∧ t.toList.head? ≠ some '.') ∧
          ∀ a ∈ alts, ¬ a.toList <+: candidate.toList := by
  have hpre : ∀ c ∈ "".toList, isOrdinary c = true := by simp
  obtain ⟨out, hout, hnegated, hguarded, hparts⟩ := Outline.ofPattern_group (some .negate)
    (ExtGlob.toList_pattern (some .negate) "" alts post) hpre hpost.2 (isOrdinary_intercalate halts)
  obtain ⟨p, hp, hdenotes⟩ :=
    Enclosed.exists_groupOperand (some .negate) post.toList.isEmpty hne halts
  have hbrace : '{' ∉ (ExtGlob.pattern (some .negate) "" alts post).toList :=
    ExtGlob.brace_notMem_pattern hpre hpost.2 halts
  obtain ⟨m, hm, haccepts⟩ := Matcher.exists_of_framed (o := {}) hout hnegated hparts hp hlen
    ((Group.expansions_of_no_brace hbrace).trans rfl) rfl rfl rfl rfl
  have hempty : post.toList.isEmpty = false := by simpa using hpost.1
  rw [hempty] at hp
  refine ⟨m, hm, fun candidate => ?_⟩
  rw [haccepts, hguarded, String.toList_empty, List.map_nil, List.nil_append,
    Enclosed.spansAll_excluding hdenotes hp, Fragment.hides_false, List.getElem?_toArray,
    ← List.head?_eq_getElem?]
  constructor
  · rintro ⟨hno, ⟨w, hw, hsep⟩, hnot⟩
    refine ⟨⟨String.ofList w, ?_, by rwa [String.toList_ofList], ?_⟩, ?_⟩
    · rw [← String.toList_inj, hw]
      simp
    · rw [String.toList_ofList, ← head?_append_ordinary hpost.2, ← hw]
      exact hno rfl
    · exact fun a ha => hnot a.toList (List.mem_map_of_mem ha)
  · rintro ⟨⟨t, rfl, hsep, hdot⟩, hnot⟩
    rw [String.toList_append] at hnot ⊢
    refine ⟨fun _ => (head?_append_ordinary hpost.2 _).2 hdot, ⟨t.toList, rfl, hsep⟩, ?_⟩
    rintro _ hx
    obtain ⟨a, ha, rfl⟩ := List.mem_map.1 hx
    exact hnot a ha

/-- An alternative is excluded also where it reaches into the text behind the group. -/
theorem Matcher.accepts_excluding_overlap : ∃ m, Matcher.ofPattern {} "!(ab|d)bc" = .ok m ∧
    m.accepts "cbc" = true ∧ m.accepts "bc" = true ∧ m.accepts "abc" = false := by
  have hpattern : ExtGlob.pattern (some .negate) "" ["ab", "d"] "bc" = "!(ab|d)bc" := by
    decide +kernel
  obtain ⟨m, hm, haccepts⟩ := Matcher.accepts_excluding ["ab", "d"] "bc" (by decide)
    (by simp [isOrdinary, Program.isSpecial]) ⟨by decide, List.all_eq_true.1 (by decide)⟩
    (by rw [hpattern]; decide)
  rw [hpattern] at hm
  refine ⟨m, hm, ?_, ?_, ?_⟩
  · exact (haccepts "cbc").2 ⟨⟨"c", by decide, by decide, by decide⟩, by decide⟩
  · exact (haccepts "bc").2 ⟨⟨"", by decide, by decide, by decide⟩, by decide⟩
  · rw [← Bool.not_eq_true, haccepts]
    rintro ⟨-, hnot⟩
    exact absurd (hnot "ab" (by simp)) (by decide)

/-- What the group would have to take is no alternative and yet not taken, for it begins with one. -/
theorem Matcher.not_accepts_beginning_with_alternative :
    ∃ m, Matcher.ofPattern {} (ExtGlob.pattern (some .negate) "" ["a"] "b") = .ok m ∧
      ¬ ∀ candidate, m.accepts candidate = true ↔ ∃ t, candidate = t ++ "b" ∧ '/' ∉ t.toList ∧
        t.toList.head? ≠ some '.' ∧ t ∉ ["a"] := by
  obtain ⟨m, hm, haccepts⟩ :
      ∃ m, Matcher.ofPattern {} (ExtGlob.pattern (some .negate) "" ["a"] "b") = .ok m ∧
        (!m.accepts "acb") = true := exists_ok_of_any (by decide +kernel)
  refine ⟨m, hm, fun hall => ?_⟩
  have hacb : m.accepts "acb" = true :=
    (hall "acb").2 ⟨"ac", by decide, by decide, by decide, by decide⟩
  rw [hacb] at haccepts
  cases haccepts

end PathGlob
