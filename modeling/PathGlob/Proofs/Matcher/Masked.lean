/-
Question marks in a group. In an alternative a `?` takes any one character but a separator, save that
one right behind the opening parenthesis, where it could begin the marker `?:`, is dropped whatever
follows it. A group that this leaves empty cannot be repeated.
-/
import PathGlob.Proofs.Matcher.Framed
import PathGlob.Proofs.Matcher.Members

namespace PathGlob

open Regex
open scoped Computability

/-! ## Masks -/

/-- Whether a character may stand in a mask: one of ordinary text, or a `?`. -/
def isMask (c : Char) : Bool := c = '?' || isOrdinary c

/-- Whether a mask's character takes a character: a `?` takes any but a separator, another itself. -/
def Takes (m c : Char) : Prop := if m = '?' then c ≠ '/' else c = m

/-- The texts that fit a mask. -/
def fitting (mask : List Char) : Language Char := {w | List.Forall₂ Takes mask w}

/-- What a group reads of its text: a `?` right behind the opening parenthesis is dropped. -/
def ExtGlob.unmarked : List Char → List Char
  | '?' :: cs => cs
  | cs => cs

/-- The masks that a group makes of its alternatives. -/
def ExtGlob.masks : List (List Char) → List (List Char)
  | [] => []
  | u :: us => unmarked u :: us

/-- The sign of a character of alternatives that are masks. -/
def Glyph.ofMask (c : Char) : Glyph := if c = '?' then .qmark false else .ofBody c

section Masks

variable {c : Char} {mask : List Char}

theorem isMask_iff : isMask c = true ↔ c = '?' ∨ isOrdinary c = true := by
  simp [isMask]

theorem ne_sign_of_isMask (h : isMask c = true) : c ≠ '|' ∧ c ≠ '(' ∧ c ≠ '/' := by
  refine ⟨?_, ?_, ?_⟩ <;> rintro rfl <;> exact absurd h (by decide)

/-- Behind a character of alternatives a `?` is neither dropped nor the first of a component. -/
theorem head?_ne_of_isMask (h : c = '|' ∨ isMask c = true) (b : List Char) :
    (c :: b).head? ≠ some '(' ∧ (c :: b).head? ≠ some '/' := by
  rw [List.head?_cons, ne_eq, Option.some_inj, ne_eq, Option.some_inj]
  rcases h with rfl | h
  · decide
  · exact (ne_sign_of_isMask h).2

theorem Glyph.bar_notMem_ofMask (h : ∀ c ∈ mask, isMask c = true) : Glyph.bar ∉ mask.map ofMask := by
  intro hbar
  obtain ⟨c, hc, hsign⟩ := List.mem_map.1 hbar
  unfold ofMask at hsign
  split at hsign
  · cases hsign
  · rw [ofBody, if_neg (ne_sign_of_isMask (h c hc)).1] at hsign
    cases hsign

/-- The sign of a mask's character matches a character that it takes. -/
theorem spansAll_ofMask (h : isMask c = true) {s : List Char} {i j : Nat} :
    SpansAll false s.toArray (Glyph.regexes false (.ofMask c)) i j ↔
      ∃ x, s[i]? = some x ∧ Takes c x ∧ j = i + 1 := by
  unfold Glyph.ofMask Takes
  split
  · rw [Glyph.spans_qmark]
    simp [← exists_and_right, and_assoc]
  · rw [Glyph.ofBody, if_neg (ne_sign_of_isMask h).1, Glyph.spans_char]
    simp

theorem reaches_fitting_nil {s : List Char} {i j : Nat} : Reaches (fitting []) s i j ↔ j = i := by
  have hempty : fitting [] = 1 := by
    ext w
    rw [Language.mem_one]
    exact List.forall₂_nil_left_iff
  rw [hempty, reaches_one]

theorem reaches_fitting_cons {s : List Char} {i j : Nat} : Reaches (fitting (c :: mask)) s i j ↔
    ∃ x, s[i]? = some x ∧ Takes c x ∧ Reaches (fitting mask) s (i + 1) j := by
  constructor
  · rintro ⟨v, hv, ⟨rest, hrest⟩, rfl⟩
    obtain ⟨x, w, hx, hw, rfl⟩ := List.forall₂_cons_left_iff.1 hv
    have hget : s[i]? = some x := by rw [← List.head?_drop, ← hrest]; rfl
    refine ⟨x, hget, hx, w, hw, ⟨rest, ?_⟩, by simp; omega⟩
    rw [← List.tail_drop, ← hrest]
    rfl
  · rintro ⟨x, hget, hx, w, hw, ⟨rest, hrest⟩, rfl⟩
    obtain ⟨hlt, rfl⟩ := List.getElem?_eq_some_iff.1 hget
    refine ⟨s[i] :: w, .cons hx hw, ⟨rest, ?_⟩, by simp; omega⟩
    rw [List.drop_eq_getElem_cons hlt, ← hrest]
    rfl

/-- The signs of a mask match what fits the mask. -/
theorem spansAll_mask (h : ∀ c ∈ mask, isMask c = true) {s : List Char} {i j : Nat} :
    SpansAll false s.toArray ((mask.map Glyph.ofMask).flatMap (Glyph.regexes false)) i j ↔
      Reaches (fitting mask) s i j := by
  induction mask generalizing i with
  | nil =>
    rw [reaches_fitting_nil]
    exact eq_comm
  | cons c mask ih =>
    have hrest := fun k => ih (i := k) fun x hx => h x (List.mem_cons_of_mem _ hx)
    rw [List.map_cons, List.flatMap_cons, spansAll_append, reaches_fitting_cons]
    simp only [spansAll_ofMask (h c List.mem_cons_self), hrest]
    constructor
    · rintro ⟨_, ⟨x, hget, hx, rfl⟩, hreach⟩
      exact ⟨x, hget, hx, hreach⟩
    · rintro ⟨x, hget, hx, hreach⟩
      exact ⟨_, ⟨x, hget, hx, rfl⟩, hreach⟩

end Masks

/-! ## Reading masks -/

namespace Outline

variable {o : Outline} {b cs rest : List Char} {c : Char}

/-- A character of alternatives that are masks, unless it stands right behind the opening parenthesis. -/
theorem step_mask {g : Option ExtGlob} {body : List Glyph} (ho : o.opened = .group g body)
    (hclosed : o.closed = none) (hlast : o.cursor.last ≠ some '(' ∧ o.cursor.last ≠ some '/')
    (hc : c = '|' ∨ isMask c = true) :
    o.step c = .ok { o with opened := .group g (body ++ [.ofMask c]) } := by
  by_cases hmark : c = '?'
  · subst hmark
    rw [step_of_not_bracket o (by rw [ho]; rfl), announced?, ho]
    simp [Delimiter.ofOpener?, Delimiter.ofCloser?, plain, settle_of_none hclosed, qmark, hlast, ho,
      Opened.isNothing, put, Glyph.ofMask]
  · have hbody : c = '|' ∨ isOrdinary c = true := hc.imp_right fun h => (isMask_iff.1 h).resolve_left hmark
    rw [step_body ho hclosed hbody, Glyph.ofMask, if_neg hmark]

/-- Alternatives that are masks add their signs to the group. -/
theorem run_masks {g : Option ExtGlob} {body : List Glyph} (hclosed : o.closed = none)
    (hb : b.head? ≠ some '(' ∧ b.head? ≠ some '/') (hcs : ∀ c ∈ cs, c = '|' ∨ isMask c = true) :
    run { o with cursor := ⟨b, cs ++ rest⟩, opened := .group g body } =
      run { o with cursor := ⟨cs.reverse ++ b, rest⟩, opened := .group g (body ++ cs.map .ofMask) } := by
  induction cs generalizing b body with
  | nil => simp
  | cons c cs ih =>
    have hlast : (⟨c :: b, cs ++ rest⟩ : Cursor).last = b.head? := by
      rw [Cursor.last, List.getElem?_cons_succ, List.head?_eq_getElem?]
    have hstep : step { o with cursor := ⟨c :: b, cs ++ rest⟩, opened := .group g body } c = .ok
        { o with cursor := ⟨c :: b, cs ++ rest⟩, opened := .group g (body ++ [.ofMask c]) } :=
      step_mask rfl hclosed (by rwa [hlast]) (hcs c (by simp))
    rw [List.cons_append, run_cons rfl, hstep]
    refine (ih (head?_ne_of_isMask (hcs c (by simp)) b) fun x hx => hcs x (by simp [hx])).trans ?_
    simp

/-- A group drops a `?` right behind its opening parenthesis and reads masks behind it. -/
theorem isBody_masks (hcs : ∀ c ∈ cs, c = '|' ∨ isMask c = true) :
    IsBody cs ((ExtGlob.unmarked cs).map .ofMask) := by
  intro o g b rest hclosed
  rcases cs with _ | ⟨c, cs⟩
  · rfl
  have hrest : ∀ x ∈ cs, x = '|' ∨ isMask x = true := fun x hx => hcs x (by simp [hx])
  by_cases hmark : c = '?'
  · subst hmark
    have hstep : step { o with cursor := ⟨'?' :: '(' :: b, cs ++ rest⟩, opened := .group g [] } '?' = .ok
        { o with cursor := ⟨'?' :: '(' :: b, cs ++ rest⟩, opened := .group g [] } := by
      rw [step_of_not_bracket _ rfl, announced?]
      simp [Delimiter.ofOpener?, Delimiter.ofCloser?, plain, settle_of_none, hclosed, qmark,
        Opened.isNothing, Opened.isGroup, Cursor.last]
    rw [List.cons_append, run_cons rfl, hstep]
    refine (run_masks hclosed (by simp) hrest).trans ?_
    simp [ExtGlob.unmarked]
  · have hbody : c = '|' ∨ isOrdinary c = true :=
      (hcs c (by simp)).imp_right fun h => (isMask_iff.1 h).resolve_left hmark
    have hsame : ExtGlob.unmarked (c :: cs) = c :: cs := by
      rw [ExtGlob.unmarked]
      rintro _ ⟨⟩
      exact hmark rfl
    have hstep : step { o with cursor := ⟨c :: '(' :: b, cs ++ rest⟩, opened := .group g [] } c = .ok
        { o with cursor := ⟨c :: '(' :: b, cs ++ rest⟩, opened := .group g [.ofMask c] } := by
      have hadd := step_body (o := { o with
        cursor := ⟨c :: '(' :: b, cs ++ rest⟩, opened := .group g [] }) rfl hclosed hbody
      rwa [Glyph.ofMask, if_neg hmark]
    rw [hsame, List.cons_append, run_cons rfl, hstep]
    refine (run_masks hclosed (head?_ne_of_isMask (hcs c (by simp)) _) hrest).trans ?_
    simp

end Outline

/-! ## Matching masks -/

theorem ExtGlob.unmarked_of_head? {cs : List Char} (h : cs.head? ≠ some '?') : unmarked cs = cs := by
  rw [unmarked]
  rintro _ rfl
  exact h rfl

/-- What a group reads of alternatives is what it reads of the first of them and the others. -/
theorem ExtGlob.unmarked_intercalate (us : List (List Char)) :
    unmarked (['|'].intercalate us) = ['|'].intercalate (masks us) := by
  rcases us with _ | ⟨u, us⟩
  · rfl
  by_cases hmark : u.head? = some '?'
  · obtain ⟨u, rfl⟩ := List.head?_eq_some_iff.1 hmark
    cases us <;> simp [masks, unmarked, List.intercalate_cons_cons]
  · have hhead : (['|'].intercalate (u :: us)).head? ≠ some '?' := by
      rcases us with _ | ⟨v, vs⟩
      · rwa [List.intercalate_singleton]
      · rw [List.intercalate_cons_cons]
        cases u with
        | nil => exact nofun
        | cons c u => exact hmark
    rw [unmarked_of_head? hhead, masks, unmarked_of_head? hmark]

theorem ExtGlob.exists_of_mem_masks {u : List Char} {us : List (List Char)} (h : u ∈ masks us) :
    ∃ v ∈ us, u <:+ v := by
  rcases us with _ | ⟨v, vs⟩
  · cases h
  · rcases List.mem_cons.1 h with rfl | h
    · refine ⟨v, List.mem_cons_self, ?_⟩
      unfold unmarked
      split
      · exact List.suffix_cons _ _
      · exact List.suffix_refl _
    · exact ⟨u, List.mem_cons_of_mem _ h, List.suffix_refl _⟩

section Alternatives

variable {alts : List String}

theorem isMask_intercalate (halts : ∀ a ∈ alts, a ≠ "" ∧ ∀ c ∈ a.toList, isMask c = true) :
    ∀ c ∈ ['|'].intercalate (alts.map String.toList), c = '|' ∨ isMask c = true := by
  intro c hc
  rcases mem_intercalate hc with hc | ⟨u, hu, hc⟩
  · exact .inl (List.mem_singleton.1 hc)
  · obtain ⟨a, ha, rfl⟩ := List.mem_map.1 hu
    exact .inr ((halts a ha).2 c hc)

theorem isMask_masks (halts : ∀ a ∈ alts, a ≠ "" ∧ ∀ c ∈ a.toList, isMask c = true) :
    ∀ u ∈ ExtGlob.masks (alts.map String.toList), ∀ c ∈ u, isMask c = true := by
  intro u hu c hc
  obtain ⟨v, hv, hsuffix⟩ := ExtGlob.exists_of_mem_masks hu
  obtain ⟨a, ha, rfl⟩ := List.mem_map.1 hv
  exact (halts a ha).2 c (hsuffix.subset hc)

/-- Only the group of a single `?` is left empty. -/
theorem intercalate_masks_eq_nil_iff (hne : alts ≠ []) (halts : ∀ a ∈ alts, a ≠ "") :
    ['|'].intercalate (ExtGlob.masks (alts.map String.toList)) = [] ↔ alts = ["?"] := by
  obtain ⟨a, as, rfl⟩ := List.exists_cons_of_ne_nil hne
  rcases as with _ | ⟨b, bs⟩
  · have hsingle : ExtGlob.unmarked a.toList = [] ↔ a = "?" := by
      rw [← String.toList_inj]
      constructor
      · intro hnil
        unfold ExtGlob.unmarked at hnil
        split at hnil
        · rename_i cs hcs
          rw [hcs, hnil]
          rfl
        · exact absurd (String.toList_eq_nil_iff.1 hnil) (halts a List.mem_cons_self)
      · intro hmark
        rw [hmark]
        rfl
    rw [List.map_singleton, ExtGlob.masks, List.intercalate_singleton, hsingle]
    simp
  · simp [ExtGlob.masks, List.intercalate_cons_cons]

/-- A group of masks takes what fits one of them. -/
theorem Enclosed.denotes_masks (hne : alts ≠ [])
    (halts : ∀ a ∈ alts, a ≠ "" ∧ ∀ c ∈ a.toList, isMask c = true) :
    Denotes (bodyRegex false
        ((['|'].intercalate (ExtGlob.masks (alts.map String.toList))).map Glyph.ofMask))
      {v | ∃ u ∈ ExtGlob.masks (alts.map String.toList), v ∈ fitting u} := by
  have hmasks := isMask_masks halts
  have hnil : ExtGlob.masks (alts.map String.toList) ≠ [] := by
    obtain ⟨a, as, rfl⟩ := List.exists_cons_of_ne_nil hne
    exact List.cons_ne_nil _ _
  rw [map_intercalate]
  exact denotes_alternatives false hnil (·.map Glyph.ofMask) fitting
    (fun u hu => Glyph.bar_notMem_ofMask (hmasks u hu))
    fun u hu _ _ _ _ => spansAll_mask (hmasks u hu)

end Alternatives

/-- A group of masks between ordinary texts accepts what is a word of the group's language between the
texts, where a leading `?` of the first mask does not count; if that leaves nothing to repeat there is
no matcher. -/
theorem Matcher.accepts_masks (g : Option ExtGlob) (pre post : String) (alts : List String)
    (hpre : ∀ c ∈ pre.toList, isOrdinary c = true) (hpost : ∀ c ∈ post.toList, isOrdinary c = true)
    (hg : g ≠ some .negate) (hne : alts ≠ [])
    (halts : ∀ a ∈ alts, a ≠ "" ∧ ∀ c ∈ a.toList, isMask c = true)
    (hlen : (ExtGlob.pattern g pre alts post).length ≤ 65536) :
    if alts = ["?"] ∧ g.any ExtGlob.isLoop = true then
      Matcher.ofPattern {} (ExtGlob.pattern g pre alts post) = .error .wrongRegularExpression
    else ∃ m, Matcher.ofPattern {} (ExtGlob.pattern g pre alts post) = .ok m ∧
      ∀ candidate, m.accepts candidate = true ↔ candidate.toList.head? ≠ some '.' ∧
        ∃ w, candidate = pre ++ w ++ post ∧ w.toList ∈ ExtGlob.language g
          {v | ∃ u ∈ ExtGlob.masks (alts.map String.toList), v ∈ fitting u} := by
  obtain ⟨out, hout, hnegated, hguarded, hparts⟩ := Outline.ofPattern_body g
    (ExtGlob.toList_pattern g pre alts post) hpre hpost
    (Outline.isBody_masks (isMask_intercalate halts))
  have hbrace : '{' ∉ (ExtGlob.pattern g pre alts post).toList :=
    ExtGlob.brace_notMem_framed hpre hpost fun h =>
      absurd (isMask_intercalate halts _ h) (by decide)
  have hexp : Group.expansions {} (ExtGlob.pattern g pre alts post) =
      .ok [ExtGlob.pattern g pre alts post] := (Group.expansions_of_no_brace hbrace).trans rfl
  have hdenotes := Enclosed.denotes_masks hne halts
  have hempty := intercalate_masks_eq_nil_iff hne fun a ha => (halts a ha).1
  rw [ExtGlob.unmarked_intercalate] at hparts
  rw [← List.map_eq_nil_iff (f := Glyph.ofMask), ← List.isEmpty_iff] at hempty
  generalize (['|'].intercalate (ExtGlob.masks (alts.map String.toList))).map Glyph.ofMask = body
    at hparts hdenotes hempty
  have hnone : Enclosed.operand? false (.group g body post.toList.isEmpty) = none ↔
      alts = ["?"] ∧ g.any ExtGlob.isLoop = true := by
    rw [Enclosed.operand?, Enclosed.groupOperand?_eq_none_iff, Enclosed.isRepeatable_bodyRegex,
      Bool.not_eq_false', hempty]
  split
  · rename_i hloop
    exact Matcher.error_of_framed (o := {}) hout hparts (hnone.2 hloop) hlen hexp rfl rfl rfl rfl
  · rename_i hloop
    obtain ⟨p, hp⟩ := Option.ne_none_iff_exists'.1 (mt hnone.1 hloop)
    obtain ⟨m, hm, haccepts⟩ := Matcher.exists_of_framed (o := {}) hout hnegated hparts hp hlen hexp rfl
      rfl rfl rfl
    refine ⟨m, hm, fun candidate => ?_⟩
    rw [haccepts, Enclosed.spansAll_group hdenotes hp fun h => absurd h hg, hguarded,
      Fragment.hides_false, List.getElem?_toArray, ← List.head?_eq_getElem?]
    refine and_congr (by simp) ?_
    constructor
    · rintro ⟨w, hw, hsame⟩
      refine ⟨String.ofList w, ?_, by rwa [String.toList_ofList]⟩
      rw [← String.toList_inj, hsame]
      simp
    · rintro ⟨w, rfl, hw⟩
      exact ⟨w.toList, hw, by simp⟩

/-- The first alternative is shorter than it is written, and a single `?` leaves nothing to repeat. -/
theorem Matcher.accepts_shortened_mask : (∃ m, Matcher.ofPattern {} "+(?a|b?)" = .ok m ∧
      m.accepts "abx" = true ∧ m.accepts "xa" = false) ∧
    Matcher.ofPattern {} "*(?)" = .error .wrongRegularExpression := by
  have hloop : ExtGlob.pattern (some .oneOrMore) "" ["?a", "b?"] "" = "+(?a|b?)" := by decide +kernel
  have hmark : ExtGlob.pattern (some .zeroOrMore) "" ["?"] "" = "*(?)" := by decide +kernel
  have hmatcher := Matcher.accepts_masks (some .oneOrMore) "" "" ["?a", "b?"] (by simp) (by simp)
    (by decide) (by decide) (by simp [isMask, isOrdinary, Program.isSpecial]) (by rw [hloop]; decide)
  have herror := Matcher.accepts_masks (some .zeroOrMore) "" "" ["?"] (by simp) (by simp)
    (by decide) (by decide) (by simp [isMask]) (by rw [hmark]; decide)
  rw [if_neg (by decide), hloop] at hmatcher
  rw [if_pos (by decide), hmark] at herror
  obtain ⟨m, hm, haccepts⟩ := hmatcher
  refine ⟨⟨m, hm, ?_, ?_⟩, herror⟩
  · rw [haccepts]
    refine ⟨by decide, "abx", by decide, Language.mem_mul.2
      ⟨['a'], ⟨['a'], by decide, .cons rfl .nil⟩, ['b', 'x'], Language.mem_kstar.2 ?_, by decide⟩⟩
    refine ⟨[['b', 'x']], rfl, fun v hv => ?_⟩
    rw [List.mem_singleton.1 hv]
    exact ⟨['b', '?'], by decide, .cons rfl (.cons (by decide : 'x' ≠ '/') .nil)⟩
  · rw [← Bool.not_eq_true, haccepts]
    rintro ⟨-, w, hw, hword⟩
    obtain ⟨v, ⟨u, hu, hv⟩, t, -, hsame⟩ := Language.mem_mul.1 hword
    have hmasks : u = ['a'] ∨ u = ['b', '?'] := by
      simpa [ExtGlob.masks, ExtGlob.unmarked] using hu
    have hhead : v.head? = some 'a' ∨ v.head? = some 'b' := by
      rcases hmasks with rfl | rfl <;>
        obtain ⟨c, _, hc, _, rfl⟩ := List.forall₂_cons_left_iff.1 hv
      · exact .inl (congrArg some hc)
      · exact .inr (congrArg some hc)
    have htext : v ++ t = "xa".toList := by rw [hsame, hw]; simp
    rcases v with _ | ⟨c, v⟩
    · simp at hhead
    · obtain rfl : c = 'x' := (List.cons_eq_cons.1 htext).1
      simp at hhead

/-- A group of a single `?` takes the empty text only. -/
theorem Matcher.not_accepts_marked_character :
    ∃ m, Matcher.ofPattern {} (ExtGlob.pattern (some .exactlyOne) "" ["?"] "") = .ok m ∧
      m.accepts "" = true ∧ m.accepts "a" = false ∧
      ¬ ∀ candidate, candidate.toList.head? ≠ some '.' → (m.accepts candidate = true ↔
        candidate.toList ∈
          ExtGlob.language (some .exactlyOne) {v | ∃ u ∈ ["?"].map String.toList, v ∈ fitting u}) := by
  obtain ⟨m, hm, haccepts⟩ :
      ∃ m, Matcher.ofPattern {} (ExtGlob.pattern (some .exactlyOne) "" ["?"] "") = .ok m ∧
        (m.accepts "" && !m.accepts "a") = true := exists_ok_of_any (by decide +kernel)
  rw [Bool.and_eq_true, Bool.not_eq_true'] at haccepts
  refine ⟨m, hm, haccepts.1, haccepts.2, fun hall => ?_⟩
  have hword : "a".toList ∈
      ExtGlob.language (some .exactlyOne) {v | ∃ u ∈ ["?"].map String.toList, v ∈ fitting u} :=
    ⟨['?'], by decide, .cons (by decide : 'a' ≠ '/') .nil⟩
  rw [← hall "a" (by decide), haccepts.2] at hword
  cases hword

end PathGlob
