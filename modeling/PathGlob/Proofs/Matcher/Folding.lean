/-
Candidates that differ in letter case alone. A search sees a text through its length and its single
characters only, and where case is ignored these look alike in case variants, also to ranges, to
complements and to what takes any character but a line feed. Separators have no case, so what becomes
of the candidate before the search keeps the variants.
-/
import PathGlob.Proofs.Glob.Fragment
import PathGlob.Proofs.Matcher.Members
import PathGlob.Proofs.Matcher.Single

namespace PathGlob

/-! ## Case variants of texts -/

namespace CaseFold

/-- Two texts are case variants: they have the same length, and so are their characters one by one. -/
def Variants (s t : List Char) : Prop := s.map fold = t.map fold

instance (s t : List Char) : Decidable (Variants s t) :=
  inferInstanceAs (Decidable (s.map fold = t.map fold))

variable {s t : List Char} {c d : Char}

theorem variants_cons_iff {ds : List Char} :
    Variants (c :: s) ds ↔ ∃ d t, ds = d :: t ∧ fold c = fold d ∧ Variants s t := by
  cases ds with
  | nil => simp [Variants]
  | cons d t => simp [Variants]

theorem Variants.length_eq (h : Variants s t) : s.length = t.length := by
  simpa using congrArg List.length h

theorem Variants.getElem? (h : Variants s t) (i : Nat) : s[i]?.map fold = t[i]?.map fold := by
  simpa using congrArg (·[i]?) h

/-- A sign has no other variant than itself. -/
theorem eq_sign_iff {x : Char} (hx : 0 < x.toNat ∧ x.toNat < 0x61) (hfold : fold x = x)
    (h : fold c = fold d) : c = x ↔ d = x := by
  constructor
  · rintro rfl
    exact fold_eq_sign hx (h.symm.trans hfold)
  · rintro rfl
    exact fold_eq_sign hx (h.trans hfold)

theorem Variants.getElem?_eq_sign_iff {x : Char} (hx : 0 < x.toNat ∧ x.toNat < 0x61)
    (hfold : fold x = x) (h : Variants s t) {i : Nat} : s[i]? = some x ↔ t[i]? = some x := by
  have hget := h.getElem? i
  cases hs : s[i]? with
  | none =>
    rw [hs, Option.map_none, eq_comm, Option.map_eq_none_iff] at hget
    simp [hget]
  | some c =>
    rw [hs, Option.map_some, eq_comm, Option.map_eq_some_iff] at hget
    obtain ⟨d, hd, hvariant⟩ := hget
    rw [hd, Option.some.injEq, Option.some.injEq]
    exact eq_sign_iff hx hfold hvariant.symm

end CaseFold

open CaseFold

/-! ## Searches -/

namespace Regex

/-- A search sees a text through its length and what single characters pass. -/
theorem ends_congr {nocase : Bool} {s t : Array Char} (hsize : s.size = t.size)
    (hsingle : single nocase s = single nocase t) (r : Regex) : ends nocase s r = ends nocase t r := by
  induction r with
  | empty => rfl
  | char | any | set | start | stop => funext i; simp only [ends, hsingle]
  | seq a b iha ihb | alt a b iha ihb => funext i; simp only [ends, iha, ihb]
  | capture r ih => exact ih
  | loop r lo hi isLazy ih => cases hi <;> funext i <;> simp only [ends, ih, hsize]
  | atomic r ih => funext i; simp only [ends, preferred, ih, hsingle, hsize]
  | look k r ih => cases k <;> funext i <;> simp only [ends, ih]

/-- Case variants look alike to single characters. -/
theorem single_variants {s t : Array Char} (h : Variants s.toList t.toList) :
    single true s = single true t := by
  have hstep {test : Char → Bool} (htest : ∀ c d, fold c = fold d → test c = test d) (i : Nat) :
      step s test i = step t test i := by
    have hget := h.getElem? i
    simp only [Array.getElem?_toList] at hget
    unfold step
    cases hs : s[i]? with
    | none =>
      rw [hs, Option.map_none, eq_comm, Option.map_eq_none_iff] at hget
      rw [hget]
    | some c =>
      rw [hs, Option.map_some, eq_comm, Option.map_eq_some_iff] at hget
      obtain ⟨d, hd, hfold⟩ := hget
      simp only [hd, htest c d hfold.symm]
  funext r i
  cases r with
  | char c => exact hstep (fun a b hab => by simp [sameChar, hab]) i
  | any =>
    refine hstep (fun a b hab => ?_) i
    rw [Bool.eq_iff_iff, bne_iff_ne, bne_iff_ne]
    exact not_congr (eq_sign_iff (by decide) (by decide) hab)
  | set cs => exact hstep (fun a b hab => cs.contains_congr hab) i
  | stop =>
    have hsize : s.size = t.size := by simpa using h.length_eq
    unfold single
    rw [hsize]
  | _ => rfl

theorem matchesIn_variants {s t : List Char} (h : Variants s t) (r : Regex) :
    r.matchesIn true s.toArray = r.matchesIn true t.toArray := by
  have hsize : s.toArray.size = t.toArray.size := by simpa using h.length_eq
  rw [matchesIn, matchesIn, ends_congr hsize (single_variants h), hsize]

end Regex

/-! ## Candidates with other separators -/

namespace Path

theorem variants_slashed {s t : List Char} (h : Variants s t) (inRun : Bool) :
    Variants (slashed inRun s) (slashed inRun t) := by
  induction s generalizing t inRun with
  | nil =>
    obtain rfl : t = [] := by simpa [Variants] using h.symm
    exact rfl
  | cons c s ih =>
    obtain ⟨d, t, rfl, hfold, htail⟩ := variants_cons_iff.1 h
    have hsame : c = '\\' ↔ d = '\\' := eq_sign_iff (by decide) (by decide) hfold
    unfold slashed
    by_cases hc : c = '\\'
    · rw [if_pos hc, if_pos (hsame.1 hc)]
      split
      · exact ih htail true
      · exact variants_cons_iff.2 ⟨_, _, rfl, rfl, ih htail true⟩
    · rw [if_neg hc, if_neg (mt hsame.2 hc)]
      exact variants_cons_iff.2 ⟨_, _, rfl, hfold, ih htail false⟩

theorem trimSeparator?_eq (s : String) : trimSeparator? s =
    if s.toList.getLast? = some '/' ∧ 1 < s.toList.length then some (String.ofList s.toList.dropLast)
    else none := by
  unfold trimSeparator?
  have hs : s.toList = s.toList.reverse.reverse := s.toList.reverse_reverse.symm
  generalize s.toList.reverse = u at hs
  rw [hs]
  rcases u with _ | ⟨c, _ | ⟨d, u⟩⟩
  · rfl
  · simp
  · by_cases hc : c = '/'
    · subst hc
      simp
    · simp [hc]

/-- Variants lose the separator at their end together. -/
theorem any_trimSeparator? {s t : String} (h : Variants s.toList t.toList) {test : String → Bool}
    (htest : ∀ s t : String, Variants s.toList t.toList → test s = test t) :
    (trimSeparator? s).any test = (trimSeparator? t).any test := by
  have hlast : s.toList.getLast? = some '/' ↔ t.toList.getLast? = some '/' := by
    rw [List.getLast?_eq_getElem?, List.getLast?_eq_getElem?, h.length_eq]
    exact h.getElem?_eq_sign_iff (by decide) (by decide)
  have hshorter : Variants s.toList.dropLast t.toList.dropLast := by
    simpa only [Variants, List.map_dropLast] using congrArg List.dropLast h
  simp only [trimSeparator?_eq, hlast, h.length_eq]
  split
  · exact htest _ _ (by simpa only [String.toList_ofList] using hshorter)
  · rfl

end Path

/-! ## Matchers -/

/-- Where case is ignored nothing is compared as it is. -/
theorem Program.accepts_congr {o : Options} {pattern : String} {r : Rendering} {p : Program}
    (hnocase : o.nocase = true) (hp : compile o pattern r = .ok p) {s t : String}
    (h : Variants s.toList t.toList) : p.accepts s = p.accepts t := by
  -- the comparison of texts is for what is sensitive to case
  have hliteral : isLiteral o pattern = false := by simp [isLiteral, hnocase]
  rw [compile, hliteral, if_neg (by decide)] at hp
  cases hc : CompiledRegex.ofRendering o r with
  | error e => rw [hc] at hp; cases hp
  | ok c =>
    rw [hc] at hp
    cases hp
    have hcase := (CompiledRegex.ofRendering_ok hc).1
    rw [accepts_regex, accepts_regex, CompiledRegex.accepts, CompiledRegex.accepts, hcase, hnocase]
    exact Regex.matchesIn_variants h c.regex

/-- A group has a say on a candidate through its members. -/
theorem Group.accepts_congr {g : Group} {s t : String}
    (h : ∀ q ∈ g.members, q.2.accepts s = q.2.accepts t) : g.accepts s = g.accepts t := by
  rw [accepts_eq, accepts_eq]
  split
  · exact all_congr_left h
  · exact any_congr_left h

namespace Matcher

/-- Where letter case is ignored, that of the candidate makes no difference. -/
theorem accepts_variants {o : Options} {pattern : String} {m : Matcher} (hnocase : o.nocase = true)
    (hm : ofPattern o pattern = .ok m) (s t : String) (h : Variants s.toList t.toList) :
    m.accepts s = m.accepts t := by
  obtain ⟨ps, members, -, hmembers, rfl⟩ := members_of_ok hm
  have htest (s t : String) (h : Variants s.toList t.toList) :
      test { windows := o.windows, groups := [{ pattern, members }] } .exhaustive s =
        test { windows := o.windows, groups := [{ pattern, members }] } .exhaustive t := by
    have hgroup : Group.accepts { pattern, members } s = Group.accepts { pattern, members } t :=
      Group.accepts_congr fun q hq => by
        obtain ⟨p, -, hpq⟩ := mem_of_mapM_ok hmembers hq
        exact Program.accepts_congr hnocase (Group.member_ok_iff.1 hpq).2 h
    simp only [test_exhaustive, List.any_cons, List.any_nil, Bool.or_false, hgroup]
  have hslashed : Variants (Path.unixify s).toList (Path.unixify t).toList := by
    simpa only [Path.unixify, String.toList_ofList] using Path.variants_slashed h false
  rw [accepts_eq, accepts_eq]
  split
  · simp only [htest _ _ hslashed, Path.any_trimSeparator? hslashed htest]
  · exact htest s t h

/-- Backslashes are no obstacle, and the Kelvin sign is a letter K. -/
theorem accepts_capitals : ∃ m, ofPattern { nocase := true, windows := true } "src/[!a]*k" = .ok m ∧
    m.accepts "SRC\\Book" = true ∧ m.accepts "src\\bOO\u212a" = true := by
  obtain ⟨m, hm, haccepts⟩ : ∃ m, ofPattern { nocase := true, windows := true } "src/[!a]*k" = .ok m ∧
      m.accepts "SRC\\Book" = true := exists_ok_of_any (by decide +kernel)
  refine ⟨m, hm, haccepts, ?_⟩
  rw [← accepts_variants rfl hm "SRC\\Book" "src\\bOO\u212a" (by decide +kernel)]
  exact haccepts

end Matcher
end PathGlob
