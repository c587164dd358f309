/-
Bracket expressions without hyphens of their own. Where every hyphen stands between the ends of a range,
what comes next decides nothing, so the text of such an expression is read piece by piece into the ranges
that its pieces spell; and it is refused nowhere.
-/
import PathGlob.Proofs.Regex.Reading

namespace PathGlob

namespace CharSet

/-- The set with further ranges. -/
def addRanges (s : CharSet) (rs : List (Char × Char)) : CharSet :=
  rs.foldl (fun s r => .union s (.range r.1 r.2)) s

theorem addRanges_append (s : CharSet) (rs ts : List (Char × Char)) :
    s.addRanges (rs ++ ts) = (s.addRanges rs).addRanges ts := List.foldl_append

theorem contains_addRanges (s : CharSet) (rs : List (Char × Char)) (c : Char) :
    (s.addRanges rs).contains false c =
      (s.contains false c || rs.any fun r => r.1 ≤ c && c ≤ r.2) := by
  induction rs generalizing s with
  | nil => simp [addRanges]
  | cons r rs ih =>
    rw [addRanges, List.foldl_cons]
    refine (ih _).trans ?_
    simp [contains, Bool.or_assoc]

end CharSet

namespace Regex

/-! ## Reading with more behind -/

variable {c lo hi : Char} {cs ds behind rest : List Char}

theorem escaped?_append (h : escaped? cs = some (c, behind)) (rest : List Char) :
    escaped? (cs ++ rest) = some (c, behind ++ rest) := by
  unfold escaped? at h
  split at h
  · split at h
    · rename_i hm hn
      cases h
      simp [escaped?, hm, hn]
    · cases h
  · cases h; rfl
  · cases h; rfl
  · cases h; rfl
  · split at h
    · cases h
    · rename_i hc
      cases h
      exact escaped?_sign (by simpa using hc) _
  · cases h

theorem member?_append (h : member? cs = some (c, behind)) (rest : List Char) :
    member? (cs ++ rest) = some (c, behind ++ rest) := by
  unfold member? at h
  split at h
  · exact escaped?_append h rest
  · cases h
  · rename_i c cs hescape hopen
    cases h
    rw [List.cons_append]
    unfold member?
    split
    · rename_i heq
      cases heq
      exact (hescape rfl).elim
    · rename_i heq
      cases heq
      exact (hopen rfl).elim
    · rename_i heq
      cases heq
      rfl
    · rename_i heq
      cases heq
  · cases h

/-! ## Spelled ranges -/

/-- The ranges that a text in a bracket expression spells, if every hyphen in it is between the ends of
one. -/
def spelled? (cs : List Char) : Option (List (Char × Char)) :=
  match cs with
  | [] => some []
  | c :: cs =>
    if c = ']' ∨ c = '-' then none
    else
      match _h : member? (c :: cs) with
      | none => none
      | some (lo, '-' :: after) =>
        if after.head? = some ']' ∨ after.head? = some '-' then none
        else
          match _h' : member? after with
          | none => none
          | some (hi, behind) => if lo ≤ hi then (spelled? behind).map ((lo, hi) :: ·) else none
      | some (lo, behind) => (spelled? behind).map ((lo, lo) :: ·)
termination_by cs.length
decreasing_by
  · have h1 := member?_shorter _h
    have h2 := member?_shorter _h'
    simp only [List.length_cons] at *
    omega
  · exact member?_shorter _h

/-- What a text spells is read, whatever follows but a hyphen. -/
theorem members?_spelled {minuend : Option CharSet} {acc : CharSet} {rs : List (Char × Char)}
    (h : spelled? cs = some rs) (hrest : rest.head? ≠ some '-') :
    members? minuend acc (cs ++ rest) = members? minuend (acc.addRanges rs) rest := by
  fun_induction spelled? cs generalizing acc rs with
  | case1 => cases h; rfl
  | case2 => cases h
  | case3 => cases h
  | case4 => cases h
  | case5 => cases h
  | case6 c cs hc lo after hlo hafter hi behind hhi hle ih =>
    obtain ⟨rs, hrs, rfl⟩ := Option.map_eq_some_iff.1 h
    rw [not_or] at hc
    obtain ⟨d, ds, rfl⟩ : ∃ d ds, after = d :: ds := by
      cases after with
      | nil => cases hhi
      | cons d ds => exact ⟨d, ds, rfl⟩
    have hread : member? (c :: (cs ++ rest)) = some (lo, '-' :: d :: (ds ++ rest)) :=
      member?_append hlo rest
    rw [List.cons_append, members?_range hc.1 (fun h => absurd h hc.2) hread (by simpa using hafter)
      (member?_append hhi rest), if_pos hle]
    exact ih hrs
  | case7 => cases h
  | case8 c cs hc lo behind hhyphen hlo ih =>
    obtain ⟨rs, hrs, rfl⟩ := Option.map_eq_some_iff.1 h
    rw [not_or] at hc
    have hread : member? (c :: (cs ++ rest)) = some (lo, behind ++ rest) := member?_append hlo rest
    rw [List.cons_append, members?_member hc.1 (fun h => absurd h hc.2) hread]
    · exact ih hrs
    · intro d after heq
      cases behind with
      | nil => exact hrest (by rw [List.nil_append] at heq; rw [heq]; rfl)
      | cons x xs =>
        exact hhyphen xs (by rw [(List.cons_eq_cons.1 heq).1])

/-- A text in a bracket expression that is read as ranges, whatever follows but a hyphen. -/
structure SpellsRanges (cs : List Char) (rs : List (Char × Char)) : Prop where
  head : cs.head? ≠ some '-' ∧ cs.head? ≠ some ']'
  read : ∀ minuend acc rest, rest.head? ≠ some '-' →
    members? minuend acc (cs ++ rest) = members? minuend (acc.addRanges rs) rest

namespace SpellsRanges

variable {rs ts : List (Char × Char)}

theorem of_spelled? (h : spelled? cs = some rs) : SpellsRanges cs rs where
  head := by
    unfold spelled? at h
    split at h
    · simp
    · split at h
      · cases h
      · rename_i hc
        rw [not_or] at hc
        simp [hc]
  read _ _ _ hrest := members?_spelled h hrest

theorem nil : SpellsRanges [] [] := ⟨by simp, fun _ _ _ _ => rfl⟩

theorem append (h : SpellsRanges cs rs) (h' : SpellsRanges ds ts) :
    SpellsRanges (cs ++ ds) (rs ++ ts) where
  head := by
    cases cs with
    | nil => exact h'.head
    | cons c cs => exact h.head
  read minuend acc rest hrest := by
    have hhead : (ds ++ rest).head? ≠ some '-' := by
      cases ds with
      | nil => exact hrest
      | cons d ds => exact h'.head.1
    rw [List.append_assoc, h.read _ _ _ hhead, h'.read _ _ _ hrest, CharSet.addRanges_append]

theorem flatMap {α : Type} {f : α → List Char} {g : α → List (Char × Char)} {as : List α}
    (h : ∀ a ∈ as, SpellsRanges (f a) (g a)) : SpellsRanges (as.flatMap f) (as.flatMap g) := by
  induction as with
  | nil => exact nil
  | cons a as ih =>
    rw [List.flatMap_cons, List.flatMap_cons]
    exact (h a (by simp)).append (ih fun b hb => h b (by simp [hb]))

/-- A character, plain or escaped. -/
theorem single {u : List Char} (h : member? u = some (c, []))
    (hu : u.head? ≠ some '-' ∧ u.head? ≠ some ']') : SpellsRanges u [(c, c)] := by
  obtain ⟨x, xs, rfl⟩ : ∃ x xs, u = x :: xs := by
    cases u with
    | nil => cases h
    | cons x xs => exact ⟨x, xs, rfl⟩
  apply of_spelled?
  rw [spelled?, if_neg (by simpa [and_comm] using hu)]
  split
  · rename_i hnone
    cases h.symm.trans hnone
  · rename_i hsome
    cases h.symm.trans hsome
  · rename_i hsome
    cases h.symm.trans hsome
    rw [spelled?]
    rfl

/-- A range between two characters, each plain or escaped. -/
theorem range {u w : List Char} (hlo : member? u = some (lo, [])) (hhi : member? w = some (hi, []))
    (hu : u.head? ≠ some '-' ∧ u.head? ≠ some ']') (hw : w.head? ≠ some '-' ∧ w.head? ≠ some ']')
    (hle : lo ≤ hi) : SpellsRanges (u ++ '-' :: w) [(lo, hi)] := by
  obtain ⟨c, cs, rfl⟩ : ∃ c cs, u = c :: cs := by
    cases u with
    | nil => cases hlo
    | cons c cs => exact ⟨c, cs, rfl⟩
  have hread : member? (c :: (cs ++ '-' :: w)) = some (lo, '-' :: w) := member?_append hlo ('-' :: w)
  apply of_spelled?
  rw [List.cons_append, spelled?, if_neg (by simpa [and_comm] using hu)]
  split
  · rename_i hnone
    cases hread.symm.trans hnone
  · rename_i hsome
    cases hread.symm.trans hsome
    rw [if_neg (by simpa [and_comm] using hw)]
    split
    · rename_i hnone
      cases hhi.symm.trans hnone
    · rename_i hsome'
      cases hhi.symm.trans hsome'
      rw [if_pos hle, spelled?]
      rfl
  · rename_i hplain hsome
    cases hread.symm.trans hsome
    exact (hplain _ rfl).elim

end SpellsRanges

/-- A bracket expression of ranges is their set, or its complement. -/
theorem bracket?_ranges (isNegated : Bool) {rs : List (Char × Char)} (h : SpellsRanges cs rs)
    (hne : cs ≠ []) (hhead : cs.head? ≠ some '^') (rest : List Char) :
    bracket? ((if isNegated then ['^'] else []) ++ cs ++ ']' :: rest) =
      some (if isNegated then .compl (.addRanges .empty rs) else .addRanges .empty rs, rest) := by
  obtain ⟨c, cs, rfl⟩ := List.exists_cons_of_ne_nil hne
  have hbody : bracketBody? (c :: cs ++ ']' :: rest) = some (.addRanges .empty rs, rest) := by
    have hc : c ≠ ']' ∧ c ≠ '-' := by simpa [and_comm] using h.head
    have hleading : leadingHyphens (c :: cs ++ ']' :: rest) = (.empty, c :: cs ++ ']' :: rest) := by
      rw [List.cons_append, leadingHyphens]
      intro _ heq
      exact hc.2 (List.cons_eq_cons.1 heq).1
    rw [List.cons_append] at hleading ⊢
    unfold bracketBody?
    split
    · rename_i heq
      cases heq
      exact absurd rfl hc.1
    · rw [hleading]
      exact (h.read none .empty (']' :: rest) (by simp)).trans (members?_closing rest)
  cases isNegated with
  | true =>
    simp only [if_true, List.cons_append, List.nil_append, bracket?] at hbody ⊢
    rw [hbody]
    rfl
  | false =>
    simp only [Bool.false_eq_true, if_false, List.nil_append, List.cons_append] at hbody ⊢
    unfold bracket?
    split
    · rename_i heq
      cases heq
      exact absurd rfl hhead
    · exact hbody

end Regex
end PathGlob
