/-
Candidates where backslashes are separators. A run of backslashes counts as one slash however long it is,
so candidates that differ in their runs alone get one verdict, and a separator put behind a candidate
changes no verdict from yes to no.
-/
import PathGlob.Proofs.Matcher.Folding

namespace PathGlob

namespace Path

/-! ## Slashed texts -/

theorem slashed_char {c : Char} (hc : c ≠ '\\') (b : Bool) (cs : List Char) :
    slashed b (c :: cs) = c :: slashed false cs := by
  rw [slashed, if_neg hc]

@[simp] theorem slashed_backslash (cs : List Char) :
    slashed false ('\\' :: cs) = '/' :: slashed true cs := rfl

@[simp] theorem slashed_backslash_inRun (cs : List Char) :
    slashed true ('\\' :: cs) = slashed true cs := rfl

/-- Where no run goes on it does not matter whether one came before. -/
theorem slashed_inRun {cs : List Char} (h : cs.head? ≠ some '\\') :
    slashed true cs = slashed false cs := by
  cases cs with
  | nil => rfl
  | cons c cs =>
    have hc : c ≠ '\\' := fun hc => h (congrArg some hc)
    rw [slashed_char hc, slashed_char hc]

theorem slashed_replicate_inRun (n : Nat) (cs : List Char) :
    slashed true (List.replicate n '\\' ++ cs) = slashed true cs := by
  induction n with
  | zero => rfl
  | succ n ih => rw [List.replicate_succ, List.cons_append, slashed_backslash_inRun, ih]

/-- A whole run of backslashes is one slash. -/
theorem slashed_run (n : Nat) {cs : List Char} (h : cs.head? ≠ some '\\') :
    slashed false (List.replicate (n + 1) '\\' ++ cs) = '/' :: slashed false cs := by
  rw [List.replicate_succ, List.cons_append, slashed_backslash, slashed_replicate_inRun, slashed_inRun h]

theorem slashed_append_char {c : Char} (hc : c ≠ '\\') (b : Bool) (xs ys : List Char) :
    slashed b (xs ++ c :: ys) = slashed b xs ++ c :: slashed false ys := by
  fun_induction slashed b xs with
  | case1 b => exact slashed_char hc b ys
  | case2 cs ih => exact ih
  | case3 b cs hb ih =>
    obtain rfl : b = false := by simpa using hb
    rw [List.cons_append, slashed_backslash, ih, List.cons_append]
  | case4 b x cs hx ih => rw [List.cons_append, slashed_char hx, ih, List.cons_append]

/-- Behind a backslash at the end a slashed text ends in a slash, if not in the run before it. -/
theorem slashed_append_backslash (b : Bool) (cs : List Char) :
    (b = true ∧ slashed b (cs ++ ['\\']) = []) ∨ ∃ u, slashed b (cs ++ ['\\']) = u ++ ['/'] := by
  fun_induction slashed b cs with
  | case1 b =>
    cases b
    · exact .inr ⟨[], rfl⟩
    · exact .inl ⟨rfl, rfl⟩
  | case2 cs ih => exact ih
  | case3 b cs hb ih =>
    obtain rfl : b = false := by simpa using hb
    rw [List.cons_append, slashed_backslash]
    rcases ih with ⟨-, h⟩ | ⟨u, h⟩
    · exact .inr ⟨[], by rw [h]; rfl⟩
    · exact .inr ⟨'/' :: u, by rw [h]; rfl⟩
  | case4 b c cs hc ih =>
    rw [List.cons_append, slashed_char hc]
    rcases ih with ⟨h, -⟩ | ⟨u, h⟩
    · cases h
    · exact .inr ⟨c :: u, by rw [h]; rfl⟩

theorem slashed_of_notMem {cs : List Char} (h : '\\' ∉ cs) (b : Bool) : slashed b cs = cs := by
  induction cs generalizing b with
  | nil => rfl
  | cons c cs ih =>
    rw [List.mem_cons, not_or] at h
    rw [slashed_char (Ne.symm h.1), ih h.2]

/-! ## Candidates with other runs -/

/-- One text is another with each run of backslashes replaced by some run or by one slash. -/
inductive Respelled : List Char → List Char → Prop where
  | nil : Respelled [] []
  | char {c : Char} {cs cs' : List Char} (hc : c ≠ '\\') (h : Respelled cs cs') :
      Respelled (c :: cs) (c :: cs')
  | run (n m : Nat) {cs cs' : List Char} (hend : cs.head? ≠ some '\\') (h : Respelled cs cs') :
      Respelled (List.replicate (n + 1) '\\' ++ cs) (List.replicate (m + 1) '\\' ++ cs')
  | slash (n : Nat) {cs cs' : List Char} (hend : cs.head? ≠ some '\\') (h : Respelled cs cs') :
      Respelled (List.replicate (n + 1) '\\' ++ cs) ('/' :: cs')

theorem Respelled.head?_ne {cs cs' : List Char} (h : Respelled cs cs') (hend : cs.head? ≠ some '\\') :
    cs'.head? ≠ some '\\' := by
  cases h with
  | nil => exact hend
  | char hc h => exact hend
  | run n m hrest h => exact absurd rfl hend
  | slash n hrest h => exact absurd rfl hend

/-- Other runs of backslashes make the same slashes. -/
theorem Respelled.slashed_eq {cs cs' : List Char} (h : Respelled cs cs') :
    slashed false cs = slashed false cs' := by
  induction h with
  | nil => rfl
  | char hc h ih => rw [slashed_char hc, slashed_char hc, ih]
  | run n m hend h ih => rw [slashed_run n hend, slashed_run m (h.head?_ne hend), ih]
  | slash n hend h ih => rw [slashed_run n hend, slashed_char (by decide), ih]

/-! ## Paths -/

theorem toList_unixify (path : String) : (unixify path).toList = slashed false path.toList :=
  String.toList_ofList

theorem unixify_respelled {c c' : String} (h : Respelled c.toList c'.toList) : unixify c = unixify c' :=
  congrArg String.ofList h.slashed_eq

theorem backslash_notMem_unixify (path : String) : '\\' ∉ (unixify path).toList := by
  rw [toList_unixify]
  exact slashed_no_backslash false path.toList

theorem unixify_unixify (path : String) : unixify (unixify path) = unixify path := by
  rw [← String.toList_inj, toList_unixify, slashed_of_notMem (backslash_notMem_unixify path)]

/-- A backslash behind a path that ends in no separator is one more slash. -/
theorem unixify_append_backslash {path : String} (hne : unixify path ≠ "")
    (hend : (unixify path).toList.getLast? ≠ some '/') :
    (unixify (path ++ "\\")).toList = (unixify path).toList ++ ['/'] := by
  rw [toList_unixify] at hend
  rw [toList_unixify, toList_unixify, String.toList_append]
  obtain hnil | ⟨cs, c, hpath⟩ := path.toList.eq_nil_or_concat'
  · exact absurd (congrArg (fun cs => String.ofList (slashed false cs)) hnil) hne
  · rw [hpath] at hend ⊢
    have hc : c ≠ '\\' := by
      rintro rfl
      obtain ⟨h, -⟩ | ⟨u, hu⟩ := slashed_append_backslash false cs
      · cases h
      · exact hend (by rw [hu, List.getLast?_concat])
    rw [List.append_assoc, List.singleton_append, slashed_append_char hc, slashed_append_char hc,
      List.append_assoc]
    rfl

theorem trimSeparator?_append_backslash {path : String} (hne : unixify path ≠ "")
    (hend : (unixify path).toList.getLast? ≠ some '/') :
    trimSeparator? (unixify (path ++ "\\")) = some (unixify path) := by
  have hlength : 0 < (unixify path).toList.length :=
    List.length_pos_iff.2 fun h => hne (String.toList_eq_nil_iff.1 h)
  rw [trimSeparator?_eq, unixify_append_backslash hne hend, List.getLast?_concat, List.dropLast_concat,
    String.ofList_toList, List.length_append, if_pos ⟨rfl, Nat.lt_add_of_pos_left hlength⟩]

end Path

namespace Matcher

open PathGlob.Path

theorem windows_of_ok {o : Options} {pattern : String} {m : Matcher} (h : ofPattern o pattern = .ok m) :
    m.windows = o.windows := by
  rw [ofPattern_eq] at h
  cases hg : Group.compile o pattern with
  | error e => rw [hg] at h; cases h
  | ok g => rw [hg] at h; cases h; rfl

/-- Where backslashes are separators the verdict on a candidate is that on its slashed form, with or
without the separator at its end. -/
theorem accepts_windows {m : Matcher} (hm : m.windows = true) (candidate : String) :
    m.accepts candidate =
      (m.test .exhaustive (unixify candidate) ||
        (trimSeparator? (unixify candidate)).any (m.test .exhaustive)) := by
  rw [accepts_eq, if_pos hm]

/-- Slashing a path twice is slashing it once and leaves no backslash. Where backslashes are separators,
candidates that differ in their runs of backslashes alone get one verdict, and what is accepted is
accepted with a backslash behind it. -/
theorem accepts_respelled :
    (∀ c : String, unixify (unixify c) = unixify c ∧ '\\' ∉ (unixify c).toList) ∧
      ∀ (o : Options) (pattern : String) (m : Matcher), o.windows = true →
        ofPattern o pattern = .ok m →
          (∀ c c' : String, Respelled c.toList c'.toList → m.accepts c = m.accepts c') ∧
            ∀ c : String, unixify c ≠ "" → (unixify c).toList.getLast? ≠ some '/' →
              m.accepts c = true → m.accepts (c ++ "\\") = true := by
  refine ⟨fun c => ⟨unixify_unixify c, backslash_notMem_unixify c⟩, ?_⟩
  intro o pattern m hwindows h
  have hm : m.windows = true := (windows_of_ok h).trans hwindows
  constructor
  · intro c c' hc
    rw [accepts_windows hm, accepts_windows hm, unixify_respelled hc]
  · intro c hne hend haccepts
    rw [accepts_windows hm, trimSeparator?_eq, if_neg fun h => hend h.1, Option.any_none,
      Bool.or_false] at haccepts
    rw [accepts_windows hm, trimSeparator?_append_backslash hne hend, Option.any_some, haccepts,
      Bool.or_true]

theorem accepts_respelled_mixed : ∃ m, ofPattern { windows := true } "*/b*" = .ok m ∧
    Respelled "a\\\\b\\".toList "a/b\\\\".toList ∧ m.accepts "a\\\\b\\" = m.accepts "a/b\\\\" ∧
    m.accepts "a/b" = true ∧ m.accepts "a/b\\" = true := by
  have h : ∃ m, ofPattern { windows := true } "*/b*" = .ok m ∧ m.accepts "a/b" = true :=
    exists_ok_of_any (by decide +kernel)
  obtain ⟨m, hm, haccepts⟩ := h
  have hspelled : Respelled "a\\\\b\\".toList "a/b\\\\".toList :=
    .char (by decide) (.slash 1 (by decide) (.char (by decide) (.run 0 1 (by decide) .nil)))
  obtain ⟨hsame, hbehind⟩ := accepts_respelled.2 _ _ m rfl hm
  exact ⟨m, hm, hspelled, hsame _ _ hspelled, haccepts,
    hbehind "a/b" (by decide +kernel) (by decide +kernel) haccepts⟩

end Matcher
end PathGlob
