/-
What filtering prints. A run prints, of the candidates it reads, those its matcher accepts, and it has
found something exactly if it has printed something; the run with `--invert` prints the others. A line
that cannot be read ends both runs where it stands.
-/
import PathGlob.CommandLine.Filter
import PathGlob.Proofs.Matcher.Members

namespace PathGlob.CommandLine

/-! ## Two parts of a list -/

/-- Two lists share out a third one: both keep its order, all of its items are in one of them, as
often as they are in it, and no item is in both. -/
structure Complementary {α : Type} (cs xs ys : List α) : Prop where
  left : xs.Sublist cs
  right : ys.Sublist cs
  all : (xs ++ ys).Perm cs
  one : ∀ c ∈ cs, c ∈ xs ↔ c ∉ ys

theorem Complementary.filter {α : Type} (p : α → Bool) (cs : List α) :
    Complementary cs (cs.filter p) (cs.filter fun c => !p c) where
  left := List.filter_sublist
  right := List.filter_sublist
  all := List.filter_append_perm p cs
  one c hc := by simp [hc]

/-! ## The loop -/

namespace Progress

variable {e : Engine} {m : Matcher} {invert : Bool} {p : Progress}

/-- What is known of the progress once some candidates have been offered. -/
structure Tells (e : Engine) (m : Matcher) (invert : Bool) (seen : List String) (p : Progress) :
    Prop where
  printed : p.printed.reverse = seen.filter fun c => m.isMatch e c != invert
  found : p.found = !p.printed.isEmpty

theorem Tells.start : Tells e m invert [] {} := ⟨rfl, rfl⟩

/-- A candidate is offered: the one step of the loop. -/
theorem Tells.offer {seen : List String} (h : Tells e m invert seen p) (candidate : String) :
    Tells e m invert (seen ++ [candidate]) (p.offer e m invert candidate) := by
  rw [Progress.offer]
  by_cases hc : m.isMatch e candidate != invert
  · rw [if_pos hc]
    exact ⟨by simp [h.printed, hc], rfl⟩
  · rw [if_neg hc]
    exact ⟨by simp [h.printed, hc], h.found⟩

theorem Tells.offer_all {seen : List String} (h : Tells e m invert seen p) (cs : List String) :
    Tells e m invert (seen ++ cs) (cs.foldl (Progress.offer e m invert) p) := by
  induction cs generalizing seen p with
  | nil => rwa [List.append_nil]
  | cons c cs ih =>
    rw [List.append_cons]
    exact ih (h.offer c)

/-- Lines that can be read are offered one after another. -/
theorem filter_readable (cs : List String) (rest : Lines) :
    p.filter e m invert (cs.map .ok ++ rest) =
      (cs.foldl (Progress.offer e m invert) p).filter e m invert rest := by
  induction cs generalizing p with
  | nil => rfl
  | cons c cs ih => exact ih

/-- Candidates that can all be read: those of the right kind are printed. -/
theorem filter_all (cs : List String) : Progress.filter e m invert {} (cs.map .ok) =
    { printed := cs.filter fun c => m.isMatch e c != invert
      ending := .ok !(cs.filter fun c => m.isMatch e c != invert).isEmpty } := by
  have htells : Tells e m invert [] {} := .start
  obtain ⟨hprinted, hfound⟩ := htells.offer_all cs
  rw [List.nil_append] at hprinted
  rw [← List.append_nil (cs.map Except.ok), filter_readable, Progress.filter, hfound, ← hprinted,
    List.isEmpty_reverse]

/-- A line that cannot be read: what has been printed before it stays printed. -/
theorem filter_broken (cs : List String) (f : Failure) (rest : Lines) :
    Progress.filter e m invert {} (cs.map .ok ++ .error f :: rest) =
      { Progress.filter e m invert {} (cs.map .ok) with ending := .error f } := by
  rw [filter_readable, Progress.filter, ← List.append_nil (cs.map Except.ok), filter_readable,
    Progress.filter]

end Progress

/-! ## Whole runs -/

/-- The same command line with or without `--invert`. -/
def Invocation.inverting (v : Invocation) (invert : Bool) : Invocation := { v with invert := invert }

section Runs

variable {e : Engine} {v : Invocation} {settings : Except Failure Settings} {m : Matcher} {input : Lines}

/-- A run without `--source` whose matcher is there filters what is offered. -/
theorem run_eq_filter (hsource : v.source = false) (hm : v.matcher settings = .ok m) (invert : Bool) :
    run e (v.inverting invert) settings input = Progress.filter e m invert {} (v.offered input) := by
  have hinverting : (v.inverting invert).matcher settings = .ok m := hm
  simp only [run, hinverting]
  exact if_neg (by simp [Invocation.inverting, hsource])

theorem run_of_matcher_error {f : Failure} (hf : v.matcher settings = .error f) :
    run e v settings input = { ending := .error f } := by
  rw [run, hf]

end Runs

/-- Two runs of one command line, with and without `--invert`, share out the candidates: each candidate
is printed by exactly one of them, and each run ends with status 0 exactly if it has printed something
and with status 1 otherwise. Nothing is printed where there is no matcher, and a line that cannot be
read ends both runs with what the lines before it have printed. -/
theorem run_complementary (e : Engine) (v : Invocation) (settings : Except Failure Settings) (input : Lines)
    (hsource : v.source = false) :
    (∀ f, v.matcher settings = .error f → ∀ invert,
      (run e (v.inverting invert) settings input).printed = [] ∧
      (run e (v.inverting invert) settings input).status = 2) ∧
    ∀ m, v.matcher settings = .ok m →
      (∀ cs : List String, v.offered input = cs.map .ok →
        (run e (v.inverting false) settings input).printed = cs.filter (m.isMatch e) ∧
        Complementary cs (run e (v.inverting false) settings input).printed
          (run e (v.inverting true) settings input).printed ∧
        ∀ invert, (run e (v.inverting invert) settings input).status =
          if (run e (v.inverting invert) settings input).printed = [] then 1 else 0) ∧
      ∀ (cs : List String) f rest, v.candidates = [] → input = cs.map .ok ++ .error f :: rest → ∀ invert,
        (run e (v.inverting invert) settings input).printed =
          (run e (v.inverting invert) settings (cs.map .ok)).printed ∧
        (run e (v.inverting invert) settings input).status = 2 := by
  refine ⟨fun f hf invert => ?_, fun m hm => ⟨fun cs hcs => ?_, fun cs f rest hnone hinput invert => ?_⟩⟩
  · rw [run_of_matcher_error (v := v.inverting invert) hf]
    exact ⟨rfl, rfl⟩
  · simp only [run_eq_filter hsource hm, hcs, Progress.filter_all]
    refine ⟨by simp, by simpa using Complementary.filter (m.isMatch e) cs, fun invert => ?_⟩
    simp only [Outcome.status]
    cases hkept : cs.filter fun c => m.isMatch e c != invert <;> simp
  · have hoffered (lines : Lines) : v.offered lines = lines := by simp [Invocation.offered, hnone]
    rw [run_eq_filter hsource hm, run_eq_filter hsource hm, hoffered, hoffered, hinput,
      Progress.filter_broken]
    exact ⟨rfl, rfl⟩

/-- The pattern `a*`, for given candidates, for lines and without a configuration. -/
theorem run_complementary_star :
    (∀ invert, (run .standard (Invocation.inverting { pattern := "a*" } invert) (.error .badConfiguration)
        [.ok "ab"]).printed = [] ∧
      (run .standard (Invocation.inverting { pattern := "a*" } invert) (.error .badConfiguration)
        [.ok "ab"]).status = 2) ∧
    Complementary ["ab", "", "ab", "b"]
      (run .standard (Invocation.inverting { pattern := "a*", candidates := ["ab", "", "ab", "b"] } false)
        (.ok {}) []).printed
      (run .standard (Invocation.inverting { pattern := "a*", candidates := ["ab", "", "ab", "b"] } true)
        (.ok {}) []).printed ∧
    ∀ invert, (run .standard (Invocation.inverting { pattern := "a*" } invert) (.ok {})
        ([.ok "ab", .ok "b"] ++ .error .unreadableInput :: [.ok "ab"])).printed =
      (run .standard (Invocation.inverting { pattern := "a*" } invert) (.ok {}) [.ok "ab", .ok "b"]).printed ∧
      (run .standard (Invocation.inverting { pattern := "a*" } invert) (.ok {})
        ([.ok "ab", .ok "b"] ++ .error .unreadableInput :: [.ok "ab"])).status = 2 := by
  obtain ⟨m, hm, -⟩ : ∃ m, Invocation.matcher { pattern := "a*" } (.ok {}) = .ok m ∧
      m.accepts "ab" = true := exists_ok_of_any (by decide +kernel)
  refine ⟨(run_complementary .standard { pattern := "a*" } (.error .badConfiguration) [.ok "ab"] rfl).1 _ rfl,
    ?_, ?_⟩
  · exact (((run_complementary .standard { pattern := "a*", candidates := ["ab", "", "ab", "b"] } (.ok {}) []
      rfl).2 m hm).1 ["ab", "", "ab", "b"] rfl).2.1
  · exact ((run_complementary .standard { pattern := "a*" } (.ok {}) _ rfl).2 m hm).2 ["ab", "b"] _ _ rfl rfl

end PathGlob.CommandLine
