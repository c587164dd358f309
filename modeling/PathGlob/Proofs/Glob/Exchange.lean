/-
States that answer requests and change with them, and what can be said of a whole exchange from what is
known of one answer: what every answer keeps, that two states answer alike, and that a part of a state sees
only the requests that concern it.
-/

namespace PathGlob

variable {σ τ κ α β : Type}

/-- The answers to requests, one after another, and the state behind the last. -/
def exchange (answer : σ → κ → α × σ) (s : σ) : List κ → List (κ × α) × σ
  | [] => ([], s)
  | k :: ks =>
    let r := exchange answer (answer s k).2 ks
    ((k, (answer s k).1) :: r.1, r.2)

namespace exchange

variable {f : σ → κ → α × σ} {g : τ → κ → α × τ}

theorem append (f : σ → κ → α × σ) (s : σ) (ks ls : List κ) : (exchange f s (ks ++ ls)).2 =
    (exchange f (exchange f s ks).2 ls).2 := by
  induction ks generalizing s with
  | nil => rfl
  | cons k ks ih => exact ih (f s k).2

/-- What every answer keeps holds behind all of them. -/
theorem keeps {P : σ → Prop} (h : ∀ s k, P s → P (f s k).2) {s : σ} (hs : P s) (ks : List κ) :
    P (exchange f s ks).2 := by
  induction ks generalizing s with
  | nil => exact hs
  | cons k ks ih => exact ih (h s k hs)

/-- States that answer alike, and go on to such states, give the same answers throughout. -/
theorem alike {R : σ → τ → Prop}
    (h : ∀ s t k, R s t → (f s k).1 = (g t k).1 ∧ R (f s k).2 (g t k).2) {s : σ} {t : τ} (hst : R s t)
    (ks : List κ) :
    (exchange f s ks).1 = (exchange g t ks).1 ∧ R (exchange f s ks).2 (exchange g t ks).2 := by
  induction ks generalizing s t with
  | nil => exact ⟨rfl, hst⟩
  | cons k ks ih =>
    obtain ⟨hanswer, hbehind⟩ := h s t k hst
    obtain ⟨hlog, hend⟩ := ih hbehind
    refine ⟨?_, hend⟩
    rw [exchange, exchange, hanswer, hlog]

/-- A part of a state on which alone some requests depend, and which the others leave as it is, goes
through an exchange as if there were none but the former. -/
theorem filter (part : σ → β) (concerns : κ → Bool)
    (hin : ∀ s t k, concerns k = true → part s = part t →
      (f s k).1 = (f t k).1 ∧ part (f s k).2 = part (f t k).2)
    (hout : ∀ s k, concerns k = false → part (f s k).2 = part s) {s t : σ} (hst : part s = part t)
    (ks : List κ) :
    (exchange f s ks).1.filter (fun e => concerns e.1) = (exchange f t (ks.filter concerns)).1 ∧
      part (exchange f s ks).2 = part (exchange f t (ks.filter concerns)).2 := by
  induction ks generalizing s t with
  | nil => exact ⟨rfl, hst⟩
  | cons k ks ih =>
    cases hk : concerns k with
    | true =>
      obtain ⟨hanswer, hpart⟩ := hin s t k hk hst
      obtain ⟨hlog, hend⟩ := ih hpart
      simp only [exchange, List.filter_cons, hk, if_true]
      exact ⟨by rw [hanswer, hlog], hend⟩
    | false =>
      simp only [exchange, List.filter_cons, hk, Bool.false_eq_true, if_false]
      exact ih ((hout s k hk).trans hst)

end exchange
end PathGlob
