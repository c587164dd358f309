/-
What a glob leaves unguarded. Its parts are passed with an outlook: what is known, at a place in the
glob, of the components of any candidate up to there. A place is exposed where a component may begin
that is hidden and nothing of the glob keeps it out; from there on nothing is known.
-/
import PathGlob.Proofs.Glob.Fragment
import PathGlob.Proofs.Glob.Meaning
import PathGlob.Proofs.Path.Components

namespace PathGlob

open Relation (ReflTransGen)
open Regex PathGlob.Path

/-! ## Outlooks -/

/-- What is known of the components of a candidate up to a position. -/
inductive Outlook where
  /-- No component that begins up to the position is hidden. -/
  | clear
  /-- The same, or nothing has been taken so far. -/
  | fresh
  /-- No component that begins before the position is hidden. -/
  | ahead
  /-- The same, save that the latest component may consist of one or two dots so far. -/
  | doubt
  /-- Nothing is known. -/
  | lost
  deriving DecidableEq, Repr

namespace Outlook

/-- Outlooks from the best to the worst. -/
def rank : Outlook → Nat
  | clear => 0
  | fresh => 1
  | ahead => 2
  | doubt => 3
  | lost => 4

/-- The worse of two outlooks. -/
def join (a b : Outlook) : Outlook := if a.rank ≤ b.rank then b else a

/-- Behind a separator. -/
def separator : Outlook → Outlook
  | clear | fresh | ahead => ahead
  | doubt | lost => lost

/-- Behind a dot. -/
def dot (dots : Bool) : Outlook → Outlook
  | clear => clear
  | fresh | ahead | doubt => if dots then doubt else lost
  | lost => lost

/-- Behind a character that is neither a dot nor a separator. -/
def plain (dots : Bool) : Outlook → Outlook
  | clear | fresh | ahead => clear
  | doubt => if dots then clear else lost
  | lost => lost

/-- Behind a character. -/
def char (dots : Bool) (c : Char) (a : Outlook) : Outlook :=
  if c = '/' then a.separator else if c = '.' then a.dot dots else a.plain dots

/-- Behind a character of a set. -/
def set (dots : Bool) (cs : CharSet) (a : Outlook) : Outlook :=
  (a.plain dots).join
    ((if cs.contains false '.' then a.dot dots else clear).join
      (if cs.contains false '/' then a.separator else clear))

/-- Behind a guard. -/
def guard : Outlook → Outlook
  | clear | fresh | ahead => clear
  | doubt => doubt
  | lost => lost

/-- Behind a globstar that looks for the same components as the guards. -/
def globstar : Outlook → Outlook
  | clear => clear
  | fresh => fresh
  | ahead | doubt | lost => lost

/-- Behind any number of repetitions of what changes the outlook. One repetition must not make it
worse than no repetition and one do. -/
def repeated (f : Outlook → Outlook) (a : Outlook) : Outlook :=
  if (f (a.join (f a))).rank ≤ (a.join (f a)).rank then a.join (f a) else lost

/-- Behind a character other than a separator. -/
def qmark (dots : Bool) (a : Outlook) : Outlook := (a.plain dots).join (a.dot dots)

/-- Behind any characters other than separators. -/
def star (dots : Bool) (a : Outlook) : Outlook := a.repeated (qmark dots)

theorem qmark_clear (dots : Bool) : clear.qmark dots = clear := by cases dots <;> rfl

theorem star_clear (dots : Bool) : clear.star dots = clear := by cases dots <;> rfl

/-! ## What outlooks say -/

variable {dots : Bool} {l : List Char} {i j : Nat} {a b : Outlook}

/-- The component that begins at a position is not hidden, if one does. -/
def IsSeen (dots : Bool) (l : List Char) (k : Nat) : Prop :=
  StartsAt l k → ¬ Fragment.Hides dots l.toArray k

/-- The meaning of an outlook at a position. -/
def Holds (dots : Bool) (l : List Char) (i : Nat) : Outlook → Prop
  | clear => ∀ k ≤ i, IsSeen dots l k
  | fresh => i = 0 ∨ ∀ k ≤ i, IsSeen dots l k
  | ahead => ∀ k < i, IsSeen dots l k
  | doubt => ∀ k ≤ i, IsSeen dots l k ∨ ∀ m, k ≤ m → m < i → l[m]? ≠ some '/'
  | lost => True

theorem Holds.ahead_of_fresh (h : Holds dots l i fresh) : Holds dots l i ahead := by
  rcases h with rfl | h
  · exact fun k hk => absurd hk (Nat.not_lt_zero k)
  · exact fun k hk => h k (Nat.le_of_lt hk)

theorem Holds.doubt_of_ahead (h : Holds dots l i ahead) : Holds dots l i doubt := by
  intro k hk
  rcases Nat.lt_or_eq_of_le hk with hlt | rfl
  · exact .inl (h k hlt)
  · exact .inr fun m hkm hmk => by omega

/-- A worse outlook says less. -/
theorem Holds.mono (h : Holds dots l i a) (hab : a.rank ≤ b.rank) : Holds dots l i b := by
  have fresh_of_clear : Holds dots l i clear → Holds dots l i fresh := .inr
  cases b with
  | lost => trivial
  | clear => cases a <;> first | exact h | (simp [rank] at hab)
  | fresh =>
    cases a with
    | clear => exact fresh_of_clear h
    | fresh => exact h
    | _ => simp [rank] at hab
  | ahead =>
    cases a with
    | clear => exact (fresh_of_clear h).ahead_of_fresh
    | fresh => exact h.ahead_of_fresh
    | ahead => exact h
    | _ => simp [rank] at hab
  | doubt =>
    cases a with
    | clear => exact (fresh_of_clear h).ahead_of_fresh.doubt_of_ahead
    | fresh => exact h.ahead_of_fresh.doubt_of_ahead
    | ahead => exact h.doubt_of_ahead
    | doubt => exact h
    | lost => simp [rank] at hab

theorem rank_join : (a.join b).rank = max a.rank b.rank := by
  unfold join
  split <;> omega

theorem Holds.join_left (h : Holds dots l i a) (b : Outlook) : Holds dots l i (a.join b) :=
  h.mono (by rw [rank_join]; exact Nat.le_max_left _ _)

theorem Holds.join_right (h : Holds dots l i b) (a : Outlook) : Holds dots l i (a.join b) :=
  h.mono (by rw [rank_join]; exact Nat.le_max_right _ _)

/-! ## Single characters -/

/-- No component begins behind a character other than a separator. -/
theorem not_startsAt_succ {c : Char} (hc : l[i]? = some c) (hsep : c ≠ '/') : ¬ StartsAt l (i + 1) := by
  rintro (h | ⟨k, hk, h⟩)
  · cases h
  · cases hk
    rw [hc] at h
    exact hsep (Option.some.inj h)

theorem Holds.separator (h : Holds dots l i a) (hc : l[i]? = some '/') :
    Holds dots l (i + 1) a.separator := by
  -- a separator does not make a component hidden that begins where it stands
  have ahead (h : Holds dots l i .ahead) : Holds dots l (i + 1) .ahead := by
    intro k hk
    rcases Nat.lt_succ_iff_lt_or_eq.1 hk with hlt | rfl
    · exact h k hlt
    · intro _ hh
      have := hh.1
      rw [List.getElem?_toArray, hc] at this
      cases this
  cases a with
  | clear => exact ahead (h.mono (by decide))
  | fresh => exact ahead h.ahead_of_fresh
  | ahead => exact ahead h
  | doubt => trivial
  | lost => trivial

theorem Holds.dot (h : Holds dots l i a) (hc : l[i]? = some '.') :
    Holds dots l (i + 1) (a.dot dots) := by
  -- where dots are allowed, a further dot leaves a component of dots in doubt
  have doubt (h : Holds dots l i .doubt) : Holds dots l (i + 1) (if dots then .doubt else .lost) := by
    cases dots with
    | false => trivial
    | true =>
      intro k hk
      rcases Nat.lt_or_eq_of_le hk with hlt | rfl
      · refine (h k (Nat.le_of_lt_succ hlt)).imp_right fun hno m hkm hmi => ?_
        rcases Nat.lt_succ_iff_lt_or_eq.1 hmi with hmi | rfl
        · exact hno m hkm hmi
        · rw [hc]
          decide
      · exact .inl fun hs => absurd hs (not_startsAt_succ hc (by decide))
  cases a with
  | clear =>
    intro k hk
    rcases Nat.lt_or_eq_of_le hk with hlt | rfl
    · exact h k (Nat.le_of_lt_succ hlt)
    · exact fun hs => absurd hs (not_startsAt_succ hc (by decide))
  | fresh => exact doubt (h.ahead_of_fresh.doubt_of_ahead)
  | ahead => exact doubt h.doubt_of_ahead
  | doubt => exact doubt h
  | lost => trivial

/-- A component of dots is not hidden if something else than its end follows them. -/
theorem isSeen_of_plain {c : Char} {k : Nat} (hki : k ≤ i) (hc : l[i]? = some c) (hsep : c ≠ '/')
    (hdot : c ≠ '.') (hno : ∀ m, k ≤ m → m < i → l[m]? ≠ some '/') : IsSeen true l k := by
  have hlt : i < l.length := (List.getElem?_eq_some_iff.1 hc).1
  -- the component goes on up to `i` at least, and the dots end before it
  have hend {m : Nat} (hkm : k ≤ m) (hmi : m ≤ i) : ¬ Fragment.EndsAt l.toArray m := by
    rintro (h | h)
    · rw [List.size_toArray] at h
      omega
    · rw [List.getElem?_toArray] at h
      rcases Nat.lt_or_eq_of_le hmi with hmi | rfl
      · exact hno m hkm hmi h
      · rw [hc] at h
        exact hsep (Option.some.inj h)
  have hne {m : Nat} (hm : l[m]? = some '.') (hmi : m ≤ i) : m < i := by
    rcases Nat.lt_or_eq_of_le hmi with hmi | rfl
    · exact hmi
    · rw [hc] at hm
      exact absurd (Option.some.inj hm) hdot
  rintro - ⟨hk, hh⟩
  rw [List.getElem?_toArray] at hk
  have hki := hne hk hki
  rcases hh rfl with hh | ⟨hk', hh⟩
  · exact hend (Nat.le_succ k) hki hh
  · rw [List.getElem?_toArray] at hk'
    exact hend (by omega) (hne hk' hki) hh

theorem Holds.plain (h : Holds dots l i a) {c : Char} (hc : l[i]? = some c) (hsep : c ≠ '/')
    (hdot : c ≠ '.') : Holds dots l (i + 1) (a.plain dots) := by
  have clear (h : ∀ k ≤ i, IsSeen dots l k) : Holds dots l (i + 1) .clear := by
    intro k hk
    rcases Nat.lt_or_eq_of_le hk with hlt | rfl
    · exact h k (Nat.le_of_lt_succ hlt)
    · exact fun hs => absurd hs (not_startsAt_succ hc hsep)
  have ahead (h : Holds dots l i .ahead) : Holds dots l (i + 1) .clear := by
    refine clear fun k hk => ?_
    rcases Nat.lt_or_eq_of_le hk with hlt | rfl
    · exact h k hlt
    · intro _ hh
      have := hh.1
      rw [List.getElem?_toArray, hc] at this
      exact hdot (Option.some.inj this)
  cases a with
  | clear => exact clear h
  | fresh => exact ahead h.ahead_of_fresh
  | ahead => exact ahead h
  | doubt =>
    cases dots with
    | false => trivial
    | true => exact clear fun k hk => (h k hk).elim id (isSeen_of_plain hk hc hsep hdot)
  | lost => trivial

theorem Holds.char (h : Holds dots l i a) {c : Char} (hc : l[i]? = some c) :
    Holds dots l (i + 1) (a.char dots c) := by
  unfold Outlook.char
  split
  · rename_i hsep
    exact h.separator (hsep ▸ hc)
  · rename_i hsep
    split
    · rename_i hdot
      exact h.dot (hdot ▸ hc)
    · rename_i hdot
      exact h.plain hc hsep hdot

theorem Holds.set (h : Holds dots l i a) {c : Char} (hc : l[i]? = some c) {cs : CharSet}
    (hcs : cs.contains false c = true) : Holds dots l (i + 1) (a.set dots cs) := by
  unfold Outlook.set
  by_cases hsep : c = '/'
  · subst hsep
    rw [hcs, if_pos rfl]
    exact ((h.separator hc).join_right _).join_right _
  · by_cases hdot : c = '.'
    · subst hdot
      rw [hcs, if_pos rfl]
      exact ((h.dot hc).join_left _).join_right _
    · exact (h.plain hc hsep hdot).join_left _

theorem Holds.guard (h : Holds dots l i a) (hno : ¬ Fragment.Hides dots l.toArray i) :
    Holds dots l i a.guard := by
  have ahead (h : Holds dots l i .ahead) : Holds dots l i .clear := by
    intro k hk
    rcases Nat.lt_or_eq_of_le hk with hlt | rfl
    · exact h k hlt
    · exact fun _ => hno
  cases a with
  | clear => exact h
  | fresh => exact ahead h.ahead_of_fresh
  | ahead => exact ahead h
  | doubt => exact h
  | lost => trivial

/-! ## Loops -/

theorem Holds.repeated_self (h : Holds dots l i a) (f : Outlook → Outlook) :
    Holds dots l i (a.repeated f) := by
  unfold Outlook.repeated
  split
  · exact h.join_left _
  · trivial

/-- Repetitions keep what one of them keeps. -/
theorem Holds.repeated {R : Nat → Nat → Prop} {f : Outlook → Outlook}
    (hf : ∀ {a i j}, Holds dots l i a → R i j → Holds dots l j (f a)) (h : Holds dots l i a)
    (hR : ReflTransGen R i j) : Holds dots l j (a.repeated f) := by
  unfold Outlook.repeated
  split
  · rename_i hstable
    induction hR with
    | refl => exact h.join_left _
    | tail _ hstep ih => exact (hf ih hstep).mono hstable
  · trivial

theorem Holds.qmark (h : Holds dots l i a) {c : Char} (hc : l[i]? = some c) (hsep : c ≠ '/') :
    Holds dots l (i + 1) (a.qmark dots) := by
  by_cases hdot : c = '.'
  · exact (h.dot (hdot ▸ hc)).join_right _
  · exact (h.plain hc hsep hdot).join_left _

theorem Holds.star (h : Holds dots l i a) (hij : i ≤ j)
    (hchars : ∀ k, i ≤ k → k < j → ∃ c, l[k]? = some c ∧ c ≠ '/') : Holds dots l j (a.star dots) := by
  let R (m n : Nat) : Prop := n = m + 1 ∧ ∃ c, l[m]? = some c ∧ c ≠ '/'
  have hR : ReflTransGen R i j := by
    induction hij with
    | refl => exact .refl
    | @step k hik ih =>
      have hrest : ReflTransGen R i k := ih fun m him hmk => hchars m him (Nat.lt_succ_of_lt hmk)
      exact hrest.tail ⟨rfl, hchars k hik (Nat.lt_succ_self k)⟩
  refine Holds.repeated ?_ h hR
  rintro b m n hb ⟨rfl, c, hc, hsep⟩
  exact hb.qmark hc hsep

theorem Holds.globstar (h : Holds dots l i a) (hij : i ≤ j)
    (hno : ∀ k, i ≤ k → k < j → ¬ Fragment.Blocks dots l.toArray k) :
    Holds dots l j a.globstar := by
  have clear (h : Holds dots l i .clear) : Holds dots l j .clear := by
    intro k hk
    rcases Nat.lt_or_ge i k with hik | hki
    · rintro (rfl | ⟨m, rfl, hm⟩) hh
      · cases hik
      · exact hno m (Nat.le_of_lt_succ hik) hk (.inl ⟨by simpa using hm, hh⟩)
    · exact h k hki
  cases a with
  | clear => exact clear h
  | fresh =>
    rcases h with rfl | h
    · rcases Nat.eq_zero_or_pos j with rfl | hj
      · exact .inl rfl
      · refine .inr (clear fun k hk => ?_)
        obtain rfl := Nat.le_zero.1 hk
        exact fun _ hh => hno 0 (Nat.le_refl _) hj (.inr ⟨rfl, hh⟩)
    · exact .inr (clear h)
  | _ => trivial

end Outlook

/-! ## Passing a glob -/

namespace Glyph

/-- The outlook behind a sign; nothing is said of bars. -/
def pass (dots : Bool) (g : Glyph) (a : Outlook) : Outlook :=
  match g with
  | char c => a.char dots c
  | bar => .lost
  | separator isOptional => if isOptional then a.join a.separator else a.separator
  | star isGuarded => (if isGuarded then a.guard else a).star dots
  | globstar dots' => if dots' && !dots then .lost else a.globstar
  | qmark isFirst => if isFirst && !dots then a.plain dots else a.qmark dots

/-- The outlook behind signs one after the other. -/
def passAll (dots : Bool) (gs : List Glyph) (a : Outlook) : Outlook :=
  gs.foldl (fun a g => g.pass dots a) a

end Glyph

/-- The outlook behind the text of a bracket expression. -/
def Outlook.text (dots : Bool) (cs : List Char) (a : Outlook) : Outlook :=
  cs.foldl (fun a c => a.char dots c) a

namespace Enclosed

/-- The outlook behind a group or bracket expression. -/
def pass (dots : Bool) (e : Enclosed) (a : Outlook) : Outlook :=
  match e with
  | group g body _ =>
    match g with
    | none | some .exactlyOne => Glyph.passAll dots body a
    | some .zeroOrMore => a.repeated (Glyph.passAll dots body)
    | some .oneOrMore => (Glyph.passAll dots body a).repeated (Glyph.passAll dots body)
    | some .zeroOrOne => a.join (Glyph.passAll dots body a)
    | some .negate => a.star dots
  | bracket b isClosed _ =>
    ((b.set? isClosed).elim .clear (a.set dots ·)).join
      (a.text dots ('[' :: b.raw.toList ++ if isClosed then [']'] else []))

end Enclosed

namespace Part

/-- The outlook behind a part. -/
def pass (dots : Bool) (p : Part) (a : Outlook) : Outlook :=
  match p with
  | glyph g => g.pass dots a
  | enclosed e isRepeated => if isRepeated then (e.pass dots a).repeated (e.pass dots) else e.pass dots a

/-- The outlook behind parts one after the other. -/
def passAll (dots : Bool) (ps : List Part) (a : Outlook) : Outlook :=
  ps.foldl (fun a p => p.pass dots a) a

end Part

/-- Whether no place of a glob is exposed: at its end, no component may be hidden but one that begins
there, and that is empty. -/
def Outline.isCovered (dots : Bool) (o : Outline) : Bool :=
  match Part.passAll dots o.parts (if o.isGuarded then .clear else .fresh) with
  | .clear | .fresh | .ahead => true
  | .doubt | .lost => false

/-! ## Lost outlooks -/

namespace Outlook

@[simp] theorem lost_join (a : Outlook) : lost.join a = lost := by cases a <;> rfl

@[simp] theorem join_lost (a : Outlook) : a.join lost = lost := by cases a <;> rfl

@[simp] theorem char_lost (dots : Bool) (c : Char) : char dots c lost = lost := by
  unfold char
  split
  · rfl
  · split <;> rfl

theorem repeated_lost {f : Outlook → Outlook} (h : f lost = lost) : repeated f lost = lost := by
  unfold repeated
  rw [lost_join, h, if_pos (Nat.le_refl _)]

/-- What loses the outlook once loses it for good. -/
theorem foldl_eq_lost {α : Type} {f : α → Outlook → Outlook} (hf : ∀ x, f x lost = lost) {xs : List α}
    {x : α} (hx : x ∈ xs) (hlost : ∀ a, f x a = lost) (a : Outlook) :
    xs.foldl (fun a x => f x a) a = lost := by
  have stays (xs : List α) : xs.foldl (fun a x => f x a) lost = lost := by
    induction xs with
    | nil => rfl
    | cons x xs ih => rw [List.foldl_cons, hf, ih]
  obtain ⟨before, after, rfl⟩ := List.append_of_mem hx
  rw [List.foldl_append, List.foldl_cons, hlost]
  exact stays after

end Outlook

section Lost

variable {dots : Bool}

theorem Glyph.pass_lost (g : Glyph) : g.pass dots .lost = .lost := by
  cases g with
  | char c => exact Outlook.char_lost dots c
  | bar => rfl
  | separator isOptional => cases isOptional <;> rfl
  | star isGuarded => cases isGuarded <;> rfl
  | globstar dots' => cases dots' <;> cases dots <;> rfl
  | qmark isFirst => cases isFirst <;> cases dots <;> rfl

/-- Nothing is said of groups with bars. -/
theorem Glyph.passAll_bar {gs : List Glyph} (h : Glyph.bar ∈ gs) (a : Outlook) :
    passAll dots gs a = .lost :=
  Outlook.foldl_eq_lost Glyph.pass_lost h (fun _ => rfl) a

theorem Part.pass_lost (p : Part) : p.pass dots .lost = .lost := by
  have hbody (gs : List Glyph) : Glyph.passAll dots gs .lost = .lost := by
    induction gs with
    | nil => rfl
    | cons g gs ih =>
      change Glyph.passAll dots gs (g.pass dots .lost) = .lost
      rw [g.pass_lost, ih]
  have htext (cs : List Char) : Outlook.text dots cs .lost = .lost := by
    induction cs with
    | nil => rfl
    | cons c cs ih =>
      change Outlook.text dots cs (Outlook.char dots c .lost) = .lost
      rw [Outlook.char_lost, ih]
  have henclosed (e : Enclosed) : e.pass dots .lost = .lost := by
    cases e with
    | group g body atEnd =>
      rcases g with _ | _ | _ | _ | _ | _ <;> unfold Enclosed.pass <;> dsimp only
      · exact hbody body
      · rfl
      · exact Outlook.repeated_lost (hbody body)
      · rw [hbody]
        exact Outlook.repeated_lost (hbody body)
      · exact Outlook.lost_join _
      · exact hbody body
    | bracket b isClosed h =>
      unfold Enclosed.pass
      dsimp only
      rw [htext, Outlook.join_lost]
  cases p with
  | glyph g => exact g.pass_lost
  | enclosed e isRepeated =>
    cases isRepeated with
    | false => exact henclosed e
    | true =>
      change (e.pass dots .lost).repeated (e.pass dots) = .lost
      rw [henclosed]
      exact Outlook.repeated_lost (henclosed e)

/-- A glob that is covered has no bars outside its groups. -/
theorem Outline.barless_of_isCovered {o : Outline} (h : o.isCovered dots = true) :
    ∀ p ∈ o.parts, p.isBar = false := by
  intro p hp
  rw [← Bool.not_eq_true]
  intro hbar
  have hlost : ∀ a, p.pass dots a = .lost := by
    cases p with
    | glyph g =>
      obtain rfl : g = .bar := by simpa [Part.isBar] using hbar
      exact fun _ => rfl
    | enclosed e isRepeated => cases hbar
  unfold isCovered Part.passAll at h
  rw [Outlook.foldl_eq_lost Part.pass_lost hp hlost] at h
  cases h

end Lost

/-! ## What a glob keeps of its outlook -/

section Sound

variable {dots : Bool} {l : List Char} {i j : Nat} {a : Outlook}

/-- A sign keeps its outlook. -/
theorem Glyph.holds_pass (g : Glyph) (h : Outlook.Holds dots l i a) (hi : i ≤ l.length)
    (hg : SpansAll false l.toArray (g.regexes dots) i j) : Outlook.Holds dots l j (g.pass dots a) := by
  cases g with
  | char c =>
    obtain ⟨hc, rfl⟩ := spans_char.1 hg
    exact h.char hc
  | bar => trivial
  | separator isOptional =>
    rcases spans_separator.1 hg with ⟨hc, rfl⟩ | ⟨rfl, -, rfl⟩
    · cases isOptional with
      | false => exact h.separator hc
      | true => exact (h.separator hc).join_right _
    · exact h.join_left _
  | star isGuarded =>
    obtain ⟨hguard, hij, -, hchars⟩ := (spans_star hi).1 hg
    refine Outlook.Holds.star ?_ hij hchars
    split
    · rename_i hguarded
      exact h.guard (hguard hguarded)
    · exact h
  | globstar dots' =>
    obtain ⟨hij, -, hno⟩ := (spans_globstar hi).1 hg
    change Outlook.Holds dots l j (if dots' && !dots then .lost else a.globstar)
    split
    · trivial
    · rename_i hdots
      have hsame : (dots' || dots) = dots := by cases dots' <;> cases dots <;> simp_all
      exact h.globstar hij fun k hik hkj => hsame ▸ (hno k hik hkj).2
  | qmark isFirst =>
    obtain ⟨⟨c, hc, hsep, hdot⟩, rfl⟩ := spans_qmark.1 hg
    change Outlook.Holds dots l (i + 1) (if isFirst && !dots then a.plain dots else a.qmark dots)
    split
    · rename_i hfirst
      simp only [Bool.and_eq_true, Bool.not_eq_true'] at hfirst
      exact h.plain hc hsep (hdot hfirst.1 hfirst.2)
    · exact h.qmark hc hsep

/-- Signs one after the other keep their outlook. -/
theorem Glyph.holds_passAll (gs : List Glyph) (h : Outlook.Holds dots l i a) (hi : i ≤ l.length)
    (hgs : SpansAll false l.toArray (gs.flatMap (regexes dots)) i j) :
    Outlook.Holds dots l j (passAll dots gs a) := by
  induction gs generalizing i a with
  | nil => cases hgs; exact h
  | cons g gs ih =>
    rw [List.flatMap_cons, spansAll_append] at hgs
    obtain ⟨k, hk, hgs⟩ := hgs
    exact ih (g.holds_pass h hi hk) (hk.onward hi).2 hgs

/-- Runs of an expression keep what one of them keeps. -/
theorem Outlook.holds_loop {r : Regex} {f : Outlook → Outlook}
    (hf : ∀ {a i j}, Holds dots l i a → i ≤ l.length → Spans false l.toArray r i j →
      Holds dots l j (f a))
    (h : Holds dots l i a) (hi : i ≤ l.length)
    (hr : ReflTransGen (Spans false l.toArray r) i j) : Holds dots l j (a.repeated f) := by
  let R (m n : Nat) : Prop := m ≤ l.length ∧ Spans false l.toArray r m n
  have hR : ReflTransGen R i j := by
    induction hr with
    | refl => exact .refl
    | @tail m n hm hn ih =>
      exact ih.tail ⟨(chain_onward (onward_ends false l.toArray r) hm hi).2, hn⟩
  exact Holds.repeated (fun hb hstep => hf hb hstep.1 hstep.2) h hR

/-- The text of a bracket expression keeps its outlook. -/
theorem Outlook.holds_text (cs : List Char) (h : Holds dots l i a)
    (hcs : SpansAll false l.toArray (cs.map Regex.char) i j) : Holds dots l j (a.text dots cs) := by
  induction cs generalizing i a with
  | nil => cases hcs; exact h
  | cons c cs ih =>
    obtain ⟨k, hk, hcs⟩ := hcs
    obtain ⟨hc, rfl⟩ := (@Glyph.spans_char dots _ _ _ _).1 (spansAll_singleton.2 hk)
    exact ih (h.char hc) hcs

/-- The signs of a group keep their outlook; with bars between them nothing is said of it. -/
theorem Enclosed.holds_body {body : List Glyph} (h : Outlook.Holds dots l i a) (hi : i ≤ l.length)
    (hs : Spans false l.toArray (bodyRegex dots body) i j) :
    Outlook.Holds dots l j (Glyph.passAll dots body a) := by
  by_cases hbar : Glyph.bar ∈ body
  · rw [Glyph.passAll_bar hbar]
    trivial
  · exact Glyph.holds_passAll body h hi ((spans_bodyRegex hbar).1 hs)

/-- Repeated signs keep what holds behind the runs that they must have. -/
theorem Enclosed.holds_repeated {body : List Glyph} {lo : Nat} (hi : i ≤ l.length)
    (hs : Spans false l.toArray (.loop (bodyRegex dots body) lo none false) i j) :
    ∃ k, Runs ((bodyRegex dots body).ends false l.toArray) lo i k ∧
      ∀ {b}, Outlook.Holds dots l k b → Outlook.Holds dots l j (b.repeated (Glyph.passAll dots body)) := by
  obtain ⟨k, hk, hkj⟩ := (spans_loop hi).1 hs
  have hkl : k ≤ l.length := (hk.onward (onward_ends false l.toArray _) hi).2
  exact ⟨k, hk, fun hb => Outlook.holds_loop holds_body hb hkl hkj⟩

/-- A group or bracket expression keeps its outlook. -/
theorem Enclosed.holds_pass {e : Enclosed} {p : Regex × Quantified} (he : e.operand? dots = some p)
    (h : Outlook.Holds dots l i a) (hi : i ≤ l.length) (hs : Spans false l.toArray p.1 i j) :
    Outlook.Holds dots l j (e.pass dots a) := by
  cases e with
  | bracket b isClosed hfilled =>
    obtain ⟨cs, hset, rfl⟩ := Option.map_eq_some_iff.1 he
    change Outlook.Holds dots l j (((b.set? isClosed).elim .clear (a.set dots ·)).join (a.text dots _))
    rw [hset]
    rcases spans_alt.1 hs with hs | hs
    · obtain ⟨c, hc, hcs, rfl⟩ := spans_set.1 hs
      rw [List.getElem?_toArray] at hc
      exact (h.set hc hcs).join_left _
    · exact (Outlook.holds_text _ h (spans_literals.1 hs)).join_right _
  | group g body atEnd =>
    cases g with
    | none => cases he; exact holds_body h hi hs
    | some g =>
      cases g with
      | exactlyOne => cases he; exact holds_body h hi hs
      | zeroOrMore =>
        obtain ⟨-, hp⟩ := Option.ite_none_right_eq_some.1 he
        cases hp
        obtain ⟨k, rfl, hloop⟩ := holds_repeated hi hs
        exact hloop h
      | oneOrMore =>
        obtain ⟨-, hp⟩ := Option.ite_none_right_eq_some.1 he
        cases hp
        obtain ⟨k, ⟨m, hm, rfl⟩, hloop⟩ := holds_repeated hi hs
        exact hloop (holds_body h hi hm)
      | zeroOrOne =>
        obtain ⟨-, hp⟩ := Option.ite_none_right_eq_some.1 he
        cases hp
        obtain ⟨k, rfl, n, hn, hruns⟩ := spans_loop_upTo.1 hs
        rcases n with _ | _ | n
        · cases hruns
          exact h.join_left _
        · obtain ⟨m, hm, rfl⟩ := hruns
          exact (holds_body h hi hm).join_right _
        · omega
      | negate =>
        -- the expression is that of an unguarded star, behind a look that takes nothing
        cases he
        obtain ⟨k, hk, hstar⟩ := spans_seq.1 hs
        obtain ⟨rfl, -⟩ := spans_notAhead.1 hk
        obtain ⟨hij, -, hchars⟩ := (Fragment.spans_star hi).1 hstar
        exact h.star hij (by simpa only [List.getElem?_toArray] using hchars)

/-- A part keeps its outlook. -/
theorem Part.holds_pass {p : Part} {os : List (Regex × Quantified)} (hp : p.operands? dots = some os)
    (h : Outlook.Holds dots l i a) (hi : i ≤ l.length)
    (hs : SpansAll false l.toArray (os.map (·.1)) i j) : Outlook.Holds dots l j (p.pass dots a) := by
  cases p with
  | glyph g => cases hp; exact g.holds_pass h hi hs
  | enclosed e isRepeated =>
    obtain ⟨q, hq, rfl⟩ := Option.map_eq_some_iff.1 hp
    obtain ⟨r, hr, hq⟩ := Option.bind_eq_some_iff.1 hq
    rw [List.map_singleton, spansAll_singleton] at hs
    cases isRepeated with
    | false => cases hq; exact e.holds_pass hr h hi hs
    | true =>
      change Outlook.Holds dots l j ((e.pass dots a).repeated (e.pass dots))
      obtain ⟨r, quantified⟩ := r
      have atomic (hs : Spans false l.toArray (.atomic r) i j) :
          Outlook.Holds dots l j ((e.pass dots a).repeated (e.pass dots)) :=
        (e.holds_pass hr h hi hs.of_atomic).repeated_self _
      cases quantified with
      | bare =>
        obtain ⟨-, hq⟩ := Option.ite_none_right_eq_some.1 hq
        cases hq
        obtain ⟨k, ⟨m, hm, rfl⟩, hchain⟩ := (spans_loop hi).1 hs
        have hml : m ≤ l.length := (Spans.onward hm hi).2
        exact Outlook.holds_loop (fun hb hk hs => e.holds_pass hr hb hk hs) (e.holds_pass hr h hi hm)
          hml hchain
      | greedy => cases hq; exact atomic hs
      | sparing => cases hq; exact atomic hs
      | possessive => cases hq

/-- Parts one after the other keep their outlook. -/
theorem Part.holds_passAll {ps : List Part} {rs : List Regex} (hps : regexes? dots ps = some rs)
    (h : Outlook.Holds dots l i a) (hi : i ≤ l.length) (hs : SpansAll false l.toArray rs i j) :
    Outlook.Holds dots l j (passAll dots ps a) := by
  obtain ⟨oss, hoss, rfl⟩ := Option.map_eq_some_iff.1 hps
  clear hps
  induction ps generalizing i a oss with
  | nil => cases hoss; cases hs; exact h
  | cons p ps ih =>
    rw [List.mapM_cons] at hoss
    obtain ⟨os, hos, hrest⟩ := Option.bind_eq_some_iff.1 hoss
    obtain ⟨oss', hoss', heq⟩ := Option.bind_eq_some_iff.1 hrest
    cases heq
    rw [List.flatten_cons, List.map_append, spansAll_append] at hs
    obtain ⟨k, hk, hs⟩ := hs
    exact ih (Part.holds_pass hos h hi hk) (hk.onward hi).2 oss' hoss' hs

/-- A glob that is covered matches no text with hidden components. -/
theorem Outline.not_hides_of_isCovered {o : Outline} (h : o.isCovered dots = true) {rs : List Regex}
    (hrs : Part.regexes? dots o.parts = some rs)
    (hguard : o.isGuarded = true → ¬ Fragment.Hides dots l.toArray 0)
    (hs : SpansAll false l.toArray rs 0 l.length) {k : Nat} (hk : Path.StartsAt l k) :
    ¬ Fragment.Hides dots l.toArray k := by
  intro hh
  have hlt : k < l.length := by
    have := hh.1
    rw [List.getElem?_toArray] at this
    exact (List.getElem?_eq_some_iff.1 this).1
  have hstart : Outlook.Holds dots l 0 (if o.isGuarded then .clear else .fresh) := by
    split
    · rename_i hg
      intro m hm
      obtain rfl := Nat.le_zero.1 hm
      exact fun _ => hguard hg
    · exact .inl rfl
  have hend := Part.holds_passAll hrs hstart (Nat.zero_le _) hs
  -- whatever holds at the end, only a component that begins there may be hidden, and none is
  have hahead : Outlook.Holds dots l l.length .ahead := by
    unfold isCovered at h
    split at h
    · rename_i hpass
      rw [hpass] at hend
      exact hend.mono (by decide)
    · rename_i hpass
      rw [hpass] at hend
      exact hend.ahead_of_fresh
    · rename_i hpass
      rw [hpass] at hend
      exact hend
    · cases h
    · cases h
  exact hahead k hlt hk hh

end Sound

end PathGlob
