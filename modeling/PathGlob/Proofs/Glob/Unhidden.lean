/-
Globstars on texts without hidden components. What a globstar says of dots counts only where a component
begins with one. So on a text in which no component but the first does, parts that differ in no more than
this match the same from every place behind the start, alone, in groups and however they are repeated.
-/
import Mathlib.Data.List.Forall2
import PathGlob.Proofs.Glob.Fragment
import PathGlob.Proofs.Glob.Negation
import PathGlob.Proofs.Regex.Agreement

namespace PathGlob

open Regex (Agrees IsInside Level Quantified)

/-- No component of a text begins with a dot, save perhaps the first. -/
def Path.IsUnhidden (s : Array Char) : Prop := ∀ i, s[i]? = some '/' → s[i + 1]? ≠ some '.'

variable {nocase : Bool} {s : Array Char}

/-! ## Signs -/

namespace Fragment

/-- Behind the start nothing stops a globstar. -/
theorem not_blocks (hs : Path.IsUnhidden s) (dots : Bool) {i : Nat} (hi : 0 < i) : ¬ Blocks dots s i := by
  rintro (⟨hsep, hhides⟩ | ⟨rfl, -⟩)
  · exact hs i hsep hhides.1
  · exact absurd hi (Nat.lt_irrefl 0)

theorem agrees_globstar (hs : Path.IsUnhidden s) (dots dots' : Bool) :
    Agrees nocase s (globstarRegex dots) (globstarRegex dots') := by
  have hahead (dots : Bool) {i : Nat} (hi : 0 < i) : (hiddenRegex dots).ends nocase s i = [] := by
    rw [List.eq_nil_iff_forall_not_mem]
    exact fun j hj => not_blocks hs dots hi (spans_hidden.1 ⟨j, hj⟩)
  have hlook : Agrees nocase s (.look .notAhead (hiddenRegex dots)) (.look .notAhead (hiddenRegex dots')) := by
    refine ⟨rfl, nofun, rfl, fun i hi => ?_⟩
    rw [Regex.ends, Regex.ends, hahead dots hi.1, hahead dots' hi.1]
  exact (hlook.seq (.refl .any)).loop 0 none true

end Fragment

/-- Operands that lead to the same places and are quantified alike. -/
def OperandAgrees (nocase : Bool) (s : Array Char) (p p' : Regex × Quantified) : Prop :=
  p'.2 = p.2 ∧ Agrees nocase s p.1 p'.1

theorem OperandAgrees.refl (p : Regex × Quantified) : OperandAgrees nocase s p p := ⟨rfl, .refl _⟩

/-- A sign leads to the same places whatever a globstar says of dots. -/
theorem Glyph.agrees_operands (hs : Path.IsUnhidden s) (f : Bool → Bool) (dot : Bool) (g : Glyph) :
    List.Forall₂ (OperandAgrees nocase s) (g.operands dot) ((g.mapDots f).operands dot) := by
  cases g with
  | globstar dots => exact .cons ⟨rfl, Fragment.agrees_globstar hs _ _⟩ .nil
  | _ => exact List.forall₂_same.2 fun p _ => .refl p

/-! ## Groups -/

/-- Alternatives being read that lead to the same places. -/
structure LevelAgrees (nocase : Bool) (s : Array Char) (l l' : Level) : Prop where
  finished : List.Forall₂ (Agrees nocase s) l.finished l'.finished
  items : Agrees nocase s l.items l'.items
  last : Agrees nocase s l.last l'.last

namespace LevelAgrees

variable {l l' : Level}

theorem foldl_add (h : LevelAgrees nocase s l l') {ps ps' : List (Regex × Quantified)}
    (hps : List.Forall₂ (OperandAgrees nocase s) ps ps') :
    LevelAgrees nocase s (ps.foldl Level.add l) (ps'.foldl Level.add l') := by
  induction hps generalizing l l' with
  | nil => exact h
  | cons hp _ ih => exact ih ⟨h.finished, h.items.append h.last, hp.2⟩

theorem bar (h : LevelAgrees nocase s l l') : LevelAgrees nocase s l.bar l'.bar :=
  ⟨.cons (h.items.append h.last) h.finished, .refl _, .refl _⟩

theorem takenBy (hs : Path.IsUnhidden s) (f : Bool → Bool) (dot : Bool) (h : LevelAgrees nocase s l l')
    (g : Glyph) : LevelAgrees nocase s (g.takenBy dot l) ((g.mapDots f).takenBy dot l') := by
  cases g with
  | bar => exact h.bar
  | _ => exact h.foldl_add (Glyph.agrees_operands hs f dot _)

theorem allTakenBy (hs : Path.IsUnhidden s) (f : Bool → Bool) (dot : Bool) (h : LevelAgrees nocase s l l')
    (gs : List Glyph) :
    LevelAgrees nocase s (Glyph.allTakenBy dot l gs) (Glyph.allTakenBy dot l' (gs.map (·.mapDots f))) := by
  induction gs generalizing l l' with
  | nil => exact h
  | cons g gs ih => exact ih (h.takenBy hs f dot g)

theorem body (h : LevelAgrees nocase s l l') : Agrees nocase s l.body l'.body := by
  have hcontent := h.items.append h.last
  have hfinished := List.rel_reverse h.finished
  unfold Level.body
  generalize l.finished.reverse = rs at hfinished
  generalize l'.finished.reverse = rs' at hfinished
  cases hfinished with
  | nil => exact hcontent
  | cons hr hrs => exact hr.alts (List.rel_append hrs (.cons hcontent .nil))

end LevelAgrees

namespace Enclosed

/-- A group that leads to the same places is an operand that does. -/
theorem groupOperand?_agrees {r r' : Regex} (h : Agrees nocase s r r') (g : Option ExtGlob) (atEnd : Bool) :
    Option.Rel (OperandAgrees nocase s) (groupOperand? g r atEnd) (groupOperand? g r' atEnd) := by
  have hloop (lo : Nat) (hi : Option Nat) : Option.Rel (OperandAgrees nocase s)
      (if r.isRepeatable then some (.loop r lo hi false, .greedy) else none)
      (if r'.isRepeatable then some (.loop r' lo hi false, .greedy) else none) := by
    rw [h.isRepeatable]
    split
    · exact .some ⟨rfl, h.loop lo hi false⟩
    · exact .none
  cases g with
  | none => exact .some ⟨rfl, h.capture⟩
  | some g =>
    cases g with
    | exactlyOne => exact .some ⟨rfl, h⟩
    | zeroOrMore => exact hloop 0 none
    | oneOrMore => exact hloop 1 none
    | zeroOrOne => exact hloop 0 (some 1)
    | negate =>
      have hbody : Agrees nocase s (if atEnd then r.append .stop else r)
          (if atEnd then r'.append .stop else r') := by
        split
        · exact h.append (.refl .stop)
        · exact h
      exact .some ⟨rfl, hbody.notAhead.seq (.refl _)⟩

theorem operand?_agrees (hs : Path.IsUnhidden s) (f : Bool → Bool) (dot : Bool) (e : Enclosed) :
    Option.Rel (OperandAgrees nocase s) (e.operand? dot) ((e.mapDots f).operand? dot) := by
  cases e with
  | group g body atEnd =>
    have hstart : LevelAgrees nocase s { opening := .plain } { opening := .plain } :=
      ⟨.nil, .refl _, .refl _⟩
    exact groupOperand?_agrees (hstart.allTakenBy hs f dot body).body g atEnd
  | bracket b isClosed isFilled =>
    have hsame : operand? dot (mapDots f (.bracket b isClosed isFilled)) =
        operand? dot (.bracket b isClosed isFilled) := rfl
    rw [hsame]
    cases operand? dot (.bracket b isClosed isFilled) with
    | none => exact .none
    | some p => exact .some (.refl p)

end Enclosed

/-! ## Parts -/

namespace Part

theorem repeat?_agrees {p p' : Regex × Quantified} (h : OperandAgrees nocase s p p') :
    Option.Rel (OperandAgrees nocase s) (repeat? p) (repeat? p') := by
  obtain ⟨r, q⟩ := p
  obtain ⟨r', q'⟩ := p'
  obtain ⟨rfl, hr⟩ := h
  cases q' with
  | bare =>
    simp only [repeat?, hr.isRepeatable]
    split
    · exact .some ⟨rfl, hr.loop 1 none false⟩
    · exact .none
  | greedy | sparing => exact .some ⟨rfl, hr.atomic⟩
  | possessive => exact .none

theorem operands?_agrees (hs : Path.IsUnhidden s) (f : Bool → Bool) (dot : Bool) (p : Part) :
    Option.Rel (List.Forall₂ (OperandAgrees nocase s)) (p.operands? dot) ((p.mapDots f).operands? dot) := by
  cases p with
  | glyph g => exact .some (g.agrees_operands hs f dot)
  | enclosed e isRepeated =>
    have he : Option.Rel (OperandAgrees nocase s) (e.operand? dot) ((e.mapDots f).operand? dot) :=
      e.operand?_agrees hs f dot
    rw [operands?, mapDots, operands?]
    generalize e.operand? dot = q at he
    generalize (e.mapDots f).operand? dot = q' at he
    cases he with
    | none => exact .none
    | @some q q' hq =>
      have hrepeated : Option.Rel (OperandAgrees nocase s) (if isRepeated then repeat? q else some q)
          (if isRepeated then repeat? q' else some q') := by
        split
        · exact repeat?_agrees hq
        · exact .some hq
      simp only [Option.bind_some]
      generalize (if isRepeated then repeat? q else some q) = t at hrepeated
      generalize (if isRepeated then repeat? q' else some q') = t' at hrepeated
      cases hrepeated with
      | none => exact .none
      | some ht => exact .some (.cons ht .nil)

/-- On a text without hidden components parts lead to the same places behind its start, whatever their
globstars say of dots. -/
theorem regexes?_agrees (hs : Path.IsUnhidden s) (f : Bool → Bool) (dot : Bool) (ps : List Part) :
    Option.Rel (List.Forall₂ (Agrees nocase s)) (regexes? dot ps)
      (regexes? dot (ps.map (·.mapDots f))) := by
  induction ps with
  | nil => exact .some .nil
  | cons p ps ih =>
    have hp : Option.Rel (List.Forall₂ (OperandAgrees nocase s)) (p.operands? dot)
        ((p.mapDots f).operands? dot) := p.operands?_agrees hs f dot
    rw [List.map_cons, regexes?_cons, regexes?_cons]
    generalize p.operands? dot = os at hp
    generalize (p.mapDots f).operands? dot = os' at hp
    generalize regexes? dot ps = rs at ih
    generalize regexes? dot (ps.map (·.mapDots f)) = rs' at ih
    cases hp with
    | none => exact .none
    | @some os os' hos =>
      cases ih with
      | none => exact .none
      | some hrs =>
        have hregexes : List.Forall₂ (Agrees nocase s) (os.map (·.1)) (os'.map (·.1)) := by
          rw [List.forall₂_map_left_iff, List.forall₂_map_right_iff]
          exact hos.imp fun _ _ h => h.2
        exact .some (List.rel_append hregexes hrs)

end Part
end PathGlob
