import Mathlib.Data.Set.Lattice
import Mathlib.Data.List.Pairwise

/-!
# Inks

An ink says for each point of a picture whether it touches the point, and what it does to the
value there. Inks that touch no point together can be put on one after the other or at once,
and in any number.
-/

namespace Ink

open Classical

variable {P V ι : Type*}

/-- The picture after an ink. -/
def on (s : P → Option (V → V)) (img : P → V) : P → V := fun p =>
  match s p with
  | none => img p
  | some f => f (img p)

/-- Two inks in one. -/
def both (s t : P → Option (V → V)) : P → Option (V → V) := fun p => (s p).or (t p)

/-- No point is touched by both inks. -/
def Apart (s t : P → Option (V → V)) : Prop := ∀ p, s p = none ∨ t p = none

/-- The ink that does the same at each point of a set. -/
noncomputable def fill (S : Set P) (f : V → V) : P → Option (V → V) := fun p =>
  if p ∈ S then some f else none

/-- Inks that touch no point together can be put on at once. -/
theorem on_both {s t : P → Option (V → V)} (h : Apart s t) (img : P → V) :
    on t (on s img) = on (both s t) img := by
  funext p
  rcases h p with hp | hp
  · simp [on, both, hp]
  · simp only [on, both, hp, Option.or_none]

/-- Two fillings that do the same fill the union. -/
theorem both_fill (S T : Set P) (f : V → V) : both (fill S f) (fill T f) = fill (S ∪ T) f := by
  funext p
  by_cases hS : p ∈ S <;> by_cases hT : p ∈ T <;> simp [both, fill, hS, hT]

/-- Fillings of disjoint sets touch no point together. -/
theorem apart_fill {S T : Set P} (h : ∀ p ∈ S, p ∉ T) (f g : V → V) :
    Apart (fill S f) (fill T g) := by
  intro p
  by_cases hS : p ∈ S
  · exact Or.inr (if_neg fun hT => h p hS hT)
  · exact Or.inl (if_neg hS)

/-- Nothing is filled. -/
theorem on_fill_empty (f : V → V) (img : P → V) : on (fill ∅ f) img = img := by
  funext p
  simp [on, fill]

/-- A filling that changes nothing. -/
theorem on_fill_id (S : Set P) (img : P → V) : on (fill S id) img = img := by
  funext p
  by_cases hS : p ∈ S <;> simp [on, fill, hS]

/-- Two fillings with one ink, side by side. -/
theorem on_fill_union {S T : Set P} (h : ∀ p ∈ S, p ∉ T) (f : V → V) (img : P → V) :
    on (fill T f) (on (fill S f) img) = on (fill (S ∪ T) f) img := by
  rw [on_both (apart_fill h f f), both_fill]

/-- The picture after a filling, point by point. -/
theorem on_fill_apply (S : Set P) (f : V → V) (img : P → V) (p : P) :
    on (fill S f) img p = if p ∈ S then f (img p) else img p := by
  by_cases hS : p ∈ S <;> simp [on, fill, hS]

end Ink
