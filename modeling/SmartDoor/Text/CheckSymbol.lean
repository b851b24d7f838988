import Mathlib.Data.List.Nodup
import Mathlib.Logic.Function.Basic

/-!
# Check symbols

A word has a symbol at each position. Those at the positions of the message are combined,
one after the other, and the word is accepted if the result is the symbol at the position
of the check. Where the operation cancels on both sides, no two accepted words differ at
exactly one position.
-/

namespace CheckSymbol

variable {ι α : Type}

/-- The positions of a word, each used once. -/
structure Layout (ι : Type) where
  first : ι
  others : List ι
  check : ι
  nodup : (check :: first :: others).Nodup

/-- The symbols at some positions, combined from a start value on. -/
def combine (op : α → α → α) (w : ι → α) (start : α) (positions : List ι) : α :=
  positions.foldl (fun acc i => op acc (w i)) start

/-- The operation cancels on both sides. -/
structure Cancels (op : α → α → α) : Prop where
  left : ∀ a, Function.Injective (op a)
  right : ∀ b, Function.Injective fun a => op a b

variable {op : α → α → α} {v w : ι → α}

theorem combine_congr (op : α → α → α) {positions : List ι} (h : ∀ i ∈ positions, v i = w i)
    (start : α) : combine op v start positions = combine op w start positions := by
  induction positions generalizing start with
  | nil => rfl
  | cons i positions ih =>
    unfold combine at ih ⊢
    rw [List.foldl_cons, List.foldl_cons, h i List.mem_cons_self]
    exact ih (fun j hj => h j (List.mem_cons_of_mem i hj)) _

theorem Cancels.combine_injective (hop : Cancels op) (w : ι → α) (positions : List ι) :
    Function.Injective fun start => combine op w start positions := by
  induction positions with
  | nil => exact Function.injective_id
  | cons i positions ih => exact fun a b h => hop.right (w i) (ih h)

/-- A single symbol is determined by the result and the symbols at the other positions. -/
theorem Cancels.combine_cancel (hop : Cancels op) {positions : List ι} (hnodup : positions.Nodup)
    {i : ι} (hi : i ∈ positions) (hsame : ∀ j ∈ positions, j ≠ i → v j = w j) {start : α}
    (h : combine op v start positions = combine op w start positions) : v i = w i := by
  induction positions generalizing start with
  | nil => exact absurd hi List.not_mem_nil
  | cons p positions ih =>
    obtain ⟨hp, hnodup⟩ := List.nodup_cons.mp hnodup
    unfold combine at h ih
    rw [List.foldl_cons, List.foldl_cons] at h
    rcases List.mem_cons.mp hi with rfl | hi
    · -- the positions behind `i` carry the same symbols, so they cancel
      have hbehind : ∀ j ∈ positions, v j = w j := fun j hj =>
        hsame j (List.mem_cons_of_mem i hj) (ne_of_mem_of_not_mem hj hp)
      have hcombine := (combine_congr op hbehind (op start (v i))).symm.trans h
      exact hop.left start (hop.combine_injective w positions hcombine)
    · rw [hsame p List.mem_cons_self (ne_of_mem_of_not_mem hi hp).symm] at h
      exact ih hnodup hi (fun j hj => hsame j (List.mem_cons_of_mem p hj)) h

namespace Layout

variable (layout : Layout ι)

/-- What the check symbol should be. -/
def sum (op : α → α → α) (w : ι → α) : α := combine op w (w layout.first) layout.others

/-- The check symbol is the right one. -/
def Accepts (op : α → α → α) (w : ι → α) : Prop := layout.sum op w = w layout.check

/-- All positions that matter. -/
def positions : List ι := layout.check :: layout.first :: layout.others

variable {layout}

theorem check_mem : layout.check ∈ layout.positions := List.mem_cons_self

theorem first_mem : layout.first ∈ layout.positions :=
  List.mem_cons_of_mem _ List.mem_cons_self

theorem others_mem {j : ι} (hj : j ∈ layout.others) : j ∈ layout.positions :=
  List.mem_cons_of_mem _ (List.mem_cons_of_mem _ hj)

/-- Two accepted words that agree at all positions but one agree there too. -/
theorem Accepts.agree (hop : Cancels op) (hv : layout.Accepts op v) (hw : layout.Accepts op w)
    {i : ι} (hi : i ∈ layout.positions) (hsame : ∀ j ∈ layout.positions, j ≠ i → v j = w j) :
    v i = w i := by
  obtain ⟨hcheck, hnodup⟩ := List.nodup_cons.mp layout.nodup
  obtain ⟨hfirst, hnodup⟩ := List.nodup_cons.mp hnodup
  unfold Accepts sum at hv hw
  rcases List.mem_cons.mp hi with rfl | hmessage
  · -- the same message has the same check symbol
    have hmessage : ∀ j ∈ layout.first :: layout.others, v j = w j := fun j hj =>
      hsame j (List.mem_cons_of_mem _ hj) (ne_of_mem_of_not_mem hj hcheck)
    rw [← hv, ← hw, hmessage layout.first List.mem_cons_self]
    exact combine_congr op (fun j hj => hmessage j (List.mem_cons_of_mem _ hj)) _
  · have hsum : combine op v (v layout.first) layout.others =
        combine op w (w layout.first) layout.others := by
      rw [hv, hw]
      exact hsame _ check_mem (ne_of_mem_of_not_mem hmessage hcheck).symm
    rcases List.mem_cons.mp hmessage with rfl | hother
    · have hothers : ∀ j ∈ layout.others, v j = w j := fun j hj =>
        hsame j (others_mem hj) (ne_of_mem_of_not_mem hj hfirst)
      have hcombine := (combine_congr op hothers (v layout.first)).symm.trans hsum
      exact hop.combine_injective w layout.others hcombine
    · rw [hsame layout.first first_mem (ne_of_mem_of_not_mem hother hfirst).symm] at hsum
      exact hop.combine_cancel hnodup hother (fun j hj => hsame j (others_mem hj)) hsum

end Layout

end CheckSymbol
