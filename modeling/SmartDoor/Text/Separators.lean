import Mathlib.Data.List.Basic

/-!
# Separators and line ends

A text whose fields end at a separator that does not occur in them is cut in one way only, and
so is one whose lines end in an end of line that occurs nowhere else.
-/

namespace Separators

variable {α : Type*} {a : α}

/-- A text is cut at the first separator. -/
theorem cut {x y z w : List α} (hx : a ∉ x) (hy : a ∉ y) (h : x ++ a :: z = y ++ a :: w) :
    x = y ∧ z = w := by
  induction x generalizing y with
  | nil =>
    cases y with
    | nil => exact ⟨rfl, (List.cons.inj h).2⟩
    | cons d y => exact absurd ((List.cons.inj h).1 ▸ List.mem_cons_self) hy
  | cons c x ih =>
    cases y with
    | nil => exact absurd ((List.cons.inj h).1 ▸ List.mem_cons_self) hx
    | cons d y =>
      obtain ⟨rfl, htail⟩ := List.cons.inj h
      obtain ⟨rfl, rfl⟩ := ih (fun hc => hx (List.mem_cons_of_mem _ hc))
        (fun hc => hy (List.mem_cons_of_mem _ hc)) htail
      exact ⟨rfl, rfl⟩

/-- An end of line at the end, and nowhere else. -/
def Ended (a : α) (l : List α) : Prop := ∃ w, a ∉ w ∧ l = w ++ [a]

/-- A text of lines is the beginning of another one only line by line. -/
theorem prefix_of_flatten {ls ms : List (List α)} (hls : ∀ l ∈ ls, Ended a l)
    (hms : ∀ l ∈ ms, Ended a l) (h : ls.flatten <+: ms.flatten) : ls <+: ms := by
  induction ls generalizing ms with
  | nil => exact List.nil_prefix
  | cons l ls ih =>
    obtain ⟨w, hw, rfl⟩ := hls l List.mem_cons_self
    obtain ⟨rest, hrest⟩ := h
    cases ms with
    | nil => simp at hrest
    | cons m ms =>
      obtain ⟨v, hv, rfl⟩ := hms m List.mem_cons_self
      have heq : w ++ a :: (ls.flatten ++ rest) = v ++ a :: ms.flatten := by
        simpa using hrest
      obtain ⟨rfl, htail⟩ := cut hw hv heq
      exact (List.prefix_cons_inj _).mpr (ih (fun l hl => hls l (List.mem_cons_of_mem _ hl))
        (fun m hm => hms m (List.mem_cons_of_mem _ hm)) ⟨rest, htail⟩)

/-- What can be read off the items of a text can be read off the text. -/
theorem prefix_map {β γ δ : Type*} {f : β → α} {g : γ → α} {p : β → δ} {q : γ → δ} {xs : List β}
    {ys : List γ} (hread : ∀ x ∈ xs, ∀ y ∈ ys, f x = g y → p x = q y)
    (h : xs.map f <+: ys.map g) : xs.map p <+: ys.map q := by
  induction xs generalizing ys with
  | nil => exact List.nil_prefix
  | cons x xs ih =>
    cases ys with
    | nil => simp at h
    | cons y ys =>
      obtain ⟨hhead, htail⟩ := List.cons_prefix_cons.mp h
      exact List.cons_prefix_cons.mpr
        ⟨hread x List.mem_cons_self y List.mem_cons_self hhead,
          ih (fun x hx y hy => hread x (List.mem_cons_of_mem _ hx) y (List.mem_cons_of_mem _ hy))
            htail⟩

end Separators
