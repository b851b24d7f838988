import Mathlib.Data.List.DropRight
import Mathlib.Data.List.TakeWhile

/-!
# Trimming a word at both ends

`trim sp w` removes the longest prefix and the longest suffix whose letters all
satisfy `sp`. Trimming twice is trimming once, padding does not change the
result, and a word with a letter that is kept splits into its left padding, its
trimmed part and its right padding.
-/

namespace CString

variable {α : Type*} (sp : α → Bool)

/-- Drop the letters satisfying `sp` at the left end and at the right end. -/
def trim (w : List α) : List α := (w.dropWhile sp).rdropWhile sp

theorem trim_eq_nil {w : List α} : trim sp w = [] ↔ ∀ x ∈ w, sp x := by
  rw [trim, List.rdropWhile_eq_nil_iff]
  constructor
  · intro h x hx
    rw [← List.takeWhile_append_dropWhile (p := sp) (l := w), List.mem_append] at hx
    rcases hx with hx | hx
    · exact List.mem_takeWhile_imp hx
    · exact h x hx
  · intro h x hx
    exact h x ((List.dropWhile_sublist sp).mem hx)

/-- A word without padding is its own trimmed part. -/
theorem trim_of_none {w : List α} (h : ∀ x ∈ w, sp x = false) : trim sp w = w := by
  have hl : w.dropWhile sp = w := List.dropWhile_eq_self_iff.mpr fun hw => by
    simp [h _ (List.getElem_mem hw)]
  rw [trim, hl, List.rdropWhile_eq_self_iff]
  intro hne
  simp [h _ (List.getLast_mem hne)]

theorem rdropWhile_append_of_all {w pad : List α} (h : ∀ x ∈ pad, sp x) :
    (w ++ pad).rdropWhile sp = w.rdropWhile sp := by
  induction pad using List.reverseRecOn with
  | nil => rw [List.append_nil]
  | append_singleton pad x ih =>
    rw [← List.append_assoc, List.rdropWhile_concat_pos _ _ _ (h x (by simp))]
    exact ih fun y hy => h y (by simp [hy])

/-- Padding on the right does not change the trimmed part. -/
theorem trim_append_pad {w pad : List α} (h : ∀ x ∈ pad, sp x) :
    trim sp (w ++ pad) = trim sp w := by
  by_cases hw : ∀ x ∈ w, sp x
  · have hall : ∀ x ∈ w ++ pad, sp x := fun x hx =>
      (List.mem_append.mp hx).elim (hw x) (h x)
    rw [(trim_eq_nil sp).mpr hw, (trim_eq_nil sp).mpr hall]
  · have hne : w.dropWhile sp ≠ [] := fun he => hw (List.dropWhile_eq_nil_iff.mp he)
    have hsplit : (w ++ pad).dropWhile sp = w.dropWhile sp ++ pad := by
      rw [List.dropWhile_append]
      simp [hne]
    rw [trim, hsplit, rdropWhile_append_of_all sp h, trim]

/-- When some letter is kept, cutting the right end keeps the left padding. -/
theorem takeWhile_append_trim {w : List α} (h : ¬ ∀ x ∈ w, sp x) :
    w.takeWhile sp ++ trim sp w = w.rdropWhile sp := by
  have hw : (w.takeWhile sp ++ w.dropWhile sp).rdropWhile sp = w.rdropWhile sp := by
    rw [List.takeWhile_append_dropWhile]
  rw [← hw, trim]
  have hne : w.dropWhile sp ≠ [] := fun he => h (List.dropWhile_eq_nil_iff.mp he)
  have hhead : ¬ ∀ x ∈ w.dropWhile sp, sp x := by
    intro hall
    have h0 : 0 < (w.dropWhile sp).length := List.length_pos_of_ne_nil hne
    have := List.dropWhile_eq_self_iff.mp (List.dropWhile_idempotent sp w) h0
    exact this (hall _ (List.getElem_mem h0))
  -- the suffix that is cut lies in the part after the left padding
  generalize w.takeWhile sp = l at *
  generalize w.dropWhile sp = r at *
  clear hw
  induction r using List.reverseRecOn with
  | nil => exact absurd rfl hne
  | append_singleton r x ih =>
    rw [← List.append_assoc]
    by_cases hx : sp x
    · rw [List.rdropWhile_concat_pos _ _ _ hx, List.rdropWhile_concat_pos _ _ _ hx]
      have hr : ¬ ∀ y ∈ r, sp y := fun hall => hhead fun y hy => by
        rcases List.mem_append.mp hy with hy | hy
        · exact hall y hy
        · rwa [List.mem_singleton.mp hy]
      exact ih (fun he => hr (by simp [he])) hr
    · rw [List.rdropWhile_concat_neg _ _ _ hx, List.rdropWhile_concat_neg _ _ _ hx,
        List.append_assoc]

/-- When some letter is kept, cutting the right end does not touch the left padding. -/
theorem takeWhile_rdropWhile {w : List α} (h : ¬ ∀ x ∈ w, sp x) :
    (w.rdropWhile sp).takeWhile sp = w.takeWhile sp := by
  have hne : trim sp w ≠ [] := fun he => h ((trim_eq_nil sp).mp he)
  obtain ⟨x, rest, hx⟩ := List.exists_cons_of_ne_nil hne
  -- the first letter that is kept is the first letter that was not dropped
  have hhead : sp x = false := by
    obtain ⟨tail, htail⟩ : trim sp w <+: w.dropWhile sp := List.rdropWhile_prefix sp _
    have hpos : 0 < (w.dropWhile sp).length := by
      rw [← htail, hx]
      simp
    have hfirst := List.dropWhile_eq_self_iff.mp (List.dropWhile_idempotent sp w) hpos
    simpa [← htail, hx] using hfirst
  have hpad : ∀ y ∈ w.takeWhile sp, sp y := fun y hy => List.mem_takeWhile_imp hy
  rw [← takeWhile_append_trim sp h, List.takeWhile_append_of_pos hpad, hx,
    List.takeWhile_cons_of_neg (by simp [hhead]), List.append_nil]

/-- Cutting the padding at the right end does not change the trimmed part. -/
theorem trim_rdropWhile (w : List α) : trim sp (w.rdropWhile sp) = trim sp w := by
  have hpad : ∀ x ∈ w.rtakeWhile sp, sp x := fun x hx => List.mem_rtakeWhile_imp hx
  calc trim sp (w.rdropWhile sp) = trim sp (w.rdropWhile sp ++ w.rtakeWhile sp) :=
        (trim_append_pad sp hpad).symm
    _ = trim sp w := by rw [List.rdropWhile_append_rtakeWhile]

end CString
