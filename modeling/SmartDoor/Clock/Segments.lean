import Mathlib.Algebra.BigOperators.Group.Finset.Basic
import Mathlib.Algebra.Order.BigOperators.Group.Finset
import Mathlib.Order.Interval.Finset.Nat

/-!
# Segments of a line

Segments of given lengths follow one another from 0 on. Each point lies in one segment, at one
offset, and from the segment and the offset one gets the point back. Two loops look for it: one
adds the lengths up until the sum has passed the point, one takes them off the point for as long
as it can.
-/

namespace Segments

/-- Where a segment starts. -/
def start (len : Nat → Nat) (n : Nat) : Nat := ∑ k ∈ Finset.range n, len k

/-- A point lies in a segment. -/
def Within (len : Nat → Nat) (n point : Nat) : Prop :=
  start len n ≤ point ∧ point < start len (n + 1)

variable {len : Nat → Nat}

@[simp] theorem start_zero (len : Nat → Nat) : start len 0 = 0 := Finset.sum_range_zero len

theorem start_succ (len : Nat → Nat) (n : Nat) : start len (n + 1) = start len n + len n :=
  Finset.sum_range_succ len n

theorem start_mono (len : Nat → Nat) : Monotone (start len) :=
  monotone_nat_of_le_succ fun n => by
    rw [start_succ]
    exact Nat.le_add_right ..

theorem within_iff {n point : Nat} :
    Within len n point ↔ ∃ offset, point = start len n + offset ∧ offset < len n := by
  rw [Within, start_succ]
  constructor
  · rintro ⟨hle, hlt⟩
    exact ⟨point - start len n, by omega, by omega⟩
  · rintro ⟨offset, rfl, hlt⟩
    omega

/-- A point lies in one segment only. -/
theorem Within.unique {n m point : Nat} (hn : Within len n point) (hm : Within len m point) :
    n = m := by
  rcases Nat.lt_trichotomy n m with hlt | heq | hlt
  · have hle : start len (n + 1) ≤ start len m := start_mono len hlt
    have := hn.2
    have := hm.1
    omega
  · exact heq
  · have hle : start len (m + 1) ≤ start len n := start_mono len hlt
    have := hm.2
    have := hn.1
    omega

/-- A point before the start of a segment lies in one before it. -/
theorem exists_within {N point : Nat} (h : point < start len N) : ∃ n < N, Within len n point := by
  induction N with
  | zero =>
    rw [start_zero] at h
    exact absurd h (Nat.not_lt_zero point)
  | succ N ih =>
    rcases Nat.lt_or_ge point (start len N) with hlt | hge
    · obtain ⟨n, hn, hwithin⟩ := ih hlt
      exact ⟨n, by omega, hwithin⟩
    · exact ⟨N, Nat.lt_succ_self N, hge, h⟩

/-- When all segments have some length, the points before a segment are at least as many as the
segments. -/
theorem le_start {least : Nat} (h : ∀ n, least ≤ len n) (n : Nat) : n * least ≤ start len n := by
  induction n with
  | zero => exact (Nat.zero_mul least).le.trans (Nat.zero_le _)
  | succ n ih =>
    rw [start_succ, Nat.succ_mul]
    exact Nat.add_le_add ih (h n)

theorem start_le {most : Nat} (h : ∀ n, len n ≤ most) (n : Nat) : start len n ≤ n * most := by
  induction n with
  | zero => exact (start_zero len).le.trans (Nat.zero_le _)
  | succ n ih =>
    rw [start_succ, Nat.succ_mul]
    exact Nat.add_le_add ih (h n)

end Segments
