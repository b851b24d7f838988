import Mathlib.Data.List.Basic
import Mathlib.Data.List.Chain

/-!
# Periodic jobs

A job fires at an update when its period has passed since it fired last, and is used up after
so many firings. Nobody calls it in between, so it fires at the first update that is late
enough, and counts its next period from there. The times at which it fires are read off the
times of the updates; the number of firings cuts this list off.
-/

namespace Run

/-- A job: its period, how often it still fires if there is a bound, and when it fired last. -/
structure Job where
  period : Nat
  left : Option Nat
  since : Nat
  deriving DecidableEq, Repr

namespace Job

/-- The period has passed. -/
def Due (now : Nat) (j : Job) : Prop := j.period ≤ now - j.since

instance (now : Nat) (j : Job) : Decidable (j.Due now) := inferInstanceAs (Decidable (_ ≤ _))

/-- The job after it fired. -/
def fired (now : Nat) (j : Job) : Job := { j with since := now, left := j.left.map (· - 1) }

/-- The job, unless it is used up. -/
def settled (j : Job) : Option Job := if j.left = some 0 then none else some j

theorem settled_eq_none {j : Job} : j.settled = none ↔ j.left = some 0 := by
  rw [settled]
  split <;> simp [*]

theorem settled_eq_some {j j' : Job} : j.settled = some j' ↔ j = j' ∧ j.left ≠ some 0 := by
  rw [settled]
  split <;> simp [*]

/-- What an update makes of a job. -/
def tick (now : Nat) (j : Job) : Option Job :=
  (if j.Due now then j.fired now else j).settled

/-- The times at which a job fires, out of those at which it is updated. -/
def firings (j : Job) : List Nat → List Nat
  | [] => []
  | now :: times =>
    (if j.Due now then [now] else []) ++ match j.tick now with
      | none => []
      | some j => j.firings times

/-- The job after these updates, unless it is used up. -/
def after (j : Job) : List Nat → Option Job
  | [] => some j
  | now :: times => match j.tick now with
    | none => none
    | some j => j.after times

/-- The times at which a job without a bound fires. -/
def greedy (period since : Nat) : List Nat → List Nat
  | [] => []
  | now :: times =>
    if period ≤ now - since then now :: greedy period now times else greedy period since times

theorem firings_of_none {now : Nat} {j : Job} (h : j.tick now = none) (times : List Nat) :
    j.firings (now :: times) = if j.Due now then [now] else [] := by
  rw [firings, h]
  exact List.append_nil _

theorem firings_of_some {now : Nat} {j j' : Job} (h : j.tick now = some j') (times : List Nat) :
    j.firings (now :: times) = (if j.Due now then [now] else []) ++ j'.firings times := by
  rw [firings, h]

/-- A job fires at the first update that is late enough, and no more often than it is to. -/
theorem firings_eq (j : Job) (hleft : j.left ≠ some 0) (times : List Nat) :
    j.firings times = match j.left with
      | none => greedy j.period j.since times
      | some n => (greedy j.period j.since times).take n := by
  induction times generalizing j with
  | nil => cases j.left <;> simp [firings, greedy]
  | cons now times ih =>
    obtain ⟨period, left, since⟩ := j
    by_cases hdue : period ≤ now - since
    · have hfires : Due now ⟨period, left, since⟩ := hdue
      cases left with
      | none =>
        have htick : tick now ⟨period, none, since⟩ = some ⟨period, none, now⟩ := by
          simp [tick, hfires, fired, settled]
        rw [firings_of_some htick, if_pos hfires, ih _ (by simp)]
        simp only [greedy, if_pos hdue, List.singleton_append]
      | some n =>
        obtain ⟨n, rfl⟩ := Nat.exists_eq_succ_of_ne_zero fun h0 => hleft (congrArg some h0)
        simp only [greedy, if_pos hdue, Nat.succ_eq_add_one, List.take_succ_cons]
        cases n with
        | zero =>
          have htick : tick now ⟨period, some 1, since⟩ = none := by
            simp [tick, hfires, fired, settled]
          rw [firings_of_none htick, if_pos hfires, List.take_zero]
        | succ n =>
          have htick : tick now ⟨period, some (n + 1 + 1), since⟩ =
              some ⟨period, some (n + 1), now⟩ := by
            simp [tick, hfires, fired, settled]
          rw [firings_of_some htick, if_pos hfires, ih _ (by simp)]
          rfl
    · have hwaits : ¬ Due now ⟨period, left, since⟩ := hdue
      have htick : tick now ⟨period, left, since⟩ = some ⟨period, left, since⟩ := by
        rw [tick, if_neg hwaits]
        exact if_neg hleft
      rw [firings_of_some htick, if_neg hwaits, List.nil_append, ih _ hleft]
      simp only [greedy, if_neg hdue]

/-- A job that may still fire is there after the updates. -/
theorem after_isSome_iff (j : Job) (hleft : j.left ≠ some 0) (times : List Nat) :
    (j.after times).isSome ↔ ∀ n ∈ j.left, (j.firings times).length < n := by
  induction times generalizing j with
  | nil =>
    simp only [after, Option.isSome_some, firings, List.length_nil, true_iff]
    intro n hn
    rcases Nat.eq_zero_or_pos n with rfl | hpos
    · exact absurd hn hleft
    · exact hpos
  | cons now times ih =>
    rw [after]
    cases htick : j.tick now with
    | none =>
      rw [firings_of_none htick]
      have hlast : (if j.Due now then j.fired now else j).left = some 0 :=
        settled_eq_none.mp htick
      by_cases hdue : j.Due now
      · rw [if_pos hdue] at hlast ⊢
        obtain ⟨n, hn, hzero⟩ := Option.map_eq_some_iff.mp hlast
        simp only [Option.isSome_none, Bool.false_eq_true, List.length_singleton, false_iff]
        intro hall
        have := hall n hn
        omega
      · rw [if_neg hdue] at hlast
        exact absurd hlast hleft
    | some j' =>
      obtain ⟨hstep, hleft'⟩ := settled_eq_some.mp htick
      rw [hstep] at hleft'
      rw [firings_of_some htick]
      simp only
      rw [ih j' hleft']
      by_cases hdue : j.Due now
      · rw [if_pos hdue] at hstep ⊢
        obtain rfl := hstep
        cases hl : j.left with
        | none => simp [fired, hl]
        | some n =>
          simp only [fired, hl, Option.map_some, Option.mem_def, Option.some.injEq, forall_eq',
            List.length_append, List.length_singleton]
          omega
      · rw [if_neg hdue] at hstep ⊢
        rw [← hstep, List.nil_append]

/-! ## Spacing -/

/-- Two firings are a period apart. -/
theorem chain_greedy (period : Nat) {since : Nat} {times : List Nat}
    (hsorted : (since :: times).Pairwise (· ≤ ·)) :
    (since :: greedy period since times).IsChain fun a b => a + period ≤ b := by
  induction times generalizing since with
  | nil => exact List.isChain_singleton _
  | cons now times ih =>
    obtain ⟨hsince, hsorted⟩ := List.pairwise_cons.mp hsorted
    have hle := hsince now (List.mem_cons_self ..)
    rw [greedy]
    split
    · exact List.isChain_cons_cons.mpr ⟨by omega, ih hsorted⟩
    · apply ih
      obtain ⟨-, hsorted⟩ := List.pairwise_cons.mp hsorted
      exact List.pairwise_cons.mpr ⟨fun t ht => hsince t (List.mem_cons_of_mem _ ht), hsorted⟩

/-- At an update at which a job does not fire, it has fired less than a period ago. -/
theorem fired_lately (period : Nat) {since : Nat} {times : List Nat}
    (hsorted : (since :: times).Pairwise (· ≤ ·)) {now : Nat} (hnow : now ∈ times) :
    ∃ t ∈ since :: greedy period since times, t ≤ now ∧ (now < t + period ∨ t = now) := by
  induction times generalizing since with
  | nil => exact absurd hnow List.not_mem_nil
  | cons first times ih =>
    obtain ⟨hsince, hsorted⟩ := List.pairwise_cons.mp hsorted
    have hle := hsince first (List.mem_cons_self ..)
    rw [greedy]
    by_cases hdue : period ≤ first - since
    · rw [if_pos hdue]
      rcases List.mem_cons.mp hnow with rfl | hmem
      · exact ⟨now, by simp, le_rfl, Or.inr rfl⟩
      · obtain ⟨t, ht, hrest⟩ := ih hsorted hmem
        exact ⟨t, List.mem_cons_of_mem _ ht, hrest⟩
    · rw [if_neg hdue]
      rcases List.mem_cons.mp hnow with rfl | hmem
      · exact ⟨since, List.mem_cons_self .., hle, Or.inl (by omega)⟩
      · obtain ⟨-, hsorted⟩ := List.pairwise_cons.mp hsorted
        exact ih (List.pairwise_cons.mpr
          ⟨fun t ht => hsince t (List.mem_cons_of_mem _ ht), hsorted⟩) hmem

end Job

end Run
