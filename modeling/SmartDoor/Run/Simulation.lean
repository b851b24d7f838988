import SmartDoor.Run.Guarded

/-!
# Runs that another machine mirrors

A machine is viewed as a part of a larger one. When each step of the larger machine is
mirrored by some steps of the part, which may depend on the step, its state and its result, each
run is mirrored by the run of all these steps. So what holds in every run of the part
holds in every run of the whole.
-/

namespace Run

variable {σ α τ β ε ε' : Type} {step : σ → α → Except ε σ} {step' : τ → β → Except ε' τ}

theorem foldlM_append_ok {s t : σ} {as bs : List α} :
    (as ++ bs).foldlM step s = .ok t ↔ ∃ u, as.foldlM step s = .ok u ∧ bs.foldlM step u = .ok t := by
  induction as generalizing s with
  | nil => exact ⟨fun h => ⟨s, rfl, h⟩, fun ⟨u, hu, h⟩ => by cases hu; exact h⟩
  | cons a as ih =>
    rw [List.cons_append, foldlM_cons_ok]
    constructor
    · rintro ⟨u, hu, h⟩
      obtain ⟨v, hv, h⟩ := ih.mp h
      exact ⟨v, foldlM_cons_ok.mpr ⟨u, hu, hv⟩, h⟩
    · rintro ⟨v, hv, h⟩
      obtain ⟨u, hu, hv⟩ := foldlM_cons_ok.mp hv
      exact ⟨u, hu, ih.mpr ⟨v, hv, h⟩⟩

/-- A run of steps that cannot fail. -/
theorem foldlM_ok (f : τ → β → τ) (s : τ) (bs : List β) :
    bs.foldlM (fun s b => Except.ok (ε := ε) (f s b)) s = .ok (bs.foldl f s) := by
  induction bs generalizing s with
  | nil => rfl
  | cons b bs ih => exact ih (f s b)

/-- The steps that mirror a run. -/
def mirror (step : σ → α → Except ε σ) (m : σ → α → σ → List β) : σ → List α → List β
  | _, [] => []
  | s, a :: as =>
    match step s a with
    | .error _ => []
    | .ok t => m s a t ++ mirror step m t as

theorem mirror_cons {m : σ → α → σ → List β} {s t : σ} {a : α} (h : step s a = .ok t)
    (as : List α) : mirror step m s (a :: as) = m s a t ++ mirror step m t as := by
  rw [mirror, h]

/-- When each step is mirrored, so is each run. -/
theorem mirrored (view : σ → τ) (I : σ → Prop) {m : σ → α → σ → List β} {as : List α}
    (hinv : ∀ {s a t}, a ∈ as → I s → step s a = .ok t → I t)
    (hstep : ∀ {s a t}, a ∈ as → I s → step s a = .ok t →
      (m s a t).foldlM step' (view s) = .ok (view t))
    {s t : σ} (hs : I s) (h : as.foldlM step s = .ok t) :
    (mirror step m s as).foldlM step' (view s) = .ok (view t) := by
  induction as generalizing s with
  | nil =>
    obtain rfl := Except.ok.inj h
    rfl
  | cons a as ih =>
    have ha := List.mem_cons_self (a := a) (l := as)
    obtain ⟨u, hu, h⟩ := foldlM_cons_ok.mp h
    rw [mirror_cons hu, foldlM_append_ok]
    exact ⟨_, hstep ha hs hu, ih (fun hb => hinv (List.mem_cons_of_mem _ hb))
      (fun hb => hstep (List.mem_cons_of_mem _ hb)) (hinv ha hs hu) h⟩

end Run
