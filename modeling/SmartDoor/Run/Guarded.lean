import Mathlib.Logic.Basic

/-!
# Runs of a step that can fail

A run folds a step function over a list of actions and stops at the first error.
A run is guarded by a condition when each action meets it in the state in which
the action is taken. An invariant that every successful step keeps holds after
every successful run; an invariant that lets every guarded action succeed makes
every guarded run succeed.
-/

namespace Run

variable {σ α ε : Type} {step : σ → α → Except ε σ}

/-- A run of one more action. -/
theorem foldlM_cons_ok {s t : σ} {a : α} {as : List α} :
    (a :: as).foldlM step s = .ok t ↔ ∃ u, step s a = .ok u ∧ as.foldlM step u = .ok t := by
  rw [List.foldlM_cons]
  cases h : step s a with
  | error e =>
    constructor
    · intro hr
      cases hr
    · rintro ⟨u, hu, _⟩
      cases hu
  | ok u => exact ⟨fun hr => ⟨u, rfl, hr⟩, fun ⟨_, hu, hr⟩ => by cases hu; exact hr⟩

/-- What every successful step keeps holds after every successful run. -/
theorem invariant {I : σ → Prop} (hstep : ∀ {s a t}, I s → step s a = .ok t → I t) {s t : σ}
    {as : List α} (hs : I s) (h : as.foldlM step s = .ok t) : I t := by
  induction as generalizing s with
  | nil =>
    cases h
    exact hs
  | cons a as ih =>
    obtain ⟨u, hu, h⟩ := foldlM_cons_ok.mp h
    exact ih (hstep hs hu) h

/-- Every action of the run meets the condition in the state it finds. -/
def Guarded (step : σ → α → Except ε σ) (c : σ → α → Prop) : σ → List α → Prop
  | _, [] => True
  | s, a :: as => c s a ∧ ∀ t, step s a = .ok t → Guarded step c t as

instance decidableGuarded (c : σ → α → Prop) [∀ s a, Decidable (c s a)] (s : σ) (as : List α) :
    Decidable (Guarded step c s as) :=
  match as with
  | [] => isTrue trivial
  | a :: as =>
    match h : step s a with
    | .error e => decidable_of_iff (c s a)
        ⟨fun hc => ⟨hc, fun t ht => by rw [h] at ht; cases ht⟩, fun hg => hg.1⟩
    | .ok t =>
      have := decidableGuarded c t as
      decidable_of_iff (c s a ∧ Guarded step c t as)
        ⟨fun hc => ⟨hc.1, fun u hu => by rw [h] at hu; cases hu; exact hc.2⟩,
          fun hg => ⟨hg.1, hg.2 t h⟩⟩

/-- When the invariant lets each guarded action succeed and is kept by it, a
guarded run succeeds and ends with the invariant. -/
theorem Guarded.invariant {c : σ → α → Prop} {I : σ → Prop}
    (hstep : ∀ {s a}, I s → c s a → ∃ t, step s a = .ok t ∧ I t) {s : σ} {as : List α}
    (hs : I s) (hg : Guarded step c s as) : ∃ t, as.foldlM step s = .ok t ∧ I t := by
  induction as generalizing s with
  | nil => exact ⟨s, rfl, hs⟩
  | cons a as ih =>
    obtain ⟨u, hu, hinv⟩ := hstep hs hg.1
    obtain ⟨t, ht, hi⟩ := ih hinv (hg.2 u hu)
    exact ⟨t, foldlM_cons_ok.mpr ⟨u, hu, ht⟩, hi⟩

/-- What every guarded action keeps holds after every successful guarded run. -/
theorem Guarded.kept {c : σ → α → Prop} {I : σ → Prop}
    (hstep : ∀ {s a t}, I s → c s a → step s a = .ok t → I t) {s t : σ} {as : List α} (hs : I s)
    (hg : Guarded step c s as) (h : as.foldlM step s = .ok t) : I t := by
  induction as generalizing s with
  | nil =>
    obtain rfl := Except.ok.inj h
    exact hs
  | cons a as ih =>
    obtain ⟨u, hu, h⟩ := foldlM_cons_ok.mp h
    exact ih (hstep hs hg.1 hu) (hg.2 u hu) h

/-- A run that is guarded by two conditions. -/
theorem Guarded.and {c d : σ → α → Prop} {s : σ} {as : List α} (h : Guarded step c s as)
    (h' : Guarded step d s as) : Guarded step (fun s a => c s a ∧ d s a) s as := by
  induction as generalizing s with
  | nil => trivial
  | cons a as ih => exact ⟨⟨h.1, h'.1⟩, fun t ht => ih (h.2 t ht) (h'.2 t ht)⟩

/-- The beginning of a guarded run is guarded. -/
theorem Guarded.of_prefix {c : σ → α → Prop} {s : σ} {as bs : List α} (hpre : as <+: bs)
    (h : Guarded step c s bs) : Guarded step c s as := by
  induction as generalizing s bs with
  | nil => trivial
  | cons a as ih =>
    obtain ⟨rest, rfl⟩ := hpre
    exact ⟨h.1, fun t ht => ih (List.prefix_append as rest) (h.2 t ht)⟩

/-- A condition that follows from another one while an invariant holds. -/
theorem Guarded.imp {c d : σ → α → Prop} {I : σ → Prop} {as : List α}
    (hinv : ∀ {s a t}, a ∈ as → I s → step s a = .ok t → I t)
    (hcond : ∀ {s a}, a ∈ as → I s → c s a → d s a) {s : σ} (hs : I s)
    (h : Guarded step c s as) : Guarded step d s as := by
  induction as generalizing s with
  | nil => trivial
  | cons a as ih =>
    have ha := List.mem_cons_self (a := a) (l := as)
    refine ⟨hcond ha hs h.1, fun t ht => ?_⟩
    exact ih (fun hb => hinv (List.mem_cons_of_mem _ hb))
      (fun hb => hcond (List.mem_cons_of_mem _ hb)) (hinv ha hs ht) (h.2 t ht)

/-- Conditions that agree while an invariant holds guard the same runs. -/
theorem guarded_congr {c d : σ → α → Prop} {I : σ → Prop} {as : List α}
    (hinv : ∀ {s a t}, a ∈ as → I s → step s a = .ok t → I t)
    (hcond : ∀ {s a}, a ∈ as → I s → (c s a ↔ d s a)) {s : σ} (hs : I s) :
    Guarded step c s as ↔ Guarded step d s as :=
  ⟨Guarded.imp hinv (fun ha hI => (hcond ha hI).mp) hs,
    Guarded.imp hinv (fun ha hI => (hcond ha hI).mpr) hs⟩

/-- The run succeeds, and every state that it reaches has the property. -/
def Always (step : σ → α → Except ε σ) (P : σ → Prop) : σ → List α → Prop
  | s, [] => P s
  | s, a :: as => P s ∧ ∃ t, step s a = .ok t ∧ Always step P t as

/-- The state before a run has the property. -/
theorem Always.first {P : σ → Prop} {s : σ} {as : List α} (h : Always step P s as) : P s := by
  cases as with
  | nil => exact h
  | cons a as => exact h.1

/-- When a guard says exactly which actions succeed and keep the property, the
property holds throughout a run exactly when the run is guarded. -/
theorem always_iff_guarded {c : σ → α → Prop} {I P : σ → Prop} {as : List α}
    (hstep : ∀ {s a}, a ∈ as → I s → P s → ((∃ t, step s a = .ok t ∧ P t) ↔ c s a))
    (hinv : ∀ {s a t}, a ∈ as → I s → P s → step s a = .ok t → I t) {s : σ} (hs : I s)
    (hp : P s) : Always step P s as ↔ Guarded step c s as := by
  induction as generalizing s with
  | nil => exact ⟨fun _ => trivial, fun _ => hp⟩
  | cons a as ih =>
    have ha := List.mem_cons_self (a := a) (l := as)
    have hrest : ∀ {t}, I t → P t → (Always step P t as ↔ Guarded step c t as) := fun ht hpt =>
      ih (fun hb => hstep (List.mem_cons_of_mem _ hb)) (fun hb => hinv (List.mem_cons_of_mem _ hb))
        ht hpt
    constructor
    · rintro ⟨-, t, ht, hall⟩
      refine ⟨(hstep ha hs hp).mp ⟨t, ht, hall.first⟩, fun u hu => ?_⟩
      obtain rfl : t = u := Except.ok.inj (ht.symm.trans hu)
      exact (hrest (hinv ha hs hp ht) hall.first).mp hall
    · rintro ⟨hc, hg⟩
      obtain ⟨t, ht, hpt⟩ := (hstep ha hs hp).mpr hc
      exact ⟨hp, t, ht, (hrest (hinv ha hs hp ht) hpt).mpr (hg t ht)⟩

/-- When a guard says exactly which actions succeed, the runs that succeed are the guarded
ones. -/
theorem ok_iff_guarded {c : σ → α → Prop} {I : σ → Prop} {as : List α}
    (hinv : ∀ {s a t}, I s → step s a = .ok t → I t)
    (hstep : ∀ {s a}, I s → ((∃ t, step s a = .ok t) ↔ c s a)) {s : σ} (hs : I s) :
    (∃ t, as.foldlM step s = .ok t) ↔ Guarded step c s as := by
  induction as generalizing s with
  | nil => exact iff_of_true ⟨s, rfl⟩ trivial
  | cons a as ih =>
    constructor
    · rintro ⟨t, ht⟩
      obtain ⟨u, hu, ht⟩ := foldlM_cons_ok.mp ht
      refine ⟨(hstep hs).mp ⟨u, hu⟩, fun v hv => ?_⟩
      obtain rfl : u = v := Except.ok.inj (hu.symm.trans hv)
      exact (ih (hinv hs hu)).mp ⟨t, ht⟩
    · rintro ⟨hc, hg⟩
      obtain ⟨u, hu⟩ := (hstep hs).mpr hc
      obtain ⟨t, ht⟩ := (ih (hinv hs hu)).mpr (hg u hu)
      exact ⟨t, foldlM_cons_ok.mpr ⟨u, hu, ht⟩⟩

/-! ## Runs beside a history -/

/-- The step beside a history, which notes what the step finds. -/
def watch {ω : Type} (step : σ → α → Except ε σ) (note : σ → ω → α → ω) (p : σ × ω) (a : α) :
    Except ε (σ × ω) :=
  (step p.1 a).map fun t => (t, note p.1 p.2 a)

/-- A step beside a history, taken apart. -/
theorem watch_ok {ω : Type} {note : σ → ω → α → ω} {p q : σ × ω} {a : α}
    (h : watch step note p a = .ok q) : step p.1 a = .ok q.1 ∧ q.2 = note p.1 p.2 a := by
  rw [watch] at h
  cases hstep : step p.1 a with
  | error e =>
    rw [hstep] at h
    cases h
  | ok t =>
    rw [hstep] at h
    obtain rfl := Except.ok.inj h
    exact ⟨rfl, rfl⟩

/-- A history that is kept beside a run does not change it. -/
theorem guarded_watch {ω : Type} (note : σ → ω → α → ω) {c : σ → α → Prop} (p : σ × ω)
    {as : List α} :
    Guarded (watch step note) (fun p a => c p.1 a) p as ↔ Guarded step c p.1 as := by
  induction as generalizing p with
  | nil => exact Iff.rfl
  | cons a as ih =>
    rw [Guarded, Guarded]
    apply and_congr_right
    intro _
    constructor
    · intro h t ht
      refine (ih (t, note p.1 p.2 a)).mp (h _ ?_)
      rw [watch, ht]
      rfl
    · intro h q hq
      exact (ih q).mpr (h q.1 (watch_ok hq).1)

/-! ## Runs that answer -/

/-- A run of queries, with what each of them answers. -/
def ask {β : Type} (step : σ → α → Except ε (β × σ)) : σ → List α → Except ε (List β × σ)
  | s, [] => .ok ([], s)
  | s, a :: as => do
    let (b, t) ← step s a
    let (bs, u) ← ask step t as
    return (b :: bs, u)

/-- When a query has one answer in all states of an invariant that it keeps, it has this
answer wherever it stands in a run. -/
theorem ask_eq {β : Type} {step : σ → α → Except ε (β × σ)} {answer : α → β} {I : σ → Prop}
    {as : List α} (hstep : ∀ {s a}, a ∈ as → I s → ∃ t, step s a = .ok (answer a, t) ∧ I t)
    {s : σ} (hs : I s) : ∃ t, ask step s as = .ok (as.map answer, t) ∧ I t := by
  induction as generalizing s with
  | nil => exact ⟨s, rfl, hs⟩
  | cons a as ih =>
    obtain ⟨t, ht, hinv⟩ := hstep (List.mem_cons_self ..) hs
    obtain ⟨u, hu, hkept⟩ := ih (fun hb => hstep (List.mem_cons_of_mem _ hb)) hinv
    refine ⟨u, ?_, hkept⟩
    rw [ask, ht]
    change (ask step t as >>= fun r => pure (answer a :: r.1, r.2)) = _
    rw [hu]
    rfl

end Run
