import SmartDoor.Door.Relock

/-!
# When the door is locked again

A run is read along the true time of its `millis()` calls, which never goes
back. The timer sees only the low 32 bits of each time. A pending relock is
followed from its `t.after` call through every operation that is not another
unlock: an update before the delay has passed is early on the 32-bit clock as
well, and the first later one is due on it as long as the clock did not wrap
once around in between.
-/

namespace SmartDoor

open Timer Board

/-- The true time at which an operation calls `millis()`, if it does. -/
def Act.time? : Act → Option Nat
  | .update time => some time
  | .button pressed time => if pressed then some time else none
  | .delay _ => none
  | .frame card time => if card = .accepted then some time else none

/-- The time of the `t.after` call of an operation that unlocks the door. -/
def Act.unlock? : Act → Option Nat
  | .update _ => none
  | .button pressed time => if pressed then some time else none
  | .delay _ => none
  | .frame card time => if card = .accepted then some time else none

/-- The true time of a `t.update` call. -/
def Act.update? : Act → Option Nat
  | .update time => some time
  | .button _ _ => none
  | .delay _ => none
  | .frame _ _ => none

/-- No call of `millis()` reads an earlier true time than the calls before it. -/
def Clocked (acts : List Act) : Prop := (acts.filterMap Act.time?).Pairwise (· ≤ ·)

/-- Subtraction of two readings is the elapsed time modulo 2^32. -/
theorem millis_sub {time now : Nat} (h : time ≤ now) :
    (millis now - millis time).toNat = (now - time) % 2 ^ 32 := by
  rw [UInt32.toNat_sub, millis, millis, UInt32.toNat_ofNat', UInt32.toNat_ofNat']
  omega

/-- Before the delay has passed, the 32-bit comparison is false. -/
theorem not_due {time now : Nat} {period : UInt32} (hle : time ≤ now)
    (h : now < time + period.toNat) : ¬ period ≤ millis now - millis time := by
  rw [UInt32.le_iff_toNat_le, millis_sub hle]
  have := period.toNat_lt
  omega

/-- After the delay has passed, and before the clock has gone once around, it is true. -/
theorem due {time now : Nat} {period : UInt32} (hle : time + period.toNat ≤ now)
    (h : now < time + 2 ^ 32) : period ≤ millis now - millis time := by
  rw [UInt32.le_iff_toNat_le, millis_sub (by omega)]
  omega

/-- Every operation that unlocks the door leaves its own relock pending. -/
theorem Act.unlock_pending {b : Board} (h : b.Ready) {a : Act} {time : Nat}
    (ha : a.unlock? = some time) : ∃ i, (a.run b).Pending i time b.delayTime := by
  cases a with
  | update t => cases ha
  | delay str => cases ha
  | button pressed t =>
    cases pressed
    · cases ha
    · obtain rfl : t = time := by simpa [Act.unlock?] using ha
      exact h.unlockDoor t
  | frame card t =>
    cases card
    · cases ha
    · cases ha
    · obtain rfl : t = time := by simpa [Act.unlock?] using ha
      exact h.unlockDoor t

/-- An operation that is neither an unlock nor an update at or after the
deadline leaves the relock pending as it was armed. -/
theorem Board.Pending.run {b : Board} {i : Fin maxNumberOfEvents} {time : Nat} {period : UInt32}
    (h : b.Pending i time period) {a : Act} (hlock : a.unlock? = none)
    (hearly : ∀ now, a.update? = some now → time ≤ now ∧ now < time + period.toNat) :
    (a.run b).Pending i time period := by
  cases a with
  | update now =>
    obtain ⟨hle, hlt⟩ := hearly now rfl
    change (b.update now).Pending i time period
    rw [h.update_early (not_due hle hlt)]
    exact h
  | delay str => exact h.setDelaytime str
  | button pressed t =>
    cases pressed
    · exact h
    · cases hlock
  | frame card t =>
    cases card
    · exact h
    · exact h
    · cases hlock

/-- The relock stays pending over any stretch without unlocks and late updates. -/
theorem Board.Pending.foldl {b : Board} {i : Fin maxNumberOfEvents} {time : Nat}
    {period : UInt32} (h : b.Pending i time period) {acts : List Act}
    (hlock : ∀ a ∈ acts, a.unlock? = none)
    (hearly : ∀ now ∈ acts.filterMap Act.update?, time ≤ now ∧ now < time + period.toNat) :
    (acts.foldl Act.run b).Pending i time period := by
  induction acts generalizing b with
  | nil => exact h
  | cons a acts ih =>
    refine ih (h.run (hlock a (List.mem_cons_self ..)) fun now ha => ?_)
      (fun a' ha' => hlock a' (List.mem_cons_of_mem _ ha')) fun now hnow => ?_
    · exact hearly now (List.mem_filterMap.mpr ⟨a, List.mem_cons_self .., ha⟩)
    · obtain ⟨a', ha', he⟩ := List.mem_filterMap.mp hnow
      exact hearly now (List.mem_filterMap.mpr ⟨a', List.mem_cons_of_mem _ ha', he⟩)

/-- An update reads the clock. -/
theorem Act.time?_of_update? {a : Act} {now : Nat} (h : a.update? = some now) :
    a.time? = some now := by
  cases a <;> first | exact h | cases h

/-- An unlock reads the clock. -/
theorem Act.time?_of_unlock? {a : Act} {now : Nat} (h : a.unlock? = some now) :
    a.time? = some now := by
  cases a <;> first | exact h | cases h

/-- In a clocked run, updates before an unlock are not later than it, and
updates after it are not earlier. -/
theorem Clocked.around {before after : List Act} {a : Act} {time : Nat}
    (h : Clocked (before ++ a :: after)) (ha : a.time? = some time) :
    (∀ now ∈ before.filterMap Act.update?, now ≤ time) ∧
      ∀ now ∈ after.filterMap Act.update?, time ≤ now := by
  rw [Clocked, List.filterMap_append, List.filterMap_cons_some ha, List.pairwise_append] at h
  obtain ⟨_, hafter, hbetween⟩ := h
  constructor
  · intro now hnow
    obtain ⟨a', ha', he⟩ := List.mem_filterMap.mp hnow
    exact hbetween now (List.mem_filterMap.mpr ⟨a', ha', Act.time?_of_update? he⟩) time
      (List.mem_cons_self ..)
  · intro now hnow
    obtain ⟨a', ha', he⟩ := List.mem_filterMap.mp hnow
    exact (List.pairwise_cons.mp hafter).1 now
      (List.mem_filterMap.mpr ⟨a', ha', Act.time?_of_update? he⟩)

/-- Relock timing. Split any clocked run of calls, beginning with a pass of
`loop`, at an unlock with `t.after` at true time `time`, at an update at `now`,
and let no other unlock stand between them. Then the update leaves DOOR HIGH
if it comes before `time + d`, where `d` is the delay passed to `t.after`. If it
is the first update at or after `time + d`, and less than `2^32 - d` after the
update before it, DOOR is HIGH up to it and LOW after it. -/
theorem relock_timing {b : Board} (hb : b.Setup) (firstAt firstButton : Nat) (pressed : Bool)
    (delay : Option Bytes) (calls : List Call) (before between after : List Act) (unlock : Act)
    (time now : Nat)
    (hrun : (Call.loop firstAt pressed firstButton delay :: calls).flatMap Call.acts =
      before ++ unlock :: (between ++ .update now :: after))
    (hclock : Clocked (before ++ unlock :: (between ++ .update now :: after)))
    (hunlock : unlock.unlock? = some time) (hlatest : ∀ a ∈ between, a.unlock? = none) :
    let d := (before.foldl Act.run b).delayTime.toNat
    let s := (before ++ unlock :: between).foldl Act.run b
    (now < time + d → (s.update now).digital DOOR = true) ∧
    (time + d ≤ now → (∀ u ∈ between.filterMap Act.update?, u < time + d) →
      (∀ u ∈ ((before ++ between).filterMap Act.update?).getLast?, now < u + (2 ^ 32 - d)) →
      s.digital DOOR = true ∧ (s.update now).digital DOOR = false) := by
  intro d s
  obtain ⟨hpast, hfuture⟩ := hclock.around (Act.time?_of_unlock? hunlock)
  simp only [List.filterMap_append, List.mem_append] at hfuture
  have hready : (before.foldl Act.run b).Ready := foldl_act_ready (Or.inl hb.locked) before
  obtain ⟨i, hpend⟩ := Act.unlock_pending hready hunlock
  have hs : (∀ u ∈ between.filterMap Act.update?, u < time + d) → s.Pending i time
      (before.foldl Act.run b).delayTime := fun hearly => by
    simp only [s, List.foldl_append, List.foldl_cons]
    exact hpend.foldl hlatest fun u hu => ⟨hfuture u (Or.inl hu), hearly u hu⟩
  have hle : time ≤ now := hfuture now (Or.inr (by simp [Act.update?]))
  constructor
  · intro hlt
    have hearly : ∀ u ∈ between.filterMap Act.update?, u < time + d := by
      intro u hu
      have hsplit : before ++ unlock :: (between ++ .update now :: after) =
          (before ++ unlock :: between) ++ .update now :: after := by simp
      rw [hsplit] at hclock
      have hu' : u ≤ now := (hclock.around (a := .update now) rfl).1 u (by
        rw [List.filterMap_append, List.mem_append]
        refine Or.inr ?_
        obtain ⟨a, ha, he⟩ := List.mem_filterMap.mp hu
        exact List.mem_filterMap.mpr ⟨a, List.mem_cons_of_mem _ ha, he⟩)
      omega
    have hp := hs hearly
    rw [hp.update_early (not_due hle hlt)]
    exact hp.high
  · intro hge hearly hgap
    have hp := hs hearly
    refine ⟨hp.high, ?_⟩
    -- a pass of `loop` starts the run, so some update comes before the unlock
    have hbefore : firstAt ∈ before.filterMap Act.update? := by
      cases before with
      | nil =>
        simp only [List.flatMap_cons, Call.acts, List.cons_append, List.nil_append,
          List.cons.injEq] at hrun
        rw [← hrun.1] at hunlock
        cases hunlock
      | cons a rest =>
        simp only [List.flatMap_cons, Call.acts, List.cons_append, List.cons.injEq] at hrun
        exact List.mem_filterMap.mpr ⟨a, List.mem_cons_self .., by rw [← hrun.1]; rfl⟩
    have hne : (before ++ between).filterMap Act.update? ≠ [] := by
      rw [List.filterMap_append]
      exact List.append_ne_nil_of_left_ne_nil (List.ne_nil_of_mem hbefore) _
    obtain ⟨u, hlast⟩ : ∃ u, ((before ++ between).filterMap Act.update?).getLast? = some u :=
      ⟨_, List.getLast?_eq_some_getLast hne⟩
    have hbound : u ≤ time + d := by
      have hu := List.mem_of_getLast? hlast
      rw [List.filterMap_append, List.mem_append] at hu
      rcases hu with hu | hu
      · have := hpast _ hu
        omega
      · exact (hearly _ hu).le
    have hnow := hgap u hlast
    have hd : d < 2 ^ 32 := (before.foldl Act.run b).delayTime.toNat_lt
    exact (hp.update_due (due hge (by omega))).1.low

/-- An unlock one second before `millis()` wraps: the update that comes two
seconds later, after the wrap, locks the door. -/
theorem relock_timing_across_wrap :
    (([Act.update 4294966295, .button true 4294966296, .update 4294967000,
      .button false 4294967000].foldl Act.run afterSetup).update 4294968296).digital DOOR =
        false := by
  have hdelay : ([Act.update 4294966295].foldl Act.run afterSetup).delayTime.toNat = 2000 := by
    rw [List.foldl_cons, List.foldl_nil, Act.run, afterSetup_setup.locked.update]
    rfl
  have h := (relock_timing afterSetup_setup 4294966295 4294966296 true none
    [.loop 4294967000 false 4294967000 none, .loop 4294968296 false 4294968296 none]
    [.update 4294966295] [.update 4294967000, .button false 4294967000]
    [.button false 4294968296] (.button true 4294966296) 4294966296 4294968296
    rfl (by simp [Clocked, Act.time?]) rfl (by simp [Act.unlock?])).2
  rw [hdelay] at h
  have hlow := (h (by omega) (by simp [List.filterMap_cons, Act.update?])
    (by simp [List.filterMap_cons, Act.update?])).2
  simpa only [List.cons_append, List.nil_append] using hlow

end SmartDoor
