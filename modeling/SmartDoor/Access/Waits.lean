import SmartDoor.Access.Device

/-!
# Waits while the door is open

The relock of an unlocked door is left to the timer, which only `loop` updates, and a
denied card waits inside `serialEvent1`. An observer of the pin and the waits knows when
the delay of the latest unlock ends; a wait is timely when it does not go past that end
with DOOR still HIGH. A turn that leaves its arrays counts as not timely, so that a run
does not end with it.
-/

namespace SmartDoor

open CString

/-! ## The observer -/

/-- The level of DOOR, the time, and the end of the latest unlock's delay. -/
structure Watch where
  high : Bool
  clock : Nat
  due : Nat

namespace Watch

/-- What the observer makes of an effect, when an unlock lasts `period` milliseconds. -/
def see (period : Nat) (w : Watch) : Effect → Watch
  | .digitalWrite pin level =>
    if pin = DOOR then
      { w with high := level, due := if level then w.clock + period else w.due }
    else w
  | .display _ => w
  | .delay ms => { w with clock := w.clock + ms }

/-- No wait goes past the end of the delay while DOOR is HIGH. -/
def Timely (period : Nat) : Watch → List Effect → Prop
  | _, [] => True
  | w, e :: fx =>
    (∀ ms, e = .delay ms → w.high = true → w.clock + ms ≤ w.due) ∧
      Timely period (w.see period e) fx

/-- Effects without a wait. -/
theorem timely_of_no_delay (period : Nat) (w : Watch) {fx : List Effect}
    (h : ∀ ms, Effect.delay ms ∉ fx) : w.Timely period fx := by
  induction fx generalizing w with
  | nil => trivial
  | cons e fx ih =>
    constructor
    · rintro ms rfl
      exact absurd List.mem_cons_self (h ms)
    · exact ih _ fun ms hms => h ms (List.mem_cons_of_mem _ hms)

/-- A display is no wait. -/
theorem timely_display (period : Nat) (w : Watch) (lines : List Bytes) (fx : List Effect) :
    w.Timely period (.display lines :: fx) ↔ w.Timely period fx := by
  constructor
  · intro h
    exact h.2
  · intro h
    exact ⟨fun ms he => (nomatch he), h⟩

/-- A wait, and what follows it. -/
theorem timely_delay (period : Nat) (w : Watch) (ms : Nat) (fx : List Effect) :
    w.Timely period (.delay ms :: fx) ↔ (w.high = true → w.clock + ms ≤ w.due) ∧
      Watch.Timely period { w with clock := w.clock + ms } fx := by
  constructor
  · exact fun h => ⟨h.1 ms rfl, h.2⟩
  · intro h
    refine ⟨?_, h.2⟩
    rintro ms' he
    obtain rfl := Effect.delay.inj he
    exact h.1

/-- The two waits of a denied card. -/
theorem timely_denied (period : Nat) (w : Watch) (denied text reset : List Bytes) :
    w.Timely period [.display denied, .delay 1000, .display text, .delay 5000, .display reset] ↔
      (w.high = true → w.clock + 6000 ≤ w.due) := by
  rw [timely_display, timely_delay, timely_display, timely_delay, timely_display]
  constructor
  · rintro ⟨-, hlong, -⟩ hhigh
    have := hlong hhigh
    simp only at this
    omega
  · intro h
    refine ⟨fun hhigh => ?_, fun hhigh => ?_, trivial⟩
    · have := h hhigh
      omega
    · have := h hhigh
      simp only
      omega

end Watch

/-! ## What a turn does -/

/-- A card is presented whose code is not found. -/
def Turn.denies (d : Device) : Turn → Bool
  | .task (.serialEvent1 arrived junk) =>
    ((d.sketch.arrive arrived).presents junk).any fun u =>
      (u.store.pupa.lookup u.presented).isNone
  | _ => false

namespace Turn

variable {world : World} {d e : Device} {turn : Turn}

/-- A denied card waits for one second and for five. -/
theorem step_of_denies (world : World) (hd : d.Running) (h : turn.denies d = true) :
    ∃ e denied text reset, turn.step world d = .ok e ∧ d.since e =
      [.display denied, .delay 1000, .display text, .delay 5000, .display reset] := by
  cases turn with
  | processCommand o tmp => cases h
  | task a =>
    cases a with
    | serialEvent1 arrived junk =>
      obtain ⟨u, hu, hnone⟩ := (Option.any_eq_true _ _).mp h
      obtain ⟨⟨code, ci, serial1, rfl⟩, hcode⟩ := Sketch.presents_scanned hu
      obtain ⟨denied, text, reset, ht⟩ := Sketch.Strings.checkIDAccess_denied
        ⟨hcode, hd.store.pupa.terminated⟩ world (Option.isNone_iff_eq_none.mp hnone)
      have hstep := Sketch.serialEvent1_eq world junk (d.sketch.arrive arrived)
      rw [hu] at hstep
      exact ⟨_, denied, text, reset, step_task_ok (hstep.trans ht),
        Device.since_of_trace (Sketch.refused_trace ..)⟩
    | _ => cases h

/-- Without a denied card there is no wait. -/
theorem no_delay (hd : d.Running) (h : turn.denies d = false) (hstep : turn.step world d = .ok e)
    (ms : Nat) : Effect.delay ms ∉ d.since e := by
  cases turn with
  | processCommand o tmp =>
    rw [since_processCommand hd.store hstep]
    exact List.not_mem_nil
  | task a =>
    have hopened : ∀ {s : Sketch} {username id : Bytes} {lines : List Bytes},
        s.trace = d.sketch.trace → e.sketch = s.entered world username id lines →
        Effect.delay ms ∉ d.since e := by
      intro s username id lines hsame ht
      have htrace := congrArg Sketch.trace ht
      rw [Sketch.entered_trace, hsame] at htrace
      rw [Device.since_of_trace htrace]
      simp
    rcases Task.step_cases hd.store.pupa.terminated hd.board (step_task hstep) with
      ⟨hnone, -⟩ | ⟨-, -, lines, ht⟩ | ⟨arrived, junk, u, rfl, hpresents, -, hcard⟩
    · intro hmem
      rcases (step_task_idle hd hnone hstep).2 _ hmem with he | ⟨lines, he⟩ <;> cases he
    · exact hopened (s := d.sketch.searched) rfl ht
    · rcases hcard with ⟨k, lines, -, ht⟩ | ⟨hnone, -⟩
      · obtain ⟨⟨code, ci, serial1, hscan⟩, -⟩ := Sketch.presents_scanned hpresents
        have hsame : u.trace = d.sketch.trace := by
          rw [hscan]
          rfl
        exact hopened (s := u.searched) hsame ht
      · have hdenies : (Turn.task (.serialEvent1 arrived junk)).denies d = true :=
          (Option.any_eq_true _ _).mpr ⟨u, hpresents, Option.isNone_iff_eq_none.mpr hnone⟩
        rw [h] at hdenies
        cases hdenies

end Turn

/-! ## Runs -/

/-- The device, and the true time at which the delay of its latest unlock ends. -/
structure Timed where
  device : Device
  due : Nat

namespace Timed

/-- The delay of an unlock that is made now. -/
def period (s : Timed) : Nat := s.device.sketch.board.delayTime.toNat

/-- What the observer sees of the device. -/
def watch (s : Timed) : Watch := ⟨s.device.sketch.board.digital DOOR, s.device.sketch.clock, s.due⟩

/-- A turn, seen by the observer. -/
def step (world : World) (s : Timed) (turn : Turn) : Except Fault Timed := do
  let e ← turn.step world s.device
  return ⟨e, ((s.device.since e).foldl (Watch.see s.period) s.watch).due⟩

/-- A turn stays inside the arrays, and every wait of it is timely. -/
def Timely (world : World) (s : Timed) (turn : Turn) : Prop :=
  ∃ e, turn.step world s.device = .ok e ∧ s.watch.Timely s.period (s.device.since e)

/-- What a turn needs for it: what keeps it inside the arrays, and for a denied card that DOOR is
LOW or that at least six seconds of the latest unlock's delay are left. -/
structure Meets (s : Timed) (turn : Turn) : Prop where
  safe : turn.Safe s.device
  denied : turn.denies s.device = true → s.device.sketch.board.digital DOOR = true →
    s.device.sketch.clock + 6000 ≤ s.due

instance (s : Timed) (turn : Turn) : Decidable (s.Meets turn) :=
  decidable_of_iff (turn.Safe s.device ∧ (turn.denies s.device = true →
      s.device.sketch.board.digital DOOR = true → s.device.sketch.clock + 6000 ≤ s.due))
    ⟨fun h => ⟨h.1, h.2⟩, fun h => ⟨h.safe, h.denied⟩⟩

/-- What a turn needs is enough, and is needed. -/
theorem timely_iff (world : World) {s : Timed} (hs : s.device.Running) (turn : Turn) :
    s.Timely world turn ↔ s.Meets turn := by
  constructor
  · rintro ⟨e, he, htimely⟩
    refine ⟨(Turn.step_ok_iff world hs turn).mp ⟨e, he⟩, fun hdenies => ?_⟩
    obtain ⟨e', denied, text, reset, he', hsince⟩ := Turn.step_of_denies world hs hdenies
    obtain rfl := Except.ok.inj (he.symm.trans he')
    rw [hsince] at htimely
    exact (Watch.timely_denied _ _ denied text reset).mp htimely
  · rintro ⟨hsafe, hdenied⟩
    obtain ⟨e, he⟩ := (Turn.step_ok_iff world hs turn).mpr hsafe
    refine ⟨e, he, ?_⟩
    cases hdenies : turn.denies s.device with
    | false => exact Watch.timely_of_no_delay _ _ (Turn.no_delay hs hdenies he)
    | true =>
      obtain ⟨e', denied, text, reset, he', hsince⟩ := Turn.step_of_denies world hs hdenies
      obtain rfl := Except.ok.inj (he.symm.trans he')
      rw [hsince]
      exact (Watch.timely_denied _ _ denied text reset).mpr (hdenied hdenies)

/-- A turn keeps the invariant of the device. -/
theorem running_step {world : World} {s t : Timed} {turn : Turn} (hs : s.device.Running)
    (h : s.step world turn = .ok t) : t.device.Running := by
  obtain ⟨e, he, h⟩ := bind_eq_ok.mp h
  obtain rfl := Except.ok.inj h
  exact hs.step he

end Timed

/-- In every run, from any delay: each turn stays inside the arrays and no wait goes past the end
of the latest unlock's delay with DOOR still HIGH, exactly when each turn finds what it needs to
stay inside, and each denied card finds DOOR LOW or at least six seconds of the delay left. -/
theorem door_waits (world : World) {store : Store} (hstore : store.Sound) (delayTime : UInt32)
    (turns : List Turn) :
    Run.Guarded (Timed.step world) (Timed.Timely world) ⟨Device.powerUp store delayTime, 0⟩ turns ↔
      Run.Guarded (Timed.step world) Timed.Meets ⟨Device.powerUp store delayTime, 0⟩ turns := by
  apply Run.guarded_congr (I := fun s => s.device.Running)
  · exact fun _ hs h => Timed.running_step hs h
  · exact fun _ hs => Timed.timely_iff world hs _
  · exact Device.running_powerUp hstore delayTime

/-- With a delay of ten seconds, an unknown card one second after the button. -/
theorem door_waits_of_ten_seconds :
    Run.Guarded (Timed.step .still) (Timed.Timely .still)
      ⟨Device.powerUp Store.initial 10000, 0⟩
      [.task (.unlockButton true), .task (.wait 1000), .processCommand .success 10,
        .task (.serialEvent1 (0x02 :: (ascii "0C0029DA906F" ++ [0x03])) (.replicate 12 0)),
        .task (.wait 3000), .task .update] :=
  (door_waits _ Store.sound_initial _ _).mpr (by decide +kernel)

/-- With the delay of two seconds that the sketch starts with, an unknown card right after
the button: the door is open when the sketch begins to wait for six seconds. -/
theorem door_waits_of_denied : ∃ s e,
    (⟨Device.powerUp Store.initial 2000, 0⟩ : Timed).step .still (.task (.unlockButton true)) =
      .ok s ∧
    (Turn.task (.serialEvent1 (0x02 :: (ascii "0C0029DA906F" ++ [0x03]))
      (.replicate 12 0))).step .still s.device = .ok e ∧
    ¬ s.watch.Timely s.period (s.device.since e) := by
  let card := Turn.task (.serialEvent1 (0x02 :: (ascii "0C0029DA906F" ++ [0x03]))
    (.replicate 12 0))
  have hrun : ((⟨Device.powerUp Store.initial 2000, 0⟩ : Timed).step .still
      (.task (.unlockButton true)) >>= fun s =>
        .ok (card.denies s.device, s.device.sketch.board.digital DOOR,
          s.device.sketch.clock, s.due)) = .ok (true, true, 0, 2000) := by
    decide +kernel
  obtain ⟨s, hs, h⟩ := bind_eq_ok.mp hrun
  simp only [Except.ok.injEq, Prod.mk.injEq] at h
  obtain ⟨hdenies, hhigh, hclock, hdue⟩ := h
  have hrunning : s.device.Running :=
    Timed.running_step (Device.running_powerUp Store.sound_initial 2000) hs
  obtain ⟨e, -, -, -, he, -⟩ := Turn.step_of_denies .still hrunning hdenies
  refine ⟨s, e, hs, he, fun htimely => ?_⟩
  have hlate := ((Timed.timely_iff .still hrunning card).mp ⟨e, he, htimely⟩).denied hdenies hhigh
  rw [hclock, hdue] at hlate
  omega

end SmartDoor
