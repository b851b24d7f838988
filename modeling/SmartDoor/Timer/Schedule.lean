import SmartDoor.Run.Jobs
import SmartDoor.Timer.Slots

/-!
# When events fire

Each armed event is a job: the 32-bit readings of `millis()` and the counts of its slot stand
for true times and for the firings that are left, as long as the updates come often enough. So
whatever else is armed, stopped or updated, an event fires at the first update that is a period
after its last firing, and as often as it is to; a pin that oscillates changes its level
each time.
-/

namespace SmartDoor.Timer

open Run

variable {κ : Type}

/-! ## Requests -/

/-- What an event works on. -/
inductive Target (κ : Type)
  | function (f : κ)
  | pin (pin : UInt8)
  deriving DecidableEq

def Signal.target : Signal κ → Target κ
  | .call f => .function f
  | .digitalWrite pin _ => .pin pin

/-- What an armed event works on. -/
def Event.target? (e : Event κ) : Option (Target κ) :=
  match e.eventType with
  | .none => none
  | .every => e.callback.map .function
  | .oscillate => some (.pin e.pin)

/-- What a sketch asks of the library. -/
inductive Request (κ : Type)
  | every (period : UInt32) (callback : κ) (repeatCount : Int)
  | oscillate (pin : UInt8) (period : UInt32) (startingValue : UInt8) (repeatCount : Int)
  | pulseImmediate (pin : UInt8) (period : UInt32) (pulseValue : UInt8)
  | stop (id : Int)
  | update
  deriving DecidableEq

/-- What a request arms an event for. -/
def Request.target? : Request κ → Option (Target κ)
  | .every _ callback _ => some (.function callback)
  | .oscillate pin _ _ _ => some (.pin pin)
  | .pulseImmediate pin _ _ => some (.pin pin)
  | _ => none

/-- The event that a request arms, in a slot that holds `e`. -/
def Request.armed (now : UInt32) (e : Event κ) : Request κ → Event κ
  | .every period callback repeatCount => { e with
      eventType := .every, period := period, repeatCount := repeatCount,
      callback := some callback, lastEventTime := now, count := 0 }
  | .oscillate pin period startingValue repeatCount => { e with
      eventType := .oscillate, pin := pin, period := period, pinState := startingValue,
      repeatCount := (repeatCount * 2).bmod 65536, lastEventTime := now, count := 0 }
  | .pulseImmediate pin period pulseValue => { e with
      eventType := .oscillate, pin := pin, period := period, pinState := pulseValue,
      repeatCount := 1, lastEventTime := now, count := 0 }
  | _ => e

/-- What a request asks of the host at once. -/
def Request.first : Request κ → List (Signal κ)
  | .oscillate pin _ startingValue _ => [.digitalWrite pin (startingValue != 0)]
  | .pulseImmediate pin _ pulseValue => [.digitalWrite pin (pulseValue != 0)]
  | _ => []

theorem Request.target_of_mem_first {r : Request κ} {y : Signal κ} (hy : y ∈ r.first) :
    some y.target = r.target? := by
  cases r with
  | oscillate pin period startingValue repeatCount =>
    obtain rfl := List.mem_singleton.mp hy
    rfl
  | pulseImmediate pin period pulseValue =>
    obtain rfl := List.mem_singleton.mp hy
    rfl
  | _ => exact absurd hy List.not_mem_nil

/-- A host that records the signals with their true times. -/
structure Recorder (κ : Type) where
  t : Events κ
  clock : Nat
  trace : List (Nat × Signal κ)

def Recorder.emit (x : Signal κ) (s : Recorder κ) : Recorder κ :=
  { s with trace := s.trace ++ [(s.clock, x)] }

def recorder : Host κ (Recorder κ) where
  events := Recorder.t
  setEvents t s := { s with t := t }
  call f := Recorder.emit (.call f)
  digitalWrite pin level := Recorder.emit (.digitalWrite pin level)

/-- A request at a true time. -/
def Recorder.run (s : Recorder κ) (r : Nat × Request κ) : Recorder κ :=
  let now := UInt32.ofNat r.1
  let s := { s with clock := r.1 }
  match r.2 with
  | .every period callback repeatCount => { s with t := (every now period callback repeatCount s.t).1 }
  | .oscillate pin period startingValue repeatCount =>
    (recorder.oscillate now pin period startingValue repeatCount s).1
  | .pulseImmediate pin period pulseValue => (recorder.pulseImmediate now pin period pulseValue s).1
  | .stop id => { s with t := stop id s.t }
  | .update => recorder.update now s

/-- The times of the updates. -/
def updates (rs : List (Nat × Request κ)) : List Nat :=
  rs.filterMap fun r => match r.2 with
    | .update => some r.1
    | _ => none

/-- What was asked for a target, with the times. -/
def Recorder.about [DecidableEq κ] (x : Target κ) (s : Recorder κ) : List (Nat × Signal κ) :=
  s.trace.filter fun y => y.2.target = x

theorem recorder_separate : (recorder (κ := κ)).Separate where
  events_setEvents _ _ := rfl
  setEvents_setEvents _ _ _ := rfl
  setEvents_events _ := rfl
  events_call _ _ := rfl
  call_setEvents _ _ _ := rfl
  events_digitalWrite _ _ _ := rfl
  digitalWrite_setEvents _ _ _ _ := rfl

theorem Recorder.foldl_perform (xs : List (Signal κ)) (s : Recorder κ) :
    xs.foldl recorder.perform s = { s with trace := s.trace ++ xs.map fun x => (s.clock, x) } := by
  induction xs generalizing s with
  | nil => rw [List.foldl_nil, List.map_nil, List.append_nil]
  | cons x xs ih =>
    rw [List.foldl_cons, ih]
    cases x <;> simp [Host.perform, recorder, Recorder.emit]

namespace Recorder

variable {s : Recorder κ}

/-- An update ticks the slots, and records what they ask for. -/
theorem run_update (s : Recorder κ) (time : Nat) :
    s.run (time, .update) =
      ⟨s.t.map (Event.tick (UInt32.ofNat time)), time,
        s.trace ++ (asks (UInt32.ofNat time) s.t).map fun x => (time, x)⟩ := by
  rw [run, recorder_separate.update, foldl_perform]
  rfl

/-- A request that arms an event takes the first free slot, if there is one. -/
theorem run_arms {r : Request κ} (hr : r.target?.isSome) (s : Recorder κ) (time : Nat) :
    s.run (time, r) = match findFreeEventIndex s.t with
      | none => { s with clock := time }
      | some i => ⟨s.t.put i (r.armed (UInt32.ofNat time) (s.t.slot i)), time,
          s.trace ++ r.first.map fun x => (time, x)⟩ := by
  cases hfree : findFreeEventIndex s.t with
  | none =>
    cases r with
    | every period callback repeatCount => simp [run, every, hfree]
    | oscillate pin period startingValue repeatCount => simp [run, Host.oscillate, recorder, hfree]
    | pulseImmediate pin period pulseValue =>
      simp [run, Host.pulseImmediate, Host.oscillate, recorder, hfree]
    | _ => cases hr
  | some i =>
    have hi : (i.val : Int) < 10 := Int.ofNat_lt.mpr i.isLt
    cases r with
    | every period callback repeatCount => simp [run, every, hfree, Request.armed, Request.first]
    | oscillate pin period startingValue repeatCount =>
      simp [run, Host.oscillate, recorder, hfree, Host.modify, Timer.modify, emit, Request.armed,
        Request.first]
    | pulseImmediate pin period pulseValue =>
      simp [run, Host.pulseImmediate, Host.oscillate, recorder, hfree, Host.modify, Timer.modify,
        emit, Request.armed, Request.first, hi]
    | _ => cases hr

/-- What a request can do to a slot. -/
theorem run_slot (s : Recorder κ) (time : Nat) (r : Request κ) (i : Fin maxNumberOfEvents) :
    (r = .update ∧ ((s.run (time, r)).t.slot i) = (s.t.slot i).tick (UInt32.ofNat time)) ∨
    (r ≠ .update ∧ ((s.run (time, r)).t.slot i) = (s.t.slot i)) ∨
    (r ≠ .update ∧ (s.t.slot i).eventType = .none ∧ ((s.run (time, r)).t.slot i).target? = r.target?) ∨
    (r = .stop i.val ∧ ((s.run (time, r)).t.slot i).eventType = .none) := by
  have harms : r.target?.isSome → r ≠ .update ∧ (((s.run (time, r)).t.slot i) = (s.t.slot i) ∨
      ((s.t.slot i).eventType = .none ∧ ((s.run (time, r)).t.slot i).target? = r.target?)) := by
    intro hr
    have hne : r ≠ .update := by
      rintro rfl
      cases hr
    refine ⟨hne, ?_⟩
    rw [run_arms hr]
    cases hfree : findFreeEventIndex s.t with
    | none => exact Or.inl rfl
    | some k =>
      by_cases hik : k = i
      · obtain rfl := hik
        right
        have hnone := List.find?_some hfree
        refine ⟨of_decide_eq_true hnone, ?_⟩
        simp only [Events.slot_put_self]
        cases r with
        | every period callback repeatCount => rfl
        | oscillate pin period startingValue repeatCount => rfl
        | pulseImmediate pin period pulseValue => rfl
        | _ => cases hr
      · left
        exact Events.slot_put_ne _ _ hik
  cases r with
  | update =>
    left
    refine ⟨rfl, ?_⟩
    rw [run_update]
    simp
  | stop id =>
    right
    by_cases hid : id = i.val
    · subst hid
      refine Or.inr (Or.inr ⟨rfl, ?_⟩)
      simp [run, stop_slot]
    · left
      refine ⟨by simp, ?_⟩
      simp only [run, stop]
      split
      · rename_i hrange
        have hne : i ≠ ⟨id.toNat, by omega⟩ := by
          intro h
          have := congrArg Fin.val h
          simp only at this
          omega
        exact modify_other hne _ _
      · rfl
  | every period callback repeatCount =>
    obtain ⟨hne, hsame | harmed⟩ := harms rfl
    · exact Or.inr (Or.inl ⟨hne, hsame⟩)
    · exact Or.inr (Or.inr (Or.inl ⟨hne, harmed⟩))
  | oscillate pin period startingValue repeatCount =>
    obtain ⟨hne, hsame | harmed⟩ := harms rfl
    · exact Or.inr (Or.inl ⟨hne, hsame⟩)
    · exact Or.inr (Or.inr (Or.inl ⟨hne, harmed⟩))
  | pulseImmediate pin period pulseValue =>
    obtain ⟨hne, hsame | harmed⟩ := harms rfl
    · exact Or.inr (Or.inl ⟨hne, hsame⟩)
    · exact Or.inr (Or.inr (Or.inl ⟨hne, harmed⟩))

end Recorder

/-! ## Targets -/

namespace Event

@[simp] theorem toggled_eventType (e : Event κ) : e.toggled.eventType = e.eventType := by
  rw [toggled]
  split <;> rfl

/-- Firing and settling leave an event with its target, or use it up. -/
theorem target?_tick (now : UInt32) (e : Event κ) :
    (e.tick now).target? = e.target? ∨ (e.tick now).eventType = .none := by
  have hsettled : ∀ e : Event κ, e.settled.target? = e.target? ∨ e.settled.eventType = .none := by
    intro e
    rw [settled]
    split
    · exact Or.inr rfl
    · exact Or.inl rfl
  have hfired : (e.fired now).target? = e.target? := by
    obtain ⟨eventType⟩ := e
    cases eventType <;> rfl
  rw [tick]
  split
  · exact Or.inl rfl
  · split
    · exact (hsettled (e.fired now)).imp_left fun h => h.trans hfired
    · exact hsettled e

theorem target?_of_none {e : Event κ} (h : e.eventType = .none) : e.target? = none := by
  rw [target?, h]

/-- An event asks for its target. -/
theorem target_of_mem_asks {now : UInt32} {e : Event κ} {y : Signal κ} (hy : y ∈ e.asks now) :
    some y.target = e.target? := by
  rw [asks] at hy
  split at hy
  · rw [signals] at hy
    rw [target?]
    cases htype : e.eventType with
    | none =>
      rw [htype] at hy
      exact absurd hy List.not_mem_nil
    | every =>
      rw [htype] at hy
      obtain ⟨f, hf, rfl⟩ := Option.map_eq_some_iff.mp (Option.mem_toList.mp hy)
      simp only [hf, Option.map_some, Signal.target]
    | oscillate =>
      rw [htype] at hy
      obtain rfl := List.mem_singleton.mp hy
      rfl
  · exact absurd hy List.not_mem_nil

end Event

namespace Recorder

variable [DecidableEq κ] {s : Recorder κ} {x : Target κ}

/-- No other slot works on the target. -/
def Only (x : Target κ) (i : Fin maxNumberOfEvents) (s : Recorder κ) : Prop :=
  ∀ j, j ≠ i → (s.t.slot j).target? ≠ some x

omit [DecidableEq κ] in
/-- A slot that does not work on a target comes to do so by a request only. -/
theorem run_target {time : Nat} {r : Request κ} (hr : r.target? ≠ some x)
    {i : Fin maxNumberOfEvents} (hi : (s.t.slot i).target? ≠ some x) :
    ((s.run (time, r)).t.slot i).target? ≠ some x := by
  rcases s.run_slot time r i with ⟨-, hslot⟩ | ⟨-, hslot⟩ | ⟨-, -, hslot⟩ | ⟨-, hslot⟩
  · rw [hslot]
    rcases Event.target?_tick (UInt32.ofNat time) (s.t.slot i) with hsame | hnone
    · rw [hsame]
      exact hi
    · rw [Event.target?_of_none hnone]
      exact Option.some_ne_none x |>.symm
  · rw [hslot]
    exact hi
  · rw [hslot]
    exact hr
  · rw [Event.target?_of_none hslot]
    exact Option.some_ne_none x |>.symm

/-- What the slots ask for a target is what the only slot asks that works on it. -/
theorem filter_asks {i : Fin maxNumberOfEvents} (h : s.Only x i) (now : UInt32) :
    (asks now s.t).filter (fun y => y.target = x) =
      ((s.t.slot i).asks now).filter fun y => y.target = x := by
  have hother : ∀ j ∈ List.finRange maxNumberOfEvents, j ≠ i →
      ((s.t.slot j).asks now).filter (fun y => y.target = x) = [] := by
    intro j _ hj
    rw [List.filter_eq_nil_iff]
    intro y hy hx
    have htarget := Event.target_of_mem_asks hy
    rw [of_decide_eq_true hx] at htarget
    exact h j hj htarget.symm
  rw [asks, List.filter_flatMap]
  obtain ⟨before, rest, hsplit⟩ := List.append_of_mem (List.mem_finRange i)
  have hnodup := List.nodup_finRange maxNumberOfEvents
  rw [hsplit] at hnodup hother ⊢
  have hmiddle := List.nodup_middle.mp hnodup
  obtain ⟨hi, -⟩ := List.nodup_cons.mp hmiddle
  have hnil : ∀ js : List (Fin maxNumberOfEvents), js ⊆ before ++ i :: rest → i ∉ js →
      js.flatMap (fun j => ((s.t.slot j).asks now).filter fun y => y.target = x) = [] := by
    intro js hsub hmem
    rw [List.flatMap_eq_nil_iff]
    exact fun j hj => hother j (hsub hj) fun heq => hmem (heq ▸ hj)
  rw [List.flatMap_append, List.flatMap_cons,
    hnil before (List.subset_append_left ..) fun hb => hi (List.mem_append_left _ hb),
    hnil rest (fun j hj => List.mem_append_right _ (List.mem_cons_of_mem _ hj))
      fun hb => hi (List.mem_append_right _ hb), List.nil_append, List.append_nil]

/-- What a request adds for a target that it does not arm. -/
theorem about_run {time : Nat} {r : Request κ} (hr : r.target? ≠ some x) :
    (s.run (time, r)).about x = s.about x ++ match r with
      | .update => ((asks (UInt32.ofNat time) s.t).filter fun y => y.target = x).map
          fun y => (time, y)
      | _ => [] := by
  have harms : r.target?.isSome → (s.run (time, r)).about x = s.about x := by
    intro hsome
    obtain ⟨z, hz⟩ := Option.isSome_iff_exists.mp hsome
    have hne : z ≠ x := fun h => hr (h ▸ hz)
    rw [run_arms hsome]
    cases findFreeEventIndex s.t with
    | none => rfl
    | some i =>
      have hfirst : (r.first.map fun y => (time, y)).filter (fun y => y.2.target = x) = [] := by
        rw [List.filter_eq_nil_iff]
        intro y hy hx
        obtain ⟨y', hy', rfl⟩ := List.mem_map.mp hy
        have htarget : y'.target = z :=
          Option.some.inj ((Request.target_of_mem_first hy').trans hz)
        exact hne (htarget.symm.trans (of_decide_eq_true hx))
      simp only [about, List.filter_append, hfirst, List.append_nil]
  cases r with
  | update =>
    rw [run_update]
    simp only [about, List.filter_append, List.filter_map]
    rfl
  | stop id => exact (List.append_nil _).symm
  | every period callback repeatCount => exact (harms rfl).trans (List.append_nil _).symm
  | oscillate pin period startingValue repeatCount =>
    exact (harms rfl).trans (List.append_nil _).symm
  | pulseImmediate pin period pulseValue => exact (harms rfl).trans (List.append_nil _).symm

/-- A target that no slot works on is left alone. -/
theorem about_run_idle {rs : List (Nat × Request κ)} (h : ∀ i : Fin maxNumberOfEvents, (s.t.slot i).target? ≠ some x)
    (hrs : ∀ r ∈ rs, r.2.target? ≠ some x) : (rs.foldl run s).about x = s.about x ∧
      ∀ i : Fin maxNumberOfEvents, ((rs.foldl run s).t.slot i).target? ≠ some x := by
  induction rs generalizing s with
  | nil => exact ⟨rfl, h⟩
  | cons r rs ih =>
    have hr := hrs r (List.mem_cons_self ..)
    obtain ⟨htrace, hslots⟩ := ih (s := s.run r) (fun i => run_target hr (h i))
      fun r hr => hrs r (List.mem_cons_of_mem _ hr)
    refine ⟨htrace.trans ?_, hslots⟩
    have hask : (asks (UInt32.ofNat r.1) s.t).filter (fun y => y.target = x) = [] := by
      rw [filter_asks (i := 0) fun j _ => h j, List.filter_eq_nil_iff]
      intro y hy hx
      have htarget := Event.target_of_mem_asks hy
      rw [of_decide_eq_true hx] at htarget
      exact h 0 htarget.symm
    obtain ⟨time, r⟩ := r
    rw [about_run hr]
    cases r with
    | update => simp only [hask, List.map_nil, List.append_nil]
    | _ => exact List.append_nil _

end Recorder

/-! ## Events and jobs -/

namespace Event

/-- An armed event stands for a job. -/
structure Holds (e : Event κ) (j : Job) : Prop where
  active : e.eventType ≠ .none
  period : j.period = e.period.toNat
  since : e.lastEventTime = UInt32.ofNat j.since
  left : j.left = if e.repeatCount > -1 then some (e.repeatCount - e.count).toNat else none

/-- What an event asks for at these times, each time toggled by the one before. -/
def turns (e : Event κ) : List Nat → List (Nat × Signal κ)
  | [] => []
  | time :: times => e.signals.map (fun x => (time, x)) ++ e.toggled.turns times

theorem turns_congr {e e' : Event κ} (htype : e'.eventType = e.eventType)
    (hcallback : e'.callback = e.callback) (hpin : e'.pin = e.pin)
    (hstate : e'.pinState = e.pinState) (times : List Nat) : e'.turns times = e.turns times := by
  induction times generalizing e e' with
  | nil => rfl
  | cons time times ih =>
    have hsignals : e'.signals = e.signals := by
      simp only [signals, toggled, htype, hcallback, hpin, hstate]
      cases e.eventType <;> rfl
    have hrest : e'.toggled.turns times = e.toggled.turns times := by
      apply ih
      · rw [toggled_eventType, toggled_eventType, htype]
      all_goals
        simp only [toggled, htype]
        cases e.eventType <;> simp [hcallback, hpin, hstate]
    rw [turns, turns, hsignals, hrest]

namespace Holds

variable {e : Event κ} {j : Job} {time : Nat}

/-- The 32-bit comparison is that of true times, if the last firing is not too long ago. -/
theorem due_iff (h : e.Holds j) (hle : j.since ≤ time) (hlt : time < j.since + 2 ^ 32) :
    e.Due (UInt32.ofNat time) ↔ j.Due time := by
  rw [Event.Due, Job.Due, UInt32.le_iff_toNat_le, h.since, UInt32.toNat_sub, UInt32.toNat_ofNat',
    UInt32.toNat_ofNat', h.period]
  omega

/-- Settling an event is settling its job. -/
theorem settled (h : e.Holds j) :
    (j.settled = none ∧ e.settled.eventType = .none) ∨ (j.settled = some j ∧ e.settled = e) := by
  by_cases hspent : e.repeatCount > -1 ∧ e.count ≥ e.repeatCount
  · left
    refine ⟨Job.settled_eq_none.mpr ?_, by rw [Event.settled, if_pos hspent]⟩
    rw [h.left, if_pos hspent.1, Option.some.injEq]
    omega
  · right
    refine ⟨Job.settled_eq_some.mpr ⟨rfl, ?_⟩, if_neg hspent⟩
    rw [h.left]
    split
    · rw [ne_eq, Option.some.injEq]
      omega
    · exact fun h => by cases h

/-- Firing an event is firing its job. -/
theorem fired (h : e.Holds j) (time : Nat) :
    (e.fired (UInt32.ofNat time)).Holds (j.fired time) := by
  have hkept : e.toggled.period = e.period ∧ e.toggled.repeatCount = e.repeatCount ∧
      e.toggled.count = e.count := by
    rw [toggled]
    split <;> exact ⟨rfl, rfl, rfl⟩
  obtain ⟨hperiod, hrepeat, hcount⟩ := hkept
  refine ⟨by rw [Event.fired, toggled_eventType]; exact h.active, ?_, rfl, ?_⟩
  · exact h.period.trans (congrArg UInt32.toNat hperiod.symm)
  · simp only [Event.fired, Job.fired, h.left, hrepeat, hcount]
    split
    · rw [Option.map_some, Option.some.injEq]
      omega
    · rfl

/-- What an update makes of an event and of its job, and what the event asks for. -/
theorem tick (h : e.Holds j) (hle : j.since ≤ time) (hlt : time < j.since + 2 ^ 32) :
    e.asks (UInt32.ofNat time) = (if j.Due time then e.signals else []) ∧
    match j.tick time with
    | none => (e.tick (UInt32.ofNat time)).eventType = .none
    | some j' => (e.tick (UInt32.ofNat time)).Holds j' ∧
        (e.tick (UInt32.ofNat time)).target? = e.target? ∧
        ∀ times, (e.tick (UInt32.ofNat time)).turns times =
          (if j.Due time then e.toggled else e).turns times := by
  have hdue := h.due_iff hle hlt
  rw [Event.asks, Job.tick, Event.tick, if_neg h.active]
  by_cases hj : j.Due time
  · have he := hdue.mpr hj
    rw [if_pos ⟨h.active, he⟩, if_pos hj, if_pos hj, if_pos he]
    refine ⟨rfl, ?_⟩
    rcases (h.fired time).settled with ⟨hnone, htype⟩ | ⟨hsome, hsame⟩
    · rw [hnone]
      exact htype
    · rw [hsome, hsame]
      refine ⟨h.fired time, ?_, fun times => by
        rw [if_pos hj]
        refine turns_congr ?_ ?_ ?_ ?_ times <;> rfl⟩
      obtain ⟨eventType⟩ := e
      cases eventType <;> rfl
  · have he := mt hdue.mp hj
    rw [if_neg fun hc => he hc.2, if_neg hj, if_neg hj, if_neg he]
    refine ⟨rfl, ?_⟩
    rcases h.settled with ⟨hnone, htype⟩ | ⟨hsome, hsame⟩
    · rw [hnone]
      exact htype
    · rw [hsome, hsame]
      exact ⟨h, rfl, fun times => by rw [if_neg hj]⟩

end Holds

end Event

namespace Recorder

variable [DecidableEq κ] {s : Recorder κ} {x : Target κ} {i : Fin maxNumberOfEvents} {j : Job}

/-- The updates follow each other closely enough for the 32-bit clock. -/
def Prompt (period last : Nat) (times : List Nat) : Prop :=
  (last :: times).IsChain fun a b => a ≤ b ∧ b + period < a + 2 ^ 32

instance (period last : Nat) (times : List Nat) : Decidable (Prompt period last times) :=
  inferInstanceAs (Decidable (List.IsChain _ _))

/-- The only event for a target asks for it when its job fires, until it is used up. -/
theorem schedule {rs : List (Nat × Request κ)} (hholds : (s.t.slot i).Holds j)
    (htarget : (s.t.slot i).target? = some x) (honly : s.Only x i)
    (hrs : ∀ r ∈ rs, r.2 ≠ .stop i.val ∧ r.2.target? ≠ some x) {last : Nat}
    (hlast : j.since ≤ last ∧ (last = j.since ∨ last < j.since + j.period))
    (hprompt : Prompt j.period last (updates rs)) :
    (rs.foldl run s).about x = s.about x ++ (s.t.slot i).turns (j.firings (updates rs)) ∧
      (((rs.foldl run s).t.slot i).target? = some x ↔ (j.after (updates rs)).isSome) := by
  induction rs generalizing s j last with
  | nil => exact ⟨(List.append_nil _).symm, iff_of_true htarget rfl⟩
  | cons r rs ih =>
    obtain ⟨time, r⟩ := r
    obtain ⟨hstop, hother⟩ := hrs (time, r) (List.mem_cons_self ..)
    have hrest : ∀ r ∈ rs, r.2 ≠ .stop i.val ∧ r.2.target? ≠ some x := fun r hr =>
      hrs r (List.mem_cons_of_mem _ hr)
    have honly' : (s.run (time, r)).Only x i := fun k hk => run_target hother (honly k hk)
    have habout : (s.run (time, r)).about x = _ := about_run hother
    rcases s.run_slot time r i with ⟨rfl, hslot⟩ | ⟨hne, hslot⟩ | ⟨-, hnone, -⟩ | ⟨rfl, -⟩
    · have hupdates : updates ((time, .update) :: rs) = time :: updates rs := rfl
      rw [hupdates] at hprompt ⊢
      obtain ⟨⟨hle, hlt⟩, hprompt⟩ := List.isChain_cons_cons.mp hprompt
      obtain ⟨hasks, htick⟩ := hholds.tick (show j.since ≤ time by omega) (by omega)
      have hmine : ((s.run (time, .update)).about x) = s.about x ++
          (if j.Due time then (s.t.slot i).signals else []).map fun y => (time, y) := by
        rw [habout, filter_asks honly, ← hasks, List.filter_eq_self.mpr]
        intro y hy
        have hy := Event.target_of_mem_asks hy
        rw [htarget] at hy
        exact decide_eq_true (Option.some.inj hy)
      rw [List.foldl_cons]
      cases hj' : j.tick time with
      | none =>
        rw [hj', ← hslot] at htick
        have hidle : ∀ k : Fin maxNumberOfEvents,
            ((s.run (time, .update)).t.slot k).target? ≠ some x := by
          intro k
          by_cases hk : k = i
          · subst hk
            rw [Event.target?_of_none htick]
            exact (Option.some_ne_none x).symm
          · exact honly' k hk
        obtain ⟨hsame, hslots⟩ := about_run_idle hidle fun r hr => (hrest r hr).2
        rw [hsame, hmine, Job.firings_of_none hj', Job.after, hj']
        refine ⟨congrArg _ ?_, iff_of_false (hslots i) (by simp)⟩
        split <;> simp [Event.turns]
      | some j' =>
        rw [hj', ← hslot] at htick
        obtain ⟨hholds', htarget', hturns⟩ := htick
        have hsince : j'.period = j.period ∧
            j'.since ≤ time ∧ (time = j'.since ∨ time < j'.since + j'.period) := by
          obtain ⟨rfl, -⟩ := Job.settled_eq_some.mp hj'
          by_cases hdue : j.Due time
          · rw [if_pos hdue]
            exact ⟨rfl, le_rfl, Or.inl rfl⟩
          · rw [if_neg hdue]
            rw [Job.Due] at hdue
            exact ⟨rfl, by omega, Or.inr (by omega)⟩
        obtain ⟨hperiod, hsince⟩ := hsince
        rw [← hperiod] at hprompt
        obtain ⟨hrun, hactive⟩ := ih hholds' (htarget'.trans htarget) honly' hrest hsince hprompt
        rw [hrun, hmine, hturns, Job.firings_of_some hj', Job.after, hj']
        refine ⟨?_, hactive⟩
        rw [List.append_assoc]
        refine congrArg _ ?_
        split <;> simp [Event.turns]
    · have hnone : updates ((time, r) :: rs) = updates rs := by
        cases r with
        | update => exact absurd rfl hne
        | _ => rfl
      have hsame : (s.run (time, r)).about x = s.about x := by
        rw [habout]
        cases r with
        | update => exact absurd rfl hne
        | _ => exact List.append_nil _
      rw [hnone] at hprompt ⊢
      rw [List.foldl_cons, ← hsame, ← hslot]
      exact ih (hslot ▸ hholds) (hslot ▸ htarget) honly' hrest hlast hprompt
    · exact absurd hnone hholds.active
    · exact absurd rfl hstop

/-- From the request that arms it, an event asks for its target when its job fires. -/
theorem armed_schedule {time : Nat} {r : Request κ} (hr : r.target? = some x)
    (hfree : findFreeEventIndex s.t = some i)
    (hfresh : ∀ k : Fin maxNumberOfEvents, (s.t.slot k).target? ≠ some x)
    (hholds : (r.armed (UInt32.ofNat time) (s.t.slot i)).Holds j) (hsince : j.since = time)
    {rs : List (Nat × Request κ)} (hrs : ∀ r ∈ rs, r.2 ≠ .stop i.val ∧ r.2.target? ≠ some x)
    (hprompt : Prompt j.period time (updates rs)) :
    (rs.foldl run (s.run (time, r))).about x = s.about x ++ r.first.map (fun y => (time, y)) ++
        (r.armed (UInt32.ofNat time) (s.t.slot i)).turns (j.firings (updates rs)) ∧
      (((rs.foldl run (s.run (time, r))).t.slot i).target? = some x ↔
        (j.after (updates rs)).isSome) := by
  have hrun := run_arms (by rw [hr]; rfl) s time
  rw [hfree] at hrun
  simp only at hrun
  have hself : ((s.run (time, r)).t.slot i) = r.armed (UInt32.ofNat time) (s.t.slot i) := by
    rw [hrun]
    exact Events.slot_put_self ..
  have htarget : ((s.run (time, r)).t.slot i).target? = some x := by
    rw [hself, ← hr]
    cases r with
    | stop id => cases hr
    | update => cases hr
    | _ => rfl
  have honly : (s.run (time, r)).Only x i := by
    intro k hk
    rw [hrun, Events.slot_put_ne _ _ (Ne.symm hk)]
    exact hfresh k
  have hfirst : (s.run (time, r)).about x = s.about x ++ r.first.map fun y => (time, y) := by
    rw [hrun, about, about, List.filter_append, List.append_cancel_left_eq, List.filter_eq_self]
    intro y hy
    obtain ⟨y', hy', rfl⟩ := List.mem_map.mp hy
    exact decide_eq_true (Option.some.inj ((Request.target_of_mem_first hy').trans hr))
  rw [← hself] at hholds ⊢
  obtain ⟨habout, hactive⟩ := schedule hholds htarget honly hrs
    ⟨hsince.le, Or.inl hsince.symm⟩ hprompt
  exact ⟨by rw [habout, hfirst], hactive⟩

end Recorder

/-! ## Functions -/

/-- The times at which an event fires that is to fire `n` times, or for ever. -/
def fires (n : Int) (period : UInt32) (time : Nat) (times : List Nat) : List Nat :=
  let all := Job.greedy period.toNat time times
  if n < 0 then all else all.take n.toNat

theorem fires_eq {n : Int} (hn : n ≠ 0) (period : UInt32) (time : Nat) (times : List Nat) :
    let j : Job := ⟨period.toNat, if n > -1 then some n.toNat else none, time⟩
    j.firings times = fires n period time times ∧
      ((j.after times).isSome ↔ n < 0 ∨ (fires n period time times).length < n.toNat) := by
  intro j
  have hleft : j.left ≠ some 0 := by
    simp only [j]
    split
    · rw [ne_eq, Option.some.injEq]
      omega
    · exact fun h => by cases h
  have hfirings : j.firings times = fires n period time times := by
    rw [Job.firings_eq j hleft, fires]
    by_cases hneg : n < 0
    · simp only [j, if_neg (show ¬ n > -1 by omega), if_pos hneg]
    · simp only [j, if_pos (show n > -1 by omega), if_neg hneg]
  refine ⟨hfirings, ?_⟩
  rw [Job.after_isSome_iff j hleft, hfirings]
  by_cases hneg : n < 0
  · simp [j, show ¬ n > -1 by omega, hneg]
  · simp [j, show n > -1 by omega, hneg]

/-- Two firings are a period apart, and while the event is armed it has fired less than a period
before each update, or at it. -/
theorem fires_spaced (n : Int) (period : UInt32) {time : Nat} {times : List Nat}
    (hsorted : (time :: times).Pairwise (· ≤ ·)) :
    (time :: fires n period time times).IsChain (fun a b => a + period.toNat ≤ b) ∧
      (n < 0 ∨ (fires n period time times).length < n.toNat → ∀ now ∈ times,
        ∃ t ∈ time :: fires n period time times,
          t ≤ now ∧ (now < t + period.toNat ∨ t = now)) := by
  have hchain := Job.chain_greedy period.toNat hsorted
  have hlately := fun now (hnow : now ∈ times) => Job.fired_lately period.toNat hsorted hnow
  rw [fires]
  by_cases hneg : n < 0
  · simp only [if_pos hneg]
    exact ⟨hchain, fun _ => hlately⟩
  · simp only [if_neg hneg]
    refine ⟨hchain.take (_ + 1), ?_⟩
    rintro (h | hlt)
    · exact absurd h hneg
    · rw [List.length_take] at hlt
      rw [List.take_of_length_le (by omega)]
      exact hlately

variable [DecidableEq κ] {s : Recorder κ} {i : Fin maxNumberOfEvents} {time : Nat}
  {period : UInt32} {rs : List (Nat × Request κ)}

omit [DecidableEq κ] in
theorem turns_every {e : Event κ} {f : κ} (htype : e.eventType = .every)
    (hcallback : e.callback = some f) (times : List Nat) :
    e.turns times = times.map fun now => (now, .call f) := by
  have htoggled : e.toggled = e := by
    rw [Event.toggled, htype]
  induction times with
  | nil => rfl
  | cons now times ih =>
    rw [Event.turns, htoggled, ih, Event.signals, htype]
    simp [hcallback]

/-- While updates come often enough, a function that `Timer::every` has taken is called at the
first update that is a period after its last call, and so on, `n` times or for ever, whatever
else is armed and stopped in the meantime. -/
theorem every_schedule {f : κ} {n : Int} (hn : n ≠ 0)
    (hfree : findFreeEventIndex s.t = some i)
    (hfresh : ∀ k : Fin maxNumberOfEvents, (s.t.slot k).target? ≠ some (.function f))
    (hrs : ∀ r ∈ rs, r.2 ≠ .stop i.val ∧ r.2.target? ≠ some (.function f))
    (hprompt : Recorder.Prompt period.toNat time (updates rs)) :
    let t := rs.foldl Recorder.run (s.run (time, .every period f n))
    let times := fires n period time (updates rs)
    t.about (.function f) = s.about (.function f) ++ times.map (fun now => (now, .call f)) ∧
      ((t.t.slot i).target? = some (.function f) ↔ n < 0 ∨ times.length < n.toNat) ∧
      (time :: times).IsChain (fun a b => a + period.toNat ≤ b) ∧
      (n < 0 ∨ times.length < n.toNat → ∀ now ∈ updates rs, ∃ x ∈ time :: times,
        x ≤ now ∧ (now < x + period.toNat ∨ x = now)) := by
  intro t times
  obtain ⟨hfirings, hafter⟩ := fires_eq hn period time (updates rs)
  have hsorted : (time :: updates rs).Pairwise (· ≤ ·) :=
    (hprompt.imp fun _ _ h => h.1).pairwise
  obtain ⟨hchain, hlately⟩ := fires_spaced n period hsorted
  have hholds : ((Request.every period f n).armed (UInt32.ofNat time) (s.t.slot i)).Holds
      ⟨period.toNat, if n > -1 then some n.toNat else none, time⟩ :=
    ⟨EventType.noConfusion, rfl, rfl, by simp [Request.armed]⟩
  obtain ⟨habout, hactive⟩ := Recorder.armed_schedule (r := .every period f n) rfl hfree hfresh
    hholds rfl hrs hprompt
  have hfirst : (Request.every period f n).first = [] := rfl
  rw [hfirings, turns_every rfl rfl, hfirst, List.map_nil, List.append_nil] at habout
  exact ⟨habout, hactive.trans hafter, hchain, hlately⟩

/-- Two calls in three updates, while a pin oscillates and another function comes and goes. -/
theorem every_schedule_of_two :
    let s : Recorder Nat := [(0, .oscillate 13 40 1 (-1)), (5, .every 10 7 2)].foldl Recorder.run
      ⟨Vector.replicate maxNumberOfEvents ⟨.none, 0, 0, 0, 0, none, 0, 0⟩, 0, []⟩
    let rs := [(60, .update), (70, .stop 1), (110, .update), (115, .every 30 7 1), (160, .update)]
    (rs.foldl Recorder.run (s.run (10, .every 50 3 (-1)))).about (.function 3) =
      [(60, .call 3), (110, .call 3), (160, .call 3)] := by
  intro s rs
  have hfree : findFreeEventIndex s.t = some 2 := by decide +kernel
  have hrun := (@every_schedule Nat _ s 2 10 50 rs 3 (-1) (by decide) hfree (by decide +kernel)
    (by decide +kernel) (by decide +kernel)).1
  rw [hrun]
  decide +kernel

/-! ## Pins -/

omit [DecidableEq κ] in
/-- A pin that changes its level each time. -/
def levels (pin : UInt8) (level : Bool) : List Nat → List (Nat × Signal κ)
  | [] => []
  | now :: times => (now, .digitalWrite pin level) :: levels pin (!level) times

omit [DecidableEq κ] in
theorem turns_oscillate {e : Event κ} (htype : e.eventType = .oscillate) (times : List Nat) :
    e.turns times = levels e.pin (!(e.pinState != 0)) times := by
  induction times generalizing e with
  | nil => rfl
  | cons now times ih =>
    have hpin : e.toggled.pin = e.pin := by
      rw [Event.toggled, htype]
    have hstate : (e.toggled.pinState != 0) = !(e.pinState != 0) := by
      simp only [Event.toggled, htype]
      split <;> simp [*]
    rw [Event.turns, ih (e.toggled_eventType.trans htype), Event.signals, htype, hpin, hstate]
    rfl

/-- A request that arms a pin drives it to its first level at once, and to the other one each
time that the event fires. -/
theorem pin_schedule {r : Request κ} {pin value : UInt8} {m : Int} (hm : m ≠ 0)
    (hr : r.target? = some (.pin pin)) (hfirst : r.first = [.digitalWrite pin (value != 0)])
    (harmed : ∀ now e, r.armed now e = { e with
      eventType := .oscillate, pin := pin, period := period, pinState := value, repeatCount := m,
      lastEventTime := now, count := 0 })
    (hfree : findFreeEventIndex s.t = some i)
    (hfresh : ∀ k : Fin maxNumberOfEvents, (s.t.slot k).target? ≠ some (.pin pin))
    (hrs : ∀ r ∈ rs, r.2 ≠ .stop i.val ∧ r.2.target? ≠ some (.pin pin))
    (hprompt : Recorder.Prompt period.toNat time (updates rs)) :
    let t := rs.foldl Recorder.run (s.run (time, r))
    let times := fires m period time (updates rs)
    t.about (.pin pin) = s.about (.pin pin) ++ levels pin (value != 0) (time :: times) ∧
      ((t.t.slot i).target? = some (.pin pin) ↔ m < 0 ∨ times.length < m.toNat) ∧
      (time :: times).IsChain (fun a b => a + period.toNat ≤ b) ∧
      (m < 0 ∨ times.length < m.toNat → ∀ now ∈ updates rs, ∃ x ∈ time :: times,
        x ≤ now ∧ (now < x + period.toNat ∨ x = now)) := by
  intro t times
  obtain ⟨hfirings, hafter⟩ := fires_eq hm period time (updates rs)
  have hsorted : (time :: updates rs).Pairwise (· ≤ ·) :=
    (hprompt.imp fun _ _ h => h.1).pairwise
  obtain ⟨hchain, hlately⟩ := fires_spaced m period hsorted
  have hholds : (r.armed (UInt32.ofNat time) (s.t.slot i)).Holds
      ⟨period.toNat, if m > -1 then some m.toNat else none, time⟩ := by
    rw [harmed]
    exact ⟨EventType.noConfusion, rfl, rfl, by simp⟩
  obtain ⟨habout, hactive⟩ := Recorder.armed_schedule hr hfree hfresh hholds rfl hrs hprompt
  rw [hfirings, harmed, turns_oscillate rfl, hfirst, List.append_assoc] at habout
  exact ⟨habout, hactive.trans hafter, hchain, hlately⟩

/-- While updates come often enough, a pin that oscillates is driven to its first level at once,
and to the other one each time that a period has passed, as often as the 16-bit product of two and
`n` says: two changes for each of `n` cycles while the product does not wrap, and for ever if it
is negative, as it is for `n` from 16384 up to 32767. -/
theorem oscillate_schedule {pin startingValue : UInt8} {n : Int} (hn : (n * 2).bmod 65536 ≠ 0)
    (hfree : findFreeEventIndex s.t = some i)
    (hfresh : ∀ k : Fin maxNumberOfEvents, (s.t.slot k).target? ≠ some (.pin pin))
    (hrs : ∀ r ∈ rs, r.2 ≠ .stop i.val ∧ r.2.target? ≠ some (.pin pin))
    (hprompt : Recorder.Prompt period.toNat time (updates rs)) :
    let t := rs.foldl Recorder.run (s.run (time, .oscillate pin period startingValue n))
    let changes := (n * 2).bmod 65536
    let times := fires changes period time (updates rs)
    t.about (.pin pin) = s.about (.pin pin) ++ levels pin (startingValue != 0) (time :: times) ∧
      ((t.t.slot i).target? = some (.pin pin) ↔ changes < 0 ∨ times.length < changes.toNat) ∧
      (time :: times).IsChain (fun a b => a + period.toNat ≤ b) ∧
      (changes < 0 ∨ times.length < changes.toNat → ∀ now ∈ updates rs, ∃ x ∈ time :: times,
        x ≤ now ∧ (now < x + period.toNat ∨ x = now)) ∧
      (-16384 ≤ n → n < 16384 → changes = 2 * n) ∧
      (16384 ≤ n → n < 32768 → changes < 0) := by
  intro t changes times
  obtain ⟨habout, hactive, hchain, hlately⟩ := pin_schedule (s := s)
    (r := .oscillate pin period startingValue n) (m := changes) hn rfl rfl (fun _ _ => rfl) hfree
    hfresh hrs hprompt
  refine ⟨habout, hactive, hchain, hlately, fun hlow hhigh => ?_, fun hlow hhigh => ?_⟩
  · change (n * 2).bmod 65536 = 2 * n
    rw [Int.bmod_def]
    omega
  · change (n * 2).bmod 65536 < 0
    rw [Int.bmod_def]
    omega

/-- Two cycles in five updates, one of which comes late. -/
theorem oscillate_schedule_of_two :
    let s : Recorder Nat := ⟨Vector.replicate maxNumberOfEvents ⟨.none, 0, 0, 0, 0, none, 0, 0⟩, 0, []⟩
    let rs := [(30, .update), (35, .every 10 7 1), (100, .update), (120, .update), (121, .update),
      (900, .update)]
    (rs.foldl Recorder.run (s.run (10, .oscillate 13 20 0 2))).about (.pin 13) =
      [(10, .digitalWrite 13 false), (30, .digitalWrite 13 true), (100, .digitalWrite 13 false),
        (120, .digitalWrite 13 true), (900, .digitalWrite 13 false)] := by
  intro s rs
  have hfree : findFreeEventIndex s.t = some 0 := by decide +kernel
  have hrun := (@oscillate_schedule Nat _ s 0 10 20 rs 13 0 2 (by decide) hfree
    (by decide +kernel) (by decide +kernel) (by decide +kernel)).1
  rw [hrun]
  decide +kernel

/-- While updates come often enough, `Timer::pulse` drives its pin to the starting value, to the
other level a period later, and back to the starting value a period after that: once its event
is used up, the pin is left as it started. `Timer::pulseImmediate` leaves it at the other
level. -/
theorem pulse_ends {pin value : UInt8} (hfree : findFreeEventIndex s.t = some i)
    (hfresh : ∀ k : Fin maxNumberOfEvents, (s.t.slot k).target? ≠ some (.pin pin))
    (hrs : ∀ r ∈ rs, r.2 ≠ .stop i.val ∧ r.2.target? ≠ some (.pin pin))
    (hprompt : Recorder.Prompt period.toNat time (updates rs)) :
    let pulsed := rs.foldl Recorder.run
      (recorder.pulse (UInt32.ofNat time) pin period value { s with clock := time }).1
    let immediate := rs.foldl Recorder.run
      (recorder.pulseImmediate (UInt32.ofNat time) pin period value { s with clock := time }).1
    ((pulsed.t.slot i).target? ≠ some (.pin pin) → ∃ t₁ t₂, time + period.toNat ≤ t₁ ∧
      t₁ + period.toNat ≤ t₂ ∧ pulsed.about (.pin pin) = s.about (.pin pin) ++
        [(time, .digitalWrite pin (value != 0)), (t₁, .digitalWrite pin !(value != 0)),
          (t₂, .digitalWrite pin (value != 0))]) ∧
    ((immediate.t.slot i).target? ≠ some (.pin pin) → ∃ t₁, time + period.toNat ≤ t₁ ∧
      immediate.about (.pin pin) = s.about (.pin pin) ++
        [(time, .digitalWrite pin (value != 0)), (t₁, .digitalWrite pin !(value != 0))]) := by
  intro pulsed immediate
  constructor
  · intro hspent
    obtain ⟨habout, hactive, hchain, -⟩ := pin_schedule (s := s)
      (r := .oscillate pin period value 1) (m := 2) (by decide) rfl rfl (fun _ _ => rfl) hfree
      hfresh hrs hprompt
    have hcount : (fires 2 period time (updates rs)).length = 2 := by
      have hmost : (fires 2 period time (updates rs)).length ≤ 2 := List.length_take_le ..
      have hleast := mt (fun h => hactive.mpr (Or.inr h)) hspent
      change ¬ (fires 2 period time (updates rs)).length < 2 at hleast
      omega
    obtain ⟨t₁, t₂, htimes⟩ := List.length_eq_two.mp hcount
    rw [htimes] at habout hchain
    obtain ⟨h₁, hchain⟩ := List.isChain_cons_cons.mp hchain
    obtain ⟨h₂, -⟩ := List.isChain_cons_cons.mp hchain
    simp only [levels, Bool.not_not] at habout
    exact ⟨t₁, t₂, h₁, h₂, habout⟩
  · intro hspent
    obtain ⟨habout, hactive, hchain, -⟩ := pin_schedule (s := s)
      (r := .pulseImmediate pin period value) (m := 1) (by decide) rfl rfl (fun _ _ => rfl) hfree
      hfresh hrs hprompt
    have hcount : (fires 1 period time (updates rs)).length = 1 := by
      have hmost : (fires 1 period time (updates rs)).length ≤ 1 := List.length_take_le ..
      have hleast := mt (fun h => hactive.mpr (Or.inr h)) hspent
      change ¬ (fires 1 period time (updates rs)).length < 1 at hleast
      omega
    obtain ⟨t₁, htimes⟩ := List.length_eq_one_iff.mp hcount
    rw [htimes] at habout hchain
    exact ⟨t₁, (List.isChain_cons_cons.mp hchain).1, habout⟩

/-- Both kinds of pulse, with updates every 30 ms and a period of 50 ms. -/
theorem pulse_ends_of_four :
    let s : Recorder Nat := ⟨Vector.replicate maxNumberOfEvents ⟨.none, 0, 0, 0, 0, none, 0, 0⟩, 0, []⟩
    let rs := [(30, .update), (60, .update), (90, .update), (120, .update)]
    ∃ t₁ t₂, 0 + 50 ≤ t₁ ∧ t₁ + 50 ≤ t₂ ∧ (rs.foldl Recorder.run
      (recorder.pulse (UInt32.ofNat 0) 13 50 0 { s with clock := 0 }).1).about (.pin 13) =
        s.about (.pin 13) ++ [(0, .digitalWrite 13 false), (t₁, .digitalWrite 13 true),
          (t₂, .digitalWrite 13 false)] := by
  intro s rs
  have hfree : findFreeEventIndex s.t = some 0 := by decide +kernel
  have hpulse := (@pulse_ends Nat _ s 0 0 50 rs 13 0 hfree (by decide +kernel) (by decide +kernel)
    (by decide +kernel)).1
  exact hpulse (by decide +kernel)

end SmartDoor.Timer
