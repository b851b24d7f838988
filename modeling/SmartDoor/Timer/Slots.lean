import SmartDoor.Timer.Event
import Mathlib.Data.List.Nodup

/-!
# The slots of the table

`Timer::oscillate` and its relatives arm the events that toggle a pin. An update visits the
ten slots one after the other; as long as the callbacks leave the table alone, no slot notices
the visits to the others, so an update is one tick of every slot, and what the due events ask
for, in the order of the slots.
-/

namespace SmartDoor.Timer

variable {κ σ : Type}

/-! ## Pins -/

/-- `Timer::oscillate` with a repeat count. The product is an `int` of 16 bits. -/
def Host.oscillate (h : Host κ σ) (now : UInt32) (pin : UInt8) (period : UInt32)
    (startingValue : UInt8) (repeatCount : Int) (s : σ) : σ × Int :=
  match findFreeEventIndex (h.events s) with
  | none => (s, noTimerAvailable)
  | some i =>
    let s := h.modify i (fun e => { e with
      eventType := .oscillate, pin := pin, period := period, pinState := startingValue }) s
    let s := h.digitalWrite pin (startingValue != 0) s
    (h.modify i (fun e => { e with
      repeatCount := (repeatCount * 2).bmod 65536, lastEventTime := now, count := 0 }) s, i.val)

/-- `Timer::pulse` -/
def Host.pulse (h : Host κ σ) (now : UInt32) (pin : UInt8) (period : UInt32)
    (startingValue : UInt8) (s : σ) : σ × Int :=
  h.oscillate now pin period startingValue 1 s

theorem slot_lt {id : Int} (h : 0 ≤ id ∧ id < maxNumberOfEvents) : id.toNat < maxNumberOfEvents := by
  omega

/-- `Timer::pulseImmediate` -/
def Host.pulseImmediate (h : Host κ σ) (now : UInt32) (pin : UInt8) (period : UInt32)
    (pulseValue : UInt8) (s : σ) : σ × Int :=
  let (s, id) := h.oscillate now pin period pulseValue 1 s
  if hid : 0 ≤ id ∧ id < maxNumberOfEvents then
    (h.modify ⟨id.toNat, slot_lt hid⟩ (fun e => { e with repeatCount := 1 }) s, id)
  else (s, id)

/-! ## One event -/

/-- What an event asks of the host program. -/
inductive Signal (κ : Type)
  | call (f : κ)
  | digitalWrite (pin : UInt8) (level : Bool)
  deriving DecidableEq, Repr

/-- Do what an event asks for. -/
def Host.perform (h : Host κ σ) (s : σ) : Signal κ → σ
  | .call f => h.call f s
  | .digitalWrite pin level => h.digitalWrite pin level s

namespace Event

/-- The period has passed since the event fired last. -/
def Due (now : UInt32) (e : Event κ) : Prop := e.period ≤ now - e.lastEventTime

instance (now : UInt32) (e : Event κ) : Decidable (e.Due now) := inferInstanceAs (Decidable (_ ≤ _))

/-- The `switch` of `Event::update`, as far as the event goes. -/
def toggled (e : Event κ) : Event κ :=
  match e.eventType with
  | .oscillate => { e with pinState := if e.pinState = 0 then 1 else 0 }
  | _ => e

/-- The `switch` of `Event::update`, as far as the host goes. -/
def signals (e : Event κ) : List (Signal κ) :=
  match e.eventType with
  | .every => (e.callback.map Signal.call).toList
  | .oscillate => [.digitalWrite e.pin (e.toggled.pinState != 0)]
  | .none => []

/-- The event after it fired. -/
def fired (now : UInt32) (e : Event κ) : Event κ :=
  let e := e.toggled
  { e with lastEventTime := now, count := e.count + 1 }

/-- The repeat count is tested. -/
def settled (e : Event κ) : Event κ :=
  if e.repeatCount > -1 ∧ e.count ≥ e.repeatCount then { e with eventType := .none } else e

/-- What an update does to an event. -/
def tick (now : UInt32) (e : Event κ) : Event κ :=
  if e.eventType = .none then e else (if e.Due now then e.fired now else e).settled

/-- What an event asks for in an update. -/
def asks (now : UInt32) (e : Event κ) : List (Signal κ) :=
  if e.eventType ≠ .none ∧ e.Due now then e.signals else []

theorem tick_of_none {now : UInt32} {e : Event κ} (h : e.eventType = .none) : e.tick now = e :=
  if_pos h

theorem asks_of_none {now : UInt32} {e : Event κ} (h : e.eventType = .none) : e.asks now = [] :=
  if_neg fun hc => hc.1 h

end Event

/-! ## An update -/

/-- What the events of a table ask for in an update, in the order of the slots. -/
def asks (now : UInt32) (t : Events κ) : List (Signal κ) :=
  (List.finRange maxNumberOfEvents).flatMap fun i => (t.slot i).asks now

/-- The table is a part of the host state that callbacks and pins leave alone. -/
structure Host.Separate (h : Host κ σ) : Prop extends h.Lawful where
  setEvents_events : ∀ s, h.setEvents (h.events s) s = s
  events_call : ∀ f s, h.events (h.call f s) = h.events s
  call_setEvents : ∀ f t s, h.call f (h.setEvents t s) = h.setEvents t (h.call f s)
  events_digitalWrite : ∀ pin level s, h.events (h.digitalWrite pin level s) = h.events s
  digitalWrite_setEvents : ∀ pin level t s,
    h.digitalWrite pin level (h.setEvents t s) = h.setEvents t (h.digitalWrite pin level s)

namespace Host.Separate

variable {h : Host κ σ}

theorem perform_setEvents (hsep : h.Separate) (t : Events κ) (s : σ) (x : Signal κ) :
    h.perform (h.setEvents t s) x = h.setEvents t (h.perform s x) := by
  cases x with
  | call f => exact hsep.call_setEvents f t s
  | digitalWrite pin level => exact hsep.digitalWrite_setEvents pin level t s

theorem foldl_setEvents (hsep : h.Separate) (t : Events κ) (xs : List (Signal κ)) (s : σ) :
    xs.foldl h.perform (h.setEvents t s) = h.setEvents t (xs.foldl h.perform s) := by
  induction xs generalizing s with
  | nil => rfl
  | cons x xs ih => rw [List.foldl_cons, List.foldl_cons, hsep.perform_setEvents, ih]

/-- The `switch` toggles its own event, and does what the event asks for. -/
theorem fire (hsep : h.Separate) (i : Fin maxNumberOfEvents) (s : σ) :
    h.fire i s = h.setEvents ((h.events s).put i (((h.events s).slot i).toggled))
      (((h.events s).slot i).signals.foldl h.perform s) := by
  have hsame := (h.events s).put_slot i
  rw [Host.fire, Event.signals, Event.toggled]
  cases htype : ((h.events s).slot i).eventType with
  | every =>
    simp only
    rw [hsame]
    cases ((h.events s).slot i).callback with
    | none => exact (hsep.setEvents_events s).symm
    | some f =>
      simp only [Option.map_some, Option.toList_some, List.foldl_cons, List.foldl_nil, Host.perform]
      rw [← hsep.events_call f s, hsep.setEvents_events]
  | oscillate =>
    simp only [Host.modify, hsep.events_setEvents, Timer.modify, List.foldl_cons, List.foldl_nil,
      Host.perform, hsep.digitalWrite_setEvents, htype]
    simp
  | none =>
    simp only
    rw [hsame]
    exact (hsep.setEvents_events s).symm

/-- `Event::update` on a slot is a tick of it, and does what the event asks for. -/
theorem visit (hsep : h.Separate) (now : UInt32) (s : σ) (i : Fin maxNumberOfEvents) :
    h.visit now s i = h.setEvents ((h.events s).put i (((h.events s).slot i).tick now))
      ((((h.events s).slot i).asks now).foldl h.perform s) := by
  have hsettle : ∀ (t : Events κ) (u : σ),
      (if ((h.events (h.setEvents t u)).slot i).repeatCount > -1 ∧
          ((h.events (h.setEvents t u)).slot i).count ≥ ((h.events (h.setEvents t u)).slot i).repeatCount then
        h.modify i (fun e => { e with eventType := .none }) (h.setEvents t u)
      else h.setEvents t u) = h.setEvents (t.put i (t.slot i).settled) u := by
    intro t u
    rw [hsep.events_setEvents, Event.settled]
    split
    · rw [Host.modify, hsep.events_setEvents, hsep.setEvents_setEvents]
      rfl
    · rw [Events.put_slot]
  rw [Host.visit]
  by_cases hnone : ((h.events s).slot i).eventType = .none
  · rw [if_neg (not_not.mpr hnone), Event.tick_of_none hnone, Event.asks_of_none hnone,
      Events.put_slot]
    exact (hsep.setEvents_events s).symm
  · have hfired : (if ((h.events s).slot i).period ≤ now - ((h.events s).slot i).lastEventTime then
          h.modify i (fun e => { e with lastEventTime := now, count := e.count + 1 }) (h.fire i s)
        else s) = h.setEvents ((h.events s).put i
          (if ((h.events s).slot i).Due now then ((h.events s).slot i).fired now else ((h.events s).slot i)))
          ((((h.events s).slot i).asks now).foldl h.perform s) := by
      rw [Event.asks]
      by_cases hdue : ((h.events s).slot i).Due now
      · rw [if_pos (show ((h.events s).slot i).period ≤ _ from hdue), if_pos hdue, if_pos ⟨hnone, hdue⟩,
          hsep.fire, Host.modify, hsep.events_setEvents, hsep.setEvents_setEvents]
        simp only [Timer.modify, Events.slot_put_self, Events.put_put]
        rfl
      · rw [if_neg (show ¬ ((h.events s).slot i).period ≤ _ from hdue), if_neg hdue,
          if_neg fun hc => hdue hc.2, Events.put_slot]
        exact (hsep.setEvents_events s).symm
    rw [if_pos hnone, Host.updateEvent]
    simp only [hfired]
    refine (hsettle _ _).trans ?_
    rw [Event.tick, if_neg hnone]
    simp only [Events.slot_put_self, Events.put_put]

/-- The visits to some slots: each is ticked once, and asks in its turn. -/
theorem foldl_visit (hsep : h.Separate) (now : UInt32) {is : List (Fin maxNumberOfEvents)}
    (hnodup : is.Nodup) (s : σ) : ∃ t, (∀ i : Fin maxNumberOfEvents,
      (t.slot i) = if i ∈ is then ((h.events s).slot i).tick now else ((h.events s).slot i)) ∧
      is.foldl (h.visit now) s = h.setEvents t
        ((is.flatMap fun i => ((h.events s).slot i).asks now).foldl h.perform s) := by
  induction is generalizing s with
  | nil => exact ⟨h.events s, fun i => (if_neg List.not_mem_nil).symm, (hsep.setEvents_events s).symm⟩
  | cons i is ih =>
    obtain ⟨hi, hnodup⟩ := List.nodup_cons.mp hnodup
    obtain ⟨t, ht, hrest⟩ := ih hnodup (h.visit now s i)
    have hevents : h.events (h.visit now s i) =
        (h.events s).put i (((h.events s).slot i).tick now) := by
      rw [hsep.visit, hsep.events_setEvents]
    have hother : ∀ j ∈ is, ((h.events (h.visit now s i)).slot j) = ((h.events s).slot j) := by
      intro j hj
      have hij : i ≠ j := fun heq => hi (heq ▸ hj)
      rw [hevents, Events.slot_put_ne _ _ hij]
    refine ⟨t, fun j => ?_, ?_⟩
    · rw [ht j]
      by_cases hj : j ∈ is
      · rw [if_pos hj, if_pos (List.mem_cons_of_mem _ hj), hother j hj]
      · rw [if_neg hj, hevents]
        by_cases hij : i = j
        · subst hij
          rw [Events.slot_put_self, if_pos (List.mem_cons_self ..)]
        · have hne : j ∉ i :: is := fun hm => by
            rcases List.mem_cons.mp hm with rfl | hm
            · exact hij rfl
            · exact hj hm
          rw [Events.slot_put_ne _ _ hij, if_neg hne]
    · have hasks : (is.flatMap fun j => ((h.events (h.visit now s i)).slot j).asks now) =
          is.flatMap fun j => ((h.events s).slot j).asks now := by
        rw [List.flatMap_congr fun j hj => by rw [hother j hj]]
      rw [List.foldl_cons, hrest, hasks, hsep.visit, hsep.foldl_setEvents, hsep.setEvents_setEvents,
        List.flatMap_cons, List.foldl_append]

/-- An update is one tick of each slot, and what the due events ask for. -/
theorem update (hsep : h.Separate) (now : UInt32) (s : σ) :
    h.update now s = h.setEvents ((h.events s).map (Event.tick now))
      ((asks now (h.events s)).foldl h.perform s) := by
  obtain ⟨t, ht, hrun⟩ := hsep.foldl_visit now (List.nodup_finRange maxNumberOfEvents) s
  have htick : t = (h.events s).map (Event.tick now) := by
    ext1 i hi
    have hslot := ht ⟨i, hi⟩
    rw [if_pos (List.mem_finRange _)] at hslot
    rw [Vector.getElem_map]
    exact hslot
  rw [Host.update, hrun, htick]
  rfl

end Host.Separate

end SmartDoor.Timer
