import Mathlib.Data.UInt
import Mathlib.Data.Vector.Basic
import Mathlib.Data.Fintype.Basic
import Mathlib.Data.List.FinRange

/-!
# The event table of the Timer library

`_libraries/Timer` keeps ten events and runs the due ones from `Timer::update`.
A callback is an arbitrary piece of the host program, so `update` is stated
over a host state that contains the table; the other operations touch the
table only. All times are the 32-bit readings of `millis()`, and their
differences wrap.
-/

namespace SmartDoor.Timer

/-- `MAX_NUMBER_OF_EVENTS` -/
abbrev maxNumberOfEvents : Nat := 10

/-- `NO_TIMER_AVAILABLE` -/
abbrev noTimerAvailable : Int := -1

/-- `EVENT_NONE`, `EVENT_EVERY` and `EVENT_OSCILLATE`. -/
inductive EventType
  | none
  | every
  | oscillate
  deriving DecidableEq, Repr

/-- One slot of the table. The callback of a slot that was never armed is null. -/
structure Event (κ : Type) where
  eventType : EventType
  period : UInt32
  repeatCount : Int
  pin : UInt8
  pinState : UInt8
  callback : Option κ
  lastEventTime : UInt32
  count : Int

/-- `Event _events[MAX_NUMBER_OF_EVENTS]` -/
abbrev Events (κ : Type) := Vector (Event κ) maxNumberOfEvents

variable {κ σ : Type}

/-- The first slot whose type is `EVENT_NONE`, if there is one. -/
def findFreeEventIndex (t : Events κ) : Option (Fin maxNumberOfEvents) :=
  (List.finRange maxNumberOfEvents).find? fun i => t[i].eventType = .none

/-- The slot with this index. -/
abbrev Events.slot (t : Events κ) (i : Fin maxNumberOfEvents) : Event κ := t[i]

/-- The table with another event in the slot with this index. -/
abbrev Events.put (t : Events κ) (i : Fin maxNumberOfEvents) (e : Event κ) : Events κ := t.set i e

namespace Events

variable (t : Events κ) {i j : Fin maxNumberOfEvents} (e : Event κ)

theorem slot_put_self : (t.put i e).slot i = e := Vector.getElem_set_self ..

theorem slot_put_ne (h : i ≠ j) : (t.put i e).slot j = t.slot j :=
  Vector.getElem_set_ne _ _ fun hij => h (Fin.ext hij)

theorem put_slot (i : Fin maxNumberOfEvents) : t.put i (t.slot i) = t := Vector.set_getElem_self _

theorem put_put (d : Event κ) : (t.put i d).put i e = t.put i e := Vector.set_set ..

end Events

/-- `Timer::every` with a repeat count: arm the first free slot and answer its index. -/
def every (now period : UInt32) (callback : κ) (repeatCount : Int) (t : Events κ) :
    Events κ × Int :=
  match findFreeEventIndex t with
  | none => (t, noTimerAvailable)
  | some i =>
    (t.set i { t[i] with
      eventType := .every, period := period, repeatCount := repeatCount,
      callback := some callback, lastEventTime := now, count := 0 }, i.val)

/-- `Timer::after`: a one-shot event. -/
def after (now period : UInt32) (callback : κ) (t : Events κ) : Events κ × Int :=
  every now period callback 1 t

/-- Apply a change to one slot. -/
def modify (i : Fin maxNumberOfEvents) (f : Event κ → Event κ) (t : Events κ) : Events κ :=
  t.set i (f t[i])

/-- `Timer::stop`: an index outside the table is ignored. -/
def stop (id : Int) (t : Events κ) : Events κ :=
  if h : 0 ≤ id ∧ id < maxNumberOfEvents then
    modify ⟨id.toNat, by omega⟩ (fun e => { e with eventType := .none }) t
  else t

/-- What the library needs of the program around it: where the table lives in
its state, what a callback does to that state, and the effect of `digitalWrite`. -/
structure Host (κ σ : Type) where
  events : σ → Events κ
  setEvents : Events κ → σ → σ
  call : κ → σ → σ
  digitalWrite : UInt8 → Bool → σ → σ

/-- Change one slot of the table inside the host state. -/
def Host.modify (h : Host κ σ) (i : Fin maxNumberOfEvents) (f : Event κ → Event κ) (s : σ) : σ :=
  h.setEvents (Timer.modify i f (h.events s)) s

/-- The `switch` of `Event::update`: run the callback or toggle the pin. -/
def Host.fire (h : Host κ σ) (i : Fin maxNumberOfEvents) (s : σ) : σ :=
  match (h.events s)[i].eventType with
  | .every =>
    match (h.events s)[i].callback with
    | some f => h.call f s
    | none => s
  | .oscillate =>
    let s := h.modify i (fun e => { e with pinState := if e.pinState = 0 then 1 else 0 }) s
    h.digitalWrite (h.events s)[i].pin ((h.events s)[i].pinState != 0) s
  | .none => s

/-- `Event::update(now)` on slot `i`. The repeat count is tested on every call,
whether or not the event fired. -/
def Host.updateEvent (h : Host κ σ) (i : Fin maxNumberOfEvents) (now : UInt32) (s : σ) : σ :=
  let s :=
    if (h.events s)[i].period ≤ now - (h.events s)[i].lastEventTime then
      h.modify i (fun e => { e with lastEventTime := now, count := e.count + 1 }) (h.fire i s)
    else s
  if (h.events s)[i].repeatCount > -1 ∧ (h.events s)[i].count ≥ (h.events s)[i].repeatCount then
    h.modify i (fun e => { e with eventType := .none }) s
  else s

/-- The body of the loop of `Timer::update`. -/
def Host.visit (h : Host κ σ) (now : UInt32) (s : σ) (i : Fin maxNumberOfEvents) : σ :=
  if (h.events s)[i].eventType ≠ .none then h.updateEvent i now s else s

/-- `Timer::update(now)` -/
def Host.update (h : Host κ σ) (now : UInt32) (s : σ) : σ :=
  (List.finRange maxNumberOfEvents).foldl (h.visit now) s

/-! ## Slots -/

/-- A slot is active when it holds an event. -/
def Active (t : Events κ) (i : Fin maxNumberOfEvents) : Prop := t[i].eventType ≠ .none

instance (t : Events κ) (i : Fin maxNumberOfEvents) : Decidable (Active t i) :=
  inferInstanceAs (Decidable (_ ≠ _))

@[simp] theorem modify_self (i : Fin maxNumberOfEvents) (f : Event κ → Event κ) (t : Events κ) :
    (modify i f t)[i.val] = f t[i.val] := by
  simp [modify]

theorem modify_other {i j : Fin maxNumberOfEvents} (h : j ≠ i) (f : Event κ → Event κ)
    (t : Events κ) : (modify i f t)[j.val] = t[j.val] := by
  have hv : i.val ≠ j.val := fun he => h (Fin.ext he.symm)
  simp [modify, Vector.getElem_set_ne _ _ hv]

/-- Only a table with every slot taken has no free slot. -/
theorem findFreeEventIndex_eq_none {t : Events κ} :
    findFreeEventIndex t = none ↔ ∀ i, Active t i := by
  simp [findFreeEventIndex, Active, List.find?_eq_none]

/-- On a table with no active slot, the one-shot event gets a slot of its own. -/
theorem after_of_idle (now period : UInt32) (callback : κ) {t : Events κ}
    (h : ∀ i, ¬ Active t i) : ∃ i : Fin maxNumberOfEvents,
      (after now period callback t).2 = i.val ∧
      (after now period callback t).1 = t.set i { t[i] with
        eventType := .every, period := period, repeatCount := 1,
        callback := some callback, lastEventTime := now, count := 0 } := by
  cases hf : findFreeEventIndex t with
  | none => exact absurd (findFreeEventIndex_eq_none.mp hf 0) (h 0)
  | some i => exact ⟨i, by simp [after, every, hf], by simp [after, every, hf]⟩

/-- Stopping the index of a slot frees that slot. -/
theorem stop_slot (i : Fin maxNumberOfEvents) (t : Events κ) :
    stop (i.val : Int) t = modify i (fun e => { e with eventType := .none }) t := by
  have h : (0 : Int) ≤ i.val ∧ (i.val : Int) < maxNumberOfEvents := by
    have := i.isLt
    omega
  rw [stop, dif_pos h]
  rfl

/-- Stopping the only active slot leaves none. -/
theorem stop_idle {i : Fin maxNumberOfEvents} {t : Events κ}
    (h : ∀ j, j ≠ i → ¬ Active t j) (j : Fin maxNumberOfEvents) :
    ¬ Active (stop (i.val : Int) t) j := by
  rw [stop_slot]
  by_cases hj : j = i
  · subst hj
    simp [Active]
  · simpa [Active, modify_other hj] using h j hj

/-! ## The update loop -/

/-- An event that is neither due nor used up is left alone. -/
theorem Host.updateEvent_early (h : Host κ σ) {i : Fin maxNumberOfEvents} {now : UInt32} {s : σ}
    (hdue : ¬ (h.events s)[i].period ≤ now - (h.events s)[i].lastEventTime)
    (hcount : (h.events s)[i].count < (h.events s)[i].repeatCount) :
    h.updateEvent i now s = s := by
  have hc : ¬ ((h.events s)[i].repeatCount > -1 ∧
      (h.events s)[i].count ≥ (h.events s)[i].repeatCount) := by omega
  simp only [Host.updateEvent, if_neg hdue, if_neg hc]

/-- A due event fires; when that was its last time it frees its slot. -/
theorem Host.updateEvent_last (h : Host κ σ) {i : Fin maxNumberOfEvents} {now : UInt32} {s s' : σ}
    (hdue : (h.events s)[i].period ≤ now - (h.events s)[i].lastEventTime)
    (hs' : s' = h.modify i (fun e => { e with lastEventTime := now, count := e.count + 1 })
      (h.fire i s))
    (hcount : (h.events s')[i].repeatCount > -1 ∧
      (h.events s')[i].count ≥ (h.events s')[i].repeatCount) :
    h.updateEvent i now s = h.modify i (fun e => { e with eventType := .none }) s' := by
  simp only [Host.updateEvent, if_pos hdue, ← hs', if_pos hcount]

/-- A visit to an inactive slot does nothing. -/
theorem Host.visit_of_inactive (h : Host κ σ) (now : UInt32) {s : σ} {i : Fin maxNumberOfEvents}
    (hi : ¬ Active (h.events s) i) : h.visit now s i = s := by
  rw [Host.visit]
  exact if_neg hi

/-- Slots that are inactive are skipped by the loop. -/
theorem Host.foldl_visit_of_inactive (h : Host κ σ) (now : UInt32) {s : σ}
    (is : List (Fin maxNumberOfEvents)) (hs : ∀ i ∈ is, ¬ Active (h.events s) i) :
    is.foldl (h.visit now) s = s := by
  induction is with
  | nil => rfl
  | cons i is ih =>
    rw [List.foldl_cons, h.visit_of_inactive now (hs i (List.mem_cons_self ..))]
    exact ih fun j hj => hs j (List.mem_cons_of_mem _ hj)

/-- With no active slot the whole update does nothing. -/
theorem Host.update_of_idle (h : Host κ σ) (now : UInt32) {s : σ}
    (hs : ∀ i, ¬ Active (h.events s) i) : h.update now s = s :=
  h.foldl_visit_of_inactive now _ fun i _ => hs i

/-- With one active slot, whose own update activates no other slot, the whole
update is the update of that slot. -/
theorem Host.update_of_single (h : Host κ σ) (now : UInt32) {s : σ} {i : Fin maxNumberOfEvents}
    (hi : Active (h.events s) i) (hs : ∀ j, j ≠ i → ¬ Active (h.events s) j)
    (hafter : ∀ j, j ≠ i → ¬ Active (h.events (h.updateEvent i now s)) j) :
    h.update now s = h.updateEvent i now s := by
  obtain ⟨before, rest, hsplit⟩ := List.append_of_mem (List.mem_finRange i)
  have hnodup := List.nodup_finRange maxNumberOfEvents
  rw [hsplit, List.nodup_append] at hnodup
  have hbefore : ∀ j ∈ before, j ≠ i := fun j hj =>
    hnodup.2.2 j hj i (List.mem_cons_self ..)
  have hrest : ∀ j ∈ rest, j ≠ i := fun j hj he =>
    (List.nodup_cons.mp hnodup.2.1).1 (he ▸ hj)
  have hvisit : h.visit now s i = h.updateEvent i now s := by
    rw [Host.visit]
    exact if_pos hi
  rw [Host.update, hsplit, List.foldl_append, List.foldl_cons,
    h.foldl_visit_of_inactive now before fun j hj => hs j (hbefore j hj), hvisit]
  exact h.foldl_visit_of_inactive now rest fun j hj => hafter j (hrest j hj)

/-! ## One-shot events -/

/-- Slot `i` holds a one-shot event that has not fired, and no other slot is active. -/
structure OneShot (t : Events κ) (i : Fin maxNumberOfEvents) (f : κ) : Prop where
  type : t[i].eventType = .every
  callback : t[i].callback = some f
  repeatCount : t[i].repeatCount = 1
  count : t[i].count = 0
  free : ∀ j, j ≠ i → ¬ Active t j

/-- The table after the one-shot event has fired. -/
def spent (i : Fin maxNumberOfEvents) (now : UInt32) (t : Events κ) : Events κ :=
  modify i (fun e => { e with eventType := .none })
    (modify i (fun e => { e with lastEventTime := now, count := e.count + 1 }) t)

/-- The table is a part of the host state of its own. -/
structure Host.Lawful (h : Host κ σ) : Prop where
  events_setEvents : ∀ t s, h.events (h.setEvents t s) = t
  setEvents_setEvents : ∀ t t' s, h.setEvents t' (h.setEvents t s) = h.setEvents t' s

theorem OneShot.active {t : Events κ} {i : Fin maxNumberOfEvents} {f : κ} (h : OneShot t i f) :
    Active t i := by
  rw [Active, h.type]
  exact fun he => by cases he

/-- Once it has fired, no slot is active. -/
theorem OneShot.spent_free {t : Events κ} {i : Fin maxNumberOfEvents} {f : κ} (h : OneShot t i f)
    (now : UInt32) (j : Fin maxNumberOfEvents) : ¬ Active (spent i now t) j := by
  by_cases hj : j = i
  · subst hj
    simp [Active, spent]
  · simpa [Active, spent, modify_other hj] using h.free j hj

/-- A one-shot event that is not due is left alone. -/
theorem Host.update_oneShot_early (h : Host κ σ) {s : σ} {i : Fin maxNumberOfEvents} {f : κ}
    (hi : OneShot (h.events s) i f) {now : UInt32}
    (hdue : ¬ (h.events s)[i].period ≤ now - (h.events s)[i].lastEventTime) :
    h.update now s = s := by
  have hcount : (h.events s)[i].count < (h.events s)[i].repeatCount := by
    rw [hi.count, hi.repeatCount]
    decide
  have hev : h.updateEvent i now s = s := h.updateEvent_early hdue hcount
  calc h.update now s = h.updateEvent i now s :=
        h.update_of_single _ hi.active hi.free (by rw [hev]; exact hi.free)
    _ = s := hev

/-- A one-shot event that is due calls its function and frees its slot. -/
theorem Host.update_oneShot_due (h : Host κ σ) (hlaw : h.Lawful) {s : σ}
    {i : Fin maxNumberOfEvents} {f : κ} (hi : OneShot (h.events s) i f) {now : UInt32}
    (hdue : (h.events s)[i].period ≤ now - (h.events s)[i].lastEventTime)
    (hcall : h.events (h.call f s) = h.events s) :
    h.update now s = h.setEvents (spent i now (h.events s)) (h.call f s) := by
  have hfire : h.fire i s = h.call f s := by
    simp only [Host.fire, hi.type, hi.callback]
  have hfired : h.modify i (fun e => { e with lastEventTime := now, count := e.count + 1 })
      (h.fire i s) = h.setEvents (Timer.modify i
        (fun e => { e with lastEventTime := now, count := e.count + 1 }) (h.events s))
        (h.call f s) := by
    rw [hfire, Host.modify, hcall]
  have hslot : ∀ r : Events κ, r = Timer.modify i
      (fun e => { e with lastEventTime := now, count := e.count + 1 }) (h.events s) →
      r[i].repeatCount > -1 ∧ r[i].count ≥ r[i].repeatCount := by
    rintro r rfl
    simp only [Fin.getElem_fin, modify_self]
    have hcount : (h.events s)[i.val].count = 0 := hi.count
    have hrepeat : (h.events s)[i.val].repeatCount = 1 := hi.repeatCount
    omega
  have hev : h.updateEvent i now s = h.setEvents (spent i now (h.events s)) (h.call f s) := by
    rw [h.updateEvent_last hdue hfired.symm (hslot _ (hlaw.events_setEvents _ _)), Host.modify,
      hlaw.events_setEvents, hlaw.setEvents_setEvents]
    rfl
  rw [h.update_of_single _ hi.active hi.free fun j _ => ?_, hev]
  rw [hev, hlaw.events_setEvents]
  exact hi.spent_free now j

/-! ## Views of the host -/

/-- A view of the host state that has the same table, and on which callbacks and pins do the
same. -/
structure Host.View {σ' : Type} (h : Host κ σ) (h' : Host κ σ') (view : σ → σ') : Prop where
  events : ∀ s, h'.events (view s) = h.events s
  setEvents : ∀ t s, view (h.setEvents t s) = h'.setEvents t (view s)
  call : ∀ f s, view (h.call f s) = h'.call f (view s)
  digitalWrite : ∀ pin level s,
    view (h.digitalWrite pin level s) = h'.digitalWrite pin level (view s)

namespace Host.View

variable {σ' : Type} {h : Host κ σ} {h' : Host κ σ'} {view : σ → σ'}

theorem modify (hv : h.View h' view) (i : Fin maxNumberOfEvents) (f : Event κ → Event κ) (s : σ) :
    view (h.modify i f s) = h'.modify i f (view s) := by
  rw [Host.modify, Host.modify, hv.setEvents, hv.events]

theorem fire (hv : h.View h' view) (i : Fin maxNumberOfEvents) (s : σ) :
    view (h.fire i s) = h'.fire i (view s) := by
  rw [Host.fire, Host.fire, hv.events]
  split
  · split
    · exact hv.call _ _
    · rfl
  · simp only [hv.digitalWrite, hv.modify, ← hv.events]
  · rfl

theorem updateEvent (hv : h.View h' view) (i : Fin maxNumberOfEvents) (now : UInt32) (s : σ) :
    view (h.updateEvent i now s) = h'.updateEvent i now (view s) := by
  have hfired : view (if (h.events s)[i].period ≤ now - (h.events s)[i].lastEventTime then
        h.modify i (fun e => { e with lastEventTime := now, count := e.count + 1 }) (h.fire i s)
      else s) =
      if (h.events s)[i].period ≤ now - (h.events s)[i].lastEventTime then
        h'.modify i (fun e => { e with lastEventTime := now, count := e.count + 1 })
          (h'.fire i (view s))
      else view s := by
    split
    · rw [hv.modify, hv.fire]
    · rfl
  have hfreed : ∀ u, view (if (h.events u)[i].repeatCount > -1 ∧
        (h.events u)[i].count ≥ (h.events u)[i].repeatCount then
        h.modify i (fun e => { e with eventType := .none }) u else u) =
      if (h'.events (view u))[i].repeatCount > -1 ∧
        (h'.events (view u))[i].count ≥ (h'.events (view u))[i].repeatCount then
        h'.modify i (fun e => { e with eventType := .none }) (view u) else view u := by
    intro u
    rw [hv.events]
    split
    · exact hv.modify i _ u
    · rfl
  rw [Host.updateEvent, Host.updateEvent, hv.events]
  refine (hfreed _).trans ?_
  rw [hfired]

/-- The update of the view is the view of the update. -/
theorem update (hv : h.View h' view) (now : UInt32) (s : σ) :
    view (h.update now s) = h'.update now (view s) := by
  have hvisit : ∀ s i, view (h.visit now s i) = h'.visit now (view s) i := fun s i => by
    rw [Host.visit, Host.visit, hv.events]
    split
    · exact hv.updateEvent i now s
    · rfl
  rw [Host.update, Host.update]
  generalize List.finRange maxNumberOfEvents = is
  induction is generalizing s with
  | nil => rfl
  | cons i is ih => rw [List.foldl_cons, List.foldl_cons, ih, hvisit]

end Host.View

end SmartDoor.Timer
