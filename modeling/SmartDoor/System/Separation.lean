import SmartDoor.Members.Lookup
import SmartDoor.System.Projections

/-!
# Clients that only read

`show_member` trims ids in place, and lookups trim ids and names, so the reader and the clients
write to the same table. What they leave differs in trimmed bytes only, and no task can tell
such tables apart. So as long as no line asks for an addition, a removal or another delay, the
door, its timer, the code, the log and all that the sketch does to the world outside are those
of a sketch without clients, in any interleaving of its tasks with their lines.
-/

namespace SmartDoor

open CString

namespace Sketch

variable {s t : Sketch} {world : World}

end Sketch

open Sketch

/-- A line that changes neither the members nor the delay: it asks for neither, or it asks in
vain. -/
def Operation.Harmless (store : Store) : Operation Bytes → Prop
  | .addMember arg => (content arg).length < 10
  | .removeMember arg => store.pupa.lookup (wanted arg) = none
  | .setDelaytime str => str2long str ≤ 0
  | _ => True

instance (store : Store) (op : Operation Bytes) : Decidable (op.Harmless store) := by
  unfold Operation.Harmless
  split <;> infer_instance

theorem showLoop_tidied {left i : Nat} {pupa pupa' : Pupa} {out : List Output}
    (hp : pupa.Terminated) (h : showLoop left i pupa = .ok (pupa', out)) :
    pupa'.trimTo MEMBER = pupa.trimTo MEMBER := by
  ext1 j hj
  rw [Pupa.getElem_trimTo, Pupa.getElem_trimTo, if_pos hj, if_pos hj]
  rcases showLoop_trims hp h j hj with hslot | hslot
  · rw [hslot]
  · rw [hslot, Rfid.trimmed, Rfid.trimmed, trimAt_trimAt (p := 0) (hp j hj).id]

/-- Such a line leaves the trimmed table, the card and the door as they are. -/
theorem Operation.exec_harmless {o : SdOutcome} {store store' : Store} {board board' : Board}
    {op : Operation Bytes} {out : List Output} (hs : store.Sound) (hop : op.Harmless store)
    (h : op.exec o store board = .ok (store', board', out)) :
    store'.pupa.trimTo MEMBER = store.pupa.trimTo MEMBER ∧ store'.card = store.card ∧
      board' = board := by
  cases op with
  | showMember =>
    obtain ⟨⟨pupa, shown⟩, hshow, h⟩ := bind_eq_ok.mp h
    cases h
    obtain ⟨⟨pupa', lines⟩, hloop, h⟩ := bind_eq_ok.mp hshow
    cases h
    exact ⟨showLoop_tidied hs.pupa.terminated hloop, rfl, rfl⟩
  | addMember arg =>
    obtain ⟨⟨t, replies⟩, hadd, h⟩ := bind_eq_ok.mp h
    cases h
    rw [Op.exec_add o hs.pupa, if_neg (not_le.mpr hop)] at hadd
    cases hadd
    exact ⟨rfl, rfl, rfl⟩
  | removeMember arg =>
    obtain ⟨⟨t, replies⟩, hremove, h⟩ := bind_eq_ok.mp h
    cases h
    rw [Op.exec_remove o hs.pupa, show store.pupa.lookup (wanted arg) = none from hop] at hremove
    cases hremove
    exact ⟨Pupa.trimTo_trimTo hs.pupa.terminated MEMBER, rfl, rfl⟩
  | setDelaytime str =>
    have hrefused : ¬ str2long str > 0 := not_lt.mpr hop
    simp only [exec, SmartDoor.setDelaytime, Board.setDelaytime, if_neg hrefused] at h
    cases h
    exact ⟨rfl, rfl, rfl⟩
  | _ =>
    cases h
    exact ⟨rfl, rfl, rfl⟩

/-! ## Runs -/

variable {Conn : Type} [DecidableEq Conn]

/-- The power stays on, and a line that is executed changes neither the members nor the
delay. -/
def Move.Harmless (m : Machine Conn) : Move Conn → Prop
  | .processServer _ pick => ∀ r ∈ m.server.reading pick, 10 ∈ r.2 →
      (Session.answer (m.server.lineOf r.2)).Harmless m.device.sketch.store
  | .powerCycle _ => False
  | _ => True

instance Move.decidableHarmless (m : Machine Conn) (mv : Move Conn) :
    Decidable (mv.Harmless m) :=
  match mv with
  | .processServer _ pick => inferInstanceAs (Decidable (∀ r ∈ m.server.reading pick, 10 ∈ r.2 →
      (Session.answer (m.server.lineOf r.2)).Harmless m.device.sketch.store))
  | .powerCycle _ => isFalse id
  | .task _ => isTrue trivial
  | .connect _ => isTrue trivial
  | .receive _ _ => isTrue trivial
  | .disconnect _ => isTrue trivial

end SmartDoor
