import SmartDoor.Access.Decisions
import SmartDoor.Access.Frames

/-!
# Who is let in

`check_IDAccess` uses the lookup that also serves the removal of members by name.
So a card opens the door when its code is the id of a member or the name of one,
and the access decision is by card id exactly as long as no member is named like
the code of a card that is not enrolled.
-/

namespace SmartDoor

open CString

/-- An occupied slot has this id. -/
def Pupa.HasId (pupa : Pupa) (id : Bytes) : Prop :=
  ∃ i : Fin MEMBER, (pupa.get i).Occupied ∧ (pupa.get i).id = id

/-- An occupied slot has this name. -/
def Pupa.HasName (pupa : Pupa) (name : Bytes) : Prop :=
  ∃ i : Fin MEMBER, (pupa.get i).Occupied ∧ (pupa.get i).name = name

instance (pupa : Pupa) (id : Bytes) : Decidable (pupa.HasId id) :=
  inferInstanceAs (Decidable (∃ i : Fin MEMBER, (pupa.get i).Occupied ∧ (pupa.get i).id = id))

instance (pupa : Pupa) (name : Bytes) : Decidable (pupa.HasName name) :=
  inferInstanceAs (Decidable (∃ i : Fin MEMBER, (pupa.get i).Occupied ∧ (pupa.get i).name = name))

/-- A lookup finds a slot when an occupied slot has the id or the name. -/
theorem Pupa.isSome_lookup {pupa : Pupa} {user : Bytes} :
    (pupa.lookup user).isSome ↔ pupa.HasId user ∨ pupa.HasName user := by
  rw [← not_iff_not, Bool.not_eq_true, Option.isSome_eq_false_iff, Option.isNone_iff_eq_none,
    lookup_eq_none]
  constructor
  · rintro h (⟨i, ho, hi⟩ | ⟨i, ho, hi⟩)
    · exact h i.val i.isLt ⟨Or.inl hi, ho⟩
    · exact h i.val i.isLt ⟨Or.inr hi, ho⟩
  · rintro h i hi ⟨hm, ho⟩
    exact h (hm.imp (fun hid => ⟨⟨i, hi⟩, ho, hid⟩) fun hname => ⟨⟨i, hi⟩, ho, hname⟩)

/-- A frame of twelve hex characters with the right checksum is decided by a lookup
of its first ten characters. -/
theorem Sketch.serialEvent1_valid (world : World) (junk : Junk) {s : Sketch}
    (hp : s.store.pupa.Terminated) {frame : Vector UInt8 12} {rest : Bytes}
    (hbuf : s.serial1.buffer = 0x02 :: (frame.toList ++ 0x03 :: rest))
    (hhex : ∀ c ∈ frame.toList, isHex c) (hvalid : validTag junk frame) :
    ∃ t fx, s.serialEvent1 world junk = .ok t ∧ t.trace = s.trace ++ fx ∧
      (Effect.digitalWrite DOOR true ∈ fx ↔
        (s.store.pupa.lookup (frame.toList.take 10)).isSome) := by
  have hstrip := strip_endCode frame fun c hc => isWord_of_isHex (hhex c (List.mem_of_mem_take hc))
  have hstrings : Strings { s with
      code := endCode frame, ci := 12,
      serial1 := ⟨rest, s.serial1.seen ++ [0x02] ++ frame.toList ++ [0x03]⟩ } :=
    ⟨terminated_endCode frame, hp⟩
  obtain ⟨t, fx, ht, htrace, hiff, -⟩ := hstrings.checkIDAccess world
  rw [serialEvent1_frame world junk hbuf hhex, processCode, if_pos hvalid]
  refine ⟨t, fx, ht, htrace, hiff.trans ?_⟩
  rw [← hstrip]
  rfl

/-- After any history, for a frame of twelve hex characters with the right checksum:
that DOOR is driven HIGH if and only if the code is the id of a member holds exactly
when no member is named like the code, unless some member has the code as its id. -/
theorem card_authorisation {ops : List Op} {store : Store} (hstore : history ops = .ok store)
    (world : World) (junk : Junk) {s : Sketch} (hs : s.store = store) {frame : Vector UInt8 12}
    {rest : Bytes} (hbuf : s.serial1.buffer = 0x02 :: (frame.toList ++ 0x03 :: rest))
    (hhex : ∀ c ∈ frame.toList, isHex c) (hvalid : validTag junk frame) :
    ∃ t fx, s.serialEvent1 world junk = .ok t ∧ t.trace = s.trace ++ fx ∧
      ((Effect.digitalWrite DOOR true ∈ fx ↔ store.pupa.HasId (frame.toList.take 10)) ↔
        (store.pupa.HasName (frame.toList.take 10) → store.pupa.HasId (frame.toList.take 10))) := by
  subst hs
  obtain ⟨t, fx, ht, htrace, hiff⟩ := s.serialEvent1_valid world junk
    (history_sound hstore).pupa.terminated hbuf hhex hvalid
  refine ⟨t, fx, ht, htrace, (iff_congr (hiff.trans Pupa.isSome_lookup) Iff.rfl).trans ?_⟩
  exact ⟨fun h hname => h.mp (Or.inr hname), fun h => ⟨fun hor => hor.elim id h, Or.inl⟩⟩

/-- The card 0C0029DA90 of a member opens the door. -/
theorem card_authorisation_of_member : ∃ store t fx,
    history [.reboot, .add (ascii "0C0029DA90 Aj"), .add (ascii "6C0095E9D5 Nan")] = .ok store ∧
    Sketch.serialEvent1 ⟨fun _ => ⟨0, 0, 1, 1, 45⟩, fun _ => true⟩ (Vector.replicate 12 0)
      { Sketch.powerUp store with serial1 := ⟨0x02 :: (ascii "0C0029DA906F" ++ [0x03]), []⟩ } =
        .ok t ∧ t.trace = fx ∧
    (Effect.digitalWrite DOOR true ∈ fx ↔ store.pupa.HasId (ascii "0C0029DA90")) := by
  let frame : Vector UInt8 12 := ⟨(ascii "0C0029DA906F").toArray, by decide⟩
  have hrun : (history [.reboot, .add (ascii "0C0029DA90 Aj"), .add (ascii "6C0095E9D5 Nan")] >>=
      fun store => .ok (decide (store.pupa.HasName (ascii "0C0029DA90") →
        store.pupa.HasId (ascii "0C0029DA90")))) = .ok true := by
    decide +kernel
  obtain ⟨store, hstore, h⟩ := bind_eq_ok.mp hrun
  have hnames := of_decide_eq_true (Except.ok.inj h)
  let s : Sketch :=
    { Sketch.powerUp store with serial1 := ⟨0x02 :: (ascii "0C0029DA906F" ++ [0x03]), []⟩ }
  have hbuf : s.serial1.buffer = 0x02 :: (frame.toList ++ 0x03 :: []) := rfl
  obtain ⟨t, fx, ht, htrace, hiff⟩ := card_authorisation hstore
    ⟨fun _ => ⟨0, 0, 1, 1, 45⟩, fun _ => true⟩ (Vector.replicate 12 0) rfl hbuf
    (List.all_eq_true.mp (by decide)) (by decide +kernel)
  exact ⟨store, t, fx, hstore, ht, htrace, hiff.mpr hnames⟩

/-- The card 0C0029DA90 is not enrolled, but a member with another card is named like
its code, and the door is opened. -/
theorem card_authorisation_by_name :
    (history [.reboot, .add (ascii "6C0095E9D5 0C0029DA90")] >>= fun store =>
      Sketch.serialEvent1 ⟨fun _ => ⟨0, 0, 1, 1, 45⟩, fun _ => true⟩ (Vector.replicate 12 0)
        { Sketch.powerUp store with
          serial1 := ⟨0x02 :: (ascii "0C0029DA906F" ++ [0x03]), []⟩ } >>= fun t =>
      .ok (decide (Effect.digitalWrite DOOR true ∈ t.trace),
        decide (store.pupa.HasId (ascii "0C0029DA90")))) = .ok (true, false) := by
  decide +kernel

end SmartDoor
