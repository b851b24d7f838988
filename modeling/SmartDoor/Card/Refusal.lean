import SmartDoor.Card.Failure

/-!
# Removals that name no member

`isUser` passes over the slots without an id, but it compares the names of the others even
when they are empty. A member that was added without a name is therefore found by a blank
argument and removed. In all other cases a removal that names no member is refused, and
leaves the members and the file as they are.
-/

namespace SmartDoor

open CString

/-- The argument is blank, or it is neither the id of a member nor the name of a member
that has one. -/
def Pupa.Unmatched (pupa : Pupa) (user : Bytes) : Prop :=
  user = [] ∨ ∀ m ∈ pupa.members, m.1 ≠ user ∧ (m.2 ≠ [] → m.2 ≠ user)

/-- From `s` to `t` no member and no byte of the file has changed, and the client was told
that nothing was deleted. -/
structure Store.Refused (s t : Store) (replies : List Reply) : Prop where
  entries : ∀ i : Fin MEMBER, (t.pupa.get i).entry = (s.pupa.get i).entry
  file : t.card.idaccess = s.card.idaccess
  replies : replies = [.deleteFail]

/-- An unmatched argument finds a slot only when it is blank and a member has no name. -/
theorem Pupa.Unmatched.lookup_eq_none {pupa : Pupa} {user : Bytes} (h : pupa.Unmatched user) :
    pupa.lookup user = none ↔ (user = [] → ∀ m ∈ pupa.members, m.2 ≠ []) := by
  rw [lookup_eq_none_members]
  constructor
  · rintro hnone rfl m hm hname
    exact hnone m hm (Or.inr hname)
  · rintro hnamed m hm (hid | hname)
    · rcases h with rfl | h
      · -- a member has an id
        obtain ⟨i, hi, hslot⟩ := mem_members.mp hm
        rw [Rfid.member_eq] at hslot
        split at hslot
        · rename_i hoccupied
          obtain rfl := Option.some.inj hslot
          exact hoccupied hid
        · cases hslot
      · exact (h m hm).1 hid
    · by_cases hblank : user = []
      · exact hnamed hblank m hm (hname.trans hblank)
      · rcases h with hempty | h
        · exact hblank hempty
        · exact (h m hm).2 (fun hm2 => hblank (hname.symm.trans hm2)) hname

/-- After any run of operations, a removal whose argument is blank or unmatched is refused
if and only if the argument is not blank or every member has a name. -/
theorem refusal {runs : List (SdOutcome × Op)} {s : Store} (hs : attempts runs = .ok s)
    (o : SdOutcome) {n : Nat} {mem : Vector UInt8 n} {p : Nat}
    (ht : Terminated (mem.toList.drop p))
    (h : s.pupa.Unmatched (strip (content (mem.toList.drop p)))) :
    ∃ t mem' replies, removeMember o mem p s = .ok (t, mem', replies) ∧
      (s.Refused t replies ↔
        (strip (content (mem.toList.drop p)) = [] → ∀ m ∈ s.pupa.members, m.2 ≠ [])) := by
  have hsound := (attempts_sound hs).pupa
  rw [removeMember_eq o ht rfl hsound, ← h.lookup_eq_none]
  cases s.pupa.lookup (strip (content (mem.toList.drop p))) with
  | none =>
    refine ⟨_, _, _, rfl, iff_of_true ⟨fun i => ?_, rfl, rfl⟩ rfl⟩
    rw [Pupa.get_eq, Rfid.entry, Pupa.id_trimTo hsound.terminated _ i.isLt,
      Pupa.name_trimTo hsound.terminated _ i.isLt]
    rfl
  | some k =>
    refine ⟨_, _, _, rfl, iff_of_false (fun hrefused => ?_) (fun hnone => ?_)⟩
    · have hreplies := hrefused.replies
      cases List.singleton_inj.mp hreplies
    · cases hnone

/-- All members have names, and a blank argument is refused. -/
theorem refusal_of_named : ∃ s t mem' replies,
    attempts [(.success, .reboot), (.success, .add (List.replicate 10 65 ++ [32, 97]))] = .ok s ∧
    removeMember .success (cString [32, 13]) 0 s = .ok (t, mem', replies) ∧
    s.Refused t replies := by
  have hrun : (attempts [(.success, .reboot),
      (.success, .add (List.replicate 10 65 ++ [32, 97]))] >>= fun s =>
      .ok (s.pupa.members)) = .ok [(List.replicate 10 65, [97])] := by
    decide +kernel
  obtain ⟨s, hs, h⟩ := bind_eq_ok.mp hrun
  have hmembers : s.pupa.members = [(List.replicate 10 65, [97])] := Except.ok.inj h
  have hterm : Terminated ((cString [32, 13]).toList.drop 0) := by decide
  obtain ⟨t, mem', replies, hremove, hiff⟩ := refusal hs .success hterm (Or.inl (by decide))
  refine ⟨s, t, mem', replies, hs, hremove, hiff.mpr fun _ m hm => ?_⟩
  rw [hmembers, List.mem_singleton] at hm
  rw [hm]
  decide

/-- A member is added without a name, and a removal without an argument deletes it. -/
theorem refusal_of_nameless :
    (attempts [(.success, .reboot), (.success, .add (List.replicate 10 65))] >>= fun s =>
      .ok (s.pupa.members, s.card.idaccess)) =
      .ok ([(List.replicate 10 65, [])], some (List.replicate 10 65 ++ [13, 10])) ∧
    (attempts [(.success, .reboot), (.success, .add (List.replicate 10 65))] >>= fun s =>
      removeMember .success (cString []) 0 s >>= fun r => .ok (r.1.card.idaccess, r.2.2)) =
      .ok (some [], [.deleting []]) := by
  decide +kernel

end SmartDoor
