import SmartDoor.Card.Readable

/-!
# Revocation

A removed id stays accepted when another slot holds it, when the removed slot is
the last one, or when the rewritten file cannot be read. Otherwise neither the
table nor the file names it any more, and this is kept by every later step that
adds only lines with a blank, whose ids and names are others, and that keeps the
file readable.
-/

namespace SmartDoor

open CString

/-- `isUser(id)` is -1 on the table, and on the table after a reboot. -/
def Store.Revoked (id : Bytes) (s : Store) : Prop :=
  s.pupa.answer id = .ok (-1) ∧ ∃ t, s.reboot = .ok t ∧ t.pupa.answer id = .ok (-1)

/-- The removal of slot `k` takes effect: it is not the last slot, no other member
has the id of slot `k` as id or as name, and the lines of the slots that are left
fit the table. The lookup has trimmed the slots up to `k`. -/
structure Pupa.Removable (pupa : Pupa) (k : Fin MEMBER) : Prop where
  notLast : k.val ≠ 29
  once : ∀ j : Fin MEMBER, j ≠ k → ¬ (pupa.get j).Matches (pupa.get k).id
  fits : SlotsFit ((pupa.trimTo (k.val + 1)).left k.val)

instance (pupa : Pupa) (k : Fin MEMBER) : Decidable (pupa.Removable k) :=
  decidable_of_iff (k.val ≠ 29 ∧
      (∀ j : Fin MEMBER, j ≠ k → ¬ (pupa.get j).Matches (pupa.get k).id) ∧
      SlotsFit ((pupa.trimTo (k.val + 1)).left k.val))
    ⟨fun h => ⟨h.1, h.2.1, h.2.2⟩, fun h => ⟨h.notLast, h.once, h.fits⟩⟩

/-- A later step keeps an id revoked: lines that are added leave a readable file,
and the members on them have other ids and names; after a removal the lines of
the slots that are left fit the table. -/
def Op.Keeps (id : Bytes) (s : Store) : Op → Prop
  | .reboot => True
  | .lookup _ => True
  | .add arg => 10 ≤ (content arg).length →
      (parse (s.card.text ++ (content arg ++ [13, 10]))).Readable ∧
        ∀ m ∈ (parse (content arg ++ [13, 10])).members, ¬ Named id m
  | .remove arg => ∀ k, s.pupa.lookup (wanted arg) = some k →
      SlotsFit ((s.pupa.trimTo (k.val + 1)).left k.val)

instance (id : Bytes) (s : Store) (op : Op) : Decidable (op.Keeps id s) :=
  match op with
  | .reboot => isTrue trivial
  | .lookup _ => isTrue trivial
  | .add _ => inferInstanceAs (Decidable (_ → _))
  | .remove arg => inferInstanceAs (Decidable (∀ k, s.pupa.lookup (wanted arg) = some k →
      SlotsFit ((s.pupa.trimTo (k.val + 1)).left k.val)))

/-- Neither the table nor the readable file names the id. -/
structure Store.Rid (id : Bytes) (s : Store) : Prop where
  nonempty : id ≠ []
  pupa : s.pupa.Sound
  readable : (parse s.card.text).Readable
  table : ∀ m ∈ s.pupa.members, ¬ Named id m
  file : ∀ m ∈ (parse s.card.text).members, ¬ Named id m

theorem Store.Rid.revoked {id : Bytes} (hid : wanted id = id) {s : Store} (h : s.Rid id) :
    s.Revoked id := by
  obtain ⟨t, ht, hsound, hmembers, -⟩ := Store.reboot_readable h.readable
  refine ⟨?_, t, ht, ?_⟩
  · rw [Pupa.answer_eq_neg h.pupa.terminated, hid]
    exact h.table
  · rw [Pupa.answer_eq_neg hsound.terminated, hid, hmembers]
    exact h.file

/-! ## The removal itself -/

/-- After a removal the id is revoked exactly when the slot was removable, and then
neither the table nor the file names it. -/
theorem Store.Sound.revoked_without {s : Store} (hs : s.Sound) {k : Fin MEMBER} {user : Bytes}
    (hl : s.pupa.lookup user = some k) :
    let t : Store := ⟨s.pupa.without k, s.card.without .success s.pupa k⟩
    (t.Revoked (s.pupa.get k).id → s.pupa.Removable k) ∧
      (s.pupa.Removable k → t.Rid (s.pupa.get k).id) := by
  intro t
  have hk : k.val < MEMBER := k.isLt
  have hwords : ∀ c ∈ (s.pupa.get k).id, isWord c := (hs.pupa k.val hk).words_id
  have hslot : s.pupa[k.val].member = some (s.pupa.get k).entry := (Pupa.member_lookup hl).1
  have hsound : t.pupa.Sound := hs.pupa.without k.val
  have hclosed : (parse t.card.text).Closed := by
    rw [Card.text_without hs.pupa hk]
    exact Text.closed_mk _
  constructor
  · rintro ⟨hram, u, hu, -⟩
    rw [Pupa.answer_eq_neg hsound.terminated, wanted_words hwords] at hram
    have hfits := Store.fits_of_reboot hclosed hu
    rw [Card.text_without hs.pupa hk, slotsFit_iff] at hfits
    refine ⟨fun hlast => ?_, fun j hj hm => ?_, hfits⟩
    · exact hram _ ((Pupa.mem_members_without hs.pupa hk).mpr ⟨k.val, hk, Or.inr hlast, hslot⟩)
        (Or.inl rfl)
    · obtain ⟨m, hm, hnamed⟩ := Rfid.matches_iff.mp hm
      have hne : j.val ≠ k.val := fun h => hj (Fin.ext h)
      exact hram m ((Pupa.mem_members_without hs.pupa hk).mpr ⟨j.val, j.isLt, Or.inl hne, hm⟩)
        hnamed
  · intro hrem
    have htable : ∀ m ∈ t.pupa.members, ¬ Named (s.pupa.get k).id m := by
      intro m hm hnamed
      obtain ⟨j, hj, hjk, hjm⟩ := (Pupa.mem_members_without hs.pupa hk).mp hm
      have hne : (⟨j, hj⟩ : Fin MEMBER) ≠ k := by
        rintro rfl
        exact hjk.elim (fun h => h rfl) hrem.notLast
      exact hrem.once ⟨j, hj⟩ hne (Rfid.matches_iff.mpr ⟨m, hjm, hnamed⟩)
    refine ⟨(Pupa.lookup_eq_some.mp hl).1.2, hsound,
      (Card.readable_without hs.pupa hk _).mpr hrem.fits, htable, ?_⟩
    rw [Card.members_without hs.pupa hk]
    exact htable

/-! ## The steps after it -/

/-- A removal keeps the id out when the lines of the slots that are left fit. -/
theorem Store.Rid.remove {id : Bytes} {s : Store} (h : s.Rid id) {arg : Bytes}
    (hk : (Op.remove arg).Keeps id s) : ∃ t, Op.step s (.remove arg) = .ok t ∧ t.Rid id := by
  rw [Op.step_remove h.pupa]
  cases hl : s.pupa.lookup (wanted arg) with
  | none =>
    have hsame := Pupa.members_trimTo h.pupa.terminated MEMBER
    refine ⟨{ s with pupa := s.pupa.trimTo MEMBER }, rfl, h.nonempty, h.pupa.trimTo _,
      h.readable, ?_, h.file⟩
    simp only [hsame]
    exact h.table
  | some k =>
    have hlt : k.val < MEMBER := k.isLt
    have htable : ∀ m ∈ (s.pupa.without k.val).members, ¬ Named id m := by
      intro m hm
      obtain ⟨j, hj, -, hjm⟩ := (Pupa.mem_members_without h.pupa hlt).mp hm
      exact h.table m (Pupa.mem_members.mpr ⟨j, hj, hjm⟩)
    refine ⟨⟨s.pupa.without k, s.card.without .success s.pupa k⟩, rfl, h.nonempty,
      h.pupa.without _, (Card.readable_without h.pupa hlt _).mpr (hk k hl), htable, ?_⟩
    rw [Card.members_without h.pupa hlt]
    exact htable

/-- An addition keeps the id out when its line does not supply it and the file stays
readable: the text is laid over the table, so that a slot keeps at most its old id. -/
theorem Store.Rid.add {id : Bytes} {s : Store} (h : s.Rid id) {arg : Bytes}
    (hk : (Op.add arg).Keeps id s) : ∃ t, Op.step s (.add arg) = .ok t ∧ t.Rid id := by
  rw [Op.step_add h.pupa]
  by_cases hlen : 10 ≤ (content arg).length
  · obtain ⟨hread, hnew⟩ := hk hlen
    have hfile : ∀ m ∈ (parse (s.card.text ++ (content arg ++ [13, 10]))).members,
        ¬ Named id m := by
      intro m hm
      rw [members_parse_append h.readable.closed] at hm
      rcases List.mem_append.mp hm with hm | hm
      · exact h.file m hm
      · exact hnew m hm
    obtain ⟨hok, hsound⟩ := hread.readFile h.pupa
    rw [if_pos hlen, hok]
    refine ⟨⟨_, (s.card.added .success arg).processed⟩, rfl, h.nonempty, hsound, hread, ?_, hfile⟩
    intro m hm hnamed
    rcases hread.members_layout h.pupa hm with hm | ⟨m', hm', rfl | rfl⟩
    · exact hfile m hm hnamed
    · exact h.table _ hm' hnamed
    · exact hnamed.elim (fun he => h.table m' hm' (Or.inl he)) fun he => h.nonempty he.symm
  · rw [if_neg hlen]
    exact ⟨s, rfl, h⟩

/-- One guarded step keeps the id out of the table and out of the file. -/
theorem Store.Rid.step {id : Bytes} {s : Store} (h : s.Rid id) {op : Op} (hk : op.Keeps id s) :
    ∃ t, op.step s = .ok t ∧ t.Rid id := by
  cases op with
  | reboot =>
    obtain ⟨t, ht, hsound, hmembers, htext⟩ := Store.reboot_readable h.readable
    refine ⟨t, (Op.step_reboot s).trans ht, h.nonempty, hsound, ?_, ?_, ?_⟩
    · rw [htext]
      exact h.readable
    · rw [hmembers]
      exact h.file
    · rw [htext]
      exact h.file
  | lookup arg =>
    have hsame := Pupa.members_searched h.pupa.terminated (wanted arg)
    refine ⟨_, Op.step_lookup h.pupa arg, h.nonempty, h.pupa.searched _, h.readable, ?_, h.file⟩
    simp only [hsame]
    exact h.table
  | remove arg => exact h.remove hk
  | add arg => exact h.add hk

/-- Revocation. After any history, a removal answers that it has deleted the member
in the slot that `isUser` finds. The id of that slot is revoked exactly when the
slot was removable, and it stays revoked as long as each later step keeps it so;
adding the id again is one of the steps that do not. -/
theorem revocation {ops : List Op} {arg text : Bytes} {s t : Store} {k : Fin MEMBER}
    (hs : history ops = .ok s) (hk : s.pupa.answer arg = .ok (k.val : Int))
    (ht : Op.exec .success s (.remove arg) = .ok (t, [.deleting text])) :
    (t.Revoked (s.pupa.get k).id ↔ s.pupa.Removable k) ∧
    (s.pupa.Removable k → ∀ later, Run.Guarded Op.step (Op.Keeps (s.pupa.get k).id) t later →
      ∃ u, later.foldlM Op.step t = .ok u ∧ u.Revoked (s.pupa.get k).id) := by
  have hsound := history_sound hs
  have hl := Pupa.lookup_of_answer hsound.pupa.terminated hk
  have hwanted : wanted (s.pupa.get k).id = (s.pupa.get k).id :=
    wanted_words (hsound.pupa k.val k.isLt).words_id
  rw [Op.exec_remove _ hsound.pupa, hl] at ht
  obtain ⟨rfl, -⟩ := Prod.mk.inj (Except.ok.inj ht)
  obtain ⟨hneeds, hrid⟩ := hsound.revoked_without hl
  refine ⟨⟨hneeds, fun hrem => (hrid hrem).revoked hwanted⟩, fun hrem later hlater => ?_⟩
  obtain ⟨u, hu, h⟩ := hlater.invariant (fun hr hkeep => hr.step hkeep) (hrid hrem)
  exact ⟨u, hu, h.revoked hwanted⟩

/-- Of two members the first is removed by its name. It stays revoked while it is
looked up, the lock reboots, a third member is added and the second removed. -/
theorem revocation_of_first : ∃ s t u,
    history [.reboot, .add [65, 65, 65, 65, 65, 65, 65, 65, 65, 65, 32, 97],
      .add [66, 66, 66, 66, 66, 66, 66, 66, 66, 66, 32, 98]] = .ok s ∧
    Op.exec .success s (.remove [97]) = .ok (t, [.deleting [97]]) ∧
    [.lookup [65, 65, 65, 65, 65, 65, 65, 65, 65, 65], .reboot,
      .add [67, 67, 67, 67, 67, 67, 67, 67, 67, 67, 32, 99], .remove [98]].foldlM Op.step t =
        .ok u ∧
    u.Revoked (s.pupa.get 0).id := by
  let later : List Op := [.lookup [65, 65, 65, 65, 65, 65, 65, 65, 65, 65], .reboot,
    .add [67, 67, 67, 67, 67, 67, 67, 67, 67, 67, 32, 99], .remove [98]]
  have hrun : (history [.reboot, .add [65, 65, 65, 65, 65, 65, 65, 65, 65, 65, 32, 97],
      .add [66, 66, 66, 66, 66, 66, 66, 66, 66, 66, 32, 98]] >>= fun s =>
      Op.exec .success s (.remove [97]) >>= fun r =>
        .ok (decide (s.pupa.answer [97] = .ok (0 : Int)), r.2, decide (s.pupa.Removable 0),
          decide (Run.Guarded Op.step (Op.Keeps (s.pupa.get 0).id) r.1 later))) =
      .ok (true, [.deleting [97]], true, true) := by
    decide +kernel
  obtain ⟨s, hs, h⟩ := bind_eq_ok.mp hrun
  obtain ⟨⟨t, replies⟩, ht, h⟩ := bind_eq_ok.mp h
  simp only [Except.ok.injEq, Prod.mk.injEq, decide_eq_true_eq] at h
  obtain ⟨hk, rfl, hrem, hlater⟩ := h
  obtain ⟨u, hu, hrev⟩ := (revocation (k := 0) hs hk ht).2 hrem later hlater
  exact ⟨s, t, u, hs, ht, hu, hrev⟩

/-- After the first of three members is removed and a fourth is added, the table
holds the third twice: its removal is answered, and its id is still found. -/
theorem revocation_of_doubled :
    (history [.reboot, .add [65, 65, 65, 65, 65, 65, 65, 65, 65, 65, 32, 97],
      .add [66, 66, 66, 66, 66, 66, 66, 66, 66, 66, 32, 98],
      .add [67, 67, 67, 67, 67, 67, 67, 67, 67, 67, 32, 99], .remove [97],
      .add [68, 68, 68, 68, 68, 68, 68, 68, 68, 68, 32, 100]] >>= fun s =>
      Op.exec .success s (.remove [99]) >>= fun r =>
        .ok (s.pupa.answer [99], (s.pupa.get 2).id, r.2, r.1.pupa.answer (s.pupa.get 2).id)) =
      .ok (.ok 2, [67, 67, 67, 67, 67, 67, 67, 67, 67, 67], [.deleting [99]], .ok 1) := by
  decide +kernel

end SmartDoor
