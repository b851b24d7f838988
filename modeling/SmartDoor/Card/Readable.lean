import SmartDoor.Card.Commands

/-!
# Readable texts

A readable text is closed, fits the table, and has no line that is a word alone.
Over any sound table it is read without a fault and every line enters its slot,
so that after a reboot the table holds the members of the file. The text that a
removal writes is readable exactly when the lines of the slots that are left fit
the table, the empty lines counted.
-/

namespace SmartDoor

open CString

/-- A closed text of plain lines that fits the table. -/
structure Text.Readable (t : Text) : Prop where
  closed : t.Closed
  fits : t.Fits
  plain : ∀ l ∈ t.lines, l.Plain

instance (t : Text) : Decidable t.Readable :=
  decidable_of_iff (t.Closed ∧ t.Fits ∧ ∀ l ∈ t.lines, l.Plain)
    ⟨fun h => ⟨h.1, h.2.1, h.2.2⟩, fun h => ⟨h.closed, h.fits, h.plain⟩⟩

theorem readable_empty : Text.empty.Readable := by decide

/-! ## Reading -/

theorem Text.Readable.readFile {f : Bytes} (h : (parse f).Readable) {pupa : Pupa}
    (hp : pupa.Sound) :
    SmartDoor.readFile pupa f = .ok (pupa.layout (parse f)) ∧ (pupa.layout (parse f)).Sound :=
  hp.readFile h.closed h.fits h.plain

/-- The entries after a readable text was laid over a sound table. -/
theorem Text.Readable.entry_layout {f : Bytes} (h : (parse f).Readable) {pupa : Pupa}
    (hp : pupa.Sound) {i : Nat} (hi : i < MEMBER) {l : Line} (hl : (parse f).lines[i]? = some l) :
    (pupa.layout (parse f))[i].entry = l.enter pupa[i].entry := by
  have hmem := List.mem_of_getElem? hl
  rw [Pupa.getElem_layout_line hi hl]
  exact ((h.plain l hmem).place ((parse_words f).1 l hmem) (h.fits.lines l hmem) (hp i hi)).2

/-- What a readable text makes of the member in a slot: an empty line takes the
name away, another line brings its own member. -/
theorem Text.Readable.member_layout {f : Bytes} (h : (parse f).Readable) {pupa : Pupa}
    (hp : pupa.Sound) {i : Nat} (hi : i < MEMBER) :
    (pupa.layout (parse f))[i].member = match (parse f).lines[i]? with
      | some l => if l = .empty then pupa[i].member.map fun m => (m.1, []) else l.member
      | none => pupa[i].member := by
  cases hl : (parse f).lines[i]? with
  | none => rw [Pupa.getElem_layout_rest h.closed hi (List.getElem?_eq_none_iff.mp hl)]
  | some l =>
    rw [Rfid.member_eq, h.entry_layout hp hi hl]
    by_cases he : l = Line.empty
    · simp only [he, Line.enter_empty, if_true, Rfid.member_eq]
      split <;> rfl
    · have hmore := (h.plain l (List.mem_of_getElem? hl)).resolve_left he
      simp only [Line.enter, if_neg he, Line.member, hmore, ne_eq, not_false_eq_true, true_and]

/-- Each member of the new table comes from the text, or it was a member of the old
table and has kept its id, with its name or without one. -/
theorem Text.Readable.members_layout {f : Bytes} (h : (parse f).Readable) {pupa : Pupa}
    (hp : pupa.Sound) {m : Member} (hm : m ∈ (pupa.layout (parse f)).members) :
    m ∈ (parse f).members ∨ ∃ m' ∈ pupa.members, m = m' ∨ m = (m'.1, []) := by
  obtain ⟨i, hi, hm⟩ := Pupa.mem_members.mp hm
  rw [h.member_layout hp hi] at hm
  cases hl : (parse f).lines[i]? with
  | none =>
    simp only [hl] at hm
    exact Or.inr ⟨m, Pupa.mem_members.mpr ⟨i, hi, hm⟩, Or.inl rfl⟩
  | some l =>
    simp only [hl] at hm
    split at hm
    · obtain ⟨m', hm', rfl⟩ := Option.map_eq_some_iff.mp hm
      exact Or.inr ⟨m', Pupa.mem_members.mpr ⟨i, hi, hm'⟩, Or.inr rfl⟩
    · exact Or.inl (Text.mem_members.mpr ⟨l, List.mem_of_getElem? hl, hm⟩)

/-- A reboot with a readable file succeeds, and the table holds its members. -/
theorem Store.reboot_readable {s : Store} (h : (parse s.card.text).Readable) :
    ∃ t, s.reboot = .ok t ∧ t.pupa.Sound ∧ t.pupa.members = (parse s.card.text).members ∧
      t.card.text = s.card.text := by
  obtain ⟨hread, hsound⟩ := h.readFile Pupa.sound_zero
  have hmembers := Pupa.members_layout_zero h.closed h.fits (parse_words _).1 h.plain
  refine ⟨⟨Pupa.zero.layout (parse s.card.text),
    ({ s.card with sdcard := false } : Card).processed⟩, ?_, hsound, hmembers, rfl⟩
  rw [Store.reboot, Store.sdcardProcess_eq Pupa.sound_zero]
  change (SmartDoor.readFile Pupa.zero s.card.text).map _ = _
  rw [hread]
  rfl

/-- A reboot that succeeds has read a text that fits. -/
theorem Store.fits_of_reboot {s t : Store} (hc : (parse s.card.text).Closed)
    (h : s.reboot = .ok t) : (parse s.card.text).Fits := by
  rw [Store.reboot, Store.sdcardProcess_eq Pupa.sound_zero] at h
  obtain ⟨pupa, hr, -⟩ := map_eq_ok.mp h
  exact (Pupa.sound_zero.of_readFile hc hr).1

/-! ## Writing -/

/-- The lines of these slots fit the table: ids of at most ten letters, names of at
most thirteen, and at most thirty lines, the empty ones counted. -/
structure SlotsFit (rs : List Rfid) : Prop where
  count : (rs.flatMap Rfid.lines).length ≤ MEMBER
  words : ∀ r ∈ rs, r.Occupied → r.id.length ≤ 10 ∧ r.name.length ≤ 13

instance (rs : List Rfid) : Decidable (SlotsFit rs) :=
  decidable_of_iff ((rs.flatMap Rfid.lines).length ≤ MEMBER ∧
      ∀ r ∈ rs, r.Occupied → r.id.length ≤ 10 ∧ r.name.length ≤ 13)
    ⟨fun h => ⟨h.1, h.2⟩, fun h => ⟨h.count, h.words⟩⟩

theorem slotsFit_iff (rs : List Rfid) :
    (⟨rs.flatMap Rfid.lines, .empty⟩ : Text).Fits ↔ SlotsFit rs := by
  rw [(Text.closed_mk _).fits]
  constructor
  · rintro ⟨hcount, hlines⟩
    refine ⟨hcount, fun r hr ho => ?_⟩
    have hmem : Line.record r.id r.name ∈ rs.flatMap Rfid.lines :=
      List.mem_flatMap.mpr ⟨r, hr, by rw [Rfid.lines, if_pos ho]; exact List.mem_cons_self ..⟩
    exact Line.fits_record.mp (hlines _ hmem)
  · rintro ⟨hcount, hwords⟩
    refine ⟨hcount, fun l hl => ?_⟩
    obtain ⟨r, hr, hl⟩ := List.mem_flatMap.mp hl
    rw [Rfid.lines] at hl
    split at hl
    · rename_i ho
      rcases List.mem_cons.mp hl with rfl | hl
      · exact Line.fits_record.mpr (hwords r hr ho)
      · rw [(List.mem_replicate.mp hl).2]
        exact Line.fits_empty
    · cases hl

/-- The slots that a removal leaves fit when the members are short and the lines few
enough. -/
theorem Pupa.slotsFit_left {pupa : Pupa} (hp : pupa.Sound)
    (hshort : ∀ m ∈ pupa.members, m.1.length ≤ 10 ∧ m.2.length ≤ 13) (k : Nat) :
    SlotsFit ((pupa.trimTo (k + 1)).left k) ↔
      (((pupa.trimTo (k + 1)).left k).flatMap Rfid.lines).length ≤ MEMBER := by
  refine ⟨fun hf => hf.count, fun hc => ⟨hc, fun r hr ho => ?_⟩⟩
  have hslot : ∃ j, ∃ hj : j < MEMBER, (pupa.trimTo (k + 1))[j] = r := by
    rcases List.mem_append.mp hr with hr | hr
    · obtain ⟨j, hj, rfl⟩ := List.getElem_of_mem (List.mem_of_mem_eraseIdx hr)
      exact ⟨j, by simpa using hj, by simp⟩
    · exact ⟨29, by decide, (List.mem_singleton.mp hr).symm⟩
  obtain ⟨j, hj, rfl⟩ := hslot
  have hmem : (pupa.trimTo (k + 1))[j].entry ∈ pupa.members := by
    rw [← members_trimTo hp.terminated (k + 1)]
    exact mem_members.mpr ⟨j, hj, if_pos ho⟩
  exact hshort _ hmem

/-- The text after a removal whose SD calls succeed. -/
theorem Card.text_without {pupa : Pupa} (hp : pupa.Sound) {k : Nat} (hk : k < MEMBER) (c : Card) :
    parse (c.without .success pupa k).text =
      ⟨((pupa.trimTo (k + 1)).left k).flatMap Rfid.lines, .empty⟩ := by
  have htext : (c.without .success pupa k).text =
      ((pupa.trimTo (k + 1)).shifted k).pieces.flatten := List.nil_append _
  rw [htext, ((hp.trimTo _).shifted _).parse_pieces,
    Pupa.lines_shifted (hp.trimTo _).terminated hk]

/-- The members after the removal of slot `k`. -/
theorem Pupa.members_without {pupa : Pupa} (hp : pupa.Sound) {k : Nat} (hk : k < MEMBER) :
    (pupa.without k).members = ((pupa.left k).map Rfid.member).reduceOption := by
  rw [without, members_written ((hp.trimTo _).shifted _).terminated,
    members_shifted (hp.trimTo _).terminated hk, map_member_left_trimTo hp.terminated]

/-- After a removal whose SD calls succeed the file holds the members of the table. -/
theorem Card.members_without {pupa : Pupa} (hp : pupa.Sound) {k : Nat} (hk : k < MEMBER)
    (c : Card) :
    (parse (c.without .success pupa k).text).members = (pupa.without k).members := by
  rw [Card.text_without hp hk, Text.members, Rfid.members_lines, Pupa.members_without hp hk,
    Pupa.map_member_left_trimTo hp.terminated]

theorem Card.readable_without {pupa : Pupa} (hp : pupa.Sound) {k : Nat} (hk : k < MEMBER)
    (c : Card) :
    (parse (c.without .success pupa k).text).Readable ↔
      SlotsFit ((pupa.trimTo (k + 1)).left k) := by
  rw [Card.text_without hp hk]
  generalize (pupa.trimTo (k + 1)).left k = rs
  constructor
  · exact fun h => (slotsFit_iff _).mp h.fits
  · refine fun h => ⟨Text.closed_mk _, (slotsFit_iff _).mpr h, fun l hl => ?_⟩
    obtain ⟨r, _, hl⟩ := List.mem_flatMap.mp hl
    exact Rfid.plain_lines hl

/-- The members that a removal leaves are those of the other slots, and of the last
slot once more. -/
theorem Pupa.mem_members_without {pupa : Pupa} (hp : pupa.Sound) {k : Nat} (hk : k < MEMBER)
    {m : Member} : m ∈ (pupa.without k).members ↔
      ∃ j, ∃ hj : j < MEMBER, (j ≠ k ∨ j = 29) ∧ pupa[j].member = some m := by
  rw [members_without hp hk, List.reduceOption_mem_iff, left, List.map_append, List.mem_append,
    List.map_singleton, List.mem_singleton]
  constructor
  · rintro (h | h)
    · obtain ⟨r, hr, hrm⟩ := List.mem_map.mp h
      obtain ⟨j, hjk, hj⟩ := List.mem_eraseIdx_iff_getElem?.mp hr
      obtain ⟨hlt, rfl⟩ := List.getElem?_eq_some_iff.mp hj
      have hj' : j < MEMBER := by simpa using hlt
      rw [Vector.getElem_toList] at hrm
      exact ⟨j, hj', Or.inl hjk, hrm⟩
    · exact ⟨29, by decide, Or.inr rfl, h.symm⟩
  · rintro ⟨j, hj, hjk, hm⟩
    by_cases hlast : j = 29
    · subst hlast
      exact Or.inr hm.symm
    · refine Or.inl (List.mem_map.mpr ⟨pupa[j], ?_, hm⟩)
      refine List.mem_eraseIdx_iff_getElem?.mpr ⟨j, hjk.resolve_right hlast, ?_⟩
      rw [Vector.getElem?_toList, Vector.getElem?_eq_getElem hj]

end SmartDoor
