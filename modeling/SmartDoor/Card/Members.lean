import SmartDoor.Card.Rewrite
import SmartDoor.Run.Guarded
import Mathlib.Data.List.ReduceOption

/-!
# The list of members

The table and the file are two forms of one list: the entries of the occupied
slots, in slot order, and the records of the lines, in the order of the file. A
lookup searches this list, reading a closed text into a zeroed table takes the
list over from the file, `write_file` takes it over from the table, and the
shift of a removal leaves the slots but one, the last one twice.
-/

namespace SmartDoor

open CString

/-- A member: the id and the name. -/
abbrev Member := Bytes × Bytes

/-- The member is meant by a lookup of `user`. -/
def Named (user : Bytes) (m : Member) : Prop := m.1 = user ∨ m.2 = user

instance (user : Bytes) (m : Member) : Decidable (Named user m) :=
  inferInstanceAs (Decidable (_ ∨ _))

/-- The member in a slot. -/
def Rfid.member (r : Rfid) : Option Member := if r.Occupied then some r.entry else none

theorem Rfid.member_eq (r : Rfid) :
    r.member = if r.entry.1 ≠ [] then some r.entry else none := rfl

/-- An occupied slot holds its entry. -/
theorem Rfid.member_eq_some {r : Rfid} {m : Member} :
    r.member = some m ↔ r.Occupied ∧ r.entry = m := by
  rw [member, Option.ite_none_right_eq_some, Option.some.injEq]

/-- The members of the table, in slot order. -/
def Pupa.members (pupa : Pupa) : List Member := (pupa.toList.map Rfid.member).reduceOption

/-- The member on a line. -/
def Line.member (l : Line) : Option Member :=
  if l.more ≠ [] ∧ l.id ≠ [] then some (l.id, l.name) else none

/-- The members of a text, in the order of its lines. -/
def Text.members (t : Text) : List Member := (t.lines.map Line.member).reduceOption

theorem Pupa.mem_members {pupa : Pupa} {m : Member} :
    m ∈ pupa.members ↔ ∃ i, ∃ hi : i < MEMBER, pupa[i].member = some m := by
  rw [members, List.reduceOption_mem_iff, List.mem_map]
  constructor
  · rintro ⟨r, hr, hm⟩
    obtain ⟨i, hi, rfl⟩ := List.getElem_of_mem hr
    rw [Vector.getElem_toList] at hm
    exact ⟨i, by simpa using hi, hm⟩
  · rintro ⟨i, hi, hm⟩
    exact ⟨pupa[i], by simp, hm⟩

theorem Text.mem_members {t : Text} {m : Member} :
    m ∈ t.members ↔ ∃ l ∈ t.lines, l.member = some m := by
  rw [members, List.reduceOption_mem_iff, List.mem_map]

/-- The members of a file that goes on after a closed text. -/
theorem members_parse_append {f : Bytes} (hf : (parse f).Closed) (g : Bytes) :
    (parse (f ++ g)).members = (parse f).members ++ (parse g).members := by
  rw [parse_append hf, Text.members, Text.append, List.map_append, List.reduceOption_append]
  rfl

theorem Pupa.members_zero : Pupa.zero.members = [] :=
  List.eq_nil_iff_forall_not_mem.mpr fun m hm => by
    obtain ⟨i, hi, hm⟩ := mem_members.mp hm
    simp only [zero, Vector.getElem_replicate] at hm
    cases hm

/-! ## Lookups -/

theorem Rfid.matches_iff {user : Bytes} {r : Rfid} :
    r.Matches user ↔ ∃ m, r.member = some m ∧ Named user m := by
  rw [Rfid.Matches, Rfid.member]
  constructor
  · rintro ⟨h, ho⟩
    exact ⟨r.entry, if_pos ho, h⟩
  · rintro ⟨m, hm, h⟩
    split at hm
    · cases hm
      exact ⟨h, by assumption⟩
    · cases hm

/-- A lookup fails exactly when it names no member. -/
theorem Pupa.lookup_eq_none_members {pupa : Pupa} {user : Bytes} :
    pupa.lookup user = none ↔ ∀ m ∈ pupa.members, ¬ Named user m := by
  rw [lookup_eq_none]
  constructor
  · intro h m hm hn
    obtain ⟨i, hi, hrm⟩ := mem_members.mp hm
    exact h i hi (Rfid.matches_iff.mpr ⟨m, hrm, hn⟩)
  · intro h i hi hm
    obtain ⟨m, hrm, hn⟩ := Rfid.matches_iff.mp hm
    exact h m (mem_members.mpr ⟨i, hi, hrm⟩) hn

/-- The slot that a lookup answers holds a member that it names. -/
theorem Pupa.member_lookup {pupa : Pupa} {user : Bytes} {k : Fin MEMBER}
    (h : pupa.lookup user = some k) :
    (pupa.get k).member = some (pupa.get k).entry ∧ Named user (pupa.get k).entry := by
  have hm := (lookup_eq_some.mp h).1
  exact ⟨if_pos hm.2, hm.1⟩

/-- The members are those of the entries. -/
theorem Pupa.members_congr {pupa pupa' : Pupa}
    (h : ∀ i (hi : i < MEMBER), pupa'[i].entry = pupa[i].entry) : pupa'.members = pupa.members := by
  have hmap : pupa'.toList.map Rfid.member = pupa.toList.map Rfid.member := by
    apply List.ext_getElem
    · simp
    · intro i h1 h2
      have hi : i < MEMBER := by simpa using h1
      rw [List.getElem_map, List.getElem_map, Vector.getElem_toList, Vector.getElem_toList,
        Rfid.member_eq, h i hi, Rfid.member_eq]
  rw [members, members, hmap]

theorem Pupa.members_trimTo {pupa : Pupa} (h : pupa.Terminated) (k : Nat) :
    (pupa.trimTo k).members = pupa.members :=
  members_congr fun i hi => by
    rw [Rfid.entry, id_trimTo h k hi, name_trimTo h k hi, Rfid.entry]

theorem Pupa.members_searched {pupa : Pupa} (h : pupa.Terminated) (user : Bytes) :
    (pupa.searched user).2.members = pupa.members := by
  obtain ⟨k, hk⟩ := pupa.searched_trimTo user
  rw [hk]
  exact members_trimTo h k

theorem Pupa.members_written {pupa : Pupa} (h : pupa.Terminated) :
    pupa.written.members = pupa.members :=
  members_congr fun _ hi => entry_written h hi

/-! ## The shift -/

/-- The slots that a removal of slot `k` leaves: all others, and the last slot
once more. -/
def Pupa.left (pupa : Pupa) (k : Nat) : List Rfid := pupa.toList.eraseIdx k ++ [pupa[29]]

/-- Trimming changes none of the members that a removal leaves. -/
theorem Pupa.map_member_left_trimTo {pupa : Pupa} (h : pupa.Terminated) (c k : Nat) :
    ((pupa.trimTo c).left k).map Rfid.member = (pupa.left k).map Rfid.member := by
  have hmember : ∀ i (hi : i < MEMBER), (pupa.trimTo c)[i].member = pupa[i].member :=
    fun i hi => by
      rw [Rfid.member_eq, Rfid.entry, id_trimTo h c hi, name_trimTo h c hi, Rfid.member_eq,
        Rfid.entry]
  have hlist : (pupa.trimTo c).toList.map Rfid.member = pupa.toList.map Rfid.member := by
    apply List.ext_getElem
    · simp
    · intro i h1 h2
      have hi : i < MEMBER := by simpa using h1
      rw [List.getElem_map, List.getElem_map, Vector.getElem_toList, Vector.getElem_toList]
      exact hmember i hi
  rw [left, left, List.map_append, List.map_append, ← List.eraseIdx_map, ← List.eraseIdx_map,
    hlist, List.map_singleton, List.map_singleton, hmember 29 (by decide)]

theorem Rfid.member_copied {dst src : Rfid} (hs : src.Terminated) :
    (dst.copied src).member = src.member := by
  have hid : (dst.copied src).id = src.id := Rfid.id_copied hs
  have hiff : (dst.copied src).Occupied ↔ src.Occupied := by
    rw [Rfid.Occupied, Rfid.Occupied, hid]
  rw [Rfid.member, Rfid.member]
  by_cases ho : src.Occupied
  · have hname : (dst.copied src).name = src.name := by
      rw [Rfid.name, (Rfid.copied_occupied hs ho).2, Rfid.name]
    rw [if_pos ho, if_pos (hiff.mpr ho), Rfid.entry, hid, hname, Rfid.entry]
  · rw [if_neg ho, if_neg (mt hiff.mp ho)]

theorem Rfid.lines_copied {dst src : Rfid} (hs : src.Terminated) :
    (dst.copied src).lines = src.lines := by
  have hid : (dst.copied src).id = src.id := Rfid.id_copied hs
  have hiff : (dst.copied src).Occupied ↔ src.Occupied := by
    rw [Rfid.Occupied, Rfid.Occupied, hid]
  rw [Rfid.lines, Rfid.lines]
  by_cases ho : src.Occupied
  · have hname : content (dst.copied src).memberName.toList = content src.memberName.toList :=
      (Rfid.copied_occupied hs ho).2
    rw [if_pos ho, if_pos (hiff.mpr ho), hid, Rfid.name, hname, Rfid.name, Rfid.crs,
      SmartDoor.crs, hname, Rfid.crs, SmartDoor.crs]
  · rw [if_neg ho, if_neg (mt hiff.mp ho)]

/-- What does not change when one of these slots is copied is, after the shift, that
of the slots that are left. -/
theorem Pupa.map_shifted_of {β : Type} {f : Rfid → β} {pupa : Pupa}
    (hf : ∀ (dst : Rfid) i (hi : i < MEMBER), f (dst.copied pupa[i]) = f pupa[i]) {k : Nat}
    (hk : k < MEMBER) : (pupa.shifted k).toList.map f = (pupa.left k).map f := by
  have hlen : (pupa.toList.eraseIdx k).length = 29 := by
    rw [List.length_eraseIdx_of_lt (by rw [Vector.length_toList]; exact hk), Vector.length_toList]
    rfl
  apply List.ext_getElem
  · simp [left, hlen]
  · intro i h1 h2
    have hi : i < MEMBER := by simpa using h1
    rw [List.getElem_map, List.getElem_map, Vector.getElem_toList]
    by_cases hlt : i < 29
    · simp only [left]
      rw [List.getElem_append_left (by rw [hlen]; exact hlt), List.getElem_eraseIdx]
      split
      · rw [getElem_shifted_of_not pupa hi (by omega), Vector.getElem_toList]
      · have hi' : i + 1 < MEMBER := Nat.succ_lt_succ hlt
        rw [getElem_shifted pupa (by omega) hi', Vector.getElem_toList]
        exact hf _ (i + 1) hi'
    · obtain rfl : i = 29 := by
        have : i < 30 := hi
        omega
      simp only [left]
      rw [List.getElem_append_right (by omega),
        getElem_shifted_of_not pupa hi (by simp only [not_and]; exact fun _ => by decide)]
      simp [hlen]

theorem Pupa.map_shifted {β : Type} {f : Rfid → β}
    (hf : ∀ {dst src : Rfid}, src.Terminated → f (dst.copied src) = f src) {pupa : Pupa}
    (hp : pupa.Terminated) {k : Nat} (hk : k < MEMBER) :
    (pupa.shifted k).toList.map f = (pupa.left k).map f :=
  map_shifted_of (fun _ i hi => hf (hp i hi)) hk

theorem Pupa.members_shifted {pupa : Pupa} (hp : pupa.Terminated) {k : Nat} (hk : k < MEMBER) :
    (pupa.shifted k).members = ((pupa.left k).map Rfid.member).reduceOption := by
  rw [members, map_shifted Rfid.member_copied hp hk]

theorem Pupa.lines_shifted {pupa : Pupa} (hp : pupa.Terminated) {k : Nat} (hk : k < MEMBER) :
    (pupa.shifted k).toList.flatMap Rfid.lines = (pupa.left k).flatMap Rfid.lines := by
  rw [List.flatMap_def, map_shifted Rfid.lines_copied hp hk, List.flatMap_def]

/-! ## The text -/

@[simp] theorem Line.member_empty : Line.empty.member = none := rfl

theorem Line.member_record (id name : Bytes) :
    (Line.record id name).member = if id ≠ [] then some (id, name) else none := by
  simp [Line.member]

/-- The lines of a slot hold its member, the empty ones none. -/
theorem Rfid.members_lines (rs : List Rfid) :
    ((rs.flatMap Rfid.lines).map Line.member).reduceOption =
      (rs.map Rfid.member).reduceOption := by
  induction rs with
  | nil => rfl
  | cons r rs ih =>
    rw [List.flatMap_cons, List.map_append, List.reduceOption_append, ih, List.map_cons]
    by_cases ho : r.Occupied
    · have hm : r.member = some (r.id, r.name) := if_pos ho
      have hl : r.lines = .record r.id r.name :: List.replicate r.crs .empty := if_pos ho
      rw [hm, hl, List.map_cons, Line.member_record, if_pos (show r.id ≠ [] from ho),
        List.map_replicate,
        Line.member_empty, List.reduceOption_cons_of_some, List.reduceOption_replicate_none,
        List.reduceOption_cons_of_some]
      rfl
    · have hm : r.member = none := if_neg ho
      have hl : r.lines = [] := if_neg ho
      rw [hm, hl, List.reduceOption_cons_of_none]
      rfl

/-- The member that a plain line leaves in a zeroed slot. -/
theorem Line.Plain.member_place {l : Line} (hp : l.Plain) (hl : l.Words) (hf : l.Fits) :
    (l.place Rfid.zero).member = l.member := by
  obtain ⟨-, he⟩ := hp.place hl hf Rfid.sound_zero
  rw [Rfid.member_eq, he, Line.member, Line.enter]
  rcases hp with rfl | hm
  · rfl
  · have hne : l ≠ Line.empty := fun h => hm (by rw [h]; rfl)
    simp only [if_neg hne, hm, ne_eq, not_false_eq_true, true_and]

/-- The slots of a zeroed table over which a closed text is laid, one line a slot. -/
theorem Pupa.map_member_layout_zero {t : Text} (hc : t.Closed) (hf : t.Fits)
    (hw : ∀ l ∈ t.lines, l.Words) (hp : ∀ l ∈ t.lines, l.Plain) :
    (Pupa.zero.layout t).toList.map Rfid.member =
      t.lines.map Line.member ++ List.replicate (MEMBER - t.lines.length) none := by
  have hlen := hf.count
  have hzero : ∀ i (hi : i < MEMBER), Pupa.zero[i] = Rfid.zero := fun i hi => by
    simp [Pupa.zero]
  apply List.ext_getElem
  · simp
    omega
  · intro i h1 h2
    have hi : i < MEMBER := by simpa using h1
    rw [List.getElem_map, Vector.getElem_toList]
    by_cases hlt : i < t.lines.length
    · have hmem := List.getElem_mem hlt
      rw [List.getElem_append_left (by simpa using hlt), List.getElem_map,
        getElem_layout_line hi (List.getElem?_eq_getElem hlt), hzero i hi]
      exact (hp _ hmem).member_place (hw _ hmem) (hf.lines _ hmem)
    · rw [List.getElem_append_right (by simpa using hlt), List.getElem_replicate,
        getElem_layout_rest hc hi (by omega), hzero i hi]
      rfl

/-- A zeroed table holds the members of the text that is laid over it. -/
theorem Pupa.members_layout_zero {t : Text} (hc : t.Closed) (hf : t.Fits)
    (hw : ∀ l ∈ t.lines, l.Words) (hp : ∀ l ∈ t.lines, l.Plain) :
    (Pupa.zero.layout t).members = t.members := by
  rw [members, map_member_layout_zero hc hf hw hp, List.reduceOption_append,
    List.reduceOption_replicate_none, List.append_nil, Text.members]

end SmartDoor
