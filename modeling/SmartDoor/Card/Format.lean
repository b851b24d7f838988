import SmartDoor.Card.Members

/-!
# The documented format

The source documents the member file as a list of `<member_id> <member_name>\r\n`.
The loop of `read_file` takes such a file over into any table, whatever the slots
held before: each record ends up in its slot as two strings that end in a CR, and
the slots behind the records are not touched.
-/

namespace SmartDoor

open CString

/-- `<member_id> <member_name>\r\n` -/
def recordBytes (m : Member) : Bytes := m.1 ++ 32 :: (m.2 ++ [13, 10])

/-- A file of records. -/
def fileOf (ms : List Member) : Bytes := ms.flatMap recordBytes

/-- The members `AAAAAAAAAA a`, `AAAAAAAAAB a` and so on. -/
def enrolled (n : Nat) : List Member :=
  (List.range n).map fun i =>
    (List.replicate 8 65 ++ [UInt8.ofNat (65 + i / 26), UInt8.ofNat (65 + i % 26)], [97])

/-- An id of at most ten letters and digits and a name of at most thirteen. -/
structure Documented (m : Member) : Prop where
  id : ∀ c ∈ m.1, isWord c
  name : ∀ c ∈ m.2, isWord c
  idLength : m.1.length ≤ 10
  nameLength : m.2.length ≤ 13

/-- The two strings that `read_file` leaves in the slot of a record. -/
structure Rfid.Holds (r : Rfid) (m : Member) : Prop extends r.Terminated where
  idContent : content r.memberId.toList = m.1 ++ [13]
  nameContent : content r.memberName.toList = m.2 ++ [13]

/-! ## Records as lines -/

/-- A file of records is a text of record lines. -/
theorem parse_fileOf {ms : List Member} (h : ∀ m ∈ ms, Documented m) :
    parse (fileOf ms) = ⟨ms.map fun m => .record m.1 m.2, .empty⟩ := by
  induction ms with
  | nil => rfl
  | cons m ms ih =>
    have hm := h m (List.mem_cons_self ..)
    have hbytes : fileOf (m :: ms) =
        (Line.record m.1 m.2).bytes ++ 13 :: 10 :: fileOf ms := by
      simp [fileOf, recordBytes, Line.bytes, Line.record]
    rw [hbytes, parse_line (Line.words_record.mpr ⟨hm.id, hm.name⟩), parse_skip (by rfl),
      ih fun x hx => h x (List.mem_cons_of_mem _ hx), List.map_cons]

theorem fits_records {ms : List Member} (hcount : ms.length ≤ MEMBER)
    (h : ∀ m ∈ ms, Documented m) : Text.Fits ⟨ms.map fun m => .record m.1 m.2, .empty⟩ := by
  apply (Text.closed_mk _).fits.mpr
  refine ⟨by rwa [List.length_map], fun l hl => ?_⟩
  obtain ⟨m, hm, rfl⟩ := List.mem_map.mp hl
  exact Line.fits_record.mpr ⟨(h m hm).idLength, (h m hm).nameLength⟩

/-- A record line over a slot: the beginnings of both fields are replaced. -/
theorem Line.place_record (id name : Bytes) (r : Rfid) : (Line.record id name).place r =
    ⟨overlay r.memberId (id ++ [13, 0]), overlay r.memberName (name ++ [13, 0])⟩ := by
  have hname : (Line.record id name).last = name := rfl
  rw [Line.place, hname]
  simp only [Line.placeOpen, record_first, record_more, Rfid.words, endAt_overlay]

/-- Whatever the slot held, it holds the record. -/
theorem Documented.holds {m : Member} (h : Documented m) (r : Rfid) :
    ((Line.record m.1 m.2).place r).Holds m := by
  have hid := h.idLength
  have hname := h.nameLength
  have hterm : ∀ {n : Nat} (v : Vector UInt8 n) (w : Bytes), w.length + 1 < n →
      Terminated (overlay v (w ++ [13, 0])).toList := fun v w hw => by
    have ht := terminated_overlay v (w := w ++ [13]) (by simpa using hw)
    rwa [List.append_assoc] at ht
  rw [Line.place_record]
  constructor
  case toTerminated => exact ⟨hterm _ _ (by omega), hterm _ _ (by omega)⟩
  case idContent => exact content_overlay_cr _ h.id (by omega)
  case nameContent => exact content_overlay_cr _ h.name (by omega)

/-- The trimmed strings are the member. -/
theorem Rfid.Holds.entry_eq {r : Rfid} {m : Member} (h : r.Holds m) (hm : Documented m) :
    r.entry = m := by
  have hid : r.id = m.1 := by rw [Rfid.id, h.idContent, strip_cr hm.id]
  have hname : r.name = m.2 := by rw [Rfid.name, h.nameContent, strip_cr hm.name]
  rw [Rfid.entry, hid, hname]

/-- Placing a record twice is placing it once. -/
theorem Line.place_record_twice (id name : Bytes) (r : Rfid) :
    (Line.record id name).place ((Line.record id name).place r) =
      (Line.record id name).place r := by
  have htwice : ∀ {n : Nat} (v : Vector UInt8 n) (w : Bytes),
      overlay (overlay v w) w = overlay v w := fun v w => by
    ext i hi
    rw [getElem_overlay, getElem_overlay]
    cases w[i]? <;> rfl
  rw [Line.place_record, Line.place_record, htwice, htwice]

/-! ## Reading a documented file -/

section Documented

variable {ms : List Member} (hcount : ms.length ≤ MEMBER) (h : ∀ m ∈ ms, Documented m)

include hcount h

/-- The loop of `read_file` stays inside the arrays and lays the records over the table. -/
theorem scan_fileOf (pupa : Pupa) :
    ((fileOf ms).foldlM readByte ⟨pupa, 0, 0, .id⟩).map Scan.pupa =
      .ok (pupa.layout (parse (fileOf ms))) := by
  have hscan := scan_text pupa (parse_words (fileOf ms)).1 (parse_words (fileOf ms)).2
  have hfit : (parse (fileOf ms)).Fits := by
    rw [parse_fileOf h]
    exact fits_records hcount h
  rwa [bytes_parse, scan_filter, if_pos hfit] at hscan

/-- After its loop `read_file` only lists the table. -/
theorem readFile_fileOf (pupa : Pupa) : readFile pupa (fileOf ms) =
    (listing (pupa.layout (parse (fileOf ms)))).map fun _ => pupa.layout (parse (fileOf ms)) := by
  rw [readFile_eq, if_pos]
  rw [parse_fileOf h]
  exact fits_records hcount h

omit hcount in
theorem getElem_layout_fileOf (pupa : Pupa) {i : Nat} (hi : i < MEMBER) :
    (pupa.layout (parse (fileOf ms)))[i] = match ms[i]? with
      | some m => (Line.record m.1 m.2).place pupa[i]
      | none => pupa[i] := by
  rw [parse_fileOf h]
  cases hm : ms[i]? with
  | none =>
    rw [Pupa.getElem_layout_rest (Text.closed_mk _) hi]
    rw [List.length_map]
    exact List.getElem?_eq_none_iff.mp hm
  | some m => exact Pupa.getElem_layout_line hi (by rw [List.getElem?_map, hm]; rfl)

omit hcount in
/-- Reading the same file again changes nothing. -/
theorem layout_fileOf_twice (pupa : Pupa) :
    (pupa.layout (parse (fileOf ms))).layout (parse (fileOf ms)) =
      pupa.layout (parse (fileOf ms)) := by
  ext1 i hi
  rw [getElem_layout_fileOf h _ hi, getElem_layout_fileOf h _ hi]
  cases ms[i]? with
  | none => rfl
  | some m => exact Line.place_record_twice ..

end Documented

/-- Read a file of at most thirty documented records into any table: the loop writes
inside the arrays only, slot `i` holds record `i`, the other slots are as before, what
follows the loop is the listing, which succeeds when the other slots hold strings, and a
second run of the loop changes nothing. -/
theorem read_file_documented (ms : List Member) (hcount : ms.length ≤ MEMBER)
    (h : ∀ m ∈ ms, Documented m) (pupa : Pupa) : ∃ pupa' : Pupa,
    ((fileOf ms).foldlM readByte ⟨pupa, 0, 0, .id⟩).map Scan.pupa = .ok pupa' ∧
    (∀ (i : Fin MEMBER) m, ms[i.val]? = some m → (pupa'.get i).Holds m) ∧
    (∀ i : Fin MEMBER, ms.length ≤ i.val → pupa'.get i = pupa.get i) ∧
    ((fileOf ms).foldlM readByte ⟨pupa', 0, 0, .id⟩).map Scan.pupa = .ok pupa' ∧
    readFile pupa (fileOf ms) = (listing pupa').map (fun _ => pupa') ∧
    readFile pupa' (fileOf ms) = (listing pupa').map (fun _ => pupa') ∧
    ((∀ i : Fin MEMBER, ms.length ≤ i.val → (pupa.get i).Terminated) →
      readFile pupa (fileOf ms) = .ok pupa' ∧ readFile pupa' (fileOf ms) = .ok pupa') := by
  have hholds : ∀ (i : Fin MEMBER) m, ms[i.val]? = some m →
      ((pupa.layout (parse (fileOf ms))).get i).Holds m := by
    intro i m hm
    rw [Pupa.get_eq, getElem_layout_fileOf h pupa i.isLt, hm]
    exact (h m (List.mem_of_getElem? hm)).holds _
  have hrest : ∀ i : Fin MEMBER, ms.length ≤ i.val →
      (pupa.layout (parse (fileOf ms))).get i = pupa.get i := by
    intro i hi
    rw [Pupa.get_eq, getElem_layout_fileOf h pupa i.isLt, List.getElem?_eq_none hi]
    rfl
  have htwice := layout_fileOf_twice h pupa
  have hread := readFile_fileOf hcount h pupa
  have hagain := readFile_fileOf hcount h (pupa.layout (parse (fileOf ms)))
  have hscan := scan_fileOf hcount h (pupa.layout (parse (fileOf ms)))
  rw [htwice] at hagain hscan
  refine ⟨_, scan_fileOf hcount h pupa, hholds, hrest, hscan, hread, hagain, fun hstrings => ?_⟩
  have hterm : (pupa.layout (parse (fileOf ms))).Terminated := by
    intro i hi
    cases hm : ms[i]? with
    | none =>
      have hle : ms.length ≤ i := List.getElem?_eq_none_iff.mp hm
      have hslot := hrest ⟨i, hi⟩ hle
      rw [Pupa.get_eq] at hslot
      rw [hslot]
      exact hstrings ⟨i, hi⟩ hle
    | some m => exact (hholds ⟨i, hi⟩ m hm).toTerminated
  obtain ⟨lines, hlines⟩ := listing_of_terminated hterm
  rw [hread, hagain, hlines]
  exact ⟨rfl, rfl⟩

/-- Two records of the greatest lengths over a table without a single terminator. -/
theorem read_file_documented_over_stale : ∃ pupa' : Pupa,
    let ms := [(List.replicate 10 65, List.replicate 13 97), ([], [])]
    let stale : Pupa := .replicate MEMBER ⟨.replicate 12 65, .replicate 15 65⟩
    ((fileOf ms).foldlM readByte ⟨stale, 0, 0, .id⟩).map Scan.pupa = .ok pupa' ∧
    ∀ (i : Fin MEMBER) m, ms[i.val]? = some m → (pupa'.get i).Holds m := by
  have hdoc : ∀ m ∈ [(List.replicate 10 65, List.replicate 13 97), ([], [])], Documented m := by
    intro m hm
    rcases List.mem_cons.mp hm with rfl | hm
    · exact ⟨List.all_eq_true.mp (by decide), List.all_eq_true.mp (by decide), by decide,
        by decide⟩
    · obtain rfl := List.mem_singleton.mp hm
      exact ⟨List.all_eq_true.mp (by decide), List.all_eq_true.mp (by decide), by decide,
        by decide⟩
  obtain ⟨pupa', hscan, hholds, -⟩ := read_file_documented _ (by decide) hdoc
    (.replicate MEMBER ⟨.replicate 12 65, .replicate 15 65⟩)
  exact ⟨pupa', hscan, hholds⟩

end SmartDoor
