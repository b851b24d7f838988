import SmartDoor.Card.Removal

/-!
# Writing the file and reading it back

`write_file` trims the ids but prints the names as they are stored. A name that no
lookup has trimmed still ends in the CR that `read_file` put there, so its line ends
in two CRs and is read as a record and an empty line. Reading the written file into
a zeroed table gives the occupied slots back, one behind the other, exactly when all
their names are trimmed.
-/

namespace SmartDoor

open CString

/-- A string in one of the two forms in which the program leaves it: with the CR of
`read_file`, or trimmed. -/
structure Stored {n : Nat} (v : Vector UInt8 n) (w : Bytes) : Prop where
  terminated : Terminated v.toList
  form : content v.toList = w ∨ content v.toList = w ++ [13]

/-- A slot that is free, or holds a documented member in either form. -/
structure Rfid.Encodable (r : Rfid) : Prop extends r.Terminated where
  stored : r.Occupied → ∃ m, Documented m ∧ Stored r.memberId m.1 ∧ Stored r.memberName m.2

/-- The occupied slots, in order. -/
def Pupa.occupied (pupa : Pupa) : List Rfid := pupa.toList.filter fun r => r.Occupied

theorem Stored.strip {n : Nat} {v : Vector UInt8 n} {w : Bytes} (h : Stored v w)
    (hw : ∀ c ∈ w, isWord c) : strip (content v.toList) = w := by
  rcases h.form with hc | hc
  · rw [hc, strip_words hw]
  · rw [hc, strip_cr hw]

/-- The CR is what tells the two forms apart. -/
theorem Stored.eq_crs {n : Nat} {v : Vector UInt8 n} {w : Bytes} (h : Stored v w)
    (hw : ∀ c ∈ w, isWord c) : crs v ≤ 1 ∧ content v.toList = w ++ List.replicate (crs v) 13 := by
  have h13 : (13 : UInt8) ∉ w := fun hm => (isWord_ne (hw 13 hm)).2.1 rfl
  have hcount : w.count 13 = 0 := List.count_eq_zero_of_not_mem h13
  rcases h.form with hc | hc
  · have hcrs : crs v = 0 := by rw [crs, hc, hcount]
    exact ⟨by omega, by rw [hcrs, hc, List.replicate_zero, List.append_nil]⟩
  · have hcrs : crs v = 1 := by
      rw [crs, hc, List.count_append, hcount]
      rfl
    exact ⟨by omega, by rw [hcrs, hc]; rfl⟩

/-! ## Occupied slots -/

theorem Rfid.Encodable.documented {r : Rfid} (h : r.Encodable) (ho : r.Occupied) :
    Documented r.entry := by
  obtain ⟨m, hm, hid, hname⟩ := h.stored ho
  have heq : r.entry = m := Prod.ext (hid.strip hm.id) (hname.strip hm.name)
  rwa [heq]

theorem Rfid.Encodable.content_name {r : Rfid} (h : r.Encodable) (ho : r.Occupied) :
    r.crs ≤ 1 ∧ content r.memberName.toList = r.name ++ List.replicate r.crs 13 := by
  obtain ⟨m, hm, -, hname⟩ := h.stored ho
  have hstrip : r.name = m.2 := hname.strip hm.name
  rw [hstrip]
  exact hname.eq_crs hm.name

theorem Rfid.Encodable.printable {r : Rfid} (h : r.Encodable) : r.Printable := fun ho =>
  ⟨(h.documented ho).id, (h.documented ho).name, (h.content_name ho).2⟩

theorem Pupa.mem_occupied {pupa : Pupa} {r : Rfid} (h : r ∈ pupa.occupied) :
    r.Occupied ∧ ∃ i : Fin MEMBER, pupa.get i = r := by
  obtain ⟨hr, ho⟩ := List.mem_filter.mp h
  obtain ⟨i, hi, rfl⟩ := List.getElem_of_mem hr
  exact ⟨of_decide_eq_true ho, ⟨i, by simpa using hi⟩, rfl⟩

theorem Pupa.occupied_mem {pupa : Pupa} {i : Fin MEMBER} (h : (pupa.get i).Occupied) :
    pupa.get i ∈ pupa.occupied :=
  List.mem_filter.mpr ⟨by simp, decide_eq_true h⟩

/-- Free slots have no lines and no pieces. -/
theorem flatMap_occupied {β : Type} {f : Rfid → List β} (hf : ∀ r : Rfid, ¬ r.Occupied → f r = [])
    (rs : List Rfid) : rs.flatMap f = (rs.filter fun r => r.Occupied).flatMap f := by
  induction rs with
  | nil => rfl
  | cons r rs ih =>
    rw [List.filter_cons, List.flatMap_cons, ih]
    by_cases ho : r.Occupied
    · rw [if_pos (decide_eq_true ho), List.flatMap_cons]
    · rw [if_neg (by simpa using ho), hf r ho, List.nil_append]

theorem Rfid.pieces_free {r : Rfid} (h : ¬ r.Occupied) : r.pieces = [] := if_neg h

theorem Rfid.lines_free {r : Rfid} (h : ¬ r.Occupied) : r.lines = [] := if_neg h

/-! ## The written text -/

/-- A table of trimmed names is written as a file of records. -/
theorem Pupa.pieces_trimmed {pupa : Pupa} (h : ∀ i : Fin MEMBER, (pupa.get i).Encodable)
    (htrim : ∀ r ∈ pupa.occupied, r.crs = 0) :
    pupa.pieces.flatten = fileOf (pupa.occupied.map Rfid.entry) := by
  have hpiece : ∀ r ∈ pupa.occupied, r.pieces.flatten = recordBytes r.entry := by
    intro r hr
    obtain ⟨ho, i, rfl⟩ := Pupa.mem_occupied hr
    have hname := ((h i).content_name ho).2
    rw [htrim _ hr, List.replicate_zero, List.append_nil] at hname
    rw [Rfid.pieces, if_pos ho, hname, recordBytes]
    simp [Rfid.entry]
  rw [Pupa.pieces, flatMap_occupied fun _ ho => Rfid.pieces_free ho, fileOf, List.flatMap_map]
  generalize hrs : pupa.toList.filter (fun r => decide r.Occupied) = rs
  have hrs' : pupa.occupied = rs := hrs
  rw [hrs'] at hpiece ⊢
  clear htrim hrs hrs'
  induction rs with
  | nil => rfl
  | cons r rs ih =>
    rw [List.flatMap_cons, List.flatten_append, hpiece r (List.mem_cons_self ..),
      ih fun x hx => hpiece x (List.mem_cons_of_mem _ hx), List.flatMap_cons]

/-- A name with its CR is followed by an empty line, in the slot behind its record. -/
theorem exists_empty_line {rs : List Rfid} (ho : ∀ r ∈ rs, r.Occupied)
    (h : ¬ ∀ r ∈ rs, r.crs = 0) :
    ∃ j, j < rs.length ∧ (rs.flatMap Rfid.lines)[j + 1]? = some .empty := by
  induction rs with
  | nil => exact absurd (fun r hr => absurd hr List.not_mem_nil) h
  | cons r rs ih =>
    have hlines : r.lines = .record r.id r.name :: List.replicate r.crs .empty :=
      if_pos (ho r (List.mem_cons_self ..))
    by_cases hr : r.crs = 0
    · have hrest : ¬ ∀ r ∈ rs, r.crs = 0 := fun hall => h fun x hx => by
        rcases List.mem_cons.mp hx with rfl | hx
        · exact hr
        · exact hall x hx
      obtain ⟨j, hj, hempty⟩ := ih (fun x hx => ho x (List.mem_cons_of_mem _ hx)) hrest
      refine ⟨j + 1, by simpa using hj, ?_⟩
      rw [List.flatMap_cons, hlines, hr, List.replicate_zero, List.singleton_append,
        List.getElem?_cons_succ]
      exact hempty
    · obtain ⟨k, hk⟩ := Nat.exists_eq_succ_of_ne_zero hr
      refine ⟨0, by simp, ?_⟩
      rw [List.flatMap_cons, hlines, hk, List.replicate_succ]
      rfl

/-- An empty line in a zeroed slot leaves it free, and its name is not empty. -/
theorem place_empty_zero : (Line.empty.place Rfid.zero).id = [] ∧
    content (Line.empty.place Rfid.zero).memberName.toList = [13] := by
  decide +kernel

/-! ## The round trip -/

/-- The table holds the members of these slots from slot 0 on, and nothing behind them. -/
structure Pupa.HoldsOnly (pupa : Pupa) (rs : List Rfid) : Prop where
  entry : ∀ (i : Fin MEMBER) r, rs[i.val]? = some r → (pupa.get i).entry = r.entry
  rest : ∀ i : Fin MEMBER, rs.length ≤ i.val →
    content (pupa.get i).memberId.toList = [] ∧ content (pupa.get i).memberName.toList = []

/-- Trimmed names come back. -/
theorem Pupa.holdsOnly_of_trimmed {pupa : Pupa} (h : ∀ i : Fin MEMBER, (pupa.get i).Encodable)
    (htrim : ∀ r ∈ pupa.occupied, r.crs = 0) :
    ∃ t : Pupa, readFile Pupa.zero pupa.pieces.flatten = .ok t ∧ t.HoldsOnly pupa.occupied := by
  have hdoc : ∀ m ∈ pupa.occupied.map Rfid.entry, Documented m := by
    intro m hm
    obtain ⟨r, hr, rfl⟩ := List.mem_map.mp hm
    obtain ⟨ho, i, rfl⟩ := Pupa.mem_occupied hr
    exact (h i).documented ho
  have hcount : (pupa.occupied.map Rfid.entry).length ≤ MEMBER := by
    rw [List.length_map]
    exact (List.length_filter_le ..).trans_eq Vector.length_toList
  have hread := readFile_fileOf hcount hdoc Pupa.zero
  have hzero : ∀ i (hi : i < MEMBER), Pupa.zero[i] = Rfid.zero := fun i hi => by
    simp [Pupa.zero]
  have hslot := fun i (hi : i < MEMBER) => getElem_layout_fileOf hdoc Pupa.zero hi
  have hterm : (Pupa.zero.layout (parse (fileOf (pupa.occupied.map Rfid.entry)))).Terminated := by
    intro i hi
    rw [hslot i hi]
    cases hm : (pupa.occupied.map Rfid.entry)[i]? with
    | none => exact (Pupa.sound_zero i hi).toTerminated
    | some m => exact ((hdoc m (List.mem_of_getElem? hm)).holds _).toTerminated
  obtain ⟨lines, hlines⟩ := listing_of_terminated hterm
  rw [hlines] at hread
  rw [Pupa.pieces_trimmed h htrim]
  refine ⟨_, hread, fun i r hr => ?_, fun i hi => ?_⟩
  · have hm : (pupa.occupied.map Rfid.entry)[i.val]? = some r.entry := by
      rw [List.getElem?_map, hr]
      rfl
    have hdocr := hdoc _ (List.mem_of_getElem? hm)
    rw [Pupa.get_eq, hslot i.val i.isLt, hm]
    exact (hdocr.holds _).entry_eq hdocr
  · have hm : (pupa.occupied.map Rfid.entry)[i.val]? = none :=
      List.getElem?_eq_none (by rwa [List.length_map])
    rw [Pupa.get_eq, hslot i.val i.isLt, hm, hzero]
    exact ⟨by decide, by decide⟩

/-- A name with its CR does not. -/
theorem Pupa.trimmed_of_holdsOnly {pupa t : Pupa} (h : ∀ i : Fin MEMBER, (pupa.get i).Encodable)
    (hread : readFile Pupa.zero pupa.pieces.flatten = .ok t) (ht : t.HoldsOnly pupa.occupied) :
    ∀ r ∈ pupa.occupied, r.crs = 0 := by
  by_contra hcr
  have hparse := Pupa.parse_pieces fun i hi => (h ⟨i, hi⟩).printable
  have hclosed : (parse pupa.pieces.flatten).Closed := by
    rw [hparse]
    rfl
  obtain ⟨hfits, rfl, -⟩ := Pupa.sound_zero.of_readFile hclosed hread
  obtain ⟨j, hj, hempty⟩ := exists_empty_line (fun r hr => (Pupa.mem_occupied hr).1) hcr
  have hline : (parse pupa.pieces.flatten).lines[j + 1]? = some .empty := by
    rw [hparse, flatMap_occupied fun _ ho => Rfid.lines_free ho]
    exact hempty
  have hlt : j + 1 < MEMBER :=
    (List.getElem?_eq_some_iff.mp hline).1.trans_le hfits.count
  have hslot : (Pupa.zero.layout (parse pupa.pieces.flatten)).get ⟨j + 1, hlt⟩ =
      Line.empty.place Rfid.zero := by
    rw [Pupa.get_eq, Pupa.getElem_layout_line hlt hline]
    simp [Pupa.zero]
  cases hr : pupa.occupied[j + 1]? with
  | none =>
    have hrest := (ht.rest ⟨j + 1, hlt⟩ (List.getElem?_eq_none_iff.mp hr)).2
    rw [hslot, place_empty_zero.2] at hrest
    cases hrest
  | some r =>
    have hentry := congrArg Prod.fst (ht.entry ⟨j + 1, hlt⟩ r hr)
    rw [hslot] at hentry
    exact (Pupa.mem_occupied (List.mem_of_getElem? hr)).1 (hentry.symm.trans place_empty_zero.1)

/-- For every table of free slots and documented members, each string in either form,
and a card whose member file is empty: `write_file` followed by `read_file` into a zeroed
table gives the members back in consecutive slots, with all later slots empty, if and only
if no occupied slot has a CR behind its name. -/
theorem decode_encode {pupa : Pupa} (h : ∀ i : Fin MEMBER, (pupa.get i).Encodable) {c : Card}
    (hc : c.text = []) : ∃ written calls, writeFile true pupa = .ok (written, calls) ∧
      ((∃ t : Pupa, readFile Pupa.zero (calls.foldl SdCall.run c).text = .ok t ∧
          t.HoldsOnly pupa.occupied) ↔
        ∀ i : Fin MEMBER, (pupa.get i).Occupied → (pupa.get i).crs = 0) := by
  refine ⟨_, _, writeFile_eq true fun i hi => (h ⟨i, hi⟩).toTerminated, ?_⟩
  have htext : (Card.appended true pupa.pieces.flatten c).text = pupa.pieces.flatten := by
    change c.text ++ pupa.pieces.flatten = _
    rw [hc, List.nil_append]
  rw [SdCall.foldl_append, htext]
  constructor
  · rintro ⟨t, hread, ht⟩ i ho
    exact Pupa.trimmed_of_holdsOnly h hread ht _ (Pupa.occupied_mem ho)
  · intro htrim
    refine Pupa.holdsOnly_of_trimmed h fun r hr => ?_
    obtain ⟨ho, i, rfl⟩ := Pupa.mem_occupied hr
    exact htrim i ho

/-- A member in slot 1, with the CR behind the id and the name trimmed, comes to slot 0. -/
theorem decode_encode_of_one : ∃ pupa : Pupa,
    pupa.occupied.map Rfid.entry = [(List.replicate 10 65, [97])] ∧
    ∃ written calls t, writeFile true pupa = .ok (written, calls) ∧
      readFile Pupa.zero (calls.foldl SdCall.run ⟨some [], some [], false⟩).text = .ok t ∧
      t.HoldsOnly pupa.occupied := by
  let slot : Rfid :=
    ⟨overlay (.replicate 12 0) (.replicate 10 65 ++ [13]), overlay (.replicate 15 0) [97]⟩
  let pupa : Pupa := Pupa.zero.set 1 slot
  have hslots : ∀ i : Fin MEMBER, pupa.get i = Rfid.zero ∨ pupa.get i = slot := by
    intro i
    rw [Pupa.get_eq, Vector.getElem_set]
    split
    · exact Or.inr rfl
    · exact Or.inl (by simp [Pupa.zero])
  have hdoc : Documented (List.replicate 10 65, [97]) :=
    ⟨List.all_eq_true.mp (by decide), List.all_eq_true.mp (by decide), by decide, by decide⟩
  have hencodable : ∀ i : Fin MEMBER, (pupa.get i).Encodable := by
    intro i
    rcases hslots i with hi | hi
    · rw [hi]
      exact ⟨Rfid.sound_zero.toTerminated, fun ho => absurd ho (by decide)⟩
    · rw [hi]
      exact ⟨⟨by decide, by decide⟩, fun _ => ⟨_, hdoc, ⟨by decide, Or.inr (by decide)⟩,
        ⟨by decide, Or.inl (by decide)⟩⟩⟩
  have htrimmed : ∀ i : Fin MEMBER, (pupa.get i).Occupied → (pupa.get i).crs = 0 := by
    intro i _
    rcases hslots i with hi | hi
    · rw [hi]
      decide
    · rw [hi]
      decide
  obtain ⟨written, calls, hwrite, hiff⟩ :=
    decode_encode hencodable (c := ⟨some [], some [], false⟩) rfl
  obtain ⟨t, hread, ht⟩ := hiff.mpr htrimmed
  exact ⟨pupa, by decide +kernel, written, calls, t, hwrite, hread, ht⟩

/-- Two members whose names no lookup has trimmed are written and read back: the second one
comes to slot 2, behind a free slot. -/
theorem decode_encode_of_untrimmed :
    (readFile Pupa.zero (fileOf (enrolled 2)) >>= fun pupa =>
      writeFile true pupa >>= fun w =>
      readFile Pupa.zero (w.2.foldl SdCall.run ⟨some [], some [], false⟩).text >>= fun t =>
      .ok (pupa.occupied.map Rfid.entry, (t.toList.take 3).map Rfid.entry)) =
      .ok (enrolled 2, [(List.replicate 10 65, [97]), ([], []),
        (List.replicate 9 65 ++ [66], [97])]) := by
  decide +kernel

end SmartDoor
