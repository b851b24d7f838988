import SmartDoor.Card.Entries

/-!
# Shifting the table and writing the file

The shift loop of `remove_member` copies each later slot one down as strings and
leaves the last slot as it was. `write_file` trims the ids in place and prints
three pieces for each occupied slot; the pieces of a slot spell its record line,
followed by one empty line for every CR that was still behind the name.
-/

namespace SmartDoor

open CString

/-! ## The shift loop -/

/-- A slot after `strcpy` of the id and of the name of another slot. -/
def Rfid.copied (dst src : Rfid) : Rfid :=
  if content src.memberId.toList = [] then
    ⟨overlay dst.memberId [0], overlay dst.memberName [0]⟩
  else
    ⟨overlay dst.memberId (content src.memberId.toList ++ [0]),
      overlay dst.memberName (content src.memberName.toList ++ [0])⟩

/-- The table after the shift loop from slot `k` on. -/
def Pupa.shifted (pupa : Pupa) (k : Nat) : Pupa :=
  Vector.ofFn fun i =>
    if h : k ≤ i.val ∧ i.val + 1 < MEMBER then (pupa.get i).copied pupa[i.val + 1] else pupa.get i

/-- Past the end of the table there is nothing to shift. -/
theorem Pupa.shifted_last (pupa : Pupa) {k : Nat} (hk : MEMBER ≤ k + 1) :
    pupa.shifted k = pupa := by
  ext1 j hj
  simp only [shifted, Vector.getElem_ofFn]
  rw [dif_neg (by omega)]
  rfl

theorem Rfid.Terminated.copied {src : Rfid} (hs : src.Terminated) (dst : Rfid) :
    (dst.copied src).Terminated := by
  have hid := hs.id.length_content_lt
  have hname := hs.name.length_content_lt
  rw [Vector.length_toList] at hid hname
  rw [Rfid.copied]
  split
  · exact ⟨terminated_overlay _ (w := []) (by decide), terminated_overlay _ (w := []) (by decide)⟩
  · exact ⟨terminated_overlay _ hid, terminated_overlay _ hname⟩

theorem Rfid.Sound.copied {dst src : Rfid} (hd : dst.Sound) (hs : src.Sound) :
    (dst.copied src).Sound := by
  have hempty : ∀ {n : Nat} {v : Vector UInt8 n}, Tidy v → Tidy (overlay v [0]) :=
    fun {n v} hv => by
      have hset : overlay v [0] = v.setIfInBounds 0 0 := by
        ext1 i hi
        rw [getElem_overlay, Vector.getElem_setIfInBounds]
        cases i <;> simp
      exact hset ▸ hv.set_zero 0
  refine ⟨hs.toTerminated.copied dst, ?_, ?_⟩
  · rw [Rfid.copied]
    split
    · exact hempty hd.tidyId
    · exact hd.tidyId.copy hs.tidyId hs.id
  · rw [Rfid.copied]
    split
    · exact hempty hd.tidyName
    · exact hd.tidyName.copy hs.tidyName hs.name

/-- An occupied slot is copied with its strings. -/
theorem Rfid.copied_occupied {dst src : Rfid} (hs : src.Terminated) (ho : src.Occupied) :
    content (dst.copied src).memberId.toList = content src.memberId.toList ∧
      content (dst.copied src).memberName.toList = content src.memberName.toList := by
  have hne : content src.memberId.toList ≠ [] := fun h => ho (by rw [Rfid.id, h]; rfl)
  have hid := hs.id.length_content_lt
  have hname := hs.name.length_content_lt
  rw [Vector.length_toList] at hid hname
  rw [Rfid.copied, if_neg hne]
  exact ⟨content_overlay _ (zero_notMem_content _) hid,
    content_overlay _ (zero_notMem_content _) hname⟩

theorem Rfid.id_copied {dst src : Rfid} (hs : src.Terminated) : (dst.copied src).id = src.id := by
  by_cases ho : src.Occupied
  · rw [Rfid.id, (Rfid.copied_occupied hs ho).1, Rfid.id]
  · have hid := hs.id.length_content_lt
    rw [Vector.length_toList] at hid
    rw [Rfid.copied]
    split
    · rename_i h
      rw [Rfid.id, Rfid.id, h]
      exact congrArg strip (content_overlay dst.memberId (w := []) (by simp) (by decide))
    · rw [Rfid.id, content_overlay _ (zero_notMem_content _) hid, Rfid.id]

theorem shiftLoop_eq {pupa : Pupa} (hp : pupa.Terminated) {left i : Nat}
    (hl : MEMBER ≤ left + i + 1) : shiftLoop left i pupa = .ok (pupa.shifted i) := by
  induction left generalizing pupa i with
  | zero =>
    rw [shiftLoop, Pupa.shifted_last _ (by omega)]
  | succ left ih =>
    by_cases hi : i + 1 < MEMBER
    · have hdst := hp i (by omega)
      have hsrc := hp (i + 1) hi
      have hid := hsrc.id.length_content_lt
      have hname := hsrc.name.length_content_lt
      rw [Vector.length_toList] at hid hname
      have hset : Pupa.Terminated (pupa.set i (pupa[i].copied pupa[i + 1])) := by
        intro j hj
        rw [Vector.getElem_set]
        split
        · exact hsrc.copied _
        · exact hp j hj
      have hrest : Pupa.shifted (pupa.set i (pupa[i].copied pupa[i + 1])) (i + 1) =
          pupa.shifted i := by
        ext1 j hj
        simp only [Pupa.shifted, Vector.getElem_ofFn, Pupa.get_eq, Vector.getElem_set]
        by_cases hij : i = j
        · subst hij
          rw [dif_neg (by omega), if_pos rfl, dif_pos ⟨le_rfl, hi⟩]
        · by_cases hlt : i + 1 ≤ j ∧ j + 1 < MEMBER
          · rw [dif_pos hlt, if_neg hij, if_neg (by omega), dif_pos ⟨by omega, hlt.2⟩]
          · rw [dif_neg hlt, if_neg hij, dif_neg (by omega)]
      have hstep : shiftLoop (left + 1) i pupa =
          shiftLoop left (i + 1) (pupa.set i (pupa[i].copied pupa[i + 1])) := by
        rw [shiftLoop, dif_pos hi, streq_eq hsrc.id (b := [0]) (by decide), ok_bind]
        have hzero : content ([0] : Bytes) = [] := rfl
        rw [hzero, Rfid.copied]
        by_cases hb : content pupa[i + 1].memberId.toList = []
        · rw [if_pos hb, decide_eq_true hb]
          simp only [Bool.not_true, Bool.false_eq_true, if_false]
          rw [strcpy_zero _ (by decide), strcpy_zero _ (by decide)]
          rfl
        · rw [if_neg hb, decide_eq_false hb]
          simp only [Bool.not_false, if_true]
          rw [strcpy_eq pupa[i].memberId hsrc.id hid, strcpy_eq pupa[i].memberName hsrc.name hname]
          rfl
      rw [hstep, ih hset (by omega), hrest]
    · rw [shiftLoop, dif_neg hi, Pupa.shifted_last _ (by omega)]

theorem Pupa.getElem_shifted (pupa : Pupa) {k i : Nat} (hk : k ≤ i) (hi : i + 1 < MEMBER) :
    (pupa.shifted k)[i] = pupa[i].copied pupa[i + 1] := by
  simp only [shifted, Vector.getElem_ofFn]
  rw [dif_pos ⟨hk, hi⟩]
  rfl

theorem Pupa.getElem_shifted_of_not (pupa : Pupa) {k i : Nat} (hi : i < MEMBER)
    (h : ¬ (k ≤ i ∧ i + 1 < MEMBER)) : (pupa.shifted k)[i] = pupa[i] := by
  simp only [shifted, Vector.getElem_ofFn]
  rw [dif_neg h]
  rfl

theorem Pupa.Sound.shifted {pupa : Pupa} (h : pupa.Sound) (k : Nat) : (pupa.shifted k).Sound := by
  intro i hi
  by_cases hk : k ≤ i ∧ i + 1 < MEMBER
  · rw [getElem_shifted pupa hk.1 hk.2]
    exact (h i hi).copied (h (i + 1) hk.2)
  · rw [getElem_shifted_of_not pupa hi hk]
    exact h i hi

/-! ## The write loop -/

/-- The table after `write_file`: the ids are trimmed. -/
def Pupa.written (pupa : Pupa) : Pupa :=
  pupa.map fun r => ⟨trimAt r.memberId 0, r.memberName⟩

/-- What `write_file` prints for a slot, one piece a call. -/
def Rfid.pieces (r : Rfid) : List Bytes :=
  if r.Occupied then [r.id, [32], content r.memberName.toList ++ [13, 10]] else []

/-- What `write_file` prints for a table. -/
def Pupa.pieces (pupa : Pupa) : List Bytes := pupa.toList.flatMap Rfid.pieces

/-- The lines that the pieces of a slot spell. -/
def Rfid.lines (r : Rfid) : List Line :=
  if r.Occupied then .record r.id r.name :: List.replicate r.crs .empty else []

/-- One pass of the write loop. -/
theorem writeLoop_step {pupa : Pupa} (hp : pupa.Terminated) (left : Nat) {i : Nat}
    (hi : i < MEMBER) :
    writeLoop (left + 1) i pupa =
      (writeLoop left (i + 1) (pupa.set i ⟨trimAt pupa[i].memberId 0, pupa[i].memberName⟩)).map
        fun (pupa', calls) => (pupa', pupa[i].pieces.map SdCall.print ++ calls) := by
  have hid := (hp i hi).id
  have hid' : CString.Terminated ((trimAt pupa[i].memberId 0).toList.drop 0) :=
    terminated_trimAt (p := 0) hid
  have hptr := terminated_trimAt_ptr (p := 0) hid
  have hcont : strip (content (trimAt pupa[i].memberId 0).toList) = pupa[i].id :=
    strip_content_trimAt (p := 0) hid
  have hptr' := terminated_trimAt_ptr hid'
  have htwice : trimAt (trimAt pupa[i].memberId 0) 0 = trimAt pupa[i].memberId 0 :=
    trimAt_trimAt (p := 0) hid
  rw [writeLoop, dif_pos hi, trimwhitespace_eq _ 0 hid, ok_bind]
  simp only
  rw [streq_eq hptr (b := [0]) (by decide), content_trimAt_ptr (p := 0) hid, ok_bind]
  by_cases ho : pupa[i].Occupied
  · have hne : decide (strip (content (pupa[i].memberId.toList.drop 0)) = content [0]) = false :=
      decide_eq_false ho
    rw [hne]
    simp only [Bool.false_eq_true, if_false]
    have htext := content_trimAt_ptr hid'
    rw [htwice] at hptr' htext
    rw [trimwhitespace_eq _ 0 hid', ok_bind]
    simp only
    rw [htwice, puts, if_pos hptr', ok_bind, puts, if_pos (hp i hi).name, ok_bind, htext,
      Rfid.pieces, if_pos ho]
    cases writeLoop left (i + 1) (pupa.set i ⟨trimAt pupa[i].memberId 0, pupa[i].memberName⟩) with
    | error e => rfl
    | ok r =>
      have hword : strip (content ((trimAt pupa[i].memberId 0).toList.drop 0)) = pupa[i].id := hcont
      rw [hword]
      rfl
  · have heq : decide (strip (content (pupa[i].memberId.toList.drop 0)) = content [0]) = true :=
      decide_eq_true (not_not.mp ho)
    rw [heq, Rfid.pieces, if_neg ho]
    simp only [if_true, List.map_nil, List.nil_append]
    cases writeLoop left (i + 1) (pupa.set i ⟨trimAt pupa[i].memberId 0, pupa[i].memberName⟩) with
    | error e => rfl
    | ok r => rfl

/-- The table after the write loop from slot `i` on. -/
def Pupa.writtenFrom (pupa : Pupa) (i : Nat) : Pupa :=
  Vector.ofFn fun j => if i ≤ j.val then ⟨trimAt (pupa.get j).memberId 0, (pupa.get j).memberName⟩
    else pupa.get j

theorem Pupa.getElem_writtenFrom (pupa : Pupa) (i : Nat) {j : Nat} (hj : j < MEMBER) :
    (pupa.writtenFrom i)[j] =
      if i ≤ j then ⟨trimAt pupa[j].memberId 0, pupa[j].memberName⟩ else pupa[j] := by
  simp [writtenFrom]

theorem Pupa.writtenFrom_zero (pupa : Pupa) : pupa.writtenFrom 0 = pupa.written := by
  ext1 j hj
  simp [getElem_writtenFrom, written]

theorem Pupa.writtenFrom_set (pupa : Pupa) {i : Nat} (hi : i < MEMBER) :
    Pupa.writtenFrom (pupa.set i ⟨trimAt pupa[i].memberId 0, pupa[i].memberName⟩) (i + 1) =
      pupa.writtenFrom i := by
  ext1 j hj
  rw [getElem_writtenFrom, getElem_writtenFrom, Vector.getElem_set]
  by_cases hij : i = j
  · subst hij
    rw [if_neg (by omega), if_pos rfl, if_pos le_rfl]
  · rw [if_neg hij]
    by_cases hle : i + 1 ≤ j
    · rw [if_pos hle, if_pos (by omega)]
    · rw [if_neg hle, if_neg (by omega)]

theorem Pupa.written_terminated {pupa : Pupa} (hp : pupa.Terminated) {i : Nat} (hi : i < MEMBER) :
    Pupa.Terminated (pupa.set i ⟨trimAt pupa[i].memberId 0, pupa[i].memberName⟩) := by
  intro j hj
  rw [Vector.getElem_set]
  split
  · exact ⟨terminated_trimAt (p := 0) (hp i hi).id, (hp i hi).name⟩
  · exact hp j hj

/-- The write loop from slot `i` on: the ids from there on are trimmed, and the
pieces of these slots are printed. -/
theorem writeLoop_eq {pupa : Pupa} (hp : pupa.Terminated) {left i : Nat} (hl : left + i = MEMBER) :
    writeLoop left i pupa =
      .ok (pupa.writtenFrom i, ((pupa.toList.drop i).flatMap Rfid.pieces).map SdCall.print) := by
  induction left generalizing pupa i with
  | zero =>
    have hnone : pupa.writtenFrom i = pupa := by
      ext1 j hj
      rw [Pupa.getElem_writtenFrom, if_neg (by omega)]
    rw [writeLoop, hnone, List.drop_eq_nil_of_le (by rw [Vector.length_toList]; omega)]
    rfl
  | succ left ih =>
    have hi : i < MEMBER := by omega
    have hdrop : pupa.toList.drop i = pupa[i] :: pupa.toList.drop (i + 1) := by
      rw [List.drop_eq_getElem_cons (by rw [Vector.length_toList]; exact hi), Vector.getElem_toList]
    have hrest : (pupa.set i ⟨trimAt pupa[i].memberId 0, pupa[i].memberName⟩).toList.drop (i + 1) =
        pupa.toList.drop (i + 1) := by
      rw [Vector.toList_set, List.drop_set_of_lt (Nat.lt_succ_self i)]
    rw [writeLoop_step hp left hi, ih (Pupa.written_terminated hp hi) (by omega), hrest, hdrop,
      List.flatMap_cons, List.map_append, Pupa.writtenFrom_set pupa hi]
    rfl

/-- `write_file` prints the pieces of the table between `SD.open` and `close`. -/
theorem writeFile_eq (ok : Bool) {pupa : Pupa} (hp : pupa.Terminated) :
    writeFile ok pupa =
      .ok (pupa.written, .openWrite ok :: (pupa.pieces.map SdCall.print ++ [.close])) := by
  rw [writeFile, writeLoop_eq hp (by rfl), ok_bind, Pupa.writtenFrom_zero]
  rfl

/-- The deletion of a slot: the table and the SD calls. -/
theorem deleteMember_eq (o : SdOutcome) (k : Nat) {pupa : Pupa} (hp : pupa.Sound) :
    deleteMember o k pupa = .ok ((pupa.shifted k).written,
      .remove o.remove :: .openWrite o.writeOpen ::
        ((pupa.shifted k).pieces.map SdCall.print ++ [.close])) := by
  rw [deleteMember, shiftLoop_eq hp.terminated (by omega), ok_bind,
    writeFile_eq _ (hp.shifted k).terminated]
  rfl

theorem Pupa.Sound.written {pupa : Pupa} (h : pupa.Sound) : pupa.written.Sound := by
  intro i hi
  rw [Pupa.written, Vector.getElem_map]
  exact ⟨⟨terminated_trimAt (p := 0) (h i hi).id, (h i hi).name⟩, (h i hi).tidyId.trimAt 0,
    (h i hi).tidyName⟩

theorem Pupa.entry_written {pupa : Pupa} (h : pupa.Terminated) {i : Nat} (hi : i < MEMBER) :
    pupa.written[i].entry = pupa[i].entry := by
  have hid : pupa.written[i].id = pupa[i].id := by
    rw [Pupa.written, Vector.getElem_map]
    exact strip_content_trimAt (p := 0) (h i hi).id
  have hname : pupa.written[i].name = pupa[i].name := by
    rw [Pupa.written, Vector.getElem_map]
    rfl
  rw [Rfid.entry, hid, hname, Rfid.entry]

/-! ## The text that is written -/

private theorem parse_crs (m : Nat) (f : Bytes) :
    parse (List.replicate m 13 ++ f) =
      ⟨List.replicate m .empty ++ (parse f).lines, (parse f).tail⟩ := by
  induction m with
  | zero => rfl
  | succ m ih => rw [List.replicate_succ, List.cons_append, parse_cr, ih]; rfl

/-- The strings of an occupied slot are words, and its name may have CRs behind it. -/
def Rfid.Printable (r : Rfid) : Prop := r.Occupied →
  (∀ c ∈ r.id, isWord c) ∧ (∀ c ∈ r.name, isWord c) ∧
    content r.memberName.toList = r.name ++ List.replicate r.crs 13

theorem Rfid.Sound.printable {r : Rfid} (h : r.Sound) : r.Printable :=
  fun _ => ⟨h.words_id, h.words_name, h.content_name⟩

/-- The pieces of a slot spell its lines. -/
theorem Rfid.Printable.parse_pieces {r : Rfid} (h : r.Printable) (f : Bytes) :
    parse (r.pieces.flatten ++ f) = ⟨r.lines ++ (parse f).lines, (parse f).tail⟩ := by
  rw [Rfid.pieces, Rfid.lines]
  split
  · rename_i ho
    obtain ⟨hid, hname, hcontent⟩ := h ho
    have hbytes : [r.id, [32], content r.memberName.toList ++ [13, 10]].flatten ++ f =
        (Line.record r.id r.name).bytes ++ 13 :: (List.replicate r.crs 13 ++ 10 :: f) := by
      have hcomm : List.replicate r.crs (13 : UInt8) ++ 13 :: 10 :: f =
          13 :: (List.replicate r.crs 13 ++ 10 :: f) := by
        rw [List.append_cons, ← List.replicate_succ', List.replicate_succ, List.cons_append]
      rw [hcontent]
      simpa [Line.bytes, Line.record] using hcomm
    rw [hbytes, parse_line (Line.words_record.mpr ⟨hid, hname⟩), parse_crs, parse_skip (by rfl)]
    rfl
  · rfl

/-- The pieces of a table spell a closed text of plain lines. -/
theorem Pupa.parse_pieces {pupa : Pupa} (h : ∀ i (hi : i < MEMBER), pupa[i].Printable) :
    parse pupa.pieces.flatten = ⟨pupa.toList.flatMap Rfid.lines, .empty⟩ := by
  have hall : ∀ rs : List Rfid, (∀ r ∈ rs, r.Printable) →
      parse (rs.flatMap Rfid.pieces).flatten = ⟨rs.flatMap Rfid.lines, .empty⟩ := by
    intro rs hrs
    induction rs with
    | nil => rfl
    | cons r rs ih =>
      rw [List.flatMap_cons, List.flatten_append, (hrs r (List.mem_cons_self ..)).parse_pieces,
        ih fun x hx => hrs x (List.mem_cons_of_mem _ hx), List.flatMap_cons]
  refine hall _ fun r hr => ?_
  obtain ⟨i, hi, rfl⟩ := List.getElem_of_mem hr
  rw [Vector.getElem_toList]
  exact h i (by simpa using hi)

theorem Pupa.Sound.parse_pieces {pupa : Pupa} (h : pupa.Sound) :
    parse pupa.pieces.flatten = ⟨pupa.toList.flatMap Rfid.lines, .empty⟩ :=
  Pupa.parse_pieces fun i hi => (h i hi).printable

theorem Rfid.plain_lines {r : Rfid} {l : Line} (hl : l ∈ r.lines) : l.Plain := by
  rw [Rfid.lines] at hl
  split at hl
  · rcases List.mem_cons.mp hl with rfl | hl
    · exact Line.plain_record ..
    · rw [(List.mem_replicate.mp hl).2]
      exact Line.plain_empty
  · cases hl

attribute [irreducible] Pupa.shifted Pupa.written

end SmartDoor
