import SmartDoor.Card.Text

/-!
# What `read_file` does to the table

The loop of `read_file` follows the lines of the text: line `i` is placed over
slot `i`, and a slot without a line keeps what it held. The loop stays inside the
arrays exactly when the text fits; otherwise it ends with a write outside them.
-/

namespace SmartDoor

open CString

/-! ## Placing a line over a slot -/

/-- A CR and a NUL written at the indices `k` and `k + 1`. -/
def endAt {n : Nat} (v : Vector UInt8 n) (k : Nat) : Vector UInt8 n :=
  (v.setIfInBounds k 13).setIfInBounds (k + 1) 0

/-- The words after a blank: each blank ends the id at the length of the word
before it, and each word is written over the name. -/
def Rfid.words (r : Rfid) (w : Bytes) : List Bytes → Rfid
  | [] => r
  | v :: more => Rfid.words ⟨endAt r.memberId w.length, overlay r.memberName v⟩ v more

/-- A line over a slot, before its CR is read. -/
def Line.placeOpen (l : Line) (r : Rfid) : Rfid :=
  Rfid.words ⟨overlay r.memberId l.first, r.memberName⟩ l.first l.more

/-- A line over a slot: the CR ends the name at the length of the last word. -/
def Line.place (l : Line) (r : Rfid) : Rfid :=
  ⟨(l.placeOpen r).memberId, endAt (l.placeOpen r).memberName l.last.length⟩

/-- The lines of a text over the slots of a table. -/
def Pupa.layout (pupa : Pupa) (t : Text) : Pupa :=
  Vector.ofFn fun i =>
    match t.lines[i.val]? with
    | some l => l.place (pupa.get i)
    | none => if i.val = t.lines.length then t.tail.placeOpen (pupa.get i) else pupa.get i

@[simp] theorem Rfid.field_withField (r : Rfid) (m : Mode) (v : Vector UInt8 m.size) :
    (r.withField m v).field m = v := by
  cases m <;> rfl

@[simp] theorem Rfid.withField_withField (r : Rfid) (m : Mode) (v v' : Vector UInt8 m.size) :
    (r.withField m v).withField m v' = r.withField m v' := by
  cases m <;> rfl

@[simp] theorem Rfid.withField_field (r : Rfid) (m : Mode) : r.withField m (r.field m) = r := by
  cases m <;> rfl

@[simp] theorem Line.placeOpen_empty (r : Rfid) : Line.empty.placeOpen r = r := by
  simp [Line.placeOpen, Line.empty, Rfid.words]

theorem Pupa.getElem_layout_line {pupa : Pupa} {t : Text} {i : Nat} (hi : i < MEMBER) {l : Line}
    (hl : t.lines[i]? = some l) : (pupa.layout t)[i] = l.place pupa[i] := by
  simp [layout, hl]

/-- A slot beyond the lines of a closed text is not touched. -/
theorem Pupa.getElem_layout_rest {pupa : Pupa} {t : Text} (ht : t.Closed) {i : Nat}
    (hi : i < MEMBER) (hl : t.lines.length ≤ i) : (pupa.layout t)[i] = pupa[i] := by
  have htail : t.tail = Line.empty := ht
  simp [layout, List.getElem?_eq_none hl, htail]

/-! ## The loop on words -/

/-- A write to the slot under the loop. -/
theorem setField_set (m : Mode) {num : Nat} (hn : num < MEMBER) (i : Nat) (c : UInt8)
    (pupa : Pupa) (r : Rfid) :
    setField m num i c (pupa.set num r) =
      (store (r.field m) i c).map fun v => pupa.set num (r.withField m v) := by
  rw [setField, dif_pos hn, Vector.getElem_set_self]
  cases store (r.field m) i c with
  | error e => rfl
  | ok v =>
    change Except.ok ((pupa.set num r).set num (r.withField m v)) = _
    rw [Vector.set_set]
    rfl

theorem setField_outside (m : Mode) {num : Nat} (hn : ¬ num < MEMBER) (i : Nat) (c : UInt8)
    (pupa : Pupa) : setField m num i c pupa = .error .overwrite := dif_neg hn

/-- The two writes that end a field. -/
theorem setField_end (m : Mode) {num : Nat} (hn : num < MEMBER) (i : Nat) (pupa : Pupa)
    (r : Rfid) :
    (setField m num i 13 (pupa.set num r) >>= setField m num (i + 1) 0) =
      if i + 1 < m.size then .ok (pupa.set num (r.withField m (endAt (r.field m) i)))
      else .error .overwrite := by
  rw [setField_set m hn]
  by_cases hi : i < m.size
  · rw [store_of_lt hi]
    change setField m num (i + 1) 0 (pupa.set num (r.withField m ((r.field m).set i 13 hi))) = _
    rw [setField_set m hn, Rfid.field_withField]
    by_cases hi' : i + 1 < m.size
    · have hend : ((r.field m).set i 13 hi).set (i + 1) 0 hi' = endAt (r.field m) i := by
        ext j hj
        simp [endAt, Vector.getElem_set, Vector.getElem_setIfInBounds]
      rw [store_of_lt hi', if_pos hi', hend, Except.map, Rfid.withField_withField]
    · rw [store_of_le (by omega), if_neg hi']
      rfl
  · rw [store_of_le (by omega), if_neg (by omega)]
    rfl

theorem readByte_word {c : UInt8} (hc : isWord c) {num : Nat} (hn : num < MEMBER) (pupa : Pupa)
    (r : Rfid) (i : Nat) (m : Mode) :
    readByte ⟨pupa.set num r, num, i, m⟩ c =
      (store (r.field m) i c).map fun v => ⟨pupa.set num (r.withField m v), num, i + 1, m⟩ := by
  have hne := isWord_ne hc
  rw [readByte, if_neg hne.2.1, if_neg hne.2.2.1, if_pos hc, setField_set m hn]
  cases store (r.field m) i c <;> rfl

/-- The letters of a word go to the field of the mode, one after the other. -/
theorem scan_word {m : Mode} {num : Nat} (hn : num < MEMBER) (pupa : Pupa) (r : Rfid)
    (done : Bytes) {w : Bytes} (hw : ∀ c ∈ w, isWord c) (hdone : done.length ≤ m.size) :
    w.foldlM readByte ⟨pupa.set num (r.withField m (overlay (r.field m) done)), num,
        done.length, m⟩ =
      if done.length + w.length ≤ m.size then
        .ok ⟨pupa.set num (r.withField m (overlay (r.field m) (done ++ w))), num,
          (done ++ w).length, m⟩
      else .error .overwrite := by
  induction w generalizing done with
  | nil => simp [hdone, pure, Except.pure]
  | cons c w ih =>
    rw [List.foldlM_cons, readByte_word (hw c (List.mem_cons_self ..)) hn, Rfid.field_withField]
    by_cases hlt : done.length < m.size
    · rw [store_overlay _ _ _ hlt]
      have hstep := ih (done ++ [c]) (fun d hd => hw d (List.mem_cons_of_mem _ hd))
        (by simpa using Nat.succ_le_of_lt hlt)
      have hlen : (done ++ [c]).length = done.length + 1 := by simp
      rw [hlen, List.append_assoc, List.singleton_append] at hstep
      rw [Except.map, Rfid.withField_withField, ok_bind]
      simpa only [List.length_cons, Nat.add_assoc, Nat.add_comm 1] using hstep
    · rw [store_of_le (by omega), if_neg (by simp only [List.length_cons]; omega)]
      rfl

/-- A word that starts its field. -/
theorem scan_word_start {m : Mode} {num : Nat} (hn : num < MEMBER) (pupa : Pupa) (r : Rfid)
    {w : Bytes} (hw : ∀ c ∈ w, isWord c) :
    w.foldlM readByte ⟨pupa.set num r, num, 0, m⟩ =
      if w.length ≤ m.size then
        .ok ⟨pupa.set num (r.withField m (overlay (r.field m) w)), num, w.length, m⟩
      else .error .overwrite := by
  have hscan := scan_word (m := m) hn pupa r [] hw (Nat.zero_le _)
  simpa using hscan

theorem readByte_blank {num : Nat} (hn : num < MEMBER) (pupa : Pupa) (r : Rfid) (i : Nat)
    (m : Mode) :
    readByte ⟨pupa.set num r, num, i, m⟩ 32 =
      if i ≤ 10 then .ok ⟨pupa.set num ⟨endAt r.memberId i, r.memberName⟩, num, 0, .name⟩
      else .error .overwrite := by
  have hend := setField_end .id hn i pupa r
  rw [readByte, if_neg (by decide), if_pos rfl]
  calc _ = ((setField .id num i 13 (pupa.set num r) >>= setField .id num (i + 1) 0) >>=
        fun pupa => pure (⟨pupa, num, 0, .name⟩ : Scan)) := by
          cases setField .id num i 13 (pupa.set num r) <;> rfl
    _ = _ := by
      rw [hend]
      by_cases hi : i ≤ 10
      · rw [if_pos hi, if_pos (by simp only [Mode.size]; omega)]
        rfl
      · rw [if_neg hi, if_neg (by simp only [Mode.size]; omega)]
        rfl

theorem readByte_cr {num : Nat} (hn : num < MEMBER) (pupa : Pupa) (r : Rfid) (i : Nat)
    (m : Mode) :
    readByte ⟨pupa.set num r, num, i, m⟩ 13 =
      if i ≤ 13 then .ok ⟨pupa.set num ⟨r.memberId, endAt r.memberName i⟩, num + 1, 0, .id⟩
      else .error .overwrite := by
  have hend := setField_end .name hn i pupa r
  rw [readByte, if_pos rfl]
  calc _ = ((setField .name num i 13 (pupa.set num r) >>= setField .name num (i + 1) 0) >>=
        fun pupa => pure (⟨pupa, num + 1, 0, .id⟩ : Scan)) := by
          cases setField .name num i 13 (pupa.set num r) <;> rfl
    _ = _ := by
      rw [hend]
      by_cases hi : i ≤ 13
      · rw [if_pos hi, if_pos (by simp only [Mode.size]; omega)]
        rfl
      · rw [if_neg hi, if_neg (by simp only [Mode.size]; omega)]
        rfl

/-! ## The loop on lines -/

theorem Line.FitsFrom.le {limit : Nat} (hl : 10 ≤ limit) {w : Bytes} {more : List Bytes}
    (h : Line.FitsFrom limit w more) : w.length ≤ limit := by
  cases more with
  | nil => exact h
  | cons v more => exact le_trans h.1 hl

/-- The mode in which a line ends. -/
def Line.mode (more : List Bytes) (m : Mode) : Mode := if more = [] then m else .name

/-- The words after the first one, when `w` was just read in mode `m`. -/
theorem scan_more {num : Nat} (hn : num < MEMBER) (pupa : Pupa) {more : List Bytes} {m : Mode}
    {r : Rfid} {w : Bytes} (hw : ∀ v ∈ more, ∀ c ∈ v, isWord c) (hlen : w.length ≤ m.size) :
    (more.flatMap (32 :: ·)).foldlM readByte ⟨pupa.set num r, num, w.length, m⟩ =
      if Line.FitsFrom m.size w more then
        .ok ⟨pupa.set num (r.words w more), num, (Line.mk w more).last.length, Line.mode more m⟩
      else .error .overwrite := by
  induction more generalizing m r w with
  | nil => simp [Line.FitsFrom, hlen, Rfid.words, Line.mode, pure, Except.pure]
  | cons v more ih =>
    rw [List.flatMap_cons, List.cons_append, List.foldlM_cons, readByte_blank hn]
    by_cases hten : w.length ≤ 10
    · have hv := hw v (List.mem_cons_self ..)
      have hrest : ∀ u ∈ more, ∀ c ∈ u, isWord c := fun u hu => hw u (List.mem_cons_of_mem _ hu)
      rw [if_pos hten, ok_bind, List.foldlM_append, scan_word_start hn _ _ hv]
      by_cases hfit : v.length ≤ Mode.name.size
      · rw [if_pos hfit, ok_bind]
        refine (ih hrest hfit).trans ?_
        rw [Line.last_cons]
        simp only [Line.FitsFrom, hten, true_and, Line.mode, reduceCtorEq, if_false, ite_self]
        rfl
      · have hno : ¬ Line.FitsFrom m.size w (v :: more) := fun h => hfit (h.2.le (by decide))
        rw [if_neg hfit, if_neg hno, error_bind]
    · rw [if_neg hten, if_neg fun h => hten h.1, error_bind]

/-- A line, from the start of its slot to its last word. -/
theorem scan_open {num : Nat} (hn : num < MEMBER) (pupa : Pupa) {l : Line} (hl : l.Words) :
    l.bytes.foldlM readByte ⟨pupa, num, 0, .id⟩ =
      if l.FitsOpen then
        .ok ⟨pupa.set num (l.placeOpen pupa[num]), num, l.last.length, Line.mode l.more .id⟩
      else .error .overwrite := by
  have hstart := scan_word_start (m := .id) hn pupa pupa[num] hl.first
  rw [Vector.set_getElem_self] at hstart
  rw [Line.bytes, List.foldlM_append, hstart]
  by_cases hlen : l.first.length ≤ Mode.id.size
  · rw [if_pos hlen, ok_bind, scan_more hn _ (fun w hw => hl w (List.mem_cons_of_mem _ hw)) hlen]
    rfl
  · rw [if_neg hlen, if_neg fun h => hlen (h.le (by decide)), error_bind]

/-- Beyond the table the first byte of a line is a fault. -/
theorem scan_outside {num : Nat} (hn : ¬ num < MEMBER) (pupa : Pupa) {c : UInt8}
    (hc : isKept c) (i : Nat) (m : Mode) :
    readByte ⟨pupa, num, i, m⟩ c = .error .overwrite := by
  rw [readByte]
  split
  · rw [setField_outside _ hn, error_bind]
  · split
    · rw [setField_outside _ hn, error_bind]
    · have hw : isWord c = true := by simpa [isKept, *] using hc
      rw [if_pos hw, setField_outside _ hn, error_bind]

/-- A line that is not empty starts with a byte that is not skipped. -/
theorem Line.bytes_head {l : Line} (hl : l.Words) (hne : l ≠ Line.empty) :
    ∃ c rest, l.bytes = c :: rest ∧ isKept c := by
  rcases l with ⟨_ | ⟨c, w⟩, more⟩
  · cases more with
    | nil => exact absurd rfl hne
    | cons v more => exact ⟨32, _, rfl, rfl⟩
  · have hc := hl.first c (List.mem_cons_self ..)
    exact ⟨c, _, rfl, by simp [isKept, hc]⟩

/-- A line with its CR goes to its slot, and the next line to the next slot. -/
theorem scan_line {num : Nat} (hn : num < MEMBER) (pupa : Pupa) {l : Line} (hl : l.Words) :
    (l.bytes ++ [13]).foldlM readByte ⟨pupa, num, 0, .id⟩ =
      if l.Fits then .ok ⟨pupa.set num (l.place pupa[num]), num + 1, 0, .id⟩
      else .error .overwrite := by
  rw [List.foldlM_append, scan_open hn _ hl]
  by_cases hopen : l.FitsOpen
  · rw [if_pos hopen, ok_bind, List.foldlM_cons, readByte_cr hn]
    by_cases hlast : l.last.length ≤ 13
    · rw [if_pos hlast, if_pos ⟨hopen, hlast⟩]
      rfl
    · rw [if_neg hlast, if_neg fun h => hlast h.2, error_bind]
  · rw [if_neg hopen, if_neg fun h => hopen h.1, error_bind]

/-- Lines over the slots from `num` on. -/
def Pupa.placeLines (pupa : Pupa) (num : Nat) : List Line → Pupa
  | [] => pupa
  | l :: ls =>
    if h : num < MEMBER then Pupa.placeLines (pupa.set num (l.place pupa[num])) (num + 1) ls
    else pupa

theorem Pupa.getElem_placeLines (pupa : Pupa) (num : Nat) {ls : List Line} {i : Nat}
    (hi : i < MEMBER) : (pupa.placeLines num ls)[i] =
      if num ≤ i then ((ls[i - num]?).map fun l => l.place pupa[i]).getD pupa[i] else pupa[i] := by
  induction ls generalizing pupa num with
  | nil => simp [placeLines]
  | cons l ls ih =>
    rw [placeLines]
    split
    · rw [ih, Vector.getElem_set]
      by_cases hlt : num < i
      · have hne : num ≠ i := hlt.ne
        rw [if_pos (Nat.succ_le_of_lt hlt), if_pos hlt.le, if_neg hne, List.getElem?_cons,
          if_neg (by omega), Nat.sub_sub]
      · by_cases heq : num = i
        · subst heq
          simp
        · rw [if_neg (by omega), if_neg (by omega), if_neg (by omega)]
    · rw [if_neg (by omega)]

theorem scan_lines {num : Nat} (hn : num ≤ MEMBER) (pupa : Pupa) {ls : List Line}
    (hl : ∀ l ∈ ls, l.Words) :
    (ls.flatMap fun l => l.bytes ++ [13]).foldlM readByte ⟨pupa, num, 0, .id⟩ =
      if num + ls.length ≤ MEMBER ∧ ∀ l ∈ ls, l.Fits then
        .ok ⟨pupa.placeLines num ls, num + ls.length, 0, .id⟩
      else .error .overwrite := by
  induction ls generalizing num pupa with
  | nil => simp [hn, Pupa.placeLines, pure, Except.pure]
  | cons l ls ih =>
    rw [List.flatMap_cons, List.foldlM_append]
    by_cases hlt : num < MEMBER
    · rw [scan_line hlt _ (hl l (List.mem_cons_self ..))]
      by_cases hfit : l.Fits
      · have hcount : num + 1 + ls.length = num + (ls.length + 1) := by omega
        rw [if_pos hfit, ok_bind, ih (Nat.succ_le_of_lt hlt) _ fun l hm =>
          hl l (List.mem_cons_of_mem _ hm), Pupa.placeLines, dif_pos hlt]
        simp only [List.length_cons, List.forall_mem_cons, hfit, true_and, Nat.succ_eq_add_one,
          hcount]
      · rw [if_neg hfit, if_neg fun h => hfit (h.2 l (List.mem_cons_self ..)), error_bind]
    · have hno : ¬ (num + (l :: ls).length ≤ MEMBER ∧ ∀ m ∈ l :: ls, m.Fits) := fun h => by
        have := h.1
        simp only [List.length_cons] at this
        omega
      -- the CR of the line, if not its first word, is past the last slot
      obtain ⟨c, rest, hbytes, hc⟩ : ∃ c rest, l.bytes ++ [13] = c :: rest ∧ isKept c := by
        by_cases hl0 : l = Line.empty
        · exact ⟨13, [], by rw [hl0]; rfl, rfl⟩
        · obtain ⟨c, rest, hbytes, hc⟩ := Line.bytes_head (hl l (List.mem_cons_self ..)) hl0
          exact ⟨c, rest ++ [13], by rw [hbytes]; rfl, hc⟩
      rw [if_neg hno, hbytes, List.foldlM_cons, scan_outside hlt _ hc, error_bind, error_bind]

/-! ## The whole file -/

theorem readByte_skip {c : UInt8} (hc : isKept c = false) (s : Scan) : readByte s c = .ok s := by
  simp only [isKept, decide_eq_false_iff_not, not_or, Bool.not_eq_true] at hc
  rw [readByte, if_neg hc.1, if_neg hc.2.1, hc.2.2]
  rfl

/-- The loop sees the kept bytes only. -/
theorem scan_filter (s : Scan) (f : Bytes) :
    (f.filter isKept).foldlM readByte s = f.foldlM readByte s := by
  induction f generalizing s with
  | nil => rfl
  | cons c f ih =>
    by_cases hc : isKept c = true
    · rw [List.filter_cons_of_pos hc, List.foldlM_cons, List.foldlM_cons]
      exact bind_congr fun s => ih s
    · rw [List.filter_cons_of_neg hc, List.foldlM_cons,
        readByte_skip (Bool.not_eq_true _ ▸ hc), ok_bind, ih]

theorem Pupa.layout_eq (pupa : Pupa) (t : Text) (h : t.lines.length < MEMBER) :
    pupa.layout t = (pupa.placeLines 0 t.lines).set t.lines.length
      (t.tail.placeOpen (pupa.placeLines 0 t.lines)[t.lines.length]) := by
  ext1 i hi
  rw [Vector.getElem_set, getElem_placeLines, getElem_placeLines]
  simp only [layout, Vector.getElem_ofFn, Nat.zero_le, if_true, Nat.sub_zero]
  by_cases heq : t.lines.length = i
  · subst heq
    simp
  · rw [if_neg heq, if_neg (Ne.symm heq)]
    cases t.lines[i]? <;> rfl

theorem Pupa.layout_closed (pupa : Pupa) {t : Text} (h : t.Closed) :
    pupa.layout t = pupa.placeLines 0 t.lines := by
  have htail : t.tail = Line.empty := h
  ext1 i hi
  rw [getElem_placeLines]
  simp only [layout, Vector.getElem_ofFn, Nat.zero_le, if_true, Nat.sub_zero, htail,
    Line.placeOpen_empty, ite_self]
  cases t.lines[i]? <;> rfl

/-- What follows the last CR is placed over the slot behind the lines. -/
theorem Pupa.layout_open (pupa : Pupa) {t : Text} (h : t.lines.length < MEMBER) :
    pupa.layout t = (pupa.layout ⟨t.lines, .empty⟩).set t.lines.length
      (t.tail.placeOpen pupa[t.lines.length]) := by
  have hslot : (pupa.placeLines 0 t.lines)[t.lines.length] = pupa[t.lines.length] := by
    simp [getElem_placeLines]
  rw [layout_eq pupa t h, hslot, layout_closed pupa (Text.closed_mk t.lines)]

/-- The loop of `read_file` on a whole text. -/
theorem scan_text (pupa : Pupa) {t : Text} (hl : ∀ l ∈ t.lines, l.Words) (ht : t.tail.Words) :
    (t.bytes.foldlM readByte ⟨pupa, 0, 0, .id⟩).map Scan.pupa =
      if t.Fits then .ok (pupa.layout t) else .error .overwrite := by
  rw [Text.bytes, List.foldlM_append, scan_lines (Nat.zero_le _) _ hl, Nat.zero_add]
  by_cases hlines : t.lines.length ≤ MEMBER ∧ ∀ l ∈ t.lines, l.Fits
  · rw [if_pos hlines, ok_bind]
    by_cases hclosed : t.tail = Line.empty
    · rw [if_pos (Text.Closed.fits hclosed |>.mpr hlines), Pupa.layout_closed _ hclosed, hclosed]
      rfl
    · by_cases hroom : t.lines.length < MEMBER
      · rw [scan_open hroom _ ht]
        by_cases hopen : t.tail.FitsOpen
        · rw [if_pos hopen, if_pos ⟨hlines.1, hlines.2, Or.inr hroom, hopen⟩,
            Pupa.layout_eq _ _ hroom]
          rfl
        · rw [if_neg hopen, if_neg fun h => hopen h.tail]
          rfl
      · obtain ⟨c, rest, hbytes, hc⟩ := Line.bytes_head ht hclosed
        have hno : ¬ t.Fits := fun h => h.room.elim hclosed hroom
        rw [if_neg hno, hbytes, List.foldlM_cons, scan_outside hroom _ hc, error_bind]
        rfl
  · rw [if_neg hlines, if_neg fun h => hlines ⟨h.count, h.lines⟩]
    rfl

/-- `read_file` lays the text over the table if it fits, and otherwise writes
outside the arrays. -/
theorem readFile_eq (pupa : Pupa) (f : Bytes) :
    readFile pupa f = if (parse f).Fits then
        (listing (pupa.layout (parse f))).map fun _ => pupa.layout (parse f)
      else .error .overwrite := by
  have hscan := scan_text pupa (parse_words f).1 (parse_words f).2
  rw [bytes_parse, scan_filter] at hscan
  rw [readFile]
  by_cases hfit : (parse f).Fits
  · rw [if_pos hfit] at hscan ⊢
    cases hf : f.foldlM readByte ⟨pupa, 0, 0, .id⟩ with
    | error e =>
      rw [hf] at hscan
      cases hscan
    | ok s =>
      rw [hf] at hscan
      have hs : s.pupa = pupa.layout (parse f) := Except.ok.inj hscan
      rw [ok_bind, hs]
      cases listing (pupa.layout (parse f)) <;> rfl
  · rw [if_neg hfit] at hscan ⊢
    cases hf : f.foldlM readByte ⟨pupa, 0, 0, .id⟩ with
    | error e =>
      rw [hf] at hscan
      exact hscan
    | ok s =>
      rw [hf] at hscan
      cases hscan

attribute [irreducible] Pupa.layout

end SmartDoor
