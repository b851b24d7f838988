import SmartDoor.Access.Authorisation
import SmartDoor.Server.Protocol

/-!
# Enrolling a card

`add_member` appends its argument to the file and reads the file again, over the table
that is there. The lines of the members that were enrolled before leave their slots as
they are. The argument itself need not be one line of two words: the name can contain
blanks, which cut the id, and CRs, which start further lines. The card is enrolled
exactly when one of the lines that the argument spells supplies its id, and the others
supply none.
-/

namespace SmartDoor

open CString

/-! ## Lines that are read again -/

/-- Writing what is there changes nothing. -/
theorem overlay_of_prefix {n : Nat} {v : Vector UInt8 n} {w : Bytes} (h : w <+: v.toList) :
    overlay v w = v := by
  ext1 i hi
  rw [getElem_overlay]
  by_cases hlt : i < w.length
  · rw [List.getElem?_eq_getElem hlt, Option.getD_some, h.getElem hlt, Vector.getElem_toList]
  · rw [List.getElem?_eq_none (by omega), Option.getD_none]

/-- A word over a field of zeros. -/
theorem content_overlay_zero {n : Nat} {w : Bytes} (hw : ∀ c ∈ w, isWord c) (hlen : w.length < n) :
    content (overlay (Vector.replicate n (0 : UInt8)) w).toList = w := by
  obtain ⟨k, hk⟩ : ∃ k, n - w.length = k + 1 := ⟨n - w.length - 1, by omega⟩
  rw [toList_overlay _ _ hlen.le, Vector.toList_replicate, List.drop_replicate, hk,
    List.replicate_succ]
  exact content_append_zero (zero_notMem_words hw)

/-- A word alone over a slot. -/
theorem Line.place_lone (w : Bytes) (r : Rfid) :
    (Line.mk w []).place r = ⟨overlay r.memberId w, endAt r.memberName w.length⟩ := rfl

theorem Rfid.entry_mk (id : Vector UInt8 12) (name : Vector UInt8 15) :
    (Rfid.mk id name).entry = (strip (content id.toList), strip (content name.toList)) := rfl

theorem Rfid.id_zero : Rfid.zero.id = [] := by decide +kernel

theorem Rfid.name_zero : Rfid.zero.name = [] := by decide +kernel

/-- A line that is read again over the entry that it has made keeps the entry. -/
theorem Line.place_again {l : Line} (hl : l.Words) (hf : l.Fits) {r : Rfid} (hr : r.Sound)
    (hzero : CString.Terminated (l.place Rfid.zero).memberId.toList)
    (he : (l.place Rfid.zero).entry = r.entry) :
    CString.Terminated (l.place r).memberId.toList ∧ (l.place r).entry = r.entry := by
  by_cases hp : l.Plain
  · obtain ⟨hs, hentry⟩ := hp.place hl hf hr
    obtain ⟨-, hentry'⟩ := hp.place hl hf Rfid.sound_zero
    have henter : ∀ e, l.enter (l.enter e) = l.enter e := fun e => by
      rw [Line.enter]
      split
      · rename_i hempty
        rw [hempty]
        rfl
      · rename_i hempty
        rw [Line.enter, if_neg hempty]
    refine ⟨hs.id, ?_⟩
    rw [hentry, ← he, hentry', henter]
  · obtain ⟨w, more⟩ := l
    obtain ⟨-, hmore⟩ := not_or.mp hp
    obtain rfl : more = [] := not_not.mp hmore
    have hlen : w.length + 1 < 15 := by
      have hlast : w.length ≤ 13 := hf.2
      omega
    rw [Line.place_lone] at hzero he ⊢
    rw [Rfid.entry_mk, Rfid.entry] at he
    obtain ⟨hid, hblank⟩ := Prod.mk.inj he
    have hw : w.length < 12 := by
      by_contra hfull
      have htwelve : w.length = 12 := by
        have hopen : w.length ≤ 12 := hf.1
        omega
      rw [toList_overlay _ _ htwelve.le, List.drop_of_length_le (by simp [htwelve]),
        List.append_nil] at hzero
      exact zero_notMem_words hl.first hzero
    have hname : ∀ {s : Rfid}, s.Sound →
        strip (content (endAt s.memberName w.length).toList) = s.name.take w.length :=
      fun hs => strip_endAt hs.tidyName hs.name hlen
    rw [hname Rfid.sound_zero, Rfid.name_zero, List.take_nil] at hblank
    rw [Rfid.zero, content_overlay_zero hl.first hw, strip_words hl.first] at hid
    have hover : overlay r.memberId w = r.memberId := by
      apply overlay_of_prefix
      have hcont : content r.memberId.toList = r.id ++ _ := hr.tidyId.eq_word.1
      rw [← hid] at hcont
      have hpre : content r.memberId.toList <+: r.memberId.toList := List.takeWhile_prefix _
      rw [hcont] at hpre
      exact (List.prefix_append _ _).trans hpre
    rw [hover]
    refine ⟨hr.id, ?_⟩
    rw [Rfid.entry_mk, hname hr, ← hblank, List.take_nil, Rfid.entry, ← hblank]
    rfl

/-! ## New lines -/

/-- The line leaves this id in a slot whose id array is `v`, as a string: a line with a blank
leaves its own, and a word alone is written over what the array holds. -/
def Line.Leaves (l : Line) (v : Vector UInt8 12) (id : Bytes) : Prop :=
  if l.more = [] then
    Terminated (overlay v l.first).toList ∧ strip (content (overlay v l.first).toList) = id
  else l.id = id

instance (l : Line) (v : Vector UInt8 12) (id : Bytes) : Decidable (l.Leaves v id) :=
  inferInstanceAs (Decidable (ite ..))

theorem Line.leaves_iff {l : Line} (hl : l.Words) (hf : l.Fits) {r : Rfid} (hr : r.Sound)
    {id : Bytes} : l.Leaves r.memberId id ↔
      CString.Terminated (l.place r).memberId.toList ∧ (l.place r).id = id := by
  rw [Leaves]
  split
  · rename_i hmore
    obtain ⟨w, more⟩ := l
    obtain rfl : more = [] := hmore
    exact Iff.rfl
  · rename_i hmore
    obtain ⟨hs, hid, -⟩ := Line.place_spaced hl hf hmore hr.tidyId hr.tidyName
    rw [hid]
    exact ⟨fun h => ⟨hs.id, h⟩, fun h => h.2⟩

/-! ## States and outcomes -/

/-- A sound store whose table is, slot by slot, what a zeroed table holds after
`read_file`. -/
structure Store.Mirrors (s : Store) : Prop extends s.Sound where
  equal : ∃ read, readFile Pupa.zero s.card.text = .ok read ∧
    ∀ i (h : i < MEMBER), read[i].entry = s.pupa[i].entry

/-- From table to table, exactly one entry is new, it has this id, and all others are kept. -/
structure Pupa.Gains (pupa pupa' : Pupa) (id : Bytes) : Prop where
  new : ∃ k : Fin MEMBER, ¬ (pupa.get k).Occupied ∧ (pupa'.get k).Occupied ∧
    (pupa'.get k).id = id ∧
    ∀ i : Fin MEMBER, i ≠ k → ¬ (pupa.get i).Occupied → ¬ (pupa'.get i).Occupied
  kept : ∀ i : Fin MEMBER, (pupa.get i).Occupied → (pupa'.get i).entry = (pupa.get i).entry

/-- A whole frame with this code and the right checksum opens the door. -/
def Store.Opens (s : Store) (id : Bytes) : Prop :=
  ∀ (world : World) (junk : Junk) (sketch : Sketch) (frame : Vector UInt8 12) (rest : Bytes),
    sketch.store = s → sketch.serial1.buffer = 0x02 :: (frame.toList ++ 0x03 :: rest) →
    (∀ c ∈ frame.toList, isHex c) → frame.toList.take 10 = id → validTag junk frame →
    ∃ t fx, sketch.serialEvent1 world junk = .ok t ∧ t.trace = sketch.trace ++ fx ∧
      Effect.digitalWrite DOOR true ∈ fx

/-- The lines that `add_member` appends for an argument. -/
def addedLines (arg : Bytes) : List Line := (parse (arg ++ [13, 10])).lines

/-- There is room for the lines of the argument, one of them leaves the id in its slot, and
the others leave none. -/
def Store.Admits (s : Store) (id arg : Bytes) : Prop :=
  (parse s.card.text).lines.length + (addedLines arg).length ≤ MEMBER ∧
    (∀ l ∈ addedLines arg, l.Fits) ∧
    ∃ k : Fin (addedLines arg).length, ∀ i : Fin (addedLines arg).length,
      ∀ h : (parse s.card.text).lines.length + i.val < MEMBER,
        ((addedLines arg).get i).Leaves (s.pupa.get ⟨_, h⟩).memberId (if i = k then id else [])

instance (s : Store) (id arg : Bytes) : Decidable (s.Admits id arg) :=
  inferInstanceAs (Decidable (_ ∧ _ ∧ _))

/-! ## Reading the file with the new lines -/

theorem closed_added (arg : Bytes) : (parse (arg ++ [13, 10])).Closed := closed_println arg

/-- The text after the addition. -/
theorem Store.Sound.parse_added {s : Store} (h : s.Sound) (arg : Bytes) :
    parse (s.card.text ++ (arg ++ [13, 10])) =
      ⟨(parse s.card.text).lines ++ addedLines arg, .empty⟩ := by
  rw [parse_append h.file, Text.append, addedLines]
  congr 1
  exact closed_added arg

section Mirrors

variable {s : Store} (h : s.Mirrors)

include h

/-- What the lines of the file are, over a zeroed table and over the table that is there. -/
theorem Store.Mirrors.line {i : Nat} (hi : i < (parse s.card.text).lines.length)
    (hi' : i < MEMBER) :
    (parse s.card.text).lines[i].Fits ∧
      CString.Terminated ((parse s.card.text).lines[i].place s.pupa[i]).memberId.toList ∧
      ((parse s.card.text).lines[i].place s.pupa[i]).entry = s.pupa[i].entry := by
  obtain ⟨read, hread, hequal⟩ := h.equal
  obtain ⟨hfits, rfl, hsound⟩ := Pupa.sound_zero.of_readFile h.file hread
  have hmem := List.getElem_mem hi
  have hget : (Pupa.zero.layout (parse s.card.text))[i] =
      (parse s.card.text).lines[i].place Rfid.zero := by
    rw [Pupa.getElem_layout_line hi' (List.getElem?_eq_getElem hi), Pupa.zero,
      Vector.getElem_replicate]
  have hid := (hsound i hi').id
  have hentry := hequal i hi'
  rw [hget] at hid hentry
  exact ⟨hfits.lines _ hmem, Line.place_again ((parse_words _).1 _ hmem) (hfits.lines _ hmem)
    (h.pupa i hi') hid hentry⟩

/-- Behind the lines of the file the table is empty. -/
theorem Store.Mirrors.rest {i : Nat} (hi : (parse s.card.text).lines.length ≤ i)
    (hi' : i < MEMBER) : s.pupa[i].id = [] := by
  obtain ⟨read, hread, hequal⟩ := h.equal
  obtain ⟨-, rfl, -⟩ := Pupa.sound_zero.of_readFile h.file hread
  have hentry := hequal i hi'
  rw [Pupa.getElem_layout_rest h.file hi' hi, Pupa.zero, Vector.getElem_replicate] at hentry
  have hid : Rfid.zero.id = s.pupa[i].id := congrArg Prod.fst hentry
  rw [← hid, Rfid.id_zero]

/-- The table that reads the file with the argument appended. -/
def Store.reread (s : Store) (arg : Bytes) : Pupa :=
  s.pupa.layout (parse (s.card.text ++ (arg ++ [13, 10])))

/-- The slots after the file was read again: an old slot has its old entry, a new line is
placed, and the others are as before. -/
theorem Store.Mirrors.slot (arg : Bytes) {i : Nat} (hi : i < MEMBER) :
    (i < (parse s.card.text).lines.length ∧ (s.reread arg)[i].Terminated ∧
        (s.reread arg)[i].entry = s.pupa[i].entry) ∨
      (∃ j : Fin (addedLines arg).length, i = (parse s.card.text).lines.length + j.val ∧
        (s.reread arg)[i] = ((addedLines arg).get j).place s.pupa[i]) ∨
      ((parse s.card.text).lines.length + (addedLines arg).length ≤ i ∧
        (s.reread arg)[i] = s.pupa[i]) := by
  rw [Store.reread, h.toSound.parse_added arg]
  by_cases hold : i < (parse s.card.text).lines.length
  · obtain ⟨hfits, hterm, hentry⟩ := h.line hold hi
    rw [Pupa.getElem_layout_line hi (l := (parse s.card.text).lines[i])
      (by simp [List.getElem?_append_left hold])]
    exact Or.inl ⟨hold, ⟨hterm, Line.terminated_place hfits _⟩, hentry⟩
  · by_cases hnew : i < (parse s.card.text).lines.length + (addedLines arg).length
    · have hj : i - (parse s.card.text).lines.length < (addedLines arg).length := by omega
      refine Or.inr (Or.inl ⟨⟨_, hj⟩, by simp only; omega, ?_⟩)
      rw [Pupa.getElem_layout_line hi
        (l := (addedLines arg)[i - (parse s.card.text).lines.length])
        (by simp [List.getElem?_append_right (not_lt.mp hold), hj])]
      rfl
    · refine Or.inr (Or.inr ⟨not_lt.mp hnew, ?_⟩)
      rw [Pupa.getElem_layout_rest (Text.closed_mk _) hi]
      simpa using hnew

/-- What a new line makes of its slot. -/
theorem Store.Mirrors.leaves_iff {arg : Bytes} (hfits : ∀ l ∈ addedLines arg, l.Fits)
    (j : Fin (addedLines arg).length) {i : Nat} (hi : i < MEMBER) {id : Bytes} :
    ((addedLines arg).get j).Leaves s.pupa[i].memberId id ↔
      CString.Terminated (((addedLines arg).get j).place s.pupa[i]).memberId.toList ∧
        (((addedLines arg).get j).place s.pupa[i]).id = id := by
  have hmem : (addedLines arg).get j ∈ addedLines arg := List.get_mem _ j
  exact Line.leaves_iff ((parse_words _).1 _ hmem) (hfits _ hmem) (h.pupa i hi)

/-- When the file is read again and exactly one entry is new, the lines are as the condition
says. -/
theorem Store.Mirrors.admits {id arg : Bytes} (hid : id ≠ []) {pupa : Pupa}
    (hread : readFile s.pupa (s.card.text ++ (arg ++ [13, 10])) = .ok pupa)
    (hgains : s.pupa.Gains pupa id) : s.Admits id arg := by
  have hclosed : (parse (s.card.text ++ (arg ++ [13, 10]))).Closed :=
    closed_append h.file (closed_added arg)
  obtain ⟨hfit, rfl, hsound⟩ := h.pupa.of_readFile hclosed hread
  have hcount := hfit.count
  have hlines := hfit.lines
  rw [h.toSound.parse_added arg] at hcount hlines
  rw [List.length_append] at hcount
  have hfits : ∀ l ∈ addedLines arg, l.Fits := fun l hl => hlines l (List.mem_append_right _ hl)
  obtain ⟨k, hfree, hocc, hkid, hothers⟩ := hgains.new
  have hplaced : ∀ (j : Fin (addedLines arg).length)
      (hj : (parse s.card.text).lines.length + j.val < MEMBER),
      (s.reread arg)[(parse s.card.text).lines.length + j.val] =
        ((addedLines arg).get j).place s.pupa[(parse s.card.text).lines.length + j.val] := by
    intro j hj
    rw [Store.reread, h.toSound.parse_added arg,
      Pupa.getElem_layout_line hj (l := (addedLines arg).get j)
        (by simp)]
  obtain ⟨j, hkj⟩ : ∃ j : Fin (addedLines arg).length,
      k.val = (parse s.card.text).lines.length + j.val := by
    rcases h.slot arg k.isLt with ⟨-, -, hentry⟩ | ⟨j, hj, -⟩ | ⟨-, hsame⟩
    · exact absurd ((congrArg Prod.fst hentry).symm.trans hkid)
        fun he => hfree fun hnil => hid (he.symm.trans hnil)
    · exact ⟨j, hj⟩
    · refine absurd hocc ?_
      have hget : (s.reread arg).get k = s.pupa.get k := hsame
      have hlayout : s.reread arg = s.pupa.layout (parse (s.card.text ++ (arg ++ [13, 10]))) := rfl
      rwa [← hlayout, hget]
  refine ⟨hcount, hfits, j, fun i hi => ?_⟩
  have hterm : CString.Terminated
      (s.reread arg)[(parse s.card.text).lines.length + i.val].memberId.toList := (hsound _ hi).id
  rw [hplaced i hi] at hterm
  refine (h.leaves_iff hfits i hi).mpr ⟨hterm, ?_⟩
  rw [← hplaced i hi]
  by_cases hij : i = j
  · subst hij
    rw [if_pos rfl, ← hkid]
    have hfin : k = ⟨_, hi⟩ := Fin.ext hkj
    rw [hfin]
    rfl
  · rw [if_neg hij]
    have hne : (⟨_, hi⟩ : Fin MEMBER) ≠ k := fun he => hij (Fin.ext (by
      have := congrArg Fin.val he
      simp only at this
      omega))
    exact not_not.mp (hothers ⟨_, hi⟩ hne
      (not_not.mpr (h.rest (Nat.le_add_right _ _) hi)))

/-- Under the condition the file is read again, and exactly one entry is new. -/
theorem Store.Mirrors.gains {id arg : Bytes} (hid : id ≠ []) (hadmits : s.Admits id arg) :
    readFile s.pupa (s.card.text ++ (arg ++ [13, 10])) = .ok (s.reread arg) ∧
      (s.reread arg).Terminated ∧ s.pupa.Gains (s.reread arg) id := by
  obtain ⟨hcount, hfits, k, hleaves⟩ := hadmits
  have hnew : ∀ j : Fin (addedLines arg).length, ∀ {i : Nat} (hi : i < MEMBER),
      i = (parse s.card.text).lines.length + j.val →
      (s.reread arg)[i] = ((addedLines arg).get j).place s.pupa[i] →
      (s.reread arg)[i].Terminated ∧ (s.reread arg)[i].id = if j = k then id else [] := by
    rintro j i hi rfl hplace
    obtain ⟨hterm, hjd⟩ := (h.leaves_iff hfits j hi).mp (hleaves j hi)
    rw [hplace]
    exact ⟨⟨hterm, Line.terminated_place (hfits _ (List.get_mem _ j)) _⟩, hjd⟩
  have hterm : (s.reread arg).Terminated := fun i hi => by
    rcases h.slot arg hi with ⟨-, hterm, -⟩ | ⟨j, hj, hplace⟩ | ⟨-, hsame⟩
    · exact hterm
    · exact (hnew j hi hj hplace).1
    · rw [hsame]
      exact (h.pupa i hi).toTerminated
  have hfit : (parse (s.card.text ++ (arg ++ [13, 10]))).Fits := by
    rw [h.toSound.parse_added arg, (Text.closed_mk _).fits]
    refine ⟨by simpa using hcount, fun l hl => ?_⟩
    rcases List.mem_append.mp hl with hl | hl
    · obtain ⟨i, hi, rfl⟩ := List.getElem_of_mem hl
      exact (h.line hi (by omega)).1
    · exact hfits l hl
  obtain ⟨lines, hlisting⟩ := listing_of_terminated hterm
  refine ⟨?_, hterm, ?_, fun i hocc => ?_⟩
  · rw [readFile_eq, if_pos hfit]
    change (listing (s.reread arg)).map _ = _
    rw [hlisting]
    rfl
  · have hk : (parse s.card.text).lines.length + k.val < MEMBER := by
      have := k.isLt
      omega
    have hkid : ((s.reread arg).get ⟨_, hk⟩).id = id := by
      rcases h.slot arg hk with ⟨hlt, -⟩ | ⟨j, hj, hplace⟩ | ⟨hle, hsame⟩
      · omega
      · obtain rfl : j = k := Fin.ext (by omega)
        have hjd := (hnew j hk hj hplace).2
        rwa [if_pos rfl] at hjd
      · omega
    refine ⟨⟨_, hk⟩, not_not.mpr (h.rest (Nat.le_add_right _ _) hk), ?_, hkid,
      fun i hik hfree => ?_⟩
    · rw [Rfid.Occupied, hkid]
      exact hid
    · rcases h.slot arg i.isLt with ⟨-, -, hentry⟩ | ⟨j, hj, hplace⟩ | ⟨-, hsame⟩
      · have hsame : ((s.reread arg).get i).id = (s.pupa.get i).id := congrArg Prod.fst hentry
        rwa [Rfid.Occupied, hsame]
      · have hjk : j ≠ k := fun he => hik (Fin.ext (by rw [hj, he]))
        have hjd := (hnew j i.isLt hj hplace).2
        rw [if_neg hjk] at hjd
        exact not_not.mpr hjd
      · have hget : (s.reread arg).get i = s.pupa.get i := hsame
        rwa [hget]
  · rcases h.slot arg i.isLt with ⟨-, -, hentry⟩ | ⟨j, hj, -⟩ | ⟨-, hsame⟩
    · exact hentry
    · exact absurd (h.rest (by omega) i.isLt) hocc
    · exact congrArg Rfid.entry hsame

end Mirrors

/-! ## From the command line to the door -/

/-- A name that the command can be given: up to thirteen bytes without a newline or a NUL,
without white space at its ends. -/
structure Nameable (name : Bytes) : Prop where
  pos : name ≠ []
  length : name.length ≤ 13
  newline : 10 ∉ name
  nul : 0 ∉ name
  first : ∀ c ∈ name.head?, isspace c = false
  last : ∀ c ∈ name.getLast?, isspace c = false

/-- A word without white space at its ends is its own trimmed part. -/
theorem strip_of_ends {w : Bytes} (hfirst : ∀ c ∈ w.head?, isspace c = false)
    (hlast : ∀ c ∈ w.getLast?, isspace c = false) : strip w = w := by
  have hl : w.dropWhile isspace = w := by
    cases w with
    | nil => rfl
    | cons c w => exact List.dropWhile_cons_of_neg (by simp [hfirst c rfl])
  rw [strip, trim, hl, List.rdropWhile_eq_self_iff]
  intro hne
  simp [hlast _ (List.getLast?_eq_some_getLast hne)]

/-- The command line of an enrolment asks for `add_member`. -/
theorem dispatch_add (id : Bytes) {name : Bytes} (hname : Nameable name) :
    dispatch (strip (50 :: 95 :: (id ++ 32 :: name))) = .addMember (id ++ 32 :: name) := by
  have hsplit : 50 :: 95 :: (id ++ 32 :: name) = (50 :: 95 :: (id ++ [32])) ++ name := by simp
  have hlast : (50 :: 95 :: (id ++ 32 :: name)).getLast? = name.getLast? := by
    rw [hsplit, List.getLast?_append_of_ne_nil _ hname.pos]
  rw [strip_of_ends (by simp; decide) (by rw [hlast]; exact hname.last)]
  rfl

/-- The command of an enrolment, in any buffer: the argument is appended to the file, and the
file is read again. -/
theorem runCommand_add {s : Store} (hs : s.Sound) (board : Board) {command : Vector UInt8 256}
    (hterm : Terminated command.toList) {id name : Bytes} (hten : id.length = 10)
    (hname : Nameable name)
    (hline : content command.toList = 50 :: 95 :: (id ++ 32 :: name)) :
    ∃ mem, runCommand .success command s board =
      (readFile s.pupa (s.card.text ++ (id ++ 32 :: name ++ [13, 10]))).map fun pupa =>
        (mem, ⟨pupa, (s.card.added .success (id ++ 32 :: name)).processed⟩, board,
          [.reply .addSuccess, .reply (.adding (strip (id ++ 32 :: name)))]) := by
  obtain ⟨op, hselect, hop, hargs⟩ := selectCommand_eq 0 hterm
  rw [hline, dispatch_add id hname] at hop
  have hfirst : ((content command.toList).takeWhile isspace).length + 1 < 256 := by
    rw [hline, List.takeWhile_cons_of_neg (by decide)]
    decide
  rw [runCommand_eq 0 .success hterm hfirst, hselect, ok_bind]
  cases op with
  | addMember str =>
    have hcont : content ((trimAt command 0).toList.drop str) = id ++ 32 :: name :=
      Operation.addMember.inj hop
    have hfull : content (id ++ 32 :: name) = id ++ 32 :: name := by rw [← hcont, content_content]
    refine ⟨trimAt (trimAt command 0) str, ?_⟩
    simp only [Operation.run]
    rw [addMember_eq .success (hargs str rfl) hcont hs.pupa,
      if_pos (by rw [List.length_append, hten]; omega), Card.text_added, hfull]
    cases readFile s.pupa (s.card.text ++ (id ++ 32 :: name ++ [13, 10])) <;> rfl
  | _ => cases hop

/-- A card in the table opens the door. -/
theorem Store.opens_of_gains {s : Store} (ht : s.pupa.Terminated) {pupa : Pupa} {id : Bytes}
    (h : pupa.Gains s.pupa id) : s.Opens id := by
  intro world junk sketch frame rest hstore hbuf hhex hcode hvalid
  subst hstore
  obtain ⟨t, fx, hok, htrace, hiff⟩ := sketch.serialEvent1_valid world junk ht hbuf hhex hvalid
  obtain ⟨k, -, hocc, hid, -⟩ := h.new
  refine ⟨t, fx, hok, htrace, hiff.mpr (Pupa.isSome_lookup.mpr (Or.inl ⟨k, hocc, ?_⟩))⟩
  rw [hid, hcode]

/-- The command `2_<id> <name>` in a state whose table equals its file: that it answers
success, that exactly one entry is new and has the id, that all others keep theirs, and that
the card then opens the door, holds exactly when the file has room for the lines that the
argument spells, one of them supplies the id, and the others supply none. -/
theorem enrolment {s : Store} (hs : s.Mirrors) (board : Board) {command : Vector UInt8 256}
    (hterm : Terminated command.toList) {id name : Bytes} (hten : id.length = 10)
    (hname : Nameable name)
    (hline : content command.toList = 50 :: 95 :: (id ++ 32 :: name)) :
    (∃ mem t board' out, runCommand .success command s board = .ok (mem, t, board', out) ∧
      .reply .addSuccess ∈ out ∧ s.pupa.Gains t.pupa id ∧ t.Opens id) ↔
      s.Admits id (id ++ 32 :: name) := by
  have hne : id ≠ [] := fun h => by simp [h] at hten
  obtain ⟨mem, hrun⟩ := runCommand_add hs.toSound board hterm hten hname hline
  rw [hrun]
  constructor
  · rintro ⟨_, t, _, _, hok, -, hgains, -⟩
    obtain ⟨pupa, hread, hret⟩ := map_eq_ok.mp hok
    obtain ⟨-, hret⟩ := Prod.mk.inj hret
    obtain ⟨rfl, -⟩ := Prod.mk.inj hret
    exact hs.admits hne hread hgains
  · intro hadmits
    obtain ⟨hread, hterm', hgains⟩ := hs.gains hne hadmits
    rw [hread]
    refine ⟨_, _, _, _, rfl, List.mem_cons_self, hgains, ?_⟩
    exact Store.opens_of_gains (s := ⟨s.reread (id ++ 32 :: name), _⟩) hterm' hgains

/-- The second of two members is enrolled. -/
theorem enrolment_of_second : ∃ s mem t board' out,
    history [.reboot, .add (ascii "0C0029DA90 Aj")] = .ok s ∧
    runCommand .success (overlay (Vector.replicate 256 0) (ascii "2_6C0095E9D5 Nan")) s
      .afterSetup = .ok (mem, t, board', out) ∧
    s.pupa.Gains t.pupa (ascii "6C0095E9D5") ∧ t.Opens (ascii "6C0095E9D5") := by
  have hrun : (history [.reboot, .add (ascii "0C0029DA90 Aj")] >>= fun s =>
      readFile Pupa.zero s.card.text >>= fun read =>
      .ok (decide (∀ i : Fin MEMBER, (read.get i).entry = (s.pupa.get i).entry),
        decide (s.Admits (ascii "6C0095E9D5") (ascii "6C0095E9D5" ++ 32 :: ascii "Nan")))) =
      .ok (true, true) := by
    decide +kernel
  obtain ⟨s, hs, h⟩ := bind_eq_ok.mp hrun
  obtain ⟨read, hread, h⟩ := bind_eq_ok.mp h
  simp only [Except.ok.injEq, Prod.mk.injEq, decide_eq_true_eq] at h
  have hmirrors : s.Mirrors := ⟨history_sound hs, read, hread, fun i hi => h.1 ⟨i, hi⟩⟩
  have hname : Nameable (ascii "Nan") :=
    ⟨by decide, by decide, by decide, by decide, by decide +kernel, by decide +kernel⟩
  have hterm : Terminated (overlay (Vector.replicate 256 (0 : UInt8))
      (ascii "2_6C0095E9D5 Nan")).toList := by
    decide +kernel
  have hline : content (overlay (Vector.replicate 256 (0 : UInt8))
      (ascii "2_6C0095E9D5 Nan")).toList =
        50 :: 95 :: (ascii "6C0095E9D5" ++ 32 :: ascii "Nan") := by
    decide +kernel
  obtain ⟨mem, t, board', out, hok, -, hgains, hopens⟩ :=
    (enrolment hmirrors .afterSetup hterm (by decide) hname hline).mpr h.2
  exact ⟨s, mem, t, board', out, hs, hok, hgains, hopens⟩

/-- A name with an ordinary blank: the id is cut to the length of its first word, success is
answered, and the card is denied. -/
theorem enrolment_of_two_words :
    (history [.reboot] >>= fun s =>
      runCommand .success (overlay (Vector.replicate 256 0) (ascii "2_0C0029DA90 ab cd")) s
        .afterSetup >>= fun r =>
      Sketch.serialEvent1 ⟨fun _ => ⟨0, 0, 1, 1, 45⟩, fun _ => true⟩ (Vector.replicate 12 0)
        { Sketch.powerUp r.2.1 with
          serial1 := ⟨0x02 :: (ascii "0C0029DA906F" ++ [0x03]), []⟩ } >>= fun t =>
      .ok (decide (.reply .addSuccess ∈ r.2.2.2), r.2.1.pupa.members,
        decide (Effect.digitalWrite DOOR true ∈ t.trace))) =
      .ok (true, [(ascii "0C", ascii "cd")], false) := by
  decide +kernel

end SmartDoor
