import SmartDoor.Card.Readable

/-!
# Power loss during a removal

`remove_member` deletes the member file before it writes the file anew, three
prints a member. When the power fails between two of its calls, the next boot
finds the lines that are complete and perhaps one line that was begun, of which
the id is there and the name is not.
-/

namespace SmartDoor

open CString

/-- The power fails after the first `calls` calls of `remove_member(arg)` to the SD
library, and the lock starts again. -/
def Store.powerLoss (calls : Nat) (arg : Bytes) (s : Store) : Except Fault Store := do
  let (member, pupa, _) ← isUser s.pupa (cString arg) 0
  if member < 0 then s.reboot
  else do
    let (pupa, made) ← deleteMember .success member.toNat pupa
    ({ pupa := pupa, card := (made.take calls).foldl SdCall.run s.card } : Store).reboot

/-- The members of a file of which only the first prints were made: three prints a
member, and the one whose line was begun has no name yet. -/
def printed : Nat → List Member → List Member
  | _, [] => []
  | 0, _ :: _ => []
  | 1, m :: _ => [(m.1, [])]
  | 2, m :: _ => [(m.1, [])]
  | prints + 3, m :: ms => m :: printed prints ms

/-- Three prints a member are enough. -/
theorem printed_all {ms : List Member} {prints : Nat} (h : 3 * ms.length ≤ prints) :
    printed prints ms = ms := by
  induction ms generalizing prints with
  | nil => rw [printed]
  | cons m ms ih =>
    rw [List.length_cons] at h
    obtain ⟨rest, rfl⟩ : ∃ rest, prints = rest + 3 := ⟨prints - 3, by omega⟩
    rw [printed, ih (by omega)]

/-! ## A line that was begun -/

/-- A line that ends after its id, or after the blank behind it. -/
def Line.Begun (l : Line) : Prop := l.first.length ≤ 10 ∧ (l.more = [] ∨ l.more = [[]])

theorem Line.begun_empty : Line.empty.Begun := ⟨Nat.zero_le _, Or.inl rfl⟩

/-- The member of a line that was begun. -/
def Line.begun (l : Line) : Option Member := if l.first ≠ [] then some (l.first, []) else none

theorem Line.Begun.fitsOpen {l : Line} (h : l.Begun) : l.FitsOpen := by
  obtain ⟨w, more⟩ := l
  rcases h.2 with hm | hm
  · obtain rfl : more = [] := hm
    exact h.1.trans (by decide)
  · obtain rfl : more = [[]] := hm
    exact ⟨h.1, Nat.zero_le _⟩

/-- An array of zeros whose beginning was overwritten. -/
theorem content_overlay_zeros {n : Nat} {w : Bytes} (h0 : (0 : UInt8) ∉ w) (h : w.length < n) :
    Terminated (overlay (Vector.replicate n (0 : UInt8)) w).toList ∧
      content (overlay (Vector.replicate n (0 : UInt8)) w).toList = w := by
  have hzero : overlay (Vector.replicate n (0 : UInt8)) w =
      overlay (Vector.replicate n 0) (w ++ [0]) := by
    ext i hi
    rw [getElem_overlay, getElem_overlay, Vector.getElem_replicate, List.getElem?_append]
    split
    · rfl
    · rw [List.getElem?_eq_none (by omega)]
      cases hj : i - w.length with
      | zero => rfl
      | succ j => rfl
  rw [hzero]
  exact ⟨terminated_overlay _ h, content_overlay _ h0 h⟩

/-- A line that was begun puts its id into a zeroed slot. -/
theorem Line.Begun.placeOpen {l : Line} (h : l.Begun) (hw : l.Words) :
    (l.placeOpen Rfid.zero).Terminated ∧ (l.placeOpen Rfid.zero).member = l.begun := by
  obtain ⟨w, more⟩ := l
  have hword : ∀ c ∈ w, isWord c := hw.first
  have hlen : w.length ≤ 10 := h.1
  have hname : content Rfid.zero.memberName.toList = [] := by decide
  have hid : ∀ r : Rfid, r.id = w → r.name = [] → r.member = (Line.mk w more).begun :=
    fun r hid hname => by rw [Rfid.member_eq, Rfid.entry, hid, hname, begun]
  rcases h.2 with hm | hm
  · obtain rfl : more = [] := hm
    obtain ⟨ht, hc⟩ := content_overlay_zeros (zero_notMem_words hword)
      (Nat.lt_of_le_of_lt hlen (by decide : 10 < 12))
    refine ⟨⟨ht, Rfid.sound_zero.name⟩, hid _ ?_ ?_⟩
    · exact (congrArg strip hc).trans (strip_words hword)
    · exact congrArg strip hname
  · obtain rfl : more = [[]] := hm
    have hplace : (Line.mk w [[]]).placeOpen Rfid.zero =
        ⟨overlay Rfid.zero.memberId (w ++ [13, 0]), Rfid.zero.memberName⟩ := by
      rw [Line.placeOpen, Rfid.words, Rfid.words, endAt_overlay, overlay_nil]
    have hfit : w.length + 1 < 12 := by omega
    rw [hplace]
    refine ⟨⟨?_, Rfid.sound_zero.name⟩, hid _ ?_ ?_⟩
    · rw [← endAt_overlay]
      exact terminated_endAt _ hfit
    · exact (congrArg strip (content_overlay_cr _ hword hfit)).trans (strip_cr hword)
    · exact congrArg strip hname

/-- A boot with a file whose last line was begun loads the complete lines and that
one. -/
theorem readFile_begun {f : Bytes} (hlines : (⟨(parse f).lines, .empty⟩ : Text).Fits)
    (hplain : ∀ l ∈ (parse f).lines, l.Plain) (htail : (parse f).tail.Begun)
    (hroom : (parse f).tail = .empty ∨ (parse f).lines.length < MEMBER) :
    ∃ pupa, readFile Pupa.zero f = .ok pupa ∧
      pupa.members = (parse f).members ++ (parse f).tail.begun.toList := by
  have hwords := parse_words f
  generalize ht : parse f = t at hlines hplain htail hroom hwords
  obtain ⟨lines, tail⟩ := t
  have hfits : (⟨lines, tail⟩ : Text).Fits :=
    ⟨hlines.count, hlines.lines, hroom, htail.fitsOpen⟩
  have hclosed : (⟨lines, .empty⟩ : Text).Closed := Text.closed_mk _
  have hbase : Pupa.Terminated (Pupa.zero.layout ⟨lines, .empty⟩) := fun i hi => by
    cases hl : lines[i]? with
    | none =>
      rw [Pupa.getElem_layout_rest hclosed hi (List.getElem?_eq_none_iff.mp hl)]
      exact Pupa.sound_zero.terminated i hi
    | some l =>
      have hmem := List.mem_of_getElem? hl
      rw [Pupa.getElem_layout_line hi hl]
      exact ((hplain l hmem).place (hwords.1 l hmem) (hlines.lines l hmem)
        (Pupa.sound_zero i hi)).1.toTerminated
  have hmap := Pupa.map_member_layout_zero hclosed hlines hwords.1 hplain
  have hread : ∀ {pupa : Pupa}, Pupa.zero.layout ⟨lines, tail⟩ = pupa → pupa.Terminated →
      readFile Pupa.zero f = .ok pupa := fun heq hterm => by
    obtain ⟨listed, hl⟩ := listing_of_terminated hterm
    rw [readFile_eq, ht, if_pos hfits, heq, hl]
    rfl
  by_cases hempty : tail = .empty
  · subst hempty
    refine ⟨_, hread rfl hbase, ?_⟩
    rw [Pupa.members_layout_zero hclosed hlines hwords.1 hplain]
    exact (List.append_nil _).symm
  · have hlt : lines.length < MEMBER := hroom.resolve_left hempty
    obtain ⟨hterm, hmember⟩ := htail.placeOpen hwords.2
    have hslot : Pupa.zero[lines.length] = Rfid.zero := by simp [Pupa.zero]
    refine ⟨_, hread (Pupa.layout_open Pupa.zero hlt) fun i hi => ?_, ?_⟩
    · rw [Vector.getElem_set]
      split
      · simp only [hslot]
        exact hterm
      · exact hbase i hi
    · have hrest : MEMBER - lines.length = MEMBER - lines.length - 1 + 1 := by omega
      simp only [hslot]
      rw [Pupa.members, Vector.toList_set, List.map_set, hmap, hmember,
        List.set_append_right _ _ (by simp), List.length_map, Nat.sub_self, hrest,
        List.replicate_succ, List.set_cons_zero, List.reduceOption_append, Text.members]
      congr 1
      cases tail.begun with
      | none => rw [List.reduceOption_cons_of_none, List.reduceOption_replicate_none]; rfl
      | some m => rw [List.reduceOption_cons_of_some, List.reduceOption_replicate_none]; rfl

/-! ## The prints that were made -/

/-- The text that the first prints of a slot spell, given what the prints after its
own three spell. -/
def Rfid.textPrinted (r : Rfid) (rest : Nat → Text) : Nat → Text
  | 0 => .empty
  | 1 => ⟨[], ⟨r.id, []⟩⟩
  | 2 => ⟨[], ⟨r.id, [[]]⟩⟩
  | prints + 3 => ⟨r.lines ++ (rest prints).lines, (rest prints).tail⟩

/-- The text that the first prints of these slots spell. -/
def textPrinted : List Rfid → Nat → Text
  | [], _ => .empty
  | r :: rs, prints =>
    if r.Occupied then r.textPrinted (textPrinted rs) prints else textPrinted rs prints

theorem parse_printed {rs : List Rfid} (h : ∀ r ∈ rs, r.Sound) (prints : Nat) :
    parse ((rs.flatMap Rfid.pieces).take prints).flatten = textPrinted rs prints := by
  induction rs generalizing prints with
  | nil => simp [textPrinted, parse_nil]
  | cons r rs ih =>
    have hr := h r (List.mem_cons_self ..)
    have hrest := fun q => ih (fun x hx => h x (List.mem_cons_of_mem _ hx)) q
    rw [List.flatMap_cons, textPrinted]
    by_cases ho : r.Occupied
    · have hpieces : r.pieces = [r.id, [32], content r.memberName.toList ++ [13, 10]] := if_pos ho
      rw [if_pos ho]
      match prints with
      | 0 => rfl
      | 1 =>
        have hid := parse_word hr.words_id []
        rw [hpieces]
        simpa [Rfid.textPrinted, Text.mapHead, Text.empty, Line.empty] using hid
      | 2 =>
        have hid := parse_word hr.words_id [32]
        rw [hpieces]
        simpa [Rfid.textPrinted, Text.mapHead, parse_cons, Text.cons, Text.empty, Line.empty]
          using hid
      | prints + 3 =>
        have hthree : r.pieces.length = 3 := by rw [hpieces]; rfl
        have htake : (r.pieces ++ rs.flatMap Rfid.pieces).take (prints + 3) =
            r.pieces ++ (rs.flatMap Rfid.pieces).take prints := by
          rw [List.take_append, hthree, Nat.add_sub_cancel, List.take_of_length_le (by omega)]
        rw [htake, List.flatten_append, hr.printable.parse_pieces, hrest prints, Rfid.textPrinted]
    · have hpieces : r.pieces = [] := if_neg ho
      rw [hpieces, if_neg ho, List.nil_append, hrest prints]

/-- The lines are among those of the slots, and a line that was begun is one of
theirs without its name. -/
theorem textPrinted_spec (rs : List Rfid) (prints : Nat) :
    (∃ more, rs.flatMap Rfid.lines = (textPrinted rs prints).lines ++ more ∧
        ((textPrinted rs prints).tail = .empty ∨ more ≠ [])) ∧
      ((textPrinted rs prints).tail = .empty ∨ ∃ r ∈ rs, r.Occupied ∧
        (textPrinted rs prints).tail.first = r.id ∧
          ((textPrinted rs prints).tail.more = [] ∨ (textPrinted rs prints).tail.more = [[]])) := by
  induction rs generalizing prints with
  | nil => exact ⟨⟨[], rfl, Or.inl rfl⟩, Or.inl rfl⟩
  | cons r rs ih =>
    rw [List.flatMap_cons, textPrinted]
    by_cases ho : r.Occupied
    · have hne : r.lines ++ rs.flatMap Rfid.lines ≠ [] := by
        rw [Rfid.lines, if_pos ho]
        exact List.cons_ne_nil _ _
      rw [if_pos ho]
      obtain _ | _ | _ | prints := prints
      · exact ⟨⟨_, rfl, Or.inl rfl⟩, Or.inl rfl⟩
      · exact ⟨⟨_, rfl, Or.inr hne⟩, Or.inr ⟨r, List.mem_cons_self .., ho, rfl, Or.inl rfl⟩⟩
      · exact ⟨⟨_, rfl, Or.inr hne⟩, Or.inr ⟨r, List.mem_cons_self .., ho, rfl, Or.inr rfl⟩⟩
      · obtain ⟨⟨more, hmore, hroom⟩, htail⟩ := ih prints
        refine ⟨⟨more, by rw [Rfid.textPrinted, hmore, List.append_assoc], hroom⟩,
          htail.imp_right ?_⟩
        rintro ⟨x, hx, hrest⟩
        exact ⟨x, List.mem_cons_of_mem _ hx, hrest⟩
    · have hlines : r.lines = [] := if_neg ho
      rw [if_neg ho, hlines, List.nil_append]
      refine ⟨(ih prints).1, (ih prints).2.imp_right ?_⟩
      rintro ⟨x, hx, hrest⟩
      exact ⟨x, List.mem_cons_of_mem _ hx, hrest⟩

theorem members_textPrinted (rs : List Rfid) (prints : Nat) :
    (textPrinted rs prints).members ++ (textPrinted rs prints).tail.begun.toList =
      printed prints (rs.map Rfid.member).reduceOption := by
  induction rs generalizing prints with
  | nil => rw [List.map_nil, List.reduceOption_nil, printed]; rfl
  | cons r rs ih =>
    rw [List.map_cons, textPrinted]
    by_cases ho : r.Occupied
    · have hm : r.member = some (r.id, r.name) := if_pos ho
      have hid : r.id ≠ [] := ho
      rw [if_pos ho, hm, List.reduceOption_cons_of_some]
      match prints with
      | 0 => rfl
      | 1 => simp [Rfid.textPrinted, Text.members, Line.begun, hid, printed]
      | 2 => simp [Rfid.textPrinted, Text.members, Line.begun, hid, printed]
      | prints + 3 =>
        have hslot : (r.lines.map Line.member).reduceOption = [(r.id, r.name)] := by
          have hone := Rfid.members_lines [r]
          rw [List.flatMap_singleton, List.map_singleton, hm] at hone
          exact hone
        rw [printed, ← ih prints, Text.members, Rfid.textPrinted, List.map_append,
          List.reduceOption_append, hslot]
        rfl
    · have hm : r.member = none := if_neg ho
      rw [if_neg ho, hm, List.reduceOption_cons_of_none]
      exact ih prints

/-- A boot after the first prints of a table whose lines fit. -/
theorem Pupa.Sound.readFile_printed {pupa : Pupa} (hp : pupa.Sound) (hf : SlotsFit pupa.toList)
    (prints : Nat) : ∃ loaded, SmartDoor.readFile Pupa.zero (pupa.pieces.take prints).flatten =
      .ok loaded ∧ loaded.members = printed prints pupa.members := by
  have hslots : ∀ r ∈ pupa.toList, r.Sound := fun r hr => by
    obtain ⟨i, hi, rfl⟩ := List.getElem_of_mem hr
    rw [Vector.getElem_toList]
    exact hp i (by simpa using hi)
  have hfits := (slotsFit_iff _).mpr hf
  have hmembers := members_textPrinted pupa.toList prints
  obtain ⟨⟨more, hmore, hroom⟩, htail⟩ := textPrinted_spec pupa.toList prints
  have hplain : ∀ l ∈ (textPrinted pupa.toList prints).lines, l.Plain := fun l hl => by
    have hmem : l ∈ pupa.toList.flatMap Rfid.lines := by
      rw [hmore]
      exact List.mem_append_left _ hl
    obtain ⟨r, -, hr⟩ := List.mem_flatMap.mp hmem
    exact Rfid.plain_lines hr
  rw [hmore] at hfits
  have hcount : (_ ++ more).length ≤ MEMBER := hfits.count
  rw [List.length_append] at hcount
  have hbegun : (textPrinted pupa.toList prints).tail.Begun := by
    rcases htail with htail | ⟨r, hr, ho, hfirst, hrest⟩
    · rw [htail]
      exact Line.begun_empty
    · refine ⟨?_, hrest⟩
      rw [hfirst]
      exact (hf.words r hr ho).1
  have hlt : (textPrinted pupa.toList prints).tail = .empty ∨
      (textPrinted pupa.toList prints).lines.length < MEMBER := hroom.imp_right fun hne => by
    have := List.length_pos_iff.mpr hne
    omega
  have hlines : (⟨(textPrinted pupa.toList prints).lines, .empty⟩ : Text).Fits :=
    (Text.closed_mk _).fits.mpr ⟨(Nat.le_add_right ..).trans hcount,
      fun l hl => hfits.lines l (List.mem_append_left _ hl)⟩
  rw [← parse_printed hslots] at hmembers hlines hplain hbegun hlt
  obtain ⟨loaded, hread, hloaded⟩ := readFile_begun hlines hplain hbegun hlt
  exact ⟨loaded, hread, hloaded.trans hmembers⟩

/-! ## The calls that were made -/

/-- The member file after `SD.remove` and the next calls of a removal. -/
theorem text_calls (c : Card) (ps : List Bytes) (calls : Nat) :
    Card.text (((SdCall.remove true :: .openWrite true :: (ps.map SdCall.print ++ [.close])).take
      (calls + 1)).foldl SdCall.run c) = (ps.take (calls - 1)).flatten := by
  cases calls with
  | zero => simp [SdCall.run, Card.text]
  | succ calls =>
    have hclose : ∀ (c : Card) (n : Nat),
        Card.text (([SdCall.close].take n).foldl SdCall.run c) = c.text := fun c n => by
      cases n <;> simp [SdCall.run, Card.text]
    rw [List.take_succ_cons, List.take_succ_cons, List.foldl_cons, List.foldl_cons,
      List.take_append, List.foldl_append, hclose, ← List.map_take,
      SdCall.foldl_print _ _ (by rfl), Nat.add_sub_cancel]
    rfl

theorem Store.powerLoss_eq {s : Store} (hs : s.Sound) {arg : Bytes} {k : Fin MEMBER}
    (hl : s.pupa.lookup (wanted arg) = some k) (calls : Nat) :
    s.powerLoss calls arg = Store.reboot ⟨s.pupa.without k,
      ((SdCall.remove true :: .openWrite true ::
        ((((s.pupa.trimTo (k.val + 1)).shifted k).pieces.map SdCall.print) ++ [.close])).take
          calls).foldl SdCall.run s.card⟩ := by
  have hk : ¬ (k.val : Int) < 0 := by omega
  rw [powerLoss, isUser_cString hs.pupa.terminated, ok_bind, Pupa.searched, hl]
  simp only [if_neg hk, Int.toNat_natCast]
  rw [deleteMember_eq .success k.val (hs.pupa.trimTo (k.val + 1)), ok_bind]
  rfl

/-- After `SD.remove` the boot reads what was printed. -/
theorem Store.powerLoss_succ {s : Store} (hs : s.Sound) {arg : Bytes} {k : Fin MEMBER}
    (hl : s.pupa.lookup (wanted arg) = some k) (calls : Nat) :
    ∃ card, s.powerLoss (calls + 1) arg = (readFile Pupa.zero
      (((s.pupa.trimTo (k.val + 1)).shifted k).pieces.take (calls - 1)).flatten).map
        fun pupa => ⟨pupa, card⟩ := by
  rw [powerLoss_eq hs hl, reboot, sdcardProcess_eq Pupa.sound_zero,
    ← text_calls s.card ((s.pupa.trimTo (k.val + 1)).shifted k).pieces calls]
  exact ⟨_, rfl⟩

/-- The power fails during a removal of a member other than the one in the last slot,
with members of the documented lengths whose lines fit the table. Before the first
call the boot loads what it would have loaded without the removal. After `SD.remove`
it loads the members of the slots that are left, in the order of the slots, as far as
their lines were printed, and all of them once every line was printed. -/
theorem removal_power_loss {ops : List Op} {arg : Bytes} {s : Store} {k : Fin MEMBER}
    (hs : history ops = .ok s) (hk : s.pupa.answer arg = .ok (k.val : Int))
    (hshort : ∀ m ∈ s.pupa.members, m.1.length ≤ 10 ∧ m.2.length ≤ 13)
    (hlines : (((s.pupa.trimTo (k.val + 1)).left k.val).flatMap Rfid.lines).length ≤ MEMBER)
    (hlast : k.val ≠ 29) :
    let others := ((s.pupa.left k.val).map Rfid.member).reduceOption
    s.powerLoss 0 arg = s.reboot ∧
    (∀ m, m ∈ others ↔ ∃ j : Fin MEMBER, j ≠ k ∧ (s.pupa.get j).member = some m) ∧
    ∀ calls, ∃ t, s.powerLoss (calls + 1) arg = .ok t ∧
      t.pupa.members = printed (calls - 1) others ∧
        (3 * others.length < calls → t.pupa.members = others) := by
  intro others
  have hsound := history_sound hs
  have hl := Pupa.lookup_of_answer hsound.pupa.terminated hk
  have hkm : k.val < MEMBER := k.isLt
  have htrim := hsound.pupa.trimTo (k.val + 1)
  have hshift := htrim.shifted k.val
  have hfits : (⟨((s.pupa.trimTo (k.val + 1)).shifted k.val).toList.flatMap Rfid.lines, .empty⟩ :
      Text).Fits := by
    rw [Pupa.lines_shifted htrim.terminated hkm, slotsFit_iff,
      Pupa.slotsFit_left hsound.pupa hshort]
    exact hlines
  have hothers : ((s.pupa.trimTo (k.val + 1)).shifted k.val).members = others := by
    rw [Pupa.members_shifted htrim.terminated hkm,
      Pupa.map_member_left_trimTo hsound.pupa.terminated]
  refine ⟨?_, fun m => ?_, fun calls => ?_⟩
  · rw [Store.powerLoss_eq hsound hl]
    rfl
  · have hwithout : others = (s.pupa.without k.val).members :=
      (Pupa.members_without hsound.pupa hkm).symm
    rw [hwithout, Pupa.mem_members_without hsound.pupa hkm]
    constructor
    · rintro ⟨j, hj, hjk, hm⟩
      refine ⟨⟨j, hj⟩, fun heq => ?_, hm⟩
      have hval : j = k.val := congrArg Fin.val heq
      exact hjk.elim (fun h => h hval) fun h => hlast (hval.symm.trans h)
    · rintro ⟨j, hjk, hm⟩
      exact ⟨j.val, j.isLt, Or.inl fun h => hjk (Fin.ext h), hm⟩
  · obtain ⟨pupa, hread, hpupa⟩ := hshift.readFile_printed ((slotsFit_iff _).mp hfits) (calls - 1)
    have hall : pupa.members = printed (calls - 1) others := by
      rw [hpupa, hothers]
    obtain ⟨card, hboot⟩ := Store.powerLoss_succ hsound hl calls
    refine ⟨⟨pupa, card⟩, ?_, hall, fun h => hall.trans (printed_all (by omega))⟩
    rw [hboot, hread]
    rfl

/-- The power fails at any point while the first of two members is removed. -/
theorem removal_power_loss_of_first : ∃ s,
    history [.reboot, .add [65, 65, 65, 65, 65, 65, 65, 65, 65, 65, 32, 97],
      .add [66, 66, 66, 66, 66, 66, 66, 66, 66, 66, 32, 98]] = .ok s ∧
    ∀ calls, ∃ t, s.powerLoss (calls + 1) [97] = .ok t ∧
      t.pupa.members = printed (calls - 1) [(List.replicate 10 66, [98])] := by
  have hrun : (history [.reboot, .add [65, 65, 65, 65, 65, 65, 65, 65, 65, 65, 32, 97],
      .add [66, 66, 66, 66, 66, 66, 66, 66, 66, 66, 32, 98]] >>= fun s =>
        .ok (decide (s.pupa.answer [97] = .ok (((0 : Fin MEMBER).val : Nat) : Int)),
          decide (∀ m ∈ s.pupa.members, m.1.length ≤ 10 ∧ m.2.length ≤ 13),
          decide ((((s.pupa.trimTo 1).left 0).flatMap Rfid.lines).length ≤ MEMBER),
          decide (((s.pupa.left 0).map Rfid.member).reduceOption =
            [(List.replicate 10 66, [98])]))) =
      .ok (true, true, true, true) := by
    decide +kernel
  obtain ⟨s, hs, h⟩ := bind_eq_ok.mp hrun
  simp only [Except.ok.injEq, Prod.mk.injEq, decide_eq_true_eq] at h
  obtain ⟨hk, hshort, hlines, hothers⟩ := h
  obtain ⟨-, -, hloss⟩ := removal_power_loss (k := 0) hs hk hshort hlines (by decide)
  refine ⟨s, hs, fun calls => ?_⟩
  obtain ⟨t, ht, hm, -⟩ := hloss calls
  exact ⟨t, ht, hm.trans (congrArg (printed (calls - 1)) hothers)⟩

/-- When the power fails right after `SD.remove`, the member that was not removed is
lost as well. -/
theorem removal_power_loss_of_both :
    (history [.reboot, .add [65, 65, 65, 65, 65, 65, 65, 65, 65, 65, 32, 97],
      .add [66, 66, 66, 66, 66, 66, 66, 66, 66, 66, 32, 98]] >>= fun s =>
      s.powerLoss 1 [97] >>= fun t => .ok (s.pupa.members, t.pupa.members)) =
      .ok ([(List.replicate 10 65, [97]), (List.replicate 10 66, [98])], []) := by
  decide +kernel

end SmartDoor
