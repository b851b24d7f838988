import SmartDoor.Card.Readable

/-!
# The table and the file

With members of the documented form, a history keeps the table equal to what a
reboot would read exactly as long as two conditions hold. When a member is added,
no occupied slot may lie on an empty line of the file or behind its end, because
`read_file` does not clear the table. When a member is removed, the lines of the
slots that are left, the empty ones counted, must fit the table.
-/

namespace SmartDoor

open CString

/-- The occupied entries of the table are those of a zeroed table into which
`read_file` has read the member file. -/
def Store.Agrees (s : Store) : Prop :=
  ∃ pupa, readFile Pupa.zero s.card.text = .ok pupa ∧ s.pupa.members = pupa.members

/-- An added argument is an id of ten letters and digits, a blank, and a name of one
to thirteen. -/
def Op.WellFormed : Op → Prop
  | .add arg => ∃ id name, arg = id ++ 32 :: name ∧ (∀ c ∈ id, isWord c) ∧ (∀ c ∈ name, isWord c) ∧
      id.length = 10 ∧ 1 ≤ name.length ∧ name.length ≤ 13
  | _ => True

/-- The condition under which a step keeps table and file equal. -/
def Op.Clear (s : Store) : Op → Prop
  | .add _ => (parse s.card.text).lines.length < MEMBER ∧
      ∀ i : Fin MEMBER, (s.pupa.get i).Occupied →
        (parse s.card.text).lines[i.val]? ≠ some .empty ∧
          i.val ≤ (parse s.card.text).lines.length
  | .remove arg => ∀ k, s.pupa.lookup (wanted arg) = some k →
      (((s.pupa.trimTo (k.val + 1)).left k.val).flatMap Rfid.lines).length ≤ MEMBER
  | _ => True

instance (s : Store) (op : Op) : Decidable (op.Clear s) :=
  match op with
  | .reboot => isTrue trivial
  | .add _ => inferInstanceAs (Decidable (_ ∧ ∀ _ : Fin MEMBER, _ → _ ∧ _))
  | .remove _ => inferInstanceAs (Decidable (∀ _, _ → _ ≤ _))
  | .lookup _ => isTrue trivial

/-! ## Lists with gaps -/

/-- Filling gaps of a list changes what it holds, unless there is nothing to fill. -/
theorem reduceOption_eq_iff {α : Type} {xs ys : List (Option α)} (hlen : xs.length = ys.length)
    (h : ∀ i (hi : i < xs.length) (hj : i < ys.length), xs[i] = none ∨ xs[i] = ys[i]) :
    xs.reduceOption = ys.reduceOption ↔ xs = ys := by
  refine ⟨fun heq => ?_, fun heq => by rw [heq]⟩
  have hsub : ∀ {xs ys : List (Option α)}, xs.length = ys.length →
      (∀ i (hi : i < xs.length) (hj : i < ys.length), xs[i] = none ∨ xs[i] = ys[i]) →
      xs.reduceOption.length ≤ ys.reduceOption.length ∧
        (xs.reduceOption.length = ys.reduceOption.length → xs = ys) := by
    intro xs
    induction xs with
    | nil =>
      intro ys hlen _
      rw [List.length_eq_zero_iff.mp hlen.symm]
      exact ⟨le_rfl, fun _ => rfl⟩
    | cons x xs ih =>
      intro ys hlen h
      cases ys with
      | nil => cases hlen
      | cons y ys =>
        obtain ⟨hle, himp⟩ := ih (Nat.succ.inj hlen) fun i hi hj => by
          simpa using h (i + 1) (Nat.succ_lt_succ hi) (Nat.succ_lt_succ hj)
        have hhead : x = none ∨ x = y := by
          simpa using h 0 (Nat.succ_pos _) (Nat.succ_pos _)
        cases y with
        | none =>
          obtain rfl : x = none := hhead.elim (fun hx => hx) fun hx => hx
          rw [List.reduceOption_cons_of_none, List.reduceOption_cons_of_none]
          exact ⟨hle, fun hl => by rw [himp hl]⟩
        | some b =>
          cases x with
          | none =>
            rw [List.reduceOption_cons_of_none, List.reduceOption_cons_of_some, List.length_cons]
            exact ⟨by omega, fun hl => absurd hl (by omega)⟩
          | some a =>
            obtain rfl : a = b := Option.some.inj (hhead.resolve_left (by simp))
            rw [List.reduceOption_cons_of_some, List.reduceOption_cons_of_some, List.length_cons,
              List.length_cons]
            exact ⟨by omega, fun hl => by rw [himp (by omega)]⟩
  exact (hsub hlen h).2 (congrArg List.length heq)

/-! ## Reading over a table that was not cleared -/

/-- Two tables, one with a member wherever the other one has that member, have the
same members exactly when they agree in every slot. -/
theorem Pupa.members_eq_iff {pupa pupa' : Pupa}
    (h : ∀ i (hi : i < MEMBER), pupa[i].member = none ∨ pupa[i].member = pupa'[i].member) :
    pupa.members = pupa'.members ↔
      ∀ i (hi : i < MEMBER), pupa[i].member = pupa'[i].member := by
  have hlen : (pupa.toList.map Rfid.member).length = (pupa'.toList.map Rfid.member).length := by
    simp
  rw [members, members, reduceOption_eq_iff hlen fun i hi hj => by
    have hi' : i < MEMBER := by simpa using hi
    simpa using h i hi']
  constructor
  · intro heq i hi
    have hget := congrArg (fun xs => xs[i]?) heq
    simpa only [List.getElem?_map, Vector.getElem?_toList, Vector.getElem?_eq_getElem hi,
      Option.map_some, Option.some.injEq] using hget
  · intro heq
    apply List.ext_getElem hlen
    intro i hi hj
    have hi' : i < MEMBER := by simpa using hi
    simpa using heq i hi'

/-- A readable text leaves its own members and no others exactly when every slot
that was occupied lies on a line that is not empty. -/
theorem Text.Readable.members_layout_iff {f : Bytes} (h : (parse f).Readable) {pupa : Pupa}
    (hp : pupa.Sound) : (pupa.layout (parse f)).members = (parse f).members ↔
      ∀ i : Fin MEMBER, (pupa.get i).Occupied →
        ∃ l, (parse f).lines[i.val]? = some l ∧ l ≠ Line.empty := by
  have hzero : ∀ i (hi : i < MEMBER), Pupa.zero[i].member = none := fun i hi => by
    simp only [Pupa.zero, Vector.getElem_replicate]
    rfl
  have hocc : ∀ r : Rfid, r.member = none ↔ ¬ r.Occupied := fun r => by
    simp [Rfid.member]
  have hslot : ∀ i (hi : i < MEMBER),
      (Pupa.zero.layout (parse f))[i].member = none ∨
        (Pupa.zero.layout (parse f))[i].member = (pupa.layout (parse f))[i].member := by
    intro i hi
    rw [h.member_layout Pupa.sound_zero hi, h.member_layout hp hi, hzero i hi]
    cases (parse f).lines[i]? with
    | none => exact Or.inl rfl
    | some l =>
      by_cases he : l = Line.empty
      · exact Or.inl (by simp only [he, if_true, Option.map_none])
      · exact Or.inr (by simp only [if_neg he])
  rw [← Pupa.members_layout_zero h.closed h.fits (parse_words f).1 h.plain, eq_comm,
    Pupa.members_eq_iff hslot]
  constructor
  · intro hall i ho
    have hsame := hall i.val i.isLt
    rw [h.member_layout Pupa.sound_zero i.isLt, h.member_layout hp i.isLt,
      hzero i.val i.isLt] at hsame
    cases hl : (parse f).lines[i.val]? with
    | none =>
      simp only [hl] at hsame
      exact absurd ho ((hocc _).mp hsame.symm)
    | some l =>
      refine ⟨l, rfl, fun he => ?_⟩
      simp only [hl, he, if_true, Option.map_none] at hsame
      exact absurd ho ((hocc _).mp (Option.map_eq_none_iff.mp hsame.symm))
  · intro hall i hi
    rw [h.member_layout Pupa.sound_zero hi, h.member_layout hp hi, hzero i hi]
    by_cases ho : pupa[i].Occupied
    · obtain ⟨l, hl, he⟩ := hall ⟨i, hi⟩ ho
      simp only [hl, if_neg he]
    · rw [(hocc _).mpr ho]

/-! ## One step -/

/-- A sound store with plain lines in its file, and members of the documented lengths. -/
structure Store.Tame (s : Store) : Prop where
  pupa : s.pupa.Sound
  closed : (parse s.card.text).Closed
  plain : ∀ l ∈ (parse s.card.text).lines, l.Plain
  short : ∀ m ∈ s.pupa.members, m.1.length ≤ 10 ∧ m.2.length ≤ 13

theorem Store.tame_initial : Store.initial.Tame := by
  refine ⟨Pupa.sound_zero, rfl, fun l hl => absurd hl List.not_mem_nil, fun m hm => ?_⟩
  rw [Store.initial, Pupa.members_zero] at hm
  exact absurd hm List.not_mem_nil

theorem Store.Agrees.readable {s : Store} (h : s.Agrees) (ht : s.Tame) :
    (parse s.card.text).Readable := by
  obtain ⟨pupa, hr, -⟩ := h
  exact ⟨ht.closed, (Pupa.sound_zero.of_readFile ht.closed hr).1, ht.plain⟩

theorem Store.agrees_iff (pupa : Pupa) (card : Card) (h : (parse card.text).Readable) :
    (Store.mk pupa card).Agrees ↔ pupa.members = (parse card.text).members := by
  have hread := (h.readFile Pupa.sound_zero).1
  have hzero := Pupa.members_layout_zero h.closed h.fits (parse_words _).1 h.plain
  constructor
  · rintro ⟨read, hr, hm⟩
    obtain rfl := Except.ok.inj (hread.symm.trans hr)
    exact hm.trans hzero
  · intro hm
    exact ⟨_, hread, hm.trans hzero.symm⟩

/-- The members of a text that fits have the documented lengths. -/
theorem Text.Fits.short {t : Text} (h : t.Fits) {m : Member} (hm : m ∈ t.members) :
    m.1.length ≤ 10 ∧ m.2.length ≤ 13 := by
  obtain ⟨l, hl, hm⟩ := Text.mem_members.mp hm
  have hfit := h.lines l hl
  obtain ⟨w, more⟩ := l
  rw [Line.member] at hm
  split at hm
  · rename_i hmore
    obtain rfl := Option.some.inj hm
    cases more with
    | nil => exact absurd rfl hmore.1
    | cons v more =>
      have hcut : ∀ (us : List Bytes) (i : Bytes),
          (us.foldl (fun i u => i.take u.length) i).length ≤ i.length := by
        intro us
        induction us with
        | nil => exact fun i => le_rfl
        | cons u us ih => exact fun i => (ih _).trans (List.length_take_le' ..)
      have hlast := hfit.2
      rw [Line.last, List.getLast?_eq_some_getLast (List.cons_ne_nil v more), Option.getD_some]
        at hlast
      refine ⟨(hcut _ w).trans hfit.1.1, ?_⟩
      rw [Line.name, List.getLast?_eq_some_getLast (List.cons_ne_nil v more), Option.getD_some]
      exact hlast
  · cases hm

theorem Op.WellFormed.added {arg : Bytes} (h : (Op.add arg).WellFormed) :
    10 ≤ (content arg).length ∧ ∃ id name, id ≠ [] ∧ (Line.record id name).Fits ∧
      parse (content arg ++ [13, 10]) = ⟨[.record id name], .empty⟩ := by
  obtain ⟨id, name, rfl, hid, hname, hlen, -, hmax⟩ := h
  have hcontent : content (id ++ 32 :: name) = id ++ 32 :: name :=
    List.takeWhile_eq_self_iff.mpr fun c hc => by
      rcases List.mem_append.mp hc with hc | hc
      · simpa using (isWord_ne (hid c hc)).1
      · rcases List.mem_cons.mp hc with rfl | hc
        · decide
        · simpa using (isWord_ne (hname c hc)).1
  have hbytes : id ++ 32 :: name ++ [13, 10] = (Line.record id name).bytes ++ 13 :: [10] := by
    simp [Line.bytes, Line.record]
  rw [hcontent]
  refine ⟨by simp [hlen], id, name, fun h => by simp [h] at hlen,
    Line.fits_record.mpr ⟨hlen.le, hmax⟩, ?_⟩
  rw [hbytes, parse_line (Line.words_record.mpr ⟨hid, hname⟩)]
  rfl

/-- The text after a well-formed member was added. -/
theorem Op.WellFormed.readable {arg : Bytes} (h : (Op.add arg).WellFormed) {f : Bytes}
    (hf : (parse f).Readable) :
    ∃ id name, parse (f ++ (content arg ++ [13, 10])) =
        ⟨(parse f).lines ++ [.record id name], .empty⟩ ∧
      ((parse (f ++ (content arg ++ [13, 10]))).Readable ↔ (parse f).lines.length < MEMBER) := by
  obtain ⟨-, id, name, -, hfit, hparse⟩ := h.added
  have happend : parse (f ++ (content arg ++ [13, 10])) =
      ⟨(parse f).lines ++ [.record id name], .empty⟩ := by
    rw [parse_append hf.closed, hparse]
    rfl
  refine ⟨id, name, happend, ?_⟩
  rw [happend]
  constructor
  · intro hr
    have hcount : (parse f).lines.length + 1 ≤ MEMBER := by simpa using hr.fits.count
    exact hcount
  · intro hlt
    have hcount : (parse f).lines.length + 1 ≤ MEMBER := hlt
    refine ⟨Text.closed_mk _, (Text.closed_mk _).fits.mpr ⟨by simpa using hcount, fun l hl => ?_⟩,
      fun l hl => ?_⟩
    · rcases List.mem_append.mp hl with hl | hl
      · exact hf.fits.lines l hl
      · rw [List.mem_singleton.mp hl]
        exact hfit
    · rcases List.mem_append.mp hl with hl | hl
      · exact hf.plain l hl
      · rw [List.mem_singleton.mp hl]
        exact Line.plain_record ..

/-- A line at `i` that is not empty, after a line was appended. -/
theorem getElem?_concat_line (ls : List Line) {l : Line} (hl : l ≠ .empty) (i : Nat) :
    (∃ m, (ls ++ [l])[i]? = some m ∧ m ≠ .empty) ↔ ls[i]? ≠ some .empty ∧ i ≤ ls.length := by
  rcases Nat.lt_trichotomy i ls.length with hlt | heq | hgt
  · rw [List.getElem?_append_left hlt, List.getElem?_eq_getElem hlt]
    simp [hlt.le]
  · rw [heq, List.getElem?_append_right le_rfl]
    simp [hl]
  · rw [List.getElem?_eq_none (by simp; omega)]
    simp [hgt]

/-- Whether an addition leaves table and file equal. -/
theorem Store.Tame.add {s : Store} (h : s.Tame) (ha : s.Agrees) {arg : Bytes}
    (hw : (Op.add arg).WellFormed) :
    (∃ t, Op.step s (.add arg) = .ok t ∧ t.Agrees) ↔ Op.Clear s (.add arg) := by
  have hfile := ha.readable h
  obtain ⟨id, name, happend, hiff⟩ := hw.readable hfile
  have hstep := Op.step_add h.pupa arg
  rw [if_pos hw.added.1] at hstep
  have hagrees : (parse (s.card.text ++ (content arg ++ [13, 10]))).Readable →
      ∀ {t : Store}, Op.step s (.add arg) = .ok t → (t.Agrees ↔
        ∀ i : Fin MEMBER, (s.pupa.get i).Occupied →
          (parse s.card.text).lines[i.val]? ≠ some .empty ∧
            i.val ≤ (parse s.card.text).lines.length) := by
    intro hread t ht
    rw [hstep, (hread.readFile h.pupa).1] at ht
    obtain rfl := Except.ok.inj ht
    have hmembers := hread.members_layout_iff h.pupa
    rw [happend] at hmembers
    refine (Store.agrees_iff _ (s.card.added .success arg).processed hread).trans ?_
    change (s.pupa.layout _).members = (parse (s.card.text ++ _)).members ↔ _
    rw [happend, hmembers]
    have hne : Line.record id name ≠ .empty := fun he => by cases he
    exact forall_congr' fun i => imp_congr_right fun _ => getElem?_concat_line _ hne i.val
  constructor
  · rintro ⟨t, ht, hta⟩
    have hok := ht
    rw [hstep] at hok
    obtain ⟨pupa, hr, -⟩ := map_eq_ok.mp hok
    have hclosed : (parse (s.card.text ++ (content arg ++ [13, 10]))).Closed :=
      closed_append h.closed (closed_println _)
    have hcount := (h.pupa.of_readFile hclosed hr).1.count
    rw [happend] at hcount
    have hlt : (parse s.card.text).lines.length < MEMBER := by
      have : (parse s.card.text).lines.length + 1 ≤ MEMBER := by simpa using hcount
      exact this
    exact ⟨hlt, (hagrees (hiff.mpr hlt) ht).mp hta⟩
  · rintro ⟨hlt, hclear⟩
    have hread := hiff.mpr hlt
    have ht : Op.step s (.add arg) =
        .ok ⟨s.pupa.layout (parse (s.card.text ++ (content arg ++ [13, 10]))),
          (s.card.added .success arg).processed⟩ := by
      rw [hstep, (hread.readFile h.pupa).1]
      rfl
    exact ⟨_, ht, (hagrees hread ht).mpr hclear⟩

/-- From a tame store with equal table and file, a step succeeds and keeps them
equal exactly when it is clear. -/
theorem Store.Tame.step_iff {s : Store} (h : s.Tame) (ha : s.Agrees) {op : Op}
    (hw : op.WellFormed) : (∃ t, op.step s = .ok t ∧ t.Agrees) ↔ op.Clear s := by
  have hfile := ha.readable h
  have hmembers := (Store.agrees_iff s.pupa s.card hfile).mp ha
  cases op with
  | reboot =>
    obtain ⟨t, ht, -, hm, htext⟩ := Store.reboot_readable hfile
    refine ⟨fun _ => trivial, fun _ => ⟨t, (Op.step_reboot s).trans ht, ?_⟩⟩
    refine (Store.agrees_iff t.pupa t.card (by rw [htext]; exact hfile)).mpr ?_
    rw [hm, htext]
  | lookup arg =>
    refine ⟨fun _ => trivial, fun _ => ⟨_, Op.step_lookup h.pupa arg, ?_⟩⟩
    refine (Store.agrees_iff _ s.card hfile).mpr ?_
    exact (Pupa.members_searched h.pupa.terminated _).trans hmembers
  | add arg => exact h.add ha hw
  | remove arg =>
    rw [Op.step_remove h.pupa, Op.Clear]
    cases hl : s.pupa.lookup (wanted arg) with
    | none =>
      refine ⟨fun _ _ hk => absurd hk (by simp), fun _ =>
        ⟨{ s with pupa := s.pupa.trimTo MEMBER }, rfl, ?_⟩⟩
      refine (Store.agrees_iff _ s.card hfile).mpr ?_
      exact (Pupa.members_trimTo h.pupa.terminated _).trans hmembers
    | some k =>
      have hk : k.val < MEMBER := k.isLt
      have hread := Card.readable_without h.pupa hk s.card
      rw [Pupa.slotsFit_left h.pupa h.short] at hread
      constructor
      · rintro ⟨t, ht, pupa, hr, -⟩ j hj
        obtain rfl := Option.some.inj hj
        obtain rfl := Except.ok.inj ht
        have hclosed : (parse (s.card.without .success s.pupa k.val).text).Closed := by
          rw [Card.text_without h.pupa hk]
          exact Text.closed_mk _
        have hfits := (Pupa.sound_zero.of_readFile hclosed hr).1
        rw [Card.text_without h.pupa hk] at hfits
        exact hfits.count
      · intro hc
        refine ⟨⟨s.pupa.without k, s.card.without .success s.pupa k⟩, rfl, ?_⟩
        refine (Store.agrees_iff _ (s.card.without .success s.pupa k)
          (hread.mpr (hc k rfl))).mpr ?_
        exact (Card.members_without h.pupa hk s.card).symm

/-- The tame stores are kept as long as table and file were equal before. -/
theorem Store.Tame.step {s t : Store} (h : s.Tame) (ha : s.Agrees) {op : Op}
    (hw : op.WellFormed) (ht : op.step s = .ok t) : t.Tame := by
  have hsound := Op.step_sound ⟨h.pupa, h.closed⟩ ht
  have hfile := ha.readable h
  cases op with
  | reboot =>
    obtain ⟨u, hu, -, hm, htext⟩ := Store.reboot_readable hfile
    rw [Op.step_reboot, hu] at ht
    obtain rfl := Except.ok.inj ht
    refine ⟨hsound.pupa, hsound.file, by rw [htext]; exact h.plain, fun m hm' => ?_⟩
    rw [hm] at hm'
    exact hfile.fits.short hm'
  | lookup arg =>
    rw [Op.step_lookup h.pupa] at ht
    obtain rfl := Except.ok.inj ht
    refine ⟨hsound.pupa, hsound.file, h.plain, fun m hm => ?_⟩
    rw [Pupa.members_searched h.pupa.terminated] at hm
    exact h.short m hm
  | add arg =>
    obtain ⟨id, name, happend, hiff⟩ := hw.readable hfile
    rw [Op.step_add h.pupa, if_pos hw.added.1] at ht
    obtain ⟨pupa, hr, rfl⟩ := map_eq_ok.mp ht
    have hclosed : (parse (s.card.text ++ (content arg ++ [13, 10]))).Closed :=
      closed_append h.closed (closed_println _)
    obtain ⟨hfits, rfl, -⟩ := h.pupa.of_readFile hclosed hr
    have hread : (parse (s.card.text ++ (content arg ++ [13, 10]))).Readable := by
      rw [hiff]
      have hcount := hfits.count
      rw [happend] at hcount
      have hlt : (parse s.card.text).lines.length + 1 ≤ MEMBER := by simpa using hcount
      exact hlt
    refine ⟨hsound.pupa, hsound.file, hread.plain, fun m hm => ?_⟩
    rcases hread.members_layout h.pupa hm with hm | ⟨m', hm', rfl | rfl⟩
    · exact hfits.short hm
    · exact h.short _ hm'
    · exact ⟨(h.short m' hm').1, Nat.zero_le _⟩
  | remove arg =>
    rw [Op.step_remove h.pupa] at ht
    cases hl : s.pupa.lookup (wanted arg) with
    | none =>
      simp only [hl] at ht
      obtain rfl := Except.ok.inj ht
      refine ⟨hsound.pupa, hsound.file, h.plain, fun m hm => ?_⟩
      rw [Pupa.members_trimTo h.pupa.terminated] at hm
      exact h.short m hm
    | some k =>
      simp only [hl] at ht
      obtain rfl := Except.ok.inj ht
      have hk : k.val < MEMBER := k.isLt
      refine ⟨hsound.pupa, hsound.file, fun l hl => ?_, fun m hm => ?_⟩
      · rw [Card.text_without h.pupa hk] at hl
        obtain ⟨r, -, hl⟩ := List.mem_flatMap.mp hl
        exact Rfid.plain_lines hl
      · obtain ⟨j, hj, -, hjm⟩ := (Pupa.mem_members_without h.pupa hk).mp hm
        exact h.short m (Pupa.mem_members.mpr ⟨j, hj, hjm⟩)

/-- Table and file agree in every state of a history of well-formed steps exactly
when each step is clear in the state in which it is made. -/
theorem reboot_equivalence {ops : List Op} (hw : ∀ op ∈ ops, op.WellFormed) :
    Run.Always Op.step Store.Agrees Store.initial ops ↔
      Run.Guarded Op.step Op.Clear Store.initial ops := by
  have hinitial : Store.initial.Agrees :=
    (Store.agrees_iff Pupa.zero ⟨none, none, false⟩ readable_empty).mpr Pupa.members_zero
  exact Run.always_iff_guarded (fun hmem htame ha => htame.step_iff ha (hw _ hmem))
    (fun hmem htame ha ht => htame.step ha (hw _ hmem) ht) Store.tame_initial hinitial

/-- Two members are added with a lookup in between, and the first is removed: table
and file agree throughout. -/
theorem reboot_equivalence_looked_up :
    Run.Always Op.step Store.Agrees Store.initial
      [.reboot, .add [65, 65, 65, 65, 65, 65, 65, 65, 65, 65, 32, 97], .lookup [120],
        .add [66, 66, 66, 66, 66, 66, 66, 66, 66, 66, 32, 98], .remove [97], .lookup [98]] := by
  refine (reboot_equivalence fun op hop => ?_).mpr (by decide +kernel)
  have hrecord : ∀ c name : UInt8, isWord c → isWord name →
      (Op.add (List.replicate 10 c ++ 32 :: [name])).WellFormed := fun c name hc hname =>
    ⟨List.replicate 10 c, [name], rfl, fun d hd => (List.mem_replicate.mp hd).2 ▸ hc,
      fun d hd => List.mem_singleton.mp hd ▸ hname, List.length_replicate, le_rfl,
      Nat.succ_le_succ (Nat.zero_le 12)⟩
  simp only [List.mem_cons, List.not_mem_nil, or_false] at hop
  rcases hop with rfl | rfl | rfl | rfl | rfl | rfl
  · exact trivial
  · exact hrecord 65 97 rfl rfl
  · exact trivial
  · exact hrecord 66 98 rfl rfl
  · exact trivial
  · exact trivial

/-- The first of three members is removed and a fourth is added. The third has its
CR still in the name field when the file is rewritten, so it ends in two of them,
and the table then has a member that the file does not have. -/
theorem reboot_equivalence_doubled :
    (history [.reboot, .add [65, 65, 65, 65, 65, 65, 65, 65, 65, 65, 32, 97],
      .add [66, 66, 66, 66, 66, 66, 66, 66, 66, 66, 32, 98],
      .add [67, 67, 67, 67, 67, 67, 67, 67, 67, 67, 32, 99], .remove [97],
      .add [68, 68, 68, 68, 68, 68, 68, 68, 68, 68, 32, 100]] >>= fun s =>
      readFile Pupa.zero s.card.text >>= fun pupa => .ok (s.pupa.members, pupa.members)) =
      .ok ([(List.replicate 10 66, [98]), (List.replicate 10 67, []),
          (List.replicate 10 67, [99]), (List.replicate 10 68, [100])],
        [(List.replicate 10 66, [98]), (List.replicate 10 67, [99]),
          (List.replicate 10 68, [100])]) := by
  decide +kernel

end SmartDoor
