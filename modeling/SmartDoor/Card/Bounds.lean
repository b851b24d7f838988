import SmartDoor.Card.Commands

/-!
# Accesses outside the table

`read_file` does not check its three counters. On a sound store its writes stay
inside the table exactly when the text that it is given fits, and no other write
of an operation ever leaves its array. What it has read it then lists: a word of
twelve letters alone on its line leaves no room for a terminator in `member_id`,
and the listing reads on behind it. In every history whose texts fit and have at
most eleven letters in such a word, all accesses stay inside.
-/

namespace SmartDoor

open CString

/-! ## When `read_file` succeeds -/

/-- The text fits the table, and no word alone on a line takes the terminator of the id in its
slot. -/
structure Pupa.Takes (pupa : Pupa) (t : Text) : Prop where
  fits : t.Fits
  lone : ∀ i (hi : i < MEMBER), ∀ l ∈ t.lines[i]?, l.more = [] →
    CString.Terminated (overlay pupa[i].memberId l.first).toList

/-- Over a sound table, `read_file` succeeds on the closed texts that the table takes. -/
theorem Pupa.Sound.readFile_ok_iff {pupa : Pupa} (hp : pupa.Sound) {f : Bytes}
    (hc : (parse f).Closed) :
    (∃ pupa', SmartDoor.readFile pupa f = .ok pupa') ↔ pupa.Takes (parse f) := by
  constructor
  · rintro ⟨pupa', h⟩
    obtain ⟨hfit, rfl, hsound⟩ := hp.of_readFile hc h
    refine ⟨hfit, fun i hi l hl hmore => ?_⟩
    have hid := (hsound i hi).id
    rw [Pupa.getElem_layout_line hi hl] at hid
    obtain ⟨w, more⟩ := l
    obtain rfl : more = [] := hmore
    exact hid
  · intro h
    have hterm : (pupa.layout (parse f)).Terminated := by
      intro i hi
      by_cases hlt : i < (parse f).lines.length
      · have hget := List.getElem?_eq_getElem hlt
        have hmem := List.getElem_mem hlt
        rw [Pupa.getElem_layout_line hi hget]
        refine ⟨?_, Line.terminated_place (h.fits.lines _ hmem) _⟩
        by_cases hmore : (parse f).lines[i].more = []
        · have hid := h.lone i hi _ hget hmore
          generalize (parse f).lines[i] = l at hmore hid ⊢
          obtain ⟨w, more⟩ := l
          obtain rfl : more = [] := hmore
          exact hid
        · exact (Line.place_spaced ((parse_words f).1 _ hmem) (h.fits.lines _ hmem) hmore
            (hp i hi).tidyId (hp i hi).tidyName).1.id
      · rw [Pupa.getElem_layout_rest hc hi (by omega)]
        exact hp.terminated i hi
    obtain ⟨lines, hlines⟩ := listing_of_terminated hterm
    exact ⟨_, by rw [readFile_eq, if_pos h.fits, hlines]; rfl⟩

instance (pupa : Pupa) (t : Text) : Decidable (pupa.Takes t) :=
  decidable_of_iff (t.Fits ∧ ∀ i : Fin MEMBER, ∀ l ∈ t.lines[i.val]?, l.more = [] →
      CString.Terminated (overlay (pupa.get i).memberId l.first).toList)
    ⟨fun h => ⟨h.1, fun i hi => h.2 ⟨i, hi⟩⟩, fun h => ⟨h.fits, fun i => h.lone i.val i.isLt⟩⟩

/-- Every table takes the empty text. -/
theorem Pupa.Sound.takes_empty {pupa : Pupa} (hp : pupa.Sound) : pupa.Takes (parse []) := by
  have hc : (parse []).Closed := rfl
  have hread := (hp.readFile hc (by decide) fun l hl => absurd hl List.not_mem_nil).1
  exact (hp.readFile_ok_iff hc).mp ⟨_, hread⟩

/-- What `add_member` leaves ends in a CR and a LF. -/
theorem Card.closed_added {c : Card} (hc : (parse c.text).Closed) (o : SdOutcome) (arg : Bytes) :
    (parse (c.added o arg).text).Closed :=
  Card.closed_appended hc (closed_println _) o.addOpen

/-! ## When no write leaves the table -/

/-- The text that an operation gives to `read_file`, if any. -/
def Op.reads (s : Store) : Op → Bytes
  | .reboot => s.card.text
  | .add arg => if 10 ≤ (content arg).length then s.card.text ++ (content arg ++ [13, 10]) else []
  | .remove _ => []
  | .lookup _ => []

/-- The text that an operation reads has at most thirty lines, at most ten
letters in a word before a blank, at most thirteen in the last word of a line,
and at most twelve in a line of one word. -/
def Op.Fits (s : Store) (op : Op) : Prop := (parse (op.reads s)).Fits

instance (s : Store) (op : Op) : Decidable (op.Fits s) :=
  inferInstanceAs (Decidable (parse (op.reads s)).Fits)

/-- An operation on a sound store writes outside an array exactly when its text
does not fit. -/
theorem Op.step_ne_overwrite {s : Store} (hs : s.Sound) (op : Op) :
    op.step s ≠ .error .overwrite ↔ op.Fits s := by
  have hempty : (parse []).Fits := by decide
  have hread : ∀ {α : Type} (pupa : Pupa) (f : Bytes) (g : Pupa → α),
      (readFile pupa f).map g ≠ .error .overwrite ↔ (parse f).Fits := fun pupa f g => by
    rw [← readFile_ne_overwrite pupa f, ne_eq, map_eq_error]
  rw [Op.step_eq, ne_eq, map_eq_error, Op.Fits]
  cases op with
  | reboot =>
    rw [Op.exec_reboot]
    exact hread ..
  | add arg =>
    rw [Op.exec_add _ hs.pupa, Op.reads]
    split
    · exact hread ..
    · exact ⟨fun _ => hempty, fun _ h => by cases h⟩
  | remove arg =>
    rw [Op.exec_remove _ hs.pupa]
    cases s.pupa.lookup (wanted arg) with
    | none => exact ⟨fun _ => hempty, fun _ h => by cases h⟩
    | some k => exact ⟨fun _ => hempty, fun _ h => by cases h⟩
  | lookup arg =>
    rw [Op.exec_lookup _ hs.pupa]
    exact ⟨fun _ => hempty, fun _ h => by cases h⟩

/-! ## The last byte of an id -/

/-- The last byte of the id of a slot is a NUL. -/
def Rfid.Sealed (r : Rfid) : Prop := r.memberId[11]? = some 0

/-- `Sealed` with a checked index. -/
theorem Rfid.sealed_iff {r : Rfid} (h : 11 < 12) : r.Sealed ↔ r.memberId[11] = 0 := by
  rw [Sealed, Vector.getElem?_eq_getElem h, Option.some.injEq]

/-- The ids of a table end in a NUL. -/
def Pupa.Sealed (pupa : Pupa) : Prop := ∀ i (hi : i < MEMBER), pupa[i].Sealed

/-- The table starts with zeros. -/
theorem Pupa.sealed_zero : Pupa.zero.Sealed := fun i hi => by
  simp [Rfid.Sealed, Pupa.zero, Rfid.zero]

/-- The words after a blank end the id before its last byte. -/
theorem Rfid.Sealed.words {r : Rfid} (hr : r.Sealed) {limit : Nat} {w : Bytes} {more : List Bytes}
    (hf : Line.FitsFrom limit w more) : (Rfid.words r w more).Sealed := by
  induction more generalizing r limit w with
  | nil => exact hr
  | cons v more ih =>
    obtain ⟨hlen, hrest⟩ := hf
    refine ih (r := ⟨endAt r.memberId w.length, overlay r.memberName v⟩) ?_ hrest
    rw [sealed_iff (by decide), endAt, Vector.getElem_setIfInBounds, Vector.getElem_setIfInBounds,
      if_neg (show ¬ w.length = 11 by omega), (sealed_iff _).mp hr, ite_self]

/-- A line that fits leaves the last byte of the id alone, if its word ends before it. -/
theorem Rfid.Sealed.place {r : Rfid} (hr : r.Sealed) {l : Line} (hf : l.Fits)
    (hlone : l.more = [] → l.first.length ≤ 11) : (l.place r).Sealed := by
  have hlen : l.first.length ≤ 11 := by
    obtain ⟨w, more⟩ := l
    cases more with
    | nil => exact hlone rfl
    | cons v more => exact hf.1.1.trans (by decide)
  have hfirst : Rfid.Sealed ⟨overlay r.memberId l.first, r.memberName⟩ := by
    rw [sealed_iff (by decide), getElem_overlay, List.getElem?_eq_none (by omega), Option.getD_none,
      (sealed_iff _).mp hr]
  exact hfirst.words hf.1

/-- Trimming keeps the NULs. -/
theorem Rfid.Sealed.trimmed {r : Rfid} (hr : r.Sealed) : r.trimmed.Sealed :=
  (sealed_iff (by decide)).mpr (getElem_trimAt_zero ((sealed_iff _).mp hr))

/-- A copied id has its terminator at the last byte or before it. -/
theorem Rfid.Sealed.copied {dst src : Rfid} (hd : dst.Sealed) (hs : src.Terminated) :
    (dst.copied src).Sealed := by
  have hlen := hs.id.length_content_lt
  rw [Vector.length_toList] at hlen
  have hover : ∀ w : Bytes, w.length < 12 → (overlay dst.memberId (w ++ [0]))[11] = 0 := by
    intro w hw
    rw [getElem_overlay, List.getElem?_append]
    split
    · omega
    · rw [List.getElem?_singleton]
      split
      · rfl
      · exact (sealed_iff _).mp hd
  rw [Rfid.copied]
  split
  · exact (sealed_iff (by decide)).mpr (hover [] (by decide))
  · exact (sealed_iff (by decide)).mpr (hover _ hlen)

/-- A lookup keeps the NULs at the ends of the ids. -/
theorem Pupa.Sealed.trimTo {pupa : Pupa} (h : pupa.Sealed) (k : Nat) : (pupa.trimTo k).Sealed := by
  intro i hi
  rw [Pupa.getElem_trimTo]
  split
  · exact (h i hi).trimmed
  · exact h i hi

/-- A removal keeps the NULs at the ends of the ids. -/
theorem Pupa.Sealed.without {pupa : Pupa} (h : pupa.Sealed) (hp : pupa.Terminated) (k : Nat) :
    (pupa.without k).Sealed := by
  have htrim := h.trimTo (k + 1)
  have hterm := hp.trimTo (k + 1)
  intro i hi
  rw [Pupa.without, Pupa.written, Vector.getElem_map]
  refine (Rfid.sealed_iff (by decide)).mpr (getElem_trimAt_zero ((Rfid.sealed_iff _).mp ?_))
  by_cases hcopied : k ≤ i ∧ i + 1 < MEMBER
  · rw [Pupa.getElem_shifted _ hcopied.1 hcopied.2]
    exact (htrim i hi).copied (hterm (i + 1) hcopied.2)
  · rw [Pupa.getElem_shifted_of_not _ hi hcopied]
    exact htrim i hi

/-- A word alone on its line that leaves room for a terminator. -/
def Text.Short (t : Text) : Prop := ∀ l ∈ t.lines, l.more = [] → l.first.length ≤ 11

instance (t : Text) : Decidable t.Short :=
  inferInstanceAs (Decidable (∀ l ∈ t.lines, _ → _))

/-- Where the ids end in a NUL, the table takes the texts that fit and have at most eleven
letters in a word alone on its line. -/
theorem Pupa.Sealed.takes_iff {pupa : Pupa} (h : pupa.Sealed) {t : Text}
    (hw : ∀ l ∈ t.lines, l.Words) : pupa.Takes t ↔ t.Fits ∧ t.Short := by
  constructor
  · intro ht
    refine ⟨ht.fits, fun l hl hmore => ?_⟩
    obtain ⟨i, hi, rfl⟩ := List.getElem_of_mem hl
    have hslot : i < MEMBER := lt_of_lt_of_le hi ht.fits.count
    have hterm := ht.lone i hslot _ (List.getElem?_eq_getElem hi) hmore
    have hfits := (ht.fits.lines _ hl).1
    generalize t.lines[i] = l at hl hmore hterm hfits ⊢
    obtain ⟨w, more⟩ := l
    obtain rfl : more = [] := hmore
    have hle : w.length ≤ 12 := hfits
    rw [CString.Terminated, toList_overlay _ _ hle, List.mem_append] at hterm
    rcases hterm with hzero | hzero
    · exact absurd (hw _ hl w List.mem_cons_self 0 hzero) (by decide)
    · have hlen := List.length_pos_of_mem hzero
      rw [List.length_drop, Vector.length_toList] at hlen
      change w.length ≤ 11
      have : 12 - w.length > 0 := hlen
      omega
  · rintro ⟨hfits, hshort⟩
    refine ⟨hfits, fun i hi l hl hmore => ?_⟩
    have hlen := hshort l (List.mem_of_getElem? hl) hmore
    have hlast : (overlay pupa[i].memberId l.first)[11] = 0 := by
      rw [getElem_overlay, List.getElem?_eq_none (by omega), Option.getD_none,
        (Rfid.sealed_iff _).mp (h i hi)]
    refine List.mem_of_getElem? (i := 11) ?_
    rw [Vector.getElem?_toList, Vector.getElem?_eq_getElem (by decide), hlast]

/-- What `read_file` loads from a closed text keeps the NULs at the ends of the ids. -/
theorem Pupa.Sealed.of_readFile {pupa pupa' : Pupa} (h : pupa.Sealed) (hp : pupa.Sound) {f : Bytes}
    (hc : (parse f).Closed) (hread : readFile pupa f = .ok pupa') : pupa'.Sealed := by
  have htakes := (hp.readFile_ok_iff hc).mp ⟨_, hread⟩
  obtain ⟨hfits, hshort⟩ := (h.takes_iff (parse_words f).1).mp htakes
  obtain ⟨-, rfl, -⟩ := hp.of_readFile hc hread
  intro i hi
  by_cases hlt : i < (parse f).lines.length
  · have hmem := List.getElem_mem hlt
    rw [Pupa.getElem_layout_line hi (List.getElem?_eq_getElem hlt)]
    exact (h i hi).place (hfits.lines _ hmem) (hshort _ hmem)
  · rw [Pupa.getElem_layout_rest hc hi (by omega)]
    exact h i hi

/-! ## Histories -/

/-- The store of a history whose accesses have stayed inside the table. -/
structure Store.Intact (s : Store) : Prop where
  sound : s.Sound
  ends : s.pupa.Sealed

/-- The text that an operation reads fits, and a word alone on its line has at most eleven
letters. -/
def Op.Short (s : Store) (op : Op) : Prop := op.Fits s ∧ (parse (op.reads s)).Short

instance (s : Store) (op : Op) : Decidable (op.Short s) :=
  inferInstanceAs (Decidable (_ ∧ _))

/-- An operation stays inside the arrays exactly when its text is short, and then so do those
behind it. -/
theorem Op.step_ok_iff {s : Store} (hs : s.Intact) (op : Op) :
    (∃ t, op.step s = .ok t) ↔ op.Short s := by
  have hempty : (parse []).Fits ∧ (parse []).Short := by decide
  have hread : ∀ {α : Type} {pupa : Pupa} {f : Bytes} (g : Pupa → α), pupa.Sound → pupa.Sealed →
      (parse f).Closed →
      ((∃ t, (readFile pupa f).map g = .ok t) ↔ (parse f).Fits ∧ (parse f).Short) :=
    fun g hp hsealed hc => by
      rw [← hsealed.takes_iff (parse_words _).1, ← hp.readFile_ok_iff hc]
      constructor
      · rintro ⟨t, ht⟩
        obtain ⟨pupa', hpupa, -⟩ := map_eq_ok.mp ht
        exact ⟨pupa', hpupa⟩
      · rintro ⟨pupa', hpupa⟩
        exact ⟨g pupa', map_eq_ok.mpr ⟨pupa', hpupa, rfl⟩⟩
  cases op with
  | reboot =>
    rw [Op.step_reboot, Store.reboot, Store.sdcardProcess_eq Pupa.sound_zero]
    exact hread _ Pupa.sound_zero Pupa.sealed_zero hs.sound.file
  | add arg =>
    rw [Op.step_add hs.sound.pupa, Op.Short, Op.Fits, Op.reads]
    split
    · exact hread _ hs.sound.pupa hs.ends (Card.closed_added hs.sound.file .success arg)
    · exact iff_of_true ⟨_, rfl⟩ hempty
  | remove arg =>
    rw [Op.step_remove hs.sound.pupa]
    cases s.pupa.lookup (wanted arg) with
    | none => exact iff_of_true ⟨_, rfl⟩ hempty
    | some k => exact iff_of_true ⟨_, rfl⟩ hempty
  | lookup arg =>
    rw [Op.step_lookup hs.sound.pupa]
    exact iff_of_true ⟨_, rfl⟩ hempty

/-- An operation inside the arrays leaves a store in which this goes on. -/
theorem Op.step_intact {s t : Store} {op : Op} (hs : s.Intact) (h : op.step s = .ok t) :
    t.Intact := by
  refine ⟨Op.step_sound hs.sound h, ?_⟩
  cases op with
  | reboot =>
    rw [Op.step_reboot, Store.reboot, Store.sdcardProcess_eq Pupa.sound_zero] at h
    obtain ⟨pupa, hread, rfl⟩ := map_eq_ok.mp h
    exact Pupa.sealed_zero.of_readFile Pupa.sound_zero hs.sound.file hread
  | add arg =>
    rw [Op.step_add hs.sound.pupa] at h
    split at h
    · obtain ⟨pupa, hread, rfl⟩ := map_eq_ok.mp h
      exact hs.ends.of_readFile hs.sound.pupa (Card.closed_added hs.sound.file .success arg) hread
    · obtain rfl := Except.ok.inj h
      exact hs.ends
  | remove arg =>
    rw [Op.step_remove hs.sound.pupa] at h
    cases hl : s.pupa.lookup (wanted arg) with
    | none =>
      rw [hl] at h
      obtain rfl := Except.ok.inj h
      exact hs.ends.trimTo _
    | some k =>
      rw [hl] at h
      obtain rfl := Except.ok.inj h
      exact hs.ends.without hs.sound.pupa.terminated _
  | lookup arg =>
    rw [Op.step_lookup hs.sound.pupa] at h
    obtain rfl := Except.ok.inj h
    obtain ⟨k, hk⟩ := s.pupa.searched_trimTo (wanted arg)
    rw [hk]
    exact hs.ends.trimTo k

/-- The empty card and the table of zeros. -/
theorem Store.intact_initial : Store.initial.Intact := ⟨Store.sound_initial, Pupa.sealed_zero⟩

/-- A history makes all its accesses inside the arrays exactly when the text of each of its steps
is short, in the state in which the step is made; then it has made no write outside the table.
The next operation writes outside the table exactly when its text does not fit. -/
theorem table_bounds (ops : List Op) :
    ((∃ s, history ops = .ok s) ↔ Run.Guarded Op.step Op.Short Store.initial ops) ∧
      (Run.Guarded Op.step Op.Short Store.initial ops → history ops ≠ .error .overwrite) ∧
      ∀ s, history ops = .ok s → ∀ op,
        (history (ops ++ [op]) ≠ .error .overwrite ↔ op.Fits s) := by
  have hiff : (∃ s, history ops = .ok s) ↔ Run.Guarded Op.step Op.Short Store.initial ops :=
    Run.ok_iff_guarded (fun hs h => Op.step_intact hs h) (fun hs => Op.step_ok_iff hs _)
      Store.intact_initial
  refine ⟨hiff, fun hg herror => ?_, fun s hs op => ?_⟩
  · obtain ⟨s, hs⟩ := hiff.mpr hg
    rw [hs] at herror
    cases herror
  · rw [← Op.step_ne_overwrite (history_sound hs) op, history, List.foldlM_append]
    have hfold : ops.foldlM Op.step Store.initial = .ok s := hs
    rw [hfold, ok_bind, List.foldlM_cons]
    simp only [List.foldlM_nil, bind_pure]

/-- A name of sixteen letters, added to an empty card, is written over the end of
`member_name`. -/
theorem table_bounds_long_name :
    history [.reboot, .add [65, 65, 65, 65, 65, 65, 65, 65, 65, 65, 32,
      97, 98, 99, 100, 101, 102, 103, 104, 105, 106, 107, 108, 109, 110, 111, 112]] =
        .error .overwrite := by
  decide +kernel

end SmartDoor
