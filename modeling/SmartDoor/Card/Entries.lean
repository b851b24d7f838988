import SmartDoor.Card.Sound

/-!
# The members that a text puts into the table

Reading a line with a blank puts its id and its name into the slot, whatever the
slot held. The empty line that a doubled CR leaves keeps the id of its slot and
takes away the name. A line that is one word keeps the rest of the old id. On a
closed text that fits, `read_file` takes a sound table to a sound table unless an
id is left without a terminator, which the listing at its end runs into.
-/

namespace SmartDoor

open CString

/-- A slot with two terminated, tidy fields. -/
structure Rfid.Sound (r : Rfid) : Prop extends Rfid.Terminated r where
  tidyId : Tidy r.memberId
  tidyName : Tidy r.memberName

/-- Every slot of the table is sound. -/
def Pupa.Sound (pupa : Pupa) : Prop := ∀ i (h : i < MEMBER), pupa[i].Sound

/-- The CRs that are still behind the name of a slot. -/
def Rfid.crs (r : Rfid) : Nat := SmartDoor.crs r.memberName

theorem Pupa.Sound.terminated {pupa : Pupa} (h : pupa.Sound) : pupa.Terminated :=
  fun i hi => (h i hi).toTerminated

theorem Rfid.Sound.words_id {r : Rfid} (h : r.Sound) : ∀ c ∈ Rfid.id r, isWord c :=
  h.tidyId.eq_word.2

theorem Rfid.Sound.words_name {r : Rfid} (h : r.Sound) : ∀ c ∈ Rfid.name r, isWord c :=
  h.tidyName.eq_word.2

theorem Rfid.Sound.content_name {r : Rfid} (h : r.Sound) :
    content r.memberName.toList = Rfid.name r ++ List.replicate r.crs 13 :=
  h.tidyName.eq_word.1

theorem Rfid.Sound.trimmed {r : Rfid} (h : r.Sound) : r.trimmed.Sound :=
  ⟨h.toTerminated.trimmed, h.tidyId.trimAt 0, h.tidyName.trimAt 0⟩

theorem Pupa.Sound.trimTo {pupa : Pupa} (h : pupa.Sound) (k : Nat) : (pupa.trimTo k).Sound := by
  intro i hi
  rw [Pupa.getElem_trimTo]
  split
  · exact (h i hi).trimmed
  · exact h i hi

theorem Rfid.sound_zero : Rfid.zero.Sound :=
  ⟨⟨by decide, by decide⟩, tidy_replicate, tidy_replicate⟩

theorem Pupa.sound_zero : Pupa.zero.Sound := by
  intro i hi
  simpa [Pupa.zero] using Rfid.sound_zero

/-! ## One line over one slot -/

theorem Rfid.tidy_words {r : Rfid} (hid : Tidy r.memberId) (hname : Tidy r.memberName)
    {w : Bytes} {more : List Bytes} (hw : ∀ v ∈ more, ∀ c ∈ v, isWord c) :
    Tidy (r.words w more).memberId ∧ Tidy (r.words w more).memberName := by
  induction more generalizing r w with
  | nil => exact ⟨hid, hname⟩
  | cons v more ih =>
    rw [Rfid.words]
    exact ih (r := ⟨endAt r.memberId w.length, overlay r.memberName v⟩) (hid.endAt w.length)
      (hname.overlay (hw v (List.mem_cons_self ..))) fun u hu => hw u (List.mem_cons_of_mem _ hu)

/-- Whatever the words of a line, its slot stays tidy. -/
theorem Line.tidy_place {l : Line} (hl : l.Words) {r : Rfid} (hid : Tidy r.memberId)
    (hname : Tidy r.memberName) :
    Tidy (l.place r).memberId ∧ Tidy (l.place r).memberName := by
  have h := Rfid.tidy_words (r := ⟨overlay r.memberId l.first, r.memberName⟩) (w := l.first)
    (hid.overlay hl.first) hname fun v hv => hl v (List.mem_cons_of_mem _ hv)
  exact ⟨h.1, h.2.endAt _⟩

/-- The CR of a line ends the name. -/
theorem Line.terminated_place {l : Line} (hf : l.Fits) (r : Rfid) :
    CString.Terminated (l.place r).memberName.toList := by
  have hlast := hf.2
  exact terminated_endAt _ (by omega)

/-- The words after a blank: the id is cut to the length of each word that another
blank follows, and the name ends up under the last word. -/
theorem Rfid.words_spaced {r : Rfid} {w v : Bytes} {more : List Bytes}
    (hid : Tidy (endAt r.memberId w.length))
    (ht : CString.Terminated (endAt r.memberId w.length).toList)
    (hf : Line.FitsFrom 15 v more) :
    CString.Terminated (r.words w (v :: more)).memberId.toList ∧
    Rfid.id (r.words w (v :: more)) = (v :: more).dropLast.foldl (fun i u => i.take u.length)
      (strip (content (endAt r.memberId w.length).toList)) ∧
    ∃ name, (r.words w (v :: more)).memberName = overlay name (Line.mk w (v :: more)).last := by
  induction more generalizing r w v with
  | nil => exact ⟨ht, rfl, r.memberName, rfl⟩
  | cons u more ih =>
    have hv : v.length + 1 < 12 := by
      have := hf.1
      omega
    have hnext := ih (r := ⟨endAt r.memberId w.length, overlay r.memberName v⟩) (w := v) (v := u)
      (hid.endAt v.length) (terminated_endAt _ hv) hf.2
    rw [strip_endAt hid ht hv, Line.last_cons] at hnext
    rw [Line.last_cons, Line.last_cons, Rfid.words]
    exact hnext

/-- A line with a blank puts its id and its name into any slot. -/
theorem Line.place_spaced {l : Line} (hl : l.Words) (hf : l.Fits) (hm : l.more ≠ []) {r : Rfid}
    (hid : Tidy r.memberId) (hname : Tidy r.memberName) :
    (l.place r).Sound ∧ (l.place r).id = l.id ∧ (l.place r).name = l.name := by
  obtain ⟨w, more⟩ := l
  cases more with
  | nil => exact absurd rfl hm
  | cons v more =>
    have hw : ∀ c ∈ w, isWord c := hl.first
    have hlen : w.length ≤ 10 := hf.1.1
    have hend : endAt (overlay r.memberId w) w.length = overlay r.memberId (w ++ [13, 0]) :=
      endAt_overlay ..
    have htidy := (hid.overlay hw).endAt w.length
    obtain ⟨ht, hcut, name, hover⟩ := Rfid.words_spaced
      (r := ⟨overlay r.memberId w, r.memberName⟩) htidy (terminated_endAt _ (by omega)) hf.1.2
    have hlast : (Line.mk w (v :: more)).last.length ≤ 13 := hf.2
    have hlastw : ∀ c ∈ (Line.mk w (v :: more)).last, isWord c := by
      apply hl
      simp [Line.last, List.getLast?_eq_some_getLast]
    have hid' : (Line.place ⟨w, v :: more⟩ r).memberId =
        (Rfid.words ⟨overlay r.memberId w, r.memberName⟩ w (v :: more)).memberId := by
      simp only [Line.place, Line.placeOpen]
    have hname' : (Line.place ⟨w, v :: more⟩ r).memberName =
        overlay name ((Line.mk w (v :: more)).last ++ [13, 0]) := by
      rw [← endAt_overlay, ← hover]
      rfl
    have hall := Line.tidy_place hl hid hname
    rw [← hid'] at ht
    refine ⟨⟨⟨ht, Line.terminated_place hf r⟩, hall.1, hall.2⟩, ?_, ?_⟩
    · rw [hend, content_overlay_cr _ hw (by omega), strip_cr hw, Rfid.id, ← hid'] at hcut
      exact hcut
    · rw [Rfid.name, hname', content_overlay_cr _ hlastw (by omega), strip_cr hlastw]
      simp [Line.last, Line.name, List.getLast?_eq_some_getLast]

/-- The empty line keeps the id of its slot and leaves it without a name. -/
theorem Line.place_empty {r : Rfid} (hr : r.Sound) :
    (Line.empty.place r).Sound ∧ (Line.empty.place r).id = r.id ∧
      (Line.empty.place r).name = [] := by
  have hplace : Line.empty.place r = ⟨r.memberId, endAt r.memberName 0⟩ := by
    rw [Line.place, Line.placeOpen_empty]
    rfl
  rw [hplace]
  refine ⟨⟨⟨hr.id, terminated_endAt _ (by decide)⟩, hr.tidyId, hr.tidyName.endAt 0⟩, rfl, ?_⟩
  rw [Rfid.name, strip_endAt hr.tidyName hr.name (by decide), List.take_zero]

/-- A line that is not a word alone: it is empty, or it has a blank. -/
def Line.Plain (l : Line) : Prop := l = .empty ∨ l.more ≠ []

instance (l : Line) : Decidable l.Plain := inferInstanceAs (Decidable (_ ∨ _))

theorem Line.plain_empty : Line.empty.Plain := Or.inl rfl

theorem Line.plain_record (id name : Bytes) : (Line.record id name).Plain := Or.inr (by simp)

/-- The trimmed id and the trimmed name of a slot. -/
def Rfid.entry (r : Rfid) : Bytes × Bytes := (r.id, r.name)

/-- What a plain line makes of the entry of its slot. -/
def Line.enter (l : Line) (e : Bytes × Bytes) : Bytes × Bytes :=
  if l = .empty then (e.1, []) else (l.id, l.name)

@[simp] theorem Line.enter_empty (e : Bytes × Bytes) : Line.empty.enter e = (e.1, []) := rfl

@[simp] theorem Line.enter_record (id name : Bytes) (e : Bytes × Bytes) :
    (Line.record id name).enter e = (id, name) := by
  simp [Line.enter, Line.record, Line.empty, Line.id, Line.name]

/-- A plain line over a sound slot. -/
theorem Line.Plain.place {l : Line} (hp : l.Plain) (hl : l.Words) (hf : l.Fits) {r : Rfid}
    (hr : r.Sound) : (l.place r).Sound ∧ (l.place r).entry = l.enter r.entry := by
  by_cases he : l = Line.empty
  · subst he
    obtain ⟨hs, hid, hname⟩ := Line.place_empty hr
    exact ⟨hs, by simp [Rfid.entry, hid, hname]⟩
  · obtain ⟨hs, hid, hname⟩ := Line.place_spaced hl hf (hp.resolve_left he) hr.tidyId hr.tidyName
    exact ⟨hs, by simp [Rfid.entry, Line.enter, he, hid, hname]⟩

/-! ## The listing -/

private theorem mapM_ok_mem {α β ε : Type} {f : α → Except ε β} {xs : List α} {ys : List β}
    (h : xs.mapM f = .ok ys) {x : α} (hx : x ∈ xs) : ∃ y, f x = .ok y := by
  induction xs generalizing ys with
  | nil => cases hx
  | cons a xs ih =>
    rw [List.mapM_cons] at h
    obtain ⟨b, hb, h⟩ := bind_eq_ok.mp h
    obtain ⟨bs, hbs, _⟩ := bind_eq_ok.mp h
    rcases List.mem_cons.mp hx with rfl | hx
    · exact ⟨b, hb⟩
    · exact ih hbs hx

private theorem mapM_error {α β ε : Type} {f : α → Except ε β} {xs : List α} {e : ε}
    (h : xs.mapM f = .error e) : ∃ x, f x = .error e := by
  induction xs with
  | nil => cases h
  | cons a xs ih =>
    rw [List.mapM_cons] at h
    rcases bind_eq_error.mp h with h | ⟨b, _, h⟩
    · exact ⟨a, h⟩
    · rcases bind_eq_error.mp h with h | ⟨bs, _, h⟩
      · exact ih h
      · cases h

private theorem mapM_ok {α β ε : Type} (f : α → Except ε β) (xs : List α)
    (h : ∀ x ∈ xs, ∃ y, f x = .ok y) : ∃ ys, xs.mapM f = .ok ys := by
  induction xs with
  | nil => exact ⟨[], rfl⟩
  | cons a xs ih =>
    obtain ⟨b, hb⟩ := h a (List.mem_cons_self ..)
    obtain ⟨bs, hbs⟩ := ih fun x hx => h x (List.mem_cons_of_mem _ hx)
    exact ⟨b :: bs, by rw [List.mapM_cons, hb, hbs]; rfl⟩

/-- The first byte decides whether the listing prints a slot. -/
theorem streq_empty (v : Vector UInt8 12) : streq v.toList [0] = .ok (decide (v[0] = 0)) := by
  have hcons : v.toList = v[0] :: v.toList.tail := by
    have hne : v.toList ≠ [] := List.ne_nil_of_length_pos (by simp)
    have hhead : v.toList.head hne = v[0] := by
      rw [List.head_eq_getElem, Vector.getElem_toList]
    rw [← hhead, List.cons_head_tail]
  rw [hcons]
  exact streq_zero []

/-- The listing succeeds only when every id holds a terminator. -/
theorem terminated_of_listing {pupa : Pupa} {lines : List (Bytes × Bytes)}
    (h : listing pupa = .ok lines) {i : Nat} (hi : i < MEMBER) :
    CString.Terminated pupa[i].memberId.toList := by
  rw [listing] at h
  obtain ⟨ls, hls, _⟩ := bind_eq_ok.mp h
  obtain ⟨y, hy⟩ := mapM_ok_mem hls (x := pupa[i]) (by simp)
  rw [streq_empty, ok_bind] at hy
  by_cases h0 : pupa[i].memberId[0] = 0
  · have hmem : pupa[i].memberId[0] ∈ pupa[i].memberId.toList := by simp
    rwa [h0] at hmem
  · rw [decide_eq_false h0] at hy
    obtain ⟨a, ha, _⟩ := bind_eq_ok.mp hy
    by_contra hno
    rw [puts, if_neg hno] at ha
    cases ha

/-- The listing reads, so the only fault it knows is a read. -/
theorem listing_ne_overwrite (pupa : Pupa) : listing pupa ≠ .error .overwrite := by
  have hputs : ∀ m, puts m ≠ .error .overwrite := fun m => by
    rw [puts]
    split <;> exact fun h => by cases h
  intro h
  rw [listing] at h
  rcases bind_eq_error.mp h with h | ⟨ls, _, h⟩
  · obtain ⟨r, hr⟩ := mapM_error h
    rw [streq_empty, ok_bind] at hr
    split at hr
    · cases hr
    · rcases bind_eq_error.mp hr with hr | ⟨a, _, hr⟩
      · exact hputs _ hr
      · rcases bind_eq_error.mp hr with hr | ⟨b, _, hr⟩
        · exact hputs _ hr
        · cases hr
  · cases h

theorem listing_of_terminated {pupa : Pupa} (h : pupa.Terminated) :
    ∃ lines, listing pupa = .ok lines := by
  obtain ⟨ls, hls⟩ := mapM_ok (fun r : Rfid => do
      if ← streq r.memberId.toList [0] then return []
      else return [(← puts r.memberId.toList, ← puts r.memberName.toList)])
      pupa.toList fun r hr => by
    obtain ⟨i, hi, rfl⟩ := List.getElem_of_mem hr
    have ht := h i (by simpa using hi)
    rw [Vector.getElem_toList, streq_empty, ok_bind, puts, if_pos ht.id, puts, if_pos ht.name]
    split
    · exact ⟨_, rfl⟩
    · exact ⟨_, rfl⟩
  exact ⟨ls.flatten, by rw [listing, hls]; rfl⟩

/-! ## Reading a closed text -/

/-- The result of a successful `read_file` on a closed text is sound again. -/
theorem Pupa.Sound.of_readFile {pupa pupa' : Pupa} (hp : pupa.Sound) {f : Bytes}
    (hc : (parse f).Closed) (h : readFile pupa f = .ok pupa') :
    (parse f).Fits ∧ pupa' = pupa.layout (parse f) ∧ pupa'.Sound := by
  rw [readFile_eq] at h
  split at h
  · rename_i hfit
    cases hl : listing (pupa.layout (parse f)) with
    | error e =>
      rw [hl] at h
      cases h
    | ok lines =>
      rw [hl] at h
      obtain rfl : pupa.layout (parse f) = pupa' := Except.ok.inj h
      refine ⟨hfit, rfl, fun i hi => ?_⟩
      have hid := terminated_of_listing hl hi
      by_cases hlt : i < (parse f).lines.length
      · have hget : (pupa.layout (parse f))[i] = (parse f).lines[i].place pupa[i] :=
          Pupa.getElem_layout_line hi (List.getElem?_eq_getElem hlt)
        have hmem := List.getElem_mem hlt
        rw [hget] at hid ⊢
        have htidy := Line.tidy_place ((parse_words f).1 _ hmem) (hp i hi).tidyId (hp i hi).tidyName
        exact ⟨⟨hid, Line.terminated_place (hfit.lines _ hmem) _⟩, htidy.1, htidy.2⟩
      · rw [Pupa.getElem_layout_rest hc hi (by omega)]
        exact hp i hi
  · cases h

/-- Whether or not the id that a lone word leaves is terminated, the loop keeps
its writes inside the arrays when the text fits. -/
theorem readFile_ne_overwrite (pupa : Pupa) (f : Bytes) :
    readFile pupa f ≠ .error .overwrite ↔ (parse f).Fits := by
  rw [readFile_eq]
  by_cases hfit : (parse f).Fits
  · rw [if_pos hfit]
    refine ⟨fun _ => hfit, fun _ h => ?_⟩
    cases hl : listing (pupa.layout (parse f)) with
    | error e =>
      rw [hl] at h
      obtain rfl : e = .overwrite := Except.error.inj h
      exact listing_ne_overwrite _ hl
    | ok lines =>
      rw [hl] at h
      cases h
  · rw [if_neg hfit]
    exact ⟨fun h => absurd rfl h, fun h => absurd h hfit⟩

/-- A closed text of plain lines that fits is read, and each line enters its slot. -/
theorem Pupa.Sound.readFile {pupa : Pupa} (hp : pupa.Sound) {f : Bytes} (hc : (parse f).Closed)
    (hf : (parse f).Fits) (hplain : ∀ l ∈ (parse f).lines, l.Plain) :
    SmartDoor.readFile pupa f = .ok (pupa.layout (parse f)) ∧ (pupa.layout (parse f)).Sound := by
  have hs : (pupa.layout (parse f)).Sound := by
    intro i hi
    by_cases hlt : i < (parse f).lines.length
    · have hmem := List.getElem_mem hlt
      rw [Pupa.getElem_layout_line hi (List.getElem?_eq_getElem hlt)]
      exact ((hplain _ hmem).place ((parse_words f).1 _ hmem) (hf.lines _ hmem) (hp i hi)).1
    · rw [Pupa.getElem_layout_rest hc hi (by omega)]
      exact hp i hi
  obtain ⟨lines, hlines⟩ := listing_of_terminated hs.terminated
  refine ⟨?_, hs⟩
  rw [readFile_eq, if_pos hf, hlines]
  rfl

end SmartDoor
