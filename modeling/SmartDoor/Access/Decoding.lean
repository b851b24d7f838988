import SmartDoor.Access.Audit
import SmartDoor.Clock.Dates
import SmartDoor.Text.Separators

/-!
# Reading the log

Each record of the log ends in the only line feed in it, and its fields are separated by
characters that do not occur in them, as long as the cards are made of hex characters and the
names are words. So the log of a run can be read back: the decisions, and the minute in which
each of them was made.
-/

namespace SmartDoor

open CString Separators

/-! ## The numbers of a record -/

theorem digit_of_mem_decimal {n : Nat} {c : UInt8} (h : c ∈ decimal n) :
    48 ≤ c.toNat ∧ c.toNat ≤ 57 := by
  obtain ⟨d, hd, rfl⟩ := List.mem_map.mp h
  obtain ⟨hlow, hhigh⟩ := Char.isDigit_iff_toNat.mp
    (Nat.isDigit_of_mem_toDigits (by decide) (by decide) hd)
  rw [UInt8.toNat_ofNat', Nat.mod_eq_of_lt (hhigh.trans_lt (by decide))]
  exact ⟨hlow, hhigh⟩

theorem notMem_decimal {c : UInt8} (h : c.toNat < 48 ∨ 57 < c.toNat) (n : Nat) : c ∉ decimal n := by
  intro hc
  have := digit_of_mem_decimal hc
  omega

theorem toDigits_of_decimal (n : Nat) :
    (decimal n).map (fun c => Char.ofNat c.toNat) = Nat.toDigits 10 n := by
  rw [decimal, List.map_map]
  refine (List.map_congr_left fun d hd => ?_).trans (List.map_id _)
  have hhigh := (Char.isDigit_iff_toNat.mp
    (Nat.isDigit_of_mem_toDigits (by decide) (by decide) hd)).2
  rw [Function.comp_apply, UInt8.toNat_ofNat', Nat.mod_eq_of_lt (hhigh.trans_lt (by decide)),
    Char.ofNat_toNat]
  rfl

theorem decimal_injective {n m : Nat} (h : decimal n = decimal m) : n = m := by
  have hdigits := (toDigits_of_decimal n).symm.trans (h ▸ toDigits_of_decimal m)
  rw [← Nat.ofDigitChars_ten_toDigits (n := n), hdigits, Nat.ofDigitChars_ten_toDigits]

/-! ## One record -/

/-- What a record says behind its time. -/
def entryText (name id : Bytes) : Bytes := id ++ 32 :: 32 :: 32 :: (name ++ [13, 10])

theorem logRecord_eq (tm : Tm) (name id : Bytes) : Sketch.logRecord tm name id =
    decimal tm.day.toNat ++ 47 :: (decimal tm.month.toNat ++ 47 ::
      (decimal (tm.year.toNat + 1970) ++ 32 :: 32 :: 32 :: (decimal tm.hour.toNat ++ 58 ::
        (decimal tm.minute.toNat ++ 32 :: 32 :: 32 :: entryText name id)))) := by
  simp only [Sketch.logRecord, entryText, List.append_assoc]
  rfl

/-- The time of a record can be read back, whatever stands behind it. -/
theorem logRecord_injective {tm tm' : Tm} {name id name' id' : Bytes}
    (h : Sketch.logRecord tm name id = Sketch.logRecord tm' name' id') :
    tm = tm' ∧ entryText name id = entryText name' id' := by
  have hslash := notMem_decimal (c := 47) (by decide)
  have hspace := notMem_decimal (c := 32) (by decide)
  have hcolon := notMem_decimal (c := 58) (by decide)
  rw [logRecord_eq, logRecord_eq] at h
  obtain ⟨hday, h⟩ := cut (hslash _) (hslash _) h
  obtain ⟨hmonth, h⟩ := cut (hslash _) (hslash _) h
  obtain ⟨hyear, h⟩ := cut (hspace _) (hspace _) h
  obtain ⟨-, h⟩ := List.cons.inj (List.cons.inj h).2
  obtain ⟨hhour, h⟩ := cut (hcolon _) (hcolon _) h
  obtain ⟨hminute, h⟩ := cut (hspace _) (hspace _) h
  refine ⟨?_, (List.cons.inj (List.cons.inj h).2).2⟩
  obtain ⟨minute, hour, day, month, year⟩ := tm
  obtain ⟨minute', hour', day', month', year'⟩ := tm'
  simp only [Tm.mk.injEq, ← UInt8.toNat_inj]
  exact ⟨decimal_injective hminute, decimal_injective hhour, decimal_injective hday,
    decimal_injective hmonth, Nat.add_right_cancel (decimal_injective hyear)⟩

/-- The text of a name in a slot: letters and digits, or CRs that nothing has trimmed. -/
def NameText (name : Bytes) : Prop := ∀ c ∈ name, c = 13 ∨ isWord c = true

theorem NameText.notMem {name : Bytes} (h : NameText name) {c : UInt8}
    (hc : c = 32 ∨ c = 10) : c ∉ name := by
  intro hmem
  rcases hc with rfl | rfl <;> rcases h _ hmem with h | h <;> exact absurd h (by decide)

/-- The texts that a record of the decision quotes. -/
def Decision.Worded : Decision → Prop
  | .accepted id name => (∀ c ∈ id, isWord c = true) ∧ NameText name
  | .denied id => ∀ c ∈ id, isWord c = true
  | .button => True

namespace Decision

/-- What the record of a decision says behind its time. -/
def text : Decision → Bytes
  | .accepted id name => entryText name id
  | .denied id => entryText (ascii "Unknown User") id
  | .button => entryText (ascii "Member") (ascii "unlock by switch")

theorem record_injective {d d' : Decision} {tm tm' : Tm} (h : d.record tm = d'.record tm') :
    tm = tm' ∧ d.text = d'.text := by
  cases d <;> cases d' <;> exact logRecord_injective h

theorem notMem_id {id : Bytes} (h : ∀ c ∈ id, isWord c = true) {c : UInt8}
    (hc : c = 32 ∨ c = 10) : c ∉ id :=
  NameText.notMem (fun c hc => Or.inr (h c hc)) hc

/-- The id and the name of a card can be read back. -/
theorem entryText_injective {id id' name name' : Bytes} (hid : ∀ c ∈ id, isWord c = true)
    (hid' : ∀ c ∈ id', isWord c = true) (h : entryText name id = entryText name' id') :
    id = id' ∧ name = name' := by
  obtain ⟨rfl, hrest⟩ := cut (notMem_id hid (Or.inl rfl)) (notMem_id hid' (Or.inl rfl)) h
  have hname : name ++ [13, 10] = name' ++ [13, 10] := (List.cons.inj (List.cons.inj hrest).2).2
  exact ⟨rfl, List.append_cancel_right hname⟩

/-- No card has the record of the switch. -/
theorem entryText_ne_button {id name : Bytes} (hid : ∀ c ∈ id, isWord c = true) :
    entryText name id ≠ text .button := by
  intro h
  have hbutton : text .button = ascii "unlock" ++ 32 ::
      (ascii "by switch" ++ 32 :: 32 :: 32 :: (ascii "Member" ++ [13, 10])) := by
    decide
  rw [hbutton] at h
  obtain ⟨-, h⟩ := cut (notMem_id hid (Or.inl rfl)) (by decide) h
  exact absurd (List.cons.inj h).1 (by decide)

theorem text_injective {d d' : Decision} (h : d.Worded) (h' : d'.Worded)
    (heq : d.text = d'.text) : d = d' := by
  have hunknown : ∀ {name : Bytes}, NameText name → name ≠ ascii "Unknown User" := by
    rintro name hname rfl
    exact hname.notMem (Or.inl rfl) (by decide)
  cases d with
  | accepted id name =>
    cases d' with
    | accepted id' name' =>
      obtain ⟨rfl, rfl⟩ := entryText_injective h.1 h'.1 heq
      rfl
    | denied id' => exact absurd (entryText_injective h.1 h' heq).2 (hunknown h.2)
    | button => exact absurd heq (entryText_ne_button h.1)
  | denied id =>
    cases d' with
    | accepted id' name' => exact absurd (entryText_injective h h'.1 heq).2.symm (hunknown h'.2)
    | denied id' =>
      obtain ⟨rfl, -⟩ := entryText_injective h h' heq
      rfl
    | button => exact absurd heq (entryText_ne_button h)
  | button =>
    cases d' with
    | accepted id' name' => exact absurd heq.symm (entryText_ne_button h'.1)
    | denied id' => exact absurd heq.symm (entryText_ne_button h')
    | button => rfl

/-- A record is one line. -/
theorem Worded.ended {d : Decision} (h : d.Worded) (tm : Tm) : Ended 10 (d.record tm) := by
  have hended : ∀ {name id : Bytes}, (10 : UInt8) ∉ id → (10 : UInt8) ∉ name →
      Ended 10 (Sketch.logRecord tm name id) := by
    intro name id hid hname
    have hten := notMem_decimal (c := 10) (by decide)
    refine ⟨decimal tm.day.toNat ++ 47 :: (decimal tm.month.toNat ++ 47 ::
      (decimal (tm.year.toNat + 1970) ++ 32 :: 32 :: 32 :: (decimal tm.hour.toNat ++ 58 ::
        (decimal tm.minute.toNat ++ 32 :: 32 :: 32 :: (id ++ 32 :: 32 :: 32 ::
          (name ++ [13])))))), ?_, ?_⟩
    · simp [hten, hid, hname]
    · rw [logRecord_eq, entryText]
      simp
  cases d with
  | accepted id name => exact hended (notMem_id h.1 (Or.inr rfl)) (h.2.notMem (Or.inr rfl))
  | denied id => exact hended (notMem_id h (Or.inr rfl)) (by decide)
  | button => exact hended (by decide) (by decide)

end Decision

/-! ## The decisions of a run -/

/-- The decisions of a run, each with the true time at which it is made. -/
def decisions (world : World) : Device → List Turn → List (Nat × Decision)
  | _, [] => []
  | d, turn :: turns =>
    (turn.decision d).toList.map (fun decision => (d.sketch.clock, decision)) ++
      match turn.step world d with
      | .ok e => decisions world e turns
      | .error _ => []

theorem records_eq (world : World) (d : Device) (turns : List Turn) :
    records world d turns =
      (decisions world d turns).map fun made => made.2.record (world.rtc made.1) := by
  induction turns generalizing d with
  | nil => rfl
  | cons turn turns ih =>
    rw [records, decisions, List.map_append, List.map_map]
    congr 1
    cases turn.step world d with
    | ok e => exact ih e
    | error fault => rfl

/-- What the name of a sound slot displays. -/
theorem Rfid.Sound.nameText {r : Rfid} (h : r.Sound) : NameText (content r.memberName.toList) := by
  intro c hc
  have hmem := (List.takeWhile_prefix _).subset hc
  obtain ⟨i, hi, rfl⟩ := List.getElem_of_mem hmem
  rw [Vector.length_toList] at hi
  rw [Vector.getElem_toList] at hc ⊢
  refine (h.tidyName.byte i hi).resolve_left fun h0 => ?_
  exact zero_notMem_content _ (h0 ▸ hc)

/-- A decision that is recorded quotes words. -/
theorem Turn.worded {d : Device} (hd : d.Running) (hhex : d.sketch.Hex) {turn : Turn}
    (hturn : turn.Hex) (hcomplete : turn.complete d = true) {decision : Decision}
    (h : turn.decision d = some decision) : decision.Worded := by
  cases turn with
  | processCommand o tmp => cases h
  | task a =>
    cases a with
    | serialEvent1 arrived junk =>
      obtain ⟨u, hu, rfl⟩ := Option.map_eq_some_iff.mp h
      obtain ⟨⟨code, ci, serial1, hscan⟩, -⟩ := Sketch.presents_scanned hu
      have hstore : u.store = d.sketch.store := by rw [hscan]; rfl
      have hzero : (0 : UInt8) ∉ u.code.toList.take 10 := by
        rw [Turn.complete, hu] at hcomplete
        exact of_decide_eq_true hcomplete
      have hid : ∀ c ∈ u.code.toList.take 10, isWord c = true := fun c hc =>
        isWord_of_isHex ((((hhex.arrive hturn).presents hu).code.take c hc).resolve_left
          fun h0 => hzero (h0 ▸ hc))
      rw [Sketch.verdict]
      split
      · rename_i k hk
        refine ⟨hid, Rfid.Sound.nameText ?_⟩
        rw [hstore]
        exact (hd.store.pupa k k.isLt).trimmed
      · exact hid
    | unlockButton pressed =>
      cases pressed with
      | false => cases h
      | true =>
        obtain rfl := Option.some.inj h
        trivial
    | update => cases h
    | updateTime => cases h
    | wait ms => cases h

/-- A run of which the log keeps all decisions: the log opens, the payload of the cards is made
of hex characters, and each press of the button and each card finds `code` complete. -/
structure Recorded (world : World) (d : Device) (turns : List Turn) (e : Device) : Prop where
  opens : ∀ time, world.logOpens time = true
  running : d.Running
  code : d.sketch.Hex
  hex : ∀ turn ∈ turns, turn.Hex
  complete : Run.Guarded (Turn.step world) (fun d turn => turn.complete d = true) d turns
  run : turns.foldlM (Turn.step world) d = .ok e

namespace Recorded

variable {world : World} {d e : Device} {turns : List Turn}

theorem audited (h : Recorded world d turns e) :
    Run.Guarded (Turn.step world) (Turn.Audited world) d turns := by
  have hsafe : Run.Guarded (Turn.step world) (fun d turn => turn.Safe d) d turns :=
    (Run.ok_iff_guarded (fun hd hstep => Device.Running.step hd hstep)
      (fun hd => Turn.step_ok_iff world hd _) h.running).mp ⟨e, h.run⟩
  refine (Run.guarded_congr (I := fun d => d.Running ∧ d.sketch.Hex) ?_ ?_
    ⟨h.running, h.code⟩).mpr (hsafe.and h.complete)
  · rintro d turn e hturn ⟨hd, hcode⟩ hstep
    exact ⟨hd.step hstep, hcode.step hd (h.hex turn hturn) hstep⟩
  · rintro d turn hturn ⟨hd, hcode⟩
    exact Turn.audited_iff h.opens hd hcode (h.hex turn hturn)

theorem worded (h : Recorded world d turns e) : ∀ made ∈ decisions world d turns, made.2.Worded := by
  obtain ⟨-, hd, hcode, hhex, hcomplete, hrun⟩ := h
  induction turns generalizing d with
  | nil => exact fun made hmade => absurd hmade List.not_mem_nil
  | cons turn turns ih =>
    obtain ⟨u, hu, hrun⟩ := Run.foldlM_cons_ok.mp hrun
    obtain ⟨hfirst, hrest⟩ := hcomplete
    have hturn := hhex turn List.mem_cons_self
    intro made hmade
    rw [decisions, hu] at hmade
    rcases List.mem_append.mp hmade with hmade | hmade
    · obtain ⟨decision, hdecision, rfl⟩ := List.mem_map.mp hmade
      exact Turn.worded hd hcode hturn hfirst (Option.mem_toList.mp hdecision)
    · exact ih (hd.step hu) (hcode.step hd hturn hu)
        (fun t ht => hhex t (List.mem_cons_of_mem _ ht)) (hrest u hu) hrun made hmade

/-- The log of the run, decision by decision. -/
theorem log_eq (h : Recorded world d turns e) : e.log = d.log ++
    ((decisions world d turns).map fun made => made.2.record (world.rtc made.1)).flatten := by
  rw [log_of_audited h.audited h.run, records_eq]

end Recorded

/-! ## The clock -/

/-- The fields that the sketch reads from the clock. -/
def Tm.ofElements (tm : Clock.TmElements) : Tm := ⟨tm.Minute, tm.Hour, tm.Day, tm.Month, tm.Year⟩

/-- The clock is right: at each moment it shows the date and the time of the seconds since 1970. -/
def World.Keeps (world : World) (epoch : Nat → UInt32) : Prop :=
  ∀ time, (Clock.breakTime (epoch time)).map Tm.ofElements = some (world.rtc time)

/-- The fields of a record tell the minute. -/
theorem minute_of_elements {t t' : UInt32} {tm : Tm}
    (h : (Clock.breakTime t).map Tm.ofElements = some tm)
    (h' : (Clock.breakTime t').map Tm.ofElements = some tm) : t / 60 = t' / 60 := by
  obtain ⟨fields, date, hbreak, hnames, hseconds, -⟩ := Clock.breakTime_eq t
  obtain ⟨fields', date', hbreak', hnames', hseconds', -⟩ := Clock.breakTime_eq t'
  rw [hbreak] at h
  rw [hbreak'] at h'
  have hsame := (Option.some.inj h).trans (Option.some.inj h').symm
  simp only [Tm.ofElements, Tm.mk.injEq] at hsame
  obtain ⟨hminute, hhour, hday, hmonth, hyear⟩ := hsame
  obtain rfl : date = date' := by
    obtain ⟨year, month, day, _, _⟩ := date
    obtain ⟨year', month', day', _, _⟩ := date'
    have hy := hnames.year.symm.trans ((congrArg UInt8.toNat hyear).trans hnames'.year)
    have hm := hnames.month.symm.trans ((congrArg UInt8.toNat hmonth).trans hnames'.month)
    have hd := hnames.day.symm.trans ((congrArg UInt8.toNat hday).trans hnames'.day)
    simp only at hy hm hd
    simp only [Clock.Date.mk.injEq]
    exact ⟨hy, by omega, by omega⟩
  have hs := hnames.second
  have hs' := hnames'.second
  rw [Clock.TmElements.seconds] at hseconds hseconds'
  rw [hminute, hhour] at hseconds
  apply UInt32.toNat_inj.mp
  simp only [UInt32.toNat_div, UInt32.reduceToNat, ← hseconds, ← hseconds']
  omega

/-- The decisions of a run with the minutes since 1970 in which they are made. -/
def journal (epoch : Nat → UInt32) (made : List (Nat × Decision)) : List (UInt32 × Decision) :=
  made.map fun made => (epoch made.1 / 60, made.2)

/-- Two runs whose clocks are right and whose logs keep all decisions: when the log of the one
is the beginning of the log of the other, then so are its decisions, minute by minute. -/
theorem audit_log_decodes {world world' : World} {epoch epoch' : Nat → UInt32}
    (hclock : world.Keeps epoch) (hclock' : world'.Keeps epoch') {d e d' e' : Device}
    {turns turns' : List Turn} (h : Recorded world d turns e) (h' : Recorded world' d' turns' e')
    (hold : d.log = d'.log) (hlog : e.log <+: e'.log) :
    journal epoch (decisions world d turns) <+: journal epoch' (decisions world' d' turns') := by
  rw [h.log_eq, h'.log_eq, hold, List.prefix_append_right_inj] at hlog
  have hended : ∀ {world : World} {made : List (Nat × Decision)}, (∀ m ∈ made, m.2.Worded) →
      ∀ l ∈ made.map fun made => made.2.record (world.rtc made.1), Ended 10 l := by
    rintro world made hmade l hl
    obtain ⟨m, hm, rfl⟩ := List.mem_map.mp hl
    exact (hmade m hm).ended _
  refine prefix_map (fun made hmade made' hmade' hrecord => ?_)
    (prefix_of_flatten (hended h.worded) (hended h'.worded) hlog)
  obtain ⟨htm, htext⟩ := Decision.record_injective hrecord
  have hminute : epoch made.1 / 60 = epoch' made'.1 / 60 :=
    minute_of_elements (hclock made.1) (htm ▸ hclock' made'.1)
  rw [hminute, Decision.text_injective (h.worded made hmade) (h'.worded made' hmade') htext]

/-- A world with a right clock, where the log opens. -/
def World.showing (epoch : Nat → UInt32) : World where
  rtc time := ((Clock.breakTime (epoch time)).map Tm.ofElements).getD ⟨0, 0, 0, 0, 0⟩
  logOpens _ := true

theorem World.keeps_showing (epoch : Nat → UInt32) : (World.showing epoch).Keeps epoch := by
  intro time
  obtain ⟨tm, date, hbreak, -⟩ := Clock.breakTime_eq (epoch time)
  simp only [World.showing, hbreak, Option.map_some, Option.getD_some]

/-- The log is read after the button was pressed, and again when a minute later an unknown card
has been denied. -/
theorem audit_log_decodes_of_two :
    let epoch := fun time => UInt32.ofNat (1700000000 + time / 1000)
    let world := World.showing epoch
    let d := Device.powerUp Store.initial 2000
    journal epoch (decisions world d [.task (.unlockButton true)]) <+:
      journal epoch (decisions world d [.task (.unlockButton true), .task (.wait 61000),
        .task (.serialEvent1 (0x02 :: (ascii "6C0095E9D5C5" ++ [0x03])) (.replicate 12 0))]) := by
  intro epoch world d
  have hcode : d.sketch.Hex :=
    ⟨fun i hi _ => Or.inl (Vector.getElem_replicate hi), fun c hc => absurd hc List.not_mem_nil⟩
  have hrecorded : ∀ {turns : List Turn}, (∀ turn ∈ turns, turn.Hex) →
      Run.Guarded (Turn.step world) (fun d turn => turn.complete d = true) d turns → ∀ {e},
      turns.foldlM (Turn.step world) d = .ok e → Recorded world d turns e :=
    fun hhex hcomplete _ hrun => ⟨fun _ => rfl, Device.running_powerUp Store.sound_initial _, hcode,
      hhex, hcomplete, hrun⟩
  have hlogs : ([.task (.unlockButton true)].foldlM (Turn.step world) d >>= fun e =>
      [.task (.unlockButton true), .task (.wait 61000),
        .task (.serialEvent1 (0x02 :: (ascii "6C0095E9D5C5" ++ [0x03]))
          (.replicate 12 0))].foldlM (Turn.step world) d >>= fun e' =>
      .ok (decide (e.log <+: e'.log))) = .ok true := by
    decide +kernel
  obtain ⟨e, he, hlogs⟩ := bind_eq_ok.mp hlogs
  obtain ⟨e', he', hlogs⟩ := bind_eq_ok.mp hlogs
  exact audit_log_decodes (World.keeps_showing epoch) (World.keeps_showing epoch)
    (hrecorded (by decide +kernel) (by decide +kernel) he)
    (hrecorded (by decide +kernel) (by decide +kernel) he') rfl
    (of_decide_eq_true (Except.ok.inj hlogs))

end SmartDoor
