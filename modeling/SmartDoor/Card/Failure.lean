import SmartDoor.Card.Unchanged

/-!
# Commands whose SD calls fail

`add_member` and `remove_member` check none of their calls to the SD library
before they answer the client, unlike `sdcard_process`, which reports a new file
only when it could be opened. So an answer can be trusted when all calls of the
command succeed and, for a removal, when the record is deleted from a table that
holds it once, not in the last slot, and holds the rest of the file; else only when
the removal finds nothing that it could change. An id that stands alone on its line
is a record too: `read_file` loads it as a member.
-/

namespace SmartDoor

open CString

/-- A run of operations from the empty card, each with the outcome of its SD calls. -/
def attempts (runs : List (SdOutcome × Op)) : Except Fault Store :=
  runs.foldlM (fun s run => (run.2.exec run.1 s).map Prod.fst) Store.initial

/-! ## The records of the file -/

/-- A record of the file: an id and, if the line has a blank, a name. -/
abbrev FileRecord := Bytes × Option Bytes

/-- The record with the name of a member. -/
def named (m : Member) : FileRecord := (m.1, some m.2)

/-- A record has the id of another one, and its name if that has one. -/
def FileRecord.Covers (r r' : FileRecord) : Prop := r.1 = r'.1 ∧ (r'.2 = none ∨ r.2 = r'.2)

instance (r r' : FileRecord) : Decidable (r.Covers r') := inferInstanceAs (Decidable (_ ∧ _))

/-- The record on a line. -/
def Line.kept (l : Line) : Option FileRecord :=
  if l.id ≠ [] then some (l.id, if l.more ≠ [] then some l.name else none) else none

/-- The records of the member file. -/
def Card.records (c : Card) : List FileRecord := ((parse c.text).lines.map Line.kept).reduceOption

/-- The record of a member in the file: with its name, or else its id alone. -/
def Card.record (c : Card) (m : Member) : FileRecord :=
  if named m ∈ c.records then named m else (m.1, none)

/-- The records are those of the lines. -/
theorem Card.mem_records {c : Card} {r : FileRecord} :
    r ∈ c.records ↔ ∃ l ∈ (parse c.text).lines, l.kept = some r := by
  rw [records, List.reduceOption_mem_iff, List.mem_map]

/-- A record without a blank is covered by its id, any other by itself only. -/
theorem named_covers_named {m m' : Member} : (named m).Covers (named m') ↔ m = m' := by
  constructor
  · rintro ⟨hid, hnone | hname⟩
    · cases hnone
    · exact Prod.ext hid (Option.some.inj hname)
  · rintro rfl
    exact ⟨rfl, Or.inr rfl⟩

/-- On a line that is no single word stands a member. -/
theorem Line.Plain.kept {l : Line} (h : l.Plain) : l.kept = l.member.map named := by
  rcases h with rfl | hmore
  · rfl
  · rw [Line.kept, Line.member]
    by_cases hid : l.id = []
    · rw [if_neg (not_not.mpr hid), if_neg fun hboth => hboth.2 hid]
      rfl
    · rw [if_pos hid, if_pos hmore, if_pos ⟨hmore, hid⟩]
      rfl

/-! ## Honest operations -/

/-- One of the SD calls that the operation makes fails. -/
def Op.Failing (o : SdOutcome) (s : Store) : Op → Prop
  | .add arg => 10 ≤ (content arg).length ∧ o.addOpen = false
  | .remove arg => (s.pupa.lookup (wanted arg)).isSome ∧ (o.remove = false ∨ o.writeOpen = false)
  | _ => False

/-- A successful addition is reported only when the file has gained the line of the
argument. A deletion is reported only when the file holds no record of the member any
more and still holds all others, those of an id alone with any name. When a call fails,
table and file are as before. -/
structure Op.Honest (o : SdOutcome) (s : Store) (op : Op) (t : Store) (replies : List Reply) :
    Prop where
  added : ∀ arg, op = .add arg → Reply.addSuccess ∈ replies →
    t.card.idaccess = some (s.card.text ++ (content arg ++ [13, 10]))
  deleted : ∀ arg text k, op = .remove arg → Reply.deleting text ∈ replies →
    s.pupa.lookup (wanted arg) = some k →
      (∀ r ∈ t.card.records, ¬ (named (s.pupa.get k).entry).Covers r) ∧
      ∀ r ∈ s.card.records, r ≠ s.card.record (s.pupa.get k).entry →
        ∃ r' ∈ t.card.records, r'.Covers r
  kept : op.Failing o s → t.pupa = s.pupa ∧ t.card.idaccess = s.card.idaccess

/-- The calls of a removal of slot `k` succeed, and the table holds the member once, not in
the last slot, and every other record of the file. -/
def SdOutcome.Deletes (o : SdOutcome) (s : Store) (k : Fin MEMBER) : Prop :=
  (o.remove = true ∧ o.writeOpen = true) ∧ k.val ≠ 29 ∧
    (∀ j : Fin MEMBER, j ≠ k → (s.pupa.get j).member ≠ some (s.pupa.get k).entry) ∧
    ∀ r ∈ s.card.records, r ≠ s.card.record (s.pupa.get k).entry →
      ∃ j : Fin MEMBER, j ≠ k ∧ (s.pupa.get j).Occupied ∧ (named (s.pupa.get j).entry).Covers r

/-- A removal of slot `k` cannot open the file and does not delete one, the file has no
record of the member, and the table stays as it is. -/
def SdOutcome.Idles (o : SdOutcome) (s : Store) (k : Fin MEMBER) : Prop :=
  (o.writeOpen = false ∧ (o.remove = false ∨ s.card.idaccess = none)) ∧
    (∀ r ∈ s.card.records, ¬ (named (s.pupa.get k).entry).Covers r) ∧ s.pupa.Still k

/-- The condition under which an operation is honest. -/
def Op.Reliable (o : SdOutcome) (s : Store) : Op → Prop
  | .add arg => (content arg).length < 10 ∨ o.addOpen = true
  | .remove arg => ∀ k, s.pupa.lookup (wanted arg) = some k → o.Deletes s k ∨ o.Idles s k
  | _ => True

instance (o : SdOutcome) (s : Store) (k : Fin MEMBER) : Decidable (o.Deletes s k) :=
  inferInstanceAs (Decidable (_ ∧ _ ∧ (∀ _, _ → _) ∧ ∀ _ ∈ _, _ → _))

instance (o : SdOutcome) (s : Store) (k : Fin MEMBER) : Decidable (o.Idles s k) :=
  inferInstanceAs (Decidable (_ ∧ (∀ _ ∈ _, _) ∧ _))

instance (o : SdOutcome) (s : Store) (op : Op) : Decidable (op.Reliable o s) :=
  match op with
  | .reboot => isTrue trivial
  | .add _ => inferInstanceAs (Decidable (_ ∨ _))
  | .remove _ => inferInstanceAs (Decidable (∀ _, _ → _ ∨ _))
  | .lookup _ => isTrue trivial

/-- Whatever calls fail, the store stays sound. -/
theorem attempts_sound {runs : List (SdOutcome × Op)} {s : Store} (h : attempts runs = .ok s) :
    s.Sound :=
  Run.invariant (fun hs hstep => by
    obtain ⟨⟨t, replies⟩, ht, rfl⟩ := map_eq_ok.mp hstep
    exact Op.exec_sound hs ht) Store.sound_initial h

/-- An addition is honest exactly when it makes no call or its call succeeds. -/
theorem Op.honest_add {o : SdOutcome} {s t : Store} (hs : s.Sound) {arg : Bytes}
    {replies : List Reply} (h : Op.exec o s (.add arg) = .ok (t, replies)) :
    (Op.add arg).Honest o s t replies ↔ (Op.add arg).Reliable o s := by
  rw [Op.exec_add o hs.pupa] at h
  by_cases hlen : 10 ≤ (content arg).length
  · rw [if_pos hlen] at h
    obtain ⟨pupa, -, h⟩ := map_eq_ok.mp h
    obtain ⟨rfl, rfl⟩ := Prod.mk.inj h
    cases ho : o.addOpen with
    | true =>
      refine ⟨fun _ => Or.inr ho, fun _ => ⟨fun a ha _ => ?_, fun a _ _ ha => (nomatch ha),
        fun hf => absurd (ho.symm.trans hf.2) (by decide)⟩⟩
      obtain rfl := Op.add.inj ha
      simp only [Card.processed, Card.added, Card.appended, ho, if_true, Card.text,
        Option.getD_some]
    | false =>
      have htext : (s.card.added o arg).text = s.card.text := by
        simp [Card.added, Card.appended, Card.text, ho]
      constructor
      · intro hh
        have hgain := hh.added arg rfl (List.mem_cons_self ..)
        have hbytes : (s.card.added o arg).text = s.card.text ++ (content arg ++ [13, 10]) :=
          Option.some.inj hgain
        rw [htext] at hbytes
        simp at hbytes
      · rintro (hr | hr)
        · omega
        · exact absurd (ho.symm.trans hr) (by decide)
  · rw [if_neg hlen] at h
    obtain ⟨rfl, rfl⟩ := Prod.mk.inj (Except.ok.inj h)
    refine ⟨fun _ => Or.inl (by omega), fun _ => ⟨fun a _ hr => ?_, fun a _ _ ha => (nomatch ha),
      fun hf => absurd hf.1 hlen⟩⟩
    simp at hr

/-- The file after a removal whose calls succeed. -/
theorem Card.mem_records_without {pupa : Pupa} (hp : pupa.Sound) {o : SdOutcome}
    (hr : o.remove = true) (hw : o.writeOpen = true) (c : Card) (k : Fin MEMBER)
    {r : FileRecord} :
    r ∈ (c.without o pupa k.val).records ↔
      ∃ j : Fin MEMBER, (j ≠ k ∨ j.val = 29) ∧ (pupa.get j).Occupied ∧
        named (pupa.get j).entry = r := by
  have hsame : c.without o pupa k.val = c.without .success pupa k.val := by
    rw [Card.without, Card.without, hr, hw]
    rfl
  have hplain : ∀ l ∈ (parse (c.without .success pupa k.val).text).lines, l.Plain := by
    rw [Card.text_without hp k.isLt]
    intro l hl
    obtain ⟨slot, -, hl⟩ := List.mem_flatMap.mp hl
    exact Rfid.plain_lines hl
  have hmembers : r ∈ (c.without o pupa k.val).records ↔
      ∃ m ∈ (parse (c.without .success pupa k.val).text).members, named m = r := by
    rw [hsame, Card.mem_records]
    constructor
    · rintro ⟨l, hl, hkept⟩
      rw [(hplain l hl).kept, Option.map_eq_some_iff] at hkept
      obtain ⟨m, hm, hr⟩ := hkept
      exact ⟨m, Text.mem_members.mpr ⟨l, hl, hm⟩, hr⟩
    · rintro ⟨m, hm, hr⟩
      obtain ⟨l, hl, hm⟩ := Text.mem_members.mp hm
      refine ⟨l, hl, ?_⟩
      rw [(hplain l hl).kept, hm, Option.map_some, hr]
  rw [hmembers, Card.members_without hp k.isLt]
  constructor
  · rintro ⟨m, hm, rfl⟩
    obtain ⟨j, hj, hjk, hm⟩ := (Pupa.mem_members_without hp k.isLt).mp hm
    obtain ⟨ho, rfl⟩ := Rfid.member_eq_some.mp hm
    exact ⟨⟨j, hj⟩, hjk.imp_left fun h heq => h (congrArg Fin.val heq), ho, rfl⟩
  · rintro ⟨j, hjk, ho, rfl⟩
    refine ⟨(pupa.get j).entry, (Pupa.mem_members_without hp k.isLt).mpr
      ⟨j.val, j.isLt, hjk.imp_left fun h heq => h (Fin.ext heq), ?_⟩, rfl⟩
    exact Rfid.member_eq_some.mpr ⟨ho, rfl⟩

namespace Op

variable {o : SdOutcome} {s : Store} {arg : Bytes} {k : Fin MEMBER}

/-- A removal that makes its calls and succeeds with them. -/
theorem honest_remove (hs : s.Sound) (text : Bytes)
    (hl : s.pupa.lookup (wanted arg) = some k) (hr : o.remove = true) (hw : o.writeOpen = true) :
    (Op.remove arg).Honest o s ⟨s.pupa.without k.val, s.card.without o s.pupa k.val⟩
      [.deleting text] ↔ o.Deletes s k := by
  have hmem := fun r => Card.mem_records_without (r := r) hs.pupa hr hw s.card k
  constructor
  · intro hh
    obtain ⟨hgone, hrest⟩ := hh.deleted arg text k rfl (List.mem_cons_self ..) hl
    -- no slot that was written holds the member
    have habsent : ∀ j : Fin MEMBER, (j ≠ k ∨ j.val = 29) →
        (s.pupa.get j).member ≠ some (s.pupa.get k).entry := by
      intro j hjk hm
      obtain ⟨ho, he⟩ := Rfid.member_eq_some.mp hm
      exact hgone _ ((hmem _).mpr ⟨j, hjk, ho, rfl⟩) (named_covers_named.mpr he.symm)
    have hlast : k.val ≠ 29 := fun h29 => habsent k (Or.inr h29) (Pupa.member_lookup hl).1
    refine ⟨⟨hr, hw⟩, hlast, fun j hjk => habsent j (Or.inl hjk), fun r hmemr hne => ?_⟩
    obtain ⟨r', hr', hcovers⟩ := hrest r hmemr hne
    obtain ⟨j, hjk, ho, rfl⟩ := (hmem r').mp hr'
    exact ⟨j, fun heq => hjk.elim (fun h => h heq) fun h29 => hlast (heq ▸ h29), ho, hcovers⟩
  · rintro ⟨-, hlast, honce, hfile⟩
    refine ⟨fun a ha => (nomatch ha), fun a x j ha _ hj => ?_, fun hf => ?_⟩
    · obtain rfl := Op.remove.inj ha
      obtain rfl := Option.some.inj (hl.symm.trans hj)
      constructor
      · intro r hmemr hcovers
        obtain ⟨j, hjk, ho, rfl⟩ := (hmem r).mp hmemr
        have hne : j ≠ k := fun heq => hjk.elim (fun h => h heq) fun h29 => hlast (heq ▸ h29)
        exact honce j hne (Rfid.member_eq_some.mpr ⟨ho, (named_covers_named.mp hcovers).symm⟩)
      · intro r hmemr hne
        obtain ⟨j, hjk, ho, hcovers⟩ := hfile r hmemr hne
        exact ⟨_, (hmem _).mpr ⟨j, Or.inl hjk, ho, rfl⟩, hcovers⟩
    · exact hf.2.elim (fun h => absurd (hr.symm.trans h) (by decide))
        fun h => absurd (hw.symm.trans h) (by decide)

/-- A table in which a removal changes nothing is printed, the member included. -/
theorem pieces_ne_nil (hs : s.Sound) (ho : (s.pupa.get k).Occupied)
    (hstill : s.pupa.without k.val = s.pupa) :
    ((s.pupa.trimTo (k.val + 1)).shifted k.val).pieces.flatten ≠ [] := by
  have hterm := ((hs.pupa.trimTo (k.val + 1)).shifted k.val).terminated
  have hslot : (s.pupa.without k.val)[k.val] = s.pupa.get k := by simp only [hstill]; rfl
  have hfilled : ((s.pupa.trimTo (k.val + 1)).shifted k.val)[k.val].Occupied := by
    have hid : Rfid.id (s.pupa.without k.val)[k.val] =
        Rfid.id ((s.pupa.trimTo (k.val + 1)).shifted k.val)[k.val] := by
      rw [Pupa.getElem_without]
      exact strip_content_trimAt (p := 0) (hterm k.val k.isLt).id
    rw [Rfid.Occupied, ← hid, hslot]
    exact ho
  intro hnil
  have hpiece : [32] ∈ ((s.pupa.trimTo (k.val + 1)).shifted k.val).pieces := by
    refine List.mem_flatMap.mpr ⟨_, Vector.mem_toList_iff.mpr (Vector.getElem_mem k.isLt), ?_⟩
    rw [Rfid.pieces, if_pos hfilled]
    exact List.mem_cons_of_mem _ List.mem_cons_self
  cases List.flatten_eq_nil_iff.mp hnil _ hpiece

/-- A removal of which a call fails. -/
theorem honest_remove_failing (hs : s.Sound) (text : Bytes)
    (hl : s.pupa.lookup (wanted arg) = some k) (hfail : ¬ (o.remove = true ∧ o.writeOpen = true)) :
    (Op.remove arg).Honest o s ⟨s.pupa.without k.val, s.card.without o s.pupa k.val⟩
      [.deleting text] ↔ o.Idles s k := by
  have ho : (s.pupa.get k).Occupied := (Rfid.member_eq_some.mp (Pupa.member_lookup hl).1).1
  -- where the file is as before, so are its records
  have hrecords : (s.card.without o s.pupa k.val).idaccess = s.card.idaccess →
      (s.card.without o s.pupa k.val).records = s.card.records := by
    intro hsame
    rw [Card.records, Card.text, hsame]
    rfl
  constructor
  · intro hh
    obtain ⟨htable, hfile⟩ := hh.kept ⟨by rw [hl]; rfl, by
      simpa only [not_and_or, Bool.not_eq_true] using hfail⟩
    have hgone := (hh.deleted arg text k rfl (List.mem_cons_self ..) hl).1
    rw [hrecords hfile] at hgone
    refine ⟨?_, hgone, (Pupa.without_eq_self_iff hs.pupa ho).mp htable⟩
    have hpieces := pieces_ne_nil hs ho htable
    cases hw : o.writeOpen with
    | true =>
      have hr : o.remove = false := by simpa [hw] using hfail
      simp only [Card.without, Card.appended, Card.removed, hw, hr, if_true, Card.text] at hfile
      cases hid : s.card.idaccess with
      | none => simp [hid] at hfile
      | some file =>
        simp [hid] at hfile
        exact absurd (List.flatten_eq_nil_iff.mpr hfile) hpieces
    | false =>
      refine ⟨rfl, ?_⟩
      cases hr : o.remove with
      | false => exact Or.inl rfl
      | true =>
        simp only [Card.without, Card.appended, Card.removed, hw, hr, if_true] at hfile
        exact Or.inr hfile.symm
  · rintro ⟨⟨hw, hr⟩, habsent, hstill⟩
    have htable := (Pupa.without_eq_self_iff hs.pupa ho).mpr hstill
    have hfile : (s.card.without o s.pupa k.val).idaccess = s.card.idaccess := by
      rw [Card.without, Card.appended, hw]
      change (s.card.removed o.remove).idaccess = _
      rw [Card.removed]
      split
      · rename_i hremove
        exact (hr.resolve_left (by rw [hremove]; decide)).symm
      · rfl
    refine ⟨fun a ha => (by cases ha), fun a x j ha _ hj => ?_, fun _ => ⟨htable, hfile⟩⟩
    obtain rfl := Option.some.inj (hl.symm.trans (Op.remove.inj ha ▸ hj))
    exact ⟨fun r hr => habsent r (hrecords hfile ▸ hr),
      fun r hr _ => ⟨r, hrecords hfile ▸ hr, rfl, Or.inr rfl⟩⟩

end Op

/-- After any run of operations, whichever SD calls failed, an operation reports what it did
and leaves the state intact when a call fails, exactly when it meets the condition. -/
theorem failures_reported {runs : List (SdOutcome × Op)} {o : SdOutcome} {op : Op} {s t : Store}
    {replies : List Reply} (hs : attempts runs = .ok s) (h : op.exec o s = .ok (t, replies)) :
    op.Honest o s t replies ↔ op.Reliable o s := by
  have hsound := attempts_sound hs
  have hquiet : (∀ arg, op ≠ .add arg) → (∀ arg, op ≠ .remove arg) →
      op.Honest o s t replies := fun hadd hremove =>
    ⟨fun arg ha => absurd ha (hadd arg), fun arg _ _ ha => absurd ha (hremove arg),
      fun hf => by
        cases op with
        | add arg => exact absurd rfl (hadd arg)
        | remove arg => exact absurd rfl (hremove arg)
        | _ => exact hf.elim⟩
  cases op with
  | reboot =>
    exact iff_of_true (hquiet (fun arg ha => by cases ha) fun arg ha => by cases ha) trivial
  | lookup arg =>
    exact iff_of_true (hquiet (fun arg ha => by cases ha) fun arg ha => by cases ha) trivial
  | add arg => exact Op.honest_add hsound h
  | remove arg =>
    rw [Op.exec_remove o hsound.pupa] at h
    cases hl : s.pupa.lookup (wanted arg) with
    | none =>
      simp only [hl] at h
      obtain ⟨rfl, rfl⟩ := Prod.mk.inj (Except.ok.inj h)
      refine iff_of_true ⟨fun _ ha => (nomatch ha), fun _ _ _ _ hr => ?_, fun hf => ?_⟩
        fun k hk => by rw [hl] at hk; cases hk
      · simp at hr
      · have hsome := hf.1
        simp [hl] at hsome
    | some k =>
      simp only [hl] at h
      obtain ⟨rfl, rfl⟩ := Prod.mk.inj (Except.ok.inj h)
      have hreliable : (Op.remove arg).Reliable o s ↔ o.Deletes s k ∨ o.Idles s k := by
        rw [Op.Reliable, hl]
        exact ⟨fun h => h k rfl, fun h j hj => Option.some.inj hj ▸ h⟩
      rw [hreliable]
      by_cases hok : o.remove = true ∧ o.writeOpen = true
      · rw [Op.honest_remove hsound (wanted arg) hl hok.1 hok.2]
        have hopen : ¬ o.Idles s k := fun hidle =>
          absurd (hidle.1.1.symm.trans hok.2) (by decide)
        exact ⟨Or.inl, fun h => h.resolve_right hopen⟩
      · rw [Op.honest_remove_failing hsound (wanted arg) hl hok]
        exact ⟨Or.inr, fun h => h.resolve_left fun hdel => hok hdel.1⟩

/-- With two members on the card, the first is removed and no SD call fails. -/
theorem failures_reported_of_first : ∃ s t replies,
    attempts [(.success, .reboot),
      (.success, .add [65, 65, 65, 65, 65, 65, 65, 65, 65, 65, 32, 97]),
      (.success, .add [66, 66, 66, 66, 66, 66, 66, 66, 66, 66, 32, 98])] = .ok s ∧
    Op.exec .success s (.remove [97]) = .ok (t, replies) ∧
    (Op.remove [97]).Honest .success s t replies := by
  have hrun : (attempts [(.success, .reboot),
      (.success, .add [65, 65, 65, 65, 65, 65, 65, 65, 65, 65, 32, 97]),
      (.success, .add [66, 66, 66, 66, 66, 66, 66, 66, 66, 66, 32, 98])] >>= fun s =>
      Op.exec .success s (.remove [97]) >>= fun _ =>
        .ok (decide ((Op.remove [97]).Reliable .success s))) = .ok true := by
    decide +kernel
  obtain ⟨s, hs, h⟩ := bind_eq_ok.mp hrun
  obtain ⟨⟨t, replies⟩, ht, h⟩ := bind_eq_ok.mp h
  have hrel := of_decide_eq_true (Except.ok.inj h)
  exact ⟨s, t, replies, hs, ht, (failures_reported hs ht).mpr hrel⟩

/-- A member without a name was removed while the file could not be deleted. Its id still
stands alone on a line, which a removal of the next member loses. -/
example : (attempts [(.success, .reboot),
      (.success, .add [65, 65, 65, 65, 65, 65, 65, 65, 65, 65]),
      (.success, .add [66, 66, 66, 66, 66, 66, 66, 66, 66, 66, 32, 98]),
      (⟨true, false, true⟩, .remove [65, 65, 65, 65, 65, 65, 65, 65, 65, 65])] >>= fun s =>
    .ok (decide ((Op.remove [98]).Reliable .success s))) = .ok false := by
  decide +kernel

/-- When the file cannot be opened, `add_member` reports success, and the file has
gained nothing. When it can be deleted but not opened again, `remove_member` reports
the deletion of one member, and the file has lost both. -/
theorem failures_reported_of_open :
    (attempts [(.success, .reboot)] >>= fun s =>
      Op.exec ⟨false, true, true⟩ s (.add [65, 65, 65, 65, 65, 65, 65, 65, 65, 65, 32, 97]) >>=
        fun r => .ok (r.2, r.1.card.idaccess)) =
      .ok ([.addSuccess, .adding [65, 65, 65, 65, 65, 65, 65, 65, 65, 65, 32, 97]], some []) ∧
    (attempts [(.success, .reboot),
      (.success, .add [65, 65, 65, 65, 65, 65, 65, 65, 65, 65, 32, 97]),
      (.success, .add [66, 66, 66, 66, 66, 66, 66, 66, 66, 66, 32, 98])] >>= fun s =>
      Op.exec ⟨true, true, false⟩ s (.remove [97]) >>= fun r => .ok (r.2, r.1.card.idaccess)) =
      .ok ([.deleting [97]], none) := by
  decide +kernel

end SmartDoor
