import SmartDoor.Access.Decoding
import SmartDoor.System.Separation

/-!
# What a listing tells

`show_member` sends a line for each slot whose id is not the empty string. The number, the id
and the name can be read off a line, and the lines off the text that a client sees, so two
listings look the same just when the same slots hold the same ids and names. A lookup compares
nothing else: what is listed decides who opens the door.
-/

namespace SmartDoor

open CString Separators

/-! ## A line of the listing -/

/-- The text of an output, as a terminal shows it: `println` ends each of its lines with CR and
LF, and the CRs are not seen. -/
def Output.text (o : Output) : Bytes := (o.lines.flatMap (· ++ [13, 10])).filter (· ≠ 13)

/-- What the line of a member shows. -/
def memberLine (i : Nat) (m : Member) : Bytes :=
  ascii "No." ++ (decimal i ++ 58 :: 32 :: (m.1 ++ 32 :: (m.2 ++ [10])))

/-- The id and the name consist of letters and digits. -/
def Member.Worded (m : Member) : Prop := (∀ c ∈ m.1, isWord c = true) ∧ ∀ c ∈ m.2, isWord c = true

/-- The number and the member can be read back. -/
theorem memberLine_injective {i i' : Nat} {m m' : Member} (hm : Member.Worded m)
    (hm' : Member.Worded m') (h : memberLine i m = memberLine i' m') : i = i' ∧ m = m' := by
  have hcolon : ∀ n, (58 : UInt8) ∉ decimal n := notMem_decimal (Or.inr (by decide))
  have hblank : ∀ {id : Bytes}, (∀ c ∈ id, isWord c = true) → (32 : UInt8) ∉ id := fun hid =>
    Decision.notMem_id hid (Or.inl rfl)
  obtain ⟨hnumber, hrest⟩ := cut (hcolon i) (hcolon i') (List.append_cancel_left h)
  obtain ⟨hid, hname⟩ := cut (hblank hm.1) (hblank hm'.1) (List.cons.inj hrest).2
  exact ⟨decimal_injective hnumber, Prod.ext hid (List.append_cancel_right hname)⟩

theorem ended_memberLine (i : Nat) {m : Member} (hm : Member.Worded m) :
    Ended 10 (memberLine i m) := by
  refine ⟨ascii "No." ++ (decimal i ++ 58 :: 32 :: (m.1 ++ 32 :: m.2)), ?_, by simp [memberLine]⟩
  have hword : ascii "No." = [78, 111, 46] := by decide
  have hnumber : (10 : UInt8) ∉ decimal i := notMem_decimal (Or.inl (by decide)) i
  have hid : (10 : UInt8) ∉ m.1 := Decision.notMem_id hm.1 (Or.inr rfl)
  have hname : (10 : UInt8) ∉ m.2 := Decision.notMem_id hm.2 (Or.inr rfl)
  rw [hword]
  simp [hnumber, hid, hname]

theorem Rfid.Sound.worded {r : Rfid} (h : r.Sound) : Member.Worded r.entry :=
  ⟨h.words_id, h.tidyName.eq_word.2⟩

/-- The name is sent as it is stored, but the CRs behind it are not seen. -/
theorem Rfid.Sound.text_member {r : Rfid} (h : r.Sound) (i : Nat) :
    (Output.member i r.id (content r.memberName.toList)).text = memberLine i r.entry := by
  have hcr : ∀ {w : Bytes}, (13 : UInt8) ∉ w → w.filter (· ≠ 13) = w := fun hw =>
    List.filter_eq_self.mpr fun c hc => decide_eq_true fun heq => hw (heq ▸ hc)
  have hwords : ∀ {w : Bytes}, (∀ c ∈ w, isWord c = true) → (13 : UInt8) ∉ w := fun hw hc =>
    (isWord_ne (hw 13 hc)).2.1 rfl
  have hnumber := hcr (notMem_decimal (Or.inl (by decide)) i)
  have hid : r.id.filter (· ≠ 13) = r.id := hcr (hwords h.words_id)
  have hname : (content r.memberName.toList).filter (· ≠ 13) = r.name := by
    obtain ⟨hcontent, hwords'⟩ := h.tidyName.eq_word
    rw [hcontent, List.filter_append, hcr (hwords hwords'), List.filter_replicate]
    exact List.append_nil _
  have hcolon : ascii ": " = [58, 32] := by decide
  have hspace : ascii " " = [32] := by decide
  have hword : (ascii "No.").filter (· ≠ 13) = ascii "No." := by decide
  rw [Output.text, Output.lines, List.flatMap_singleton, hcolon, hspace]
  simp only [List.filter_append, hword, hnumber, hid, hname]
  simp [memberLine, Rfid.entry]

/-! ## The entries of a table -/

/-- What is listed of a slot. -/
def Rfid.listed (r : Rfid) : Option Member :=
  if content r.memberId.toList = [] then none else some r.entry

theorem Rfid.listed_eq_some {r : Rfid} {m : Member} (h : r.listed = some m) : m = r.entry := by
  rw [Rfid.listed] at h
  split at h
  · cases h
  · exact (Option.some.inj h).symm

/-- The output for a slot. -/
def Pupa.output (pupa : Pupa) (i : Fin MEMBER) : Option Output :=
  (pupa.get i).listed.map fun m => .member i m.1 (content (pupa.get i).memberName.toList)

/-- The loop of `show_member` sends the outputs from its slot on: what it trims is behind it. -/
theorem showLoop_outputs {left i : Nat} {pupa pupa' : Pupa} {out : List Output}
    (hp : pupa.Terminated) (hleft : left + i = MEMBER)
    (h : showLoop left i pupa = .ok (pupa', out)) :
    out = ((List.finRange MEMBER).drop i).filterMap pupa.output := by
  induction left generalizing i pupa out with
  | zero =>
    obtain ⟨-, rfl⟩ := Prod.mk.inj (Except.ok.inj h)
    rw [List.drop_eq_nil_of_le (by rw [List.length_finRange]; omega), List.filterMap_nil]
  | succ left ih =>
    have hi : i < MEMBER := by omega
    have hdrop : (List.finRange MEMBER).drop i =
        ⟨i, hi⟩ :: (List.finRange MEMBER).drop (i + 1) := by
      rw [List.drop_eq_getElem_cons (by rwa [List.length_finRange]), List.getElem_finRange]
      rfl
    have hr := hp i hi
    have hempty : content ([0] : Bytes) = [] := rfl
    rw [showLoop, dif_pos hi, streq_eq hr.id (b := [0]) (by decide), hempty, ok_bind] at h
    rw [hdrop, List.filterMap_cons, Pupa.output, Pupa.get_eq, Rfid.listed]
    by_cases hblank : content pupa[i].memberId.toList = []
    · rw [if_pos (decide_eq_true hblank)] at h
      rw [if_pos hblank]
      exact ih hp (by omega) h
    · rw [if_neg fun heq => hblank (of_decide_eq_true heq), trimwhitespace_eq _ 0 hr.id, ok_bind] at h
      simp only at h
      rw [Sketch.puts_ok (terminated_trimAt_ptr (p := 0) hr.id),
        content_trimAt_ptr (p := 0) hr.id, ok_bind, Sketch.puts_ok hr.name, ok_bind] at h
      obtain ⟨⟨pupa'', lines⟩, hloop, h⟩ := bind_eq_ok.mp h
      obtain ⟨rfl, rfl⟩ := Prod.mk.inj (Except.ok.inj h)
      have hrest := ih (hp.set_trimmed hi) (show left + (i + 1) = MEMBER by omega) hloop
      rw [if_neg hblank, hrest]
      refine congrArg (_ :: ·) (List.filterMap_congr fun j hj => ?_)
      have hne : i ≠ j := by
        obtain ⟨k, hk, rfl⟩ := List.getElem_of_mem hj
        rw [List.getElem_drop, List.getElem_finRange]
        simp only [Fin.val_cast]
        omega
      rw [Pupa.output, Pupa.output, Pupa.get_eq, Pupa.get_eq, Vector.getElem_set_ne _ _ hne]

namespace Pupa

variable {pupa pupa' : Pupa}

/-- What is listed of a table. -/
def listed (pupa : Pupa) : List (Fin MEMBER × Member) :=
  (List.finRange MEMBER).filterMap fun i => (pupa.get i).listed.map (Prod.mk i)

theorem mem_listed {i : Fin MEMBER} {m : Member} :
    (i, m) ∈ pupa.listed ↔ (pupa.get i).listed = some m := by
  rw [listed, List.mem_filterMap]
  constructor
  · rintro ⟨j, -, hj⟩
    obtain ⟨m', hm', heq⟩ := Option.map_eq_some_iff.mp hj
    obtain ⟨rfl, rfl⟩ := Prod.mk.inj heq
    exact hm'
  · intro h
    exact ⟨i, List.mem_finRange i, by rw [h]; rfl⟩

/-- The lists are the same just when the same is listed of each slot. -/
theorem listed_eq_iff : pupa.listed = pupa'.listed ↔
    ∀ i, (pupa.get i).listed = (pupa'.get i).listed := by
  constructor
  · intro h i
    ext1 m
    rw [← mem_listed, ← mem_listed, h]
  · intro h
    refine List.filterMap_congr fun i _ => ?_
    rw [h]

theorem Sound.worded_listed (h : pupa.Sound) {e : Fin MEMBER × Member} (he : e ∈ pupa.listed) :
    e.2.Worded := by
  obtain ⟨i, m⟩ := e
  obtain rfl := Rfid.listed_eq_some (mem_listed.mp he)
  exact (h i i.isLt).worded

/-- What the outputs show. -/
theorem Sound.text_outputs (h : pupa.Sound) (slots : List (Fin MEMBER)) :
    (slots.filterMap pupa.output).flatMap Output.text =
      (slots.filterMap fun i => (pupa.get i).listed.map (Prod.mk i)).flatMap fun e =>
        memberLine e.1 e.2 := by
  induction slots with
  | nil => rfl
  | cons i slots ih =>
    rw [List.filterMap_cons, List.filterMap_cons, output]
    cases hlisted : (pupa.get i).listed with
    | none => exact ih
    | some m =>
      obtain rfl := Rfid.listed_eq_some hlisted
      simp only [Option.map_some, List.flatMap_cons]
      rw [ih]
      exact congrArg (· ++ _) ((h i i.isLt).text_member i)

/-- A list can be read off the beginning of its text. -/
theorem listed_prefix (h : pupa.Sound) (h' : pupa'.Sound)
    (htext : (pupa.listed.flatMap fun e => memberLine e.1 e.2) <+:
      pupa'.listed.flatMap fun e => memberLine e.1 e.2) : pupa.listed <+: pupa'.listed := by
  have hended : ∀ {pupa : Pupa}, pupa.Sound →
      ∀ l ∈ pupa.listed.map fun e => memberLine e.1 e.2, Ended 10 l := by
    intro pupa h l hl
    obtain ⟨e, he, rfl⟩ := List.mem_map.mp hl
    exact ended_memberLine e.1 (h.worded_listed he)
  rw [List.flatMap_def, List.flatMap_def] at htext
  have hread := prefix_map (p := id) (q := id) (fun e he e' he' heq => ?_)
    (prefix_of_flatten (hended h) (hended h') htext)
  · rwa [List.map_id, List.map_id] at hread
  · obtain ⟨hslot, hmember⟩ :=
      memberLine_injective (h.worded_listed he) (h'.worded_listed he') heq
    exact Prod.ext (Fin.ext hslot) hmember

theorem listed_injective (h : pupa.Sound) (h' : pupa'.Sound)
    (htext : (pupa.listed.flatMap fun e => memberLine e.1 e.2) =
      pupa'.listed.flatMap fun e => memberLine e.1 e.2) : pupa.listed = pupa'.listed := by
  have hprefix := listed_prefix h h' (htext ▸ List.prefix_rfl)
  have hprefix' := listed_prefix h' h (htext ▸ List.prefix_rfl)
  exact hprefix.eq_of_length (le_antisymm hprefix.length_le hprefix'.length_le)

end Pupa

/-! ## What a lookup compares -/

theorem Rfid.id_of_blank {r : Rfid} (h : content r.memberId.toList = []) : r.id = [] := by
  rw [Rfid.id, h]
  rfl

/-- The member in a slot is what is listed of it, if it has an id. -/
theorem Rfid.member_eq_listed (r : Rfid) :
    r.member = r.listed.bind fun m => if m.1 ≠ [] then some m else none := by
  rw [Rfid.member_eq, Rfid.listed]
  by_cases hblank : content r.memberId.toList = []
  · rw [if_pos hblank]
    exact if_neg (not_not.mpr (Rfid.id_of_blank hblank))
  · rw [if_neg hblank]
    rfl

/-- A lookup compares what is listed. -/
theorem Pupa.lookup_of_listed {pupa pupa' : Pupa}
    (h : ∀ i, (pupa.get i).listed = (pupa'.get i).listed) (user : Bytes) :
    pupa.lookup user = pupa'.lookup user := by
  have hmatches : ∀ i, (pupa.get i).Matches user ↔ (pupa'.get i).Matches user := fun i => by
    rw [Rfid.matches_iff, Rfid.matches_iff, Rfid.member_eq_listed, Rfid.member_eq_listed, h i]
  rw [Pupa.lookup, Pupa.lookup]
  simp only [hmatches]

/-- The answer of `isUser` is the slot that the lookup finds. -/
theorem isUser_of_lookup {pupa pupa' : Pupa} (hp : pupa.Terminated) (hp' : pupa'.Terminated)
    (h : ∀ user, pupa.lookup user = pupa'.lookup user) {k : Nat} {str : Vector UInt8 k} {p : Nat}
    (hs : Terminated (str.toList.drop p)) :
    (isUser pupa str p).map Prod.fst = (isUser pupa' str p).map Prod.fst := by
  rw [isUser_eq hp hs, isUser_eq hp' hs]
  simp only [Except.map, Pupa.searched, h]
  cases pupa'.lookup (strip (content (str.toList.drop p))) <;> rfl

/-! ## Listings on the machine -/

variable {Conn : Type} [DecidableEq Conn]

namespace Machine

/-- The pass over what the client has sent ends a line that asks for the members. -/
def Asks (m : Machine Conn) (pick : Option Conn) : Prop :=
  ∃ r ∈ m.server.reading pick, 10 ∈ r.2 ∧
    Session.answer (m.server.lineOf r.2) = .showMember

instance (m : Machine Conn) (pick : Option Conn) : Decidable (m.Asks pick) :=
  inferInstanceAs (Decidable (∃ r ∈ m.server.reading pick, 10 ∈ r.2 ∧
    Session.answer (m.server.lineOf r.2) = .showMember))

/-- The text that a move sends to the clients. -/
def reply (m n : Machine Conn) : Bytes :=
  (n.sent.drop m.sent.length).flatMap fun s => s.2.text

/-- The answer is the listing of the table, which the move trims. -/
theorem Running.reply_of_asks {m n : Machine Conn} (h : m.Running) {o : SdOutcome}
    {pick : Option Conn} (hasks : m.Asks pick) (hstep : m.step (.processServer o pick) = .ok n) :
    m.reply n = Output.memberHead.text ++
        ((m.device.sketch.store.pupa.listed.flatMap fun e => memberLine e.1 e.2) ++
          Output.memberDone.text) ∧
      n.device.sketch.store.pupa.trimTo MEMBER = m.device.sketch.store.pupa.trimTo MEMBER := by
  obtain ⟨⟨client, bytes⟩, hreading, hmem, hanswer⟩ := hasks
  obtain ⟨s, hs, hstep⟩ := bind_eq_ok.mp hstep
  obtain rfl := Except.ok.inj hstep
  rcases Server.processServer_passed h.line h.device.store hs with ⟨hnone, -⟩ |
    ⟨client', bytes', hsome, hpassed⟩
  · exact absurd (hnone.symm.trans hreading) (by simp)
  · obtain ⟨rfl, rfl⟩ := Prod.mk.inj (Option.some.inj (hsome.symm.trans hreading))
    cases hpassed with
    | unfinished hnot => exact absurd hmem hnot
    | executed out e hmem hexec hsent =>
      rw [hanswer] at hexec
      have hharmless : Operation.Harmless m.device.sketch.store .showMember := trivial
      obtain ⟨htrim, -⟩ := Operation.exec_harmless h.device.store hharmless hexec
      refine ⟨?_, htrim⟩
      obtain ⟨⟨pupa, shown⟩, hshow, hexec⟩ := bind_eq_ok.mp hexec
      obtain ⟨⟨pupa', lines⟩, hloop, hshow⟩ := bind_eq_ok.mp hshow
      obtain ⟨rfl, rfl⟩ := Prod.mk.inj (Except.ok.inj hshow)
      have hout := (Prod.mk.inj (Prod.mk.inj (Except.ok.inj hexec)).2).2
      have hlines := showLoop_outputs h.device.store.pupa.terminated rfl hloop
      have hsent : (m.withServer s).sent = m.sent ++ out.map fun line => (client', line) := hsent
      rw [reply, hsent, List.drop_left, List.flatMap_map, ← hout, List.flatMap_cons,
        List.flatMap_append, List.flatMap_singleton, hlines]
      exact congrArg (fun text => _ ++ (text ++ _)) (h.device.store.pupa.text_outputs _)

/-- A lookup after the answer finds what a lookup before it would have found. -/
theorem Running.lookup_of_asks {m n : Machine Conn} (h : m.Running) {o : SdOutcome}
    {pick : Option Conn} (hasks : m.Asks pick) (hstep : m.step (.processServer o pick) = .ok n)
    (user : Bytes) :
    n.device.sketch.store.pupa.lookup user = m.device.sketch.store.pupa.lookup user := by
  obtain ⟨-, htrim⟩ := h.reply_of_asks hasks hstep
  rw [← Pupa.lookup_trimTo (h.step hstep).device.store.pupa.terminated MEMBER user, htrim,
    Pupa.lookup_trimTo h.device.store.pupa.terminated]

end Machine

/-- In any two states that the machine reaches, clients that ask for the members see the same text
just when the same is listed of each slot. If they do, `isUser` has the same answer to any code
behind the one listing and behind the other: the listing tells who opens the door. -/
theorem listing_decides {first first' : World} {store store' : Store} (hs : store.Sound)
    (hs' : store'.Sound) {moves moves' : List (Move Conn)} {m m' n n' : Machine Conn}
    (hrun : moves.foldlM Machine.step (Machine.initial Conn first store) = .ok m)
    (hrun' : moves'.foldlM Machine.step (Machine.initial Conn first' store') = .ok m')
    {o o' : SdOutcome} {pick pick' : Option Conn} (hasks : m.Asks pick) (hasks' : m'.Asks pick')
    (hstep : m.step (.processServer o pick) = .ok n)
    (hstep' : m'.step (.processServer o' pick') = .ok n') :
    (m.reply n = m'.reply n' ↔ ∀ i, (m.device.sketch.store.pupa.get i).listed =
      (m'.device.sketch.store.pupa.get i).listed) ∧
    (m.reply n = m'.reply n' → ∀ {k : Nat} (str : Vector UInt8 k) (p : Nat),
      Terminated (str.toList.drop p) →
        (isUser n.device.sketch.store.pupa str p).map Prod.fst =
          (isUser n'.device.sketch.store.pupa str p).map Prod.fst) := by
  have hrunning : m.Running := Run.invariant (fun h hstep => h.step hstep)
    (Machine.running_initial first hs) hrun
  have hrunning' : m'.Running := Run.invariant (fun h hstep => h.step hstep)
    (Machine.running_initial first' hs') hrun'
  have hreply : m.reply n = m'.reply n' ↔ ∀ i, (m.device.sketch.store.pupa.get i).listed =
      (m'.device.sketch.store.pupa.get i).listed := by
    rw [(hrunning.reply_of_asks hasks hstep).1, (hrunning'.reply_of_asks hasks' hstep').1,
      ← Pupa.listed_eq_iff, List.append_cancel_left_eq, List.append_cancel_right_eq]
    exact ⟨Pupa.listed_injective hrunning.device.store.pupa hrunning'.device.store.pupa,
      fun h => h ▸ rfl⟩
  refine ⟨hreply, fun h k str p hterm => ?_⟩
  refine isUser_of_lookup (hrunning.step hstep).device.store.pupa.terminated
    (hrunning'.step hstep').device.store.pupa.terminated (fun user => ?_) hterm
  rw [hrunning.lookup_of_asks hasks hstep, hrunning'.lookup_of_asks hasks' hstep']
  exact Pupa.lookup_of_listed (hreply.mp h) user

/-- On one machine a member is added and listed, on another one also a second member that is
removed before the listing. -/
theorem listing_decides_of_removed :
    let start : Machine Nat := Machine.initial Nat .still Store.initial
    ∃ m n m' n',
      [Move.connect 7, .receive 7 (ascii "2_0C0029DA90 Aj\n1_\n"),
        .processServer .success (some 7)].foldlM Machine.step start = .ok m ∧
      [Move.connect 3, .receive 3 (ascii "2_0C0029DA90 Aj\n2_0C0029DA91 Bo\n3_Bo\n1_\n"),
        .processServer .success (some 3), .processServer .success none,
        .processServer .success none].foldlM Machine.step start = .ok m' ∧
      m.step (.processServer .success none) = .ok n ∧
      m'.step (.processServer .success none) = .ok n' ∧
      ∀ {k : Nat} (str : Vector UInt8 k) (p : Nat), Terminated (str.toList.drop p) →
        (isUser n.device.sketch.store.pupa str p).map Prod.fst =
          (isUser n'.device.sketch.store.pupa str p).map Prod.fst := by
  intro start
  have hruns : ([Move.connect 7, .receive 7 (ascii "2_0C0029DA90 Aj\n1_\n"),
        .processServer .success (some 7)].foldlM Machine.step start >>= fun m =>
      [Move.connect 3, .receive 3 (ascii "2_0C0029DA90 Aj\n2_0C0029DA91 Bo\n3_Bo\n1_\n"),
        .processServer .success (some 3), .processServer .success none,
        .processServer .success none].foldlM Machine.step start >>= fun m' =>
      m.step (.processServer .success none) >>= fun n =>
      m'.step (.processServer .success none) >>= fun n' =>
      .ok (decide (m.Asks none ∧ m'.Asks none ∧ m.reply n = m'.reply n'))) = .ok true := by
    decide +kernel
  obtain ⟨m, hm, hruns⟩ := bind_eq_ok.mp hruns
  obtain ⟨m', hm', hruns⟩ := bind_eq_ok.mp hruns
  obtain ⟨n, hn, hruns⟩ := bind_eq_ok.mp hruns
  obtain ⟨n', hn', hruns⟩ := bind_eq_ok.mp hruns
  obtain ⟨hasks, hasks', hreply⟩ := of_decide_eq_true (Except.ok.inj hruns)
  have hdecides := listing_decides Store.sound_initial Store.sound_initial hm hm' hasks hasks'
    hn hn'
  exact ⟨m, n, m', n', hm, hm', hn, hn', hdecides.2 hreply⟩

end SmartDoor
