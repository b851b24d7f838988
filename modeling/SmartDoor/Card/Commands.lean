import SmartDoor.Card.Members

/-!
# The commands on a sound store

On a sound store, whose table is sound and whose file is a closed text, every
operation is described by what it does to the table and to the card. All of them
leave a sound store behind, whichever of their SD calls fail, so that every
history leads from one sound store to another until it ends in a fault.
-/

namespace SmartDoor

open CString

/-! ## The argument -/

theorem content_cString (arg : Bytes) : content (cString arg).toList = content arg :=
  content_append_terminator arg []

theorem terminated_cString (arg : Bytes) : Terminated (cString arg).toList :=
  List.mem_append_right _ (List.mem_singleton_self 0)

/-- What a lookup with this argument looks for. -/
def wanted (arg : Bytes) : Bytes := strip (content arg)

theorem strip_cString (arg : Bytes) :
    strip (content ((cString arg).toList.drop 0)) = wanted arg := by
  rw [List.drop_zero, content_cString, wanted]

theorem isUser_cString {pupa : Pupa} (hp : pupa.Terminated) (arg : Bytes) :
    isUser pupa (cString arg) 0 = .ok ((pupa.searched (wanted arg)).1,
      (pupa.searched (wanted arg)).2, trimAt (cString arg) 0) := by
  rw [isUser_eq hp (p := 0) (terminated_cString arg), strip_cString]

/-! ## What a lookup answers -/

/-- What `isUser` answers for a string. -/
def Pupa.answer (pupa : Pupa) (user : Bytes) : Except Fault Int :=
  (isUser pupa (cString user) 0).map Prod.fst

theorem Pupa.answer_eq {pupa : Pupa} (hp : pupa.Terminated) (user : Bytes) :
    pupa.answer user = .ok (pupa.searched (wanted user)).1 := by
  rw [answer, isUser_cString hp]
  rfl

/-- The answer is -1 when no member is named. -/
theorem Pupa.answer_eq_neg {pupa : Pupa} (hp : pupa.Terminated) (user : Bytes) :
    pupa.answer user = .ok (-1) ↔ ∀ m ∈ pupa.members, ¬ Named (wanted user) m := by
  rw [answer_eq hp, ← lookup_eq_none_members, searched]
  cases pupa.lookup (wanted user) with
  | none => exact ⟨fun _ => rfl, fun _ => rfl⟩
  | some k =>
    constructor
    · intro h
      have hk : (k.val : Int) = -1 := Except.ok.inj h
      omega
    · intro h
      cases h

/-- A slot that is answered is the first that matches. -/
theorem Pupa.lookup_of_answer {pupa : Pupa} (hp : pupa.Terminated) {user : Bytes}
    {k : Fin MEMBER} (h : pupa.answer user = .ok (k.val : Int)) :
    pupa.lookup (wanted user) = some k := by
  rw [answer_eq hp, searched] at h
  cases hl : pupa.lookup (wanted user) with
  | none =>
    rw [hl] at h
    have hk : (-1 : Int) = k.val := Except.ok.inj h
    omega
  | some j =>
    rw [hl] at h
    have hk : (j.val : Int) = k.val := Except.ok.inj h
    exact congrArg some (Fin.ext (by omega))

theorem wanted_words {w : Bytes} (hw : ∀ c ∈ w, isWord c) : wanted w = w := by
  have hc : content w = w := List.takeWhile_eq_self_iff.mpr fun c hc => by
    simpa using (isWord_ne (hw c hc)).1
  rw [wanted, hc, strip_words hw]

/-! ## The card -/

/-- The text of the member file; a missing file has none. -/
def Card.text (c : Card) : Bytes := c.idaccess.getD []

/-- The text of the log. -/
def Card.log (c : Card) : Bytes := c.activity.getD []

theorem SdCall.foldl_print (c : Card) (ps : List Bytes) (ho : c.sdcard = true) :
    (ps.map SdCall.print).foldl SdCall.run c =
      { c with idaccess := c.idaccess.map (· ++ ps.flatten) } := by
  induction ps generalizing c with
  | nil => rcases c with ⟨_ | f, a, d⟩ <;> simp
  | cons b ps ih =>
    have hrun : (SdCall.print b).run c = { c with idaccess := c.idaccess.map (· ++ b) } :=
      if_pos ho
    rw [List.map_cons, List.foldl_cons, hrun]
    refine (ih { c with idaccess := c.idaccess.map (· ++ b) } ho).trans ?_
    cases c.idaccess <;> simp

/-- Prints to a file that is not open are lost. -/
theorem SdCall.foldl_print_shut (c : Card) (ps : List Bytes) (ho : c.sdcard = false) :
    (ps.map SdCall.print).foldl SdCall.run c = c := by
  induction ps with
  | nil => rfl
  | cons b ps ih =>
    have hrun : (SdCall.print b).run c = c := if_neg (by simp [ho])
    rw [List.map_cons, List.foldl_cons, hrun, ih]

/-- The card after an `SD.open` for appending, prints and a `close`. -/
def Card.appended (ok : Bool) (text : Bytes) (c : Card) : Card :=
  { c with idaccess := if ok then some (c.text ++ text) else c.idaccess, sdcard := false }

theorem SdCall.foldl_append (ok : Bool) (c : Card) (ps : List Bytes) :
    (SdCall.openWrite ok :: (ps.map SdCall.print ++ [.close])).foldl SdCall.run c =
      c.appended ok ps.flatten := by
  rw [List.foldl_cons, List.foldl_append]
  cases ok with
  | true =>
    rw [SdCall.foldl_print _ _ (by rfl)]
    rfl
  | false =>
    rw [SdCall.foldl_print_shut _ _ (by rfl)]
    rfl

/-- The card after `SD.remove`. -/
def Card.removed (ok : Bool) (c : Card) : Card := if ok then { c with idaccess := none } else c

/-- The card after the calls of a removal that writes these pieces. -/
theorem SdCall.foldl_delete (o : SdOutcome) (c : Card) (ps : List Bytes) :
    (SdCall.remove o.remove :: .openWrite o.writeOpen :: (ps.map SdCall.print ++ [.close])).foldl
      SdCall.run c = (c.removed o.remove).appended o.writeOpen ps.flatten := by
  rw [List.foldl_cons, SdCall.foldl_append]
  rfl

/-! ## The operations -/

/-- The table is sound and the member file is a closed text. -/
structure Store.Sound (s : Store) : Prop where
  pupa : s.pupa.Sound
  file : (parse s.card.text).Closed

theorem Store.sound_initial : Store.initial.Sound := ⟨Pupa.sound_zero, rfl⟩

/-- The card after `sdcard_process`: both files exist. -/
def Card.processed (c : Card) : Card :=
  { c with idaccess := some c.text, activity := some (c.activity.getD []),
           sdcard := c.sdcard && c.idaccess.isSome }

/-- A missing file is read like an empty one. -/
theorem Store.sdcardProcess_eq {s : Store} (hs : s.pupa.Sound) :
    s.sdcardProcess = (readFile s.pupa s.card.text).map fun pupa => ⟨pupa, s.card.processed⟩ := by
  obtain ⟨pupa, idaccess, activity, sdcard⟩ := s
  cases idaccess with
  | some f =>
    simp only [sdcardProcess, Card.text, Card.processed, Option.getD_some, Option.isSome_some,
      Bool.and_true]
    cases readFile pupa f <;> rfl
  | none =>
    have hempty : readFile pupa [] = .ok pupa := by
      obtain ⟨lines, hl⟩ := listing_of_terminated hs.terminated
      rw [readFile, List.foldlM_nil]
      change (listing pupa >>= fun _ => pure pupa) = _
      rw [hl]
      rfl
    simp only [sdcardProcess, Card.text, Card.processed, Option.getD_none, Option.isSome_none,
      Bool.and_false, hempty]
    rfl

theorem Op.exec_lookup (o : SdOutcome) {s : Store} (hs : s.pupa.Sound) (arg : Bytes) :
    Op.exec o s (.lookup arg) =
      .ok ({ s with pupa := (s.pupa.searched (wanted arg)).2 }, []) := by
  rw [Op.exec, isUser_cString hs.terminated]
  rfl

theorem Op.exec_reboot (o : SdOutcome) (s : Store) :
    Op.exec o s .reboot = (readFile Pupa.zero s.card.text).map fun pupa =>
      (⟨pupa, ({ s.card with sdcard := false } : Card).processed⟩, []) := by
  rw [Op.exec, Store.reboot, Store.sdcardProcess_eq Pupa.sound_zero]
  simp only [Card.text]
  cases readFile Pupa.zero (s.card.idaccess.getD []) <;> rfl

/-- The card after the append of `add_member`. -/
def Card.added (o : SdOutcome) (arg : Bytes) (c : Card) : Card :=
  c.appended o.addOpen (content arg ++ [13, 10])

theorem Card.text_added (arg : Bytes) (c : Card) :
    (c.added .success arg).text = c.text ++ (content arg ++ [13, 10]) := rfl

/-- `add_member` of any terminated string in a buffer. -/
theorem addMember_eq (o : SdOutcome) {n : Nat} {mem : Vector UInt8 n} {p : Nat}
    (ht : Terminated (mem.toList.drop p)) {arg : Bytes} (harg : content (mem.toList.drop p) = arg)
    {s : Store} (hs : s.pupa.Sound) :
    addMember o mem p s =
      if 10 ≤ arg.length then
        (readFile s.pupa (s.card.added o arg).text).map fun pupa =>
          (⟨pupa, (s.card.added o arg).processed⟩, trimAt mem p, [.addSuccess, .adding (strip arg)])
      else .ok (s, trimAt mem p, [.addFail, .adding (strip arg)]) := by
  have htrim := trimwhitespace_eq mem p ht
  have hputs := terminated_trimAt_ptr ht
  have hcont := (content_trimAt_ptr ht).trans (congrArg strip harg)
  have hcalls : [SdCall.openWrite o.addOpen, .print (arg ++ [13, 10]), .close].foldl
      SdCall.run s.card = s.card.added o arg := by
    have happend := SdCall.foldl_append o.addOpen s.card [arg ++ [13, 10]]
    rw [List.flatten_singleton] at happend
    rw [Card.added, ← harg, content_content, harg]
    exact happend
  rw [addMember, strlen_eq ht, harg, ok_bind]
  by_cases hlen : 10 ≤ arg.length
  · rw [if_pos hlen, if_pos hlen, puts, if_pos ht, harg, ok_bind]
    simp only
    rw [hcalls, Store.sdcardProcess_eq (s := ⟨s.pupa, s.card.added o arg⟩) hs]
    simp only
    cases readFile s.pupa (s.card.added o arg).text with
    | error e => rfl
    | ok pupa =>
      simp only [Except.map, ok_bind, pure, Except.pure]
      rw [htrim, ok_bind]
      simp only
      rw [puts, if_pos hputs, hcont]
      rfl
  · rw [if_neg hlen, if_neg hlen]
    simp only [pure, Except.pure, ok_bind]
    rw [htrim, ok_bind]
    simp only
    rw [puts, if_pos hputs, hcont]
    rfl

theorem Op.exec_add (o : SdOutcome) {s : Store} (hs : s.pupa.Sound) (arg : Bytes) :
    Op.exec o s (.add arg) =
      if 10 ≤ (content arg).length then
        (readFile s.pupa (s.card.added o arg).text).map fun pupa =>
          (⟨pupa, (s.card.added o arg).processed⟩, [.addSuccess, .adding (wanted arg)])
      else .ok (s, [.addFail, .adding (wanted arg)]) := by
  have hadded : s.card.added o (content arg) = s.card.added o arg := by
    rw [Card.added, Card.added, content_content]
  rw [Op.exec, addMember_eq o (p := 0) (terminated_cString arg) (content_cString arg) hs, hadded]
  split
  · cases readFile s.pupa (s.card.added o arg).text <;> rfl
  · rfl

/-- The table after the removal of the member in slot `k`. -/
def Pupa.without (pupa : Pupa) (k : Nat) : Pupa := ((pupa.trimTo (k + 1)).shifted k).written

/-- The card after the removal of the member in slot `k`. -/
def Card.without (o : SdOutcome) (pupa : Pupa) (k : Nat) (c : Card) : Card :=
  (c.removed o.remove).appended o.writeOpen ((pupa.trimTo (k + 1)).shifted k).pieces.flatten

/-- `remove_member` of any terminated string in a buffer. -/
theorem removeMember_eq (o : SdOutcome) {n : Nat} {mem : Vector UInt8 n} {p : Nat}
    (ht : Terminated (mem.toList.drop p)) {user : Bytes}
    (huser : strip (content (mem.toList.drop p)) = user) {s : Store} (hs : s.pupa.Sound) :
    removeMember o mem p s = match s.pupa.lookup user with
      | none => .ok ({ s with pupa := s.pupa.trimTo MEMBER }, trimAt mem p, [.deleteFail])
      | some k => .ok (⟨s.pupa.without k, s.card.without o s.pupa k⟩, trimAt mem p,
          [.deleting user]) := by
  rw [removeMember, isUser_eq hs.terminated ht, huser, ok_bind, Pupa.searched]
  cases hl : s.pupa.lookup user with
  | none => rfl
  | some k =>
    have hk : ¬ (k.val : Int) < 0 := by omega
    have ht' := terminated_trimAt ht
    have hcont := (content_trimAt_ptr ht').trans ((strip_content_trimAt ht).trans huser)
    simp only [if_neg hk, Int.toNat_natCast]
    rw [deleteMember_eq o k.val (hs.trimTo (k.val + 1)), ok_bind]
    simp only
    rw [trimwhitespace_eq _ p ht', ok_bind]
    simp only
    rw [puts, if_pos (terminated_trimAt_ptr ht'), hcont, SdCall.foldl_delete, trimAt_trimAt ht]
    rfl

theorem Op.exec_remove (o : SdOutcome) {s : Store} (hs : s.pupa.Sound) (arg : Bytes) :
    Op.exec o s (.remove arg) = match s.pupa.lookup (wanted arg) with
      | none => .ok ({ s with pupa := s.pupa.trimTo MEMBER }, [.deleteFail])
      | some k =>
        .ok (⟨s.pupa.without k, s.card.without o s.pupa k⟩, [.deleting (wanted arg)]) := by
  rw [Op.exec, removeMember_eq o (p := 0) (terminated_cString arg) (strip_cString arg) hs]
  cases s.pupa.lookup (wanted arg) <;> rfl

/-! ## Sound stores lead to sound stores -/

theorem Pupa.Sound.searched {pupa : Pupa} (h : pupa.Sound) (user : Bytes) :
    (pupa.searched user).2.Sound := by
  obtain ⟨k, hk⟩ := pupa.searched_trimTo user
  rw [hk]
  exact h.trimTo k

theorem Pupa.Sound.without {pupa : Pupa} (h : pupa.Sound) (k : Nat) : (pupa.without k).Sound :=
  ((h.trimTo (k + 1)).shifted k).written

theorem closed_append {f g : Bytes} (hf : (parse f).Closed) (hg : (parse g).Closed) :
    (parse (f ++ g)).Closed := by
  rw [parse_append hf]
  exact hg

theorem Card.closed_appended {c : Card} (hc : (parse c.text).Closed) {f : Bytes}
    (hf : (parse f).Closed) (ok : Bool) : (parse (c.appended ok f).text).Closed := by
  cases ok with
  | true => exact closed_append hc hf
  | false => exact hc

theorem Card.closed_removed {c : Card} (hc : (parse c.text).Closed) (ok : Bool) :
    (parse (c.removed ok).text).Closed := by
  cases ok with
  | true => rfl
  | false => exact hc

/-- From `s` to `t` the store stays sound, and the log is left alone. -/
structure Store.Kept (s t : Store) : Prop where
  sound : t.Sound
  log : t.card.log = s.card.log

theorem Card.log_removed (c : Card) (ok : Bool) : (c.removed ok).log = c.log := by
  cases ok <;> rfl

/-- `add_member` keeps the store sound, whatever its SD calls answer. -/
theorem addMember_kept {o : SdOutcome} {n : Nat} {mem mem' : Vector UInt8 n} {p : Nat}
    {s t : Store} {replies : List Reply} (hs : s.Sound)
    (h : addMember o mem p s = .ok (t, mem', replies)) : s.Kept t := by
  have hterm : Terminated (mem.toList.drop p) := by
    obtain ⟨len, hlen, -⟩ := bind_eq_ok.mp h
    exact terminated_of_strlen hlen
  rw [addMember_eq o hterm rfl hs.pupa] at h
  split at h
  · have hfile : (parse (s.card.added o (content (mem.toList.drop p))).text).Closed :=
      Card.closed_appended hs.file (closed_println _) o.addOpen
    obtain ⟨pupa, hread, h⟩ := map_eq_ok.mp h
    obtain ⟨rfl, -⟩ := Prod.mk.inj h
    exact ⟨⟨(hs.pupa.of_readFile hfile hread).2.2, hfile⟩, rfl⟩
  · obtain ⟨rfl, -⟩ := Prod.mk.inj (Except.ok.inj h)
    exact ⟨hs, rfl⟩

/-- `remove_member` keeps the store sound, whatever its SD calls answer. -/
theorem removeMember_kept {o : SdOutcome} {n : Nat} {mem mem' : Vector UInt8 n} {p : Nat}
    {s t : Store} {replies : List Reply} (hs : s.Sound)
    (h : removeMember o mem p s = .ok (t, mem', replies)) : s.Kept t := by
  have hterm : Terminated (mem.toList.drop p) := by
    obtain ⟨r, hr, -⟩ := bind_eq_ok.mp h
    exact terminated_of_isUser hr
  rw [removeMember_eq o hterm rfl hs.pupa] at h
  split at h
  · obtain ⟨rfl, -⟩ := Prod.mk.inj (Except.ok.inj h)
    exact ⟨⟨hs.pupa.trimTo MEMBER, hs.file⟩, rfl⟩
  · rename_i k _
    obtain ⟨rfl, -⟩ := Prod.mk.inj (Except.ok.inj h)
    refine ⟨⟨hs.pupa.without k, ?_⟩, Card.log_removed s.card o.remove⟩
    apply Card.closed_appended (Card.closed_removed hs.file _)
    rw [((hs.pupa.trimTo _).shifted _).parse_pieces]
    rfl

/-- No operation leaves the sound stores, whatever its SD calls answer. -/
theorem Op.exec_sound {o : SdOutcome} {s t : Store} {op : Op} {replies : List Reply}
    (hs : s.Sound) (h : op.exec o s = .ok (t, replies)) : t.Sound := by
  cases op with
  | reboot =>
    rw [Op.exec_reboot] at h
    obtain ⟨pupa, hread, h⟩ := map_eq_ok.mp h
    obtain ⟨rfl, -⟩ := Prod.mk.inj h
    exact ⟨(Pupa.sound_zero.of_readFile hs.file hread).2.2, hs.file⟩
  | add arg =>
    obtain ⟨⟨u, mem, replies'⟩, hadd, h⟩ := bind_eq_ok.mp h
    obtain ⟨rfl, -⟩ := Prod.mk.inj (Except.ok.inj h)
    exact (addMember_kept hs hadd).sound
  | remove arg =>
    obtain ⟨⟨u, mem, replies'⟩, hremove, h⟩ := bind_eq_ok.mp h
    obtain ⟨rfl, -⟩ := Prod.mk.inj (Except.ok.inj h)
    exact (removeMember_kept hs hremove).sound
  | lookup arg =>
    rw [Op.exec_lookup o hs.pupa] at h
    obtain ⟨rfl, -⟩ := Prod.mk.inj (Except.ok.inj h)
    exact ⟨hs.pupa.searched _, hs.file⟩

theorem Op.step_eq (s : Store) (op : Op) :
    op.step s = (op.exec .success s).map Prod.fst := by
  rw [Op.step]
  cases op.exec .success s <;> rfl

theorem Op.step_reboot (s : Store) : Op.step s .reboot = s.reboot := by
  rw [step_eq, exec]
  cases s.reboot <;> rfl

theorem Op.step_lookup {s : Store} (hs : s.pupa.Sound) (arg : Bytes) :
    Op.step s (.lookup arg) = .ok { s with pupa := (s.pupa.searched (wanted arg)).2 } := by
  rw [step_eq, exec_lookup _ hs]
  rfl

theorem Op.step_add {s : Store} (hs : s.pupa.Sound) (arg : Bytes) :
    Op.step s (.add arg) =
      if 10 ≤ (content arg).length then
        (readFile s.pupa (s.card.text ++ (content arg ++ [13, 10]))).map fun pupa =>
          ⟨pupa, (s.card.added .success arg).processed⟩
      else .ok s := by
  rw [step_eq, exec_add _ hs, Card.text_added]
  split
  · cases readFile s.pupa (s.card.text ++ (content arg ++ [13, 10])) <;> rfl
  · rfl

theorem Op.step_remove {s : Store} (hs : s.pupa.Sound) (arg : Bytes) :
    Op.step s (.remove arg) = match s.pupa.lookup (wanted arg) with
      | none => .ok { s with pupa := s.pupa.trimTo MEMBER }
      | some k => .ok ⟨s.pupa.without k, s.card.without .success s.pupa k⟩ := by
  rw [step_eq, exec_remove _ hs]
  cases s.pupa.lookup (wanted arg) <;> rfl

theorem Op.step_sound {s t : Store} {op : Op} (hs : s.Sound) (h : op.step s = .ok t) :
    t.Sound := by
  rw [Op.step_eq] at h
  obtain ⟨⟨u, replies⟩, he, rfl⟩ := map_eq_ok.mp h
  exact Op.exec_sound hs he

/-- Every history leads to a sound store. -/
theorem history_sound {ops : List Op} {s : Store} (h : history ops = .ok s) : s.Sound :=
  Run.invariant (fun hs hstep => Op.step_sound hs hstep) Store.sound_initial h

end SmartDoor
