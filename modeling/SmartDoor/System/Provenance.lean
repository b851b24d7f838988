import SmartDoor.Card.Readable
import SmartDoor.System.Safety

/-!
# Where access comes from

The table is read over what it already holds, a removal writes the file from the table, the
calls of the SD library may fail one by one, and the power may be cut between any two moves.
Through all of this no member comes into being: what the table and the file hold was enrolled
by a line that some client had executed, possibly without its name. So a card that opens the
door presents an id or a name that an executed line has enrolled.
-/

namespace SmartDoor

open CString

/-! ## Members and where they come from -/

/-- The member was enrolled, and may have lost its name. -/
def Member.From (m : Member) (enrolled : List Member) : Prop :=
  ∃ e ∈ enrolled, m = e ∨ m = (e.1, [])

theorem Member.From.unnamed {m : Member} {ms : List Member} (h : m.From ms) :
    Member.From (m.1, []) ms := by
  obtain ⟨e, he, rfl | rfl⟩ := h
  · exact ⟨m, he, Or.inr rfl⟩
  · exact ⟨e, he, Or.inr rfl⟩

theorem Member.From.mono {m : Member} {ms more : List Member} (h : m.From ms) (hsub : ms ⊆ more) :
    m.From more := by
  obtain ⟨e, he, hm⟩ := h
  exact ⟨e, hsub he, hm⟩

/-- A closed text of plain lines whose members were enrolled. -/
structure Text.From (t : Text) (enrolled : List Member) : Prop where
  closed : t.Closed
  plain : ∀ l ∈ t.lines, l.Plain
  members : ∀ m ∈ t.members, m.From enrolled

theorem Text.from_empty (ms : List Member) : Text.empty.From ms where
  closed := rfl
  plain _ hl := absurd hl List.not_mem_nil
  members _ hm := absurd hm List.not_mem_nil

theorem Text.From.append {f g : Bytes} {ms : List Member} (hf : (parse f).From ms)
    (hg : (parse g).From ms) : (parse (f ++ g)).From ms where
  closed := closed_append hf.closed hg.closed
  plain l hl := by
    rw [parse_append hf.closed] at hl
    rcases List.mem_append.mp hl with hl | hl
    · exact hf.plain l hl
    · exact hg.plain l hl
  members m hm := by
    rw [members_parse_append hf.closed] at hm
    rcases List.mem_append.mp hm with hm | hm
    · exact hf.members m hm
    · exact hg.members m hm

theorem Text.From.mono {t : Text} {ms more : List Member} (h : t.From ms) (hsub : ms ⊆ more) :
    t.From more :=
  ⟨h.closed, h.plain, fun m hm => (h.members m hm).mono hsub⟩

/-- The table and the file hold enrolled members only. -/
structure Store.From (s : Store) (enrolled : List Member) : Prop where
  pupa : s.pupa.Sound
  file : (parse s.card.text).From enrolled
  table : ∀ m ∈ s.pupa.members, m.From enrolled

namespace Store

variable {s t : Store} {ms : List Member}

theorem From.sound (h : s.From ms) : s.Sound := ⟨h.pupa, h.file.closed⟩

theorem From.mono {more : List Member} (h : s.From ms) (hsub : ms ⊆ more) : s.From more :=
  ⟨h.pupa, h.file.mono hsub, fun m hm => (h.table m hm).mono hsub⟩

/-- Nothing matters but the members of the table and the text of the file. -/
theorem From.congr (h : s.From ms) (hpupa : t.pupa.Sound)
    (htable : t.pupa.members = s.pupa.members) (htext : t.card.text = s.card.text) :
    t.From ms :=
  ⟨hpupa, by rw [htext]; exact h.file, by rw [htable]; exact h.table⟩

/-- Reading a file of enrolled members over a table of enrolled members. -/
theorem From.readFile {pupa pupa' : Pupa} {f : Bytes} (hp : pupa.Sound)
    (htable : ∀ m ∈ pupa.members, m.From ms) (hf : (parse f).From ms)
    (h : SmartDoor.readFile pupa f = .ok pupa') :
    pupa'.Sound ∧ ∀ m ∈ pupa'.members, m.From ms := by
  obtain ⟨hfits, rfl, hsound⟩ := hp.of_readFile hf.closed h
  have hread : (parse f).Readable := ⟨hf.closed, hfits, hf.plain⟩
  refine ⟨hsound, fun m hm => ?_⟩
  rcases hread.members_layout hp hm with hm | ⟨m', hm', rfl | rfl⟩
  · exact hf.members m hm
  · exact htable m hm'
  · exact (htable m' hm').unnamed

/-- The text that a removal writes. -/
theorem From.written (h : s.From ms) (k : Fin MEMBER) :
    (parse ((s.pupa.trimTo (k.val + 1)).shifted k.val).pieces.flatten).From ms := by
  have htext : (s.card.without .success s.pupa k.val).text =
      ((s.pupa.trimTo (k.val + 1)).shifted k.val).pieces.flatten := List.nil_append _
  have hparse := Card.text_without h.pupa k.isLt s.card
  have hmembers := Card.members_without h.pupa k.isLt s.card
  rw [htext] at hparse hmembers
  constructor
  · rw [hparse]
    exact Text.closed_mk _
  · rw [hparse]
    intro l hl
    obtain ⟨r, -, hl⟩ := List.mem_flatMap.mp hl
    exact Rfid.plain_lines hl
  · rw [hmembers]
    intro m hm
    obtain ⟨j, hj, -, hjm⟩ := (Pupa.mem_members_without h.pupa k.isLt).mp hm
    exact h.table m (Pupa.mem_members.mpr ⟨j, hj, hjm⟩)

/-- The card after a removal, whichever of its calls succeed. -/
theorem From.without (h : s.From ms) (o : SdOutcome) (k : Fin MEMBER) :
    (parse (s.card.without o s.pupa k.val).text).From ms := by
  have hremoved : (parse (s.card.removed o.remove).text).From ms := by
    rw [Card.removed]
    split
    · exact Text.from_empty ms
    · exact h.file
  rw [Card.without]
  cases o.writeOpen with
  | true => exact hremoved.append (h.written k)
  | false => exact hremoved

end Store

/-! ## Lines that enrol -/

/-- The text that a line appends to the file when it is executed. -/
def appends (line : Bytes) : Bytes :=
  match Session.answer line with
  | .addMember arg => if 10 ≤ (content arg).length then content arg ++ [13, 10] else []
  | _ => []

/-- The members that a line enrols. -/
def enrols (line : Bytes) : List Member := (parse (appends line)).members

/-- Each line that it appends has an id and a name. -/
def Names (line : Bytes) : Prop := ∀ l ∈ (parse (appends line)).lines, l.Plain

instance (line : Bytes) : Decidable (Names line) :=
  inferInstanceAs (Decidable (∀ _ ∈ _, _))

theorem from_appends {line : Bytes} (h : Names line) : (parse (appends line)).From (enrols line) := by
  refine ⟨?_, h, fun m hm => ⟨m, hm, Or.inl rfl⟩⟩
  unfold appends
  split
  · split
    · exact closed_println _
    · rfl
  · rfl

/-- The loop of `show_member` leaves the members as they are. -/
theorem showLoop_members {left i : Nat} {pupa pupa' : Pupa} {out : List Output}
    (hp : pupa.Terminated) (h : showLoop left i pupa = .ok (pupa', out)) :
    pupa'.members = pupa.members := by
  refine Pupa.members_congr fun j hj => ?_
  rcases showLoop_trims hp h j hj with hslot | hslot
  · rw [hslot]
  · have hid := strip_content_trimAt (p := 0) (hp j hj).id
    simp only [List.drop_zero] at hid
    rw [hslot]
    exact Prod.ext hid rfl

/-- What a line does to the members, when each line that it appends has an id and a name. -/
theorem Store.From.exec {s t : Store} {ms : List Member} (h : s.From ms) {o : SdOutcome}
    {board board' : Board} {line : Bytes} {out : List Output} (hnames : Names line)
    (hexec : (Session.answer line).exec o s board = .ok (t, board', out)) :
    t.From (ms ++ enrols line) := by
  have hmono : s.From (ms ++ enrols line) := h.mono (List.subset_append_left ..)
  have happends := (from_appends hnames).mono (List.subset_append_right ms (enrols line))
  unfold appends at happends
  cases hop : Session.answer line with
  | showMember =>
    rw [hop] at hexec
    obtain ⟨⟨pupa, shown⟩, hshow, hexec⟩ := bind_eq_ok.mp hexec
    cases hexec
    obtain ⟨⟨pupa', lines⟩, hloop, hshow⟩ := bind_eq_ok.mp hshow
    cases hshow
    exact hmono.congr (showLoop_sound h.pupa hloop) (showLoop_members h.pupa.terminated hloop) rfl
  | addMember arg =>
    rw [hop] at hexec happends
    obtain ⟨⟨u, replies⟩, hadd, hexec⟩ := bind_eq_ok.mp hexec
    cases hexec
    rw [Op.exec_add o h.pupa] at hadd
    by_cases hlen : 10 ≤ (content arg).length
    · rw [if_pos hlen] at hadd
      simp only [if_pos hlen] at happends
      obtain ⟨pupa, hread, hadd⟩ := map_eq_ok.mp hadd
      obtain ⟨rfl, -⟩ := Prod.mk.inj hadd
      have hfile : (parse (s.card.added o arg).text).From (ms ++ enrols line) := by
        rw [Card.added, Card.appended]
        cases o.addOpen with
        | true => exact hmono.file.append happends
        | false => exact hmono.file
      obtain ⟨hsound, htable⟩ := Store.From.readFile h.pupa hmono.table hfile hread
      exact ⟨hsound, hfile, htable⟩
    · rw [if_neg hlen] at hadd
      obtain ⟨rfl, -⟩ := Prod.mk.inj (Except.ok.inj hadd)
      exact hmono
  | removeMember arg =>
    rw [hop] at hexec
    obtain ⟨⟨u, replies⟩, hremove, hexec⟩ := bind_eq_ok.mp hexec
    cases hexec
    rw [Op.exec_remove o h.pupa] at hremove
    cases hl : s.pupa.lookup (wanted arg) with
    | none =>
      rw [hl] at hremove
      obtain ⟨rfl, -⟩ := Prod.mk.inj (Except.ok.inj hremove)
      exact hmono.congr (h.pupa.trimTo _) (Pupa.members_trimTo h.pupa.terminated _) rfl
    | some k =>
      rw [hl] at hremove
      obtain ⟨rfl, -⟩ := Prod.mk.inj (Except.ok.inj hremove)
      refine ⟨h.pupa.without k.val, hmono.without o k, fun m hm => ?_⟩
      obtain ⟨j, hj, -, hjm⟩ := (Pupa.mem_members_without h.pupa k.isLt).mp hm
      exact hmono.table m (Pupa.mem_members.mpr ⟨j, hj, hjm⟩)
  | setDelaytime str =>
    rw [hop] at hexec
    simp only [Operation.exec, SmartDoor.setDelaytime] at hexec
    split at hexec
    · cases hexec
      exact hmono
    · cases hexec
      exact hmono
  | _ =>
    rw [hop] at hexec
    cases hexec
    exact hmono

/-! ## The machine -/

variable {Conn : Type} [DecidableEq Conn]

namespace Machine

/-- The members that the lines executed so far have enrolled. -/
def enrolled (m : Machine Conn) : List Member := m.executed.flatMap fun e => enrols e.text

/-- The machine runs, and holds enrolled members only. -/
structure Traced (m : Machine Conn) : Prop extends m.Running where
  store : m.device.sketch.store.From m.enrolled

omit [DecidableEq Conn] in
/-- A task finds the members where they are. -/
theorem Traced.task {m : Machine Conn} (h : m.Traced) {a : Task} {t : Sketch}
    (ht : a.step m.world m.device.sketch = .ok t) : t.store.From m.enrolled := by
  obtain ⟨hpupa, hfile, -⟩ := Task.step_kept h.device.store.pupa.terminated h.device.board ht
  have htext : t.store.card.text = m.device.sketch.store.card.text := by
    rw [Card.text, hfile, Card.text]
  rcases hpupa with hsame | ⟨user, hsearched⟩
  · exact h.store.congr (hsame ▸ h.store.pupa) (congrArg Pupa.members hsame) htext
  · refine h.store.congr ?_ ?_ htext
    · rw [hsearched]
      exact h.store.pupa.searched user
    · rw [hsearched]
      exact Pupa.members_searched h.store.pupa.terminated user

/-- What a pass does to the members. -/
theorem Traced.pass {m : Machine Conn} (h : m.Traced) {o : SdOutcome} {pick : Option Conn}
    {s : Server Conn} (hs : m.server.processServer o pick = .ok s)
    (hnames : ∀ e ∈ s.executed, Names e.text) :
    s.shell.store.From (s.executed.flatMap fun e => enrols e.text) := by
  rcases Server.processServer_passed h.line h.device.store hs with
    ⟨-, hstore, -, -, hexecuted⟩ | ⟨client, bytes, -, hpassed⟩
  · rw [hstore, hexecuted]
    exact h.store
  · cases hpassed with
    | unfinished hmem hstore hboard hsent hexecuted =>
      rw [hstore, hexecuted]
      exact h.store
    | executed out e hmem hexec hsent hexecuted htext hsender =>
      rw [hexecuted] at hnames ⊢
      have hline : Names (m.server.lineOf bytes) := by
        rw [← htext]
        exact hnames e (List.mem_append_right _ (List.mem_singleton_self e))
      rw [List.flatMap_append, List.flatMap_singleton, htext]
      exact h.store.exec hline hexec

/-- The lines that were executed stay in the history. -/
theorem executed_subset {m n : Machine Conn} (h : m.Running) {mv : Move Conn}
    (hstep : m.step mv = .ok n) : m.executed ⊆ n.executed := by
  rcases Move.step_cases hstep with ⟨a, t, rfl, -, rfl⟩ | ⟨e, s, he, hs, rfl⟩ |
    ⟨world, s, rfl, -, rfl⟩
  · exact List.Subset.refl _
  · cases mv with
    | task a => cases he
    | powerCycle world => cases he
    | processServer o pick =>
      obtain rfl := Option.some.inj he
      change m.server.executed ⊆ s.executed
      rcases Server.processServer_passed h.line h.device.store hs with
        ⟨-, -, -, -, hexecuted⟩ | ⟨client, bytes, -, hpassed⟩
      · exact (congrArg _ hexecuted).mpr (List.Subset.refl _)
      · cases hpassed with
        | unfinished hmem hstore hboard hsent hexecuted =>
          rw [hexecuted]
          exact List.Subset.refl _
        | executed out e hmem hexec hsent hexecuted =>
          rw [hexecuted]
          exact List.subset_append_left ..
    | _ =>
      obtain rfl := Option.some.inj he
      obtain ⟨-, -, hexecuted⟩ := Server.step_shell hs (fun _ _ => by simp) (fun _ _ => by simp)
      change m.server.executed ⊆ s.executed
      rw [hexecuted]
      exact List.Subset.refl _
  · exact List.Subset.refl _

/-- What an event of the server does to the members. -/
theorem Traced.event {m : Machine Conn} (h : m.Traced) {mv : Move Conn} {e : Event Conn}
    {s : Server Conn} (he : mv.event? = some e) (hs : m.server.step e = .ok s)
    (hnames : ∀ e ∈ s.executed, Names e.text) :
    s.shell.store.From (s.executed.flatMap fun e => enrols e.text) := by
  cases mv with
  | task a => cases he
  | powerCycle world => cases he
  | processServer o pick =>
    obtain rfl := Option.some.inj he
    exact h.pass hs hnames
  | _ =>
    obtain rfl := Option.some.inj he
    obtain ⟨hshell, -, hexecuted⟩ := Server.step_shell hs (fun _ _ => by simp) (fun _ _ => by simp)
    rw [hshell, hexecuted]
    exact h.store

omit [DecidableEq Conn] in
/-- What a power cycle does to the members. -/
theorem Traced.restarted {m : Machine Conn} (h : m.Traced) {world : World} {s : Sketch}
    (hs : Sketch.setup world m.device.sketch.store.card m.device.sketch.trace = .ok s) :
    s.store.From m.enrolled := by
  rw [Sketch.setup_eq] at hs
  obtain ⟨pupa, hread, rfl⟩ := map_eq_ok.mp hs
  have hzero : ∀ x ∈ Pupa.zero.members, x.From m.enrolled := fun x hx => by
    rw [Pupa.members_zero] at hx
    exact absurd hx List.not_mem_nil
  obtain ⟨hsound, htable⟩ := Store.From.readFile Pupa.sound_zero hzero h.store.file hread
  exact ⟨hsound, h.store.file, htable⟩

/-- Every move keeps the members enrolled, as long as the lines executed name members. -/
theorem Traced.step {m n : Machine Conn} (h : m.Traced) {mv : Move Conn}
    (hstep : m.step mv = .ok n) (hnames : ∀ e ∈ n.executed, Names e.text) : n.Traced := by
  refine ⟨h.toRunning.step hstep, ?_⟩
  rcases Move.step_cases hstep with ⟨a, t, rfl, ht, rfl⟩ | ⟨e, s, he, hs, rfl⟩ |
    ⟨world, s, rfl, hs, rfl⟩
  · exact h.task ht
  · exact h.event he hs hnames
  · exact h.restarted hs

/-- Any run. -/
theorem Traced.run {m n : Machine Conn} (h : m.Traced) {moves : List (Move Conn)}
    (hrun : moves.foldlM Machine.step m = .ok n) (hnames : ∀ e ∈ n.executed, Names e.text) :
    n.Traced := by
  induction moves generalizing m with
  | nil =>
    obtain rfl := Except.ok.inj hrun
    exact h
  | cons mv moves ih =>
    obtain ⟨u, hu, hrun⟩ := Run.foldlM_cons_ok.mp hrun
    have hsubset : u.executed ⊆ n.executed := by
      have hkept := Run.invariant (I := fun v : Machine Conn => v.Running ∧ u.executed ⊆ v.executed)
        (fun hv hstep => ⟨hv.1.step hstep, List.Subset.trans hv.2 (executed_subset hv.1 hstep)⟩)
        ⟨h.toRunning.step hu, List.Subset.refl _⟩ hrun
      exact hkept.2
    exact ih (h.step hu fun e he => hnames e (hsubset he)) hrun

end Machine

end SmartDoor
