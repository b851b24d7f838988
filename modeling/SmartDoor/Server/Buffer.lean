import SmartDoor.Server.Connections

/-!
# The command buffer

`process_command` stores every byte but a newline at `command[cmd_index++]`, and a newline
ends the line with a NUL at `command[cmd_index]`. Nothing compares the index with the 256
bytes of the buffer, so it stays inside exactly as long as no line, by whichever clients
and in whatever pieces it is sent, has more than 255 bytes. What the operations of the lines do
makes no difference to this, so they are opaque here.
-/

namespace SmartDoor

open CString

variable {Conn : Type} [DecidableEq Conn]

namespace Server

/-- The shells in which the loop of `process_server` calls `process_command`, and the one
that it leaves. -/
def readShells (run : Shell.Operations) (o : SdOutcome) (client : Conn) :
    Bytes → Server Conn → List Shell
  | [], s => [s.shell]
  | tmp :: unread, s =>
    let t := { s with unread := Function.update s.unread client unread }
    s.shell :: match t.readCommandWith run o client tmp with
      | .error _ => []
      | .ok (t, done) => if done then [t.shell] else readShells run o client unread t

end Server

/-- The shells in which an event calls `process_command`, and the one that the last call
leaves. -/
def Event.shells (run : Shell.Operations) (s : Server Conn) : Event Conn → List Shell
  | .processServer o pick =>
    let t := s.turnTo (s.available pick)
    match t.activeClient with
    | none => []
    | some client => t.readShells run o client (t.unread client)
  | _ => []

/-- Every write of `process_command` is inside the buffer, in every state that is reached
`cmd_index` is at most 255, and no longer line is executed. The operations are opaque, and the
one fault of the server is a write behind the buffer, from a shell with the index 256. -/
structure Server.Bounded (run : Shell.Operations) (start : Server Conn)
    (events : List (Event Conn)) : Prop where
  calls : Run.Guarded (Server.stepWith run)
    (fun s e => ∀ shell ∈ e.shells run s, shell.cmdIndex ≤ 255) start events
  reached : ∀ earlier s, earlier <+: events → earlier.foldlM (Server.stepWith run) start = .ok s →
    s.shell.cmdIndex ≤ 255
  executed : ∀ earlier s, earlier <+: events → earlier.foldlM (Server.stepWith run) start = .ok s →
    ∀ e ∈ s.executed, e.read.length ≤ 255

/-- With what was read of it before, the line that a pass goes on reading has at most 255
bytes. -/
def Event.Short (s : Server Conn) : Event Conn → Prop
  | .processServer _ pick => ∀ client, (s.turnTo (s.available pick)).activeClient = some client →
    s.read.length +
      (((s.turnTo (s.available pick)).unread client).takeWhile (· ≠ 10)).length ≤ 255
  | _ => True

namespace Server

variable {run : Shell.Operations}

/-! ## The line buffer in every run -/

/-- The three statements of a pass, with any operations. -/
theorem processServerWith_eq_ok {s t : Server Conn} {o : SdOutcome} {pick : Option Conn} :
    s.processServerWith run o pick = .ok t ↔ ∃ u,
      ((s.turnTo (s.available pick)).activeClient = none ∧ s.turnTo (s.available pick) = u ∨
        ∃ client, (s.turnTo (s.available pick)).activeClient = some client ∧
          Server.readLoopWith run o client ((s.turnTo (s.available pick)).unread client)
            (s.turnTo (s.available pick)) = .ok u) ∧ u.hangUp = t := by
  unfold Server.processServerWith
  cases hactive : (s.turnTo (s.available pick)).activeClient with
  | none => simp [hactive, pure, Except.pure]
  | some client => simp [hactive, pure, Except.pure, bind_eq_ok]

/-- An event without a fault is one of the server with the operations of the sketch. -/
theorem stepWith_of_ok {s t : Server Conn} {e : Event Conn} (h : s.step e = .ok t) :
    s.stepWith Shell.operations e = .ok t := by
  cases e with
  | processServer o pick =>
    obtain ⟨u, hu, hstop⟩ := processServer_eq_ok.mp h
    refine processServerWith_eq_ok.mpr ⟨u, hu.imp_right ?_, hstop⟩
    rintro ⟨client, hactive, hloop⟩
    exact ⟨client, hactive, readLoopWith_of_ok hloop⟩
  | _ => exact h

/-- What a pass does to the line and to the lines executed. -/
theorem processServerWith_cases {s t : Server Conn} (h : s.Line) {o : SdOutcome}
    {pick : Option Conn} (ht : s.processServerWith run o pick = .ok t) :
    t.Line ∧
      (((s.turnTo (s.available pick)).activeClient = none ∧ t.read = s.read ∧
          t.executed = s.executed) ∨
        ∃ client, (s.turnTo (s.available pick)).activeClient = some client ∧
          (t.read.length = s.read.length +
              (((s.turnTo (s.available pick)).unread client).takeWhile (· ≠ 10)).length ∧
            t.executed = s.executed ∨
          t.read = [] ∧ ∃ e, t.executed = s.executed ++ [e] ∧ e.read.length = s.read.length +
            (((s.turnTo (s.available pick)).unread client).takeWhile (· ≠ 10)).length)) := by
  obtain ⟨hshell, hread, hexecuted⟩ := s.turnTo_kept (s.available pick)
  obtain ⟨u, hu, rfl⟩ := processServerWith_eq_ok.mp ht
  obtain ⟨hshell', hread', hexecuted'⟩ := u.hangUp_kept
  generalize s.turnTo (s.available pick) = v at hshell hread hexecuted hu ⊢
  have hline : v.Line := h.congr (by rw [hshell]) (by rw [hshell]) hread
  rw [hread', hexecuted', ← hread, ← hexecuted]
  rcases hu with ⟨hnone, rfl⟩ | ⟨client, hactive, hu⟩
  · exact ⟨hline.congr (by rw [hshell']) (by rw [hshell']) hread', Or.inl ⟨hnone, rfl, rfl⟩⟩
  · obtain ⟨hline', -, -, hcases⟩ := readLoopWith_cases hline hu
    refine ⟨hline'.congr (by rw [hshell']) (by rw [hshell']) hread',
      Or.inr ⟨client, hactive, ?_⟩⟩
    rcases hcases with ⟨hmem, hjoined, hsame⟩ | ⟨head, rest, hbytes, hmem, hempty, hended⟩
    · have hall : (v.unread client).takeWhile (· ≠ 10) = v.unread client :=
        List.takeWhile_eq_self_iff.mpr fun c hc => by
          simpa using ne_of_mem_of_not_mem hc hmem
      refine Or.inl ⟨?_, hsame⟩
      rw [hjoined, hall, List.length_append, bytesOf, List.length_map]
    · have hhead : (v.unread client).takeWhile (· ≠ 10) = head := by
        have hpass : ∀ c ∈ head, decide (c ≠ 10) = true := fun c hc => by
          simpa using ne_of_mem_of_not_mem hc hmem
        rw [hbytes, List.takeWhile_append_of_pos hpass]
        simp
      refine Or.inr ⟨hempty, _, hended, ?_⟩
      rw [hhead, List.length_append, bytesOf, List.length_map]

/-- With any operations, the line buffer holds what was read of the line. -/
theorem Line.stepWith {s t : Server Conn} (h : s.Line) {e : Event Conn}
    (ht : s.stepWith run e = .ok t) : t.Line := by
  cases e with
  | processServer o pick => exact (processServerWith_cases h ht).1
  | rest store board =>
    obtain rfl := Except.ok.inj ht
    exact h.congr rfl rfl rfl
  | _ =>
    obtain rfl := Except.ok.inj ht
    split
    · exact h.congr rfl rfl rfl
    · exact h

/-- The line buffer of the sketch holds what was read of the line. -/
theorem Line.step {s t : Server Conn} (h : s.Line) {e : Event Conn} (ht : s.step e = .ok t) :
    t.Line := h.stepWith (stepWith_of_ok ht)

/-! ## The index inside a pass -/

omit [DecidableEq Conn] in
/-- A byte of the line is stored when there is room. -/
theorem readCommandWith_room (run : Shell.Operations) (o : SdOutcome) (client : Conn)
    {tmp : UInt8} {s : Server Conn} (hne : tmp ≠ 10) (hroom : s.shell.cmdIndex < 256) :
    ∃ t, s.readCommandWith run o client tmp = .ok (t, false) ∧
      t.shell.cmdIndex = s.shell.cmdIndex + 1 := by
  have hcmd : s.shell.processCommandWith run o tmp = .ok ({ s.shell with
      command := s.shell.command.set s.shell.cmdIndex tmp hroom
      cmdIndex := s.shell.cmdIndex + 1 }, false, []) := by
    rw [Shell.processCommandWith, if_pos hne, store_of_lt hroom]
    rfl
  exact ⟨_, by rw [readCommandWith, hcmd]; rfl, rfl⟩

/-- The index stays inside the buffer through the loop exactly when there is room for the
bytes of the line that it reads. -/
theorem readShells_inside {o : SdOutcome} {client : Conn} {bytes : Bytes} {s : Server Conn}
    (hindex : s.shell.cmdIndex ≤ 256) :
    (∀ shell ∈ s.readShells run o client bytes, shell.cmdIndex ≤ 255) ↔
      s.shell.cmdIndex + (bytes.takeWhile (· ≠ 10)).length ≤ 255 := by
  induction bytes generalizing s with
  | nil => simp [readShells]
  | cons tmp bytes ih =>
    rw [readShells]
    simp only [List.forall_mem_cons]
    by_cases hnewline : tmp = 10
    · rw [List.takeWhile_cons_of_neg (by simpa using hnewline), List.length_nil, Nat.add_zero]
      refine and_iff_left_of_imp fun hle => ?_
      split
      · exact fun _ hmem => absurd hmem List.not_mem_nil
      · rename_i t done hread
        obtain ⟨⟨shell, done', out⟩, hcmd, hread⟩ := bind_eq_ok.mp hread
        rcases Shell.processCommandWith_cases hcmd with ⟨hne, -⟩ | ⟨-, rfl, hzero⟩
        · exact absurd hnewline hne
        · obtain ⟨rfl, rfl⟩ := Prod.mk.inj (Except.ok.inj hread)
          simp only [if_true, List.forall_mem_singleton, hzero]
          exact Nat.zero_le _
    · rw [List.takeWhile_cons_of_pos (by simpa using hnewline), List.length_cons]
      by_cases hroom : s.shell.cmdIndex < 256
      · obtain ⟨t, hread, hnext⟩ := readCommandWith_room run o client
          (s := { s with unread := Function.update s.unread client bytes }) hnewline hroom
        have hnext : t.shell.cmdIndex = s.shell.cmdIndex + 1 := hnext
        simp only [hread, Bool.false_eq_true, if_false]
        rw [ih (by omega), hnext]
        omega
      · constructor
        · rintro ⟨hle, -⟩
          omega
        · intro hle
          omega

/-- An event keeps the index inside the buffer exactly when its line is short. -/
theorem shells_inside {s : Server Conn} (h : s.Line) (e : Event Conn) :
    (∀ shell ∈ e.shells run s, shell.cmdIndex ≤ 255) ↔ e.Short s := by
  cases e with
  | processServer o pick =>
    rw [Event.shells, Event.Short]
    obtain ⟨hshell, -, -⟩ := s.turnTo_kept (s.available pick)
    generalize s.turnTo (s.available pick) = t at hshell ⊢
    cases t.activeClient with
    | none =>
      refine iff_of_true (fun _ hmem => absurd hmem List.not_mem_nil) fun _ hc => ?_
      cases hc
    | some client =>
      rw [readShells_inside (hshell ▸ h.index), hshell, ← h.length]
      exact ⟨fun hle c hc => Option.some.inj hc ▸ hle, fun hle => hle client rfl⟩
  | _ => exact iff_of_true (fun _ hmem => absurd hmem List.not_mem_nil) trivial

/-- What a run of short lines keeps: the line and the lines executed are short. -/
structure Tight (s : Server Conn) : Prop extends s.Line where
  read : s.read.length ≤ 255
  executed : ∀ e ∈ s.executed, e.read.length ≤ 255

/-- A pass over a short line leaves and executes short lines. -/
theorem Tight.stepWith {s t : Server Conn} (h : s.Tight) {e : Event Conn} (hshort : e.Short s)
    (ht : s.stepWith run e = .ok t) : t.Tight := by
  have hkept : t.read.length ≤ 255 ∧ ∀ e ∈ t.executed, e.read.length ≤ 255 := by
    cases e with
    | processServer o pick =>
      obtain ⟨-, hcases⟩ := processServerWith_cases h.toLine ht
      rcases hcases with ⟨-, hread, hexecuted⟩ |
        ⟨client, hactive, ⟨hread, hexecuted⟩ | ⟨hread, e, hexecuted, hlen⟩⟩
      · rw [hread, hexecuted]
        exact ⟨h.read, h.executed⟩
      · rw [hread, hexecuted]
        exact ⟨hshort client hactive, h.executed⟩
      · rw [hread, hexecuted]
        refine ⟨Nat.zero_le _, fun e' he => ?_⟩
        rcases List.mem_append.mp he with he | he
        · exact h.executed e' he
        · rw [List.mem_singleton.mp he, hlen]
          exact hshort client hactive
    | rest store board =>
      obtain rfl := Except.ok.inj ht
      exact ⟨h.read, h.executed⟩
    | _ =>
      obtain rfl := Except.ok.inj ht
      split
      · exact ⟨h.read, h.executed⟩
      · exact ⟨h.read, h.executed⟩
  exact ⟨h.toLine.stepWith ht, hkept.1, hkept.2⟩

omit [DecidableEq Conn] in
/-- Before any client the line is empty. -/
theorem tight_initial (store : Store) : (initial Conn store).Tight where
  index := Nat.zero_le _
  text := rfl
  read := Nat.zero_le _
  executed _ he := absurd he List.not_mem_nil

end Server

/-- In every run of the server, whatever the operations of its lines do, the index stays inside
`command`, at every call and in every state that is reached, and no line of more than 255 bytes
is executed, exactly when no line that is read has more than 255 bytes. -/
theorem buffer_bound (run : Shell.Operations) (store : Store) (events : List (Event Conn)) :
    (Server.initial Conn store).Bounded run events ↔
      Run.Guarded (Server.stepWith run) Event.Short (Server.initial Conn store) events := by
  have hcalls : Run.Guarded (Server.stepWith run)
      (fun s e => ∀ shell ∈ e.shells run s, shell.cmdIndex ≤ 255) (Server.initial Conn store)
      events ↔ Run.Guarded (Server.stepWith run) Event.Short (Server.initial Conn store) events := by
    apply Run.guarded_congr (I := Server.Line)
    · exact fun _ h ht => h.stepWith ht
    · exact fun _ h => Server.shells_inside h _
    · exact (Server.tight_initial store).toLine
  constructor
  · exact fun h => hcalls.mp h.calls
  · intro h
    have htight : ∀ earlier s, earlier <+: events →
        earlier.foldlM (Server.stepWith run) (Server.initial Conn store) = .ok s → s.Tight :=
      fun earlier s hpre hs =>
        (h.of_prefix hpre).kept (fun hi hc ht => Server.Tight.stepWith hi hc ht)
          (Server.tight_initial store) hs
    refine ⟨hcalls.mpr h, fun earlier s hpre hs => ?_, fun earlier s hpre hs => ?_⟩
    · have ht := htight earlier s hpre hs
      rw [← ht.toLine.length]
      exact ht.read
    · exact (htight earlier s hpre hs).executed

/-- After 256 bytes without a newline the index is 256, and the next byte is written behind
the buffer. -/
theorem buffer_bound_of_long :
    ¬ (Server.initial Nat Store.initial).Bounded Shell.operations [.connect 0,
        .receive 0 (List.replicate 256 65), .processServer .success (some 0)] ∧
      ([Event.connect 0, .receive 0 (List.replicate 257 65),
        .processServer .success (some 0)].foldlM Server.step
          (Server.initial Nat Store.initial)).map (fun s => s.shell.cmdIndex) =
        .error .overwrite := by
  constructor
  · intro h
    have hrun : ([Event.connect 0, .receive 0 (List.replicate 256 65),
        .processServer .success (some 0)].foldlM (Server.stepWith Shell.operations)
          (Server.initial Nat Store.initial)).map (fun s => s.shell.cmdIndex) = .ok 256 := by
      decide +kernel
    obtain ⟨s, hs, hindex⟩ := map_eq_ok.mp hrun
    have hle := h.reached _ s (List.prefix_refl _) hs
    omega
  · decide +kernel

end SmartDoor
