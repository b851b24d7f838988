import SmartDoor.Server.Command
import SmartDoor.Run.Guarded

/-!
# The line protocol

A line is dispatched in the reused buffer, by two characters of which the second one
can be a byte that an earlier line has left there. Which operation runs, and on which
text, is nevertheless a function of the line alone. With the operations opaque, one
client's stream of lines is executed line by line, however its bytes arrive.
-/

namespace SmartDoor

open CString

/-! ## Dispatching a line -/

/-- What `process_command` does with a line; the arguments are pointers into the buffer, or
the texts that they point at. -/
inductive Operation (α : Type)
  | help
  | unknownCommand
  | showMember
  | addMember (str : α)
  | removeMember (str : α)
  | setDelaytime (str : α)
  | showDelaytime
  deriving DecidableEq, Repr

namespace Operation

variable {α β : Type}

def map (g : α → β) : Operation α → Operation β
  | .help => .help
  | .unknownCommand => .unknownCommand
  | .showMember => .showMember
  | .addMember str => .addMember (g str)
  | .removeMember str => .removeMember (g str)
  | .setDelaytime str => .setDelaytime (g str)
  | .showDelaytime => .showDelaytime

/-- The argument, of the operations that take one. -/
def argument : Operation α → Option α
  | .addMember str => some str
  | .removeMember str => some str
  | .setDelaytime str => some str
  | _ => none

end Operation

/-- `process_command` after the newline, down to the call of an operation. The byte behind
the buffer is read as well when a line of blanks fills it; `past` is what stands there. -/
def selectCommand (past : UInt8) (command : Vector UInt8 256) :
    Except Fault (Vector UInt8 256 × Operation Nat) := do
  let (command, cmd) ← trimwhitespace command 0
  if ← streq (command.toList.drop cmd) (ascii "help" ++ [0]) then return (command, .help)
  else if (← load (command.push past) (cmd + 1)) ≠ 95 then return (command, .unknownCommand)
  else
    match ← load command cmd with
    | 49 => return (command, .showMember)
    | 50 => do
      let len ← strlen (command.toList.drop cmd)
      let (command, str) ← strcut command cmd prefixLen len
      return (command, .addMember str)
    | 51 => do
      let len ← strlen (command.toList.drop cmd)
      let (command, str) ← strcut command cmd prefixLen len
      return (command, .removeMember str)
    | 52 => do
      let len ← strlen (command.toList.drop cmd)
      let (command, str) ← strcut command cmd prefixLen len
      return (command, .setDelaytime str)
    | 53 => return (command, .showDelaytime)
    | _ => return (command, .unknownCommand)

/-- The operations on the members and the door, and what they send. -/
def Operation.run (o : SdOutcome) (command : Vector UInt8 256) (store : Store) (board : Board) :
    Operation Nat → Except Fault (Vector UInt8 256 × Store × Board × List Output)
  | .help => return (command, store, board, [.help])
  | .unknownCommand => return (command, store, board, [.unknownCommand])
  | .showMember => do
    let (pupa, out) ← SmartDoor.showMember store.pupa
    return (command, { store with pupa := pupa }, board, out)
  | .addMember str => do
    let (store, command, replies) ← SmartDoor.addMember o command str store
    return (command, store, board, replies.map .reply)
  | .removeMember str => do
    let (store, command, replies) ← SmartDoor.removeMember o command str store
    return (command, store, board, replies.map .reply)
  | .setDelaytime str => do
    let arg ← puts (command.toList.drop str)
    let (board, out) := SmartDoor.setDelaytime arg board
    return (command, store, board, out)
  | .showDelaytime => return (command, store, board, [.delayTime board.delayTime])

/-- The operation that a stripped line asks for. -/
def dispatch (line : Bytes) : Operation Bytes :=
  if line = ascii "help" then .help
  else
    match line with
    | k :: 95 :: arg =>
      match k with
      | 49 => .showMember
      | 50 => .addMember arg
      | 51 => .removeMember arg
      | 52 => .setDelaytime arg
      | 53 => .showDelaytime
      | _ => .unknownCommand
    | _ => .unknownCommand

/-! ## Reading and writing single bytes -/

section Bytes

variable {n : Nat} {mem : Vector UInt8 n}

theorem load_of_getElem? {i : Nat} {c : UInt8} (h : mem.toList[i]? = some c) :
    load mem i = .ok c := by
  obtain ⟨hlt, hget⟩ := List.getElem?_eq_some_iff.mp h
  rw [Vector.length_toList] at hlt
  rw [load, dif_pos hlt, ← hget, Vector.getElem_toList]

theorem load_push (past : UInt8) {i : Nat} (h : i < n) : load (mem.push past) i = load mem i := by
  rw [load, load, dif_pos h, dif_pos (by omega), Vector.getElem_push_lt h]

/-- `strcut` up to the end of the string only moves the pointer. -/
theorem strcut_eq {str : Nat} (h : Terminated (mem.toList.drop str)) (head : Nat) :
    strcut mem str head (content (mem.toList.drop str)).length = .ok (mem, str + head) := by
  obtain ⟨rest, hrest⟩ := h.split
  have hzero : mem.toList[str + (content (mem.toList.drop str)).length]? = some 0 := by
    rw [← List.getElem?_drop]
    generalize content (mem.toList.drop str) = w at hrest
    rw [hrest]
    simp
  obtain ⟨hlt, hget⟩ := List.getElem?_eq_some_iff.mp hzero
  rw [Vector.length_toList] at hlt
  rw [Vector.getElem_toList] at hget
  have hset : mem.set (str + (content (mem.toList.drop str)).length) 0 hlt = mem := by
    ext i hi
    rw [Vector.getElem_set]
    split
    · rename_i heq
      rw [← hget]
      simp only [heq]
    · rfl
  rw [strcut, store_of_lt hlt, hset]
  rfl

end Bytes

/-- The part of a command behind its two characters, in the buffer. -/
theorem content_behind_prefix {m : Bytes} {p : Nat} {k c : UInt8} {arg : Bytes}
    (h : Terminated (m.drop p)) (hw : content (m.drop p) = k :: c :: arg) :
    Terminated (m.drop (p + prefixLen)) ∧ content (m.drop (p + prefixLen)) = arg := by
  have hle : prefixLen ≤ (content (m.drop p)).length := by
    rw [hw]
    simp [prefixLen]
  rw [← List.drop_drop]
  refine ⟨h.drop hle, ?_⟩
  rw [content_drop hle, hw]
  rfl

/-- Whatever the buffer holds behind the string, the operation and the text of its argument
are those of the stripped string. -/
theorem selectCommand_eq (past : UInt8) {command : Vector UInt8 256}
    (h : Terminated command.toList) :
    ∃ op, selectCommand past command = .ok (trimAt command 0, op) ∧
      op.map (fun str => content ((trimAt command 0).toList.drop str)) =
        dispatch (strip (content command.toList)) ∧
      ∀ str ∈ op.argument, Terminated ((trimAt command 0).toList.drop str) := by
  have hterm := terminated_trimAt_ptr (p := 0) h
  have hcont := content_trimAt_ptr (p := 0) h
  rw [selectCommand, trimwhitespace_eq command 0 h]
  rw [List.drop_zero] at hterm hcont ⊢
  generalize trimAt command 0 = mem at hterm hcont ⊢
  generalize 0 + ((content command.toList).takeWhile isspace).length = p at hterm hcont ⊢
  generalize strip (content command.toList) = w at hcont ⊢
  simp only [ok_bind]
  rw [streq_eq hterm (b := ascii "help" ++ [0]) (by decide), ok_bind, hcont,
    content_append_zero (w := ascii "help") (m := []) (by decide)]
  unfold dispatch
  by_cases hhelp : w = ascii "help"
  · rw [decide_eq_true hhelp, if_pos rfl, if_pos hhelp]
    exact ⟨.help, rfl, rfl, fun str hstr => by cases hstr⟩
  rw [decide_eq_false hhelp, if_neg (by decide), if_neg hhelp]
  obtain ⟨rest, hrest⟩ := hterm.split
  rw [hcont] at hrest
  have hread : ∀ i, mem.toList[p + i]? = (w ++ 0 :: rest)[i]? := fun i => by
    rw [← hrest, List.getElem?_drop]
  have hlen := congrArg List.length hrest
  rw [List.length_drop, Vector.length_toList, List.length_append, List.length_cons] at hlen
  have hunknown : ∃ op, (Except.ok (mem, Operation.unknownCommand) :
        Except Fault (Vector UInt8 256 × Operation Nat)) = .ok (mem, op) ∧
      op.map (fun str => content (mem.toList.drop str)) = .unknownCommand ∧
      ∀ str ∈ op.argument, Terminated (mem.toList.drop str) :=
    ⟨.unknownCommand, rfl, rfl, fun str hstr => by cases hstr⟩
  cases w with
  | nil =>
    have hfirst : load mem p = .ok 0 := load_of_getElem? (hread 0)
    have hsecond : load (mem.push past) (p + 1) = .ok (mem.push past)[p + 1] :=
      dif_pos (by omega)
    rw [hsecond, ok_bind]
    split
    · exact hunknown
    · rw [hfirst, ok_bind]
      exact hunknown
  | cons k w =>
    rw [List.length_cons] at hlen
    rw [load_push past (by omega)]
    cases w with
    | nil =>
      have hsecond : load mem (p + 1) = .ok 0 := load_of_getElem? (hread 1)
      rw [hsecond, ok_bind, if_pos (by decide)]
      exact hunknown
    | cons c arg =>
      have hfirst : load mem p = .ok k := load_of_getElem? (hread 0)
      have hsecond : load mem (p + 1) = .ok c := load_of_getElem? (hread 1)
      rw [hsecond, ok_bind]
      by_cases hc : c = 95
      · subst hc
        obtain ⟨hterm', hcont'⟩ := content_behind_prefix hterm hcont
        have hcut : strcut mem p prefixLen (k :: 95 :: arg).length = .ok (mem, p + prefixLen) := by
          rw [← hcont]
          exact strcut_eq hterm prefixLen
        have hargument : ∀ op : Operation Nat, op.argument = some (p + prefixLen) →
            ∀ str ∈ op.argument, Terminated (mem.toList.drop str) := by
          intro op hop str hstr
          rw [hop] at hstr
          rwa [← Option.mem_some_iff.mp hstr]
        rw [if_neg (not_not.mpr rfl), hfirst, ok_bind, strlen_eq hterm, hcont]
        simp only [ok_bind, hcut]
        split
        · exact ⟨.showMember, rfl, rfl, fun str hstr => by cases hstr⟩
        · exact ⟨.addMember _, rfl, congrArg _ hcont', hargument _ rfl⟩
        · exact ⟨.removeMember _, rfl, congrArg _ hcont', hargument _ rfl⟩
        · exact ⟨.setDelaytime _, rfl, congrArg _ hcont', hargument _ rfl⟩
        · exact ⟨.showDelaytime, rfl, rfl, fun str hstr => by cases hstr⟩
        · exact hunknown
      · rw [if_pos hc]
        split
        · rename_i heq
          exact absurd (List.cons.inj (List.cons.inj heq).2).1 hc
        · exact hunknown

/-- The dispatcher and the operation that it calls are `process_command`, unless it reads
the byte behind the buffer. -/
theorem runCommand_eq (past : UInt8) (o : SdOutcome) {command : Vector UInt8 256}
    (h : Terminated command.toList)
    (hin : ((content command.toList).takeWhile isspace).length + 1 < 256) (store : Store)
    (board : Board) :
    runCommand o command store board =
      selectCommand past command >>= fun r => r.2.run o r.1 store board := by
  rw [runCommand, selectCommand, trimwhitespace_eq command 0 h]
  simp only [ok_bind, List.drop_zero, Nat.zero_add]
  rw [load_push past hin]
  generalize ((content command.toList).takeWhile isspace).length = p
  generalize trimAt command 0 = mem
  cases streq (mem.toList.drop p) (ascii "help" ++ [0]) with
  | error e => rfl
  | ok help =>
    cases help with
    | true => rfl
    | false =>
      simp only [ok_bind, Bool.false_eq_true, if_false]
      cases load mem (p + 1) with
      | error e => rfl
      | ok second =>
        simp only [ok_bind]
        by_cases hsecond : second ≠ 95
        · rw [if_pos hsecond, if_pos hsecond]
          rfl
        · rw [if_neg hsecond, if_neg hsecond]
          cases load mem p with
          | error e => rfl
          | ok first =>
            simp only [ok_bind]
            split <;> first | rfl | (simp only [bind_assoc]; rfl)

/-! ## Lines of a stream -/

/-- The lines that newlines have ended, and the unfinished one. -/
structure Lines where
  complete : List Bytes
  rest : Bytes

namespace Lines

/-- The next byte of the stream. -/
def byte (l : Lines) (c : UInt8) : Lines :=
  if c = 10 then ⟨l.complete ++ [l.rest], []⟩ else ⟨l.complete, l.rest ++ [c]⟩

/-- The lines of a stream that goes on. -/
def pass (l : Lines) (bytes : Bytes) : Lines := bytes.foldl byte l

theorem pass_concat (l : Lines) (bytes : Bytes) (c : UInt8) :
    l.pass (bytes ++ [c]) = (l.pass bytes).byte c :=
  List.foldl_append

/-- Bytes without a newline lengthen the unfinished line. -/
theorem pass_of_notMem (l : Lines) {w : Bytes} (h : 10 ∉ w) :
    l.pass w = ⟨l.complete, l.rest ++ w⟩ := by
  induction w using List.reverseRecOn with
  | nil => rw [List.append_nil]; rfl
  | append_singleton w c ih =>
    rw [List.mem_append, List.mem_singleton, not_or] at h
    rw [pass_concat, ih h.1, byte, if_neg (Ne.symm h.2), List.append_assoc]

/-- A whole line. -/
theorem pass_line (l : Lines) {w : Bytes} (h : 10 ∉ w) (more : Bytes) :
    l.pass (w ++ [10] ++ more) = pass ⟨l.complete ++ [l.rest ++ w], []⟩ more := by
  have hline : l.pass (w ++ [10]) = ⟨l.complete ++ [l.rest ++ w], []⟩ := by
    rw [pass_concat, l.pass_of_notMem h]
    rfl
  rw [← hline]
  exact List.foldl_append

end Lines

/-- The lines of a stream. -/
def linesOf (bytes : Bytes) : Lines := Lines.pass ⟨[], []⟩ bytes

/-- The stream of newline-terminated lines. -/
def streamOf (lines : List Bytes) : Bytes := lines.flatMap fun line => line ++ [10]

/-- Lines that the buffer has room for. -/
def Fitting (lines : List Bytes) : Prop := ∀ line ∈ lines, line.length ≤ 255 ∧ 10 ∉ line

instance (lines : List Bytes) : Decidable (Fitting lines) :=
  inferInstanceAs (Decidable (∀ line ∈ lines, line.length ≤ 255 ∧ 10 ∉ line))

/-- The lines of any beginning of the stream. -/
theorem lines_of_beginning {lines : List Bytes} (h : Fitting lines) {p : Bytes}
    (hp : p <+: streamOf lines) (done : List Bytes) :
    (Lines.pass ⟨done, []⟩ p).complete = done ++ lines.take (p.count 10) ∧
      (Lines.pass ⟨done, []⟩ p).rest.length ≤ 255 := by
  induction lines generalizing done p with
  | nil =>
    obtain rfl := List.prefix_nil.mp hp
    exact ⟨by simp [Lines.pass], Nat.zero_le _⟩
  | cons line lines ih =>
    obtain ⟨hlen, hline⟩ := h line (List.mem_cons_self ..)
    have hfirst : line ++ [10] <+: streamOf (line :: lines) := List.prefix_append _ _
    by_cases hshort : p.length ≤ line.length
    · have hpre : p <+: line :=
        List.prefix_of_prefix_length_le hp ((List.prefix_append _ _).trans hfirst) hshort
      have hmem : 10 ∉ p := fun hm => hline (hpre.subset hm)
      rw [Lines.pass_of_notMem _ hmem, List.count_eq_zero.mpr hmem]
      refine ⟨by simp, ?_⟩
      show ([] ++ p).length ≤ 255
      rw [List.nil_append]
      omega
    · obtain ⟨more, rfl⟩ : line ++ [10] <+: p :=
        List.prefix_of_prefix_length_le hfirst hp (by simp; omega)
      have hmore : more <+: streamOf lines := (List.prefix_append_right_inj _).mp hp
      obtain ⟨hcomplete, hrest⟩ := ih (fun l hl => h l (List.mem_cons_of_mem _ hl)) hmore
        (done ++ [line])
      rw [Lines.pass_line _ hline]
      refine ⟨hcomplete.trans ?_, hrest⟩
      rw [List.count_append, List.count_append, List.count_eq_zero.mpr hline,
        List.count_singleton_self, Nat.zero_add, Nat.add_comm, List.take_succ_cons,
        List.append_assoc]
      rfl

theorem count_streamOf {lines : List Bytes} (h : Fitting lines) :
    (streamOf lines).count 10 = lines.length := by
  induction lines with
  | nil => rfl
  | cons line lines ih =>
    rw [streamOf, List.flatMap_cons, List.count_append, List.count_append,
      List.count_eq_zero.mpr (h line (List.mem_cons_self ..)).2, List.count_singleton_self,
      List.length_cons, ← ih fun l hl => h l (List.mem_cons_of_mem _ hl)]
    exact Nat.add_comm ..

/-! ## Sessions -/

/-- The server with a single client, the line buffer, and whatever the operations work on.
The histories are the bytes read and the operations executed. -/
structure Session (σ : Type) where
  command : Vector UInt8 256
  cmdIndex : Nat
  state : σ
  /-- `activeClient` is the client. -/
  active : Bool
  /-- The client has not hung up. -/
  established : Bool
  unread : Bytes
  read : Bytes
  executed : List (Operation Bytes)

namespace Session

variable {σ : Type}

/-- Opaque operations: what each of them leaves of the buffer and of the state. -/
abbrev Operations (σ : Type) :=
  Operation Nat → Vector UInt8 256 → σ → Vector UInt8 256 × σ

section Perform

variable (perform : Operations σ) (past : UInt8)

/-- `process_command(tmp)`: the answer is its return value. -/
def processCommand (tmp : UInt8) (s : Session σ) : Except Fault (Session σ × Bool) :=
  if tmp ≠ 10 then do
    let command ← store s.command s.cmdIndex tmp
    return ({ s with command := command, cmdIndex := s.cmdIndex + 1 }, false)
  else do
    let command ← store s.command s.cmdIndex 0
    let (command, op) ← selectCommand past command
    let executed := s.executed ++ [op.map fun str => content (command.toList.drop str)]
    let (command, state) := perform op command s.state
    return ({ s with
      command := command, cmdIndex := 0, state := state, executed := executed }, true)

/-- The loop of `process_server` over the unread bytes of the client. -/
def readLoop : Bytes → Session σ → Except Fault (Session σ)
  | [], s => .ok s
  | tmp :: unread, s => do
    let (s, done) ← processCommand perform past tmp
      { s with unread := unread, read := s.read ++ [tmp] }
    if done then return s else readLoop unread s

/-- `server.available()`: the client, while it has unread bytes. -/
def available (s : Session σ) : Bool := !s.unread.isEmpty

/-- `activeClient.connected()`: a client that has hung up still counts while bytes are
unread. -/
def connected (s : Session σ) : Bool := s.established || !s.unread.isEmpty

/-- `process_server()` -/
def processServer (s : Session σ) : Except Fault (Session σ) := do
  let s := if s.available then { s with active := true } else s
  let s ← if s.active then readLoop perform past s.unread s else .ok s
  return if s.active && !s.connected then { s with active := false } else s

end Perform

/-- What happens to a session: bytes arrive, the client hangs up, `process_server` is called,
or the rest of the sketch changes what the operations work on. -/
inductive Event (σ : Type)
  | receive (bytes : Bytes)
  | hangUp
  | processServer (past : UInt8)
  | rest (state : σ)

def step (perform : Operations σ) (s : Session σ) : Event σ → Except Fault (Session σ)
  | .receive bytes => .ok (if s.established then { s with unread := s.unread ++ bytes } else s)
  | .hangUp => .ok { s with established := false }
  | .processServer past => s.processServer perform past
  | .rest state => .ok { s with state := state }

/-- What can change the state: an operation that a line asks for, or the rest of the sketch. -/
inductive Change (σ : Type)
  | command (op : Operation Bytes)
  | rest (state : σ)

/-- The operation of a change, if it is one. -/
def Change.operation? : Change σ → Option (Operation Bytes)
  | .command op => some op
  | .rest _ => none

/-- The state that the rest of the sketch has left. -/
def Change.state? : Change σ → Option σ
  | .command _ => none
  | .rest state => some state

/-- Changes without the rest of the sketch are operations. -/
theorem Change.eq_commands {changes : List (Change σ)} (h : changes.filterMap state? = []) :
    changes = (changes.filterMap operation?).map .command := by
  induction changes with
  | nil => rfl
  | cons change changes ih =>
    cases change with
    | command op => exact congrArg (_ :: ·) (ih h)
    | rest state => cases h

/-- The state that the rest of the sketch leaves. -/
def Event.state? : Event σ → Option σ
  | .rest state => some state
  | _ => none

/-- The state after some changes, one after the other: each operation is performed once, on the
text that its argument points at. -/
inductive Performed (perform : Operations σ) : σ → List (Change σ) → σ → Prop
  | nil (state : σ) : Performed perform state [] state
  | command {state state' : σ} {changes : List (Change σ)} (op : Operation Nat)
      (command : Vector UInt8 256) (h : Performed perform (perform op command state).2 changes state') :
      Performed perform state
        (.command (op.map fun str => content (command.toList.drop str)) :: changes) state'
  | rest {state state' : σ} {changes : List (Change σ)} (left : σ)
      (h : Performed perform left changes state') :
      Performed perform state (.rest left :: changes) state'

/-- The session when the client has connected. -/
def initial (state : σ) : Session σ where
  command := Vector.replicate 256 0
  cmdIndex := 0
  state := state
  active := false
  established := true
  unread := []
  read := []
  executed := []

/-- What the client sends, as long as it has not hung up. -/
def sent : Bool → List (Event σ) → Bytes
  | _, [] => []
  | established, .receive bytes :: events =>
    (if established then bytes else []) ++ sent established events
  | _, .hangUp :: events => sent false events
  | established, .processServer _ :: events => sent established events
  | established, .rest _ :: events => sent established events

/-- What the server does with a line. -/
def answer (line : Bytes) : Operation Bytes := dispatch (strip (content line))

/-! ## The operations that are performed -/

namespace Performed

variable {perform : Operations σ} {state state' state'' : σ} {changes changes' : List (Change σ)}

/-- Changes, and then others. -/
theorem append (h : Performed perform state changes state')
    (h' : Performed perform state' changes' state'') :
    Performed perform state (changes ++ changes') state'' := by
  induction h with
  | nil => exact h'
  | command op command _ ih => exact .command op command (ih h')
  | rest left _ ih => exact .rest left (ih h')

/-- When what an operation does to the state is a function of its name and the text of its
argument, the state is the fold of this function over the operations. -/
theorem eq_foldl {f : Operation Bytes → σ → σ}
    (hf : ∀ op command state, (perform op command state).2 =
      f (op.map fun str => content (command.toList.drop str)) state)
    {ops : List (Operation Bytes)} (h : Performed perform state (ops.map .command) state') :
    state' = ops.foldl (fun state op => f op state) state := by
  generalize hchanges : ops.map Change.command = changes at h
  induction h generalizing ops with
  | nil =>
    obtain rfl := List.map_eq_nil_iff.mp hchanges
    rfl
  | command op command _ ih =>
    obtain ⟨first, ops, rfl, hfirst, hrest⟩ := List.map_eq_cons_iff.mp hchanges
    obtain rfl := Change.command.inj hfirst
    rw [List.foldl_cons, ← hf]
    exact ih hrest
  | rest left _ _ =>
    obtain ⟨_, _, _, hfirst, _⟩ := List.map_eq_cons_iff.mp hchanges
    cases hfirst

end Performed

section Perform

variable {perform : Operations σ} {past : UInt8}

/-- The operations that are noted have been performed, once each and in this order. -/
def Notes (perform : Operations σ) (s t : Session σ) : Prop :=
  ∃ ops, t.executed = s.executed ++ ops ∧ Performed perform s.state (ops.map .command) t.state

/-- Nothing was noted. -/
theorem Notes.refl (s : Session σ) : Notes perform s s :=
  ⟨[], (List.append_nil _).symm, .nil _⟩

/-- What two parts of a run note. -/
theorem Notes.trans {s t u : Session σ} (h : Notes perform s t) (h' : Notes perform t u) :
    Notes perform s u := by
  obtain ⟨ops, hops, hdone⟩ := h
  obtain ⟨ops', hops', hdone'⟩ := h'
  refine ⟨ops ++ ops', by rw [hops', hops, List.append_assoc], ?_⟩
  rw [List.map_append]
  exact hdone.append hdone'

/-- `process_command` performs the operation that it notes. -/
theorem notes_of_processCommand {tmp : UInt8} {s t : Session σ} {done : Bool}
    (h : s.processCommand perform past tmp = .ok (t, done)) : Notes perform s t := by
  rw [processCommand] at h
  split at h
  · obtain ⟨command, -, h⟩ := bind_eq_ok.mp h
    cases h
    exact Notes.refl s
  · obtain ⟨command, -, h⟩ := bind_eq_ok.mp h
    obtain ⟨⟨command', op⟩, -, h⟩ := bind_eq_ok.mp h
    cases h
    exact ⟨[_], rfl, .command op command' (.nil _)⟩

/-- The loop of a pass performs the operations that it notes. -/
theorem notes_of_readLoop {bytes : Bytes} {s t : Session σ}
    (h : readLoop perform past bytes s = .ok t) : Notes perform s t := by
  induction bytes generalizing s with
  | nil =>
    obtain rfl := Except.ok.inj h
    exact Notes.refl s
  | cons tmp unread ih =>
    obtain ⟨⟨u, done⟩, hu, h⟩ := bind_eq_ok.mp h
    have hfirst : Notes perform s u :=
      notes_of_processCommand (s := { s with unread := unread, read := s.read ++ [tmp] }) hu
    cases done with
    | true =>
      cases h
      exact hfirst
    | false => exact hfirst.trans (ih h)

/-- A pass performs the operations that it notes. -/
theorem notes_of_processServer {s t : Session σ} (h : s.processServer perform past = .ok t) :
    Notes perform s t := by
  have hactive : ∀ u : Session σ, (if s.available then { s with active := true } else s) = u →
      Notes perform s u := by
    rintro u rfl
    split
    · exact Notes.refl s
    · exact Notes.refl s
  have hstop : ∀ u : Session σ, Notes perform u
      (if u.active && !u.connected then { u with active := false } else u) := by
    intro u
    split
    · exact Notes.refl u
    · exact Notes.refl u
  simp only [processServer] at h
  generalize hu : (if s.available then { s with active := true } else s) = u at h
  split at h
  · obtain ⟨v, hv, h⟩ := bind_eq_ok.mp h
    cases h
    exact ((hactive u hu).trans (notes_of_readLoop hv)).trans (hstop v)
  · cases h
    exact (hactive u hu).trans (hstop u)

/-- In a run the state is changed by the operations that are noted and by the rest of the
sketch, and by nothing else. -/
theorem performed_of_run {events : List (Event σ)} {s t : Session σ}
    (h : events.foldlM (step perform) s = .ok t) :
    ∃ changes, Performed perform s.state changes t.state ∧
      t.executed = s.executed ++ changes.filterMap Change.operation? ∧
      changes.filterMap Change.state? = events.filterMap Event.state? := by
  induction events generalizing s with
  | nil =>
    obtain rfl := Except.ok.inj h
    exact ⟨[], .nil _, (List.append_nil _).symm, rfl⟩
  | cons event events ih =>
    obtain ⟨u, hu, h⟩ := Run.foldlM_cons_ok.mp h
    obtain ⟨changes, hdone, hnoted, hstates⟩ := ih h
    cases event with
    | receive bytes =>
      cases hu
      have hsame : ∀ (p : Prop) [Decidable p], (if p then { s with unread := s.unread ++ bytes }
          else s).state = s.state ∧ (if p then { s with unread := s.unread ++ bytes }
            else s).executed = s.executed := fun p _ => by split <;> exact ⟨rfl, rfl⟩
      rw [(hsame _).1] at hdone
      rw [(hsame _).2] at hnoted
      exact ⟨changes, hdone, hnoted, hstates⟩
    | hangUp =>
      cases hu
      exact ⟨changes, hdone, hnoted, hstates⟩
    | processServer past =>
      obtain ⟨ops, hops, hfirst⟩ := notes_of_processServer hu
      have hcommands : (ops.map Change.command).filterMap (Change.operation? (σ := σ)) = ops := by
        rw [List.filterMap_map]
        exact List.filterMap_some
      have hnone : (ops.map Change.command).filterMap (Change.state? (σ := σ)) = [] := by
        rw [List.filterMap_map]
        exact List.filterMap_eq_nil_iff.mpr fun _ _ => rfl
      refine ⟨ops.map .command ++ changes, hfirst.append hdone, ?_, ?_⟩
      · rw [hnoted, hops, List.filterMap_append, hcommands, List.append_assoc]
      · rw [List.filterMap_append, hnone, hstates]
        rfl
    | rest state =>
      cases hu
      refine ⟨.rest state :: changes, .rest state hdone, hnoted, ?_⟩
      exact congrArg (state :: ·) hstates

end Perform

/-! ## What is read and executed -/

/-- The buffer holds the unfinished line of what was read, and the lines before it were
executed. -/
structure Follows (s : Session σ) : Prop where
  index : s.cmdIndex = (linesOf s.read).rest.length
  text : s.command.toList.take s.cmdIndex = (linesOf s.read).rest
  executed : s.executed = (linesOf s.read).complete.map answer

/-- The lines of a stream fit into the buffer at each of its bytes. -/
def Roomy (stream : Bytes) : Prop := ∀ p, p <+: stream → (linesOf p).rest.length ≤ 255

theorem linesOf_concat (bytes : Bytes) (c : UInt8) :
    linesOf (bytes ++ [c]) = (linesOf bytes).byte c :=
  Lines.pass_concat _ bytes c

section Perform

variable (perform : Operations σ) (past : UInt8)

/-- One byte: it joins the line, or it is a newline and the line is executed. -/
theorem Follows.processCommand {s : Session σ} (h : s.Follows)
    (hroom : (linesOf s.read).rest.length ≤ 255) (tmp : UInt8) (unread : Bytes) :
    ∃ t, Session.processCommand perform past tmp { s with unread := unread, read := s.read ++ [tmp] } =
        .ok (t, decide (tmp = 10)) ∧
      t.Follows ∧ t.unread = unread ∧ t.read = s.read ++ [tmp] ∧ t.established = s.established ∧
      t.executed.length = s.executed.length + if tmp = 10 then 1 else 0 := by
  have hlt : s.cmdIndex < 256 := by
    rw [h.index]
    omega
  have hlength : s.cmdIndex ≤ s.command.toList.length := by
    rw [Vector.length_toList]
    omega
  have hset : ∀ c : UInt8, (s.command.set s.cmdIndex c).toList =
      (linesOf s.read).rest ++ c :: s.command.toList.drop (s.cmdIndex + 1) := fun c => by
    rw [Vector.toList_set, List.set_eq_take_append_cons_drop, if_pos (by simpa using hlt), h.text]
  rw [Session.processCommand]
  by_cases htmp : tmp = 10
  · have hterm : Terminated (s.command.set s.cmdIndex 0).toList := by
      rw [hset]
      exact List.mem_append_right _ (List.mem_cons_self ..)
    obtain ⟨op, hselect, hop, -⟩ := selectCommand_eq past hterm
    rw [hset, content_append_terminator] at hop
    rw [if_neg (not_not.mpr htmp), store_of_lt hlt, ok_bind, hselect, ok_bind, decide_eq_true htmp]
    refine ⟨_, rfl, ⟨?_, ?_, ?_⟩, rfl, rfl, rfl, ?_⟩
    · rw [linesOf_concat, Lines.byte, if_pos htmp]
      rfl
    · rw [linesOf_concat, Lines.byte, if_pos htmp]
      rfl
    · rw [linesOf_concat, Lines.byte, if_pos htmp, List.map_append, ← h.executed]
      exact congrArg (s.executed ++ [·]) hop
    · rw [if_pos htmp]
      simp
  · rw [if_pos htmp, store_of_lt hlt, ok_bind, decide_eq_false htmp]
    refine ⟨_, rfl, ⟨?_, ?_, ?_⟩, rfl, rfl, rfl, ?_⟩
    · rw [linesOf_concat, Lines.byte, if_neg htmp, List.length_append, List.length_singleton,
        ← h.index]
    · rw [linesOf_concat, Lines.byte, if_neg htmp]
      show (s.command.set s.cmdIndex tmp).toList.take (s.cmdIndex + 1) = _
      rw [hset, List.append_cons, List.take_left' (by simp [h.index])]
    · rw [linesOf_concat, Lines.byte, if_neg htmp]
      exact h.executed
    · rw [if_neg htmp]
      rfl

/-- The loop of a pass reads up to the first newline. -/
theorem Follows.readLoop {s : Session σ} (h : s.Follows) {bytes : Bytes}
    (hroom : Roomy (s.read ++ bytes)) (hunread : s.unread = bytes) :
    ∃ t, Session.readLoop perform past bytes s = .ok t ∧ t.Follows ∧
      t.read ++ t.unread = s.read ++ bytes ∧ t.established = s.established ∧
      t.executed.length = s.executed.length + if 10 ∈ bytes then 1 else 0 := by
  induction bytes generalizing s with
  | nil => exact ⟨s, rfl, h, by rw [hunread], rfl, rfl⟩
  | cons tmp bytes ih =>
    obtain ⟨u, hu, hfollows, hunread', hread, hestablished, hcount⟩ :=
      h.processCommand perform past (hroom s.read (List.prefix_append _ _)) tmp bytes
    have hstream : u.read ++ bytes = s.read ++ tmp :: bytes := by
      rw [hread, List.append_assoc]
      rfl
    rw [Session.readLoop, hu, ok_bind]
    by_cases htmp : tmp = 10
    · have hmem : (10 : UInt8) ∈ tmp :: bytes := by
        rw [htmp]
        exact List.mem_cons_self
      refine ⟨u, ?_, hfollows, by rw [hunread', hstream], hestablished, ?_⟩
      · simp only [decide_eq_true htmp, if_true]
        rfl
      · rw [hcount, if_pos htmp, if_pos hmem]
    · have hmem : (10 : UInt8) ∈ tmp :: bytes ↔ 10 ∈ bytes := by simp [Ne.symm htmp]
      obtain ⟨t, ht, hfollows', hstream', hestablished', hcount'⟩ :=
        ih hfollows (by rwa [hstream]) hunread'
      refine ⟨t, ?_, hfollows', hstream'.trans hstream, hestablished'.trans hestablished, ?_⟩
      · simp only [decide_eq_false htmp, Bool.false_eq_true, if_false]
        exact ht
      · simp only [hcount', hcount, if_neg htmp, hmem]
        rfl

/-- A pass executes one line, if a whole one is unread. -/
theorem Follows.processServer {s : Session σ} (h : s.Follows) (hroom : Roomy (s.read ++ s.unread)) :
    ∃ t, s.processServer perform past = .ok t ∧ t.Follows ∧
      t.read ++ t.unread = s.read ++ s.unread ∧ t.established = s.established ∧
      t.executed.length = s.executed.length + if 10 ∈ s.unread then 1 else 0 := by
  obtain ⟨u, hu, hunread, hread, hestablished, hexecuted, hfollows, hactive⟩ :
      ∃ u : Session σ, (if s.available then { s with active := true } else s) = u ∧
        u.unread = s.unread ∧ u.read = s.read ∧ u.established = s.established ∧
        u.executed = s.executed ∧ u.Follows ∧ (u.active = false → u.unread = []) := by
    by_cases havailable : s.available
    · rw [if_pos havailable]
      exact ⟨_, rfl, rfl, rfl, rfl, rfl, ⟨h.index, h.text, h.executed⟩, fun h => nomatch h⟩
    · rw [if_neg havailable]
      refine ⟨s, rfl, rfl, rfl, rfl, rfl, h, fun _ => ?_⟩
      simpa [available] using havailable
  obtain ⟨v, hv, hfollows', hstream, hestablished', hcount⟩ :
      ∃ v, (if u.active then Session.readLoop perform past u.unread u else .ok u) = .ok v ∧
        v.Follows ∧ v.read ++ v.unread = s.read ++ s.unread ∧ v.established = s.established ∧
        v.executed.length = s.executed.length + if 10 ∈ s.unread then 1 else 0 := by
    cases hopen : u.active with
    | true =>
      obtain ⟨v, hv, hv', hstream, hest, hcount⟩ := hfollows.readLoop perform past
        (by rwa [hread, hunread]) rfl
      rw [hread, hunread] at hstream
      rw [hexecuted, hunread] at hcount
      exact ⟨v, hv, hv', hstream, hest.trans hestablished, hcount⟩
    | false =>
      have hempty := hactive hopen
      rw [hunread] at hempty
      refine ⟨u, rfl, hfollows, by rw [hread, hunread], hestablished, ?_⟩
      rw [hexecuted, hempty]
      rfl
  have hstop : ∃ t, (if v.active && !v.connected then { v with active := false } else v) = t ∧
      t.Follows ∧ t.read = v.read ∧ t.unread = v.unread ∧ t.established = v.established ∧
      t.executed = v.executed := by
    split
    · exact ⟨_, rfl, ⟨hfollows'.index, hfollows'.text, hfollows'.executed⟩, rfl, rfl, rfl, rfl⟩
    · exact ⟨_, rfl, hfollows', rfl, rfl, rfl, rfl⟩
  obtain ⟨t, ht, hfollows'', hread', hunread', hest, hexec⟩ := hstop
  refine ⟨t, ?_, hfollows'', ?_, hest.trans hestablished', ?_⟩
  · simp only [Session.processServer, hu]
    split
    · rename_i hopen
      rw [if_pos hopen] at hv
      rw [hv, ok_bind, ht]
      rfl
    · rename_i hopen
      rw [if_neg hopen] at hv
      rw [hv, ok_bind, ht]
      rfl
  · rw [hread', hunread', hstream]
  · rw [hexec, hcount]

end Perform

/-- Any sequence of events, as long as what is sent fits. -/
theorem Follows.run (perform : Operations σ) {s : Session σ} (h : s.Follows)
    (events : List (Event σ)) (hroom : Roomy (s.read ++ s.unread ++ sent s.established events)) :
    ∃ t, events.foldlM (step perform) s = .ok t ∧ t.Follows ∧
      t.read ++ t.unread = s.read ++ s.unread ++ sent s.established events := by
  induction events generalizing s with
  | nil => exact ⟨s, rfl, h, (List.append_nil _).symm⟩
  | cons event events ih =>
    obtain ⟨u, hu, hfollows, hstream⟩ : ∃ u, step perform s event = .ok u ∧ u.Follows ∧
        u.read ++ u.unread ++ sent u.established events =
          s.read ++ s.unread ++ sent s.established (event :: events) := by
      cases event with
      | receive bytes =>
        refine ⟨_, rfl, ?_, ?_⟩
        · split
          · exact ⟨h.index, h.text, h.executed⟩
          · exact h
        · cases hest : s.established with
          | true => simp [sent]
          | false => simp [sent, hest]
      | hangUp => exact ⟨_, rfl, ⟨h.index, h.text, h.executed⟩, rfl⟩
      | processServer past =>
        have hroom' : Roomy (s.read ++ s.unread) := fun p hp =>
          hroom p (hp.trans (List.prefix_append _ _))
        obtain ⟨u, hu, hfollows, hstream, hest, -⟩ := h.processServer perform past hroom'
        refine ⟨u, hu, hfollows, ?_⟩
        rw [hstream, hest, sent]
      | rest state => exact ⟨_, rfl, ⟨h.index, h.text, h.executed⟩, rfl⟩
    obtain ⟨t, ht, hfollows', hstream'⟩ := ih hfollows (by rwa [hstream])
    exact ⟨t, Run.foldlM_cons_ok.mpr ⟨u, hu, ht⟩, hfollows', hstream'.trans hstream⟩

end Session

/-- For every stream of newline-terminated lines of at most 255 bytes, in any pieces over any
number of passes: the operations that were executed are those of the lines that were read,
in order, one for each newline, and each is determined by its line. The state is what these
operations and the rest of the sketch have made of it, each of them performed once. When
everything was read, all lines were executed. A pass that finds a whole line unread performs
its operation, and one that finds none performs nothing. -/
theorem line_protocol {σ : Type} (perform : Session.Operations σ) (state : σ)
    {lines : List Bytes} (hlines : Fitting lines) {events : List (Session.Event σ)}
    (hsent : Session.sent true events <+: streamOf lines) :
    ∃ s, events.foldlM (Session.step perform) (Session.initial state) = .ok s ∧
      s.read ++ s.unread = Session.sent true events ∧
      s.executed = (lines.take (s.read.count 10)).map Session.answer ∧
      (s.read = streamOf lines → s.executed = lines.map Session.answer) ∧
      (∃ changes, Session.Performed perform state changes s.state ∧
        changes.filterMap Session.Change.operation? = s.executed ∧
        changes.filterMap Session.Change.state? = events.filterMap Session.Event.state?) ∧
      ∀ past, ∃ t ops, s.processServer perform past = .ok t ∧
        Session.Performed perform s.state (ops.map .command) t.state ∧
        t.executed = s.executed ++ ops ∧ ops.length = if 10 ∈ s.unread then 1 else 0 := by
  have hroom : Session.Roomy (Session.sent true events) := fun p hp =>
    (lines_of_beginning hlines (hp.trans hsent) []).2
  have hstart : (Session.initial state).Follows := ⟨rfl, rfl, rfl⟩
  obtain ⟨s, hs, hfollows, hstream⟩ := hstart.run perform events hroom
  have hstream : s.read ++ s.unread = Session.sent true events := hstream
  have hread : s.read <+: streamOf lines := by
    refine List.IsPrefix.trans ?_ hsent
    rw [← hstream]
    exact List.prefix_append _ _
  have hexecuted : s.executed = (lines.take (s.read.count 10)).map Session.answer := by
    rw [hfollows.executed, linesOf, (lines_of_beginning hlines hread []).1, List.nil_append]
  obtain ⟨changes, hdone, hnoted, hstates⟩ := Session.performed_of_run hs
  refine ⟨s, hs, hstream, hexecuted, fun hall => ?_, ⟨changes, hdone, hnoted.symm, hstates⟩,
    fun past => ?_⟩
  · rw [hexecuted, hall, count_streamOf hlines, List.take_length]
  · obtain ⟨t, ht, -, -, -, hcount⟩ := hfollows.processServer perform past
      (by rwa [hstream])
    obtain ⟨ops, hops, hperformed⟩ := Session.notes_of_processServer ht
    rw [hops, List.length_append] at hcount
    exact ⟨t, ops, ht, hperformed, hops, Nat.add_left_cancel hcount⟩

/-- A long line, an empty one and a short one, in three pieces, and operations that write
themselves down: the bytes that the first line has left do not make commands of the other two. -/
theorem line_protocol_of_three : ∃ s,
    [Session.Event.receive (ascii "2_0C0029DA"), .processServer 0,
      .receive (ascii "90 Aj\n\n"), .processServer 0, .receive (ascii "5\n"), .processServer 0,
      .processServer 0].foldlM
        (Session.step fun op command (written : List (Operation Bytes)) =>
          (command, written ++ [op.map fun str => content (command.toList.drop str)]))
        (Session.initial []) = .ok s ∧
    s.state = [.addMember (ascii "0C0029DA90 Aj"), .unknownCommand, .unknownCommand] := by
  let lines := [ascii "2_0C0029DA90 Aj", [], ascii "5"]
  let write : Session.Operations (List (Operation Bytes)) := fun op command written =>
    (command, written ++ [op.map fun str => content (command.toList.drop str)])
  let events : List (Session.Event (List (Operation Bytes))) :=
    [.receive (ascii "2_0C0029DA"), .processServer 0, .receive (ascii "90 Aj\n\n"),
      .processServer 0, .receive (ascii "5\n"), .processServer 0, .processServer 0]
  have hrun : (events.foldlM (Session.step write) (Session.initial []) >>= fun s => .ok s.read) =
      .ok (streamOf lines) := by
    decide +kernel
  obtain ⟨s, hs, hread⟩ := bind_eq_ok.mp hrun
  have hlines : Fitting lines := by decide +kernel
  have hsent : Session.sent true events <+: streamOf lines := by decide +kernel
  obtain ⟨s', hs', -, -, hall, ⟨changes, hdone, hnoted, hstates⟩, -⟩ :=
    line_protocol write [] hlines hsent
  obtain rfl : s = s' := Except.ok.inj (hs.symm.trans hs')
  have hexecuted := hall (Except.ok.inj hread)
  rw [Session.Change.eq_commands hstates, hnoted] at hdone
  have hstate := Session.Performed.eq_foldl (f := fun op written => written ++ [op])
    (fun _ _ _ => rfl) hdone
  refine ⟨s, hs, hstate.trans ?_⟩
  rw [hexecuted]
  decide +kernel

end SmartDoor
