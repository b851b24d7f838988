import SmartDoor.Members.Table

/-!
# The member file and the commands that change it

`idaccess.txt` holds one line `<member_id> <member_name>` a member. `read_file`
decodes it byte by byte into the table with the three counters `num`, `index`
and `mode`, on top of what the table already holds; `write_file` prints the
occupied slots. `add_member` appends a line and reads the file again;
`remove_member` deletes the file, shifts the table and writes the file anew.
Every call of the SD library is recorded, so that a run can be cut between any
two of them, and the calls that can fail carry their outcome. A write outside a
field or outside the table is a fault.
-/

namespace SmartDoor

open CString

/-! ## Reading -/

/-- What the next characters of a line belong to: `mode` 0 is the id, 1 the name. -/
inductive Mode
  | id
  | name
  deriving DecidableEq, Repr

/-- The size of the array that a mode writes to. -/
def Mode.size : Mode → Nat
  | .id => 12
  | .name => 15

/-- `member_id` or `member_name` of a slot. -/
def Rfid.field (r : Rfid) : (m : Mode) → Vector UInt8 m.size
  | .id => r.memberId
  | .name => r.memberName

/-- Replace one field of a slot. -/
def Rfid.withField (r : Rfid) : (m : Mode) → Vector UInt8 m.size → Rfid
  | .id, v => { r with memberId := v }
  | .name, v => { r with memberName := v }

/-- `pupa[num].member_id[index] = c`, or the same for `member_name`. -/
def setField (m : Mode) (num index : Nat) (c : UInt8) (pupa : Pupa) : Except Fault Pupa :=
  if h : num < MEMBER then do
    let v ← store (pupa[num].field m) index c
    return pupa.set num (pupa[num].withField m v)
  else .error .overwrite

/-- The characters that `read_file` keeps in ids and names. -/
def isWord (c : UInt8) : Bool := (65 ≤ c ∧ c ≤ 122) ∨ (48 ≤ c ∧ c ≤ 57)

/-- The state of the loop of `read_file`. -/
structure Scan where
  pupa : Pupa
  num : Nat
  index : Nat
  mode : Mode

/-- One pass of the loop of `read_file`. -/
def readByte (s : Scan) (tmp : UInt8) : Except Fault Scan :=
  if tmp = 13 then do
    let pupa ← setField .name s.num s.index 13 s.pupa
    let pupa ← setField .name s.num (s.index + 1) 0 pupa
    return ⟨pupa, s.num + 1, 0, .id⟩
  else if tmp = 32 then do
    let pupa ← setField .id s.num s.index 13 s.pupa
    let pupa ← setField .id s.num (s.index + 1) 0 pupa
    return ⟨pupa, s.num, 0, .name⟩
  else if isWord tmp then do
    let pupa ← setField s.mode s.num s.index tmp s.pupa
    return ⟨pupa, s.num, s.index + 1, s.mode⟩
  else return s

/-- The string that a `print` of a `char*` sends. -/
def puts (m : Bytes) : Except Fault Bytes :=
  if Terminated m then .ok (content m) else .error .overread

/-- The lines that `read_file` prints at its end: the slots whose stored id is
not the empty string. -/
def listing (pupa : Pupa) : Except Fault (List (Bytes × Bytes)) := do
  let lines ← pupa.toList.mapM fun r => do
    if ← streq r.memberId.toList [0] then return []
    else return [(← puts r.memberId.toList, ← puts r.memberName.toList)]
  return lines.flatten

/-- `read_file`, given the bytes of the file. -/
def readFile (pupa : Pupa) (file : Bytes) : Except Fault Pupa := do
  let s ← file.foldlM readByte ⟨pupa, 0, 0, .id⟩
  let _ ← listing s.pupa
  return s.pupa

/-! ## The card -/

/-- A call that changes the card, with its outcome where it can fail. -/
inductive SdCall
  /-- `SD.remove("idaccess.txt")` -/
  | remove (ok : Bool)
  /-- `sdcard = SD.open("idaccess.txt", FILE_WRITE)` -/
  | openWrite (ok : Bool)
  /-- `sdcard.print` or `sdcard.println` -/
  | print (bytes : Bytes)
  /-- `sdcard.close()` -/
  | close
  deriving DecidableEq, Repr

/-- The two files of the card, and whether `sdcard` is open for appending to
`idaccess.txt`. -/
structure Card where
  idaccess : Option Bytes
  activity : Option Bytes
  sdcard : Bool
  deriving DecidableEq, Repr

/-- `FILE_WRITE` opens for append and creates a missing file; a `File` that did
not open ignores what is printed to it. -/
def SdCall.run (c : Card) : SdCall → Card
  | .remove ok => if ok then { c with idaccess := none } else c
  | .openWrite ok =>
    if ok then { c with idaccess := some (c.idaccess.getD []), sdcard := true }
    else { c with sdcard := false }
  | .print bytes => if c.sdcard then { c with idaccess := c.idaccess.map (· ++ bytes) } else c
  | .close => { c with sdcard := false }

/-- The member table and the card. -/
structure Store where
  pupa : Pupa
  card : Card
  deriving DecidableEq, Repr

/-- `sdcard_process()`: read the member file, or create it when it is missing. -/
def Store.sdcardProcess (s : Store) : Except Fault Store := do
  let card := { s.card with activity := some (s.card.activity.getD []) }
  match card.idaccess with
  | some file => return ⟨← readFile s.pupa file, card⟩
  | none => return ⟨s.pupa, { card with idaccess := some [], sdcard := false }⟩

/-- Power up: the table is zeroed and `setup` reads the card. -/
def Store.reboot (s : Store) : Except Fault Store :=
  ({ pupa := Pupa.zero, card := { s.card with sdcard := false } } : Store).sdcardProcess

/-! ## Writing -/

/-- The loop of `write_file` from slot `i` on: the ids are trimmed in place. -/
def writeLoop : Nat → Nat → Pupa → Except Fault (Pupa × List SdCall)
  | 0, _, pupa => .ok (pupa, [])
  | left + 1, i, pupa =>
    if h : i < MEMBER then do
      let (id, p) ← trimwhitespace pupa[i].memberId 0
      let blank ← streq (id.toList.drop p) [0]
      if blank then writeLoop left (i + 1) (pupa.set i { pupa[i] with memberId := id })
      else do
        let (id, p) ← trimwhitespace id 0
        let text ← puts (id.toList.drop p)
        let name ← puts pupa[i].memberName.toList
        let (pupa, calls) ← writeLoop left (i + 1) (pupa.set i { pupa[i] with memberId := id })
        return (pupa, .print text :: .print [32] :: .print (name ++ [13, 10]) :: calls)
    else .ok (pupa, [])

/-- `write_file`, with the outcome of its `SD.open`. -/
def writeFile (ok : Bool) (pupa : Pupa) : Except Fault (Pupa × List SdCall) := do
  let (pupa, calls) ← writeLoop MEMBER 0 pupa
  return (pupa, .openWrite ok :: (calls ++ [.close]))

/-- The loop of `remove_member` from slot `i` on. The null pointers that the
source gives to `strcmp` and `strcpy` act as the empty string. -/
def shiftLoop : Nat → Nat → Pupa → Except Fault Pupa
  | 0, _, pupa => .ok pupa
  | left + 1, i, pupa =>
    if h : i + 1 < MEMBER then do
      let blank ← streq pupa[i + 1].memberId.toList [0]
      let r ← if !blank then do
          let id ← strcpy pupa[i].memberId pupa[i + 1].memberId.toList
          let name ← strcpy pupa[i].memberName pupa[i + 1].memberName.toList
          pure (⟨id, name⟩ : Rfid)
        else do
          let id ← strcpy pupa[i].memberId [0]
          let name ← strcpy pupa[i].memberName [0]
          pure ⟨id, name⟩
      shiftLoop left (i + 1) (pupa.set i r)
    else .ok pupa

/-- Which of the SD calls that a command makes succeed. -/
structure SdOutcome where
  addOpen : Bool
  remove : Bool
  writeOpen : Bool
  deriving DecidableEq, Repr

/-- No SD call fails. -/
def SdOutcome.success : SdOutcome := ⟨true, true, true⟩

/-- The part of `remove_member` after a successful lookup: the table it leaves
and the SD calls it makes, `SD.remove` first. -/
def deleteMember (o : SdOutcome) (member : Nat) (pupa : Pupa) :
    Except Fault (Pupa × List SdCall) := do
  let pupa ← shiftLoop MEMBER member pupa
  let (pupa, calls) ← writeFile o.writeOpen pupa
  return (pupa, .remove o.remove :: calls)

/-! ## Commands -/

/-- What `add_member` and `remove_member` send to the client. -/
inductive Reply
  | addSuccess
  | addFail
  | adding (text : Bytes)
  | deleteFail
  | deleting (text : Bytes)
  deriving DecidableEq, Repr

/-- The words of a reply, before and after the text that it quotes. -/
def Reply.words : Reply → String × String
  | .addSuccess => ("Adding member Success!!", "")
  | .addFail => ("Adding member Fail!!", "")
  | .adding _ => ("Adding  ", "  Done!!")
  | .deleteFail => ("Fail to delete!!", "")
  | .deleting _ => ("Deleting  ", "  Done!!")

variable {n : Nat}

/-- `add_member(str)` for a pointer `p` into the array `str`. -/
def addMember (o : SdOutcome) (str : Vector UInt8 n) (p : Nat) (s : Store) :
    Except Fault (Store × Vector UInt8 n × List Reply) := do
  let len ← strlen (str.toList.drop p)
  let (s, reply) ← if 10 ≤ len then do
      let text ← puts (str.toList.drop p)
      let calls := [.openWrite o.addOpen, .print (text ++ [13, 10]), .close]
      let s ← ({ s with card := calls.foldl SdCall.run s.card } : Store).sdcardProcess
      pure (s, Reply.addSuccess)
    else pure (s, Reply.addFail)
  let (str, q) ← trimwhitespace str p
  let text ← puts (str.toList.drop q)
  return (s, str, [reply, .adding text])

/-- `remove_member(str)` for a pointer `p` into the array `str`. -/
def removeMember (o : SdOutcome) (str : Vector UInt8 n) (p : Nat) (s : Store) :
    Except Fault (Store × Vector UInt8 n × List Reply) := do
  let (member, pupa, str) ← isUser s.pupa str p
  if member < 0 then return ({ s with pupa := pupa }, str, [.deleteFail])
  let (pupa, calls) ← deleteMember o member.toNat pupa
  let (str, q) ← trimwhitespace str p
  let text ← puts (str.toList.drop q)
  return (⟨pupa, calls.foldl SdCall.run s.card⟩, str, [.deleting text])

/-- An argument as the caller stores it, with its terminator. -/
def cString (arg : Bytes) : Vector UInt8 (arg.length + 1) := ⟨(arg ++ [0]).toArray, by simp⟩

/-- What can happen to the members: a reboot, the two commands, and a lookup. -/
inductive Op
  | reboot
  | add (arg : Bytes)
  | remove (arg : Bytes)
  | lookup (arg : Bytes)
  deriving DecidableEq, Repr

/-- An operation with the outcome of its SD calls, and what it answers. -/
def Op.exec (o : SdOutcome) (s : Store) : Op → Except Fault (Store × List Reply)
  | .reboot => do return (← s.reboot, [])
  | .add arg => do
    let (s, _, replies) ← addMember o (cString arg) 0 s
    return (s, replies)
  | .remove arg => do
    let (s, _, replies) ← removeMember o (cString arg) 0 s
    return (s, replies)
  | .lookup arg => do
    let (_, pupa, _) ← isUser s.pupa (cString arg) 0
    return ({ s with pupa := pupa }, [])

/-- An operation whose SD calls succeed. -/
def Op.step (s : Store) (op : Op) : Except Fault Store := do
  let (s, _) ← op.exec .success s
  return s

/-- An empty card and a zeroed table. -/
def Store.initial : Store := ⟨Pupa.zero, ⟨none, none, false⟩⟩

/-- A history of operations from the empty card. -/
def history (ops : List Op) : Except Fault Store := ops.foldlM Op.step Store.initial

end SmartDoor
