import SmartDoor.Text.Whitespace
import Mathlib.Data.List.FinRange

/-!
# The member table and its lookup

`pupa` holds thirty members, each an id and a name in NUL-terminated arrays. The
lookup `isUser` trims the fields it visits in place. On a table whose fields are
terminated it answers the first occupied slot whose trimmed id or trimmed name
is the trimmed argument, and the trimmed text of every slot stays as it was.
-/

namespace SmartDoor

open CString

/-- `MEMBER` -/
abbrev MEMBER : Nat := 30

/-- One slot of the table. -/
structure Rfid where
  memberId : Vector UInt8 12
  memberName : Vector UInt8 15
  deriving DecidableEq, Repr

/-- `rfid pupa[MEMBER]` -/
abbrev Pupa := Vector Rfid MEMBER

/-- A slot of zero bytes, as the C runtime starts it. -/
def Rfid.zero : Rfid := ⟨Vector.replicate 12 0, Vector.replicate 15 0⟩

/-- The table after a boot, before the card is read. -/
def Pupa.zero : Pupa := Vector.replicate MEMBER Rfid.zero

/-- The loop of `isUser` from slot `i` on; `left` slots are still to be visited.
The argument `user` is the memory that the trimmed pointer points at. -/
def searchLoop (user : Bytes) : Nat → Nat → Pupa → Except Fault (Int × Pupa)
  | 0, _, pupa => .ok (-1, pupa)
  | left + 1, i, pupa =>
    if h : i < MEMBER then do
      let (name, pupaName) ← trimwhitespace pupa[i].memberName 0
      let (id, pupaId) ← trimwhitespace pupa[i].memberId 0
      let pupa := pupa.set i ⟨id, name⟩
      let sameId ← streq (id.toList.drop pupaId) user
      let sameName ← streq (name.toList.drop pupaName) user
      let blank ← streq (id.toList.drop pupaId) [0]
      if (sameId || sameName) && !blank then return (i, pupa)
      else searchLoop user left (i + 1) pupa
    else .ok (-1, pupa)

/-- `isUser(str)` for a pointer `p` into the array `str`: the answer, and the
table and the array as the in-place trimming leaves them. -/
def isUser {n : Nat} (pupa : Pupa) (str : Vector UInt8 n) (p : Nat) :
    Except Fault (Int × Pupa × Vector UInt8 n) := do
  let (str, user) ← trimwhitespace str p
  let (member, pupa) ← searchLoop (str.toList.drop user) MEMBER 0 pupa
  return (member, pupa, str)

/-! ## The text of a slot -/

/-- The trimmed id of a slot. -/
def Rfid.id (r : Rfid) : Bytes := strip (content r.memberId.toList)

/-- The trimmed name of a slot. -/
def Rfid.name (r : Rfid) : Bytes := strip (content r.memberName.toList)

/-- A slot is occupied when its trimmed id is not empty. -/
def Rfid.Occupied (r : Rfid) : Prop := r.id ≠ []

instance (r : Rfid) : Decidable r.Occupied := inferInstanceAs (Decidable (_ ≠ _))

/-- The test of `isUser`: an occupied slot with the given id or the given name. -/
def Rfid.Matches (user : Bytes) (r : Rfid) : Prop := (r.id = user ∨ r.name = user) ∧ r.Occupied

instance (user : Bytes) (r : Rfid) : Decidable (r.Matches user) :=
  inferInstanceAs (Decidable (_ ∧ _))

/-- Both fields hold a terminator. -/
structure Rfid.Terminated (r : Rfid) : Prop where
  id : CString.Terminated r.memberId.toList
  name : CString.Terminated r.memberName.toList

/-- Every field of the table holds a terminator. -/
def Pupa.Terminated (pupa : Pupa) : Prop := ∀ i (h : i < MEMBER), pupa[i].Terminated

/-- The slot after a visit of `isUser`. -/
def Rfid.trimmed (r : Rfid) : Rfid := ⟨trimAt r.memberId 0, trimAt r.memberName 0⟩

/-- The table after the slots below `k` were visited. -/
def Pupa.trimTo (pupa : Pupa) (k : Nat) : Pupa :=
  Vector.ofFn fun i => if i.val < k then (pupa.get i).trimmed else pupa.get i

/-- The first slot that matches. -/
def Pupa.lookup (pupa : Pupa) (user : Bytes) : Option (Fin MEMBER) :=
  (List.finRange MEMBER).find? fun i => (pupa.get i).Matches user

theorem Rfid.Terminated.trimmed {r : Rfid} (h : r.Terminated) : r.trimmed.Terminated :=
  ⟨terminated_trimAt (p := 0) h.id, terminated_trimAt (p := 0) h.name⟩

theorem Rfid.id_trimmed {r : Rfid} (h : r.Terminated) : r.trimmed.id = r.id :=
  strip_content_trimAt (p := 0) h.id

theorem Rfid.name_trimmed {r : Rfid} (h : r.Terminated) : r.trimmed.name = r.name :=
  strip_content_trimAt (p := 0) h.name

@[simp] theorem Pupa.get_eq (pupa : Pupa) (i : Fin MEMBER) :
    pupa.get i = getElem pupa i.val i.isLt := rfl

theorem Pupa.getElem_trimTo (pupa : Pupa) (k : Nat) {i : Nat} (h : i < MEMBER) :
    (pupa.trimTo k)[i] = if i < k then pupa[i].trimmed else pupa[i] := by
  simp [trimTo]

theorem Pupa.Terminated.trimTo {pupa : Pupa} (h : pupa.Terminated) (k : Nat) :
    (pupa.trimTo k).Terminated := by
  intro i hi
  rw [getElem_trimTo]
  split
  · exact (h i hi).trimmed
  · exact h i hi

theorem Pupa.id_trimTo {pupa : Pupa} (h : pupa.Terminated) (k : Nat) {i : Nat} (hi : i < MEMBER) :
    (pupa.trimTo k)[i].id = pupa[i].id := by
  rw [getElem_trimTo]
  split
  · exact Rfid.id_trimmed (h i hi)
  · rfl

theorem Pupa.name_trimTo {pupa : Pupa} (h : pupa.Terminated) (k : Nat) {i : Nat}
    (hi : i < MEMBER) : (pupa.trimTo k)[i].name = pupa[i].name := by
  rw [getElem_trimTo]
  split
  · exact Rfid.name_trimmed (h i hi)
  · rfl

@[simp] theorem Pupa.trimTo_zero (pupa : Pupa) : pupa.trimTo 0 = pupa := by
  ext i hi
  simp [getElem_trimTo]

/-- Visiting the next slot extends the trimmed part by one. -/
theorem Pupa.trimTo_set (pupa : Pupa) {i : Nat} (h : i < MEMBER) :
    (pupa.trimTo i).set i pupa[i].trimmed = pupa.trimTo (i + 1) := by
  ext j hj
  rw [Vector.getElem_set, getElem_trimTo, getElem_trimTo]
  by_cases hij : i = j
  · subst hij
    simp
  · rw [if_neg hij]
    by_cases hlt : j < i
    · rw [if_pos hlt, if_pos (by omega)]
    · rw [if_neg hlt, if_neg (by omega)]

attribute [irreducible] Pupa.trimTo

theorem Pupa.lookup_eq_some {pupa : Pupa} {user : Bytes} {k : Fin MEMBER} :
    pupa.lookup user = some k ↔
      (pupa.get k).Matches user ∧ ∀ j (_ : j < k.val), ¬ pupa[j].Matches user := by
  rw [lookup, List.find?_eq_some_iff_getElem]
  constructor
  · rintro ⟨hk, i, hi, hik, hbefore⟩
    have hval : i = k.val := by simpa using congrArg Fin.val hik
    subst hval
    refine ⟨by simpa using hk, fun j hj => ?_⟩
    simpa using hbefore j hj
  · rintro ⟨hk, hbefore⟩
    refine ⟨by simpa using hk, k.val, by simp, by simp, fun j hj => ?_⟩
    simpa using hbefore j hj

theorem Pupa.lookup_eq_none {pupa : Pupa} {user : Bytes} :
    pupa.lookup user = none ↔ ∀ i (h : i < MEMBER), ¬ pupa[i].Matches user := by
  rw [lookup, List.find?_eq_none]
  constructor
  · intro h i hi
    simpa using h ⟨i, hi⟩ (List.mem_finRange _)
  · intro h i _
    simpa using h i.val i.isLt

/-- What `isUser` answers and leaves behind. -/
def Pupa.searched (pupa : Pupa) (user : Bytes) : Int × Pupa :=
  match pupa.lookup user with
  | some k => (k.val, pupa.trimTo (k.val + 1))
  | none => (-1, pupa.trimTo MEMBER)

/-- A lookup trims the slots up to some slot. -/
theorem Pupa.searched_trimTo (pupa : Pupa) (user : Bytes) :
    ∃ k, (pupa.searched user).2 = pupa.trimTo k := by
  rw [searched]
  split
  · exact ⟨_, rfl⟩
  · exact ⟨_, rfl⟩

/-- The loop of `isUser` with the slots below `i` visited and not matching. -/
theorem searchLoop_eq {pupa : Pupa} (hp : pupa.Terminated) {user : Bytes}
    (hu : Terminated user) (left i : Nat) (hleft : left + i = MEMBER)
    (hbefore : ∀ j (h : j < MEMBER), j < i → ¬ pupa[j].Matches (content user)) :
    searchLoop user left i (pupa.trimTo i) = .ok (pupa.searched (content user)) := by
  induction left generalizing i with
  | zero =>
    have hnone : pupa.lookup (content user) = none :=
      Pupa.lookup_eq_none.mpr fun j hj => hbefore j hj (by omega)
    have hi : i = MEMBER := by omega
    rw [searchLoop, Pupa.searched, hnone, hi]
  | succ left ih =>
    have hi : i < MEMBER := by omega
    have hslot : (pupa.trimTo i)[i] = pupa[i] := by simp [Pupa.getElem_trimTo]
    have hid := (hp i hi).id
    have hname := (hp i hi).name
    have hfields : pupa[i].trimmed = ⟨trimAt pupa[i].memberId 0, trimAt pupa[i].memberName 0⟩ := rfl
    rw [searchLoop, dif_pos hi, hslot, trimwhitespace_eq _ 0 hname, trimwhitespace_eq _ 0 hid]
    simp only [bind, Except.bind]
    rw [streq_eq (terminated_trimAt_ptr (p := 0) hid) hu,
      streq_eq (terminated_trimAt_ptr (p := 0) hname) hu,
      streq_eq (terminated_trimAt_ptr (p := 0) hid) (b := [0]) (by decide),
      content_trimAt_ptr (p := 0) hid, content_trimAt_ptr (p := 0) hname, ← hfields,
      Pupa.trimTo_set pupa hi]
    by_cases hm : pupa[i].Matches (content user)
    · have hsome : pupa.lookup (content user) = some ⟨i, hi⟩ :=
        Pupa.lookup_eq_some.mpr ⟨hm, fun j hj => hbefore j _ hj⟩
      have hcond : (decide (pupa[i].id = content user) || decide (pupa[i].name = content user)) &&
          !decide (pupa[i].id = []) := by
        simpa [Rfid.Matches, Rfid.Occupied] using hm
      rw [Pupa.searched, hsome]
      exact if_pos hcond
    · have hcond : ¬ ((decide (pupa[i].id = content user) ||
          decide (pupa[i].name = content user)) && !decide (pupa[i].id = [])) := by
        simpa [Rfid.Matches, Rfid.Occupied] using hm
      refine (if_neg hcond).trans (ih (i + 1) (by omega) fun j hj hlt => ?_)
      rcases Nat.lt_succ_iff_lt_or_eq.mp hlt with hlt | rfl
      · exact hbefore j hj hlt
      · exact hm

/-- A lookup succeeds on a terminated argument only. -/
theorem terminated_of_isUser {n : Nat} {pupa : Pupa} {str : Vector UInt8 n} {p : Nat}
    {r : Int × Pupa × Vector UInt8 n} (h : isUser pupa str p = .ok r) :
    Terminated (str.toList.drop p) := by
  obtain ⟨_, htrim, -⟩ := bind_eq_ok.mp h
  exact terminated_of_trimwhitespace htrim

/-- The lookup on a terminated table with a terminated argument. -/
theorem isUser_eq {n : Nat} {pupa : Pupa} (hp : pupa.Terminated) {str : Vector UInt8 n} {p : Nat}
    (hs : Terminated (str.toList.drop p)) :
    isUser pupa str p = .ok ((pupa.searched (strip (content (str.toList.drop p)))).1,
      (pupa.searched (strip (content (str.toList.drop p)))).2, trimAt str p) := by
  have hloop := searchLoop_eq hp (terminated_trimAt_ptr hs) MEMBER 0 rfl
    (fun j _ hlt => absurd hlt (Nat.not_lt_zero j))
  rw [Pupa.trimTo_zero, content_trimAt_ptr hs] at hloop
  rw [isUser, trimwhitespace_eq _ _ hs]
  change (searchLoop _ MEMBER 0 pupa >>= _) = _
  rw [hloop]
  rfl

end SmartDoor
