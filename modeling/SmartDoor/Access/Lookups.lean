import SmartDoor.Access.Sketch
import SmartDoor.Card.Commands
import SmartDoor.Members.Lookup

/-!
# Lookups of the card reader

While `code` and every field of the table are terminated, no lookup faults, and none
changes what a lookup finds: the trimmed code and the trimmed table stay as they were.
-/

namespace SmartDoor

open CString

namespace Sketch

/-- The code as `isUser` compares it. -/
def presented (s : Sketch) : Bytes := strip (content s.code.toList)

/-- All strings that the sketch looks at are terminated. -/
structure Strings (s : Sketch) : Prop where
  code : Terminated s.code.toList
  pupa : s.store.pupa.Terminated

/-- From `s` to `t` only lookups, displays, waits and log records were made. -/
structure Quiet (s t : Sketch) : Prop where
  strings : t.Strings
  presented : t.presented = s.presented
  lookup : ∀ user, t.store.pupa.lookup user = s.store.pupa.lookup user
  trace : ∃ fx, t.trace = s.trace ++ fx ∧ ∀ pin level, Effect.digitalWrite pin level ∉ fx

theorem Strings.memory {s : Sketch} (h : s.Strings) (text : Str) : Terminated (s.memory text) := by
  cases text with
  | literal text => exact List.mem_append_right _ (List.mem_singleton_self 0)
  | code => exact h.code
  | memberName i => exact (h.pupa i.val i.isLt).name

/-- The sketch after `isUser((char*)code)`. -/
def searched (s : Sketch) : Sketch :=
  { s with
    store := { s.store with pupa := (s.store.pupa.searched s.presented).2 }
    code := trimAt s.code 0 }

/-- `isUser((char*)code)` answers the first slot that the presented code matches. -/
theorem Strings.isUserCode {s : Sketch} (h : s.Strings) :
    s.isUserCode = .ok ((s.store.pupa.searched s.presented).1, s.searched) := by
  rw [Sketch.isUserCode, isUser_eq h.pupa (p := 0) h.code, ok_bind]
  rfl

theorem Strings.searched {s : Sketch} (h : s.Strings) : s.Quiet s.searched where
  strings := ⟨terminated_trimAt (p := 0) h.code, h.pupa.searched _⟩
  presented := strip_content_trimAt (p := 0) h.code
  lookup _ := Pupa.lookup_searched h.pupa _ _
  trace := ⟨[], (List.append_nil _).symm, fun _ _ => List.not_mem_nil⟩

theorem puts_ok {m : Bytes} (h : Terminated m) : puts m = .ok (content m) := if_pos h

theorem memberName_eq (k : Fin MEMBER) : Sketch.memberName (k.val : Int) = .ok (.memberName k) := by
  rw [Sketch.memberName, dif_pos ⟨by omega, by omega⟩]
  rfl

/-- What the lookup of the presented code answers. -/
theorem answer_of_lookup {s : Sketch} {k : Fin MEMBER}
    (h : s.store.pupa.lookup s.presented = some k) :
    (s.store.pupa.searched s.presented).1 = (k.val : Int) := by
  rw [Pupa.searched, h]

end Sketch

end SmartDoor
