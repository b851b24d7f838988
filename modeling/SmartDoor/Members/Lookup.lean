import SmartDoor.Members.Table
import SmartDoor.Run.Guarded
import Mathlib.Order.Bounds.Defs
import Mathlib.Logic.Function.Basic

/-!
# Lookups in any order

A lookup trims its argument and the slots that it visits in place, and the sketch makes
several lookups in a row that must answer the same slot. Nothing that a lookup compares
is changed by that: the trimmed text of every slot stays, and so does the trimmed text of
every string in the array of the argument. So each query has one answer, wherever it
stands in a sequence of lookups.
-/

namespace SmartDoor

open CString

/-! ## What a lookup finds -/

/-- A lookup sees the trimmed text of the slots only. -/
theorem Pupa.lookup_congr {pupa pupa' : Pupa}
    (hid : ∀ i : Fin MEMBER, (pupa'.get i).id = (pupa.get i).id)
    (hname : ∀ i : Fin MEMBER, (pupa'.get i).name = (pupa.get i).name) (user : Bytes) :
    pupa'.lookup user = pupa.lookup user := by
  unfold lookup
  congr 1
  funext i
  apply decide_eq_decide.mpr
  rw [Rfid.Matches, Rfid.Matches, Rfid.Occupied, Rfid.Occupied, hid i, hname i]

/-- Trimming the table does not change what a lookup finds. -/
theorem Pupa.lookup_trimTo {pupa : Pupa} (h : pupa.Terminated) (k : Nat) (user : Bytes) :
    (pupa.trimTo k).lookup user = pupa.lookup user :=
  lookup_congr (fun i => id_trimTo h k i.isLt) (fun i => name_trimTo h k i.isLt) user

theorem Pupa.Terminated.searched {pupa : Pupa} (h : pupa.Terminated) (user : Bytes) :
    (pupa.searched user).2.Terminated := by
  obtain ⟨k, hk⟩ := pupa.searched_trimTo user
  rw [hk]
  exact h.trimTo k

theorem Pupa.lookup_searched {pupa : Pupa} (h : pupa.Terminated) (user wanted : Bytes) :
    (pupa.searched user).2.lookup wanted = pupa.lookup wanted := by
  obtain ⟨k, hk⟩ := pupa.searched_trimTo user
  rw [hk]
  exact lookup_trimTo h k wanted

theorem Pupa.Terminated.id_searched {pupa : Pupa} (h : pupa.Terminated) (user : Bytes)
    (i : Fin MEMBER) : ((pupa.searched user).2.get i).id = (pupa.get i).id := by
  obtain ⟨k, hk⟩ := pupa.searched_trimTo user
  rw [hk]
  exact id_trimTo h k i.isLt

theorem Pupa.Terminated.name_searched {pupa : Pupa} (h : pupa.Terminated) (user : Bytes)
    (i : Fin MEMBER) : ((pupa.searched user).2.get i).name = (pupa.get i).name := by
  obtain ⟨k, hk⟩ := pupa.searched_trimTo user
  rw [hk]
  exact name_trimTo h k i.isLt

/-- What a lookup must answer: the first slot that matches, or -1 when none does. -/
def Pupa.Answers (pupa : Pupa) (user : Bytes) (member : Int) : Prop :=
  (∃ k : Fin MEMBER, member = k.val ∧
    IsLeast {i : Fin MEMBER | (pupa.get i).Matches user} k) ∨
  (member = -1 ∧ ∀ i : Fin MEMBER, ¬ (pupa.get i).Matches user)

theorem Pupa.answers_searched (pupa : Pupa) (user : Bytes) :
    pupa.Answers user (pupa.searched user).1 := by
  rw [searched]
  cases hl : pupa.lookup user with
  | some k =>
    obtain ⟨hmatch, hbefore⟩ := lookup_eq_some.mp hl
    refine Or.inl ⟨k, rfl, hmatch, fun i hi => ?_⟩
    by_contra hlt
    exact hbefore i.val (not_le.mp hlt) hi
  | none => exact Or.inr ⟨rfl, fun i => lookup_eq_none.mp hl i.val i.isLt⟩

/-! ## Sequences of lookups -/

variable {ι : Type} {size : ι → Nat}

/-- The table, and the arrays that hold the arguments of the lookups. -/
structure Lookups (ι : Type) (size : ι → Nat) where
  pupa : Pupa
  str : (i : ι) → Vector UInt8 (size i)

/-- A query: the array of its argument, and where the argument starts there. -/
abbrev Query (ι : Type) := ι × Nat

namespace Lookups

/-- The memory from the argument of a query on. -/
def memory (s : Lookups ι size) (q : Query ι) : Bytes := (s.str q.1).toList.drop q.2

/-- The trimmed argument of a query. -/
def text (s : Lookups ι size) (q : Query ι) : Bytes := strip (content (s.memory q))

/-- `isUser(str)`, with the argument and the table left as it leaves them. -/
def isUser [DecidableEq ι] (s : Lookups ι size) (q : Query ι) :
    Except Fault (Int × Lookups ι size) := do
  let (member, pupa, str) ← SmartDoor.isUser s.pupa (s.str q.1) q.2
  return (member, ⟨pupa, Function.update s.str q.1 str⟩)

/-- Everything that a lookup compares is in `t` as it was in `s`. -/
structure Same (s t : Lookups ι size) : Prop where
  table : t.pupa.Terminated
  id : ∀ i : Fin MEMBER, (t.pupa.get i).id = (s.pupa.get i).id
  name : ∀ i : Fin MEMBER, (t.pupa.get i).name = (s.pupa.get i).name
  terminated : ∀ q, Terminated (s.memory q) → Terminated (t.memory q)
  text : ∀ q, Terminated (s.memory q) → t.text q = s.text q

theorem Same.refl {s : Lookups ι size} (h : s.pupa.Terminated) : s.Same s where
  table := h
  id _ := rfl
  name _ := rfl
  terminated _ hq := hq
  text _ _ := rfl

/-- One lookup keeps all that lookups compare, and answers by it. -/
theorem Same.isUser [DecidableEq ι] {s t : Lookups ι size} (h : s.Same t) {q : Query ι}
    (hq : Terminated (s.memory q)) :
    ∃ u, t.isUser q = .ok ((s.pupa.searched (s.text q)).1, u) ∧ s.Same u := by
  have hrun := isUser_eq h.table (p := q.2) (h.terminated q hq)
  have htext : strip (content ((t.str q.1).toList.drop q.2)) = s.text q := h.text q hq
  have hanswer : (t.pupa.searched (s.text q)).1 = (s.pupa.searched (s.text q)).1 := by
    rw [Pupa.searched, Pupa.searched, Pupa.lookup_congr h.id h.name]
    cases s.pupa.lookup (s.text q) <;> rfl
  refine ⟨⟨(t.pupa.searched (s.text q)).2, Function.update t.str q.1 (trimAt (t.str q.1) q.2)⟩,
    ?_, h.table.searched _, fun i => ?_, fun i => ?_, fun r hr => ?_, fun r hr => ?_⟩
  · rw [Lookups.isUser, hrun, ok_bind, htext, hanswer]
    rfl
  · rw [h.table.id_searched, h.id]
  · rw [h.table.name_searched, h.name]
  · have hterm := h.terminated r hr
    obtain ⟨i, p⟩ := r
    by_cases hi : i = q.1
    · subst hi
      simp only [memory, Function.update_self]
      exact terminated_trimAt_other hterm
    · simpa only [memory, Function.update_of_ne hi] using hterm
  · have hterm := h.terminated r hr
    rw [← h.text r hr]
    obtain ⟨i, p⟩ := r
    by_cases hi : i = q.1
    · subst hi
      simp only [Lookups.text, memory, Function.update_self]
      exact strip_content_trimAt_other hterm
    · simp only [Lookups.text, memory, Function.update_of_ne hi]

end Lookups

/-- On a table of strings every query has one answer, the first slot that matches its
trimmed argument, or -1. In every sequence of lookups each gives that answer, and all
trimmed ids, names and arguments stay as they are. -/
theorem lookup_specification [DecidableEq ι] {s : Lookups ι size} (hs : s.pupa.Terminated) :
    ∃ answer : Query ι → Int,
      (∀ q, Terminated (s.memory q) → s.pupa.Answers (s.text q) (answer q)) ∧
      ∀ queries : List (Query ι), (∀ q ∈ queries, Terminated (s.memory q)) →
        ∃ t, Run.ask Lookups.isUser s queries = .ok (queries.map answer, t) ∧ s.Same t :=
  ⟨fun q => (s.pupa.searched (s.text q)).1, fun q _ => s.pupa.answers_searched (s.text q),
    fun _ hqueries => Run.ask_eq (fun hq h => h.isUser (hqueries _ hq)) (Lookups.Same.refl hs)⟩

/-- The name and the id of the member in slot 2, in one array, and a string that names no
member, looked up in turn. -/
theorem lookup_specification_of_three : ∃ t,
    Run.ask Lookups.isUser (⟨Pupa.zero.set 2 ⟨overlay (.replicate 12 0) [65, 49, 13],
        overlay (.replicate 15 0) [66, 13]⟩, fun b => overlay (.replicate 8 0)
          (if b then [32, 66, 13, 0, 65, 49, 10] else [32, 65])⟩ : Lookups Bool fun _ => 8)
      [(true, 0), (false, 1), (true, 4)] = .ok ([2, -1, 2], t) := by
  let slot : Rfid := ⟨overlay (.replicate 12 0) [65, 49, 13], overlay (.replicate 15 0) [66, 13]⟩
  let s : Lookups Bool fun _ => 8 := ⟨Pupa.zero.set 2 slot, fun b => overlay (.replicate 8 0)
    (if b then [32, 66, 13, 0, 65, 49, 10] else [32, 65])⟩
  have hs : s.pupa.Terminated := by
    intro i hi
    change ((Pupa.zero.set 2 slot)[i]).Terminated
    rw [Vector.getElem_set]
    split
    · exact ⟨by decide, by decide⟩
    · rw [Pupa.zero, Vector.getElem_replicate]
      exact ⟨by decide, by decide⟩
  have hqueries : ∀ q ∈ [(true, 0), (false, 1), (true, 4)], Terminated (s.memory q) := by decide
  obtain ⟨answer, -, hall⟩ := lookup_specification hs
  obtain ⟨t, ht, -⟩ := hall _ hqueries
  have hrun : (Run.ask Lookups.isUser s [(true, 0), (false, 1), (true, 4)]).map Prod.fst =
      .ok [2, -1, 2] := by
    decide +kernel
  rw [ht] at hrun
  have hanswers : [(true, 0), (false, 1), (true, 4)].map answer = [2, -1, 2] :=
    Except.ok.inj hrun
  rw [hanswers] at ht
  exact ⟨t, ht⟩

end SmartDoor
