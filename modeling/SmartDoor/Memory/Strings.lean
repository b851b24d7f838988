import SmartDoor.Memory.Trim
import Mathlib.Data.Vector.Basic
import Mathlib.Data.List.Infix

/-!
# Terminated strings in fixed arrays

A string is what an array holds up to its first zero. The string functions work
on a piece of memory from a pointer on; a read that passes the end of the memory
and a write outside an array are faults. On terminated memory every function
here is described by the content of the strings, and arrays that were partly
overwritten are described by `overlay`.
-/

namespace CString

/-- The ways in which a string program leaves its arrays. -/
inductive Fault
  /-- A string function passed the end of an array that has no terminator. -/
  | overread
  /-- A write outside an array. -/
  | overwrite
  deriving DecidableEq, Repr

@[simp] theorem ok_bind {ε β γ : Type} (b : β) (f : β → Except ε γ) :
    (Except.ok b >>= f) = f b := rfl

@[simp] theorem error_bind {ε β γ : Type} (e : ε) (f : β → Except ε γ) :
    (Except.error e >>= f) = .error e := rfl

/-- A bind that succeeds has succeeded twice. -/
theorem bind_eq_ok {ε β γ : Type} {x : Except ε β} {f : β → Except ε γ} {c : γ} :
    (x >>= f) = .ok c ↔ ∃ b, x = .ok b ∧ f b = .ok c := by
  cases x with
  | error e =>
    constructor
    · intro h
      cases h
    · rintro ⟨b, hb, _⟩
      cases hb
  | ok b => exact ⟨fun h => ⟨b, rfl, h⟩, fun ⟨_, hb, h⟩ => by cases hb; exact h⟩

theorem map_eq_ok {ε β γ : Type} {x : Except ε β} {f : β → γ} {c : γ} :
    x.map f = .ok c ↔ ∃ b, x = .ok b ∧ f b = c := by
  cases x with
  | error e =>
    constructor
    · intro h
      cases h
    · rintro ⟨b, hb, _⟩
      cases hb
  | ok b =>
    constructor
    · intro h
      exact ⟨b, rfl, Except.ok.inj h⟩
    · rintro ⟨_, hb, rfl⟩
      cases hb
      rfl

theorem map_eq_error {ε β γ : Type} {x : Except ε β} {f : β → γ} {e : ε} :
    x.map f = .error e ↔ x = .error e := by
  cases x with
  | error e' =>
    constructor <;> intro h <;> cases h <;> rfl
  | ok b =>
    constructor <;> intro h <;> cases h

/-- A bind that fails has failed in one of its two parts. -/
theorem bind_eq_error {ε β γ : Type} {x : Except ε β} {f : β → Except ε γ} {e : ε} :
    (x >>= f) = .error e ↔ x = .error e ∨ ∃ b, x = .ok b ∧ f b = .error e := by
  cases x with
  | error e' =>
    rw [error_bind]
    constructor
    · intro h
      exact Or.inl (by cases h; rfl)
    · rintro (h | ⟨_, hb, _⟩)
      · cases h
        rfl
      · cases hb
  | ok b =>
    rw [ok_bind]
    constructor
    · exact fun h => Or.inr ⟨b, rfl, h⟩
    · rintro (h | ⟨_, hb, h⟩)
      · cases h
      · cases hb
        exact h

variable {α : Type*} {n : Nat}

/-- An array element written in place, if the index is inside. -/
def store (v : Vector α n) (i : Nat) (x : α) : Except Fault (Vector α n) :=
  if h : i < n then .ok (v.set i x h) else .error .overwrite

theorem store_of_lt {v : Vector α n} {i : Nat} (h : i < n) (x : α) :
    store v i x = .ok (v.set i x h) := dif_pos h

theorem store_of_le {v : Vector α n} {i : Nat} (h : n ≤ i) (x : α) :
    store v i x = .error .overwrite := dif_neg (by omega)

/-- The array after its first elements were overwritten by the letters of `w`. -/
def overlay (v : Vector α n) (w : List α) : Vector α n :=
  Vector.ofFn fun i => (w[i.val]?).getD v[i]

@[simp] theorem overlay_nil (v : Vector α n) : overlay v [] = v := by
  ext i hi
  simp [overlay]

theorem getElem_overlay (v : Vector α n) (w : List α) {i : Nat} (hi : i < n) :
    (overlay v w)[i] = (w[i]?).getD v[i] := by simp [overlay]

/-- The next letter is written right after the ones already there. -/
theorem store_overlay (v : Vector α n) (w : List α) (x : α) (h : w.length < n) :
    store (overlay v w) w.length x = .ok (overlay v (w ++ [x])) := by
  rw [store_of_lt h]
  congr 1
  ext i hi
  rw [getElem_overlay, Vector.getElem_set, getElem_overlay, List.getElem?_append]
  split
  · subst i
    simp
  · split
    · rfl
    · rw [List.getElem?_eq_none (by omega), List.getElem?_eq_none (by simp; omega)]

theorem toList_overlay (v : Vector α n) (w : List α) (h : w.length ≤ n) :
    (overlay v w).toList = w ++ v.toList.drop w.length := by
  apply List.ext_getElem
  · simp
    omega
  · intro i h1 h2
    rw [Vector.getElem_toList, getElem_overlay, List.getElem_append]
    split
    · simp [*]
    · rename_i hi
      rw [List.getElem?_eq_none (by omega), Option.getD_none]
      simp only [List.getElem_drop, Vector.getElem_toList]
      congr 1
      omega

section Zero

variable [Zero α] [DecidableEq α]

/-- The string that starts a piece of memory: what comes before the first zero. -/
def content (m : List α) : List α := m.takeWhile (· ≠ 0)

/-- The memory holds a zero, so that a string function stops. -/
def Terminated (m : List α) : Prop := (0 : α) ∈ m

instance (m : List α) : Decidable (Terminated m) := inferInstanceAs (Decidable (_ ∈ _))

theorem content_append_zero {w m : List α} (h : (0 : α) ∉ w) : content (w ++ 0 :: m) = w := by
  have hw : ∀ x ∈ w, decide (x ≠ 0) = true := fun x hx => by
    simpa using ne_of_mem_of_not_mem hx h
  rw [content, List.takeWhile_append_of_pos hw]
  simp

/-- What stands behind a zero does not belong to the string. -/
theorem content_append_terminator (w m : List α) : content (w ++ 0 :: m) = content w := by
  induction w with
  | nil => simp [content]
  | cons x w ih =>
    by_cases hx : x = 0
    · simp [content, hx]
    · simpa [content, hx] using ih

theorem zero_notMem_content (m : List α) : (0 : α) ∉ content m := fun h => by
  simpa using List.mem_takeWhile_imp h

@[simp] theorem content_content (m : List α) : content (content m) = content m :=
  List.takeWhile_eq_self_iff.mpr fun x hx => by
    simpa using ne_of_mem_of_not_mem hx (zero_notMem_content m)

/-- Terminated memory is its string, the terminating zero, and the rest. -/
theorem Terminated.split {m : List α} (h : Terminated m) :
    ∃ rest, m = content m ++ 0 :: rest := by
  induction m with
  | nil => cases h
  | cons x m ih =>
    by_cases hx : x = 0
    · subst hx
      exact ⟨m, by simp [content]⟩
    · have hm : Terminated m := by
        rcases List.mem_cons.mp h with h | h
        · exact absurd h.symm hx
        · exact h
      obtain ⟨rest, hr⟩ := ih hm
      have hc : content (x :: m) = x :: content m := by simp [content, hx]
      exact ⟨rest, by rw [hc, List.cons_append, ← hr]⟩

theorem Terminated.length_content_lt {m : List α} (h : Terminated m) :
    (content m).length < m.length := by
  obtain ⟨rest, hr⟩ := h.split
  have hl := congrArg List.length hr
  simp only [List.length_append, List.length_cons] at hl
  omega

/-- A pointer moved inside a string sees the rest of that string. -/
theorem content_drop {m : List α} {k : Nat} (h : k ≤ (content m).length) :
    content (m.drop k) = (content m).drop k := by
  induction m generalizing k with
  | nil => simp [content]
  | cons x m ih =>
    cases k with
    | zero => rfl
    | succ k =>
      by_cases hx : x = 0
      · simp [content, hx] at h
      · have hc : content (x :: m) = x :: content m := by simp [content, hx]
        rw [hc, List.length_cons] at h
        rw [hc, List.drop_succ_cons, List.drop_succ_cons]
        exact ih (by omega)

theorem Terminated.drop {m : List α} (h : Terminated m) {k : Nat}
    (hk : k ≤ (content m).length) : Terminated (m.drop k) := by
  obtain ⟨rest, hr⟩ := h.split
  rw [hr, List.drop_append_of_le_length hk]
  exact List.mem_append_right _ (List.mem_cons_self ..)

/-- A zero written inside a string, or over its terminator, cuts it there. -/
theorem content_set_zero {m : List α} (h : Terminated m) {k : Nat}
    (hk : k ≤ (content m).length) : content (m.set k 0) = (content m).take k := by
  obtain ⟨rest, hr⟩ := h.split
  have hlen := h.length_content_lt
  have hset : m.set k 0 = (content m).take k ++ 0 :: m.drop (k + 1) := by
    rw [List.set_eq_take_append_cons_drop, if_pos (by omega)]
    congr 1
    rw [hr, content_append_zero (zero_notMem_content _), List.take_append_of_le_length hk]
  rw [hset]
  exact content_append_zero fun h0 => zero_notMem_content m (List.mem_of_mem_take h0)

/-- The string of an array whose beginning was overwritten by a terminated word. -/
theorem content_overlay (v : Vector α n) {w : List α} (h0 : (0 : α) ∉ w) (h : w.length < n) :
    content (overlay v (w ++ [0])).toList = w := by
  rw [toList_overlay _ _ (by simpa using Nat.succ_le_of_lt h), List.append_assoc,
    List.singleton_append]
  exact content_append_zero h0

omit [DecidableEq α] in
theorem terminated_overlay (v : Vector α n) {w : List α} (h : w.length < n) :
    Terminated (overlay v (w ++ [0])).toList := by
  rw [toList_overlay _ _ (by simpa using Nat.succ_le_of_lt h)]
  simp [Terminated]

/-! ## String functions -/

/-- `strlen`, on the memory from the pointer on. -/
def strlen : List α → Except Fault Nat
  | [] => .error .overread
  | x :: m => if x = 0 then .ok 0 else do return (← strlen m) + 1

/-- Whether `strcmp` answers 0. It stops at the first difference. -/
def streq : List α → List α → Except Fault Bool
  | x :: a, y :: b => if x ≠ y then .ok false else if x = 0 then .ok true else streq a b
  | _, _ => .error .overread

/-- The loop of `strcpy`, writing from index `i` on, the terminator included. -/
def strcpyLoop (dst : Vector α n) (i : Nat) : List α → Except Fault (Vector α n)
  | [] => .error .overread
  | x :: src => do
    let dst ← store dst i x
    if x = 0 then return dst else strcpyLoop dst (i + 1) src

/-- `strcpy(dst, src)` -/
def strcpy (dst : Vector α n) (src : List α) : Except Fault (Vector α n) := strcpyLoop dst 0 src

theorem strlen_eq {m : List α} (h : Terminated m) : strlen m = .ok (content m).length := by
  induction m with
  | nil => cases h
  | cons x m ih =>
    by_cases hx : x = 0
    · simp [strlen, content, hx]
    · have hm : Terminated m := (List.mem_cons.mp h).resolve_left (Ne.symm hx)
      simp only [strlen, ih hm, content, ne_eq, hx, not_false_eq_true, decide_true,
        List.takeWhile_cons_of_pos, List.length_cons]
      rfl

/-- Without a terminator `strlen` runs past the end. -/
theorem terminated_of_strlen {m : List α} {k : Nat} (h : strlen m = .ok k) : Terminated m := by
  induction m generalizing k with
  | nil => cases h
  | cons x m ih =>
    by_cases hx : x = 0
    · exact hx ▸ List.mem_cons_self ..
    · rw [strlen, if_neg hx] at h
      obtain ⟨len, hlen, -⟩ := bind_eq_ok.mp h
      exact List.mem_cons_of_mem _ (ih hlen)

/-- On terminated memory the comparison compares the contents. -/
theorem streq_eq {a b : List α} (ha : Terminated a) (hb : Terminated b) :
    streq a b = .ok (decide (content a = content b)) := by
  induction a generalizing b with
  | nil => cases ha
  | cons x a ih =>
    cases b with
    | nil => cases hb
    | cons y b =>
      by_cases hxy : x = y
      · subst hxy
        by_cases hx : x = 0
        · simp [streq, content, hx]
        · have ha' : Terminated a := (List.mem_cons.mp ha).resolve_left (Ne.symm hx)
          have hb' : Terminated b := (List.mem_cons.mp hb).resolve_left (Ne.symm hx)
          simp [streq, hx, ih ha' hb', content]
      · have hne : content (x :: a) ≠ content (y :: b) := by
          by_cases hx : x = 0 <;> by_cases hy : y = 0 <;> simp_all [content]
        simp [streq, hxy, hne]

/-- Comparing with the empty string looks at the first letter only. -/
theorem streq_zero {x : α} {a : List α} (b : List α) :
    streq (x :: a) (0 :: b) = .ok (decide (x = 0)) := by
  by_cases hx : x = 0 <;> simp [streq, hx]

theorem strcpyLoop_eq (dst : Vector α n) (done : List α) {src : List α} (h : Terminated src)
    (hn : done.length + (content src).length < n) :
    strcpyLoop (overlay dst done) done.length src =
      .ok (overlay dst (done ++ content src ++ [0])) := by
  induction src generalizing done with
  | nil => cases h
  | cons x src ih =>
    rw [strcpyLoop, store_overlay _ _ _ (by omega)]
    change (if x = 0 then _ else _) = _
    by_cases hx : x = 0
    · simp [hx, content, pure, Except.pure]
    · have hsrc : Terminated src := (List.mem_cons.mp h).resolve_left (Ne.symm hx)
      have hc : content (x :: src) = x :: content src := by simp [content, hx]
      rw [hc, List.length_cons] at hn
      have hl : done.length + 1 = (done ++ [x]).length := by simp
      rw [if_neg hx, hl, ih _ hsrc (by simp; omega), hc]
      simp

/-- Copying a string that fits overlays the destination with it. -/
theorem strcpy_eq (dst : Vector α n) {src : List α} (h : Terminated src)
    (hn : (content src).length < n) :
    strcpy dst src = .ok (overlay dst (content src ++ [0])) := by
  have hcopy := strcpyLoop_eq dst [] h (by simpa using hn)
  simpa [strcpy] using hcopy

/-- Copying the empty string writes its terminator. -/
theorem strcpy_zero (dst : Vector α n) (hn : 0 < n) :
    strcpy dst [0] = .ok (overlay dst [0]) := by
  have hc : content [(0 : α)] = [] := by simp [content]
  have hcopy := strcpy_eq dst (List.mem_singleton_self (0 : α)) (by rw [hc]; exact hn)
  rwa [hc] at hcopy

end Zero

end CString
