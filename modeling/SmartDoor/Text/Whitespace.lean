import SmartDoor.Memory.Strings
import SmartDoor.Text.Decimal

/-!
# `trimwhitespace`

The source trims a string in its own buffer: it answers a pointer past the
leading white space and stores a NUL after the last character that is kept. On
terminated memory the result is the trimmed content, and nothing but the byte
after the kept part is written.
-/

namespace SmartDoor

open CString

/-- `isspace` of the C library: blank, and the control characters 9 to 13. -/
def isspace (c : UInt8) : Bool := c = 32 ∨ (9 ≤ c ∧ c ≤ 13)

@[simp] theorem isspace_zero : isspace 0 = false := by decide

/-- `while(isspace(*str)) str++`, on the memory from `str` on. -/
def skipSpace : Bytes → Nat → Except Fault Nat
  | [], _ => .error .overread
  | c :: m, str => if isspace c then skipSpace m (str + 1) else .ok str

/-- `while(end > str && isspace(*end)) end--`; every byte read lies in the string. -/
def backSpace (m : Bytes) (str : Nat) : Nat → Nat
  | 0 => 0
  | e + 1 => if e + 1 > str ∧ isspace (m.getD (e + 1) 0) then backSpace m str e else e + 1

/-- `trimwhitespace(str)` for a pointer into an array: the array afterwards and
the pointer that is returned. -/
def trimwhitespace {n : Nat} (mem : Vector UInt8 n) (str : Nat) :
    Except Fault (Vector UInt8 n × Nat) := do
  let str ← skipSpace (mem.toList.drop str) str
  if mem.toList.getD str 0 = 0 then return (mem, str)
  let len ← strlen (mem.toList.drop str)
  let e := backSpace mem.toList str (str + len - 1)
  let mem ← store mem (e + 1) 0
  return (mem, str)

/-! ## What trimming leaves -/

/-- The trimmed text of a string. -/
abbrev strip (s : Bytes) : Bytes := trim isspace s

/-- The array after `trimwhitespace` of the string at `str`. -/
def trimAt {n : Nat} (mem : Vector UInt8 n) (str : Nat) : Vector UInt8 n :=
  let s := content (mem.toList.drop str)
  if s.all isspace then mem else mem.setIfInBounds (str + (s.rdropWhile isspace).length) 0

/-- Trimming keeps the NULs. -/
theorem getElem_trimAt_zero {n : Nat} {v : Vector UInt8 n} {str i : Nat} {h : i < n}
    (h0 : v[i] = 0) : (trimAt v str)[i] = 0 := by
  rw [trimAt]
  split
  · exact h0
  · rw [Vector.getElem_setIfInBounds, h0, ite_self]

theorem skipSpace_eq {m : Bytes} (h : Terminated m) (str : Nat) :
    skipSpace m str = .ok (str + ((content m).takeWhile isspace).length) := by
  induction m generalizing str with
  | nil => cases h
  | cons c m ih =>
    by_cases hc : c = 0
    · subst hc
      simp [skipSpace, content]
    · have hm : Terminated m := (List.mem_cons.mp h).resolve_left (Ne.symm hc)
      have hcont : content (c :: m) = c :: content m := by simp [content, hc]
      by_cases hs : isspace c = true
      · rw [skipSpace, if_pos hs, ih hm, hcont, List.takeWhile_cons_of_pos hs, List.length_cons]
        congr 1
        omega
      · rw [skipSpace, if_neg hs, hcont, List.takeWhile_cons_of_neg hs, List.length_nil,
          Nat.add_zero]

/-- The backward loop stops on the last character that is kept. It is followed
over the prefixes of the string, whose first character is not a space. -/
theorem backSpace_eq (m : Bytes) (str : Nat) {c : UInt8} {u : Bytes} (hc : isspace c = false)
    (hu : ∀ i (hi : i < (c :: u).length), m.getD (str + i) 0 = (c :: u)[i]) {k : Nat}
    (hk : k ≤ u.length) :
    backSpace m str (str + k) + 1 = str + (((c :: u).take (k + 1)).rdropWhile isspace).length := by
  induction k with
  | zero =>
    have hbase : backSpace m str str = str := by
      cases str with
      | zero => rfl
      | succ str => simp [backSpace]
    have hone : ((c :: u).take 1).rdropWhile isspace = [c] := by
      simp [List.rdropWhile_singleton, hc]
    change backSpace m str str + 1 = str + (((c :: u).take 1).rdropWhile isspace).length
    rw [hbase, hone, List.length_singleton]
  | succ k ih =>
    have hlt : k + 1 < (c :: u).length := by simpa using Nat.succ_lt_succ hk
    have htake : (c :: u).take (k + 1 + 1) = (c :: u).take (k + 1) ++ [(c :: u)[k + 1]] :=
      (List.take_concat_get' ..).symm
    have hread := hu (k + 1) hlt
    rw [htake, ← Nat.add_assoc, backSpace]
    rw [← Nat.add_assoc] at hread
    by_cases hs : isspace (c :: u)[k + 1] = true
    · rw [if_pos ⟨by omega, by rw [hread]; exact hs⟩, List.rdropWhile_concat_pos _ _ _ hs]
      exact ih (by omega)
    · rw [if_neg fun hcond => hs (by rw [← hread]; exact hcond.2),
        List.rdropWhile_concat_neg _ _ _ hs]
      have hl : ((c :: u).take (k + 1)).length = k + 1 := by
        rw [List.length_take]
        omega
      rw [List.length_append, hl, List.length_singleton]
      omega

/-- The string past its leading white space. -/
theorem content_skipped {m : Bytes} (h : Terminated m) :
    content (m.drop ((content m).takeWhile isspace).length) = (content m).dropWhile isspace ∧
      Terminated (m.drop ((content m).takeWhile isspace).length) := by
  have hle : ((content m).takeWhile isspace).length ≤ (content m).length :=
    (List.takeWhile_sublist _).length_le
  refine ⟨?_, h.drop hle⟩
  rw [content_drop hle]
  calc (content m).drop ((content m).takeWhile isspace).length
      = ((content m).takeWhile isspace ++ (content m).dropWhile isspace).drop
          ((content m).takeWhile isspace).length := by rw [List.takeWhile_append_dropWhile]
    _ = (content m).dropWhile isspace := List.drop_left

/-- The first character that is not skipped. -/
theorem isspace_of_dropWhile {s u : Bytes} {c : UInt8} (h : s.dropWhile isspace = c :: u) :
    isspace c = false := by
  have hpos : 0 < (s.dropWhile isspace).length := by simp [h]
  have hhead := List.dropWhile_eq_self_iff.mp (List.dropWhile_idempotent isspace s) hpos
  simpa [h] using hhead

/-- On a terminated string `trimwhitespace` does not fault. -/
theorem trimwhitespace_eq {n : Nat} (mem : Vector UInt8 n) (str : Nat)
    (h : Terminated (mem.toList.drop str)) :
    trimwhitespace mem str = .ok (trimAt mem str,
      str + ((content (mem.toList.drop str)).takeWhile isspace).length) := by
  have hlen := h.length_content_lt
  simp only [List.length_drop, Vector.length_toList] at hlen
  obtain ⟨hrest, hterm⟩ := content_skipped h
  rw [List.drop_drop] at hrest hterm
  rw [trimwhitespace, skipSpace_eq h, trimAt]
  generalize hs : content (mem.toList.drop str) = s at hlen hrest hterm ⊢
  generalize hl : (s.takeWhile isspace).length = lead at hrest hterm ⊢
  change (if mem.toList.getD (str + lead) 0 = 0 then _ else _) = _
  obtain ⟨tail, htail⟩ := hterm.split
  rw [hrest] at htail
  have hhead : ∀ i, mem.toList.getD (str + lead + i) 0 =
      (s.dropWhile isspace ++ 0 :: tail).getD i 0 := fun i => by
    rw [← htail]
    simp [List.getD_eq_getElem?_getD]
  cases hd : s.dropWhile isspace with
  | nil =>
    have hzero : mem.toList.getD (str + lead) 0 = 0 := by simpa [hd] using hhead 0
    have hall : s.all isspace = true := List.all_eq_true.mpr (List.dropWhile_eq_nil_iff.mp hd)
    rw [if_pos hzero, if_pos hall]
    rfl
  | cons c u =>
    have hread : mem.toList.getD (str + lead) 0 ≠ 0 := by
      have hmem : c ∈ s := (List.dropWhile_sublist _).mem (by rw [hd]; exact List.mem_cons_self ..)
      have hfirst := hhead 0
      simp only [hd, Nat.add_zero] at hfirst
      rw [hfirst]
      exact ne_of_mem_of_not_mem hmem (hs ▸ zero_notMem_content _)
    have hsome : ¬ ∀ x ∈ s, isspace x := fun hall => by
      rw [List.dropWhile_eq_nil_iff.mpr hall] at hd
      cases hd
    -- the backward loop runs over the letters `c :: u` that are left
    have hback := backSpace_eq mem.toList (str + lead) (u := u) (isspace_of_dropWhile hd)
      (fun i hi => by
        rw [hhead, hd, List.getD_eq_getElem?_getD, List.getElem?_append_left hi,
          List.getElem?_eq_getElem hi]
        rfl) (le_refl u.length)
    have hcut : str + lead + ((c :: u).rdropWhile isspace).length =
        str + (s.rdropWhile isspace).length := by
      have hjoin := congrArg List.length (takeWhile_append_trim isspace hsome)
      rw [trim, hd, List.length_append, hl] at hjoin
      omega
    rw [if_neg hread, strlen_eq hterm, hrest, hd]
    change (store mem (backSpace mem.toList (str + lead) (str + lead + (u.length + 1) - 1) + 1) 0
      >>= fun mem => pure (mem, str + lead)) = _
    rw [List.take_of_length_le (by simp), hcut] at hback
    rw [show str + lead + (u.length + 1) - 1 = str + lead + u.length by omega, hback]
    have hin : str + (s.rdropWhile isspace).length < n := by
      have hpre : (s.rdropWhile isspace).length ≤ s.length :=
        (List.rdropWhile_prefix isspace s).length_le
      omega
    have hset : mem.set (str + (s.rdropWhile isspace).length) 0 hin =
        mem.setIfInBounds (str + (s.rdropWhile isspace).length) 0 := by
      ext j hj
      simp [Vector.getElem_set, Vector.getElem_setIfInBounds]
    rw [store_of_lt hin, if_neg fun hall => hsome (List.all_eq_true.mp hall), ← hset]
    rfl

/-- Where the forward loop stops, if it does. -/
theorem skipSpace_lt {m : Bytes} {p q : Nat} (h : skipSpace m p = .ok q) :
    ∃ j, q = p + j ∧ j < m.length := by
  induction m generalizing p with
  | nil => cases h
  | cons c m ih =>
    rw [skipSpace] at h
    split at h
    · obtain ⟨j, rfl, hj⟩ := ih h
      exact ⟨j + 1, by omega, by simpa using hj⟩
    · exact ⟨0, (Except.ok.inj h).symm, by simp⟩

/-- `trimwhitespace` succeeds on terminated strings only. -/
theorem terminated_of_trimwhitespace {n : Nat} {mem : Vector UInt8 n} {str : Nat}
    {r : Vector UInt8 n × Nat} (h : trimwhitespace mem str = .ok r) :
    Terminated (mem.toList.drop str) := by
  rw [trimwhitespace] at h
  obtain ⟨q, hq, h⟩ := bind_eq_ok.mp h
  obtain ⟨j, rfl, hj⟩ := skipSpace_lt hq
  rw [List.length_drop, Vector.length_toList] at hj
  have hin : str + j < mem.toList.length := by
    rw [Vector.length_toList]
    omega
  have hsub : ∀ c ∈ mem.toList.drop (str + j), c ∈ mem.toList.drop str := fun c hc => by
    rw [← List.drop_drop] at hc
    exact List.mem_of_mem_drop hc
  split at h
  · rename_i hzero
    rw [List.getD_eq_getElem?_getD, List.getElem?_eq_getElem hin, Option.getD_some] at hzero
    refine hsub 0 ?_
    rw [List.drop_eq_getElem_cons hin, hzero]
    exact List.mem_cons_self ..
  · obtain ⟨len, hlen, -⟩ := bind_eq_ok.mp h
    exact hsub 0 (terminated_of_strlen hlen)

/-- A NUL behind which the string goes on with white space only changes the trimmed text of
no string that reaches there. -/
theorem strip_content_set {m : Bytes} {k q : Nat} (hk : ∀ c ∈ content (m.drop k), isspace c)
    (hq : Terminated (m.drop q)) :
    strip (content ((m.set k 0).drop q)) = strip (content (m.drop q)) := by
  rw [List.drop_set]
  split
  · rfl
  · rename_i hkq
    obtain ⟨j, rfl⟩ : ∃ j, k = q + j := ⟨k - q, by omega⟩
    rw [Nat.add_sub_cancel_left]
    rw [← List.drop_drop] at hk
    generalize m.drop q = l at hk hq ⊢
    by_cases hj : j ≤ (content l).length
    · rw [content_drop hj] at hk
      rw [content_set_zero hq hj]
      calc strip ((content l).take j) = strip ((content l).take j ++ (content l).drop j) :=
            (trim_append_pad isspace hk).symm
        _ = strip (content l) := by rw [List.take_append_drop]
    · obtain ⟨rest, hl⟩ := hq.split
      obtain ⟨i, rfl⟩ : ∃ i, j = (content l).length + (i + 1) :=
        ⟨j - (content l).length - 1, by omega⟩
      have hset : l.set ((content l).length + (i + 1)) 0 = content l ++ 0 :: rest.set i 0 := by
        refine (congrArg (List.set · _ 0) hl).trans ?_
        rw [List.set_append_right _ _ (by omega), Nat.add_sub_cancel_left, List.set_cons_succ]
      rw [hset, content_append_zero (zero_notMem_content l)]

theorem terminated_set {m : Bytes} (k : Nat) {q : Nat} (hq : Terminated (m.drop q)) :
    Terminated ((m.set k 0).drop q) := by
  rw [List.drop_set]
  split
  · exact hq
  · by_cases hk : k - q < (m.drop q).length
    · exact List.mem_set hk 0
    · rw [List.set_eq_of_length_le (by omega)]
      exact hq

section Effect

variable {n : Nat} {mem : Vector UInt8 n} {p : Nat}

/-- Behind the kept part stands white space, up to the NUL. -/
theorem isspace_behind_kept : ∀ c ∈ content (mem.toList.drop
    (p + ((content (mem.toList.drop p)).rdropWhile isspace).length)), isspace c := by
  have hpre := (List.rdropWhile_prefix isspace (content (mem.toList.drop p))).length_le
  rw [← List.drop_drop, content_drop hpre]
  generalize content (mem.toList.drop p) = s
  intro c hc
  have hsplit : s.drop (s.rdropWhile isspace).length = s.rtakeWhile isspace := by
    calc s.drop (s.rdropWhile isspace).length
        = (s.rdropWhile isspace ++ s.rtakeWhile isspace).drop (s.rdropWhile isspace).length := by
          rw [List.rdropWhile_append_rtakeWhile]
      _ = s.rtakeWhile isspace := List.drop_left
  rw [hsplit] at hc
  exact List.mem_rtakeWhile_imp hc

/-- Trimming in place does not change the trimmed text of any string of the array. -/
theorem strip_content_trimAt_other {q : Nat} (hq : Terminated (mem.toList.drop q)) :
    strip (content ((trimAt mem p).toList.drop q)) = strip (content (mem.toList.drop q)) := by
  rw [trimAt]
  split
  · rfl
  · rw [Vector.toList_setIfInBounds]
    exact strip_content_set isspace_behind_kept hq

theorem terminated_trimAt_other {q : Nat} (hq : Terminated (mem.toList.drop q)) :
    Terminated ((trimAt mem p).toList.drop q) := by
  rw [trimAt]
  split
  · exact hq
  · rw [Vector.toList_setIfInBounds]
    exact terminated_set _ hq

variable (h : Terminated (mem.toList.drop p))

include h

theorem content_trimAt : content ((trimAt mem p).toList.drop p) =
    if (content (mem.toList.drop p)).all isspace then content (mem.toList.drop p)
    else (content (mem.toList.drop p)).rdropWhile isspace := by
  have hlen := h.length_content_lt
  have hpre := List.rdropWhile_prefix isspace (content (mem.toList.drop p))
  simp only [List.length_drop, Vector.length_toList] at hlen
  rw [trimAt]
  split
  · rfl
  · rw [Vector.toList_setIfInBounds, List.drop_set, if_neg (by omega), Nat.add_sub_cancel_left,
      content_set_zero h hpre.length_le]
    exact (List.prefix_iff_eq_take.mp hpre).symm

theorem strip_content_trimAt :
    strip (content ((trimAt mem p).toList.drop p)) = strip (content (mem.toList.drop p)) :=
  strip_content_trimAt_other h

theorem terminated_trimAt : Terminated ((trimAt mem p).toList.drop p) :=
  terminated_trimAt_other h

/-- The pointer that `trimwhitespace` returns points at the trimmed text. -/
theorem content_trimAt_ptr :
    content ((trimAt mem p).toList.drop
      (p + ((content (mem.toList.drop p)).takeWhile isspace).length)) =
      strip (content (mem.toList.drop p)) := by
  have hc := content_trimAt h
  rw [← List.drop_drop]
  generalize content (mem.toList.drop p) = s at hc ⊢
  split at hc
  · rename_i hall
    have hall := List.all_eq_true.mp hall
    rw [List.takeWhile_eq_self_iff.mpr hall, content_drop (by rw [hc]), hc, List.drop_length]
    exact ((trim_eq_nil isspace).mpr hall).symm
  · rename_i hall
    have hsome : ¬ ∀ x ∈ s, isspace x := fun hs => hall (List.all_eq_true.mpr hs)
    rw [← takeWhile_append_trim isspace hsome] at hc
    rw [content_drop (by rw [hc]; simp), hc, List.drop_left]

theorem terminated_trimAt_ptr :
    Terminated ((trimAt mem p).toList.drop
      (p + ((content (mem.toList.drop p)).takeWhile isspace).length)) := by
  have hc := content_trimAt h
  rw [← List.drop_drop]
  apply (terminated_trimAt h).drop
  rw [hc]
  split
  · exact (List.takeWhile_sublist _).length_le
  · rename_i hall
    have hsome : ¬ ∀ x ∈ content (mem.toList.drop p), isspace x :=
      fun hs => hall (List.all_eq_true.mpr hs)
    rw [← takeWhile_append_trim isspace hsome]
    simp

/-- Trimming again writes nothing new. -/
theorem trimAt_trimAt : trimAt (trimAt mem p) p = trimAt mem p := by
  have hc := content_trimAt h
  by_cases hall : (content (mem.toList.drop p)).all isspace
  · have hmem : trimAt mem p = mem := by rw [trimAt, if_pos hall]
    rw [hmem, hmem]
  · have hkeep : ¬ ((content (mem.toList.drop p)).rdropWhile isspace).all isspace := by
      intro hall'
      have hnil := (trim_eq_nil isspace).mpr (List.all_eq_true.mp hall')
      rw [trim_rdropWhile, trim_eq_nil] at hnil
      exact hall (List.all_eq_true.mpr hnil)
    rw [if_neg hall] at hc
    rw [trimAt, hc, if_neg hkeep, List.rdropWhile_idempotent, trimAt, if_neg hall]
    ext i hi
    simp only [Vector.getElem_setIfInBounds]
    split <;> rfl

end Effect

end SmartDoor
