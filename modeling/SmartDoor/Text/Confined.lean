import SmartDoor.Text.Whitespace

/-!
# What `trimwhitespace` touches

The loops of `trimwhitespace` are given once more, each with the accesses that it makes to
the array next to its answer. The answers are those of the plain functions, and every
access lies between the pointer and the NUL that ends the string there. So trimming a
string is exact, stays inside the string, and is done once and for all by the first call.
-/

namespace SmartDoor

open CString

/-- An access to one byte of an array. -/
inductive ByteAccess
  | read (i : Nat)
  | write (i : Nat)
  deriving DecidableEq, Repr

/-- The byte that is accessed. -/
def ByteAccess.position : ByteAccess → Nat
  | read i => i
  | write i => i

/-- All accesses lie between two positions. -/
def Within (first last : Nat) (log : List ByteAccess) : Prop :=
  ∀ a ∈ log, first ≤ a.position ∧ a.position ≤ last

/-! ## The loops with their accesses -/

/-- `skipSpace`, reading each byte once. -/
def skipSpaceLog : Bytes → Nat → Except Fault (Nat × List ByteAccess)
  | [], _ => .error .overread
  | c :: m, str =>
    if isspace c then do
      let (q, log) ← skipSpaceLog m (str + 1)
      return (q, .read str :: log)
    else .ok (str, [.read str])

/-- `strlen` of the string at `str`, reading each byte once. -/
def strlenLog : Bytes → Nat → Except Fault (Nat × List ByteAccess)
  | [], _ => .error .overread
  | c :: m, str =>
    if c = 0 then .ok (0, [.read str])
    else do
      let (len, log) ← strlenLog m (str + 1)
      return (len + 1, .read str :: log)

/-- `backSpace`; `*end` is read only when `end > str`. -/
def backSpaceLog (m : Bytes) (str : Nat) : Nat → Nat × List ByteAccess
  | 0 => (0, [])
  | e + 1 =>
    if e + 1 > str then
      if isspace (m.getD (e + 1) 0) then
        let (last, log) := backSpaceLog m str e
        (last, .read (e + 1) :: log)
      else (e + 1, [.read (e + 1)])
    else (e + 1, [])

/-- `trimwhitespace(str)` with its accesses to the array, in order. -/
def trimwhitespaceLog {n : Nat} (mem : Vector UInt8 n) (str : Nat) :
    Except Fault ((Vector UInt8 n × Nat) × List ByteAccess) := do
  let (str, skipped) ← skipSpaceLog (mem.toList.drop str) str
  if mem.toList.getD str 0 = 0 then return ((mem, str), skipped ++ [.read str])
  let (len, measured) ← strlenLog (mem.toList.drop str) str
  let (e, back) := backSpaceLog mem.toList str (str + len - 1)
  let mem ← store mem (e + 1) 0
  return ((mem, str), skipped ++ .read str :: (measured ++ back ++ [.write (e + 1)]))

/-! ## The answers are those of the plain functions -/

theorem skipSpaceLog_fst (m : Bytes) (str : Nat) :
    (skipSpaceLog m str).map Prod.fst = skipSpace m str := by
  induction m generalizing str with
  | nil => rfl
  | cons c m ih =>
    rw [skipSpaceLog, skipSpace, ← ih]
    split
    · cases skipSpaceLog m (str + 1) <;> rfl
    · rfl

theorem strlenLog_fst (m : Bytes) (str : Nat) : (strlenLog m str).map Prod.fst = strlen m := by
  induction m generalizing str with
  | nil => rfl
  | cons c m ih =>
    rw [strlenLog, strlen, ← ih (str + 1)]
    split
    · rfl
    · cases strlenLog m (str + 1) <;> rfl

theorem backSpaceLog_fst (m : Bytes) (str e : Nat) :
    (backSpaceLog m str e).1 = backSpace m str e := by
  induction e with
  | zero => rfl
  | succ e ih =>
    rw [backSpaceLog, backSpace]
    by_cases hstr : e + 1 > str
    · by_cases hspace : isspace (m.getD (e + 1) 0) = true
      · rw [if_pos hstr, if_pos hspace, if_pos ⟨hstr, hspace⟩, ← ih]
      · rw [if_pos hstr, if_neg hspace, if_neg fun h => hspace h.2]
    · rw [if_neg hstr, if_neg fun h => hstr h.1]

/-- Recording the accesses changes nothing. -/
theorem trimwhitespaceLog_fst {n : Nat} (mem : Vector UInt8 n) (str : Nat) :
    (trimwhitespaceLog mem str).map Prod.fst = trimwhitespace mem str := by
  rw [trimwhitespaceLog, trimwhitespace, ← skipSpaceLog_fst]
  cases skipSpaceLog (mem.toList.drop str) str with
  | error e => rfl
  | ok r =>
    obtain ⟨q, skipped⟩ := r
    by_cases hzero : mem.toList.getD q 0 = 0
    · simp only [Except.map, ok_bind, if_pos hzero]
      rfl
    · have hmap : (Except.ok (q, skipped) : Except Fault _).map Prod.fst = .ok q := rfl
      rw [hmap, ok_bind, ok_bind]
      simp only [if_neg hzero]
      rw [← strlenLog_fst _ q]
      cases strlenLog (mem.toList.drop q) q with
      | error e => rfl
      | ok r =>
        simp only [Except.map, ok_bind, backSpaceLog_fst]
        cases store mem (backSpace mem.toList q (q + r.1 - 1) + 1) 0 <;> rfl

/-! ## The accesses lie in the string -/

theorem Within.mono {first last last' : Nat} {log : List ByteAccess} (h : Within first last log)
    (hle : last ≤ last') : Within first last' log :=
  fun a ha => ⟨(h a ha).1, (h a ha).2.trans hle⟩

theorem skipSpaceLog_within {m : Bytes} {str q : Nat} {log : List ByteAccess}
    (h : skipSpaceLog m str = .ok (q, log)) : str ≤ q ∧ Within str q log := by
  induction m generalizing str q log with
  | nil => cases h
  | cons c m ih =>
    rw [skipSpaceLog] at h
    split at h
    · obtain ⟨⟨q', log'⟩, hrest, h⟩ := bind_eq_ok.mp h
      obtain ⟨rfl, rfl⟩ := Prod.mk.inj (Except.ok.inj h)
      obtain ⟨hle, hin⟩ := ih hrest
      refine ⟨by omega, fun a ha => ?_⟩
      rcases List.mem_cons.mp ha with rfl | ha
      · exact ⟨le_rfl, by simp only [ByteAccess.position]; omega⟩
      · exact ⟨by have := (hin a ha).1; omega, (hin a ha).2⟩
    · obtain ⟨rfl, rfl⟩ := Prod.mk.inj (Except.ok.inj h)
      refine ⟨le_rfl, fun a ha => ?_⟩
      rw [List.mem_singleton.mp ha]
      exact ⟨le_rfl, le_rfl⟩

theorem strlenLog_within {m : Bytes} {str len : Nat} {log : List ByteAccess}
    (h : strlenLog m str = .ok (len, log)) : Within str (str + len) log := by
  induction m generalizing str len log with
  | nil => cases h
  | cons c m ih =>
    rw [strlenLog] at h
    split at h
    · obtain ⟨rfl, rfl⟩ := Prod.mk.inj (Except.ok.inj h)
      intro a ha
      rw [List.mem_singleton.mp ha]
      exact ⟨le_rfl, le_rfl⟩
    · obtain ⟨⟨len', log'⟩, hrest, h⟩ := bind_eq_ok.mp h
      obtain ⟨rfl, rfl⟩ := Prod.mk.inj (Except.ok.inj h)
      intro a ha
      rcases List.mem_cons.mp ha with rfl | ha
      · exact ⟨le_rfl, Nat.le_add_right _ _⟩
      · have hin := ih hrest a ha
        omega

theorem backSpaceLog_within (m : Bytes) (str e : Nat) :
    Within str e (backSpaceLog m str e).2 := by
  induction e with
  | zero => exact fun a ha => absurd ha List.not_mem_nil
  | succ e ih =>
    rw [backSpaceLog]
    by_cases hstr : e + 1 > str
    · have hread : str ≤ (ByteAccess.read (e + 1)).position ∧
          (ByteAccess.read (e + 1)).position ≤ e + 1 := ⟨by
        simp only [ByteAccess.position]
        omega, le_rfl⟩
      rw [if_pos hstr]
      split
      · intro a ha
        rcases List.mem_cons.mp ha with rfl | ha
        · exact hread
        · exact ih.mono (Nat.le_succ e) a ha
      · intro a ha
        rw [List.mem_singleton.mp ha]
        exact hread
    · rw [if_neg hstr]
      exact fun a ha => absurd ha List.not_mem_nil

theorem backSpace_bounds (m : Bytes) (str e : Nat) :
    min str e ≤ backSpace m str e ∧ backSpace m str e ≤ e := by
  induction e with
  | zero => exact ⟨Nat.min_le_right _ _, le_rfl⟩
  | succ e ih =>
    rw [backSpace]
    split
    · omega
    · exact ⟨Nat.min_le_right _ _, le_rfl⟩

/-- `trimwhitespace` accesses the bytes from the pointer to the NUL only. -/
theorem trimwhitespaceLog_within {n : Nat} {mem : Vector UInt8 n} {p : Nat}
    (ht : Terminated (mem.toList.drop p)) {r : Vector UInt8 n × Nat} {log : List ByteAccess}
    (h : trimwhitespaceLog mem p = .ok (r, log)) :
    Within p (p + (content (mem.toList.drop p)).length) log := by
  obtain ⟨⟨q, skipped⟩, hskip, h⟩ := bind_eq_ok.mp h
  obtain ⟨hpq, hskipped⟩ := skipSpaceLog_within hskip
  have hlead : ((content (mem.toList.drop p)).takeWhile isspace).length ≤
      (content (mem.toList.drop p)).length := (List.takeWhile_sublist _).length_le
  have hq : p + ((content (mem.toList.drop p)).takeWhile isspace).length = q := by
    have hfst := skipSpaceLog_fst (mem.toList.drop p) p
    rw [hskip, skipSpace_eq ht] at hfst
    exact (Except.ok.inj hfst).symm
  by_cases hzero : mem.toList.getD q 0 = 0
  · simp only [if_pos hzero] at h
    obtain ⟨-, rfl⟩ := Prod.mk.inj (Except.ok.inj h)
    intro a ha
    rcases List.mem_append.mp ha with ha | ha
    · exact hskipped.mono (by omega) a ha
    · rw [List.mem_singleton.mp ha]
      simp only [ByteAccess.position]
      omega
  · simp only [if_neg hzero] at h
    obtain ⟨⟨len, measured⟩, hmeasured, h⟩ := bind_eq_ok.mp h
    obtain ⟨mem', -, h⟩ := bind_eq_ok.mp h
    obtain ⟨-, rfl⟩ := Prod.mk.inj (Except.ok.inj h)
    obtain ⟨hrest, hterm⟩ := content_skipped ht
    rw [List.drop_drop, hq] at hrest hterm
    have hlen : (content (mem.toList.drop q)).length = len := by
      have hfst := strlenLog_fst (mem.toList.drop q) q
      rw [hmeasured, strlen_eq hterm] at hfst
      exact (Except.ok.inj hfst).symm
    have hend : q + len = p + (content (mem.toList.drop p)).length := by
      have hsplit := congrArg List.length
        (List.takeWhile_append_dropWhile (p := isspace) (l := content (mem.toList.drop p)))
      rw [List.length_append, ← hrest] at hsplit
      omega
    have hpos : 0 < len := by
      rw [← hlen, List.length_pos_iff]
      intro hnil
      obtain ⟨rest, hsplit⟩ := hterm.split
      rw [hnil, List.nil_append] at hsplit
      apply hzero
      have hget := congrArg (·.getD 0 0) hsplit
      simpa [List.getD_eq_getElem?_getD] using hget
    have hmeasured := strlenLog_within hmeasured
    have hback := backSpaceLog_within mem.toList q (q + len - 1)
    have hwrite := backSpace_bounds mem.toList q (q + len - 1)
    intro a ha
    simp only [List.mem_append, List.mem_cons, List.not_mem_nil, or_false] at ha
    rcases ha with ha | rfl | (ha | ha) | rfl
    · exact hskipped.mono (by omega) a ha
    · simp only [ByteAccess.position]
      omega
    · have hin := hmeasured a ha
      omega
    · have hin := hback a ha
      omega
    · simp only [ByteAccess.position, backSpaceLog_fst]
      omega

/-! ## Trimming -/

/-- What a call of `trimwhitespace(p)` must leave and answer, for the string that starts
at `p`. -/
structure Trims {n : Nat} (mem : Vector UInt8 n) (p : Nat) (mem' : Vector UInt8 n) (q : Nat) :
    Prop where
  inside : p ≤ q ∧ q ≤ p + (content (mem.toList.drop p)).length
  terminated : Terminated (mem'.toList.drop q)
  text : content (mem'.toList.drop q) = strip (content (mem.toList.drop p))
  written : mem' = mem ∨
    ∃ h : q + (strip (content (mem.toList.drop p))).length < n,
      mem' = mem.set (q + (strip (content (mem.toList.drop p))).length) 0 h
  blank : (∀ c ∈ content (mem.toList.drop p), isspace c) → mem' = mem
  again : trimwhitespace mem' p = .ok (mem', q)
  confined : ∃ log, trimwhitespaceLog mem p = .ok ((mem', q), log) ∧
    Within p (p + (content (mem.toList.drop p)).length) log

/-- The first call leaves the pointer of the second one where it is. -/
theorem takeWhile_content_trimAt {n : Nat} {mem : Vector UInt8 n} {p : Nat}
    (h : Terminated (mem.toList.drop p)) :
    (content ((trimAt mem p).toList.drop p)).takeWhile isspace =
      (content (mem.toList.drop p)).takeWhile isspace := by
  rw [content_trimAt h]
  split
  · rfl
  · rename_i hall
    exact takeWhile_rdropWhile isspace fun hs => hall (List.all_eq_true.mpr hs)

/-- For every array and every offset at which a string starts, `trimwhitespace` trims the
string there: exactly, with at most one byte written, inside the string, and once and for
all. -/
theorem trimming {n : Nat} (mem : Vector UInt8 n) (p : Nat) (h : Terminated (mem.toList.drop p)) :
    ∃ mem' q, trimwhitespace mem p = .ok (mem', q) ∧ Trims mem p mem' q := by
  have hresult := trimwhitespace_eq mem p h
  have hlen := h.length_content_lt
  rw [List.length_drop, Vector.length_toList] at hlen
  have hpre := (List.rdropWhile_prefix isspace (content (mem.toList.drop p))).length_le
  refine ⟨_, _, hresult, ⟨by omega, ?_⟩, terminated_trimAt_ptr h, content_trimAt_ptr h, ?_, ?_,
    ?_, ?_⟩
  · have hlead := (List.takeWhile_sublist isspace (l := content (mem.toList.drop p))).length_le
    omega
  · by_cases hall : (content (mem.toList.drop p)).all isspace
    · exact Or.inl (by rw [trimAt, if_pos hall])
    · right
      have hsome : ¬ ∀ c ∈ content (mem.toList.drop p), isspace c :=
        fun hs => hall (List.all_eq_true.mpr hs)
      have hkept := congrArg List.length (takeWhile_append_trim isspace hsome)
      rw [List.length_append] at hkept
      have hend : p + ((content (mem.toList.drop p)).takeWhile isspace).length +
          (strip (content (mem.toList.drop p))).length =
          p + ((content (mem.toList.drop p)).rdropWhile isspace).length := by
        rw [Nat.add_assoc]
        exact congrArg (p + ·) hkept
      refine ⟨by omega, ?_⟩
      rw [trimAt, if_neg hall]
      ext i hi
      rw [Vector.getElem_setIfInBounds, Vector.getElem_set, hend]
  · intro hs
    rw [trimAt, if_pos (List.all_eq_true.mpr hs)]
  · rw [trimwhitespace_eq _ p (terminated_trimAt h), trimAt_trimAt h, takeWhile_content_trimAt h]
  · have hfst := trimwhitespaceLog_fst mem p
    rw [hresult] at hfst
    obtain ⟨⟨r, log⟩, hlog, rfl⟩ := map_eq_ok.mp hfst
    exact ⟨log, hlog, trimwhitespaceLog_within h hlog⟩

/-- A string between other bytes, with white space inside and at both ends. -/
theorem trimming_of_padded :
    Trims (⟨#[65, 0, 32, 66, 32, 67, 13, 10, 0, 68], rfl⟩ : Vector UInt8 10) 2
      ⟨#[65, 0, 32, 66, 32, 67, 0, 10, 0, 68], rfl⟩ 3 := by
  have hrun : trimwhitespace (⟨#[65, 0, 32, 66, 32, 67, 13, 10, 0, 68], rfl⟩ : Vector UInt8 10) 2 =
      .ok (⟨#[65, 0, 32, 66, 32, 67, 0, 10, 0, 68], rfl⟩, 3) := by
    decide +kernel
  obtain ⟨mem', q, htrim, htrims⟩ := trimming
    (⟨#[65, 0, 32, 66, 32, 67, 13, 10, 0, 68], rfl⟩ : Vector UInt8 10) 2 (by decide)
  obtain ⟨rfl, rfl⟩ := Prod.mk.inj (Except.ok.inj (hrun.symm.trans htrim))
  exact htrims

end SmartDoor
