import SmartDoor.Access.Lookups

/-!
# Frames on the serial line

The payload of a frame is what follows the last 0x02, without the control bytes.
The first twelve payload bytes go to `code` one after the other, so that a frame
of twelve characters fills the buffer, and `process_code` then presents its first
ten as the code.
-/

namespace SmartDoor

open CString

/-- The characters for which `hexchar2b` has a value. -/
def isHex (c : UInt8) : Bool := (48 ≤ c ∧ c ≤ 57) ∨ (65 ≤ c ∧ c ≤ 70)

/-- The bytes that `serialEvent1` stores. -/
def isPayload (c : UInt8) : Bool := c ≠ 0x02 ∧ c ≠ 0x03 ∧ c ≠ 0x0D ∧ c ≠ 0x0A

theorem isWord_of_isHex {c : UInt8} (h : isHex c) : isWord c := by
  simp only [isHex, isWord, decide_eq_true_eq, UInt8.le_iff_toNat_le] at h ⊢
  simp at h ⊢
  omega

theorem isPayload_of_isHex {c : UInt8} (h : isHex c) : isPayload c := by
  simp only [isPayload, decide_eq_true_eq]
  refine ⟨?_, ?_, ?_, ?_⟩ <;> rintro rfl <;> exact absurd h (by decide)

/-! ## The buffer as a string -/

theorem toList_endCode (code : Vector UInt8 12) :
    (endCode code).toList = code.toList.take 10 ++ [13, 0] := by
  apply List.ext_getElem
  · simp
  · intro i h1 h2
    have hi : i < 12 := by simpa using h1
    simp only [endCode, Vector.getElem_toList, Vector.getElem_set]
    by_cases h10 : i < 10
    · rw [if_neg (by omega), if_neg (by omega), List.getElem_append_left (by simp; omega),
        List.getElem_take, Vector.getElem_toList]
    · rw [List.getElem_append_right (by simp; omega)]
      have hcases : i = 10 ∨ i = 11 := by omega
      rcases hcases with rfl | rfl <;> simp

theorem terminated_endCode (code : Vector UInt8 12) : Terminated (endCode code).toList := by
  rw [toList_endCode]
  simp [Terminated]

/-- Ten letters before the CR and the NUL are presented as they are. -/
theorem strip_endCode (code : Vector UInt8 12) (h : ∀ c ∈ code.toList.take 10, isWord c) :
    strip (content (endCode code).toList) = code.toList.take 10 := by
  have h0 : (0 : UInt8) ∉ code.toList.take 10 ++ [13] := by
    simpa using zero_notMem_words h
  have hcont := content_append_zero (m := []) h0
  rw [List.append_assoc] at hcont
  rw [toList_endCode]
  exact (congrArg strip hcont).trans (strip_cr h)

namespace Sketch

/-! ## Whole frames -/

/-- The loop over payload bytes for which there is room. -/
theorem serialScan_payload (s : Sketch) (code : Vector UInt8 12) (w done rest seen : Bytes)
    (left : Nat) (hw : ∀ c ∈ w, isPayload c) (hroom : done.length + w.length ≤ 12)
    (hleft : w.length ≤ left) :
    serialScan left { s with
        code := overlay code done, ci := done.length, serial1 := ⟨w ++ rest, seen⟩ } =
      serialScan (left - w.length) { s with
        code := overlay code (done ++ w), ci := (done ++ w).length,
        serial1 := ⟨rest, seen ++ w⟩ } := by
  induction w generalizing done seen left with
  | nil => simp
  | cons c w ih =>
    rw [List.length_cons] at hroom hleft
    have hc := hw c (List.mem_cons_self ..)
    simp only [isPayload, decide_eq_true_eq] at hc
    obtain ⟨left, rfl⟩ : ∃ k, left = k + 1 := ⟨left - 1, by omega⟩
    have hlt : done.length < 12 := by omega
    have hset : (overlay code done).set done.length c hlt = overlay code (done ++ [c]) := by
      have hstore := store_overlay code done c hlt
      rw [store_of_lt hlt] at hstore
      exact Except.ok.inj hstore
    have hnext := ih (done ++ [c]) (seen ++ [c]) left
      (fun d hd => hw d (List.mem_cons_of_mem _ hd)) (by simp; omega) (by omega)
    rw [List.cons_append, serialScan]
    simp only [if_neg hc.1, if_neg hc.2.1, hc.2.2.1, hc.2.2.2, or_self, if_false, dif_pos hlt, hset]
    rw [List.length_append, List.length_singleton] at hnext
    rw [hnext, List.append_assoc, List.append_assoc, List.length_cons, Nat.add_sub_add_right]
    rfl

/-- A whole frame fills the buffer and is followed by a call of `process_code`. -/
theorem serialEvent1_frame (world : World) (junk : Junk) {s : Sketch} {frame : Vector UInt8 12}
    {rest : Bytes} (hbuf : s.serial1.buffer = 0x02 :: (frame.toList ++ 0x03 :: rest))
    (hhex : ∀ c ∈ frame.toList, isHex c) :
    s.serialEvent1 world junk = { s with
      code := frame, ci := 12,
      serial1 := ⟨rest, s.serial1.seen ++ [0x02] ++ frame.toList ++ [0x03]⟩ }.processCode
        world junk := by
  have hfull : overlay s.code frame.toList = frame := by
    ext i hi
    rw [getElem_overlay, List.getElem?_eq_getElem (by simpa using hi), Option.getD_some,
      Vector.getElem_toList]
  have hpay := serialScan_payload s s.code frame.toList [] (0x03 :: rest)
    (s.serial1.seen ++ [0x02]) 15 (fun c hc => isPayload_of_isHex (hhex c hc)) (by simp) (by simp)
  rw [overlay_nil, List.nil_append, hfull, Vector.length_toList] at hpay
  have hscan : s.serialScan 16 = ({ s with
      code := frame, ci := 12,
      serial1 := ⟨rest, s.serial1.seen ++ [0x02] ++ frame.toList ++ [0x03]⟩ }, true) := by
    rw [serialScan, hbuf]
    simp only [if_true]
    refine hpay.trans ?_
    rw [serialScan]
    simp
  rw [serialEvent1, hscan]
  rfl

end Sketch

end SmartDoor
