import SmartDoor.Access.Intake
import SmartDoor.Text.CheckSymbol
import Mathlib.Data.Nat.Bitwise

/-!
# The checksum of a frame

For characters of 0-9A-F the bytes that `process_code` compares are the values of the
pairs, without a wrap, and each pair has a value of its own. So the test accepts exactly
the frames whose sixth pair is the exclusive or of the five before it, and a frame in which
one pair is read wrongly is refused and left as it is.
-/

namespace SmartDoor

open CString

/-- The characters 0-9A-F, in the order of their values. -/
def hexDigits : Bytes := ascii "0123456789ABCDEF"

/-- The value of a character of 0-9A-F. -/
def hexValue (c : UInt8) : Nat := hexDigits.idxOf c

/-- The byte that a pair of characters encodes. -/
def pairValue (code : Vector UInt8 12) (i : Nat) : Nat :=
  16 * hexValue (code.toList.getD (2 * i) 0) + hexValue (code.toList.getD (2 * i + 1) 0)

/-- The exclusive or of the bytes of the pairs 0 to 4 is the byte of the sixth pair. -/
def Checks (code : Vector UInt8 12) : Prop :=
  pairValue code 0 ^^^ pairValue code 1 ^^^ pairValue code 2 ^^^ pairValue code 3 ^^^
    pairValue code 4 = pairValue code 5

instance (code : Vector UInt8 12) : Decidable (Checks code) :=
  inferInstanceAs (Decidable (_ = _))

/-- One or both characters of a single pair are changed, and no others. -/
structure Garbled (code code' : Vector UInt8 12) : Prop where
  ne : code' ≠ code
  pair : ∃ i < 6, ∀ j (h : j < 12), j / 2 ≠ i → code'[j] = code[j]

/-! ## Hexadecimal values -/

theorem mem_hexDigits {c : UInt8} : c ∈ hexDigits ↔ isHex c := by
  have hdigits : hexDigits = [48, 49, 50, 51, 52, 53, 54, 55, 56, 57, 65, 66, 67, 68, 69, 70] := by
    decide +kernel
  simp only [hdigits, isHex, List.mem_cons, List.not_mem_nil, or_false, decide_eq_true_eq,
    UInt8.le_iff_toNat_le, ← UInt8.toNat_inj]
  simp
  omega

theorem hexValue_lt {c : UInt8} (h : isHex c) : hexValue c < 16 :=
  (List.idxOf_lt_length_of_mem (mem_hexDigits.mpr h)).trans_eq (by decide +kernel)

theorem hexValue_inj {c d : UInt8} (h : isHex c) : hexValue c = hexValue d ↔ c = d :=
  List.idxOf_inj (mem_hexDigits.mpr h)

/-- `hexchar2b` falls off its end for no character of 0-9A-F. -/
theorem toNat_hexchar2b {c : UInt8} (h : isHex c) (unspecified : UInt8) :
    (hexchar2b unspecified c).toNat = hexValue c := by
  have hdigits : ∀ d ∈ hexDigits, (hexchar2b 0 d).toNat = hexValue d := by decide +kernel
  have hjunk : hexchar2b unspecified c = hexchar2b 0 c := by
    unfold hexchar2b
    simp only [isHex, decide_eq_true_eq] at h
    split
    · rfl
    · rename_i hdigit
      rw [if_pos (h.resolve_left hdigit), if_pos (h.resolve_left hdigit)]
  rw [hjunk]
  exact hdigits c (mem_hexDigits.mpr h)

section Pairs

variable {code code' : Vector UInt8 12} (hhex : ∀ c ∈ code.toList, isHex c)
include hhex

theorem isHex_getElem {j : Nat} (h : j < 12) : isHex code[j] := hhex _ (by simp)

omit hhex in
theorem pairValue_eq {i : Nat} (h : i < 6) :
    pairValue code i = 16 * hexValue code[2 * i] + hexValue code[2 * i + 1] := by
  unfold pairValue
  rw [List.getD_eq_getElem _ _ (by simp; omega), List.getD_eq_getElem _ _ (by simp; omega),
    Vector.getElem_toList, Vector.getElem_toList]

/-- The byte arithmetic of a pair does not wrap. -/
theorem toNat_hexPair (junk : Junk) (i : Fin 6) :
    (hexPair junk code i).toNat = pairValue code i := by
  have ha := isHex_getElem hhex (j := 2 * i.val) (by omega)
  have hb := isHex_getElem hhex (j := 2 * i.val + 1) (by omega)
  have hltA := hexValue_lt ha
  have hltB := hexValue_lt hb
  unfold hexPair hexstr2b
  simp only [Nat.mul_comm i.val 2]
  rw [pairValue_eq i.isLt, UInt8.toNat_add, UInt8.toNat_mul, toNat_hexchar2b ha,
    toNat_hexchar2b hb]
  simp
  omega

/-- The test of `process_code`, for any of the answers that are unspecified. -/
theorem validTag_iff (junk : Junk) : validTag junk code ↔ Checks code := by
  unfold validTag Checks
  simp only [List.foldl_cons, List.foldl_nil, decide_eq_true_eq, ← UInt8.toNat_inj,
    UInt8.toNat_xor, toNat_hexPair hhex]
  rfl

/-- A pair of characters is determined by its byte. -/
theorem getElem_of_pairValue (hhex' : ∀ c ∈ code'.toList, isHex c) {i : Nat} (hi : i < 6)
    (h : pairValue code i = pairValue code' i) {j : Nat} (hj : j < 12) (hpair : j / 2 = i) :
    code[j] = code'[j] := by
  have hltB := hexValue_lt (isHex_getElem hhex (j := 2 * i + 1) (by omega))
  have hltB' := hexValue_lt (isHex_getElem hhex' (j := 2 * i + 1) (by omega))
  rw [pairValue_eq hi, pairValue_eq hi] at h
  apply (hexValue_inj (isHex_getElem hhex hj)).mp
  have hcases : j = 2 * i ∨ j = 2 * i + 1 := by omega
  rcases hcases with rfl | rfl
  · omega
  · omega

end Pairs

/-! ## Frames that were read wrongly -/

/-- The pairs that are combined, and the one of the checksum. -/
def pairs : CheckSymbol.Layout Nat where
  first := 0
  others := [1, 2, 3, 4]
  check := 5
  nodup := by decide

theorem cancels_xor : CheckSymbol.Cancels fun a b : Nat => a ^^^ b :=
  ⟨fun _ => Nat.xor_right_injective, fun _ => Nat.xor_left_injective⟩

theorem checks_iff {code : Vector UInt8 12} :
    Checks code ↔ pairs.Accepts (fun a b => a ^^^ b) (pairValue code) :=
  Iff.rfl

/-- No two frames with the right checksum differ in one pair only. -/
theorem Checks.not_garbled {code code' : Vector UInt8 12} (h : Checks code)
    (hhex : ∀ c ∈ code.toList, isHex c) (hhex' : ∀ c ∈ code'.toList, isHex c)
    (hgarbled : Garbled code code') : ¬ Checks code' := by
  intro h'
  obtain ⟨i, hi, hpair⟩ := hgarbled.pair
  have hmem : ∀ k < 6, k ∈ pairs.positions := by decide
  have hother : ∀ k ∈ pairs.positions, k ≠ i → pairValue code k = pairValue code' k := by
    intro k hk hne
    have hlt : k < 6 := (by decide : ∀ k ∈ pairs.positions, k < 6) k hk
    rw [pairValue_eq hlt, pairValue_eq hlt, hpair (2 * k) (by omega) (by omega),
      hpair (2 * k + 1) (by omega) (by omega)]
  have hsame := CheckSymbol.Layout.Accepts.agree cancels_xor (checks_iff.mp h) (checks_iff.mp h')
    (hmem i hi) hother
  apply hgarbled.ne
  ext1 j hj
  by_cases hpos : j / 2 = i
  · exact (getElem_of_pairValue hhex hhex' hi hsame hj hpos).symm
  · exact hpair j hj hpos

namespace Sketch

/-- `process_code` on twelve characters of 0-9A-F. -/
theorem processCode_eq (world : World) (junk : Junk) {s : Sketch}
    (hhex : ∀ c ∈ s.code.toList, isHex c) : s.processCode world junk =
      if Checks s.code then { s with code := endCode s.code }.checkIDAccess world else .ok s := by
  unfold processCode
  by_cases hvalid : validTag junk s.code = true
  · rw [if_pos hvalid, if_pos ((validTag_iff hhex junk).mp hvalid)]
  · rw [if_neg hvalid, if_neg fun hchecks => hvalid ((validTag_iff hhex junk).mpr hchecks)]

/-- Nothing happens exactly when the checksum is wrong: after a decision, the last byte of
`code` is the NUL of the string. -/
theorem processCode_idle (world : World) (junk : Junk) {s : Sketch}
    (hhex : ∀ c ∈ s.code.toList, isHex c) :
    s.processCode world junk = .ok s ↔ ¬ Checks s.code := by
  rw [processCode_eq world junk hhex]
  constructor
  · intro h hchecks
    rw [if_pos hchecks] at h
    have hend : (endCode s.code)[11] = 0 := by simp [endCode]
    have hlast : s.code[11] = 0 := by
      rcases (checkIDAccess_trimmed h).code with hcode | ⟨-, hcode⟩
      · rw [hcode]
        exact hend
      · rw [hcode]
        exact getElem_trimAt_zero hend
    have hhex11 := isHex_getElem hhex (j := 11) (by omega)
    rw [hlast] at hhex11
    exact absurd hhex11 (by decide)
  · intro hwrong
    rw [if_neg hwrong]

end Sketch

/-- For twelve characters of 0-9A-F, `process_code` goes on to `check_IDAccess` exactly when
the checksum is that of the five pairs, and otherwise leaves `code` and everything else as
it is; after a change of one or both characters of a single pair, an accepted frame is
refused, whenever it arrives. -/
theorem checksum (world : World) (junk : Junk) {s : Sketch}
    (hhex : ∀ c ∈ s.code.toList, isHex c) :
    (s.processCode world junk =
      if Checks s.code then { s with code := endCode s.code }.checkIDAccess world else .ok s) ∧
    (s.processCode world junk = .ok s ↔ ¬ Checks s.code) ∧
    (Checks s.code → ∀ t : Sketch, (∀ c ∈ t.code.toList, isHex c) → Garbled s.code t.code →
      ∀ world junk, t.processCode world junk = .ok t) :=
  ⟨Sketch.processCode_eq world junk hhex, Sketch.processCode_idle world junk hhex,
    fun hchecks _ hhex' hgarbled world junk =>
      (Sketch.processCode_idle world junk hhex').mpr (hchecks.not_garbled hhex hhex' hgarbled)⟩

/-- The code 0C0029DA90 has the checksum 6F, and a second digit that is read wrongly is
noticed. -/
theorem checksum_of_tag :
    let tag := Vector.mk (ascii "0C0029DA906F").toArray (by decide +kernel)
    let s := { Sketch.powerUp Store.initial with code := tag }
    let misread : Sketch := { s with code := tag.set 1 69 }
    let world : World := ⟨fun _ => ⟨0, 0, 0, 0, 0⟩, fun _ => true⟩
    let junk : Junk := .replicate 12 0
    s.processCode world junk = { s with code := endCode s.code }.checkIDAccess world ∧
      s.processCode world junk ≠ .ok s ∧ misread.processCode world junk = .ok misread := by
  intro tag s misread world junk
  have hhex : ∀ c ∈ s.code.toList, isHex c := by decide +kernel
  have hchecks : Checks s.code := by decide +kernel
  have hhex' : ∀ c ∈ misread.code.toList, isHex c := by decide +kernel
  have hgarbled : Garbled s.code misread.code := ⟨by decide +kernel, 0, by decide, by decide +kernel⟩
  obtain ⟨hreach, hidle, hmisread⟩ := checksum world junk hhex
  rw [if_pos hchecks] at hreach
  exact ⟨hreach, fun h => hidle.mp h hchecks, hmisread hchecks misread hhex' hgarbled world junk⟩

end SmartDoor
