import SmartDoor.Server.Command
import Mathlib.Data.Int.ModEq
import Mathlib.Tactic.Ring

/-!
# Which arguments set the delay

`str2long` adds up the differences of the characters to `'0'`, each times its power of
ten, and never asks whether a character is a digit or the sum is too large. What it
answers is the sum over the integers, brought once into the range of a `long`. So a
numeral that fits sets its value, and every other argument is refused exactly when its
sum is brought to a value that is not positive. An argument lies in the 256 bytes of
`command`, so that the 16-bit indices of the loop do not wrap.
-/

namespace SmartDoor

/-- A string of decimal digits that is not empty. -/
structure IsNumeral (s : Bytes) : Prop where
  ne_nil : s ≠ []
  digit : ∀ c ∈ s, 48 ≤ c ∧ c ≤ 57

/-- The value of a numeral. -/
def numeralValue (s : Bytes) : Nat := s.foldl (fun v c => 10 * v + (c.toNat - 48)) 0

/-- The sum of the differences to `'0'`, whatever the characters. -/
def offsetSum (s : Bytes) : Int := s.foldl (fun v c => 10 * v + (charValue c - charValue 48)) 0

/-- Positive numerals that fit a `long` set their value, all other arguments are refused
and leave the delay as it was. -/
structure AcceptsDecimals (s : Bytes) (board : Board) (r : Board × List Output) : Prop where
  accepted : IsNumeral s → 0 < numeralValue s → numeralValue s ≤ 2 ^ 31 - 1 →
    r.1.delayTime.toNat = numeralValue s
  refused : ¬ (IsNumeral s ∧ 0 < numeralValue s ∧ numeralValue s ≤ 2 ^ 31 - 1) →
    r.1.delayTime = board.delayTime ∧ r.2 = [.delayRefused]

/-! ## The sum -/

theorem wrap32_add_wrap32 (x y : Int) : wrap32 (wrap32 x + y) = wrap32 (x + y) :=
  Int.bmod_add_bmod

theorem wrap32_add_mul (x y z : Int) :
    wrap32 (x + wrap32 (y * wrap32 z)) = wrap32 (x + y * z) := by
  rw [wrap32, wrap32, wrap32, wrap32, Int.mul_bmod_bmod, Int.add_bmod_bmod]

/-- Powers of ten, brought into the range of a `long`. -/
theorem power10_eq (n : Nat) : power10 n = wrap32 (10 ^ n) := by
  induction n with
  | zero => rfl
  | succ n ih =>
    rw [power10, ih, pow_succ]
    exact Int.bmod_mul_bmod

/-- The loop from the right: bringing every step into range is bringing the sum there. -/
theorem str2longLoop_eq (cs : Bytes) (x : Int) (j : Nat) :
    str2longLoop (wrap32 x) j cs = wrap32 (x + 10 ^ j *
      cs.foldr (fun c v => 10 * v + (charValue c - charValue 48)) 0) := by
  induction cs generalizing x j with
  | nil => rw [str2longLoop, List.foldr_nil, mul_zero, add_zero]
  | cons c cs ih =>
    rw [str2longLoop, power10_eq, wrap32_add_wrap32, wrap32_add_mul, ih, List.foldr_cons]
    congr 1
    ring

theorem str2long_eq (s : Bytes) : str2long s = wrap32 (offsetSum s) := by
  have hloop := str2longLoop_eq s.reverse 0 0
  rw [List.foldr_reverse, pow_zero, one_mul, zero_add] at hloop
  exact hloop

/-- On digits the two sums are the same. -/
theorem offsetSum_eq {s : Bytes} (h : ∀ c ∈ s, 48 ≤ c ∧ c ≤ 57) :
    offsetSum s = numeralValue s := by
  have hdigit : ∀ c : UInt8, 48 ≤ c ∧ c ≤ 57 →
      charValue c - charValue 48 = ((c.toNat - 48 : Nat) : Int) := by
    intro c hc
    have hlow : 48 ≤ c.toNat := UInt8.le_iff_toNat_le.mp hc.1
    have hhigh : c.toNat ≤ 57 := UInt8.le_iff_toNat_le.mp hc.2
    have hzero : charValue 48 = 48 := by decide
    have hvalue : charValue c = c.toNat := Int.bmod_eq_of_le (by omega) (by omega)
    rw [hzero, hvalue]
    omega
  suffices hfold : ∀ v : Nat, s.foldl (fun v c => 10 * v + (charValue c - charValue 48)) (v : Int) =
      (s.foldl (fun v c => 10 * v + (c.toNat - 48)) v : Nat) from hfold 0
  induction s with
  | nil => exact fun v => rfl
  | cons c s ih =>
    intro v
    rw [List.foldl_cons, List.foldl_cons, hdigit c (h c (List.mem_cons_self ..)),
      ← ih (fun d hd => h d (List.mem_cons_of_mem _ hd))]
    push_cast
    rfl

/-- Zeros in front of a numeral do not change its value. -/
theorem numeralValue_zeros (zeros : Nat) (s : Bytes) :
    numeralValue (List.replicate zeros 48 ++ s) = numeralValue s := by
  induction zeros with
  | zero => rfl
  | succ zeros ih =>
    rw [List.replicate_succ, List.cons_append, numeralValue, List.foldl_cons]
    exact ih

/-- `str2long` of a numeral of any length is the 32-bit value that is congruent to the
value of the numeral, and so the value itself when that is below 2^31, however many zeros
stand in front of it. -/
theorem decimal_conversion {s : Bytes} (h : IsNumeral s) :
    (-2 ^ 31 ≤ str2long s ∧ str2long s < 2 ^ 31) ∧
      str2long s ≡ numeralValue s [ZMOD 2 ^ 32] ∧
      (numeralValue s < 2 ^ 31 → str2long s = numeralValue s) ∧
      ∀ zeros, str2long (List.replicate zeros 48 ++ s) = str2long s := by
  have hvalue : ∀ {u : Bytes}, (∀ c ∈ u, 48 ≤ c ∧ c ≤ 57) →
      str2long u = wrap32 (numeralValue u) := fun hu => by
    rw [str2long_eq, offsetSum_eq hu]
  have hpadded : ∀ zeros, ∀ c ∈ List.replicate zeros 48 ++ s, 48 ≤ c ∧ c ≤ (57 : UInt8) := by
    intro zeros c hc
    rcases List.mem_append.mp hc with hc | hc
    · rw [List.eq_of_mem_replicate hc]
      decide
    · exact h.digit c hc
  refine ⟨⟨?_, str2long_lt s⟩, ?_, fun hlt => ?_, fun zeros => ?_⟩
  · rw [hvalue h.digit]
    exact Int.le_bmod (by decide)
  · rw [hvalue h.digit]
    exact Int.bmod_emod
  · rw [hvalue h.digit]
    exact Int.bmod_eq_of_le (by omega) (by omega)
  · rw [hvalue (hpadded zeros), numeralValue_zeros, hvalue h.digit]

/-- The largest value that is exact, with zeros in front, and the one after it. -/
theorem decimal_conversion_around_limit :
    str2long (List.replicate 12 48 ++ ascii "2147483647") = 2147483647 ∧
      str2long (ascii "2147483648") ≡ 2147483648 [ZMOD 2 ^ 32] := by
  have hlast : IsNumeral (ascii "2147483647") :=
    ⟨by decide, List.forall_iff_forall_mem.mp (by decide)⟩
  have hnext : IsNumeral (ascii "2147483648") :=
    ⟨by decide, List.forall_iff_forall_mem.mp (by decide)⟩
  refine ⟨?_, (decimal_conversion hnext).2.1⟩
  rw [(decimal_conversion hlast).2.2.2 12]
  exact (decimal_conversion hlast).2.2.1 (by decide)

/-! ## What is accepted -/

/-- The sign of a sum that was brought into the range of a `long`. -/
theorem wrap32_pos_iff (x : Int) :
    0 < wrap32 x ↔ ¬ (x % 2 ^ 32 = 0 ∨ 2 ^ 31 ≤ x % 2 ^ 32) := by
  rw [wrap32, Int.bmod_def]
  norm_cast
  split <;> omega

theorem setDelaytime_pos {s : Bytes} (h : 0 < str2long s) (board : Board) :
    (setDelaytime s board).1.delayTime.toNat = (str2long s).toNat ∧
      (setDelaytime s board).2 =
        [.delayChanged, .delayTime (setDelaytime s board).1.delayTime] := by
  have hlt : (str2long s).toNat < UInt32.size := by
    have hbound := str2long_lt s
    have hsize : UInt32.size = 2 ^ 32 := rfl
    omega
  have hboard : board.setDelaytime s =
      { board with delayTime := UInt32.ofNat (str2long s).toNat } := if_pos h
  rw [setDelaytime, hboard]
  simp only
  rw [if_pos h]
  exact ⟨UInt32.toNat_ofNat_of_lt hlt, rfl⟩

theorem setDelaytime_not_pos {s : Bytes} (h : ¬ 0 < str2long s) (board : Board) :
    setDelaytime s board = (board, [.delayRefused]) := by
  have hboard : board.setDelaytime s = board := if_neg h
  rw [setDelaytime, hboard]
  exact if_neg h

/-- `set_delaytime` accepts exactly the positive numerals that fit, if and only if the
argument is a numeral below 2^31 or its sum is congruent modulo 2^32 to a number that is
not positive. -/
theorem delay_setting (s : Bytes) (board : Board) :
    AcceptsDecimals s board (setDelaytime s board) ↔
      IsNumeral s ∧ numeralValue s < 2 ^ 31 ∨
        offsetSum s % 2 ^ 32 = 0 ∨ 2 ^ 31 ≤ offsetSum s % 2 ^ 32 := by
  have hpos : 0 < str2long s ↔ ¬ (offsetSum s % 2 ^ 32 = 0 ∨ 2 ^ 31 ≤ offsetSum s % 2 ^ 32) := by
    rw [str2long_eq]
    exact wrap32_pos_iff _
  constructor
  · intro h
    by_cases hnum : IsNumeral s ∧ 0 < numeralValue s ∧ numeralValue s ≤ 2 ^ 31 - 1
    · exact Or.inl ⟨hnum.1, by omega⟩
    · right
      by_contra hsum
      have hreply := (setDelaytime_pos (hpos.mpr hsum) board).2
      rw [(h.refused hnum).2] at hreply
      cases hreply
  · intro h
    constructor
    case accepted =>
      intro hnum hv hle
      have hsum := offsetSum_eq hnum.digit
      have hvalue : str2long s = numeralValue s := by
        rw [str2long_eq, hsum]
        exact Int.bmod_eq_of_le (by omega) (by omega)
      rw [(setDelaytime_pos (by omega) board).1, hvalue, Int.toNat_natCast]
    case refused =>
      intro hno
      have hsum : offsetSum s % 2 ^ 32 = 0 ∨ 2 ^ 31 ≤ offsetSum s % 2 ^ 32 := by
        rcases h with ⟨hnum, hlt⟩ | h
        · have hzero : numeralValue s = 0 := by
            by_contra hne
            exact hno ⟨hnum, by omega, by omega⟩
          left
          rw [offsetSum_eq hnum.digit, hzero]
          rfl
        · exact h
      rw [setDelaytime_not_pos (fun hp => hpos.mp hp hsum)]
      exact ⟨rfl, rfl⟩

/-- A colon is taken for the numeral of its distance to `'0'` and sets the delay to ten
milliseconds; so does the numeral 2^32 + 10. -/
theorem delay_setting_of_colon :
    ¬ AcceptsDecimals [58] .afterSetup (setDelaytime [58] .afterSetup) ∧
      (setDelaytime [58] .afterSetup).1.delayTime = 10 ∧
      (setDelaytime [52, 50, 57, 52, 57, 54, 55, 51, 48, 54] .afterSetup).1.delayTime = 10 := by
  refine ⟨fun h => ?_, by decide +kernel, by decide +kernel⟩
  have hcolon : ¬ IsNumeral [58] := fun hnum =>
    absurd (hnum.digit 58 (List.mem_singleton_self _)).2 (by decide)
  have hreply := (h.refused fun hnum => hcolon hnum.1).2
  rw [(setDelaytime_pos (by decide +kernel) _).2] at hreply
  cases hreply

end SmartDoor
