import SmartDoor.Display.Screen

/-!
# Reading a screen

A frame tells what `LEDprint` was called with: the date and the minute, and of each line as many
characters as the panel has room for.
-/

namespace SmartDoor

open CString Separators

namespace Display

open SSD1306

/-- The first characters of a line, up to blanks behind it. -/
def padded (n : Nat) (text : Bytes) : Bytes := (List.range n).map fun k => (visible text).getD k 32

/-- What can be read of the lines. -/
def readable : List Bytes → List Bytes
  | [text] => [padded 10 text]
  | [first, second] => [padded 8 first, padded 8 second]
  | lines => lines

/-- A text of printable characters that is short enough not to come back to the top. -/
def LegibleText (text : Bytes) : Prop :=
  (∀ c ∈ visible text, Printable c) ∧ (visible text).length ≤ 2000

/-- One line that does not begin with a blank, or two of which the first one has no more than
eight characters. -/
def Legible : List Bytes → Prop
  | [text] => LegibleText text ∧ (visible text).getD 0 32 ≠ 32
  | [first, second] => LegibleText first ∧ (visible first).length ≤ 8 ∧ LegibleText second
  | _ => False

theorem printable_getD {text : Bytes} (h : ∀ c ∈ text, Printable c) (k : Nat) :
    Printable (text.getD k 32) := by
  rw [List.getD_eq_getElem?_getD]
  cases hc : text[k]? with
  | none => exact ⟨by decide, by decide⟩
  | some c => exact h c (List.mem_of_getElem? hc)

theorem plain_of_printable {text : Bytes} (h : ∀ c ∈ text, Printable c) : Plain text := by
  intro c hc
  obtain ⟨hlow, -⟩ := h c hc
  constructor <;> rintro rfl <;> exact absurd hlow (by decide)

/-- Lines of printable characters without blanks that agree as far as they go. -/
theorem eq_of_getD {text text' : Bytes} {n : Nat} (hlength : text.length ≤ n)
    (hlength' : text'.length ≤ n) (h : 32 ∉ text) (h' : 32 ∉ text')
    (hget : ∀ k < n, text.getD k 32 = text'.getD k 32) : text = text' := by
  apply List.ext_getElem?
  intro k
  by_cases hk : k < n
  · have hk := hget k hk
    rw [List.getD_eq_getElem?_getD, List.getD_eq_getElem?_getD] at hk
    cases hc : text[k]? with
    | none =>
      cases hc' : text'[k]? with
      | none => rfl
      | some c' =>
        rw [hc, hc'] at hk
        have hk : 32 = c' := hk
        exact absurd (hk ▸ List.mem_of_getElem? hc') h'
    | some c =>
      cases hc' : text'[k]? with
      | none =>
        rw [hc, hc'] at hk
        have hk : c = 32 := hk
        exact absurd (hk ▸ List.mem_of_getElem? hc) h
      | some c' =>
        rw [hc, hc'] at hk
        exact congrArg some hk
  · rw [List.getElem?_eq_none (by omega), List.getElem?_eq_none (by omega)]

/-! ## The parts of a screen -/

section Placed

variable {x y : Int} {size : UInt8} (hsize : 0 < size.toNat) (hx : 0 ≤ x)
  (hroom : x + 6 * size.toNat ≤ 128)

include hsize hx hroom

theorem fits_placed : (placed x y size).Fits := by
  refine ⟨rfl, hx, ?_⟩
  rw [placed_textsize hsize]
  exact hroom

/-- What is lit behind a place. -/
theorem placed_behind (hy : -32768 ≤ y) {text : Bytes}
    (hlength : y + text.length * (8 * size.toNat) < 32768) {q : Int × Int}
    (hq : Lights size (letters text (placed x y size)) q) :
    y ≤ q.2 ∧ (q.2 < y + 8 * size.toNat → x ≤ q.1) := by
  have h := @lights_behind (placed x y size) (fits_placed hsize hx hroom) text hy
    (by rwa [placed_textsize hsize]) q (by rwa [placed_textsize hsize])
  rwa [placed_textsize hsize] at h

/-- What a short text lights. -/
theorem placed_short {text : Bytes} (hplain : Plain text)
    (hshort : x + 6 * (text.length * size.toNat) ≤ 128) {q : Int × Int}
    (hq : Lights size (letters text (placed x y size)) q) :
    q.2 < y + 8 * size.toNat ∧ q.1 < x + 6 * (text.length * size.toNat) := by
  have h := lights_of_short (d := placed x y size) (fits_placed hsize hx hroom) (q := q) hplain
    (by rwa [placed_textsize hsize]) (by rwa [placed_textsize hsize])
  rwa [placed_textsize hsize] at h

/-- What is lit at the corners of the dots of a line. -/
theorem placed_line {text : Bytes} (hplain : Plain text) (hy : -32768 ≤ y)
    (hlength : y + text.length * (8 * size.toNat) < 32768) {k i j : Nat}
    (hk : x + 6 * (k + 1) * size.toNat ≤ 128) (hi : i < 6) (hj : j < 8) :
    Lights size (letters text (placed x y size)) (corner x y size k i j) ↔
      lit (text.getD k 32) i j = true := by
  have h := lights_line (fits_placed hsize hx hroom) (by rwa [placed_textsize hsize]) hplain hy
    (by rwa [placed_textsize hsize]) (k := k) (by rwa [placed_textsize hsize]) hi hj
  rwa [placed_textsize hsize] at h

end Placed

/-! ## The lines -/

section Line

variable {x y : Int} (hx : 0 ≤ x ∧ x ≤ 116) {text : Bytes} (h : LegibleText text)

include hx h

/-- What a line lights lies below its top, and right of its beginning. -/
theorem lineLights_behind (hy : 0 ≤ y ∧ y ≤ 100) {q : Int × Int} (hq : LineLights x y text q) :
    y ≤ q.2 ∧ (q.2 < y + 16 → x ≤ q.1) := by
  obtain ⟨-, hlength⟩ := h
  rw [LineLights, ← letters_visible] at hq
  exact @placed_behind x y 2 (by decide) hx.1 (show x + 6 * (2 : Nat) ≤ 128 by omega) (by omega) _
    (show y + (visible text).length * (8 * (2 : Nat)) < 32768 by omega) _ hq

/-- What a short line lights. -/
theorem lineLights_short (hshort : x + 12 * (visible text).length ≤ 128) {q : Int × Int}
    (hq : LineLights x y text q) : q.2 < y + 16 := by
  rw [LineLights, ← letters_visible] at hq
  exact (@placed_short x y 2 (by decide) hx.1 (show x + 6 * (2 : Nat) ≤ 128 by omega) _
    (plain_of_printable h.1)
    (show x + 6 * ((visible text).length * (2 : Nat)) ≤ 128 by omega) _ hq).1

/-- The characters of a line. -/
theorem lineLights_corner (hy : 0 ≤ y ∧ y ≤ 100) {k i j : Nat} (hk : x + 12 * (k + 1) ≤ 128)
    (hi : i < 6) (hj : j < 8) :
    LineLights x y text (corner x y 2 k i j) ↔ lit ((visible text).getD k 32) i j = true := by
  obtain ⟨hprintable, hlength⟩ := h
  rw [LineLights, ← letters_visible]
  exact @placed_line x y 2 (by decide) hx.1 (show x + 6 * (2 : Nat) ≤ 128 by omega) _
    (plain_of_printable hprintable) (by omega)
    (show y + (visible text).length * (8 * (2 : Nat)) < 32768 by omega) _ _ _
    (show x + 6 * (k + 1) * (2 : Nat) ≤ 128 by omega) hi hj

end Line

/-- Two lines of which the same dots are lit have the same characters. -/
theorem getD_eq_of_lit {text text' : Bytes} (h : ∀ c ∈ text, Printable c)
    (h' : ∀ c ∈ text', Printable c) {k : Nat}
    (hlit : ∀ i < 5, ∀ j < 8,
      (lit (text.getD k 32) i j = true ↔ lit (text'.getD k 32) i j = true)) :
    text.getD k 32 = text'.getD k 32 :=
  lit_injective (printable_getD h k) (printable_getD h' k) fun i hi j hj =>
    Bool.eq_iff_iff.mpr (hlit i hi j hj)

/-- The lines lie below the date. -/
theorem bodyLights_low {lines : List Bytes} (h : Legible lines) {q : Int × Int}
    (hq : BodyLights lines q) : 17 ≤ q.2 := by
  rcases lines with - | ⟨text, - | ⟨second, - | ⟨third, rest⟩⟩⟩
  · cases hq
  · exact (lineLights_behind (by decide) h.1 (by decide) hq).1
  · rcases hq with hq | hq
    · exact (lineLights_behind (by decide) h.1 (by decide) hq).1
    · have hbelow := (lineLights_behind (by decide) h.2.2 (by decide) hq).1
      omega
  · cases hq

/-! ## The date and the time -/

/-- The date without the blanks behind it. -/
def dateCore (tm : Tm) : Bytes :=
  decimal tm.day.toNat ++ 47 :: (decimal tm.month.toNat ++ 47 :: decimal (tm.year.toNat + 1970))

theorem dateText_eq (tm : Tm) : dateText tm = dateCore tm ++ ascii "      " := by
  simp only [dateText, dateCore, List.append_assoc, List.cons_append]
  rfl

theorem length_decimal_le {n k : Nat} (hk : 0 < k) : (decimal n).length ≤ k ↔ n < 10 ^ k := by
  rw [decimal, List.length_map]
  exact Nat.length_toDigits_le_iff (by decide) hk

theorem length_dateCore (tm : Tm) : (dateCore tm).length ≤ 12 := by
  have hyear := tm.year.toNat_lt
  have hday := (length_decimal_le (n := tm.day.toNat) (k := 3) (by decide)).mpr
    (tm.day.toNat_lt.trans (by decide))
  have hmonth := (length_decimal_le (n := tm.month.toNat) (k := 3) (by decide)).mpr
    (tm.month.toNat_lt.trans (by decide))
  have hyear := (length_decimal_le (n := tm.year.toNat + 1970) (k := 4) (by decide)).mpr (by omega)
  simp only [dateCore, List.length_append, List.length_cons]
  omega

theorem printable_decimal {n : Nat} {c : UInt8} (h : c ∈ decimal n) : Printable c ∧ c ≠ 32 := by
  obtain ⟨hlow, hhigh⟩ := digit_of_mem_decimal h
  refine ⟨⟨by omega, by omega⟩, ?_⟩
  rintro rfl
  exact absurd hlow (by decide)

theorem printable_dateCore {tm : Tm} {c : UInt8} (h : c ∈ dateCore tm) : Printable c ∧ c ≠ 32 := by
  have hslash : Printable 47 ∧ (47 : UInt8) ≠ 32 := by
    decide
  simp only [dateCore, List.mem_append, List.mem_cons] at h
  rcases h with h | rfl | h | rfl | h
  · exact printable_decimal h
  · exact hslash
  · exact printable_decimal h
  · exact hslash
  · exact printable_decimal h

theorem length_twoDigits {n : Nat} (h : n < 100) : (twoDigits n).length = 2 := by
  have htwo := (length_decimal_le (n := n) (k := 2) (by decide)).mpr h
  have hone := length_decimal_le (n := n) (k := 1) (by decide)
  have hpos : 0 < (decimal n).length := by
    rw [decimal, List.length_map]
    exact Nat.length_toDigits_pos
  rw [twoDigits]
  by_cases hn : n < 10
  · rw [if_pos hn, List.length_cons]
    have := hone.mpr hn
    omega
  · rw [if_neg hn]
    have : ¬ (decimal n).length ≤ 1 := fun h => hn (hone.mp h)
    omega

theorem twoDigits_injective {n m : Nat} (h : twoDigits n = twoDigits m) : n = m := by
  have hvalue : ∀ n, Nat.ofDigitChars 10 ((twoDigits n).map fun c => Char.ofNat c.toNat) 0 = n := by
    intro n
    rw [twoDigits]
    split
    · rw [List.map_cons, toDigits_of_decimal, Nat.ofDigitChars_cons]
      exact Nat.ofDigitChars_ten_toDigits
    · rw [toDigits_of_decimal, Nat.ofDigitChars_ten_toDigits]
  rw [← hvalue n, h, hvalue]

theorem printable_timeText {tm : Tm} {c : UInt8} (h : c ∈ timeText tm) : Printable c := by
  have htwo : ∀ n, c ∈ twoDigits n → Printable c := by
    intro n hc
    rw [twoDigits] at hc
    split at hc
    · rcases List.mem_cons.mp hc with rfl | hc
      · decide
      · exact (printable_decimal hc).1
    · exact (printable_decimal hc).1
  have hcolon : c ∈ ascii ":" → Printable c := by
    intro hc
    obtain rfl := List.mem_singleton.mp hc
    decide
  simp only [timeText, List.mem_append] at h
  rcases h with h | h | h
  · exact htwo _ h
  · exact hcolon h
  · exact htwo _ h

/-- The time of a clock that is set. -/
def Timely (tm : Tm) : Prop := tm.hour.toNat < 100 ∧ tm.minute.toNat < 100

theorem length_timeText {tm : Tm} (h : Timely tm) : (timeText tm).length = 5 := by
  simp only [timeText, List.length_append, length_twoDigits h.1, length_twoDigits h.2]
  rfl

theorem dateCore_injective {tm tm' : Tm} (h : dateCore tm = dateCore tm') :
    tm.day = tm'.day ∧ tm.month = tm'.month ∧ tm.year = tm'.year := by
  have hslash := notMem_decimal (c := 47) (by decide)
  obtain ⟨hday, h⟩ := cut (hslash _) (hslash _) h
  obtain ⟨hmonth, hyear⟩ := cut (hslash _) (hslash _) h
  refine ⟨UInt8.toNat_inj.mp (decimal_injective hday), UInt8.toNat_inj.mp (decimal_injective hmonth),
    UInt8.toNat_inj.mp (Nat.add_right_cancel (decimal_injective hyear))⟩

theorem timeText_injective {tm tm' : Tm} (h : Timely tm) (h' : Timely tm')
    (heq : timeText tm = timeText tm') : tm.hour = tm'.hour ∧ tm.minute = tm'.minute := by
  obtain ⟨hhour, hrest⟩ := List.append_inj heq
    ((length_twoDigits h.1).trans (length_twoDigits h'.1).symm)
  have hminute := (List.append_inj hrest rfl).2
  exact ⟨UInt8.toNat_inj.mp (twoDigits_injective hhour),
    UInt8.toNat_inj.mp (twoDigits_injective hminute)⟩

/-- Where the date and the time are. -/
theorem headLights_cases {tm : Tm} (h : Timely tm) {q : Int × Int} (hq : HeadLights tm q) :
    q.2 < 9 ∧ (Lights 1 (letters (dateCore tm) (placed 1 1 1)) q ∧ q.1 < 73 ∨
      Lights 1 (letters (timeText tm) (placed 90 1 1)) q ∧ 90 ≤ q.1) := by
  have hone : ((1 : UInt8).toNat : Int) = 1 := rfl
  rcases hq with hq | hq
  · rw [dateText_eq, lights_append (fun c hc => Or.inl (by simpa [ascii] using hc))] at hq
    have hlength := length_dateCore tm
    have hshort := @placed_short 1 1 1 (by decide) (by decide) (by decide) _
      (plain_of_printable fun c hc => (printable_dateCore hc).1) (by rw [hone]; omega) _ hq
    rw [hone] at hshort
    exact ⟨by omega, Or.inl ⟨hq, by omega⟩⟩
  · have hlength := length_timeText h
    have hshort := @placed_short 90 1 1 (by decide) (by decide) (by decide) _
      (plain_of_printable fun c hc => printable_timeText hc) (by rw [hone]; omega) _ hq
    have hbehind := @placed_behind 90 1 1 (by decide) (by decide) (by decide) (by decide) _
      (by rw [hone]; omega) _ hq
    rw [hone] at hshort hbehind
    exact ⟨by omega, Or.inr ⟨hq, by omega⟩⟩

theorem corner_one (x y : Int) (k i j : Nat) : corner x y 1 k i j = (x + 6 * k + i, y + j) := by
  have hone : ((1 : UInt8).toNat : Int) = 1 := rfl
  rw [corner, hone]
  exact Prod.ext (by simp only; omega) (by simp only; omega)

theorem corner_two (x y : Int) (k i j : Nat) :
    corner x y 2 k i j = (x + 12 * k + 2 * i, y + 2 * j) := by
  have htwo : ((2 : UInt8).toNat : Int) = 2 := rfl
  rw [corner, htwo]
  exact Prod.ext (by simp only; omega) (by simp only; omega)

/-- The characters of the date. -/
theorem headLights_date {tm : Tm} (h : Timely tm) {k i j : Nat} (hk : k < 12) (hi : i < 6)
    (hj : j < 8) :
    HeadLights tm (corner 1 1 1 k i j) ↔ lit ((dateCore tm).getD k 32) i j = true := by
  have hone : ((1 : UInt8).toNat : Int) = 1 := rfl
  have hlength := length_dateCore tm
  rw [← @placed_line 1 1 1 (by decide) (by decide) (by decide) _
    (plain_of_printable fun c hc => (printable_dateCore hc).1) (by decide) (by rw [hone]; omega)
    k i j (by rw [hone]; omega) hi hj]
  constructor
  · intro hq
    rcases (headLights_cases h hq).2 with ⟨hq, -⟩ | ⟨-, hright⟩
    · exact hq
    · rw [corner_one] at hright
      simp only at hright
      omega
  · intro hq
    refine Or.inl ?_
    rw [dateText_eq, lights_append fun c hc => Or.inl (by simpa [ascii] using hc)]
    exact hq

/-- The characters of the time. -/
theorem headLights_time {tm : Tm} (h : Timely tm) {k i j : Nat} (hk : k < 5) (hi : i < 6)
    (hj : j < 8) :
    HeadLights tm (corner 90 1 1 k i j) ↔ lit ((timeText tm).getD k 32) i j = true := by
  have hone : ((1 : UInt8).toNat : Int) = 1 := rfl
  have hlength := length_timeText h
  rw [← @placed_line 90 1 1 (by decide) (by decide) (by decide) _
    (plain_of_printable fun c hc => printable_timeText hc) (by decide) (by rw [hone]; omega)
    k i j (by rw [hone]; omega) hi hj]
  constructor
  · intro hq
    rcases (headLights_cases h hq).2 with ⟨-, hleft⟩ | ⟨hq, -⟩
    · rw [corner_one] at hleft
      simp only at hleft
      omega
    · exact hq
  · exact Or.inr

/-! ## The lines of a screen -/

/-- The characters of a single line. -/
theorem bodyLights_one {text : Bytes} (h : LegibleText text) {k i j : Nat} (hk : k < 10)
    (hi : i < 6) (hj : j < 8) :
    BodyLights [text] (corner 0 17 2 k i j) ↔ lit ((visible text).getD k 32) i j = true :=
  lineLights_corner (by decide) h (by decide) (by omega) hi hj

/-- The characters of the first of two lines. -/
theorem bodyLights_first {first second : Bytes} (h : Legible [first, second]) {k i j : Nat}
    (hk : k < 8) (hi : i < 6) (hj : j < 8) : BodyLights [first, second] (corner 30 17 2 k i j) ↔
      lit ((visible first).getD k 32) i j = true := by
  obtain ⟨hfirst, -, hsecond⟩ := h
  refine (or_iff_left fun hq => ?_).trans
    (lineLights_corner (by decide) hfirst (by decide) (by omega) hi hj)
  have hbelow := (lineLights_behind (by decide) hsecond (by decide) hq).1
  rw [corner_two] at hbelow
  simp only at hbelow
  omega

/-- The characters of the second of two lines. -/
theorem bodyLights_second {first second : Bytes} (h : Legible [first, second]) {k i j : Nat}
    (hk : k < 8) (hi : i < 6) (hj : j < 8) : BodyLights [first, second] (corner 30 40 2 k i j) ↔
      lit ((visible second).getD k 32) i j = true := by
  obtain ⟨hfirst, hlength, hsecond⟩ := h
  refine (or_iff_right fun hq => ?_).trans
    (lineLights_corner (by decide) hsecond (by decide) (by omega) hi hj)
  have habove := lineLights_short (by decide) hfirst (by omega) hq
  rw [corner_two] at habove
  simp only at habove
  omega

/-- A single line begins where two lines leave a margin. -/
theorem exists_bodyLights_one {text first second : Bytes} (h : Legible [text])
    (h' : Legible [first, second]) : ∃ i j, i < 5 ∧ j < 8 ∧
      BodyLights [text] (corner 0 17 2 0 i j) ∧
      ¬ BodyLights [first, second] (corner 0 17 2 0 i j) := by
  obtain ⟨i, hi, j, hj, hlit⟩ := exists_lit (printable_getD h.1.1 0) h.2
  refine ⟨i, j, hi, hj, (bodyLights_one h.1 (by decide) (by omega) hj).mpr hlit, fun hq => ?_⟩
  have hright : ∀ {y : Int} {line : Bytes}, LegibleText line → 17 ≤ y ∧ y ≤ 40 →
      LineLights 30 y line (corner 0 17 2 0 i j) → False := by
    intro y line hline hy hq
    obtain ⟨hbelow, hmargin⟩ := lineLights_behind (by decide) hline ⟨by omega, by omega⟩ hq
    rw [corner_two] at hbelow hmargin
    simp only at hbelow hmargin
    omega
  rcases hq with hq | hq
  · exact hright h'.1 (by decide) hq
  · exact hright h'.2.2 (by decide) hq

theorem padded_eq {n : Nat} {text text' : Bytes} (h : ∀ c ∈ visible text, Printable c)
    (h' : ∀ c ∈ visible text', Printable c)
    (hlit : ∀ k < n, ∀ i < 5, ∀ j < 8, (lit ((visible text).getD k 32) i j = true ↔
      lit ((visible text').getD k 32) i j = true)) : padded n text = padded n text' :=
  List.map_congr_left fun k hk => getD_eq_of_lit h h' (hlit k (List.mem_range.mp hk))

/-- The points below the date tell the lines. -/
theorem body_readable {lines lines' : List Bytes} (h : Legible lines) (h' : Legible lines')
    (hsame : ∀ q : Int × Int, 0 ≤ q.1 → q.1 < 128 → 17 ≤ q.2 → q.2 < 64 →
      (BodyLights lines q ↔ BodyLights lines' q)) : readable lines = readable lines' := by
  have hcorner : ∀ x y : Int, 0 ≤ x → 17 ≤ y → y ≤ 40 → ∀ k i j : Nat, x + 12 * (k + 1) ≤ 128 →
      i < 5 → j < 8 → (BodyLights lines (corner x y 2 k i j) ↔
        BodyLights lines' (corner x y 2 k i j)) := by
    intro x y hx hy hy' k i j hk hi hj
    rw [corner_two]
    exact hsame _ (by simp only; omega) (by simp only; omega) (by simp only; omega)
      (by simp only; omega)
  rcases lines with - | ⟨text, - | ⟨second, - | ⟨third, rest⟩⟩⟩
  · cases h
  · rcases lines' with - | ⟨text', - | ⟨second', - | ⟨third', rest'⟩⟩⟩
    · cases h'
    · refine congrArg (fun line => [line]) (padded_eq h.1.1 h'.1.1 fun k hk i hi j hj => ?_)
      rw [← bodyLights_one h.1 hk (by omega) hj, ← bodyLights_one h'.1 hk (by omega) hj]
      exact hcorner 0 17 (by decide) (by decide) (by decide) k i j (by omega) hi hj
    · obtain ⟨i, j, hi, hj, hq, hnot⟩ := exists_bodyLights_one h h'
      exact absurd ((hcorner 0 17 (by decide) (by decide) (by decide) 0 i j (by decide) hi
        hj).mp hq) hnot
    · cases h'
  · rcases lines' with - | ⟨text', - | ⟨second', - | ⟨third', rest'⟩⟩⟩
    · cases h'
    · obtain ⟨i, j, hi, hj, hq, hnot⟩ := exists_bodyLights_one h' h
      exact absurd ((hcorner 0 17 (by decide) (by decide) (by decide) 0 i j (by decide) hi
        hj).mpr hq) hnot
    · have hfirst : padded 8 text = padded 8 text' :=
        padded_eq h.1.1 h'.1.1 fun k hk i hi j hj => by
          rw [← bodyLights_first h hk (by omega) hj, ← bodyLights_first h' hk (by omega) hj]
          exact hcorner 30 17 (by decide) (by decide) (by decide) k i j (by omega) hi hj
      have hsecond : padded 8 second = padded 8 second' :=
        padded_eq h.2.2.1 h'.2.2.1 fun k hk i hi j hj => by
          rw [← bodyLights_second h hk (by omega) hj, ← bodyLights_second h' hk (by omega) hj]
          exact hcorner 30 40 (by decide) (by decide) (by decide) k i j (by omega) hi hj
      rw [readable, readable, hfirst, hsecond]
    · cases h'
  · cases h

/-- The points at the top tell the date and the time. -/
theorem head_readable {tm tm' : Tm} (h : Timely tm) (h' : Timely tm')
    (hsame : ∀ q : Int × Int, 0 ≤ q.1 → q.1 < 128 → 0 ≤ q.2 → q.2 < 9 →
      (HeadLights tm q ↔ HeadLights tm' q)) : tm = tm' := by
  have hcorner : ∀ x : Int, 0 ≤ x → ∀ k i j : Nat, x + 6 * (k + 1) ≤ 128 → i < 5 → j < 8 →
      (HeadLights tm (corner x 1 1 k i j) ↔ HeadLights tm' (corner x 1 1 k i j)) := by
    intro x hx k i j hk hi hj
    rw [corner_one]
    exact hsame _ (by simp only; omega) (by simp only; omega) (by simp only; omega)
      (by simp only; omega)
  have hblank : ∀ tm, 32 ∉ dateCore tm := fun tm hmem => (printable_dateCore hmem).2 rfl
  have hdate : dateCore tm = dateCore tm' :=
    eq_of_getD (length_dateCore tm) (length_dateCore tm') (hblank tm) (hblank tm') fun k hk =>
      getD_eq_of_lit (fun c hc => (printable_dateCore hc).1)
        (fun c hc => (printable_dateCore hc).1) fun i hi j hj => by
        rw [← headLights_date h hk (by omega) hj, ← headLights_date h' hk (by omega) hj]
        exact hcorner 1 (by decide) k i j (by omega) hi hj
  have htime : timeText tm = timeText tm' := by
    have hlength := length_timeText h
    have hlength' := length_timeText h'
    apply List.ext_getElem (hlength.trans hlength'.symm)
    intro k hk hk'
    have hget : (timeText tm).getD k 32 = (timeText tm').getD k 32 :=
      getD_eq_of_lit (fun c hc => printable_timeText hc) (fun c hc => printable_timeText hc)
        fun i hi j hj => by
        rw [← headLights_time h (by omega) (by omega) hj,
          ← headLights_time h' (by omega) (by omega) hj]
        exact hcorner 90 (by decide) k i j (by omega) hi hj
    simpa only [List.getD_eq_getElem?_getD, List.getElem?_eq_getElem hk,
      List.getElem?_eq_getElem hk', Option.getD_some] using hget
  obtain ⟨hday, hmonth, hyear⟩ := dateCore_injective hdate
  obtain ⟨hhour, hminute⟩ := timeText_injective h h' htime
  cases tm
  cases tm'
  simp only at hday hmonth hyear hhour hminute
  rw [hday, hmonth, hyear, hhour, hminute]

theorem LegibleText.notMem {text : Bytes} (h : LegibleText text) : 255 ∉ text := by
  intro hmem
  have hvisible : 255 ∈ visible text := List.mem_filter.mpr ⟨hmem, by decide⟩
  exact absurd (h.1 255 hvisible).2 (by decide)

theorem Legible.displayable {lines : List Bytes} (h : Legible lines) : Displayable lines := by
  rcases lines with - | ⟨text, - | ⟨second, - | ⟨third, rest⟩⟩⟩
  · cases h
  · refine ⟨Or.inl rfl, fun line hline => ?_⟩
    obtain rfl := List.mem_singleton.mp hline
    exact h.1.notMem
  · refine ⟨Or.inr rfl, fun line hline => ?_⟩
    rcases List.mem_cons.mp hline with rfl | hline
    · exact h.1.notMem
    · obtain rfl := List.mem_singleton.mp hline
      exact h.2.2.notMem
  · cases h

/-- Each point of the panel is one of the picture. -/
theorem exists_view {q : Int × Int} (h1 : 0 ≤ q.1) (h2 : q.1 < 128) (h3 : 0 ≤ q.2)
    (h4 : q.2 < 64) : ∃ p, view 0 p = q :=
  ⟨(⟨q.1.toNat, by omega⟩, ⟨q.2.toNat, by omega⟩),
    Prod.ext (Int.toNat_of_nonneg h1) (Int.toNat_of_nonneg h3)⟩

/-- Two calls of `LEDprint` that end in the same frame, whatever the displays have shown before,
were made in the same minute of the same day with lines that read the same. -/
theorem frame_readable {s s' : Display} (h : s.driver.Mounted) (h' : s'.driver.Mounted)
    {tm tm' : Tm} (htime : Timely tm) (htime' : Timely tm') {lines lines' : List Bytes}
    (hlines : Legible lines) (hlines' : Legible lines') :
    ∃ t t', s.ledPrint tm lines = .ok t ∧ s'.ledPrint tm' lines' = .ok t' ∧
      (t.lastFrame = t'.lastFrame → tm = tm' ∧ readable lines = readable lines') := by
  obtain ⟨b, sent, x, y, hprint, hpixel⟩ := ledPrint_eq h tm hlines.displayable
  obtain ⟨b', sent', x', y', hprint', hpixel'⟩ := ledPrint_eq h' tm' hlines'.displayable
  refine ⟨_, _, hprint, hprint', fun hframe => ?_⟩
  rw [lastFrame_eq, lastFrame_eq] at hframe
  obtain rfl := frame_injective hframe
  have hsame : ∀ q : Int × Int, 0 ≤ q.1 → q.1 < 128 → 0 ≤ q.2 → q.2 < 64 →
      (HeadLights tm q ∨ BodyLights lines q ↔ HeadLights tm' q ∨ BodyLights lines' q) := by
    intro q h1 h2 h3 h4
    obtain ⟨p, rfl⟩ := exists_view h1 h2 h3 h4
    rw [← hpixel, hpixel']
  refine ⟨head_readable htime htime' fun q h1 h2 h3 h4 => ?_,
    body_readable hlines hlines' fun q h1 h2 h3 h4 => ?_⟩
  · -- The lines begin further below.
    have hbody : ∀ {lines}, Legible lines → ¬ BodyLights lines q := fun hlegible hq => by
      have := bodyLights_low hlegible hq
      omega
    have h := hsame q h1 h2 h3 (by omega)
    rwa [or_iff_left (hbody hlines), or_iff_left (hbody hlines')] at h
  · -- The date and the time end further up.
    have hhead : ∀ {tm}, Timely tm → ¬ HeadLights tm q := fun htime hq => by
      have := (headLights_cases htime hq).1
      omega
    have h := hsame q h1 h2 (by omega) h4
    rwa [or_iff_right (hhead htime), or_iff_right (hhead htime')] at h

set_option maxRecDepth 4000 in
/-- A greeting, and the screen that asks for a card. -/
theorem frame_readable_of_greeting : ∃ t t',
    Display.ledPrint ⟨5, 9, 1, 2, 54⟩ [ascii "Hello", ascii "A1"] ⟨blank 0, []⟩ = .ok t ∧
    Display.ledPrint ⟨5, 9, 1, 2, 54⟩ [ascii "ATTACH", ascii "RFCARD"] ⟨blank 0, []⟩ = .ok t' ∧
    (t.lastFrame = t'.lastFrame → (⟨5, 9, 1, 2, 54⟩ : Tm) = ⟨5, 9, 1, 2, 54⟩ ∧
      readable [ascii "Hello", ascii "A1"] = readable [ascii "ATTACH", ascii "RFCARD"]) :=
  frame_readable ⟨rfl, rfl⟩ ⟨rfl, rfl⟩ ⟨by decide, by decide⟩ ⟨by decide, by decide⟩
    ⟨⟨by decide, by decide⟩, by decide, ⟨by decide, by decide⟩⟩
    ⟨⟨by decide, by decide⟩, by decide, ⟨by decide, by decide⟩⟩

end Display

/-! ## What the sketch shows -/

/-- `LEDprint` reads the clock and shows one line or two. -/
theorem Sketch.ledPrint_lines {world : World} {s t : Sketch} {text : Str}
    (h : s.ledPrint world text = .ok t) : ∃ lines : List Bytes,
      (lines.length = 1 ∨ lines.length = 2) ∧ t.trace = s.trace ++ [.display lines] ∧
      t.tm = world.rtc s.clock ∧ t.clock = s.clock ∧ t.board = s.board := by
  rw [ledPrint] at h
  obtain ⟨reset, -, h⟩ := bind_eq_ok.mp h
  split at h
  · obtain rfl := Except.ok.inj h
    exact ⟨_, Or.inr rfl, rfl, rfl, rfl, rfl⟩
  obtain ⟨denied, -, h⟩ := bind_eq_ok.mp h
  split at h
  · obtain rfl := Except.ok.inj h
    exact ⟨_, Or.inr rfl, rfl, rfl, rfl, rfl⟩
  obtain ⟨⟨member, u⟩, huser, h⟩ := bind_eq_ok.mp h
  obtain ⟨⟨member', pupa, code⟩, -, huser⟩ := bind_eq_ok.mp huser
  obtain ⟨-, rfl⟩ := Prod.mk.inj (Except.ok.inj huser)
  simp only at h
  split at h
  all_goals
    obtain ⟨unknown, -, h⟩ := bind_eq_ok.mp h
    obtain ⟨shown, -, h⟩ := bind_eq_ok.mp h
    obtain rfl := Except.ok.inj h
    refine ⟨_, ?_, rfl, rfl, rfl, rfl⟩
    split
    · exact Or.inl rfl
    · exact Or.inr rfl

end SmartDoor
