import SmartDoor.Display.Drawing
import Mathlib.Tactic.Positivity
import Mathlib.Tactic.Ring

/-!
# Characters and texts

A character is drawn as the dots of its cell of six by eight, each of them a square of the text
size, and nothing else is touched. A text is drawn character by character as the cursor goes on:
with the automatic wrap on, each of its cells lies between the left and the right edge of the
panel, and no two of them overlap.
-/

namespace SmartDoor

open CString Ink

/-- A dot of a character. The sixth column is blank. -/
def lit (c : UInt8) (i j : Nat) : Bool := decide (i < 5) && bit (font.getD (c.toNat * 5 + i) 0) j

/-- What is done at a dot: where it is not lit, only a background of another color is drawn. -/
def paint (color bg : UInt16) (set : Bool) : Option (Bool → Bool) :=
  if set then some (hue color) else if bg ≠ color then some (hue bg) else none

instance (x y w h : Int) (q : Int × Int) : Decidable (q ∈ box x y w h) :=
  decidable_of_iff (x ≤ q.1 ∧ q.1 < x + w ∧ y ≤ q.2 ∧ q.2 < y + h) Iff.rfl

/-- The ink of some dots of a column, with the corner of the first of them. -/
def columnInk (color bg : UInt16) (s : Nat) (x y : Int) (n : Nat) (line : UInt8) (q : Int × Int) :
    Option (Bool → Bool) :=
  if q ∈ box x y s (n * s) then paint color bg (bit line ((q.2 - y) / s).toNat) else none

/-- The ink of some columns of a character, with the corner of the first of them. -/
def glyphInk (color bg : UInt16) (s : Nat) (x y : Int) (c : UInt8) (i n : Nat) (q : Int × Int) :
    Option (Bool → Bool) :=
  if q ∈ box x y (n * s) (8 * s) then
    paint color bg (lit c (i + ((q.1 - x) / s).toNat) ((q.2 - y) / s).toNat)
  else none

theorem bit_zero (line : UInt8) : (line &&& 1 ≠ 0) ↔ bit line 0 = true := by
  have hmod : (line &&& 1).toNat = line.toNat % 2 := by
    rw [UInt8.toNat_and]
    exact Nat.and_one_is_mod _
  have hbit : bit line 0 = decide (line.toNat % 2 = 1) := by
    simp [bit, BitVec.getLsbD, Nat.testBit_zero]
  rw [hbit, decide_eq_true_iff, ne_eq, ← UInt8.toNat_inj, hmod, UInt8.toNat_zero]
  omega

theorem bit_shiftRight (line : UInt8) (k : Nat) : bit (line >>> 1) k = bit line (k + 1) := by
  simp [bit, Nat.add_comm]

/-- The dots of a column from the second one on. -/
theorem columnInk_succ (color bg : UInt16) {s : Nat} (x y : Int) (n : Nat) (line : UInt8) :
    both (fun q => if q ∈ box x y s s then paint color bg (bit line 0) else none)
      (columnInk color bg s x (y + s) n (line >>> 1)) = columnInk color bg s x y (n + 1) line := by
  funext q
  have hmul : ((n + 1 : Nat) : Int) * s = n * s + s := by
    push_cast
    ring
  have hnonneg : 0 ≤ (n : Int) * s := by positivity
  rw [both, columnInk, columnInk, hmul]
  simp only [mem_box]
  by_cases hfirst : x ≤ q.1 ∧ q.1 < x + s ∧ y ≤ q.2 ∧ q.2 < y + s
  · have hzero : (q.2 - y) / s = 0 := Int.ediv_eq_zero_of_lt (by omega) (by omega)
    rw [if_pos hfirst, if_neg (by omega), if_pos (by omega), hzero, Option.or_none]
    rfl
  · rw [if_neg hfirst, Option.none_or]
    by_cases hrest : x ≤ q.1 ∧ q.1 < x + s ∧ y + s ≤ q.2 ∧ q.2 < y + s + n * s
    · have hs : (0 : Int) < s := by omega
      have hdiv : (q.2 - y) / s = (q.2 - (y + s)) / s + 1 := by
        rw [show q.2 - y = q.2 - (y + s) + 1 * s by ring, Int.add_mul_ediv_right _ _ hs.ne']
      have hpos : 0 ≤ (q.2 - (y + s)) / (s : Int) := Int.ediv_nonneg (by omega) hs.le
      rw [if_pos hrest, if_pos (by omega), hdiv, bit_shiftRight,
        Int.toNat_add hpos (by decide)]
      rfl
    · rw [if_neg hrest, if_neg (by omega)]

/-- The columns of a character from the second one on. -/
theorem glyphInk_succ (color bg : UInt16) {s : Nat} (x y : Int) (c : UInt8) (i n : Nat)
    {line : UInt8} (hline : ∀ j, bit line j = lit c i j) :
    both (columnInk color bg s x y 8 line) (glyphInk color bg s (x + s) y c (i + 1) n) =
      glyphInk color bg s x y c i (n + 1) := by
  funext q
  have hmul : ((n + 1 : Nat) : Int) * s = n * s + s := by
    push_cast
    ring
  have hnonneg : 0 ≤ (n : Int) * s := by positivity
  rw [both, columnInk, glyphInk, glyphInk, hmul]
  simp only [mem_box, hline]
  by_cases hfirst : x ≤ q.1 ∧ q.1 < x + s ∧ y ≤ q.2 ∧ q.2 < y + (8 : Nat) * s
  · have hzero : (q.1 - x) / s = 0 := Int.ediv_eq_zero_of_lt (by omega) (by omega)
    rw [if_pos hfirst, if_neg (by omega), if_pos (by omega), hzero, Option.or_none]
    rfl
  · rw [if_neg hfirst, Option.none_or]
    by_cases hrest : x + s ≤ q.1 ∧ q.1 < x + s + n * s ∧ y ≤ q.2 ∧ q.2 < y + 8 * s
    · have hs : (0 : Int) < s := by omega
      have hdiv : (q.1 - x) / s = (q.1 - (x + s)) / s + 1 := by
        rw [show q.1 - x = q.1 - (x + s) + 1 * s by ring, Int.add_mul_ediv_right _ _ hs.ne']
      have hpos : 0 ≤ (q.1 - (x + s)) / (s : Int) := Int.ediv_nonneg (by omega) hs.le
      rw [if_pos hrest, if_pos (by omega), hdiv, Int.toNat_add hpos (by decide),
        Nat.add_assoc, Nat.add_comm 1]
      rfl
    · rw [if_neg hrest, if_neg (by omega)]

namespace SSD1306

/-! ## A character -/

/-- A drawing with an ink that is given in the coordinates of the rotation. -/
def Paints (d : SSD1306) (r : Except Fault SSD1306) (s : Int × Int → Option (Bool → Bool)) : Prop :=
  d.Draws r fun p => s (view d.rotation p)

theorem Draws.paints {d : SSD1306} {r : Except Fault SSD1306} {x y w h : Int}
    {f : Bool → Bool} (hr : d.Draws r (fill (region d.rotation (box x y w h)) f)) :
    d.Paints r fun q => if q ∈ box x y w h then some f else none := by
  obtain ⟨b, hb, hpixel⟩ := hr
  refine ⟨b, hb, hpixel.trans (congrFun (congrArg on (funext fun p => ?_)) _)⟩
  rw [fill, region]
  by_cases hp : view d.rotation p ∈ box x y w h
  · exact (if_pos hp).trans (if_pos hp).symm
  · exact (if_neg hp).trans (if_neg hp).symm

theorem Paints.bind {d : SSD1306} {r : Except Fault SSD1306} {g : SSD1306 → Except Fault SSD1306}
    {s t u : Int × Int → Option (Bool → Bool)} (hr : d.Paints r s)
    (hg : ∀ b, Paints { d with buffer := b } (g { d with buffer := b }) t)
    (hapart : Apart s t) (hboth : both s t = u) : d.Paints (r >>= g) u := by
  rw [Paints, ← hboth]
  exact Draws.bind hr (t := fun p => t (view d.rotation p)) hg fun p => hapart (view d.rotation p)

theorem paints_nothing {d : SSD1306} {s : Int × Int → Option (Bool → Bool)}
    (h : ∀ p, s (view d.rotation p) = none) : d.Paints (.ok d) s :=
  ⟨d.buffer, rfl, funext fun p => by rw [on, h p]; rfl⟩

/-- A dot is a square of the text size. -/
theorem paints_dot (d : SSD1306) {x y : Int} {size : UInt8} {i j : Nat} {color : UInt16}
    (hcolor : color ≤ INVERSE) (hx : -2000 ≤ x ∧ x + i * size.toNat ≤ 2000)
    (hy : -3000 ≤ y ∧ y + j * size.toNat ≤ 3000) :
    d.Paints (d.dot x y size i j color) fun q =>
      if q ∈ box (x + i * size.toNat) (y + j * size.toNat) size.toNat size.toNat then
        some (hue color) else none := by
  have hsize := size.toNat_lt
  have hi : 0 ≤ (i : Int) * size.toNat := by positivity
  have hj : 0 ≤ (j : Int) * size.toNat := by positivity
  rw [dot]
  by_cases hone : size = 1
  · subst hone
    have hx1 : x + i * (1 : UInt8).toNat = x + i := by simp
    have hy1 : y + j * (1 : UInt8).toNat = y + j := by simp
    rw [hx1] at hx ⊢
    rw [hy1] at hy ⊢
    rw [if_pos rfl, wrap16_eq (by omega) (by omega), wrap16_eq (by omega) (by omega)]
    exact (d.draws_drawPixel (x + i) (y + j) color).paints
  · rw [if_neg hone, wrap16_eq (by omega) (by omega), wrap16_eq (by omega) (by omega)]
    exact (d.draws_fillRect hcolor ⟨by omega, by omega⟩ ⟨by omega, by omega⟩
      ⟨by omega, by omega⟩ ⟨by omega, by omega⟩).paints

theorem dotLoop_succ (x y : Int) (color bg : UInt16) (size : UInt8) (i n j : Nat) (line : UInt8)
    (d : SSD1306) : dotLoop x y color bg size i (n + 1) j line d =
      (if line &&& 1 ≠ 0 then d.dot x y size i j color
        else if bg ≠ color then d.dot x y size i j bg else .ok d) >>=
          dotLoop x y color bg size i n (j + 1) (line >>> 1) := by
  rw [dotLoop]
  split
  · rfl
  split <;> rfl

/-- The inner `for` of `drawChar`. -/
theorem paints_dotLoop {color bg : UInt16} (hcolor : color ≤ INVERSE) (hbg : bg ≤ INVERSE)
    {x y : Int} {size : UInt8} {i : Nat} (hx : -2000 ≤ x ∧ x + i * size.toNat ≤ 2000)
    (hy : -3000 ≤ y ∧ y + 8 * size.toNat ≤ 3000) (n : Nat) {j : Nat} (hj : j + n ≤ 8) (line : UInt8)
    (d : SSD1306) :
    d.Paints (dotLoop x y color bg size i n j line d)
      (columnInk color bg size.toNat (x + i * size.toNat) (y + j * size.toNat) n line) := by
  induction n generalizing j line d with
  | zero =>
    refine paints_nothing fun p => if_neg fun hp => ?_
    obtain ⟨-, -, hlow, hhigh⟩ := hp
    rw [Int.natCast_zero, Int.zero_mul] at hhigh
    omega
  | succ n ih =>
    have hrow : y + j * size.toNat ≤ 3000 := by
      have : (j : Int) * size.toNat ≤ 8 * size.toNat :=
        Int.mul_le_mul_of_nonneg_right (by omega) (by omega)
      omega
    have hfirst : d.Paints (if line &&& 1 ≠ 0 then d.dot x y size i j color
        else if bg ≠ color then d.dot x y size i j bg else .ok d) fun q =>
        if q ∈ box (x + i * size.toNat) (y + j * size.toNat) size.toNat size.toNat then
          paint color bg (bit line 0) else none := by
      by_cases hbit : line &&& 1 ≠ 0
      · rw [if_pos hbit, (bit_zero line).mp hbit]
        exact d.paints_dot hcolor hx ⟨hy.1, hrow⟩
      · rw [if_neg hbit, Bool.eq_false_iff.mpr fun h => hbit ((bit_zero line).mpr h)]
        by_cases hsame : bg ≠ color
        · simp only [paint, Bool.false_eq_true, if_false, if_pos hsame]
          exact d.paints_dot hbg hx ⟨hy.1, hrow⟩
        · simp only [paint, Bool.false_eq_true, if_false, if_neg hsame, ite_self]
          exact paints_nothing fun _ => rfl
    have hnext : y + (j + 1 : Nat) * size.toNat = y + j * size.toNat + size.toNat := by
      push_cast
      ring
    rw [dotLoop_succ]
    refine hfirst.bind (fun b => ?_) (fun q => ?_) (columnInk_succ color bg
      (x + i * size.toNat) (y + j * size.toNat) n line)
    · rw [← hnext]
      exact ih (by omega) (line >>> 1) { d with buffer := b }
    · by_cases hq : q ∈ box (x + i * size.toNat) (y + j * size.toNat) size.toNat size.toNat
      · obtain ⟨-, -, -, hhigh⟩ := hq
        exact Or.inr (if_neg fun hq' => absurd hq'.2.2.1 (by omega))
      · exact Or.inl (if_neg hq)

theorem readFont_some {i : Nat} {line : UInt8} (h : font[i]? = some line) :
    readFont i = .ok line := by
  unfold readFont
  generalize font[i]? = entry at h
  subst h
  rfl

theorem readFont_eq {c : UInt8} (hc : c ≠ 255) {i : Nat} (hi : i < 5) :
    ∃ line, readFont (c.toNat * 5 + i) = .ok line ∧ ∀ j, bit line j = lit c i j := by
  have hlt : c.toNat < 255 := by
    have h := c.toNat_lt
    have hne : c.toNat ≠ 255 := fun h => hc (UInt8.toNat_inj.mp h)
    omega
  have hsize : c.toNat * 5 + i < font.size := by
    rw [font_size]
    omega
  obtain ⟨line, hline⟩ : ∃ line, font[c.toNat * 5 + i]? = some line :=
    ⟨_, Array.getElem?_eq_getElem hsize⟩
  refine ⟨line, readFont_some hline, fun j => ?_⟩
  rw [lit, decide_eq_true hi, Bool.true_and, Array.getD_eq_getD_getElem?, hline, Option.getD_some]

theorem columnLoop_succ (x y : Int) (c : UInt8) (color bg : UInt16) (size : UInt8) (n i : Nat)
    (d : SSD1306) : columnLoop x y c color bg size (n + 1) i d =
      (if i = 5 then .ok 0 else readFont (c.toNat * 5 + i)) >>= fun line =>
        dotLoop x y color bg size i 8 0 line d >>= columnLoop x y c color bg size n (i + 1) := by
  rw [columnLoop]
  split <;> rfl

/-- The outer `for` of `drawChar`. -/
theorem paints_columnLoop {c : UInt8} (hc : c ≠ 255) {color bg : UInt16} (hcolor : color ≤ INVERSE)
    (hbg : bg ≤ INVERSE) {x y : Int} {size : UInt8} (hx : -2000 ≤ x ∧ x + 6 * size.toNat ≤ 2000)
    (hy : -3000 ≤ y ∧ y + 8 * size.toNat ≤ 3000) (n : Nat) {i : Nat} (hi : i + n = 6)
    (d : SSD1306) :
    d.Paints (columnLoop x y c color bg size n i d)
      (glyphInk color bg size.toNat (x + i * size.toNat) y c i n) := by
  induction n generalizing i d with
  | zero =>
    refine paints_nothing fun p => if_neg fun hp => ?_
    obtain ⟨hlow, hhigh, -, -⟩ := hp
    rw [Int.natCast_zero, Int.zero_mul] at hhigh
    omega
  | succ n ih =>
    have hright : x + i * size.toNat ≤ 2000 := by
      have : (i : Int) * size.toNat ≤ 6 * size.toNat :=
        Int.mul_le_mul_of_nonneg_right (by omega) (by omega)
      omega
    obtain ⟨line, hline, hlit⟩ : ∃ line,
        (if i = 5 then .ok 0 else readFont (c.toNat * 5 + i)) = Except.ok line ∧
          ∀ j, bit line j = lit c i j := by
      by_cases hlast : i = 5
      · refine ⟨0, if_pos hlast, fun j => ?_⟩
        rw [lit, decide_eq_false (by omega), Bool.false_and]
        simp [bit]
      · rw [if_neg hlast]
        exact readFont_eq hc (by omega)
    have hfirst := paints_dotLoop hcolor hbg (i := i) ⟨hx.1, hright⟩ hy 8 (j := 0) le_rfl line d
    rw [Int.natCast_zero, Int.zero_mul, Int.add_zero] at hfirst
    have hnext : x + (i + 1 : Nat) * size.toNat = x + i * size.toNat + size.toNat := by
      push_cast
      ring
    rw [columnLoop_succ, hline, ok_bind]
    refine hfirst.bind (fun b => ?_) (fun q => ?_)
      (glyphInk_succ color bg (x + i * size.toNat) y c i n hlit)
    · rw [← hnext]
      exact ih (by omega) { d with buffer := b }
    · by_cases hq : q ∈ box (x + i * size.toNat) y size.toNat ((8 : Nat) * size.toNat)
      · obtain ⟨-, hhigh, -, -⟩ := hq
        exact Or.inr (if_neg fun hq' => absurd hq'.1 (by omega))
      · exact Or.inl (if_neg hq)

/-- The cell of a character has a part in the panel. -/
def Meets (d : SSD1306) (x y : Int) (size : UInt8) : Prop :=
  x < d.width ∧ y < d.height ∧ 0 < x + 6 * size.toNat ∧ 0 < y + 8 * size.toNat

/-- Within the range of an `int`. -/
def Int16 (v : Int) : Prop := -32768 ≤ v ∧ v < 32768

theorem drawChar_eq (d : SSD1306) {x y : Int} (hx : Int16 x) (hy : Int16 y) (c : UInt8)
    (color bg : UInt16) {size : UInt8} (hpos : 0 < size.toNat) : (d.Meets x y size ∧
      d.drawChar x y c color bg size = columnLoop x y c color bg size 6 0 d) ∨
    (¬ d.Meets x y size ∧ d.drawChar x y c color bg size = .ok d) := by
  have hsize := size.toNat_lt
  obtain ⟨hx1, hx2⟩ := hx
  obtain ⟨hy1, hy2⟩ := hy
  have hwidth := d.width_le
  have hheight := d.height_le
  rw [drawChar, Meets]
  by_cases hmeets : x < d.width ∧ y < d.height ∧ 0 < x + 6 * size.toNat ∧ 0 < y + 8 * size.toNat
  · refine Or.inl ⟨hmeets, if_neg ?_⟩
    rw [wrap16_eq (by omega) (by omega), wrap16_eq (by omega) (by omega)]
    omega
  · refine Or.inr ⟨hmeets, if_pos ?_⟩
    by_cases hright : x ≥ d.width
    · exact Or.inl hright
    by_cases hbottom : y ≥ d.height
    · exact Or.inr (Or.inl hbottom)
    rw [wrap16_eq (by omega) (by omega), wrap16_eq (by omega) (by omega)]
    omega

theorem paints_nothing_of_not_meets {d : SSD1306} {x y : Int} {size : UInt8}
    (h : ¬ d.Meets x y size) (color bg : UInt16) (c : UInt8) :
    d.Paints (.ok d) (glyphInk color bg size.toNat x y c 0 6) := by
  refine paints_nothing fun p => if_neg fun hp => h ?_
  have hbounds := d.view_bounds p
  obtain ⟨h1, h2, h3, h4⟩ := hp
  have h2' : (view d.rotation p).1 < x + 6 * size.toNat := h2
  exact ⟨by omega, by omega, by omega, by omega⟩

/-- `drawChar` paints the dots of its cell. -/
theorem paints_drawChar (d : SSD1306) {x y : Int} (hx : Int16 x) (hy : Int16 y) {c : UInt8}
    (hc : c ≠ 255) {color bg : UInt16} (hcolor : color ≤ INVERSE) (hbg : bg ≤ INVERSE)
    {size : UInt8} (hpos : 0 < size.toNat) :
    d.Paints (d.drawChar x y c color bg size) (glyphInk color bg size.toNat x y c 0 6) := by
  have hwidth := d.width_le
  have hheight := d.height_le
  rcases d.drawChar_eq hx hy c color bg hpos with ⟨hmeets, heq⟩ | ⟨hmeets, heq⟩
  · obtain ⟨hright, hbottom, hleft, htop⟩ := hmeets
    have hsize := size.toNat_lt
    have h := @paints_columnLoop c hc color bg hcolor hbg x y size ⟨by omega, by omega⟩
      ⟨by omega, by omega⟩ 6 0 rfl d
    rwa [Int.natCast_zero, Int.zero_mul, Int.add_zero, ← heq] at h
  · rw [heq]
    exact paints_nothing_of_not_meets hmeets color bg c

theorem readFont_last : readFont ((255 : UInt8).toNat * 5 + 0) = .error .overread := by
  have hnone : font[(255 : UInt8).toNat * 5 + 0]? = none := by
    rw [Array.getElem?_eq_none_iff, font_size]
    decide
  unfold readFont
  generalize font[(255 : UInt8).toNat * 5 + 0]? = entry at hnone
  subst hnone
  rfl

/-- In each rotation, at each place, in each size and in any two colors `drawChar` does to the
points of the cell what its dots say, and touches no other point. Only the character 255, which
the font does not have, is a read past the font, and only where a part of its cell lies on the
panel. -/
theorem drawChar_cell (d : SSD1306) {x y : Int} (hx : Int16 x) (hy : Int16 y) (c : UInt8)
    {color bg : UInt16} (hcolor : color ≤ INVERSE) (hbg : bg ≤ INVERSE) {size : UInt8}
    (hpos : 0 < size.toNat) :
    (c = 255 ∧ d.Meets x y size → d.drawChar x y c color bg size = .error .overread) ∧
      (¬ (c = 255 ∧ d.Meets x y size) → d.Draws (d.drawChar x y c color bg size) fun p =>
        glyphInk color bg size.toNat x y c 0 6 (view d.rotation p)) := by
  constructor
  · rintro ⟨rfl, hmeets⟩
    rcases d.drawChar_eq hx hy 255 color bg hpos with ⟨-, heq⟩ | ⟨hnot, -⟩
    · rw [heq, columnLoop_succ, if_neg (by decide), readFont_last]
      rfl
    · exact absurd hmeets hnot
  · intro hnot
    by_cases hc : c = 255
    · have hmeets : ¬ d.Meets x y size := fun hmeets => hnot ⟨hc, hmeets⟩
      rcases d.drawChar_eq hx hy c color bg hpos with ⟨h, -⟩ | ⟨-, heq⟩
      · exact absurd h hmeets
      · rw [heq]
        exact paints_nothing_of_not_meets hmeets color bg c
    · exact d.paints_drawChar hx hy hc hcolor hbg hpos

/-- A large character that the left edge of the panel cuts, in white on black. -/
theorem drawChar_cell_at_edge :
    (blank 0).Draws ((blank 0).drawChar (-3) 20 65 WHITE BLACK 2) fun p =>
      glyphInk WHITE BLACK 2 (-3) 20 65 0 6 (view 0 p) :=
  ((blank 0).drawChar_cell ⟨by omega, by omega⟩ ⟨by omega, by omega⟩ 65 (by decide) (by decide)
    (by decide)).2 fun h => absurd h.1 (by decide)

/-! ## Texts -/

/-- Where the cursor goes behind a character. -/
def next (c : UInt8) (d : SSD1306) : Int × Int :=
  let line := (0, wrap16 (d.cursorY + d.textsize.toNat * 8))
  let x := wrap16 (d.cursorX + d.textsize.toNat * 6)
  if c = 10 then line
  else if c = 13 then (d.cursorX, d.cursorY)
  else if d.wrap ∧ x > wrap16 (d.width - d.textsize.toNat * 6) then line
  else (x, d.cursorY)

/-- What a character does to the cursor. -/
def advance (c : UInt8) (d : SSD1306) : SSD1306 :=
  { d with cursorX := (d.next c).1, cursorY := (d.next c).2 }

/-- What a text does to the cursor. -/
def advances (text : List UInt8) (d : SSD1306) : SSD1306 := text.foldl (fun d c => d.advance c) d

/-- A character at its place. -/
structure Letter where
  x : Int
  y : Int
  c : UInt8

/-- The characters of a text that are drawn. -/
def letters : List UInt8 → SSD1306 → List Letter
  | [], _ => []
  | c :: text, d =>
    if c = 10 ∨ c = 13 then letters text (d.advance c)
    else ⟨d.cursorX, d.cursorY, c⟩ :: letters text (d.advance c)

theorem advance_buffer (c : UInt8) (d : SSD1306) (b : Buffer) :
    advance c { d with buffer := b } = { d.advance c with buffer := b } := rfl

theorem letters_buffer (text : List UInt8) (d : SSD1306) (b : Buffer) :
    letters text { d with buffer := b } = letters text d := by
  induction text generalizing d with
  | nil => rfl
  | cons c text ih => rw [letters, letters, advance_buffer, ih]

theorem advances_buffer (text : List UInt8) (d : SSD1306) (b : Buffer) :
    advances text { d with buffer := b } = { d.advances text with buffer := b } := by
  induction text generalizing d with
  | nil => rfl
  | cons c text ih => exact (congrArg (advances text) (advance_buffer c d b)).trans (ih _)

theorem int16_wrap16 (v : Int) : Int16 (wrap16 v) := by
  rw [Int16, wrap16, Int.bmod_def]
  omega

theorem write_of_ne {c : UInt8} (hn : c ≠ 10) (hr : c ≠ 13) (d : SSD1306) :
    d.write c = d.drawChar d.cursorX d.cursorY c d.textcolor d.textbgcolor d.textsize >>=
      fun d => .ok (d.advance c) := by
  rw [write, if_neg hn, if_neg hr]
  cases d.drawChar d.cursorX d.cursorY c d.textcolor d.textbgcolor d.textsize with
  | error fault => rfl
  | ok d =>
    simp only [ok_bind, advance, next, if_neg hn, if_neg hr]
    by_cases hwrap : d.wrap ∧
        wrap16 (d.cursorX + d.textsize.toNat * 6) > wrap16 (d.width - d.textsize.toNat * 6)
    · simp only [if_pos hwrap]
      exact if_pos hwrap
    · simp only [if_neg hwrap]
      exact if_neg hwrap

/-- The two characters that only the cursor sees. -/
theorem write_of_eq {c : UInt8} (h : c = 10 ∨ c = 13) (d : SSD1306) :
    d.write c = .ok (d.advance c) := by
  rcases h with rfl | rfl <;> rfl

/-- Texts can be printed: the colors are colors, the size is a size. -/
structure Prints (d : SSD1306) : Prop where
  x : Int16 d.cursorX
  y : Int16 d.cursorY
  color : d.textcolor ≤ INVERSE
  background : d.textbgcolor ≤ INVERSE
  size : 0 < d.textsize.toNat

theorem Prints.advance {d : SSD1306} (h : d.Prints) (c : UInt8) : (d.advance c).Prints := by
  have hzero : Int16 0 := ⟨by omega, by omega⟩
  have hnext : Int16 (d.next c).1 ∧ Int16 (d.next c).2 := by
    rw [next]
    split
    · exact ⟨hzero, int16_wrap16 _⟩
    split
    · exact ⟨h.x, h.y⟩
    split
    · exact ⟨hzero, int16_wrap16 _⟩
    · exact ⟨int16_wrap16 _, h.y⟩
  exact ⟨hnext.1, hnext.2, h.color, h.background, h.size⟩

/-- The picture with some characters on it, one after the other. -/
noncomputable def typeset (d : SSD1306) (ls : List Letter) (img : Pixel → Bool) : Pixel → Bool :=
  ls.foldl (fun img l => on (fun p => glyphInk d.textcolor d.textbgcolor d.textsize.toNat l.x l.y
    l.c 0 6 (view d.rotation p)) img) img

/-- `print` draws the characters of its text where the cursor is when their turn comes. -/
theorem print_eq {d : SSD1306} (h : d.Prints) {text : List UInt8} (htext : 255 ∉ text) :
    ∃ b, d.print text = .ok { d.advances text with buffer := b } ∧
      b.pixel = d.typeset (letters text d) d.picture := by
  induction text generalizing d with
  | nil => exact ⟨d.buffer, rfl, rfl⟩
  | cons c text ih =>
    have hc : c ≠ 255 := fun hc => htext (hc ▸ List.mem_cons_self)
    have htext : 255 ∉ text := fun hmem => htext (List.mem_cons_of_mem c hmem)
    -- What is printed behind the character, on a picture on which it is drawn or skipped.
    have hrest : ∀ b : Buffer, ∃ b', print text { d.advance c with buffer := b } =
        .ok { d.advances (c :: text) with buffer := b' } ∧
          b'.pixel = d.typeset (letters text (d.advance c)) b.pixel := by
      intro b
      have hprints : Prints { d.advance c with buffer := b } := ⟨(h.advance c).x, (h.advance c).y,
        (h.advance c).color, (h.advance c).background, (h.advance c).size⟩
      obtain ⟨b', hb', hpixel⟩ := ih hprints htext
      refine ⟨b', ?_, ?_⟩
      · rw [hb', advances_buffer]
        rfl
      · rw [hpixel, letters_buffer]
        rfl
    rw [print, List.foldlM_cons]
    by_cases hskip : c = 10 ∨ c = 13
    · obtain ⟨b', hb', hpixel⟩ := hrest d.buffer
      rw [write_of_eq hskip, ok_bind, letters, if_pos hskip]
      exact ⟨b', hb', hpixel⟩
    · obtain ⟨hn, hr⟩ := not_or.mp hskip
      obtain ⟨b, hdraw, hpaint⟩ := d.paints_drawChar h.x h.y hc h.color h.background h.size
      obtain ⟨b', hb', hpixel⟩ := hrest b
      rw [write_of_ne hn hr, hdraw, ok_bind, ok_bind, advance_buffer, letters, if_neg hskip]
      exact ⟨b', hb', hpixel.trans (congrArg (d.typeset _) hpaint)⟩

/-! ## Lines -/

/-- The cursor leaves room for a character on its line. -/
structure Fits (d : SSD1306) : Prop where
  wrap : d.wrap = true
  left : 0 ≤ d.cursorX
  right : d.cursorX + 6 * d.textsize.toNat ≤ d.width

/-- The next place is on the same line to the right, or at the beginning of the next line. -/
theorem Fits.next {d : SSD1306} (h : d.Fits) (c : UInt8) :
    (d.advance c).Fits ∧ (d.next c).1 + 6 * d.textsize.toNat ≤ d.width ∧ 0 ≤ (d.next c).1 ∧
      (d.next c = (0, wrap16 (d.cursorY + d.textsize.toNat * 8)) ∨
        c = 13 ∧ d.next c = (d.cursorX, d.cursorY) ∨
        d.next c = (d.cursorX + 6 * d.textsize.toNat, d.cursorY)) := by
  have hleft := h.left
  have hright := h.right
  have hwidth := d.width_le
  have hcases : d.next c = (0, wrap16 (d.cursorY + d.textsize.toNat * 8)) ∨
      c = 13 ∧ d.next c = (d.cursorX, d.cursorY) ∨
      d.cursorX + 6 * d.textsize.toNat + 6 * d.textsize.toNat ≤ d.width ∧
        d.next c = (d.cursorX + 6 * d.textsize.toNat, d.cursorY) := by
    rw [SSD1306.next, wrap16_eq (x := d.width - _) (by omega) (by omega),
      wrap16_eq (x := d.cursorX + _) (by omega) (by omega)]
    by_cases hn : c = 10
    · exact Or.inl (if_pos hn)
    by_cases hr : c = 13
    · exact Or.inr (Or.inl ⟨hr, (if_neg hn).trans (if_pos hr)⟩)
    by_cases hwrap : d.cursorX + d.textsize.toNat * 6 > d.width - d.textsize.toNat * 6
    · exact Or.inl ((if_neg hn).trans ((if_neg hr).trans (if_pos ⟨h.wrap, hwrap⟩)))
    · refine Or.inr (Or.inr ⟨by omega, ?_⟩)
      rw [if_neg hn, if_neg hr, if_neg fun hw => hwrap hw.2, Int.mul_comm]
  have hplace : 0 ≤ (d.next c).1 ∧ (d.next c).1 + 6 * d.textsize.toNat ≤ d.width := by
    rcases hcases with heq | ⟨-, heq⟩ | ⟨hroom, heq⟩ <;> rw [heq] <;> simp only <;> omega
  exact ⟨⟨h.wrap, hplace.1, hplace.2⟩, hplace.2, hplace.1, hcases.imp_right (Or.imp_right And.right)⟩

/-- In a text that ends above the wrap of the cursor, a character moves the cursor down by no more
than one line, and the rest of the text still ends above the wrap. -/
theorem Fits.step {d : SSD1306} (h : d.Fits) {c : UInt8} {text : List UInt8}
    (hlow : -32768 ≤ d.cursorY)
    (hhigh : d.cursorY + (c :: text).length * (8 * d.textsize.toNat) < 32768) :
    -32768 ≤ (d.advance c).cursorY ∧
      (d.advance c).cursorY + text.length * (8 * (d.advance c).textsize.toNat) < 32768 ∧
      (d.next c = (0, d.cursorY + d.textsize.toNat * 8) ∨
        c = 13 ∧ d.next c = (d.cursorX, d.cursorY) ∨
        d.next c = (d.cursorX + 6 * d.textsize.toNat, d.cursorY)) := by
  have hnonneg : 0 ≤ (text.length : Int) * (8 * d.textsize.toNat) := by positivity
  have hlength : ((c :: text).length : Int) * (8 * d.textsize.toNat) =
      text.length * (8 * d.textsize.toNat) + 8 * d.textsize.toNat := by
    rw [List.length_cons]
    push_cast
    ring
  rw [hlength] at hhigh
  obtain ⟨-, -, -, hnext⟩ := h.next c
  rw [wrap16_eq (by omega) (by omega)] at hnext
  have hy : d.cursorY ≤ (d.next c).2 ∧ (d.next c).2 ≤ d.cursorY + 8 * d.textsize.toNat := by
    rcases hnext with heq | ⟨-, heq⟩ | heq <;> rw [heq] <;> simp only <;> omega
  refine ⟨?_, ?_, hnext⟩
  · change -32768 ≤ (d.next c).2
    omega
  · change (d.next c).2 + text.length * (8 * d.textsize.toNat) < 32768
    omega

/-- With the wrap on, each character of a text lies between the edges. -/
theorem letters_fit {d : SSD1306} (h : d.Fits) {text : List UInt8} {l : Letter}
    (hl : l ∈ letters text d) : 0 ≤ l.x ∧ l.x + 6 * d.textsize.toNat ≤ d.width := by
  induction text generalizing d with
  | nil => cases hl
  | cons c text ih =>
    rw [letters] at hl
    have htail : l ∈ letters text (d.advance c) →
        0 ≤ l.x ∧ l.x + 6 * d.textsize.toNat ≤ d.width := by
      intro hl
      have hrest := ih (h.next c).1 hl
      exact hrest
    split at hl
    · exact htail hl
    · rcases List.mem_cons.mp hl with rfl | hl
      · exact ⟨h.left, h.right⟩
      · exact htail hl

/-- The characters of a text stand behind the cursor. -/
theorem letters_behind {d : SSD1306} (h : d.Fits) {text : List UInt8}
    (hlow : -32768 ≤ d.cursorY)
    (hhigh : d.cursorY + text.length * (8 * d.textsize.toNat) < 32768) {l : Letter}
    (hl : l ∈ letters text d) : l.y = d.cursorY ∧ d.cursorX ≤ l.x ∨
      d.cursorY + 8 * d.textsize.toNat ≤ l.y := by
  induction text generalizing d l with
  | nil => cases hl
  | cons c text ih =>
    obtain ⟨hlow', hhigh', hnext⟩ := h.step hlow hhigh
    have htail : ∀ l ∈ letters text (d.advance c), l.y = d.cursorY ∧ d.cursorX ≤ l.x ∨
        d.cursorY + 8 * d.textsize.toNat ≤ l.y := by
      intro l hl
      have hrest : l.y = (d.next c).2 ∧ (d.next c).1 ≤ l.x ∨
          (d.next c).2 + 8 * d.textsize.toNat ≤ l.y := ih (h.next c).1 hlow' hhigh' hl
      rcases hnext with heq | ⟨-, heq⟩ | heq <;> rw [heq] at hrest <;> simp only at hrest <;> omega
    rw [letters] at hl
    split at hl
    · exact htail l hl
    · rcases List.mem_cons.mp hl with rfl | hl
      · exact Or.inl ⟨rfl, le_rfl⟩
      · exact htail l hl

/-- The cell of a character. -/
def Letter.cell (l : Letter) (size : UInt8) : Set (Int × Int) :=
  box l.x l.y (6 * size.toNat) (8 * size.toNat)

/-- No two characters of a text share a point, until the cursor wraps below the panel. -/
theorem letters_apart {d : SSD1306} (h : d.Fits) {text : List UInt8} (hlow : -32768 ≤ d.cursorY)
    (hhigh : d.cursorY + text.length * (8 * d.textsize.toNat) < 32768) :
    (letters text d).Pairwise fun l l' => ∀ q ∈ l.cell d.textsize, q ∉ l'.cell d.textsize := by
  induction text generalizing d with
  | nil => exact List.Pairwise.nil
  | cons c text ih =>
    have hfits := (h.next c).1
    obtain ⟨hlow', hhigh', hnext⟩ := h.step hlow hhigh
    have hrest := ih hfits hlow' hhigh'
    rw [letters]
    split
    · exact hrest
    · rename_i hskip
      refine List.Pairwise.cons (fun l hl q hq hq' => ?_) hrest
      have hbehind : l.y = (d.next c).2 ∧ (d.next c).1 ≤ l.x ∨
          (d.next c).2 + 8 * d.textsize.toNat ≤ l.y := letters_behind hfits hlow' hhigh' hl
      obtain ⟨h1, h2, h3, h4⟩ := hq
      obtain ⟨h1', h2', h3', h4'⟩ := hq'
      simp only at h1 h2 h3 h4
      rcases hnext with heq | ⟨hr, -⟩ | heq
      · rw [heq] at hbehind
        simp only at hbehind
        omega
      · exact hskip (Or.inr hr)
      · rw [heq] at hbehind
        simp only at hbehind
        omega

/-- `print` draws the characters of any text without the character 255, each where the cursor is
when its turn comes. With the wrap on and room for one character on the line, it never draws a
character across the left or the right edge, and no character over another one of the text unless
the text is so long that the cursor wraps around below the panel. -/
theorem print_lays_out {d : SSD1306} (h : d.Prints) {text : List UInt8} (htext : 255 ∉ text) :
    (∃ b, d.print text = .ok { d.advances text with buffer := b } ∧
      b.pixel = d.typeset (letters text d) d.picture) ∧
    (d.Fits → (∀ l ∈ letters text d, 0 ≤ l.x ∧ l.x + 6 * d.textsize.toNat ≤ d.width) ∧
      (d.cursorY + text.length * (8 * d.textsize.toNat) < 32768 → (letters text d).Pairwise
        fun l l' => ∀ q ∈ l.cell d.textsize, q ∉ l'.cell d.textsize)) :=
  ⟨print_eq h htext, fun hfits => ⟨fun _ hl => letters_fit hfits hl, fun hhigh =>
    letters_apart hfits h.y.1 hhigh⟩⟩

/-- A name of nine letters on a panel that hangs upright takes two lines. -/
theorem print_lays_out_of_name :
    let d := (blank 1).setTextColor WHITE
    let name := List.replicate 9 77
    (∃ b, d.print name = .ok { d.advances name with buffer := b } ∧
      b.pixel = d.typeset (letters name d) d.picture) ∧
    (letters name d).Pairwise fun l l' => ∀ q ∈ l.cell d.textsize, q ∉ l'.cell d.textsize := by
  intro d name
  have hprints : d.Prints :=
    ⟨⟨by decide, by decide⟩, ⟨by decide, by decide⟩, by decide, by decide, by decide⟩
  have hlays := print_lays_out hprints (show 255 ∉ name by decide)
  exact ⟨hlays.1, (hlays.2 ⟨rfl, by decide, by decide⟩).2 (by decide)⟩

end SSD1306

end SmartDoor
