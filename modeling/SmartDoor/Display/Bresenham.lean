import SmartDoor.Display.Drawing
import SmartDoor.Display.Slope
import Mathlib.Algebra.Order.Ring.Abs
import Mathlib.Tactic.LinearCombination

/-!
# Slanted lines

`drawLine` draws one point for each step along the longer axis, from one end to the other, and
each of them is a point of the panel's grid next to the line. On the lines along the axes the
overriding fast lines do what it does.
-/

namespace SmartDoor

open CString Ink

namespace SSD1306

/-- The point that a round of `drawLine` draws. -/
def plot (steep : Bool) (x y : Int) : Int × Int := if steep then (y, x) else (x, y)

/-- The points of a line from a step on, with its longer axis as the first one. -/
def stroke (steep : Bool) (x y dx dy ystep from' : Int) : Set (Int × Int) :=
  {q | ∃ k, from' ≤ k ∧ k ≤ dx ∧ q = plot steep (x + k) (y + ystep * Slope.height dx dy k)}

theorem box_one (x y : Int) : box x y 1 1 = {(x, y)} := by
  ext q
  rw [mem_box, Set.mem_singleton_iff, Prod.ext_iff]
  omega

theorem draws_plot (d : SSD1306) (steep : Bool) (x y : Int) (color : UInt16) :
    d.Draws (if steep then d.drawPixel y x color else d.drawPixel x y color)
      (fill (region d.rotation {plot steep x y}) (hue color)) := by
  cases steep with
  | false =>
    have h := d.draws_drawPixel x y color
    rwa [box_one] at h
  | true =>
    have h := d.draws_drawPixel y x color
    rwa [box_one] at h

/-- The `for` of `drawLine` from a step on. -/
theorem draws_lineLoop (steep : Bool) {x y dx dy ystep : Int} (hlow : 0 ≤ dy) (hhigh : dy ≤ dx)
    (hx : -16000 ≤ x) (hend : x + dx ≤ 16000) (hy : Near y) (hstep : ystep = 1 ∨ ystep = -1)
    (hyend : Near (y + ystep * dy)) (color : UInt16) (n : Nat) (d : SSD1306) {k : Int}
    (hk : 0 ≤ k) (hn : k + n = dx + 1) {left : Nat} (hleft : n < left) :
    ∃ r, lineLoop steep (x + dx) dx dy ystep color left (x + k)
        (y + ystep * Slope.height dx dy k) (dx / 2 - k * dy + Slope.height dx dy k * dx) d =
          some r ∧
      d.Draws r (fill (region d.rotation (stroke steep x y dx dy ystep k)) (hue color)) := by
  induction n generalizing d k left with
  | zero =>
    obtain ⟨left, rfl⟩ : ∃ l, left = l + 1 := ⟨left - 1, by omega⟩
    rw [lineLoop, if_neg (by omega)]
    refine ⟨_, rfl, d.draws_nothing (Set.eq_empty_iff_forall_notMem.mpr fun p hp => ?_) _⟩
    obtain ⟨j, hj, hj', -⟩ := hp
    omega
  | succ n ih =>
    obtain ⟨left, rfl⟩ : ∃ l, left = l + 1 := ⟨left - 1, by omega⟩
    obtain ⟨b, hb, hpixel⟩ := d.draws_plot steep (x + k) (y + ystep * Slope.height dx dy k) color
    obtain ⟨r, hr, hdraws⟩ := ih { d with buffer := b } (k := k + 1) (by omega) (by omega)
      (show n < left by omega)
    have hmem := Slope.height_mem (by omega) hlow hk (show k ≤ dx by omega)
    have herr : 0 ≤ dx / 2 - k * dy + Slope.height dx dy k * dx ∧
        dx / 2 - k * dy + Slope.height dx dy k * dx ≤ dx := by
      rcases (show 0 ≤ dx by omega).eq_or_lt with rfl | hpos
      · obtain rfl : dy = 0 := by omega
        simp
      · have := Slope.height_bounds hpos dy k
        omega
    have hsucc := Slope.height_succ (show 0 ≤ dx by omega) hlow hhigh k
    have hk1 : (k + 1) * dy = k * dy + dy := by ring
    refine ⟨r, ?_, ?_⟩
    · rw [← hr, lineLoop, if_pos (by omega), hb]
      obtain ⟨hy1, hy2⟩ := hy
      obtain ⟨hye1, hye2⟩ := hyend
      have hrow : -16000 ≤ y + ystep * Slope.height dx dy k ∧
          y + ystep * Slope.height dx dy k ≤ 16000 := by
        rcases hstep with rfl | rfl <;> omega
      simp only
      rw [wrap16_eq (x := _ - dy) (by omega) (by omega), hsucc, hk1,
        wrap16_eq (x := x + k + 1) (by omega) (by omega), Int.add_assoc x k 1]
      split
      · have hrise : (Slope.height dx dy k + 1) * dx = Slope.height dx dy k * dx + dx := by ring
        have hnext : y + ystep * (Slope.height dx dy k + 1) =
            y + ystep * Slope.height dx dy k + ystep := by ring
        rw [wrap16_eq (by omega) (by omega), wrap16_eq (by omega) (by omega), hrise, hnext]
        congr 1
        omega
      · rw [Int.add_zero]
        congr 1
        omega
    · obtain ⟨c, rfl, hc⟩ := hdraws
      refine ⟨c, rfl, ?_⟩
      have hapart : ∀ p ∈ region d.rotation {plot steep (x + k)
          (y + ystep * Slope.height dx dy k)},
          p ∉ region d.rotation (stroke steep x y dx dy ystep (k + 1)) := by
        rintro p hp ⟨j, hj, -, hj'⟩
        have hp : view d.rotation p = _ := hp
        rw [hp] at hj'
        cases steep with
        | false =>
          have heq : x + k = x + j := congrArg Prod.fst hj'
          omega
        | true =>
          have heq : x + k = x + j := congrArg Prod.snd hj'
          omega
      rw [hc]
      change on _ b.pixel = _
      rw [hpixel, on_fill_union hapart]
      congr 2
      ext p
      constructor
      · rintro (hp | ⟨j, hj, hj', hp⟩)
        · exact ⟨k, le_rfl, by omega, hp⟩
        · exact ⟨j, by omega, hj', hp⟩
      · rintro ⟨j, hj, hj', hp⟩
        rcases hj.eq_or_lt with rfl | hlt
        · exact Or.inl hp
        · exact Or.inr ⟨j, by omega, hj', hp⟩

/-! ## Whole lines -/

/-- A line on the grid: one point for each step along the longer axis, from one end to the other,
and in both coordinates off by no more than a half. -/
def GridLine (a b : Int × Int) (S : Set (Int × Int)) : Prop :=
  ∃ (length : Int) (f : Int → Int × Int), length = max |b.1 - a.1| |b.2 - a.2| ∧
    (∀ q, q ∈ S ↔ ∃ t, 0 ≤ t ∧ t ≤ length ∧ q = f t) ∧ f 0 = a ∧ f length = b ∧
    ∀ t, 0 ≤ t → t ≤ length →
      2 * |length * ((f t).1 - a.1) - t * (b.1 - a.1)| ≤ length ∧
      2 * |length * ((f t).2 - a.2) - t * (b.2 - a.2)| ≤ length

/-- A line may be looked at from its other end. -/
theorem GridLine.symm {a b : Int × Int} {S : Set (Int × Int)} (h : GridLine a b S) :
    GridLine b a S := by
  obtain ⟨length, f, hlength, hS, hstart, hend, hnear⟩ := h
  refine ⟨length, fun t => f (length - t), ?_, fun q => (hS q).trans ?_, ?_, ?_, fun t ht ht' => ?_⟩
  · rw [hlength, abs_sub_comm b.1, abs_sub_comm b.2]
  · constructor
    · rintro ⟨t, ht, ht', rfl⟩
      exact ⟨length - t, by omega, by omega, congrArg f (by omega)⟩
    · rintro ⟨t, ht, ht', rfl⟩
      exact ⟨length - t, by omega, by omega, rfl⟩
  · exact (congrArg f (by omega)).trans hend
  · exact (congrArg f (by omega)).trans hstart
  · obtain ⟨hfst, hsnd⟩ := hnear (length - t) (by omega) (by omega)
    constructor
    · rwa [show length * ((f (length - t)).1 - b.1) - t * (a.1 - b.1) =
        length * ((f (length - t)).1 - a.1) - (length - t) * (b.1 - a.1) by ring]
    · rwa [show length * ((f (length - t)).2 - b.2) - t * (a.2 - b.2) =
        length * ((f (length - t)).2 - a.2) - (length - t) * (b.2 - a.2) by ring]

/-- The points of a whole line, drawn from left to right along its longer axis. -/
theorem gridLine_stroke (steep : Bool) {x y x' y' ystep : Int} (hx : x ≤ x')
    (hflat : |y' - y| ≤ x' - x) (hstep : ystep = if y < y' then 1 else -1) :
    GridLine (plot steep x y) (plot steep x' y')
      (stroke steep x y (x' - x) |y' - y| ystep 0) := by
  have hrise : ystep * |y' - y| = y' - y := by
    split at hstep
    · rw [hstep, abs_of_pos (by omega), one_mul]
    · rw [hstep, abs_of_nonpos (by omega)]
      omega
  have hone : |ystep| = 1 := by
    split at hstep <;> rw [hstep] <;> rfl
  have hmax : max (x' - x) |y' - y| = x' - x := max_eq_left hflat
  have hlength : |x' - x| = x' - x := abs_of_nonneg (by omega)
  have hlast : ystep * Slope.height (x' - x) |y' - y| (x' - x) = y' - y := by
    rcases (show 0 ≤ x' - x by omega).eq_or_lt with hzero | hpos
    · have hy : |y' - y| = 0 := by
        have := abs_nonneg (y' - y)
        omega
      rw [← hrise, hy, ← hzero]
      simp [Slope.height]
    · rw [Slope.height_self hpos, hrise]
  have hnear : ∀ k : Int, 2 * |(x' - x) * (y + ystep * Slope.height (x' - x) |y' - y| k - y) -
      k * (y' - y)| ≤ x' - x := by
    intro k
    have h := Slope.height_near (show 0 ≤ x' - x by omega) (abs_nonneg _) hflat k
    have hfactor : (x' - x) * (y + ystep * Slope.height (x' - x) |y' - y| k - y) - k * (y' - y) =
        ystep * ((x' - x) * Slope.height (x' - x) |y' - y| k - k * |y' - y|) := by
      linear_combination k * hrise
    rw [hfactor, abs_mul, hone, one_mul]
    exact h
  have hexact : ∀ k : Int, 2 * |(x' - x) * (x + k - x) - k * (x' - x)| ≤ x' - x := by
    intro k
    rw [show (x' - x) * (x + k - x) - k * (x' - x) = 0 by ring, abs_zero]
    omega
  refine ⟨x' - x, fun k => plot steep (x + k)
    (y + ystep * Slope.height (x' - x) |y' - y| k), ?_, fun q => Iff.rfl, ?_, ?_, fun k _ _ => ?_⟩
  · cases steep with
    | false => exact (by rw [hlength, hmax] : x' - x = max |x' - x| |y' - y|)
    | true => exact (by rw [max_comm, hlength, hmax] : x' - x = max |y' - y| |x' - x|)
  · simp only
    rw [Slope.height_zero (by omega), Int.add_zero, Int.mul_zero, Int.add_zero]
  · simp only
    rw [hlast, show x + (x' - x) = x' by omega, show y + (y' - y) = y' by omega]
  · cases steep with
    | false => exact ⟨hexact k, hnear k⟩
    | true => exact ⟨hnear k, hexact k⟩

theorem abs16_eq {v : Int} (h : -32000 ≤ v ∧ v ≤ 32000) : abs16 (wrap16 v) = |v| := by
  obtain ⟨hlow, hhigh⟩ := h
  rw [abs16, wrap16_eq (by omega) (by omega)]
  split
  · exact (abs_of_pos ‹_›).symm
  · rw [wrap16_eq (by omega) (by omega)]
    exact (abs_of_nonpos (by omega)).symm

/-- `drawLine` behind its two swaps. -/
theorem draws_ordered (d : SSD1306) (steep : Bool) {x y x' y' : Int} (hx : Near x) (hy : Near y)
    (hx' : Near x') (hy' : Near y') (hle : x ≤ x') (hflat : |y' - y| ≤ x' - x) (color : UInt16) :
    ∃ S r, GridLine (plot steep x y) (plot steep x' y') S ∧
      lineLoop steep x' (wrap16 (x' - x)) (abs16 (wrap16 (y' - y))) (if y < y' then 1 else -1) color
        65536 x y ((wrap16 (x' - x)).tdiv 2) d = some r ∧
      d.Draws r (fill (region d.rotation S) (hue color)) := by
  obtain ⟨hx1, hx2⟩ := hx
  obtain ⟨hy1, hy2⟩ := hy
  obtain ⟨hx1', hx2'⟩ := hx'
  obtain ⟨hy1', hy2'⟩ := hy'
  have hstep : (if y < y' then (1 : Int) else -1) = 1 ∨ (if y < y' then (1 : Int) else -1) = -1 := by
    split
    · exact Or.inl rfl
    · exact Or.inr rfl
  have hend : y + (if y < y' then 1 else -1) * |y' - y| = y' := by
    split
    · rw [abs_of_pos (by omega)]
      omega
    · rw [abs_of_nonpos (by omega)]
      omega
  obtain ⟨r, hr, hdraws⟩ := draws_lineLoop steep (x := x) (y := y) (abs_nonneg (y' - y)) hflat hx1
    (by omega) ⟨hy1, hy2⟩ hstep (by rw [hend]; exact ⟨hy1', hy2'⟩) color (x' - x + 1).toNat d
    (k := 0) le_rfl (by omega) (show (x' - x + 1).toNat < 65536 by omega)
  refine ⟨_, r, gridLine_stroke steep hle hflat rfl, ?_, hdraws⟩
  rw [← hr, wrap16_eq (by omega) (by omega), abs16_eq ⟨by omega, by omega⟩,
    Slope.height_zero (by omega), Int.tdiv_eq_ediv_of_nonneg (by omega)]
  simp only [Int.add_zero, Int.mul_zero, Int.zero_mul, Int.sub_zero]
  congr 1
  omega

/-- `drawLine` ends, and it touches the points of a grid line from one end to the other that lie on
the panel. -/
theorem draws_drawLine (d : SSD1306) {x y x' y' : Int} (hx : Near x) (hy : Near y) (hx' : Near x')
    (hy' : Near y') (color : UInt16) : ∃ S r, GridLine (x, y) (x', y') S ∧
      d.drawLine x y x' y' color = some r ∧
      d.Draws r (fill (region d.rotation S) (hue color)) := by
  have hboth : abs16 (wrap16 (y' - y)) = |y' - y| ∧ abs16 (wrap16 (x' - x)) = |x' - x| := by
    rw [Near] at hx hy hx' hy'
    exact ⟨abs16_eq ⟨by omega, by omega⟩, abs16_eq ⟨by omega, by omega⟩⟩
  rw [drawLine]
  simp only [hboth.1, hboth.2]
  have hy_abs := abs_cases (y' - y)
  have hx_abs := abs_cases (x' - x)
  by_cases hsteep : |y' - y| > |x' - x|
  · simp only [hsteep, decide_true, if_true]
    by_cases hswap : y > y'
    · simp only [if_pos hswap]
      obtain ⟨S, r, hS, hr⟩ := d.draws_ordered true hy' hx' hy hx (by omega)
        (by rw [abs_sub_comm]; omega) color
      exact ⟨S, r, hS.symm, hr⟩
    · simp only [if_neg hswap]
      exact d.draws_ordered true hy hx hy' hx' (by omega) (by omega) color
  · simp only [hsteep, decide_false, Bool.false_eq_true, if_false]
    by_cases hswap : x > x'
    · simp only [if_pos hswap]
      obtain ⟨S, r, hS, hr⟩ := d.draws_ordered false hx' hy' hx hy (by omega)
        (by rw [abs_sub_comm]; omega) color
      exact ⟨S, r, hS.symm, hr⟩
    · simp only [if_neg hswap]
      exact d.draws_ordered false hx hy hx' hy' (by omega) (by omega) color

/-- The other end first: the swaps undo it. -/
theorem drawLine_comm (d : SSD1306) {x y x' y' : Int} (hx : Near x) (hy : Near y) (hx' : Near x')
    (hy' : Near y') (color : UInt16) :
    d.drawLine x' y' x y color = d.drawLine x y x' y' color := by
  have habs : abs16 (wrap16 (y - y')) = |y' - y| ∧ abs16 (wrap16 (x - x')) = |x' - x| ∧
      abs16 (wrap16 (y' - y)) = |y' - y| ∧ abs16 (wrap16 (x' - x)) = |x' - x| := by
    rw [Near] at hx hy hx' hy'
    rw [abs16_eq ⟨by omega, by omega⟩, abs16_eq ⟨by omega, by omega⟩, abs16_eq ⟨by omega, by omega⟩,
      abs16_eq ⟨by omega, by omega⟩, abs_sub_comm y, abs_sub_comm x]
    exact ⟨rfl, rfl, rfl, rfl⟩
  obtain ⟨hy1, hx1, hy2, hx2⟩ := habs
  rw [drawLine, drawLine]
  simp only [hy1, hx1, hy2, hx2]
  by_cases hsteep : |y' - y| > |x' - x|
  · simp only [hsteep, decide_true, if_true]
    have hne : y ≠ y' := by
      rintro rfl
      rw [sub_self, abs_zero] at hsteep
      exact absurd hsteep (not_lt.mpr (abs_nonneg _))
    rcases hne.lt_or_gt with hlt | hlt
    · simp only [if_pos hlt, if_neg (show ¬ y > y' by omega), gt_iff_lt]
    · simp only [if_neg (show ¬ y' > y by omega), if_pos hlt, gt_iff_lt]
  · simp only [hsteep, decide_false, Bool.false_eq_true, if_false]
    rcases lt_trichotomy x x' with hlt | rfl | hlt
    · simp only [if_pos hlt, if_neg (show ¬ x > x' by omega), gt_iff_lt]
    · rw [sub_self, abs_zero, not_lt] at hsteep
      obtain rfl : y' = y := by
        have := abs_nonneg (y' - y)
        have := abs_eq_zero.mp (le_antisymm hsteep this)
        omega
      rfl
    · simp only [if_neg (show ¬ x' > x by omega), if_pos hlt, gt_iff_lt]

/-! ## Lines along the axes -/

theorem eq_zero_of_near {length v : Int} (hpos : 0 < length) (h : 2 * |length * v| ≤ length) :
    v = 0 := by
  rw [abs_mul, abs_of_pos hpos] at h
  by_contra hne
  have hone : length * 1 ≤ length * |v| :=
    mul_le_mul_of_nonneg_left (Int.one_le_abs hne) hpos.le
  omega

/-- A grid line along an axis is a row of points. -/
theorem GridLine.mem_iff {a b : Int × Int} {S : Set (Int × Int)} (h : GridLine a b S)
    {length : Int} (hlength : length = max |b.1 - a.1| |b.2 - a.2|) {u v : Int}
    (hu : b.1 - a.1 = length * u) (hv : b.2 - a.2 = length * v) (q : Int × Int) :
    q ∈ S ↔ ∃ t, 0 ≤ t ∧ t ≤ length ∧ q = (a.1 + t * u, a.2 + t * v) := by
  obtain ⟨length', f, hlength', hS, hstart, -, hnear⟩ := h
  obtain rfl : length' = length := hlength'.trans hlength.symm
  have hf : ∀ t, 0 ≤ t → t ≤ length' → f t = (a.1 + t * u, a.2 + t * v) := by
    intro t ht ht'
    rcases ht.eq_or_lt with rfl | hpos
    · rw [hstart]
      simp
    · obtain ⟨hfst, hsnd⟩ := hnear t ht ht'
      rw [hu, show length' * ((f t).1 - a.1) - t * (length' * u) =
        length' * ((f t).1 - a.1 - t * u) by ring] at hfst
      rw [hv, show length' * ((f t).2 - a.2) - t * (length' * v) =
        length' * ((f t).2 - a.2 - t * v) by ring] at hsnd
      have hfst := eq_zero_of_near (by omega) hfst
      have hsnd := eq_zero_of_near (by omega) hsnd
      exact Prod.ext (by simp only; omega) (by simp only; omega)
  rw [hS]
  constructor
  · rintro ⟨t, ht, ht', rfl⟩
    exact ⟨t, ht, ht', hf t ht ht'⟩
  · rintro ⟨t, ht, ht', rfl⟩
    exact ⟨t, ht, ht', (hf t ht ht').symm⟩

/-- A line that `drawLine` draws along an axis. -/
theorem drawLine_eq (d : SSD1306) {x y x' y' : Int} (hx : Near x) (hy : Near y) (hx' : Near x')
    (hy' : Near y') {color : UInt16} {T : Set (Int × Int)}
    (hT : ∀ S, GridLine (x, y) (x', y') S → S = T) {r : Except Fault SSD1306}
    (hr : d.Draws r (fill (region d.rotation T) (hue color))) :
    d.drawLine x y x' y' color = some r := by
  obtain ⟨S, r', hS, hrun, hdraws⟩ := d.draws_drawLine hx hy hx' hy' color
  rw [hT S hS] at hdraws
  rw [hrun, hdraws.unique hr]

/-- On a line of at least one point, the overriding fast lines of the driver do what the lines of
the graphics library do that they override, in each rotation. -/
theorem fast_lines_plain (d : SSD1306) {x y n : Int} {color : UInt16} (hcolor : color ≤ INVERSE)
    (hx : Near x) (hy : Near y) (hn : 1 ≤ n) (hxn : Near (x + n)) (hyn : Near (y + n)) :
    d.plainVLine x y n color = some (d.drawFastVLine x y n color) ∧
      d.plainHLine x y n color = some (d.drawFastHLine x y n color) := by
  have hbounds : (-16000 ≤ x ∧ x ≤ 16000) ∧ (-16000 ≤ y ∧ y ≤ 16000) ∧
      (-16000 ≤ x + n ∧ x + n ≤ 16000) ∧ -16000 ≤ y + n ∧ y + n ≤ 16000 := ⟨hx, hy, hxn, hyn⟩
  have habs : |n - 1| = n - 1 := abs_of_nonneg (by omega)
  constructor
  · rw [plainVLine, wrap16_eq (by omega) (by omega)]
    refine d.drawLine_eq hx hy hx ⟨by omega, by omega⟩ (fun S hS => Set.ext fun q => ?_)
      (d.draws_drawFastVLine hcolor hx hy hyn)
    have hlength : n - 1 = max |x - x| |y + n - 1 - y| := by
      rw [sub_self, abs_zero, show y + n - 1 - y = n - 1 by omega, habs]
      exact (max_eq_right (by omega)).symm
    rw [hS.mem_iff (u := 0) (v := 1) hlength (by simp) (by simp only; omega), mem_box]
    constructor
    · rintro ⟨t, ht, ht', rfl⟩
      simp only
      omega
    · rintro ⟨h1, h2, h3, h4⟩
      exact ⟨q.2 - y, by omega, by omega, Prod.ext (by simp only; omega) (by simp only; omega)⟩
  · rw [plainHLine, wrap16_eq (by omega) (by omega)]
    refine d.drawLine_eq hx hy ⟨by omega, by omega⟩ hy (fun S hS => Set.ext fun q => ?_)
      (d.draws_drawFastHLine hcolor hx hy hxn)
    have hlength : n - 1 = max |x + n - 1 - x| |y - y| := by
      rw [sub_self, abs_zero, show x + n - 1 - x = n - 1 by omega, habs]
      exact (max_eq_left (by omega)).symm
    rw [hS.mem_iff (u := 1) (v := 0) hlength (by simp only; omega) (by simp), mem_box]
    constructor
    · rintro ⟨t, ht, ht', rfl⟩
      simp only
      omega
    · rintro ⟨h1, h2, h3, h4⟩
      exact ⟨q.1 - x, by omega, by omega, Prod.ext (by simp only; omega) (by simp only; omega)⟩

/-- A vertical line of twenty points that begins above the turned panel. -/
theorem fast_lines_plain_of_turned :
    (blank 1).plainVLine 9 (-5) 20 INVERSE = some ((blank 1).drawFastVLine 9 (-5) 20 INVERSE) :=
  ((blank 1).fast_lines_plain (by decide) (by decide) (by decide) (by decide) (by decide)
    (by decide)).1

/-- Between any two points and in each rotation, `drawLine` ends and touches the points of a grid
line from the one to the other that lie on the panel, each once, and it makes no difference from
which end the line is drawn. -/
theorem drawLine_draws (d : SSD1306) {x y x' y' : Int} (hx : Near x) (hy : Near y)
    (hx' : Near x') (hy' : Near y') (color : UInt16) :
    ∃ S r, GridLine (x, y) (x', y') S ∧ d.drawLine x y x' y' color = some r ∧
      d.drawLine x' y' x y color = some r ∧
      d.Draws r (fill (region d.rotation S) (hue color)) := by
  obtain ⟨S, r, hS, hr, hdraws⟩ := d.draws_drawLine hx hy hx' hy' color
  exact ⟨S, r, hS, hr, (d.drawLine_comm hx hy hx' hy' color).trans hr, hdraws⟩

/-- A steep line that leaves the panel. -/
theorem drawLine_draws_of_steep : ∃ S r, GridLine (3, 60) (7, 90) S ∧
    (blank 2).drawLine 3 60 7 90 WHITE = some r ∧ (blank 2).drawLine 7 90 3 60 WHITE = some r ∧
    (blank 2).Draws r (fill (region 2 S) (hue WHITE)) :=
  (blank 2).drawLine_draws (by decide) (by decide) (by decide) (by decide) WHITE

end SSD1306

end SmartDoor
