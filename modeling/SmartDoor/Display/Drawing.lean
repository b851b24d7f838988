import SmartDoor.Display.Graphics
import SmartDoor.Display.Lines

/-!
# Pixels, lines and rectangles

In each rotation a drawing touches the points of the panel whose coordinates lie in its figure,
and no others, wherever the figure lies. The fast lines and the rectangles made of them do to the
buffer what single pixels would do.
-/

namespace SmartDoor

open CString Ink

/-- A coordinate or a length with which no `int` of a drawing wraps. -/
def Near (v : Int) : Prop := -16000 ≤ v ∧ v ≤ 16000

instance (v : Int) : Decidable (Near v) := inferInstanceAs (Decidable (_ ∧ _))

/-- The points of the panel whose coordinates lie in a figure. -/
def region (rotation : Fin 4) (figure : Set (Int × Int)) : Set Pixel :=
  Set.preimage (view rotation) figure

namespace SSD1306

/-- The picture on the panel. -/
def picture (d : SSD1306) : Pixel → Bool := d.buffer.pixel

/-- A drawing succeeds and leaves the picture with an ink on it, and all else as it was. -/
def Draws (d : SSD1306) (r : Except Fault SSD1306) (s : Pixel → Option (Bool → Bool)) : Prop :=
  ∃ b, r = .ok { d with buffer := b } ∧ b.pixel = on s d.picture

theorem draws_draw {d : SSD1306} {f : Buffer → Except Fault Buffer}
    {s : Pixel → Option (Bool → Bool)} (h : d.buffer.Inks (f d.buffer) s) :
    d.Draws (d.draw f) s := by
  obtain ⟨b, hb, hpixel⟩ := h
  exact ⟨b, by rw [draw, hb]; rfl, hpixel⟩

theorem Draws.bind {d : SSD1306} {r : Except Fault SSD1306}
    {g : SSD1306 → Except Fault SSD1306} {s t : Pixel → Option (Bool → Bool)}
    (hr : d.Draws r s) (hg : ∀ b, Draws { d with buffer := b } (g { d with buffer := b }) t)
    (hapart : Apart s t) : d.Draws (r >>= g) (both s t) := by
  obtain ⟨b, rfl, hb⟩ := hr
  obtain ⟨c, hc, hpixel⟩ := hg b
  exact ⟨c, hc, by rw [hpixel, picture, hb, on_both hapart]⟩

/-- What a drawing leaves is determined by its ink. -/
theorem Draws.unique {d : SSD1306} {r r' : Except Fault SSD1306}
    {s : Pixel → Option (Bool → Bool)} (h : d.Draws r s) (h' : d.Draws r' s) : r = r' := by
  obtain ⟨b, rfl, hb⟩ := h
  obtain ⟨b', rfl, hb'⟩ := h'
  rw [Buffer.pixel_injective (hb.trans hb'.symm)]

theorem draws_nothing (d : SSD1306) {S : Set Pixel} (h : S = ∅) (f : Bool → Bool) :
    d.Draws (.ok d) (fill S f) := ⟨d.buffer, rfl, by rw [h, on_fill_empty]; rfl⟩

theorem Draws.fill_bind {d : SSD1306} {r : Except Fault SSD1306}
    {g : SSD1306 → Except Fault SSD1306} {S T U : Set Pixel} {f : Bool → Bool}
    (hr : d.Draws r (fill S f))
    (hg : ∀ b, Draws { d with buffer := b } (g { d with buffer := b }) (fill T f))
    (hapart : ∀ p ∈ S, p ∉ T) (hunion : S ∪ T = U) : d.Draws (r >>= g) (fill U f) := by
  have h := hr.bind hg (apart_fill hapart f f)
  rwa [both_fill, hunion] at h

theorem width_eq (d : SSD1306) : d.width = if d.rotation.val % 2 = 0 then 128 else 64 := rfl

theorem height_eq (d : SSD1306) : d.height = if d.rotation.val % 2 = 0 then 64 else 128 := rfl

theorem width_le (d : SSD1306) : d.width ≤ 128 := by
  rw [width_eq]
  split <;> decide

theorem height_le (d : SSD1306) : d.height ≤ 128 := by
  rw [height_eq]
  split <;> decide

theorem wrap16_width {v : Int} (h : Near v) : wrap16 (WIDTH - v - 1) = 127 - v := by
  obtain ⟨hlow, hhigh⟩ := h
  have heq : wrap16 (128 - v - 1) = 128 - v - 1 := wrap16_eq (by omega) (by omega)
  exact heq.trans (by omega)

theorem wrap16_height {v : Int} (h : Near v) : wrap16 (HEIGHT - v - 1) = 63 - v := by
  obtain ⟨hlow, hhigh⟩ := h
  have heq : wrap16 (64 - v - 1) = 64 - v - 1 := wrap16_eq (by omega) (by omega)
  exact heq.trans (by omega)

theorem rotations : ∀ r : Fin 4, r = 0 ∨ r = 1 ∨ r = 2 ∨ r = 3 := by
  decide

/-- The coordinates of the panel run from 0 to the width and the height. -/
theorem view_bounds (d : SSD1306) (p : Pixel) :
    0 ≤ (view d.rotation p).1 ∧ (view d.rotation p).1 < d.width ∧
      0 ≤ (view d.rotation p).2 ∧ (view d.rotation p).2 < d.height := by
  have h1 := p.1.isLt
  have h2 := p.2.isLt
  rcases rotations d.rotation with h | h | h | h <;> simp [view, width_eq, height_eq, h] <;> omega

/-- `drawPixel` touches the point with its coordinates, if there is one. -/
theorem draws_drawPixel (d : SSD1306) (x y : Int) (color : UInt16) :
    d.Draws (d.drawPixel x y color) (fill (region d.rotation (box x y 1 1)) (hue color)) := by
  rw [drawPixel]
  by_cases hoff : x < 0 ∨ x ≥ d.width ∨ y < 0 ∨ y ≥ d.height
  · rw [if_pos hoff]
    refine d.draws_nothing (Set.eq_empty_iff_forall_notMem.mpr fun p hp => ?_) _
    rw [region, Set.mem_preimage, mem_box] at hp
    have := d.view_bounds p
    omega
  · rw [if_neg hoff]
    -- The coordinates on the panel as it is mounted.
    have hpoint : ∀ X Y : Int, 0 ≤ X → X < 128 → 0 ≤ Y → Y < 64 →
        (∀ p : Pixel, view d.rotation p = (x, y) ↔ (p.1.val : Int) = X ∧ (p.2.val : Int) = Y) →
        d.Draws (d.draw (Buffer.change (X.toNat + Y.toNat / 8 * 128)
          (Buffer.masked color (1 <<< UInt8.ofNat (Y.toNat % 8)))))
          (fill (region d.rotation (box x y 1 1)) (hue color)) := by
      intro X Y hX hX' hY hY' hview
      refine draws_draw ?_
      have hink := d.buffer.inks_point (x := X.toNat) (y := Y.toNat) (by omega) (by omega) color
      rw [Nat.add_comm]
      convert hink using 2
      ext p
      have hp := hview p
      rw [Prod.ext_iff] at hp
      rw [region, Set.mem_preimage, mem_box, Buffer.mem_row]
      omega
    rw [width_eq, height_eq] at hoff
    rcases rotations d.rotation with h | h | h | h
    · rw [h, if_pos (by decide), if_pos (by decide)] at hoff
      simp only [h] at hpoint ⊢
      exact hpoint x y (by omega) (by omega) (by omega) (by omega) fun p => by
        simp only [view, Prod.mk.injEq]
    · rw [h, if_neg (by decide), if_neg (by decide)] at hoff
      simp only [h] at hpoint ⊢
      rw [wrap16_width ⟨by omega, by omega⟩]
      exact hpoint (127 - y) x (by omega) (by omega) (by omega) (by omega) fun p => by
        simp only [view, Prod.mk.injEq]
        omega
    · rw [h, if_pos (by decide), if_pos (by decide)] at hoff
      simp only [h] at hpoint ⊢
      rw [wrap16_width ⟨by omega, by omega⟩, wrap16_height ⟨by omega, by omega⟩]
      exact hpoint (127 - x) (63 - y) (by omega) (by omega) (by omega) (by omega) fun p => by
        simp only [view, Prod.mk.injEq]
        omega
    · rw [h, if_neg (by decide), if_neg (by decide)] at hoff
      simp only [h] at hpoint ⊢
      rw [wrap16_height ⟨by omega, by omega⟩]
      exact hpoint y (63 - x) (by omega) (by omega) (by omega) (by omega) fun p => by
        simp only [view, Prod.mk.injEq]
        omega

/-- A line of the panel as it is mounted, in the coordinates of a rotation. -/
theorem draws_turned {d : SSD1306} {f : Buffer → Except Fault Buffer} {g : Bool → Bool}
    {B C : Set (Int × Int)} (h : d.buffer.Inks (f d.buffer) (fill (Set.preimage (view 0) B) g))
    {r : Fin 4} (hturn : ∀ p, view 0 p ∈ B ↔ view r p ∈ C) :
    d.Draws (d.draw f) (fill (region r C) g) := by
  have hset : Set.preimage (view 0) B = region r C := Set.ext hturn
  exact draws_draw (hset ▸ h)

/-- `drawFastHLine` touches the points of its line that lie on the panel. -/
theorem draws_drawFastHLine (d : SSD1306) {x y w : Int} {color : UInt16}
    (hcolor : color ≤ INVERSE) (hx : Near x) (hy : Near y) (hxw : Near (x + w)) :
    d.Draws (d.drawFastHLine x y w color) (fill (region d.rotation (box x y w 1)) (hue color)) := by
  obtain ⟨hx1, hx2⟩ := hx
  obtain ⟨hy1, hy2⟩ := hy
  obtain ⟨hw1, hw2⟩ := hxw
  rw [drawFastHLine]
  rcases rotations d.rotation with h | h | h | h
  · simp only [h]
    exact draws_turned (d.buffer.inks_drawFastHLineInternal color y ⟨by omega, by omega, by omega⟩)
      fun p => Iff.rfl
  · simp only [h]
    rw [wrap16_width ⟨by omega, by omega⟩]
    refine draws_turned (d.buffer.inks_drawFastVLineInternal hcolor _
      ⟨by omega, by omega, by omega⟩) fun p => ?_
    rw [mem_box, mem_box]
    simp only [view]
    omega
  · simp only [h]
    rw [wrap16_width ⟨by omega, by omega⟩, wrap16_height ⟨by omega, by omega⟩, wrap16_eq (by omega) (by omega)]
    refine draws_turned (d.buffer.inks_drawFastHLineInternal color _
      ⟨by omega, by omega, by omega⟩) fun p => ?_
    rw [mem_box, mem_box]
    simp only [view]
    omega
  · simp only [h]
    rw [wrap16_height ⟨by omega, by omega⟩, wrap16_eq (by omega) (by omega)]
    refine draws_turned (d.buffer.inks_drawFastVLineInternal hcolor _
      ⟨by omega, by omega, by omega⟩) fun p => ?_
    rw [mem_box, mem_box]
    simp only [view]
    omega

/-- `drawFastVLine` touches the points of its line that lie on the panel. -/
theorem draws_drawFastVLine (d : SSD1306) {x y h : Int} {color : UInt16}
    (hcolor : color ≤ INVERSE) (hx : Near x) (hy : Near y) (hyh : Near (y + h)) :
    d.Draws (d.drawFastVLine x y h color) (fill (region d.rotation (box x y 1 h)) (hue color)) := by
  obtain ⟨hx1, hx2⟩ := hx
  obtain ⟨hy1, hy2⟩ := hy
  obtain ⟨hh1, hh2⟩ := hyh
  rw [drawFastVLine]
  rcases rotations d.rotation with hr | hr | hr | hr
  · simp only [hr]
    exact draws_turned (d.buffer.inks_drawFastVLineInternal hcolor x
      ⟨by omega, by omega, by omega⟩) fun p => Iff.rfl
  · simp only [hr]
    rw [wrap16_width ⟨by omega, by omega⟩, wrap16_eq (by omega) (by omega)]
    refine draws_turned (d.buffer.inks_drawFastHLineInternal color _
      ⟨by omega, by omega, by omega⟩) fun p => ?_
    rw [mem_box, mem_box]
    simp only [view]
    omega
  · simp only [hr]
    rw [wrap16_width ⟨by omega, by omega⟩, wrap16_height ⟨by omega, by omega⟩, wrap16_eq (by omega) (by omega)]
    refine draws_turned (d.buffer.inks_drawFastVLineInternal hcolor _
      ⟨by omega, by omega, by omega⟩) fun p => ?_
    rw [mem_box, mem_box]
    simp only [view]
    omega
  · simp only [hr]
    rw [wrap16_height ⟨by omega, by omega⟩]
    refine draws_turned (d.buffer.inks_drawFastHLineInternal color _
      ⟨by omega, by omega, by omega⟩) fun p => ?_
    rw [mem_box, mem_box]
    simp only [view]
    omega

/-- The columns of a rectangle. -/
theorem draws_fillLoop {y h : Int} {color : UInt16} (hcolor : color ≤ INVERSE) (hy : Near y)
    (hyh : Near (y + h)) (n : Nat) (d : SSD1306) {i : Int} (hi : -16000 ≤ i) (hn : i + n ≤ 16000) :
    d.Draws (fillLoop y h color n i d) (fill (region d.rotation (box i y n h)) (hue color)) := by
  induction n generalizing d i with
  | zero =>
    refine d.draws_nothing (Set.eq_empty_iff_forall_notMem.mpr fun p hp => ?_) _
    rw [region, Set.mem_preimage, mem_box] at hp
    omega
  | succ n ih =>
    have hfirst := d.draws_drawFastVLine hcolor (x := i) ⟨by omega, by omega⟩ hy hyh
    refine hfirst.fill_bind (T := region d.rotation (box (i + 1) y n h))
      (fun b => ih { d with buffer := b } (i := i + 1) (by omega) (by omega)) ?_ ?_
    · intro p hp hp'
      rw [region, Set.mem_preimage, mem_box] at hp hp'
      omega
    · ext p
      simp only [region, Set.mem_union, Set.mem_preimage, mem_box]
      omega

/-- `fillRect` touches the points of its rectangle that lie on the panel. -/
theorem draws_fillRect (d : SSD1306) {x y w h : Int} {color : UInt16} (hcolor : color ≤ INVERSE)
    (hx : Near x) (hy : Near y) (hxw : Near (x + w)) (hyh : Near (y + h)) :
    d.Draws (d.fillRect x y w h color) (fill (region d.rotation (box x y w h)) (hue color)) := by
  obtain ⟨hx1, hx2⟩ := hx
  obtain ⟨hw1, hw2⟩ := hxw
  rw [fillRect, wrap16_eq (by omega) (by omega)]
  have hloop := draws_fillLoop hcolor hy hyh (x + w - x).toNat d (i := x) (by omega) (by omega)
  convert hloop using 2
  ext p
  rw [region, region, Set.mem_preimage, Set.mem_preimage, mem_box, mem_box]
  omega

/-- Some points, one after the other. -/
theorem draws_pixels (color : UInt16) {qs : List (Int × Int)} (hnodup : qs.Nodup) (d : SSD1306) :
    d.Draws (qs.foldlM (fun d q => d.drawPixel q.1 q.2 color) d)
      (fill (region d.rotation {q | q ∈ qs}) (hue color)) := by
  induction qs generalizing d with
  | nil =>
    exact d.draws_nothing (Set.eq_empty_iff_forall_notMem.mpr fun p hp => List.not_mem_nil hp) _
  | cons q qs ih =>
    obtain ⟨hq, hnodup⟩ := List.nodup_cons.mp hnodup
    have hfirst := d.draws_drawPixel q.1 q.2 color
    have hmem : ∀ p, p ∈ region d.rotation (box q.1 q.2 1 1) ↔ view d.rotation p = q := by
      intro p
      rw [region, Set.mem_preimage, mem_box, Prod.ext_iff]
      omega
    rw [List.foldlM_cons]
    refine hfirst.fill_bind (T := region d.rotation {q | q ∈ qs})
      (fun b => ih hnodup { d with buffer := b }) ?_ ?_
    · intro p hp hp'
      exact hq ((hmem p).mp hp ▸ hp')
    · ext p
      rw [Set.mem_union, hmem]
      exact List.mem_cons.symm

/-- A picture without a point, in a rotation. -/
def blank (rotation : Fin 4) : SSD1306 where
  buffer := .replicate 1024 0
  rotation := rotation
  cursorX := 0
  cursorY := 0
  textsize := 1
  textcolor := 0xFFFF
  textbgcolor := 0xFFFF
  wrap := true

/-- In each rotation and in each of the three colors, `fillRect` does what single pixels do, in
whatever order the points of the rectangle are drawn. -/
theorem fillRect_pixels (d : SSD1306) {x y w h : Int} {color : UInt16} (hcolor : color ≤ INVERSE)
    (hx : Near x) (hy : Near y) (hxw : Near (x + w)) (hyh : Near (y + h))
    {qs : List (Int × Int)} (hnodup : qs.Nodup) (hqs : ∀ q, q ∈ qs ↔ q ∈ box x y w h) :
    qs.foldlM (fun d q => d.drawPixel q.1 q.2 color) d = d.fillRect x y w h color := by
  have hset : {q | q ∈ qs} = box x y w h := Set.ext hqs
  have hpixels := draws_pixels color hnodup d
  rw [hset] at hpixels
  exact hpixels.unique (d.draws_fillRect hcolor hx hy hxw hyh)

/-- A rectangle over a corner of the panel. -/
theorem fillRect_pixels_of_corner :
    [(-1, 62), (0, 62), (-1, 63), (0, 63)].foldlM
      (fun (d : SSD1306) q => d.drawPixel q.1 q.2 WHITE) (blank 0) =
        (blank 0).fillRect (-1) 62 2 2 WHITE :=
  (blank 0).fillRect_pixels (by decide) (by decide) (by decide) (by decide) (by decide)
    (by decide) fun q => by
      rw [mem_box]
      simp only [List.mem_cons, List.not_mem_nil, or_false, Prod.ext_iff]
      omega

end SSD1306

end SmartDoor
