import SmartDoor.Display.Panel
import SmartDoor.Display.Ink

/-!
# Lines on the panel

The buffer is a picture of 128 by 64 points. The masks and the whole bytes of the fast lines are
inks that touch no point together, and in each rotation what they make up is the line.
-/

namespace SmartDoor

open CString Ink

/-- A point of the panel, as it is mounted. -/
abbrev Pixel := Fin 128 × Fin 64

/-- A bit of a byte. -/
def bit (byte : UInt8) (k : Nat) : Bool := byte.toBitVec.getLsbD k

/-- What a color does to a point. -/
def hue (color : UInt16) : Bool → Bool :=
  if color = WHITE then fun _ => true
  else if color = BLACK then fun _ => false
  else if color = INVERSE then not
  else id

/-- A mask changes the bits that it has, and no others. -/
theorem bit_masked {color : UInt16} {mask : UInt8} {f : UInt8 → UInt8}
    (hf : Buffer.masked color mask = some f) (byte : UInt8) {k : Nat} (hk : k < 8) :
    bit (f byte) k = if bit mask k then hue color (bit byte k) else bit byte k := by
  rw [Buffer.masked] at hf
  rw [hue]
  by_cases hwhite : color = WHITE
  · rw [if_pos hwhite] at hf ⊢
    obtain rfl := Option.some.inj hf
    cases h : bit mask k <;> simp_all [bit]
  by_cases hblack : color = BLACK
  · rw [if_neg hwhite, if_pos hblack] at hf ⊢
    obtain rfl := Option.some.inj hf
    cases h : bit mask k <;> simp_all [bit]
  by_cases hinverse : color = INVERSE
  · rw [if_neg hwhite, if_neg hblack, if_pos hinverse] at hf ⊢
    obtain rfl := Option.some.inj hf
    cases h : bit mask k <;> simp_all [bit]
  · rw [if_neg hwhite, if_neg hblack, if_neg hinverse] at hf
    cases hf

/-- A color that has no mask changes no point. -/
theorem hue_of_masked {color : UInt16} {mask : UInt8} (hf : Buffer.masked color mask = none) :
    hue color = id := by
  rw [Buffer.masked] at hf
  rw [hue]
  split at hf
  · cases hf
  split at hf
  · cases hf
  split at hf
  · cases hf
  · rename_i hwhite hblack hinverse
    rw [if_neg hwhite, if_neg hblack, if_neg hinverse]

/-- A whole byte of a color changes each of its bits. -/
theorem bit_solid {color : UInt16} (hcolor : color ≤ INVERSE) (byte : UInt8) {k : Nat}
    (hk : k < 8) : bit (Buffer.solid color byte) k = hue color (bit byte k) := by
  have hcases : color = WHITE ∨ color = BLACK ∨ color = INVERSE := by
    have hle : color.toNat ≤ 2 := UInt16.le_iff_toNat_le.mp hcolor
    have hnat : color.toNat = 1 ∨ color.toNat = 0 ∨ color.toNat = 2 := by omega
    exact hnat.imp UInt16.toNat_inj.mp (Or.imp UInt16.toNat_inj.mp UInt16.toNat_inj.mp)
  rcases hcases with rfl | rfl | rfl
  · have h : ∀ k : Fin 8, bit 255 k = true := by decide
    exact h ⟨k, hk⟩
  · have h : ∀ k : Fin 8, bit 0 k = false := by decide
    exact h ⟨k, hk⟩
  · rw [Buffer.solid, if_pos rfl, hue, if_neg (by decide), if_neg (by decide), if_pos rfl]
    simp [bit, hk]

namespace Buffer

/-- The byte of a point. -/
def offset (p : Pixel) : Nat := p.2 / 8 * 128 + p.1

/-- The byte of a point is one of the buffer. -/
theorem offset_lt (p : Pixel) : offset p < 1024 := by
  have h1 := p.1.isLt
  have h2 := p.2.isLt
  rw [offset]
  omega

/-- The points of a byte are eight rows of one column. -/
theorem offset_eq_iff {p : Pixel} {page x : Nat} (hx : x < 128) :
    offset p = page * 128 + x ↔ p.2.val / 8 = page ∧ p.1.val = x := by
  have h1 := p.1.isLt
  rw [offset]
  omega

/-- The picture in the buffer. -/
def pixel (b : Buffer) (p : Pixel) : Bool := bit (b.get ⟨offset p, offset_lt p⟩) (p.2 % 8)

/-- A point is a bit of its byte. -/
theorem pixel_eq (b : Buffer) {p : Pixel} (h : offset p < 1024) :
    b.pixel p = bit b[offset p] (p.2 % 8) := rfl

/-- The picture determines the bytes. -/
theorem pixel_injective : Function.Injective pixel := by
  intro b c h
  ext1 i hi
  apply UInt8.eq_of_toBitVec_eq
  apply BitVec.eq_of_getLsbD_eq
  intro k hk
  have hp := congrFun h (⟨i % 128, by omega⟩, ⟨i / 128 * 8 + k, by omega⟩)
  have hoffset : offset (⟨i % 128, by omega⟩, ⟨i / 128 * 8 + k, by omega⟩) = i := by
    rw [offset]
    simp only
    omega
  rw [pixel_eq _ (by omega), pixel_eq _ (by omega)] at hp
  simp only [hoffset, bit] at hp
  rwa [Nat.mul_add_mod_self_right, Nat.mod_eq_of_lt hk] at hp

/-- A drawing succeeds, and leaves the picture with an ink on it. -/
def Inks (b : Buffer) (r : Except Fault Buffer) (s : Pixel → Option (Bool → Bool)) : Prop :=
  ∃ c, r = .ok c ∧ pixel c = on s (pixel b)

/-- One drawing after another, of points that they do not share. -/
theorem Inks.bind {b : Buffer} {r : Except Fault Buffer} {g : Buffer → Except Fault Buffer}
    {s t : Pixel → Option (Bool → Bool)} (hr : b.Inks r s) (hg : ∀ c, Inks c (g c) t)
    (happart : Apart s t) : b.Inks (r >>= g) (both s t) := by
  obtain ⟨c, rfl, hc⟩ := hr
  obtain ⟨d, hd, hpixel⟩ := hg c
  exact ⟨d, hd, by rw [hpixel, hc, on_both happart]⟩

/-- Two parts of one figure, drawn one after the other. -/
theorem Inks.fill_bind {b : Buffer} {r : Except Fault Buffer} {g : Buffer → Except Fault Buffer}
    {S T U : Set Pixel} {f : Bool → Bool} (hr : b.Inks r (fill S f))
    (hg : ∀ c, Inks c (g c) (fill T f)) (hapart : ∀ p ∈ S, p ∉ T) (hunion : S ∪ T = U) :
    b.Inks (r >>= g) (fill U f) := by
  have h := hr.bind hg (apart_fill hapart f f)
  rwa [both_fill, hunion] at h

/-- A figure off the panel. -/
theorem inks_nothing (b : Buffer) {S : Set Pixel} (h : S = ∅) (f : Bool → Bool) :
    b.Inks (.ok b) (fill S f) := ⟨b, rfl, by rw [h, on_fill_empty]⟩

/-- A change of one byte. -/
theorem inks_change (b : Buffer) {pos : Nat} (hpos : pos < 1024) {f : UInt8 → UInt8}
    {g : Bool → Bool} {m : Nat → Prop} [DecidablePred m]
    (hf : ∀ byte k, k < 8 → bit (f byte) k = if m k then g (bit byte k) else bit byte k) :
    b.Inks (b.change pos (some f)) (fill {p | offset p = pos ∧ m (p.2 % 8)} g) := by
  refine ⟨_, dif_pos hpos, ?_⟩
  funext p
  have hp := offset_lt p
  rw [on_fill_apply, pixel_eq _ hp, pixel_eq _ hp, Vector.getElem_set]
  by_cases heq : pos = offset p
  · subst heq
    rw [if_pos rfl, hf _ _ (Nat.mod_lt _ (by decide))]
    simp only [Set.mem_ofPred_eq, true_and]
  · rw [if_neg heq, if_neg fun h => heq h.1.symm]

/-- A change of the bits of a mask. -/
theorem inks_masked (b : Buffer) {pos : Nat} (hpos : pos < 1024) (color : UInt16) (mask : UInt8) :
    b.Inks (b.change pos (masked color mask))
      (fill {p | offset p = pos ∧ bit mask (p.2 % 8) = true} (hue color)) := by
  cases hf : masked color mask with
  | none =>
    rw [hue_of_masked hf]
    exact ⟨b, rfl, (on_fill_id _ _).symm⟩
  | some f => exact b.inks_change hpos fun byte k hk => bit_masked hf byte hk

/-- A change of a whole byte. -/
theorem inks_solid (b : Buffer) {pos : Nat} (hpos : pos < 1024) {color : UInt16}
    (hcolor : color ≤ INVERSE) : b.Inks (b.change pos (some (solid color)))
      (fill {p | offset p = pos} (hue color)) := by
  have h := b.inks_change hpos (m := fun _ => True) fun byte k hk =>
    (bit_solid hcolor byte hk).trans (if_pos trivial).symm
  simpa only [and_true] using h

/-! ## Vertical lines -/

/-- The points of a column in some rows. -/
def column (x low high : Nat) : Set Pixel := {p | p.1.val = x ∧ low ≤ p.2.val ∧ p.2.val < high}

/-- What a column holds. -/
theorem mem_column {x low high : Nat} {p : Pixel} :
    p ∈ column x low high ↔ p.1.val = x ∧ low ≤ p.2.val ∧ p.2.val < high := Iff.rfl

/-- A column above a row and below it. -/
theorem column_apart {x low mid high : Nat} :
    ∀ p ∈ column x low mid, p ∉ column x mid high := by
  intro p hp hp'
  rw [mem_column] at hp hp'
  omega

/-- A column is cut in two at a row. -/
theorem column_union {x low mid high : Nat} (h : low ≤ mid) (h' : mid ≤ high) :
    column x low mid ∪ column x mid high = column x low high := by
  ext p
  simp only [Set.mem_union, mem_column]
  omega

/-- The whole bytes of a line. -/
theorem inks_solidLoop {color : UInt16} (hcolor : color ≤ INVERSE) {x : Nat} (hx : x < 128)
    (n page : Nat) (hpage : page + n ≤ 8) (b : Buffer) :
    b.Inks (solidLoop color n (page * 128 + x) b)
      (fill (column x (8 * page) (8 * (page + n))) (hue color)) := by
  induction n generalizing page b with
  | zero =>
    refine b.inks_nothing (Set.eq_empty_iff_forall_notMem.mpr fun p hp => ?_) _
    rw [mem_column] at hp
    omega
  | succ n ih =>
    have hfirst : b.Inks (b.change (page * 128 + x) (some (solid color)))
        (fill (column x (8 * page) (8 * (page + 1))) (hue color)) := by
      have h := b.inks_solid (show page * 128 + x < 1024 by omega) hcolor
      have hset : {p | offset p = page * 128 + x} = column x (8 * page) (8 * (page + 1)) := by
        ext p
        rw [Set.mem_ofPred_eq, offset_eq_iff hx, mem_column]
        omega
      rwa [hset] at h
    refine hfirst.fill_bind (fun c => ?_) column_apart (column_union (by omega) (by omega))
    have hrest := ih (page + 1) (by omega) c
    rwa [show (page + 1) * 128 + x = page * 128 + x + 128 by omega,
      show page + 1 + n = page + (n + 1) by omega] at hrest

/-- `postmask[m]` has the first `m` bits of a byte. -/
theorem bit_postmask : ∀ (m k : Fin 8), bit (postmask.get m) k = decide (k < m) := by
  decide

/-- A line from the beginning of a byte on. -/
theorem inks_lineRest {color : UInt16} (hcolor : color ≤ INVERSE) {x : Nat} (hx : x < 128)
    (h page : Nat) (hfits : 8 * page + h ≤ 64) (b : Buffer) :
    b.Inks (lineRest color h (page * 128 + x) b)
      (fill (column x (8 * page) (8 * page + h)) (hue color)) := by
  have hsolid := inks_solidLoop hcolor hx (h / 8) page (by omega) b
  rw [lineRest]
  refine hsolid.fill_bind (T := column x (8 * (page + h / 8)) (8 * page + h)) (fun c => ?_)
    column_apart (column_union (by omega) (by omega))
  by_cases hmod : h % 8 = 0
  · rw [if_pos hmod]
    refine c.inks_nothing (Set.eq_empty_iff_forall_notMem.mpr fun p hp => ?_) _
    rw [mem_column] at hp
    omega
  · rw [if_neg hmod]
    have hlast := c.inks_masked (show page * 128 + x + 128 * (h / 8) < 1024 by omega) color
      postmask[h % 8]
    have hset : {p | offset p = page * 128 + x + 128 * (h / 8) ∧
        bit postmask[h % 8] (p.2 % 8) = true} =
        column x (8 * (page + h / 8)) (8 * page + h) := by
      ext p
      have hbit := bit_postmask ⟨h % 8, Nat.mod_lt _ (by decide)⟩ ⟨p.2 % 8, Nat.mod_lt _ (by decide)⟩
      have hmask : bit postmask[h % 8] (p.2 % 8) = decide (p.2.val % 8 < h % 8) := hbit
      rw [Set.mem_ofPred_eq, hmask, mem_column, decide_eq_true_iff,
        show page * 128 + x + 128 * (h / 8) = (page + h / 8) * 128 + x by omega, offset_eq_iff hx]
      omega
    rwa [hset] at hlast

/-- `premask[m]` has the last `m` bits of a byte. -/
theorem bit_premask : ∀ m k : Fin 8, bit (premask.get m) k = decide (8 ≤ k.val + m.val) := by
  decide

/-- The mask of a line that ends in the byte it starts in. -/
theorem bit_shifted : ∀ n k : Fin 8,
    bit (0xFF >>> UInt8.ofNat n) k = decide (k.val + n.val < 8) := by
  decide

/-- The bits of two masks. -/
theorem bit_and (a c : UInt8) (k : Nat) : bit (a &&& c) k = (bit a k && bit c k) := by
  simp [bit]

/-- A line in the rows of the panel. -/
theorem inks_lineBytes {color : UInt16} (hcolor : color ≤ INVERSE) {x y h : Nat} (hx : x < 128)
    (hfits : y + h ≤ 64) (hy : y < 64) (b : Buffer) :
    b.Inks (lineBytes color x y h b) (fill (column x y (y + h)) (hue color)) := by
  rw [lineBytes]
  by_cases hmod : y % 8 = 0
  · simp only [dif_pos hmod]
    have hrest := inks_lineRest hcolor hx h (y / 8) (by omega) b
    rwa [show 8 * (y / 8) = y by omega] at hrest
  · simp only [dif_neg hmod]
    -- The first byte holds the rows of the line up to the next multiple of eight.
    have hfirst : b.Inks (b.change (y / 8 * 128 + x) (masked color
        (if h < 8 - y % 8 then
          premask[8 - y % 8] &&& (0xFF >>> UInt8.ofNat (8 - y % 8 - h)) else premask[8 - y % 8])))
        (fill (column x y (min (y + h) (8 * (y / 8 + 1)))) (hue color)) := by
      have hink := b.inks_masked (show y / 8 * 128 + x < 1024 by omega) color
        (if h < 8 - y % 8 then
          premask[8 - y % 8] &&& (0xFF >>> UInt8.ofNat (8 - y % 8 - h)) else premask[8 - y % 8])
      convert hink using 2
      ext p
      have hpre : bit premask[8 - y % 8] (p.2 % 8) = decide (8 ≤ p.2.val % 8 + (8 - y % 8)) :=
        bit_premask ⟨8 - y % 8, by omega⟩ ⟨p.2 % 8, Nat.mod_lt _ (by decide)⟩
      rw [Set.mem_ofPred_eq, offset_eq_iff hx, mem_column]
      by_cases hshort : h < 8 - y % 8
      · have hshift : bit (0xFF >>> UInt8.ofNat (8 - y % 8 - h)) (p.2 % 8) =
            decide (p.2.val % 8 + (8 - y % 8 - h) < 8) :=
          bit_shifted ⟨8 - y % 8 - h, by omega⟩ ⟨p.2 % 8, Nat.mod_lt _ (by decide)⟩
        rw [if_pos hshort, bit_and, hpre, hshift, Bool.and_eq_true, decide_eq_true_iff,
          decide_eq_true_iff]
        omega
      · rw [if_neg hshort, hpre, decide_eq_true_iff]
        omega
    refine hfirst.fill_bind (T := column x (min (y + h) (8 * (y / 8 + 1))) (y + h)) (fun c => ?_)
      column_apart (column_union (by omega) (by omega))
    by_cases hshort : h < 8 - y % 8
    · rw [if_pos hshort]
      refine c.inks_nothing (Set.eq_empty_iff_forall_notMem.mpr fun p hp => ?_) _
      rw [mem_column] at hp
      omega
    · rw [if_neg hshort]
      have hrest := inks_lineRest hcolor hx (h - (8 - y % 8)) (y / 8 + 1) (by omega) c
      rwa [show (y / 8 + 1) * 128 + x = y / 8 * 128 + x + 128 by omega,
        show 8 * (y / 8 + 1) + (h - (8 - y % 8)) = y + h by omega,
        show 8 * (y / 8 + 1) = min (y + h) (8 * (y / 8 + 1)) by omega] at hrest

/-! ## Horizontal lines -/

/-- The points of a row in some columns. -/
def row (y low high : Nat) : Set Pixel := {p | p.2.val = y ∧ low ≤ p.1.val ∧ p.1.val < high}

/-- What a row holds. -/
theorem mem_row {y low high : Nat} {p : Pixel} :
    p ∈ row y low high ↔ p.2.val = y ∧ low ≤ p.1.val ∧ p.1.val < high := Iff.rfl

/-- The mask of `drawPixel` has one bit. -/
theorem bit_one_shifted : ∀ n k : Fin 8, bit (1 <<< UInt8.ofNat n) k = decide (k.val = n.val) := by
  decide

/-- One point of the panel. -/
theorem inks_point (b : Buffer) {x y : Nat} (hx : x < 128) (hy : y < 64) (color : UInt16) :
    b.Inks (b.change (y / 8 * 128 + x) (masked color (1 <<< UInt8.ofNat (y % 8))))
      (fill (row y x (x + 1)) (hue color)) := by
  have hink := b.inks_masked (show y / 8 * 128 + x < 1024 by omega) color (1 <<< UInt8.ofNat (y % 8))
  convert hink using 2
  ext p
  have hbit : bit (1 <<< UInt8.ofNat (y % 8)) (p.2 % 8) = decide (p.2.val % 8 = y % 8) :=
    bit_one_shifted ⟨y % 8, Nat.mod_lt _ (by decide)⟩ ⟨p.2 % 8, Nat.mod_lt _ (by decide)⟩
  rw [Set.mem_ofPred_eq, offset_eq_iff hx, mem_row, hbit, decide_eq_true_iff]
  omega

/-- The loop of a horizontal line. -/
theorem inks_rowLoop (color : UInt16) {y : Nat} (hy : y < 64) (w : Nat) {x : Nat}
    (hfits : x + w ≤ 128) (b : Buffer) :
    b.Inks (rowLoop (masked color (1 <<< UInt8.ofNat (y % 8))) w (y / 8 * 128 + x) b)
      (fill (row y x (x + w)) (hue color)) := by
  induction w generalizing x b with
  | zero =>
    refine b.inks_nothing (Set.eq_empty_iff_forall_notMem.mpr fun p hp => ?_) _
    rw [mem_row] at hp
    omega
  | succ w ih =>
    have hapart : ∀ p ∈ row y x (x + 1), p ∉ row y (x + 1) (x + 1 + w) := by
      intro p hp hp'
      rw [mem_row] at hp hp'
      omega
    refine (b.inks_point (x := x) (by omega) hy color).fill_bind
      (fun c => ih (x := x + 1) (by omega) c) hapart ?_
    ext p
    simp only [Set.mem_union, mem_row]
    omega

end Buffer

/-! ## Coordinates -/

/-- Neither the start nor the end of a line wraps. -/
def Spans (start length : Int) : Prop :=
  start < 32768 ∧ -32768 ≤ start + length ∧ start + length < 32768

/-- A number of sixteen bits is kept. -/
theorem wrap16_eq {x : Int} (h : -32768 ≤ x) (h' : x < 32768) : wrap16 x = x := by
  rw [wrap16, Int.bmod_def]
  omega

/-- A rectangle: the corner, the width and the height. -/
def box (x y w h : Int) : Set (Int × Int) :=
  {q | x ≤ q.1 ∧ q.1 < x + w ∧ y ≤ q.2 ∧ q.2 < y + h}

/-- What a rectangle holds. -/
theorem mem_box {x y w h : Int} {q : Int × Int} :
    q ∈ box x y w h ↔ x ≤ q.1 ∧ q.1 < x + w ∧ y ≤ q.2 ∧ q.2 < y + h := Iff.rfl

/-- The coordinates that a point of the panel has in a rotation. -/
def view (rotation : Fin 4) (p : Pixel) : Int × Int :=
  match rotation with
  | 0 => (p.1, p.2)
  | 1 => (p.2, 127 - p.1)
  | 2 => (127 - p.1, 63 - p.2)
  | 3 => (63 - p.2, p.1)

/-- What the two tests of a fast line make of its start and its length: the part that lies on the
panel. -/
theorem clipped {start length limit first left last : Int} (hspans : Spans start length)
    (hlimit : 0 ≤ limit ∧ limit ≤ 128)
    (hfirst : (if start < 0 then (wrap16 (length + start), 0) else (length, start)) = (left, first))
    (hlast : (if wrap16 (first + left) > limit then wrap16 (limit - first) else left) = last) :
    0 ≤ first ∧ (0 < last → first + last ≤ limit) ∧ ∀ v, 0 ≤ v → v < limit →
      (start ≤ v ∧ v < start + length ↔ first ≤ v ∧ v < first + last) := by
  obtain ⟨hstart, hlow, hhigh⟩ := hspans
  have hpart : first = max start 0 ∧ left = if start < 0 then length + start else length := by
    split at hfirst
    · rw [wrap16_eq (by omega) (by omega)] at hfirst
      obtain ⟨rfl, rfl⟩ := Prod.mk.inj hfirst
      omega
    · obtain ⟨rfl, rfl⟩ := Prod.mk.inj hfirst
      omega
  obtain ⟨rfl, rfl⟩ := hpart
  rw [wrap16_eq (by omega) (by omega), wrap16_eq (by omega) (by omega)] at hlast
  subst hlast
  refine ⟨by omega, fun _ => by omega, fun v hv hvlimit => by omega⟩

namespace Buffer

/-- `drawFastVLineInternal` draws a line of width one, as far as it lies on the panel. -/
theorem inks_drawFastVLineInternal (b : Buffer) {color : UInt16} (hcolor : color ≤ INVERSE)
    (x : Int) {y h : Int} (hspans : Spans y h) :
    b.Inks (drawFastVLineInternal x y h color b)
      (fill (Set.preimage (view 0) (box x y 1 h)) (hue color)) := by
  have hmem : ∀ p : Pixel, p ∈ Set.preimage (view 0) (box x y 1 h) ↔
      (p.1.val : Int) = x ∧ y ≤ p.2.val ∧ p.2.val < y + h := by
    intro p
    rw [Set.mem_preimage, mem_box, view]
    simp only
    omega
  rw [drawFastVLineInternal]
  by_cases hx : x < 0 ∨ x ≥ WIDTH
  · rw [if_pos hx]
    refine b.inks_nothing (Set.eq_empty_iff_forall_notMem.mpr fun p hp => ?_) _
    have hp := ((hmem p).mp hp).1
    have hx : x < 0 ∨ 128 ≤ x := hx
    omega
  · rw [if_neg hx]
    have hx : ¬ (x < 0 ∨ 128 ≤ x) := hx
    generalize hfirst : (if y < 0 then (wrap16 (h + y), 0) else (h, y)) = r
    obtain ⟨left, first⟩ := r
    simp only
    generalize hlast : (if wrap16 (first + left) > HEIGHT then wrap16 (HEIGHT - first) else left) =
      last
    obtain ⟨hpos, hfits, hpart⟩ := @clipped _ _ 64 _ _ _ hspans (by decide) hfirst hlast
    by_cases hempty : last ≤ 0
    · rw [if_pos hempty]
      refine b.inks_nothing (Set.eq_empty_iff_forall_notMem.mpr fun p hp => ?_) _
      have hp := ((hmem p).mp hp).2
      rw [hpart _ (by omega) (by have := p.2.isLt; omega)] at hp
      omega
    · rw [if_neg hempty, Nat.mod_eq_of_lt (by omega), Nat.mod_eq_of_lt (by omega)]
      have hline := inks_lineBytes hcolor (x := x.toNat) (y := first.toNat) (h := last.toNat)
        (by omega) (by omega) (by omega) b
      convert hline using 2
      ext p
      rw [hmem, hpart _ (by omega) (by have := p.2.isLt; omega), mem_column]
      omega

/-- `drawFastHLineInternal` draws a line of height one, as far as it lies on the panel. -/
theorem inks_drawFastHLineInternal (b : Buffer) (color : UInt16) (y : Int) {x w : Int}
    (hspans : Spans x w) : b.Inks (drawFastHLineInternal x y w color b)
      (fill (Set.preimage (view 0) (box x y w 1)) (hue color)) := by
  have hmem : ∀ p : Pixel, p ∈ Set.preimage (view 0) (box x y w 1) ↔
      (p.2.val : Int) = y ∧ x ≤ p.1.val ∧ p.1.val < x + w := by
    intro p
    rw [Set.mem_preimage, mem_box, view]
    simp only
    omega
  rw [drawFastHLineInternal]
  by_cases hy : y < 0 ∨ y ≥ HEIGHT
  · rw [if_pos hy]
    refine b.inks_nothing (Set.eq_empty_iff_forall_notMem.mpr fun p hp => ?_) _
    have hp := ((hmem p).mp hp).1
    have hy : y < 0 ∨ 64 ≤ y := hy
    omega
  · rw [if_neg hy]
    have hy : ¬ (y < 0 ∨ 64 ≤ y) := hy
    generalize hfirst : (if x < 0 then (wrap16 (w + x), 0) else (w, x)) = r
    obtain ⟨left, first⟩ := r
    simp only
    generalize hlast : (if wrap16 (first + left) > WIDTH then wrap16 (WIDTH - first) else left) =
      last
    obtain ⟨hpos, hfits, hpart⟩ := @clipped _ _ 128 _ _ _ hspans (by decide) hfirst hlast
    by_cases hempty : last ≤ 0
    · rw [if_pos hempty]
      refine b.inks_nothing (Set.eq_empty_iff_forall_notMem.mpr fun p hp => ?_) _
      have hp := ((hmem p).mp hp).2
      rw [hpart _ (by omega) (by have := p.1.isLt; omega)] at hp
      omega
    · rw [if_neg hempty]
      have hline := inks_rowLoop color (y := y.toNat) (by omega) last.toNat (x := first.toNat)
        (by omega) b
      convert hline using 2
      ext p
      rw [hmem, hpart _ (by omega) (by have := p.1.isLt; omega), mem_row]
      omega

end Buffer

end SmartDoor
