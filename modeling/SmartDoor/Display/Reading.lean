import SmartDoor.Display.Text

/-!
# Reading a line

The printable characters of the font have different dots. What is printed in white on a line can
be read back from the points that are lit, each character from the corners of its dots.
-/

namespace SmartDoor

open CString Ink

/-! ## The font -/

/-- A table in rows of five. -/
def rows : List UInt8 → List (List UInt8)
  | a :: b :: c :: d :: e :: rest => [a, b, c, d, e] :: rows rest
  | _ => []

/-- The row `k` starts at the place `5 * k`. -/
theorem getElem?_rows {table : List UInt8} {k : Nat} {r : List UInt8}
    (h : (rows table)[k]? = some r) : ∀ i < 5, table[5 * k + i]? = r[i]? := by
  fun_induction rows table generalizing k with
  | case1 a b c d e rest ih =>
    intro i hi
    cases k with
    | zero =>
      obtain rfl := Option.some.inj h
      match i with
      | 0 | 1 | 2 | 3 | 4 => rfl
    | succ k =>
      rw [show 5 * (k + 1) + i = 5 * k + i + 1 + 1 + 1 + 1 + 1 by omega]
      exact ih h i hi
  | case2 => cases h

/-- Each row has five bytes. -/
theorem length_of_mem_rows {table : List UInt8} {r : List UInt8} (h : r ∈ rows table) :
    r.length = 5 := by
  fun_induction rows table with
  | case1 a b c d e rest ih =>
    rcases List.mem_cons.mp h with rfl | h
    · rfl
    · exact ih h
  | case2 => cases h

/-- The glyphs of the printable characters. -/
def glyphs : List (List UInt8) := rows ((font.toList.drop 160).take 475)

set_option maxRecDepth 8000 in
/-- No two glyphs are the same. -/
theorem glyphs_nodup : glyphs.Nodup := by
  decide +kernel

set_option maxRecDepth 8000 in
/-- There is a glyph for each printable character. -/
theorem glyphs_length : glyphs.length = 95 := by
  decide +kernel

/-- A character between the blank and the tilde. -/
def Printable (c : UInt8) : Prop := 32 ≤ c.toNat ∧ c.toNat ≤ 126

instance (c : UInt8) : Decidable (Printable c) := inferInstanceAs (Decidable (_ ∧ _))

/-- The dots of a printable character. -/
theorem lit_eq {c : UInt8} (h : Printable c) : ∃ r, glyphs[c.toNat - 32]? = some r ∧
    ∀ i < 5, ∀ j, lit c i j = bit (r.getD i 0) j := by
  obtain ⟨hlow, hhigh⟩ := h
  have hlt : c.toNat - 32 < glyphs.length := by
    rw [glyphs_length]
    omega
  obtain ⟨r, hr⟩ : ∃ r, glyphs[c.toNat - 32]? = some r := ⟨_, List.getElem?_eq_getElem hlt⟩
  refine ⟨r, hr, fun i hi j => ?_⟩
  have htable := getElem?_rows hr i hi
  rw [List.getElem?_take_of_lt (by omega), List.getElem?_drop,
    show 160 + (5 * (c.toNat - 32) + i) = c.toNat * 5 + i by omega] at htable
  rw [lit, decide_eq_true hi, Bool.true_and, Array.getD_eq_getD_getElem?, ← Array.getElem?_toList,
    htable, List.getD_eq_getElem?_getD]

/-- The dots tell a printable character. -/
theorem lit_injective {c c' : UInt8} (h : Printable c) (h' : Printable c')
    (hlit : ∀ i < 5, ∀ j < 8, lit c i j = lit c' i j) : c = c' := by
  obtain ⟨r, hr, hbit⟩ := lit_eq h
  obtain ⟨r', hr', hbit'⟩ := lit_eq h'
  have hlength := length_of_mem_rows (List.mem_of_getElem? hr)
  have hlength' := length_of_mem_rows (List.mem_of_getElem? hr')
  have hrow : r = r' := by
    apply List.ext_getElem (hlength.trans hlength'.symm)
    intro i hi hi'
    have hbits : ∀ j < 8, bit (r.getD i 0) j = bit (r'.getD i 0) j := fun j hj => by
      rw [← hbit i (by omega), ← hbit' i (by omega), hlit i (by omega) j hj]
    simp only [List.getD_eq_getElem?_getD, List.getElem?_eq_getElem hi,
      List.getElem?_eq_getElem hi', Option.getD_some] at hbits
    exact UInt8.eq_of_toBitVec_eq (BitVec.eq_of_getLsbD_eq hbits)
  subst hrow
  have hindex : c.toNat - 32 = c'.toNat - 32 :=
    (List.getElem?_inj (List.getElem?_eq_some_iff.mp hr).1 glyphs_nodup).mp (hr.trans hr'.symm)
  obtain ⟨hlow, -⟩ := h
  obtain ⟨hlow', -⟩ := h'
  exact UInt8.toNat_inj.mp (by omega)

/-- The first glyph is the blank. -/
theorem glyphs_blank : glyphs[0]? = some [0, 0, 0, 0, 0] := by
  decide +kernel

/-- A blank has no dot. -/
theorem lit_blank (i j : Nat) : lit 32 i j = false := by
  by_cases hi : i < 5
  · obtain ⟨r, hr, hbit⟩ := lit_eq (c := 32) (by decide)
    obtain rfl := Option.some.inj (glyphs_blank.symm.trans hr)
    rw [hbit i hi]
    match i, hi with
    | 0, _ | 1, _ | 2, _ | 3, _ | 4, _ => simp [bit]
  · rw [lit, decide_eq_false hi, Bool.false_and]

/-- A printable character other than the blank has a dot. -/
theorem exists_lit {c : UInt8} (h : Printable c) (hblank : c ≠ 32) :
    ∃ i < 5, ∃ j < 8, lit c i j = true := by
  by_contra hnone
  push Not at hnone
  exact hblank (lit_injective h (by decide) fun i hi j hj => by
    rw [lit_blank, Bool.eq_false_iff.mpr (hnone i hi j hj)])

namespace SSD1306

/-! ## What is lit -/

/-- The points that a character lights. -/
def Letter.Lights (size : UInt8) (l : Letter) (q : Int × Int) : Prop :=
  q ∈ l.cell size ∧
    lit l.c ((q.1 - l.x) / size.toNat).toNat ((q.2 - l.y) / size.toNat).toNat = true

/-- The points that some characters light. -/
def Lights (size : UInt8) (ls : List Letter) (q : Int × Int) : Prop := ∃ l ∈ ls, l.Lights size q

/-- In white, characters light their points, and all others stay as they are. -/
theorem typeset_white {d : SSD1306} (hcolor : d.textcolor = WHITE) (hbg : d.textbgcolor = WHITE)
    (ls : List Letter) (img : Pixel → Bool) (p : Pixel) :
    d.typeset ls img p = true ↔ img p = true ∨ Lights d.textsize ls (view d.rotation p) := by
  induction ls generalizing img with
  | nil => simp [typeset, Lights]
  | cons l ls ih =>
    have hfirst : on (fun p => glyphInk d.textcolor d.textbgcolor d.textsize.toNat l.x l.y l.c 0 6
        (view d.rotation p)) img p = true ↔
        img p = true ∨ l.Lights d.textsize (view d.rotation p) := by
      rw [on, glyphInk, hcolor, hbg, Nat.zero_add, Letter.Lights]
      by_cases hcell : view d.rotation p ∈ l.cell d.textsize
      · have hbox : view d.rotation p ∈ box l.x l.y ((6 : Nat) * d.textsize.toNat)
          (8 * d.textsize.toNat) := hcell
        rw [if_pos hbox, paint]
        split <;> rename_i hpaint
        · split at hpaint
          · cases hpaint
          · rename_i hlit
            simp [hlit]
        · split at hpaint
          · rename_i hlit
            obtain rfl := Option.some.inj hpaint
            simp [hue, hcell, hlit]
          · simp at hpaint
      · have hbox : view d.rotation p ∉ box l.x l.y ((6 : Nat) * d.textsize.toNat)
          (8 * d.textsize.toNat) := hcell
        rw [if_neg hbox]
        simp [hcell]
    refine (ih _).trans ?_
    rw [hfirst, Lights, Lights, or_assoc]
    simp only [List.mem_cons, exists_eq_or_imp]

/-- The corner of a dot of a character of a line. -/
def corner (x y : Int) (size : UInt8) (k i j : Nat) : Int × Int :=
  (x + (6 * k + i) * size.toNat, y + j * size.toNat)

/-- What a character lights at the corners of its dots. -/
theorem Letter.lights_corner {size : UInt8} (hsize : 0 < size.toNat) (x y : Int) (c : UInt8)
    {i j : Nat} (hi : i < 6) (hj : j < 8) :
    Letter.Lights size ⟨x, y, c⟩ (corner x y size 0 i j) ↔ lit c i j = true := by
  have hi' : (i : Int) * size.toNat ≤ 5 * size.toNat :=
    Int.mul_le_mul_of_nonneg_right (by omega) (by omega)
  have hj' : (j : Int) * size.toNat ≤ 7 * size.toNat :=
    Int.mul_le_mul_of_nonneg_right (by omega) (by omega)
  have hi0 : 0 ≤ (i : Int) * size.toNat := by positivity
  have hj0 : 0 ≤ (j : Int) * size.toNat := by positivity
  have hcorner : corner x y size 0 i j = (x + i * size.toNat, y + j * size.toNat) := by
    simp [corner]
  have hdiv : ∀ (v : Int) (n : Nat), (v + n * size.toNat - v) / (size.toNat : Int) = n := by
    intro v n
    rw [show v + n * (size.toNat : Int) - v = n * size.toNat by omega]
    exact Int.mul_ediv_cancel _ (by omega)
  rw [hcorner, Letter.Lights, Letter.cell, mem_box]
  simp only [hdiv, Int.toNat_natCast]
  exact and_iff_right ⟨by omega, by omega, by omega, by omega⟩

/-- The places of the characters of a text that is not cut into lines by the text itself. -/
def Plain (text : List UInt8) : Prop := ∀ c ∈ text, c ≠ 10 ∧ c ≠ 13

/-- A line goes on as long as there is room for one more character. -/
theorem next_of_room {d : SSD1306} (h : d.Fits) {c : UInt8} (hc : c ≠ 10 ∧ c ≠ 13)
    (hroom : d.cursorX + 12 * d.textsize.toNat ≤ d.width) :
    d.next c = (d.cursorX + 6 * d.textsize.toNat, d.cursorY) := by
  have hleft := h.left
  have hwidth := d.width_le
  rw [next, wrap16_eq (x := d.width - _) (by omega) (by omega),
    wrap16_eq (x := d.cursorX + _) (by omega) (by omega), if_neg hc.1, if_neg hc.2,
    if_neg fun hwrap => by omega, Int.mul_comm]

/-- Nothing is lit above the cursor, nor on its line to the left of it. -/
theorem lights_behind {d : SSD1306} (h : d.Fits) {text : List UInt8} (hlow : -32768 ≤ d.cursorY)
    (hhigh : d.cursorY + text.length * (8 * d.textsize.toNat) < 32768) {q : Int × Int}
    (hq : Lights d.textsize (letters text d) q) :
    d.cursorY ≤ q.2 ∧ (q.2 < d.cursorY + 8 * d.textsize.toNat → d.cursorX ≤ q.1) := by
  obtain ⟨l, hl, ⟨h1, h2, h3, h4⟩, -⟩ := hq
  rcases letters_behind h hlow hhigh hl with hplace | hplace <;> omega

/-- The characters of a line can be read at the corners of their dots. -/
theorem lights_line {d : SSD1306} (h : d.Fits) (hsize : 0 < d.textsize.toNat) {text : List UInt8}
    (hplain : Plain text) (hlow : -32768 ≤ d.cursorY)
    (hhigh : d.cursorY + text.length * (8 * d.textsize.toNat) < 32768) {k i j : Nat}
    (hk : d.cursorX + 6 * (k + 1) * d.textsize.toNat ≤ d.width) (hi : i < 6) (hj : j < 8) :
    Lights d.textsize (letters text d) (corner d.cursorX d.cursorY d.textsize k i j) ↔
      lit (text.getD k 32) i j = true := by
  induction text generalizing d k with
  | nil => simp [letters, Lights, lit_blank]
  | cons c text ih =>
    have hc := hplain c List.mem_cons_self
    have hj0 : 0 ≤ (j : Int) * d.textsize.toNat := by positivity
    have hj' : (j : Int) * d.textsize.toNat ≤ 7 * d.textsize.toNat :=
      Int.mul_le_mul_of_nonneg_right (by omega) (by omega)
    have hi0 : 0 ≤ (i : Int) * d.textsize.toNat := by positivity
    have hi' : (i : Int) * d.textsize.toNat ≤ 5 * d.textsize.toNat :=
      Int.mul_le_mul_of_nonneg_right (by omega) (by omega)
    have hfits := (h.next c).1
    obtain ⟨hlow', hhigh', hnext⟩ := h.step hlow hhigh
    have hletters : letters (c :: text) d =
        ⟨d.cursorX, d.cursorY, c⟩ :: letters text (d.advance c) :=
      if_neg (not_or.mpr hc)
    rw [hletters, Lights]
    simp only [List.mem_cons, exists_eq_or_imp]
    cases k with
    | zero =>
      refine (or_iff_left fun hrest => ?_).trans (Letter.lights_corner hsize _ _ c hi hj)
      -- All other characters stand behind this one.
      obtain ⟨hbelow, hright⟩ := lights_behind hfits hlow' hhigh' hrest
      have hbelow : (d.next c).2 ≤ d.cursorY + j * d.textsize.toNat := hbelow
      have hright : d.cursorY + j * d.textsize.toNat < (d.next c).2 + 8 * d.textsize.toNat →
          (d.next c).1 ≤ d.cursorX + (6 * (0 : Nat) + i) * d.textsize.toNat := hright
      rw [show (6 * ((0 : Nat) : Int) + i) * (d.textsize.toNat : Int) = i * d.textsize.toNat by
        simp] at hright
      rcases hnext with heq | ⟨hr, -⟩ | heq
      · rw [heq] at hbelow
        simp only at hbelow
        omega
      · exact hc.2 hr
      · rw [heq] at hright
        simp only at hright
        omega
    | succ k =>
      have hks : 0 ≤ (k : Int) * d.textsize.toNat := by positivity
      have hwhole : d.cursorX + 6 * ((k + 1 : Nat) + 1) * d.textsize.toNat =
          d.cursorX + 12 * d.textsize.toNat + 6 * (k * d.textsize.toNat) := by
        push_cast
        ring
      have hroom := next_of_room h hc (by omega)
      have hcorner : corner d.cursorX d.cursorY d.textsize (k + 1) i j =
          corner (d.advance c).cursorX (d.advance c).cursorY d.textsize k i j := by
        change _ = corner (d.next c).1 (d.next c).2 d.textsize k i j
        rw [hroom, corner, corner]
        push_cast
        exact Prod.ext (by simp only; ring) rfl
      have hrest := ih hfits hsize (fun c hc => hplain c (List.mem_cons_of_mem _ hc)) hlow' hhigh'
        (k := k) (by
          change (d.next c).1 + 6 * (k + 1) * d.textsize.toNat ≤ d.width
          rw [hroom]
          simp only
          rw [show 6 * ((k : Int) + 1) * (d.textsize.toNat : Int) =
            6 * d.textsize.toNat + 6 * (k * d.textsize.toNat) by ring]
          omega)
      rw [hcorner]
      refine (or_iff_right fun hfirst => ?_).trans hrest
      rw [← hcorner] at hfirst
      obtain ⟨⟨-, hleft, -, -⟩, -⟩ := hfirst
      have hleft : d.cursorX + (6 * (k + 1 : Nat) + i) * d.textsize.toNat <
        d.cursorX + 6 * d.textsize.toNat := hleft
      rw [show (6 * ((k + 1 : Nat) : Int) + i) * (d.textsize.toNat : Int) =
        6 * d.textsize.toNat + 6 * (k * d.textsize.toNat) + i * d.textsize.toNat by
          push_cast
          ring] at hleft
      omega

/-! ## Parts of a text -/

/-- The second part of a text starts where the first one has left the cursor. -/
theorem letters_append (text text' : List UInt8) (d : SSD1306) :
    letters (text ++ text') d = letters text d ++ letters text' (d.advances text) := by
  induction text generalizing d with
  | nil => rfl
  | cons c text ih =>
    rw [List.cons_append, letters, letters, ih]
    split <;> rfl

/-- The letters on the panel are characters of the text, no ends of lines. -/
theorem mem_of_mem_letters {text : List UInt8} {d : SSD1306} {l : Letter}
    (h : l ∈ letters text d) : l.c ∈ text ∧ l.c ≠ 10 ∧ l.c ≠ 13 := by
  induction text generalizing d with
  | nil => cases h
  | cons c text ih =>
    rw [letters] at h
    split at h
    · exact (ih h).imp_left (List.mem_cons_of_mem _)
    · rename_i hskip
      rcases List.mem_cons.mp h with rfl | h
      · exact ⟨List.mem_cons_self, not_or.mp hskip⟩
      · exact (ih h).imp_left (List.mem_cons_of_mem _)

/-- What lights nothing can be left out at the end. -/
theorem lights_append {text text' : List UInt8} (h : ∀ c ∈ text', c = 32 ∨ c = 10 ∨ c = 13)
    (size : UInt8) (d : SSD1306) (q : Int × Int) :
    Lights size (letters (text ++ text') d) q ↔ Lights size (letters text d) q := by
  rw [letters_append]
  constructor
  · rintro ⟨l, hl, hq⟩
    rcases List.mem_append.mp hl with hl | hl
    · exact ⟨l, hl, hq⟩
    · obtain ⟨hmem, hn, hr⟩ := mem_of_mem_letters hl
      rcases h l.c hmem with hblank | hline | hreturn
      · have hlit := hq.2
        rw [hblank, lit_blank] at hlit
        cases hlit
      · exact absurd hline hn
      · exact absurd hreturn hr
  · rintro ⟨l, hl, hq⟩
    exact ⟨l, List.mem_append_left _ hl, hq⟩

/-- The text without the carriage returns, which `write` skips. -/
def visible (text : List UInt8) : List UInt8 := text.filter (· ≠ 13)

/-- The carriage returns make no letter and move nothing. -/
theorem letters_visible (text : List UInt8) (d : SSD1306) :
    letters (visible text) d = letters text d := by
  induction text generalizing d with
  | nil => rfl
  | cons c text ih =>
    by_cases hc : c = 13
    · subst hc
      have hfilter : visible (13 :: text) = visible text := rfl
      rw [hfilter, letters, if_pos (Or.inr rfl)]
      exact ih d
    · have hfilter : visible (c :: text) = c :: visible text :=
        List.filter_cons_of_pos (decide_eq_true hc)
      rw [hfilter, letters, letters, ih]

/-- A text that fits on its line stays there. -/
theorem lights_of_short {d : SSD1306} (h : d.Fits) {text : List UInt8} (hplain : Plain text)
    (hshort : d.cursorX + 6 * (text.length * d.textsize.toNat) ≤ d.width) {q : Int × Int}
    (hq : Lights d.textsize (letters text d) q) : q.2 < d.cursorY + 8 * d.textsize.toNat ∧
      q.1 < d.cursorX + 6 * (text.length * d.textsize.toNat) := by
  have hplace : ∀ l ∈ letters text d, l.y = d.cursorY ∧
      l.x + 6 * d.textsize.toNat ≤ d.cursorX + 6 * (text.length * d.textsize.toNat) := by
    clear hq
    induction text generalizing d with
    | nil => exact fun _ hl => by cases hl
    | cons c text ih =>
      have hnonneg : 0 ≤ (text.length : Int) * d.textsize.toNat := by positivity
      have hlength : ((c :: text).length : Int) * d.textsize.toNat =
          text.length * d.textsize.toNat + d.textsize.toNat := by
        rw [List.length_cons]
        push_cast
        ring
      have hc := hplain c List.mem_cons_self
      rw [hlength] at hshort ⊢
      intro l hl
      have hletters : letters (c :: text) d =
          ⟨d.cursorX, d.cursorY, c⟩ :: letters text (d.advance c) := if_neg (not_or.mpr hc)
      rw [hletters] at hl
      rcases List.mem_cons.mp hl with rfl | hl
      · exact ⟨rfl, by simp only; omega⟩
      · cases text with
        | nil => cases hl
        | cons c' text =>
          have hlength' : ((c' :: text).length : Int) * d.textsize.toNat =
              text.length * d.textsize.toNat + d.textsize.toNat := by
            rw [List.length_cons]
            push_cast
            ring
          have hnonneg' : 0 ≤ (text.length : Int) * d.textsize.toNat := by positivity
          have hroom := next_of_room h hc (by omega)
          have hshort' : (d.next c).1 + 6 * ((c' :: text).length * d.textsize.toNat) ≤ d.width := by
            rw [hroom]
            simp only
            omega
          obtain ⟨hy, hx⟩ := ih (h.next c).1 (fun c hc => hplain c (List.mem_cons_of_mem _ hc))
            hshort' l hl
          have hy : l.y = (d.next c).2 := hy
          have hx : l.x + 6 * d.textsize.toNat ≤
            (d.next c).1 + 6 * ((c' :: text).length * d.textsize.toNat) := hx
          rw [hroom] at hx hy
          simp only at hx hy
          exact ⟨hy, by omega⟩
  obtain ⟨l, hl, ⟨h1, h2, h3, h4⟩, -⟩ := hq
  obtain ⟨hy, hx⟩ := hplace l hl
  omega

end SSD1306

end SmartDoor
