import SmartDoor.Access.Decoding
import SmartDoor.Display.Reading

/-!
# The screens of the sketch

`LEDprint` clears the buffer, draws the date, the time and the lines of its text, and sends the
buffer after each of them. So the last frame that it sends shows what it was called with, and
nothing of what was shown before.
-/

namespace SmartDoor

open CString

/-! ## Sending the buffer -/

/-- The bytes of a transmission on the bus. -/
abbrev Packet := List UInt8

/-- `ssd1306_command(c)` -/
def command (c : UInt8) : Packet := [0x00, c]

/-- The inner `for` of `display`: the packet, and the index behind it. -/
def packetLoop (b : Buffer) : Nat → Nat → Packet → Except Fault (Packet × Nat)
  | 0, i, packet => .ok (packet, i)
  | left + 1, i, packet =>
    if h : i < 1024 then packetLoop b left (i + 1) (packet ++ [b[i]]) else .error .overread

/-- The outer `for` of `display` within a number of rounds, from an index on. -/
def sendLoop (b : Buffer) : Nat → Nat → Except Fault (List Packet)
  | 0, _ => .ok []
  | left + 1, i =>
    if i < 1024 then do
      let (packet, i) ← packetLoop b 16 i [0x40]
      return packet :: (← sendLoop b left (i - 1 + 1))
    else .ok []

/-- `display()`: what it sends. -/
def SSD1306.display (d : SSD1306) : Except Fault (List Packet) := do
  let packets ← sendLoop d.buffer 1024 0
  return [command 0x21, command 0, command 127, command 0x22, command 0, command 7] ++ packets

/-- The display, and all that was sent to it. -/
structure Display where
  driver : SSD1306
  sent : List Packet

namespace Display

/-- The display before anything is drawn or sent. -/
def empty : Display := ⟨SSD1306.blank 0, []⟩

/-- `display.display()` -/
def display (s : Display) : Except Fault Display := do
  return { s with sent := s.sent ++ (← s.driver.display) }

/-- Print a text and send the buffer. -/
def shows (text : Bytes) (s : Display) : Except Fault Display := do
  let driver ← s.driver.print text
  { s with driver := driver }.display

/-- `print2digits(number)` -/
def print2digits (number : Nat) (s : Display) : Except Fault Display := do
  let driver ← if number < 10 then s.driver.write 48 else .ok s.driver
  { s with driver := driver }.shows (decimal number)

/-- `printDateAndTime()` with the time that is read. -/
def printDateAndTime (tm : Tm) (s : Display) : Except Fault Display := do
  let driver := s.driver.clearDisplay
  let driver := ((driver.setTextSize 1).setTextColor WHITE).setCursor 1 1
  let s ← { s with driver := driver }.shows (decimal tm.day.toNat)
  let s ← s.shows (ascii "/")
  let s ← s.shows (decimal tm.month.toNat)
  let s ← s.shows (ascii "/")
  let s ← s.shows (decimal (tm.year.toNat + 1970))
  let s ← s.shows (ascii "      ")
  let s := { s with driver := s.driver.setCursor 90 1 }
  let s ← s.print2digits tm.hour.toNat
  let s ← s.shows (ascii ":")
  s.print2digits tm.minute.toNat

/-- A line of the text: `setCursor(x, y)`, `println(text)` and `display()`. -/
def line (x y : Int) (text : Bytes) (s : Display) : Except Fault Display :=
  { s with driver := s.driver.setCursor x y }.shows (text ++ [13, 10])

/-- `LEDprint(text)`, with the time that is read and the lines that it chooses: one line from the
left edge on, or two further to the right. -/
def ledPrint (tm : Tm) (lines : List Bytes) (s : Display) : Except Fault Display := do
  let s ← s.printDateAndTime tm
  let s := { s with driver := (s.driver.setTextSize 2).setTextColor WHITE }
  match lines with
  | [text] => s.line 0 17 text
  | [first, second] => do (← s.line 30 17 first).line 30 40 second
  | _ => .ok s

end Display

/-! ## Frames -/

theorem packetLoop_eq (b : Buffer) (n : Nat) {i : Nat} (h : i + n ≤ 1024) (packet : Packet) :
    packetLoop b n i packet = .ok (packet ++ (b.toList.drop i).take n, i + n) := by
  induction n generalizing i packet with
  | zero => simp [packetLoop]
  | succ n ih =>
    have hi : i < b.toList.length := by
      rw [Vector.length_toList]
      omega
    rw [packetLoop, dif_pos (by omega), ih (by omega), List.drop_eq_getElem_cons hi,
      List.take_succ_cons, List.append_assoc, List.singleton_append, Vector.getElem_toList,
      Nat.add_right_comm, Nat.add_assoc]

/-- The packets of a buffer, from one of them on. -/
def packets (b : Buffer) (k n : Nat) : List Packet :=
  (List.range' k n).map fun k => 0x40 :: (b.toList.drop (16 * k)).take 16

theorem sendLoop_eq (b : Buffer) (n : Nat) {k : Nat} (h : k + n = 64) {left : Nat} (hleft : n < left) :
    sendLoop b left (16 * k) = .ok (packets b k n) := by
  induction n generalizing k left with
  | zero =>
    obtain ⟨left, rfl⟩ : ∃ l, left = l + 1 := ⟨left - 1, by omega⟩
    exact if_neg (by omega)
  | succ n ih =>
    obtain ⟨left, rfl⟩ : ∃ l, left = l + 1 := ⟨left - 1, by omega⟩
    have hrest := ih (k := k + 1) (by omega) (show n < left by omega)
    rw [sendLoop, if_pos (by omega), packetLoop_eq b 16 (by omega), ok_bind]
    simp only
    rw [show 16 * k + 16 - 1 + 1 = 16 * (k + 1) by omega, hrest]
    rfl

/-- What `display` sends for a buffer. -/
def frame (b : Buffer) : List Packet :=
  [command 0x21, command 0, command 127, command 0x22, command 0, command 7] ++ packets b 0 64

/-- `display` sends the whole buffer, and reads nothing behind it. -/
theorem SSD1306.display_eq (d : SSD1306) : d.display = .ok (frame d.buffer) := by
  have h := sendLoop_eq d.buffer 64 (k := 0) rfl (show 64 < 1024 by omega)
  rw [display, h]
  rfl

/-- The frame tells the buffer. -/
theorem frame_injective : Function.Injective frame := by
  intro b c h
  have hpackets : packets b 0 64 = packets c 0 64 := List.append_cancel_left h
  ext1 i hi
  have hk := congrArg (fun packets => packets[i / 16]?) hpackets
  simp only [packets, List.getElem?_map] at hk
  rw [List.getElem?_range' (by omega), Option.map_some, Option.map_some, Nat.zero_add] at hk
  have hbyte := congrArg (fun packet => packet[i % 16]?) (List.cons.inj (Option.some.inj hk)).2
  simp only [List.getElem?_take_of_lt (Nat.mod_lt i (by decide : 16 > 0)), List.getElem?_drop] at hbyte
  rw [Nat.one_mul, Nat.div_add_mod, List.getElem?_eq_getElem (by simpa using hi),
    List.getElem?_eq_getElem (by simpa using hi)] at hbyte
  simpa using hbyte

/-! ## Printing in white -/

namespace SSD1306

theorem advances_eq (text : Bytes) (d : SSD1306) :
    ∃ x y, d.advances text = { d with cursorX := x, cursorY := y } := by
  induction text generalizing d with
  | nil => exact ⟨d.cursorX, d.cursorY, rfl⟩
  | cons c text ih =>
    obtain ⟨x, y, h⟩ := ih (d.advance c)
    exact ⟨x, y, h⟩

/-- Texts are printed in white, and only where they are lit. -/
structure White (d : SSD1306) : Prop where
  prints : d.Prints
  color : d.textcolor = WHITE
  background : d.textbgcolor = WHITE

theorem White.advances {d : SSD1306} (h : d.White) (text : Bytes) : (d.advances text).White := by
  induction text generalizing d with
  | nil => exact h
  | cons c text ih => exact ih ⟨h.prints.advance c, h.color, h.background⟩

theorem White.congr {d : SSD1306} (h : d.White) (b : Buffer) : White { d with buffer := b } :=
  ⟨⟨h.prints.x, h.prints.y, h.prints.color, h.prints.background, h.prints.size⟩, h.color,
    h.background⟩

/-- The driver before a line is printed, in the first rotation. -/
def placed (x y : Int) (size : UInt8) : SSD1306 :=
  (((blank 0).setTextSize size).setTextColor WHITE).setCursor x y

/-- The panel hangs as it is mounted, and long lines are wrapped. -/
structure Mounted (d : SSD1306) : Prop where
  rotation : d.rotation = 0
  wrap : d.wrap = true

theorem Mounted.placed {d : SSD1306} (h : d.Mounted) (x y : Int) (size : UInt8) :
    ((d.setTextSize size).setTextColor WHITE).setCursor x y =
      { placed x y size with buffer := d.buffer } := by
  obtain ⟨hrotation, hwrap⟩ := h
  rw [setCursor, setTextColor, setTextSize]
  simp only [hrotation, hwrap]
  rfl

theorem placed_textsize {x y : Int} {size : UInt8} (h : 0 < size.toNat) :
    (placed x y size).textsize = size := by
  rw [placed, setCursor, setTextColor, setTextSize]
  have hpos : size > 0 := UInt8.lt_iff_toNat_lt.mpr (by simpa using h)
  exact if_pos hpos

end SSD1306

namespace Display

open SSD1306

/-- A text has been printed in white, and the buffer was sent last. -/
def Typed (text : Bytes) (s : Display) (r : Except Fault Display) : Prop :=
  ∃ b sent, r = .ok ⟨{ s.driver.advances text with buffer := b }, sent ++ frame b⟩ ∧
    ∀ p, b.pixel p = true ↔ s.driver.picture p = true ∨
      Lights s.driver.textsize (letters text s.driver) (view s.driver.rotation p)

theorem typed_shows {s : Display} (h : s.driver.White) {text : Bytes} (htext : 255 ∉ text) :
    Typed text s (s.shows text) := by
  obtain ⟨b, hb, hpixel⟩ := print_eq h.prints htext
  refine ⟨b, s.sent, ?_, fun p => ?_⟩
  · rw [shows, hb, ok_bind, display, SSD1306.display_eq]
    rfl
  · rw [hpixel, typeset_white h.color h.background]

/-- A text that has been printed from a place on. -/
theorem Typed.placed {text : Bytes} {x y : Int} {size : UInt8} (hsize : 0 < size.toNat)
    {b : Buffer} {sent : List Packet} {r : Except Fault Display}
    (h : Typed text ⟨{ placed x y size with buffer := b }, sent⟩ r) : ∃ b' sent' u v,
      r = .ok ⟨{ SSD1306.placed u v size with buffer := b' }, sent' ++ frame b'⟩ ∧
      ∀ p, b'.pixel p = true ↔
        b.pixel p = true ∨ Lights size (letters text (SSD1306.placed x y size)) (view 0 p) := by
  obtain ⟨b', sent', rfl, hpixel⟩ := h
  obtain ⟨u, v, hkeep⟩ := (SSD1306.placed x y size).advances_eq text
  refine ⟨b', sent', u, v, ?_, fun p => ?_⟩
  · simp only [advances_buffer, hkeep]
    rfl
  · rw [hpixel, letters_buffer]
    change b.pixel p = true ∨ Lights (SSD1306.placed x y size).textsize _ _ ↔ _
    rw [placed_textsize hsize]
    rfl

/-- One text after the other. -/
theorem Typed.bind {s : Display} {r : Except Fault Display} {g : Display → Except Fault Display}
    {text text' : Bytes} (hr : Typed text s r) (h : s.driver.White)
    (hg : ∀ s' : Display, s'.driver.White → Typed text' s' (g s')) :
    Typed (text ++ text') s (r >>= g) := by
  obtain ⟨b, sent, rfl, hpixel⟩ := hr
  obtain ⟨b', sent', hb', hpixel'⟩ := hg ⟨_, sent ++ frame b⟩ ((h.advances text).congr b)
  have hadvances : advances text' (s.driver.advances text) = s.driver.advances (text ++ text') :=
    (List.foldl_append ..).symm
  obtain ⟨x, y, hkeep⟩ := s.driver.advances_eq text
  refine ⟨b', sent', ?_, fun p => ?_⟩
  · rw [ok_bind, hb']
    simp only [advances_buffer, hadvances]
  · rw [hpixel', letters_append]
    simp only [letters_buffer]
    change b.pixel p = true ∨ Lights (s.driver.advances text).textsize
      (letters text' (s.driver.advances text)) (view (s.driver.advances text).rotation p) ↔ _
    rw [hpixel, hkeep, or_assoc]
    simp only [Lights, List.mem_append, or_and_right, exists_or]

/-- The two digits of a number below 100. -/
def twoDigits (n : Nat) : Bytes := if n < 10 then 48 :: decimal n else decimal n

theorem typed_print2digits {s : Display} (h : s.driver.White) (n : Nat)
    (hdigits : 255 ∉ decimal n) : Typed (twoDigits n) s (s.print2digits n) := by
  rw [twoDigits, print2digits]
  by_cases hn : n < 10
  · rw [if_pos hn, if_pos hn]
    have htext : 255 ∉ 48 :: decimal n := by
      rw [List.mem_cons]
      exact not_or.mpr ⟨by decide, hdigits⟩
    have hshows := typed_shows h htext
    have heq : s.shows (48 :: decimal n) = s.driver.write 48 >>= fun driver =>
        Display.shows (decimal n) { s with driver := driver } := by
      rw [shows, SSD1306.print, List.foldlM_cons, bind_assoc]
      rfl
    rwa [heq] at hshows
  · rw [if_neg hn, if_neg hn]
    exact typed_shows h hdigits

/-! ## Whole screens -/

/-- The date, as it is printed. -/
def dateText (tm : Tm) : Bytes :=
  decimal tm.day.toNat ++ (ascii "/" ++ (decimal tm.month.toNat ++ (ascii "/" ++
    (decimal (tm.year.toNat + 1970) ++ ascii "      "))))

/-- The time, as it is printed. -/
def timeText (tm : Tm) : Bytes := twoDigits tm.hour.toNat ++ (ascii ":" ++ twoDigits tm.minute.toNat)

theorem notMem_decimal_255 (n : Nat) : 255 ∉ decimal n := notMem_decimal (Or.inr (by decide)) n

/-- The points that a line lights, in the large size. -/
def LineLights (x y : Int) (text : Bytes) (q : Int × Int) : Prop :=
  Lights 2 (letters text (placed x y 2)) q

/-- The points that the date and the time light. -/
def HeadLights (tm : Tm) (q : Int × Int) : Prop :=
  Lights 1 (letters (dateText tm) (placed 1 1 1)) q ∨
    Lights 1 (letters (timeText tm) (placed 90 1 1)) q

/-- The points that the lines light. -/
def BodyLights : List Bytes → Int × Int → Prop
  | [text], q => LineLights 0 17 text q
  | [first, second], q => LineLights 30 17 first q ∨ LineLights 30 40 second q
  | _, _ => False

/-- One line or two, in the characters of the font. -/
def Displayable (lines : List Bytes) : Prop :=
  (lines.length = 1 ∨ lines.length = 2) ∧ ∀ text ∈ lines, 255 ∉ text

theorem white_placed {x y : Int} (hx : Int16 x) (hy : Int16 y) {size : UInt8}
    (hsize : 0 < size.toNat) : (placed x y size).White := by
  have hcolor : WHITE ≤ INVERSE := by
    decide
  refine ⟨⟨hx, hy, hcolor, hcolor, ?_⟩, rfl, rfl⟩
  rwa [placed_textsize hsize]

theorem typed_dateAndTime {s : Display} (h : s.driver.Mounted) (tm : Tm) :
    ∃ b sent x y, s.printDateAndTime tm =
        .ok ⟨{ placed x y 1 with buffer := b }, sent ++ frame b⟩ ∧
      ∀ p, b.pixel p = true ↔ HeadLights tm (view 0 p) := by
  have hclear : Mounted s.driver.clearDisplay := ⟨h.rotation, h.wrap⟩
  have hwhite : ∀ x : Int, Int16 x → (placed x 1 1).White := fun x hx =>
    white_placed hx ⟨by omega, by omega⟩ (by decide)
  -- The date is printed on the cleared picture.
  have hdate : Typed (dateText tm)
      ⟨{ placed 1 1 1 with buffer := s.driver.clearDisplay.buffer }, s.sent⟩
      (Display.shows (decimal tm.day.toNat)
        ⟨{ placed 1 1 1 with buffer := s.driver.clearDisplay.buffer }, s.sent⟩ >>= fun s =>
        s.shows (ascii "/") >>= fun s => s.shows (decimal tm.month.toNat) >>= fun s =>
        s.shows (ascii "/") >>= fun s => s.shows (decimal (tm.year.toNat + 1970)) >>= fun s =>
        s.shows (ascii "      ")) := by
    have h1 := (hwhite 1 ⟨by omega, by omega⟩).congr s.driver.clearDisplay.buffer
    refine (typed_shows h1 (notMem_decimal_255 _)).bind h1 fun _ h2 => ?_
    refine (typed_shows h2 (by decide)).bind h2 fun _ h3 => ?_
    refine (typed_shows h3 (notMem_decimal_255 _)).bind h3 fun _ h4 => ?_
    refine (typed_shows h4 (by decide)).bind h4 fun _ h5 => ?_
    exact (typed_shows h5 (notMem_decimal_255 _)).bind h5 fun _ h6 => typed_shows h6 (by decide)
  have htime : ∀ s : Display, s.driver.White → Typed (timeText tm) s
      (s.print2digits tm.hour.toNat >>= fun s => s.shows (ascii ":") >>= fun s =>
        s.print2digits tm.minute.toNat) := by
    intro s h1
    refine (typed_print2digits h1 _ (notMem_decimal_255 _)).bind h1 fun _ h2 => ?_
    exact (typed_shows h2 (by decide)).bind h2 fun _ h3 =>
      typed_print2digits h3 _ (notMem_decimal_255 _)
  obtain ⟨b, sent, u, v, hb, hpixel⟩ := hdate.placed (by decide)
  obtain ⟨b', sent', x, y, hb', hpixel'⟩ := (htime ⟨{ placed 90 1 1 with buffer := b },
    sent ++ frame b⟩ ((hwhite 90 ⟨by omega, by omega⟩).congr b)).placed (by decide)
  refine ⟨b', sent', x, y, ?_, fun p => ?_⟩
  · have hassoc : s.printDateAndTime tm = (Display.shows (decimal tm.day.toNat)
        ⟨((s.driver.clearDisplay.setTextSize 1).setTextColor WHITE).setCursor 1 1, s.sent⟩ >>=
        fun s => s.shows (ascii "/") >>= fun s => s.shows (decimal tm.month.toNat) >>= fun s =>
        s.shows (ascii "/") >>= fun s => s.shows (decimal (tm.year.toNat + 1970)) >>= fun s =>
        s.shows (ascii "      ")) >>= fun s =>
        Display.print2digits tm.hour.toNat ⟨s.driver.setCursor 90 1, s.sent⟩ >>= fun s =>
        s.shows (ascii ":") >>= fun s => s.print2digits tm.minute.toNat := by
      simp only [bind_assoc]
      rfl
    rw [hassoc, hclear.placed, hb, ok_bind]
    exact hb'
  · have hblank : s.driver.clearDisplay.buffer.pixel p = false := by
      rw [Buffer.pixel_eq _ (Buffer.offset_lt p)]
      simp [clearDisplay, bit]
    rw [hpixel', hpixel, hblank]
    simp only [Bool.false_eq_true, false_or]
    rfl

/-- A line below the date. -/
theorem typed_line {s : Display} {u v : Int} {b : Buffer}
    (h : s.driver = { placed u v 2 with buffer := b }) {x y : Int} (hx : Int16 x) (hy : Int16 y)
    {text : Bytes} (htext : 255 ∉ text) : ∃ b' sent u' v',
      s.line x y text = .ok ⟨{ placed u' v' 2 with buffer := b' }, sent ++ frame b'⟩ ∧
      ∀ p, b'.pixel p = true ↔ b.pixel p = true ∨ LineLights x y text (view 0 p) := by
  have hwhite := (white_placed hx hy (show 0 < (2 : UInt8).toNat by decide)).congr b
  have hnone : 255 ∉ text ++ [13, 10] := by
    rw [List.mem_append]
    exact not_or.mpr ⟨htext, by decide⟩
  have htyped : Typed (text ++ [13, 10]) ⟨{ placed x y 2 with buffer := b }, s.sent⟩
      (Display.shows (text ++ [13, 10]) ⟨{ placed x y 2 with buffer := b }, s.sent⟩) :=
    typed_shows hwhite hnone
  obtain ⟨b', sent, u', v', hb', hpixel⟩ := htyped.placed (by decide)
  refine ⟨b', sent, u', v', ?_, fun p => (hpixel p).trans (or_congr_right ?_)⟩
  · rw [line, h]
    exact hb'
  · exact lights_append (fun c hc => Or.inr (by simpa [or_comm] using hc)) 2 _ _

/-- `LEDprint` shows its screen, whatever was on the display before. -/
theorem ledPrint_eq {s : Display} (h : s.driver.Mounted) (tm : Tm) {lines : List Bytes}
    (hlines : Displayable lines) : ∃ b sent x y, s.ledPrint tm lines =
        .ok ⟨{ placed x y 2 with buffer := b }, sent ++ frame b⟩ ∧
      ∀ p, b.pixel p = true ↔ HeadLights tm (view 0 p) ∨ BodyLights lines (view 0 p) := by
  obtain ⟨hlength, htext⟩ := hlines
  obtain ⟨b, sent, u, v, hb, hpixel⟩ := typed_dateAndTime h tm
  rw [ledPrint, hb, ok_bind]
  rcases hlength with hone | htwo
  · obtain ⟨text, rfl⟩ := List.length_eq_one_iff.mp hone
    obtain ⟨b', sent', x, y, hb', hpixel'⟩ := typed_line
      (s := ⟨{ placed u v 2 with buffer := b }, sent ++ frame b⟩) rfl (x := 0) (y := 17)
      ⟨by omega, by omega⟩ ⟨by omega, by omega⟩ (htext text List.mem_cons_self)
    exact ⟨b', sent', x, y, hb', fun p => (hpixel' p).trans (or_congr_left (hpixel p))⟩
  · obtain ⟨first, second, rfl⟩ := List.length_eq_two.mp htwo
    obtain ⟨b', sent', x', y', hb', hpixel'⟩ := typed_line
      (s := ⟨{ placed u v 2 with buffer := b }, sent ++ frame b⟩) rfl (x := 30) (y := 17)
      ⟨by omega, by omega⟩ ⟨by omega, by omega⟩ (htext first List.mem_cons_self)
    obtain ⟨b'', sent'', x, y, hb'', hpixel''⟩ := typed_line
      (s := ⟨{ placed x' y' 2 with buffer := b' }, sent' ++ frame b'⟩) rfl (x := 30) (y := 40)
      ⟨by omega, by omega⟩ ⟨by omega, by omega⟩
      (htext second (List.mem_cons_of_mem _ List.mem_cons_self))
    refine ⟨b'', sent'', x, y, ?_, fun p => ?_⟩
    · change (Display.line 30 17 first ⟨{ placed u v 2 with buffer := b }, sent ++ frame b⟩ >>=
        fun s => s.line 30 40 second) = _
      rw [hb', ok_bind, hb'']
    · rw [hpixel'', hpixel', hpixel, or_assoc]
      rfl

theorem mounted_placed (x y : Int) (size : UInt8) (b : Buffer) :
    Mounted { placed x y size with buffer := b } := ⟨rfl, rfl⟩

theorem length_frame (b : Buffer) : (frame b).length = 70 := by
  simp [frame, packets]

/-- The packets of the last frame. -/
def lastFrame (s : Display) : List Packet := s.sent.drop (s.sent.length - 70)

theorem lastFrame_eq {d : SSD1306} {sent : List Packet} {b : Buffer} :
    lastFrame ⟨d, sent ++ frame b⟩ = frame b := by
  rw [lastFrame, List.length_append, length_frame, Nat.add_sub_cancel, List.drop_left]

/-- The calls of `LEDprint` with the time that is read and the lines that are chosen, one after
the other. -/
def ledPrints (calls : List (Tm × List Bytes)) (s : Display) : Except Fault Display :=
  calls.foldlM (fun s call => s.ledPrint call.1 call.2) s

theorem mounted_ledPrints {calls : List (Tm × List Bytes)} {s : Display} (h : s.driver.Mounted)
    (hcalls : ∀ call ∈ calls, Displayable call.2) :
    ∃ s', s.ledPrints calls = .ok s' ∧ s'.driver.Mounted := by
  induction calls generalizing s with
  | nil => exact ⟨s, rfl, h⟩
  | cons call calls ih =>
    obtain ⟨b, sent, x, y, hfirst, -⟩ := ledPrint_eq h call.1 (hcalls call List.mem_cons_self)
    rw [ledPrints, List.foldlM_cons, hfirst, ok_bind]
    exact ih (mounted_placed x y 2 b) fun call hcall => hcalls call (List.mem_cons_of_mem _ hcall)

/-- Whatever the display has shown before, behind any calls of `LEDprint` the last frame that was
sent is a picture of what the last of them was called with: the points of the date, the time and
the lines are lit, and no others. -/
theorem last_frame_shows {s : Display} (h : s.driver.Mounted) {calls : List (Tm × List Bytes)}
    (hcalls : ∀ call ∈ calls, Displayable call.2) (tm : Tm) {lines : List Bytes}
    (hlines : Displayable lines) : ∃ s' b, s.ledPrints (calls ++ [(tm, lines)]) = .ok s' ∧
      s'.lastFrame = frame b ∧
      ∀ p, b.pixel p = true ↔ HeadLights tm (view 0 p) ∨ BodyLights lines (view 0 p) := by
  obtain ⟨s', hs', hmounted⟩ := mounted_ledPrints h hcalls
  obtain ⟨b, sent, x, y, hlast, hpixel⟩ := ledPrint_eq hmounted tm hlines
  refine ⟨⟨{ placed x y 2 with buffer := b }, sent ++ frame b⟩, b, ?_, lastFrame_eq, hpixel⟩
  have hs' : List.foldlM (fun s call => s.ledPrint call.1 call.2) s calls = .ok s' := hs'
  rw [ledPrints, List.foldlM_append, hs', ok_bind]
  simp only [List.foldlM_cons, List.foldlM_nil, hlast, ok_bind]
  rfl

/-- A member is greeted, and then the display asks for the next card. -/
theorem last_frame_shows_of_reset : ∃ s' b,
    Display.ledPrints ([(⟨5, 9, 1, 2, 54⟩, [ascii "Hello", ascii "A1"])] ++
      [(⟨5, 9, 1, 2, 54⟩, [ascii "ATTACH", ascii "RFCARD"])]) ⟨blank 0, []⟩ = .ok s' ∧
    s'.lastFrame = frame b ∧ ∀ p, b.pixel p = true ↔ HeadLights ⟨5, 9, 1, 2, 54⟩ (view 0 p) ∨
      BodyLights [ascii "ATTACH", ascii "RFCARD"] (view 0 p) :=
  last_frame_shows (s := ⟨blank 0, []⟩) ⟨rfl, rfl⟩
    (fun call hcall => by
      obtain rfl := List.mem_singleton.mp hcall
      exact ⟨Or.inr rfl, by decide⟩)
    _ ⟨Or.inr rfl, by decide⟩

end Display

end SmartDoor
