import SmartDoor.Memory.Strings
import Mathlib.Data.UInt
import Mathlib.Data.Vector.Basic

/-!
# The display driver

`_libraries/Adafruit_SSD1306-master` keeps the 128 by 64 pixels in a buffer of 1024 bytes, each
byte eight pixels of a column. An `int` has 16 bits and wraps. The fast lines work on whole bytes
where they can; a write outside the buffer is a fault.
-/

namespace SmartDoor

open CString

/-- The value of a 16-bit `int` after wrap-around. -/
def wrap16 (x : Int) : Int := x.bmod 65536

/-- `SSD1306_LCDWIDTH` -/
abbrev WIDTH : Int := 128

/-- `SSD1306_LCDHEIGHT` -/
abbrev HEIGHT : Int := 64

/-- `BLACK` -/
abbrev BLACK : UInt16 := 0

/-- `WHITE` -/
abbrev WHITE : UInt16 := 1

/-- `INVERSE` -/
abbrev INVERSE : UInt16 := 2

/-- `buffer` -/
abbrev Buffer := Vector UInt8 1024

/-- The variables of `Adafruit_SSD1306` and of the `Adafruit_GFX` that it is. -/
structure SSD1306 where
  buffer : Buffer
  rotation : Fin 4
  cursorX : Int
  cursorY : Int
  textsize : UInt8
  textcolor : UInt16
  textbgcolor : UInt16
  wrap : Bool

namespace Buffer

/-- The `switch` on the color: what is done to a byte where the bits of a mask are set. Nothing is
done for another color. -/
def masked (color : UInt16) (mask : UInt8) : Option (UInt8 → UInt8) :=
  if color = WHITE then some fun byte => byte ||| mask
  else if color = BLACK then some fun byte => byte &&& ~~~mask
  else if color = INVERSE then some fun byte => byte ^^^ mask
  else none

/-- Do something to the byte that a pointer into the buffer points to. -/
def change (pos : Nat) (f : Option (UInt8 → UInt8)) (b : Buffer) : Except Fault Buffer :=
  match f with
  | none => .ok b
  | some f => if h : pos < 1024 then .ok (b.set pos (f b[pos])) else .error .overwrite

/-- The `while` of `drawFastHLineInternal`. -/
def rowLoop (f : Option (UInt8 → UInt8)) : Nat → Nat → Buffer → Except Fault Buffer
  | 0, _, b => .ok b
  | w + 1, pos, b => do rowLoop f w (pos + 1) (← b.change pos f)

/-- `drawFastHLineInternal(x, y, w, color)` -/
def drawFastHLineInternal (x y w : Int) (color : UInt16) (b : Buffer) : Except Fault Buffer :=
  if y < 0 ∨ y ≥ HEIGHT then .ok b
  else
    let (w, x) := if x < 0 then (wrap16 (w + x), 0) else (w, x)
    let w := if wrap16 (x + w) > WIDTH then wrap16 (WIDTH - x) else w
    if w ≤ 0 then .ok b
    else
      let mask : UInt8 := 1 <<< UInt8.ofNat (y.toNat % 8)
      rowLoop (masked color mask) w.toNat (y.toNat / 8 * 128 + x.toNat) b

/-- `premask` -/
def premask : Vector UInt8 8 := #v[0x00, 0x80, 0xC0, 0xE0, 0xF0, 0xF8, 0xFC, 0xFE]

/-- `postmask` -/
def postmask : Vector UInt8 8 := #v[0x00, 0x01, 0x03, 0x07, 0x0F, 0x1F, 0x3F, 0x7F]

/-- What a whole byte of a vertical line becomes. A color that is none of the three is drawn
like `BLACK` here. -/
def solid (color : UInt16) (byte : UInt8) : UInt8 :=
  if color = INVERSE then ~~~byte else if color = WHITE then 255 else 0

/-- The `do` loops of `drawFastVLineInternal`, for a number of whole bytes. -/
def solidLoop (color : UInt16) : Nat → Nat → Buffer → Except Fault Buffer
  | 0, _, b => .ok b
  | n + 1, pos, b => do solidLoop color n (pos + 128) (← b.change pos (some (solid color)))

/-- `drawFastVLineInternal` from the whole bytes on: they are written, and then the final
partial byte. -/
def lineRest (color : UInt16) (h pos : Nat) (b : Buffer) : Except Fault Buffer := do
  let b ← solidLoop color (h / 8) pos b
  if h % 8 = 0 then return b
  else b.change (pos + 128 * (h / 8)) (masked color postmask[h % 8])

/-- `drawFastVLineInternal` behind its checks: the registers have 8 bits. -/
def lineBytes (color : UInt16) (x y h : Nat) (b : Buffer) : Except Fault Buffer := do
  let pos := y / 8 * 128 + x
  if hmod : y % 8 = 0 then lineRest color h pos b
  else
    let mod := 8 - y % 8
    let mask := premask[8 - y % 8]
    let mask := if h < mod then mask &&& (0xFF >>> UInt8.ofNat (mod - h)) else mask
    let b ← b.change pos (masked color mask)
    if h < mod then return b else lineRest color (h - mod) (pos + 128) b

/-- `drawFastVLineInternal(x, __y, __h, color)` -/
def drawFastVLineInternal (x y h : Int) (color : UInt16) (b : Buffer) : Except Fault Buffer :=
  if x < 0 ∨ x ≥ WIDTH then .ok b
  else
    let (h, y) := if y < 0 then (wrap16 (h + y), 0) else (h, y)
    let h := if wrap16 (y + h) > HEIGHT then wrap16 (HEIGHT - y) else h
    if h ≤ 0 then .ok b
    else lineBytes color x.toNat (y.toNat % 256) (h.toNat % 256) b

end Buffer

namespace SSD1306

/-- `width()`, as `setRotation` has set it -/
def width (d : SSD1306) : Int := if d.rotation.val % 2 = 0 then WIDTH else HEIGHT

/-- `height()`, as `setRotation` has set it -/
def height (d : SSD1306) : Int := if d.rotation.val % 2 = 0 then HEIGHT else WIDTH

/-- Draw into the buffer. -/
def draw (f : Buffer → Except Fault Buffer) (d : SSD1306) : Except Fault SSD1306 := do
  return { d with buffer := ← f d.buffer }

/-- `drawPixel(x, y, color)` -/
def drawPixel (x y : Int) (color : UInt16) (d : SSD1306) : Except Fault SSD1306 :=
  if x < 0 ∨ x ≥ d.width ∨ y < 0 ∨ y ≥ d.height then .ok d
  else
    let (x, y) := match d.rotation with
      | 0 => (x, y)
      | 1 => (wrap16 (WIDTH - y - 1), x)
      | 2 => (wrap16 (WIDTH - x - 1), wrap16 (HEIGHT - y - 1))
      | 3 => (y, wrap16 (HEIGHT - x - 1))
    d.draw (Buffer.change (x.toNat + y.toNat / 8 * 128)
      (Buffer.masked color (1 <<< UInt8.ofNat (y.toNat % 8))))

/-- `drawFastHLine(x, y, w, color)` -/
def drawFastHLine (x y w : Int) (color : UInt16) (d : SSD1306) : Except Fault SSD1306 :=
  match d.rotation with
  | 0 => d.draw (Buffer.drawFastHLineInternal x y w color)
  | 1 => d.draw (Buffer.drawFastVLineInternal (wrap16 (WIDTH - y - 1)) x w color)
  | 2 => d.draw (Buffer.drawFastHLineInternal
      (wrap16 (wrap16 (WIDTH - x - 1) - (w - 1))) (wrap16 (HEIGHT - y - 1)) w color)
  | 3 => d.draw (Buffer.drawFastVLineInternal
      y (wrap16 (wrap16 (HEIGHT - x - 1) - (w - 1))) w color)

/-- `drawFastVLine(x, y, h, color)` -/
def drawFastVLine (x y h : Int) (color : UInt16) (d : SSD1306) : Except Fault SSD1306 :=
  match d.rotation with
  | 0 => d.draw (Buffer.drawFastVLineInternal x y h color)
  | 1 => d.draw (Buffer.drawFastHLineInternal
      (wrap16 (wrap16 (WIDTH - y - 1) - (h - 1))) x h color)
  | 2 => d.draw (Buffer.drawFastVLineInternal
      (wrap16 (WIDTH - x - 1)) (wrap16 (wrap16 (HEIGHT - y - 1) - (h - 1))) h color)
  | 3 => d.draw (Buffer.drawFastHLineInternal y (wrap16 (HEIGHT - x - 1)) h color)

/-- `clearDisplay()` -/
def clearDisplay (d : SSD1306) : SSD1306 := { d with buffer := .replicate 1024 0 }

end SSD1306

end SmartDoor
