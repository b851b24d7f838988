import SmartDoor.Display.Panel
import SmartDoor.Display.Font

/-!
# The graphics library

`_libraries/Adafruit-GFX-Library-master` draws lines, rectangles and characters by the pixels and
the fast lines of the display driver. A read past the font is a fault.
-/

namespace SmartDoor

open CString

/-- `abs(x)` -/
def abs16 (x : Int) : Int := if x > 0 then x else wrap16 (-x)

namespace SSD1306

/-! ## Lines and rectangles -/

/-- The `for` of `drawLine`, if it ends within `left` rounds. -/
def lineLoop (steep : Bool) (x1 dx dy ystep : Int) (color : UInt16) :
    Nat → Int → Int → Int → SSD1306 → Option (Except Fault SSD1306)
  | 0, _, _, _, _ => none
  | left + 1, x0, y0, err, d =>
    if x0 ≤ x1 then
      match if steep then d.drawPixel y0 x0 color else d.drawPixel x0 y0 color with
      | .error fault => some (.error fault)
      | .ok d =>
        let err := wrap16 (err - dy)
        let (y0, err) := if err < 0 then (wrap16 (y0 + ystep), wrap16 (err + dx)) else (y0, err)
        lineLoop steep x1 dx dy ystep color left (wrap16 (x0 + 1)) y0 err d
    else some (.ok d)

/-- `drawLine(x0, y0, x1, y1, color)`, unless it goes on for more than 65535 rounds. -/
def drawLine (x0 y0 x1 y1 : Int) (color : UInt16) (d : SSD1306) :
    Option (Except Fault SSD1306) :=
  let steep := decide (abs16 (wrap16 (y1 - y0)) > abs16 (wrap16 (x1 - x0)))
  let (x0, y0, x1, y1) := if steep then (y0, x0, y1, x1) else (x0, y0, x1, y1)
  let (x0, y0, x1, y1) := if x0 > x1 then (x1, y1, x0, y0) else (x0, y0, x1, y1)
  let dx := wrap16 (x1 - x0)
  let dy := abs16 (wrap16 (y1 - y0))
  let ystep := if y0 < y1 then 1 else -1
  lineLoop steep x1 dx dy ystep color 65536 x0 y0 (dx.tdiv 2) d

/-- `Adafruit_GFX::drawFastVLine(x, y, h, color)`, which the driver overrides -/
def plainVLine (x y h : Int) (color : UInt16) (d : SSD1306) : Option (Except Fault SSD1306) :=
  d.drawLine x y x (wrap16 (y + h - 1)) color

/-- `Adafruit_GFX::drawFastHLine(x, y, w, color)`, which the driver overrides -/
def plainHLine (x y w : Int) (color : UInt16) (d : SSD1306) : Option (Except Fault SSD1306) :=
  d.drawLine x y (wrap16 (x + w - 1)) y color

/-- The `for` of `fillRect`, for a number of columns. -/
def fillLoop (y h : Int) (color : UInt16) : Nat → Int → SSD1306 → Except Fault SSD1306
  | 0, _, d => .ok d
  | left + 1, i, d => do fillLoop y h color left (i + 1) (← d.drawFastVLine i y h color)

/-- `fillRect(x, y, w, h, color)` -/
def fillRect (x y w h : Int) (color : UInt16) (d : SSD1306) : Except Fault SSD1306 :=
  fillLoop y h color (wrap16 (x + w) - x).toNat x d

/-! ## Characters -/

/-- `pgm_read_byte(font+i)` -/
def readFont (i : Nat) : Except Fault UInt8 :=
  match font[i]? with
  | some byte => .ok byte
  | none => .error .overread

/-- A dot of a character: a pixel, or a square if the text is larger. -/
def dot (x y : Int) (size : UInt8) (i j : Nat) (color : UInt16) (d : SSD1306) :
    Except Fault SSD1306 :=
  if size = 1 then d.drawPixel (wrap16 (x + i)) (wrap16 (y + j)) color
  else d.fillRect (wrap16 (x + i * size.toNat)) (wrap16 (y + j * size.toNat)) size.toNat
    size.toNat color

/-- The inner `for` of `drawChar`, from a row on. -/
def dotLoop (x y : Int) (color bg : UInt16) (size : UInt8) (i : Nat) :
    Nat → Nat → UInt8 → SSD1306 → Except Fault SSD1306
  | 0, _, _, d => .ok d
  | left + 1, j, line, d => do
    let d ← if line &&& 1 ≠ 0 then d.dot x y size i j color
      else if bg ≠ color then d.dot x y size i j bg else .ok d
    dotLoop x y color bg size i left (j + 1) (line >>> 1) d

/-- The outer `for` of `drawChar`, from a column on. -/
def columnLoop (x y : Int) (c : UInt8) (color bg : UInt16) (size : UInt8) :
    Nat → Nat → SSD1306 → Except Fault SSD1306
  | 0, _, d => .ok d
  | left + 1, i, d => do
    let line ← if i = 5 then .ok 0 else readFont (c.toNat * 5 + i)
    let d ← dotLoop x y color bg size i 8 0 line d
    columnLoop x y c color bg size left (i + 1) d

/-- `drawChar(x, y, c, color, bg, size)` -/
def drawChar (x y : Int) (c : UInt8) (color bg : UInt16) (size : UInt8) (d : SSD1306) :
    Except Fault SSD1306 :=
  if x ≥ d.width ∨ y ≥ d.height ∨ wrap16 (x + 6 * size.toNat - 1) < 0 ∨
      wrap16 (y + 8 * size.toNat - 1) < 0 then .ok d
  else columnLoop x y c color bg size 6 0 d

/-! ## Text -/

/-- `setCursor(x, y)` -/
def setCursor (x y : Int) (d : SSD1306) : SSD1306 := { d with cursorX := x, cursorY := y }

/-- `setTextSize(s)` -/
def setTextSize (s : UInt8) (d : SSD1306) : SSD1306 := { d with textsize := if s > 0 then s else 1 }

/-- `setTextColor(c)` -/
def setTextColor (c : UInt16) (d : SSD1306) : SSD1306 := { d with textcolor := c, textbgcolor := c }

/-- `write(c)` -/
def write (c : UInt8) (d : SSD1306) : Except Fault SSD1306 :=
  if c = 10 then
    .ok { d with cursorY := wrap16 (d.cursorY + d.textsize.toNat * 8), cursorX := 0 }
  else if c = 13 then .ok d
  else do
    let d ← d.drawChar d.cursorX d.cursorY c d.textcolor d.textbgcolor d.textsize
    let d := { d with cursorX := wrap16 (d.cursorX + d.textsize.toNat * 6) }
    if d.wrap ∧ d.cursorX > wrap16 (d.width - d.textsize.toNat * 6) then
      return { d with cursorY := wrap16 (d.cursorY + d.textsize.toNat * 8), cursorX := 0 }
    else return d

/-- `print(text)` -/
def print (text : List UInt8) (d : SSD1306) : Except Fault SSD1306 :=
  text.foldlM (fun d c => d.write c) d

end SSD1306

end SmartDoor
