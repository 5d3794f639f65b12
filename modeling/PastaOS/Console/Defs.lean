import Mathlib.Logic.Function.Basic
import PastaOS.Types
import PastaOS.Lib.Loop

/-!
# The console (`kernel/console.c`)

The text screen: 25 rows of 80 cells of video memory, and the cursor registers of the CRT
controller.  `console_buffer` is used through an index, so every use goes through
`Console.load` or `Console.store`, which fail outside the buffer: a call that returns `some` has
made no access out of bounds.
-/

set_option autoImplicit false

namespace PastaOS

/-- `CONSOLE_WIDTH` -/
def CONSOLE_WIDTH : ℕ := 80

/-- `CONSOLE_HEIGHT` -/
def CONSOLE_HEIGHT : ℕ := 25

/-- `CONSOLE_BUFSIZE` -/
def CONSOLE_BUFSIZE : ℕ := CONSOLE_WIDTH * CONSOLE_HEIGHT

/-- `LAST_LINE` -/
def LAST_LINE : ℕ := CONSOLE_WIDTH * (CONSOLE_HEIGHT - 1)

/-- `VIDEO_CRT_PORT` -/
def VIDEO_CRT_PORT : BitVec 16 := 0x3d4

/-- `BLACK` -/
def BLACK : Byte := 0

/-- `GREY` -/
def GREY : Byte := 7

/-- `WHITE` -/
def WHITE : Byte := 15

/-- A cell of video memory. -/
abbrev Cell := BitVec 16

/-- `console_entry` -/
def consoleEntry (ch fg bg : Byte) : Cell :=
  bg.setWidth 16 <<< 12 ||| fg.setWidth 16 <<< 8 ||| ch.setWidth 16

/-- The CRT controller: a byte written to its second port goes to the register that the byte last
written to its first port selected. -/
structure Crt where
  /-- The selected register. -/
  index : Byte
  /-- The registers. -/
  reg : Byte → Byte

/-- Everything the console reads and writes. -/
structure Console where
  /-- `console_buffer` -/
  buffer : Fin CONSOLE_BUFSIZE → Cell
  /-- `console_pos` -/
  pos : Int
  /-- The CRT controller. -/
  crt : Crt

namespace Console

/-- `console_buffer[i]` -/
def load (c : Console) (i : Int) : Option Cell :=
  if h : 0 ≤ i ∧ i < CONSOLE_BUFSIZE then some (c.buffer ⟨i.toNat, by omega⟩) else none

/-- `console_buffer[i] = v` -/
def store (c : Console) (i : Int) (v : Cell) : Option Console :=
  if h : 0 ≤ i ∧ i < CONSOLE_BUFSIZE then
    some { c with buffer := Function.update c.buffer ⟨i.toNat, by omega⟩ v }
  else none

/-- `outb(val, port)`, as far as the CRT controller is concerned. -/
def outb (c : Console) (val : Byte) (port : BitVec 16) : Console :=
  if port = VIDEO_CRT_PORT then { c with crt := { c.crt with index := val } }
  else if port = VIDEO_CRT_PORT + 1 then
    { c with crt := { c.crt with reg := Function.update c.crt.reg c.crt.index val } }
  else c

end Console

/-- `refresh_cursor` -/
def refreshCursor (c : Console) : Console :=
  let c := c.outb 14 (VIDEO_CRT_PORT + 0)
  let c := c.outb (BitVec.ofInt 8 (c.pos >>> (8 : ℕ))) (VIDEO_CRT_PORT + 1)
  let c := c.outb 15 (VIDEO_CRT_PORT + 0)
  c.outb (BitVec.ofInt 8 (c.pos % 256)) (VIDEO_CRT_PORT + 1)

/-- The body of the loop that moves the rows up. -/
def scrollCell (i : ℕ) (c : Console) : Option Console := do
  let v ← c.load (i + CONSOLE_WIDTH)
  c.store i v

/-- The body of the loop that blanks the bottom line. -/
def blankCell (i : ℕ) (c : Console) : Option Console :=
  c.store (LAST_LINE + i) (consoleEntry 0 WHITE BLACK)

/-- `console_scroll_up` -/
def consoleScrollUp (c : Console) : Option Console := do
  let c ← countUp scrollCell LAST_LINE c
  let c ← countUp blankCell CONSOLE_WIDTH c
  return { c with pos := c.pos - CONSOLE_WIDTH }

/-- The `switch` of `kputchar`; the numbers are `\n`, `\r`, `\t` and `\b`. -/
def kputcharSwitch (c : Console) (ch : Byte) : Option Console :=
  if ch = 10 then
    let pos := c.pos + CONSOLE_WIDTH
    some { c with pos := pos - pos.tmod CONSOLE_WIDTH }
  else if ch = 13 then some { c with pos := c.pos - c.pos.tmod CONSOLE_WIDTH }
  else if ch = 9 then some { c with pos := c.pos + 8 }
  else if ch = 8 then
    if c.pos > 0 then
      { c with pos := c.pos - 1 }.store (c.pos - 1) (consoleEntry 32 WHITE BLACK)
    else some c
  else do
    let c ← c.store c.pos (consoleEntry ch GREY BLACK)
    return { c with pos := c.pos + 1 }

/-- `kputchar` -/
def kputchar (c : Console) (ch : Byte) : Option Console := do
  let c ← kputcharSwitch c ch
  let c ← (if c.pos ≥ CONSOLE_BUFSIZE then consoleScrollUp c else some c)
  return refreshCursor c

/-- The body of the loop of `__console_clear`. -/
def clearCell (fg bg : Byte) (i : ℕ) (c : Console) : Option Console :=
  c.store i (consoleEntry 0 fg bg)

/-- `__console_clear` -/
def consoleClearWith (c : Console) (fg bg : Byte) : Option Console := do
  let c := { c with pos := 0 }
  let c ← countUp (clearCell fg bg) CONSOLE_BUFSIZE c
  return refreshCursor c

/-- `console_clear` -/
def consoleClear (c : Console) : Option Console := consoleClearWith c GREY BLACK

/-- A call of `kputchar` for each of the bytes. -/
def kputchars (c : Console) (bytes : List Byte) : Option Console := bytes.foldlM kputchar c

end PastaOS
