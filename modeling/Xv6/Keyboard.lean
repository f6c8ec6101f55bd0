import Mathlib
import Xv6.Lib.Outcome

/-!
# The keyboard decoder

`keyboard_getc` of `keyboard.rs`, which turns the scancodes of the PC keyboard controller into
bytes. A byte of modifier state, the function's `static mut SHIFT`, records the held modifiers
(Shift, Ctrl, Alt), the toggled locks (CapsLock, NumLock, ScrollLock) and a pending `E0` prefix:
a make code sets the bits of `SHIFT_CODE` and flips those of `TOGGLE_CODE`, a break code clears
the bits of `SHIFT_CODE`, and an `E0` prefix moves the next code to the upper half of the tables.
The character is then read from one of the four maps of `charcode`.

Inside the function the static `SHIFT` hides the constant `SHIFT` of the same name, the Shift bit.
The index of the map, written `SHIFT & (CTL | SHIFT)`, is therefore the whole state byte
(`charcode_index_eq`), which is in range only while no bit above Ctrl is set: a make code that
leaves Alt, a lock or any other higher bit in the state indexes past the four maps, and the
bounds check panics (`keyboard_getc_out_of_bounds`). The first press of CapsLock does
(`keyboard_getc_capslock`).

The kernel is built in release mode, so the `u8` arithmetic of the `const fn`s that build the
tables wraps, and array indexing keeps its bounds checks.
-/

namespace Xv6.Keyboard

open Machine

/-- `KBS_DIB`: data in buffer, in the status byte. -/
def KBS_DIB : UInt8 := 0x01

/-- `NO`: no character. -/
def NO : UInt8 := 0
/-- `BS`: backspace. -/
def BS : UInt8 := 0x08

/-- The Shift bit of the modifier state. -/
def SHIFT : UInt8 := (1 : UInt8) <<< 0
/-- The Ctrl bit. -/
def CTL : UInt8 := (1 : UInt8) <<< 1
/-- The Alt bit. -/
def ALT : UInt8 := (1 : UInt8) <<< 2
/-- The CapsLock bit. -/
def CAPSLOCK : UInt8 := (1 : UInt8) <<< 3
/-- The NumLock bit. -/
def NUMLOCK : UInt8 := (1 : UInt8) <<< 4
/-- The ScrollLock bit. -/
def SCROLLLOCK : UInt8 := (1 : UInt8) <<< 5
/-- The bit of a pending `E0` prefix. -/
def E0ESC : UInt8 := (1 : UInt8) <<< 6

/-- `KEY_HOME` and the other special keycodes. -/
def KEY_HOME : UInt8 := 0xE0
def KEY_END : UInt8 := 0xE1
def KEY_UP : UInt8 := 0xE2
def KEY_DN : UInt8 := 0xE3
def KEY_LF : UInt8 := 0xE4
def KEY_RT : UInt8 := 0xE5
def KEY_PGUP : UInt8 := 0xE6
def KEY_PGDN : UInt8 := 0xE7
def KEY_INS : UInt8 := 0xE8
def KEY_DEL : UInt8 := 0xE9

/-- `u8(x)`: the byte of an ASCII character. -/
def u8 (x : Char) : UInt8 := x.toUInt8

/-- `c(x)`: the byte that control-`x` sends, `x - '@'` in wrapping `u8` arithmetic. -/
def c (x : UInt8) : UInt8 := x - u8 '@'

/-! ## The tables -/

/-- A table of `NO` with the entries `code[i] = v` of its `gen`. -/
def withEntries (entries : List (Nat × UInt8)) : Vector UInt8 256 :=
  entries.foldl (fun code e => code.setIfInBounds e.1 e.2) (Vector.replicate 256 NO)

/-- `cp(code, init)`: the table with its first entries replaced by `init`. -/
def cp (code : Vector UInt8 256) (init : List UInt8) : Vector UInt8 256 :=
  Vector.ofFn fun i => init.getD i.val (code.get i)

/-- `SHIFT_CODE`: the modifier bit of each key that is held. -/
def SHIFT_CODE : Vector UInt8 256 :=
  withEntries [(0x1D, CTL), (0x2A, SHIFT), (0x36, SHIFT), (0x38, ALT), (0x9D, CTL), (0xB8, ALT)]

/-- `TOGGLE_CODE`: the lock bit of each key that toggles. -/
def TOGGLE_CODE : Vector UInt8 256 :=
  withEntries [(0x3A, CAPSLOCK), (0x45, NUMLOCK), (0x46, SCROLLLOCK)]

/-- The entries past the first rows that the three maps set alike, after an `E0` prefix: the
keypad's Enter and divide, which each map gives its own bytes, and the cursor keys. -/
def escaped (enter div : UInt8) : List (Nat × UInt8) :=
  [(0x9C, enter), (0xB5, div), (0xC8, KEY_UP), (0xD0, KEY_DN), (0xC9, KEY_PGUP), (0xD1, KEY_PGDN),
    (0xCB, KEY_LF), (0xCD, KEY_RT), (0x97, KEY_HOME), (0xCF, KEY_END), (0xD2, KEY_INS),
    (0xD3, KEY_DEL)]

/-- The first rows of `NORMALMAP`. -/
def normalInit : List UInt8 :=
  [NO, 0x1B, u8 '1', u8 '2', u8 '3', u8 '4', u8 '5', u8 '6',
    u8 '7', u8 '8', u8 '9', u8 '0', u8 '-', u8 '=', BS, u8 '\t',
    u8 'q', u8 'w', u8 'e', u8 'r', u8 't', u8 'y', u8 'u', u8 'i',
    u8 'o', u8 'p', u8 '[', u8 ']', u8 '\n', NO, u8 'a', u8 's',
    u8 'd', u8 'f', u8 'g', u8 'h', u8 'j', u8 'k', u8 'l', u8 ';',
    u8 '\'', u8 '`', NO, u8 '\\', u8 'z', u8 'x', u8 'c', u8 'v',
    u8 'b', u8 'n', u8 'm', u8 ',', u8 '.', u8 '/', NO, u8 '*',
    NO, u8 ' ', NO, NO, NO, NO, NO, NO,
    NO, NO, NO, NO, NO, NO, NO, u8 '7',
    u8 '8', u8 '9', u8 '-', u8 '4', u8 '5', u8 '6', u8 '+', u8 '1',
    u8 '2', u8 '3', u8 '0', u8 '.', NO, NO, NO, NO]

/-- The first rows of `SHIFTMAP`. Its second entry is written `033`, which Rust reads as the
decimal 33, not as the octal escape of C. -/
def shiftInit : List UInt8 :=
  [NO, 33, u8 '!', u8 '@', u8 '#', u8 '$', u8 '%', u8 '^',
    u8 '&', u8 '*', u8 '(', u8 ')', u8 '_', u8 '+', BS, u8 '\t',
    u8 'Q', u8 'W', u8 'E', u8 'R', u8 'T', u8 'Y', u8 'U', u8 'I',
    u8 'O', u8 'P', u8 '{', u8 '}', u8 '\n', NO, u8 'A', u8 'S',
    u8 'D', u8 'F', u8 'G', u8 'H', u8 'J', u8 'K', u8 'L', u8 ':',
    u8 '"', u8 '~', NO, u8 '|', u8 'Z', u8 'X', u8 'C', u8 'V',
    u8 'B', u8 'N', u8 'M', u8 '<', u8 '>', u8 '?', NO, u8 '*',
    NO, u8 ' ', NO, NO, NO, NO, NO, NO,
    NO, NO, NO, NO, NO, NO, NO, u8 '7',
    u8 '8', u8 '9', u8 '-', u8 '4', u8 '5', u8 '6', u8 '+', u8 '1',
    u8 '2', u8 '3', u8 '0', u8 '.', NO, NO, NO, NO]

/-- The first rows of `CTLMAP`. -/
def ctlInit : List UInt8 :=
  [NO, NO, NO, NO, NO, NO, NO, NO,
    NO, NO, NO, NO, NO, NO, NO, NO,
    c (u8 'Q'), c (u8 'W'), c (u8 'E'), c (u8 'R'), c (u8 'T'), c (u8 'Y'), c (u8 'U'), c (u8 'I'),
    c (u8 'O'), c (u8 'P'), NO, NO, u8 '\r', NO, c (u8 'A'), c (u8 'S'),
    c (u8 'D'), c (u8 'F'), c (u8 'G'), c (u8 'H'), c (u8 'J'), c (u8 'K'), c (u8 'L'), NO,
    NO, NO, NO, c (u8 '\\'), c (u8 'Z'), c (u8 'X'), c (u8 'C'), c (u8 'V'),
    c (u8 'B'), c (u8 'N'), c (u8 'M'), NO, NO, c (u8 '/'), NO, NO]

/-- `NORMALMAP`. -/
def NORMALMAP : Vector UInt8 256 := cp (withEntries (escaped (u8 '\n') (u8 '/'))) normalInit

/-- `SHIFTMAP`. -/
def SHIFTMAP : Vector UInt8 256 := cp (withEntries (escaped (u8 '\n') (u8 '/'))) shiftInit

/-- `CTLMAP`. -/
def CTLMAP : Vector UInt8 256 := cp (withEntries (escaped (u8 '\r') (c (u8 '/')))) ctlInit

/-- `charcode`: the maps for no modifier, Shift, Ctrl, and Ctrl with Shift. -/
def charcode : List (Vector UInt8 256) := [NORMALMAP, SHIFTMAP, CTLMAP, CTLMAP]

/-- The entry of a table for a code: `table[data as usize]`, always in range. -/
def entry (table : Vector UInt8 256) (data : UInt8) : UInt8 :=
  table.get ⟨data.toNat, data.toNat_lt⟩

/-! ## `keyboard_getc` -/

/-- A make code, after its `E0` prefix if one is pending: the code, moved to the upper half of the
tables by the prefix, and the state with the prefix consumed, the key's modifier set and its lock
toggled. -/
def make (shift data : UInt8) : UInt8 × UInt8 :=
  let (data, shift) :=
    if shift &&& E0ESC ≠ 0 then (data ||| 0x80, shift &&& ~~~E0ESC) else (data, shift)
  let shift := shift ||| entry SHIFT_CODE data
  (data, shift ^^^ entry TOGGLE_CODE data)

/-- The CapsLock case inversion of a letter. -/
def invertCase (c : UInt8) : UInt8 :=
  if u8 'a' ≤ c ∧ c ≤ u8 'z' then c - (u8 'a' - u8 'A')
  else if u8 'A' ≤ c ∧ c ≤ u8 'Z' then c + (u8 'a' - u8 'A')
  else c

/-- `keyboard_getc`, with `st` and `data` what `inb` reads from the status and the data port, and
`shift` the state `static mut SHIFT` before the call; the byte, if any, and the state after.
`charcode` is indexed by `SHIFT & (CTL | SHIFT)`, where both `SHIFT` are the state. -/
def keyboard_getc (shift st data : UInt8) : Outcome (Option UInt8 × UInt8) :=
  if st &&& KBS_DIB = 0 then pure (none, shift)
  else if data = 0xE0 then pure (some 0, shift ||| E0ESC)
  else if data &&& 0x80 ≠ 0 then
    -- a key released
    let data := if shift &&& E0ESC ≠ 0 then data else data &&& 0x7F
    pure (some 0, shift &&& ~~~(entry SHIFT_CODE data ||| E0ESC))
  else
    let (data, shift) := make shift data
    let index := (shift &&& (CTL ||| shift)).toNat
    match charcode[index]? with
    | none => .panic ("index out of bounds: the len is 4 but the index is " ++ toString index)
    | some map =>
      let c := entry map data
      pure (some (if shift &&& CAPSLOCK ≠ 0 then invertCase c else c), shift)

/-- The index of `charcode` is the state itself: `s & (CTL | s) = s`. -/
theorem charcode_index_eq (s : UInt8) : s &&& (CTL ||| s) = s := by
  apply UInt8.toBitVec_inj.mp
  simp only [UInt8.toBitVec_and, UInt8.toBitVec_or]
  ext i hi
  simp only [BitVec.getElem_and, BitVec.getElem_or]
  cases s.toBitVec[i] <;> simp

/-- A make code whose state has a bit above Ctrl indexes past the four maps, and panics. -/
theorem keyboard_getc_out_of_bounds {shift st data : UInt8} (hst : st &&& KBS_DIB ≠ 0)
    (he0 : data ≠ 0xE0) (hmake : data &&& 0x80 = 0) (hbig : 4 ≤ (make shift data).2.toNat) :
    keyboard_getc shift st data =
      .panic ("index out of bounds: the len is 4 but the index is " ++
        toString (make shift data).2.toNat) := by
  have hnone : charcode[(make shift data).2.toNat]? = none :=
    List.getElem?_eq_none (by simpa [charcode] using hbig)
  unfold keyboard_getc
  rw [if_neg hst, if_neg he0, if_neg (not_not.mpr hmake)]
  dsimp only
  rw [charcode_index_eq, hnone]

set_option maxRecDepth 20000 in
/-- The first press of CapsLock, from the state at boot, panics. -/
theorem keyboard_getc_capslock :
    keyboard_getc 0 KBS_DIB 0x3A =
      .panic ("index out of bounds: the len is 4 but the index is " ++ toString (make 0 0x3A).2.toNat) ∧
      (make 0 0x3A).2 = CAPSLOCK :=
  ⟨keyboard_getc_out_of_bounds (by decide) (by decide) (by decide) (by decide),
    by decide⟩

end Xv6.Keyboard
