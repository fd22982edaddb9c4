import Mathlib.Data.Nat.Bits
import Mathlib.Logic.Function.Basic
import Mathlib.Tactic.Ring
import Mathlib.Tactic.SplitIfs

/-!
# The ANSI terminal

`ansi_handle` takes a stream of bytes apart and drives a callback, which
draws. Both callbacks, for text mode and for the framebuffer, move the cursor
themselves, past the right margin or past the next tab stop, and leave it to
`ansi_check_cursor` to bring it back: that function ends in range from any
cursor (`inRange_checkCursor`), and no path moves the cursor without it. So
every character is drawn on the screen (`run_onScreen`).

What the callbacks do to the video memory is a list of events.
-/

namespace Shitos

namespace Ansi

/-- The conversion to `uint16_t`. -/
def u16 (z : Int) : Nat := (z % 2 ^ 16).toNat

/-- The conversion to `uint8_t`. -/
def u8 (z : Int) : Nat := (z % 2 ^ 8).toNat

/-! ## Contexts -/

/-- The values of `esc_level`. -/
inductive Level where
  | none
  | esc
  | csi
  | osc
deriving DecidableEq

/-- `enum ansi_out`. -/
inductive AnsiOut where
  | char
  | esc
  | scroll
deriving DecidableEq

/-- Text mode and colours, what SGR sequences set. -/
structure Attr where
  textMode : Nat
  colorFg : Nat
  colorBg : Nat

/-- `struct ansi_ctx`, less the callback. -/
structure Ctx where
  args : Nat → Nat
  argsSz : Nat
  argBuf : Nat → Int
  argBufI : Nat
  attr : Attr
  colorDefFg : Nat
  colorDefBg : Nat
  colorFmt : Nat
  escLevel : Level
  width : Nat
  height : Nat
  curX : Nat
  curY : Nat
  scurX : Nat
  scurY : Nat

/-- `LEN(ctx->args)`. -/
def argsLen : Nat := 6

/-- `LEN(ctx->arg_buf)`. -/
def argBufLen : Nat := 6

/-- What a callback does to the video memory. -/
inductive Event where
  /-- The store to `tm_memory[x + y*width]`. -/
  | cell (x y value : Nat)
  /-- `fb_term_render_char`. -/
  | glyph (x y uc fg bg : Nat)
  | clear (mode : Nat)
  | clearLine (mode : Nat)
  | scroll (lines : Nat)
  /-- The two bytes `tm_cursor_update` sends. -/
  | cursor (pos : Nat)

/-- The cell a character is drawn at. -/
def Event.drawnAt : Event → Option (Nat × Nat)
  | .cell x y _ => some (x, y)
  | .glyph x y _ _ _ => some (x, y)
  | _ => none

/-- `ansi_callback_t`. -/
abbrev Callback := Ctx → AnsiOut → Nat → Ctx × List Event

/-- A context in static storage. -/
def zeroCtx : Ctx where
  args _ := 0
  argsSz := 0
  argBuf _ := 0
  argBufI := 0
  attr := ⟨0, 0, 0⟩
  colorDefFg := 0
  colorDefBg := 0
  colorFmt := 0
  escLevel := .none
  width := 0
  height := 0
  curX := 0
  curY := 0
  scurX := 0
  scurY := 0

def ansiInit (ctx : Ctx) (w h colorFmt colorDefFg colorDefBg : Nat) : Ctx :=
  { ctx with
    attr := ⟨0, colorDefFg, colorDefBg⟩
    colorDefFg := colorDefFg
    colorDefBg := colorDefBg
    colorFmt := colorFmt % 2 ^ 8
    escLevel := .none
    width := w
    height := h
    curX := 0
    curY := 0 }

/-! ## The callbacks -/

/-- `(ctx->cur_x+1 + 7) & ~7`. -/
def Ctx.tab (ctx : Ctx) : Ctx := { ctx with curX := u16 ((ctx.curX + 1 + 7) / 8 * 8) }

/-- `ctx->cur_x++`. -/
def Ctx.advance (ctx : Ctx) : Ctx := { ctx with curX := u16 (ctx.curX + 1) }

/-- The mode of an erase sequence. -/
def eraseMode (ctx : Ctx) : Nat := if ctx.argsSz = 0 then 0 else u8 (ctx.args 0)

def tmSgrToVga : List Nat := [0, 4, 2, 6, 1, 5, 3, 7]

def tmFromAnsiColor (fg bg : Nat) : Nat :=
  let vga (c : Nat) :=
    if c < 8 then (tmSgrToVga[c]?).getD 0 else (tmSgrToVga[c - 8]?).getD 0 + 8
  u8 (vga fg ||| vga bg <<< 4 : Nat)

/-- The colour byte of a character in text mode. -/
def tmRealColor (ctx : Ctx) : Nat :=
  let color := tmFromAnsiColor (u8 ctx.attr.colorFg) (u8 ctx.attr.colorBg)
  -- ANSI_MODE_INVERT
  let color := if ctx.attr.textMode &&& 0x0040 ≠ 0 then u8 (color >>> 4 ||| color <<< 4 : Nat)
    else color
  -- ANSI_MODE_CONCEAL
  if ctx.attr.textMode &&& 0x0080 ≠ 0 then color &&& 0xf0 ||| (color &&& 0xf0) >>> 4 else color

def tmCursorUpdate (ctx : Ctx) : Event := .cursor (u16 (ctx.curX + ctx.curY * ctx.width))

/-- The branch for `ANSI_OUT_CHAR`: `draw` is the character's drawing, `after`
what is done last. -/
def outChar (draw : Ctx → Nat → Event) (after : Ctx → List Event) (ctx : Ctx) (c : Nat) :
    Ctx × List Event :=
  if c = 0x7f then (ctx, [])
  else if c < 0x20 then
    if c = 0x09 then (ctx.tab, []) else (ctx, [])
  else (ctx.advance, draw ctx c :: after ctx.advance)

/-- The branch for `ANSI_OUT_ESC`. -/
def outEsc (after : Ctx → List Event) (ctx : Ctx) (uc : Nat) : Ctx × List Event :=
  if uc = 0 then (ctx, .clear (eraseMode ctx) :: after ctx)
  else if uc = 1 then (ctx, .clearLine (eraseMode ctx) :: after ctx)
  else (ctx, after ctx)

def tmAnsiCallback : Callback
  | ctx, .char, uc =>
      outChar (fun ctx c => .cell ctx.curX ctx.curY (u16 (tmRealColor ctx <<< 8 ||| c : Nat)))
        (fun ctx => [tmCursorUpdate ctx]) ctx (u8 uc)
  | ctx, .esc, uc => outEsc (fun ctx => [tmCursorUpdate ctx]) ctx uc
  | ctx, .scroll, uc => (ctx, [.scroll (u8 uc), tmCursorUpdate ctx])

def fbTermAnsiCallback : Callback
  | ctx, .char, uc =>
      outChar (fun ctx c => .glyph ctx.curX ctx.curY c ctx.attr.colorFg ctx.attr.colorBg)
        (fun _ => []) ctx uc
  | ctx, .esc, uc => outEsc (fun _ => []) ctx uc
  | ctx, .scroll, uc => (ctx, [.scroll uc])

/-! ## `ansi_sgr` -/

def color4To24 : List Nat :=
  [0x00000000, 0x00aa0000, 0x0000aa00, 0x00aa5500,
   0x000000aa, 0x00aa00aa, 0x0000aaaa, 0x00aaaaaa,
   0x00555555, 0x00ff5555, 0x0055ff55, 0x00ffff55,
   0x005555ff, 0x00ff55ff, 0x0055ffff, 0x00ffffff]

def ansiColor8To24 (c : Nat) : Nat :=
  if c < 16 then (color4To24[c]?).getD 0
  else if c > 231 then
    let v := u8 ((c - 232) * 0xff / 23 : Nat)
    v <<< 16 ||| v <<< 8 ||| v
  else
    -- c = 16 + 36*r + 6*g + b, 0 <= r, g, b <= 5
    let c := c - 16
    let r := c / 36
    let c := c - 36 * r
    let g := c / 6
    let b := c - 6 * g
    (r * 51) <<< 16 ||| (g * 51) <<< 8 ||| b * 51

/-- One of the sixteen colours, in the terminal's format. -/
def color4 (ctx : Ctx) (n : Nat) : Nat :=
  if ctx.colorFmt = 0 then n else (color4To24[n]?).getD 0

/-- `SGR_FG_COLOR_SET_8BIT` and `SGR_BG_COLOR_SET_8BIT`: the colour, or
`old`. -/
def setColor (ctx : Ctx) (old : Nat) : Nat :=
  if ctx.colorFmt = 0 ∨ ctx.argsSz < 3 then old
  else if ctx.args 1 = 5 then ansiColor8To24 (u8 (ctx.args 2))
  else if ctx.args 1 = 2 ∧ ctx.argsSz ≥ 5 then
    (ctx.args 2 &&& 0xff) <<< 16 ||| (ctx.args 3 &&& 0xff) <<< 8 ||| (ctx.args 4 &&& 0xff)
  else old

/-- `text_mode |= m`. -/
def Attr.set (a : Attr) (m : Nat) : Attr := { a with textMode := a.textMode ||| m }

/-- `text_mode &= ~m`. -/
def Attr.clear (a : Attr) (m : Nat) : Attr := { a with textMode := a.textMode &&& (0xffff ^^^ m) }

/-- The switch of `ansi_sgr`. -/
def sgrSwitch (ctx : Ctx) (a : Attr) : Nat → Attr
  | 0 => ⟨0, ctx.colorDefFg, ctx.colorDefBg⟩
  | 1 => a.set 0x0001
  | 2 => a.set 0x0002
  | 22 => a.clear (0x0001 ||| 0x0002)
  | 3 => a.set 0x0004
  | 20 => a.set 0x0400
  | 23 => a.clear (0x0004 ||| 0x0400)
  | 4 => a.set 0x0008
  | 21 => a.set 0x0200
  | 24 => a.clear (0x0008 ||| 0x0200)
  | 5 => a.set 0x0010
  | 6 => a.set 0x0020
  | 25 => a.clear (0x0010 ||| 0x0020)
  | 7 => a.set 0x0040
  | 27 => a.clear 0x0040
  | 8 => a.set 0x0080
  | 28 => a.clear 0x0080
  | 9 => a.set 0x0100
  | 29 => a.clear 0x0100
  | 51 => a.set 0x0800
  | 52 => a.set 0x1000
  | 54 => a.clear (0x0800 ||| 0x1000)
  | 53 => a.set 0x2000
  | 55 => a.clear 0x2000
  | 73 => a.set 0x4000
  | 74 => a.set 0x8000
  | 75 => a.clear (0x4000 ||| 0x8000)
  | 39 => { a with colorFg := ctx.colorDefFg }
  | 49 => { a with colorBg := ctx.colorDefBg }
  | 38 => { a with colorFg := setColor ctx a.colorFg }
  | 48 => { a with colorBg := setColor ctx a.colorBg }
  | _ => a

def ansiSgr (ctx : Ctx) : Ctx :=
  let mode := if ctx.argsSz = 0 then 0 else u8 (ctx.args 0)
  let a := ctx.attr
  { ctx with
    attr :=
      if 30 ≤ mode ∧ mode ≤ 37 then { a with colorFg := color4 ctx (mode - 30) }
      else if 40 ≤ mode ∧ mode ≤ 47 then { a with colorBg := color4 ctx (mode - 40) }
      else if 90 ≤ mode ∧ mode ≤ 97 then { a with colorFg := color4 ctx (mode - 90 + 8) }
      else if 100 ≤ mode ∧ mode ≤ 107 then { a with colorBg := color4 ctx (mode - 100 + 8) }
      else sgrSwitch ctx a mode }

/-! ## `ansi_handle` -/

/-- The wrap at the right margin. -/
def Ctx.wrapX (ctx : Ctx) : Ctx :=
  if ctx.curX ≥ ctx.width then { ctx with curX := 0, curY := u16 (ctx.curY + 1) } else ctx

/-- The scroll at the last line. -/
def scrollY (callback : Callback) (ctx : Ctx) : Ctx × List Event :=
  if ctx.curY ≥ ctx.height then
    let (ctx, out) := callback ctx .scroll (ctx.curY - ctx.height + 1)
    ({ ctx with curY := u16 (ctx.height - 1) }, out)
  else (ctx, [])

def ansiCheckCursor (callback : Callback) (ctx : Ctx) : Ctx × List Event :=
  scrollY callback ctx.wrapX

/-- The loop of `ansi_parse_dec_rev`. -/
def decRev (s : Nat → Int) : Nat → Nat → Nat → Nat
  | 0, _, out => out
  | i + 1, prod, out => decRev s i (u16 (prod * 10)) (u16 (out + prod * (s i - 48)))

def ansiParseDecRev (s : Nat → Int) (i : Nat) : Nat := decRev s i 1 0

def ansiHandleEsc (callback : Callback) (ctx : Ctx) (c : Nat) : Ctx × List Event :=
  if c = '['.toNat then ({ ctx with escLevel := .csi, argsSz := 0, argBufI := 0 }, [])
  else if c = ']'.toNat then ({ ctx with escLevel := .osc }, [])
  else if c = 'N'.toNat then callback ctx .esc 2
  else if c = 'O'.toNat then callback ctx .esc 3
  else if c = 'P'.toNat then callback ctx .esc 4
  else if c = '\\'.toNat then callback ctx .esc 6
  else if c = 'X'.toNat then callback ctx .esc 8
  else if c = '^'.toNat then callback ctx .esc 9
  else if c = '_'.toNat then callback ctx .esc 10
  else (ctx, [])

/-- The argument `i` of the sequence, 1 by default, in the variable `b`. -/
def Ctx.arg (ctx : Ctx) (i : Nat) : Nat := if ctx.argsSz > i then u8 (ctx.args i) else 1

/-- `CSI_CUU`. -/
def Ctx.cursorUp (ctx : Ctx) : Ctx :=
  { ctx with curY := if ctx.curY < ctx.arg 0 then 0 else ctx.curY - ctx.arg 0 }

/-- `CSI_CUD`. -/
def Ctx.cursorDown (ctx : Ctx) : Ctx :=
  { ctx with
    curY :=
      if (ctx.height : Int) - 1 - ctx.curY < ctx.arg 0 then u16 (ctx.height - 1)
      else u16 (ctx.curY + ctx.arg 0) }

/-- `CSI_CUF`. -/
def Ctx.cursorForward (ctx : Ctx) : Ctx :=
  { ctx with
    curX :=
      if (ctx.width : Int) - 1 - ctx.curX < ctx.arg 0 then u16 (ctx.width - 1)
      else u16 (ctx.curX + ctx.arg 0) }

/-- `CSI_CUB`. -/
def Ctx.cursorBack (ctx : Ctx) : Ctx :=
  { ctx with curX := if ctx.curX < ctx.arg 0 then 0 else ctx.curX - ctx.arg 0 }

/-- `CSI_CHA`. -/
def Ctx.cursorColumn (ctx : Ctx) : Ctx := { ctx with curX := u16 (min ctx.width (ctx.arg 0) - 1) }

/-- `CSI_CUP`. -/
def Ctx.cursorPosition (ctx : Ctx) : Ctx :=
  { ctx with
    curY := u16 (min ctx.height (ctx.arg 0) - 1)
    curX := u16 (min ctx.width (ctx.arg 1) - 1) }

/-- `CSI_SCP`. -/
def Ctx.saveCursor (ctx : Ctx) : Ctx := { ctx with scurX := ctx.curX, scurY := ctx.curY }

/-- `CSI_RCP`. -/
def Ctx.restoreCursor (ctx : Ctx) : Ctx := { ctx with curX := ctx.scurX, curY := ctx.scurY }

/-- The start of the line, where `CSI_CPL` and `CSI_CNL` begin. -/
def Ctx.lineStart (ctx : Ctx) : Ctx := { ctx with curX := 0 }

/-- The switch of `ansi_handle_csi`, less the erase sequences, which return
early. -/
def csiSwitch (ctx : Ctx) (c : Nat) : Ctx :=
  if c = 'F'.toNat then ctx.lineStart.cursorUp
  else if c = 'A'.toNat then ctx.cursorUp
  else if c = 'E'.toNat then ctx.lineStart.cursorDown
  else if c = 'B'.toNat then ctx.cursorDown
  else if c = 'C'.toNat then ctx.cursorForward
  else if c = 'D'.toNat then ctx.cursorBack
  else if c = 'G'.toNat then ctx.cursorColumn
  else if c = 'f'.toNat ∨ c = 'H'.toNat then ctx.cursorPosition
  else if c = 'm'.toNat then ansiSgr ctx
  else if c = 's'.toNat then ctx.saveCursor
  else if c = 'u'.toNat then ctx.restoreCursor
  else ctx

/-- A digit of an argument. -/
def Ctx.digit (ctx : Ctx) (c : Nat) : Ctx :=
  if ctx.argBufI < argBufLen then
    { ctx with argBuf := Function.update ctx.argBuf ctx.argBufI c, argBufI := ctx.argBufI + 1 }
  else ctx

/-- The end of an argument. -/
def Ctx.endArg (ctx : Ctx) : Ctx :=
  if ctx.argsSz < argsLen then
    { ctx with
      args := Function.update ctx.args ctx.argsSz (ansiParseDecRev ctx.argBuf ctx.argBufI)
      argsSz := ctx.argsSz + 1
      argBufI := 0 }
  else { ctx with argBufI := 0 }

def ansiHandleCsi (callback : Callback) (ctx : Ctx) (c : Nat) : Ctx × List Event :=
  if '0'.toNat ≤ c ∧ c ≤ '9'.toNat then (ctx.digit c, [])
  else if ':'.toNat ≤ c ∧ c ≤ '?'.toNat then (ctx.endArg, [])
  else
    let ctx := { ctx.endArg with escLevel := .none }
    if c = 'J'.toNat then callback ctx .esc 0
    else if c = 'K'.toNat then callback ctx .esc 1
    else ansiCheckCursor callback (csiSwitch ctx c)

/-- The switch of `ansi_handle` over the control characters. -/
def ansiControl (callback : Callback) (ctx : Ctx) (c : Nat) : Ctx × List Event :=
  if c = 0x08 then (if ctx.curX ≠ 0 then { ctx with curX := ctx.curX - 1 } else ctx, [])
  else if c = 0x0a then ({ ctx with curX := 0, curY := u16 (ctx.curY + 1) }, [])
  else if c = 0x0d then ({ ctx with curX := 0 }, [])
  else if c = 0x0b ∨ c = 0x0c then ({ ctx with curY := u16 (ctx.curY + 1) }, [])
  else if c = 0x1b then ({ ctx with escLevel := .esc }, [])
  else callback ctx .char c

/-- What follows the switch over `esc_level`. -/
def ansiGround (callback : Callback) (ctx : Ctx) (c : Nat) : Ctx × List Event :=
  let (ctx, out) := ansiControl callback ctx c
  let (ctx, out') := ansiCheckCursor callback ctx
  (ctx, out ++ out')

def ansiHandle (callback : Callback) (ctx : Ctx) (c : Nat) : Ctx × List Event :=
  match ctx.escLevel with
  | .none => ansiGround callback ctx c
  | .esc => ansiHandleEsc callback ctx c
  | .csi => ansiHandleCsi callback ctx c
  | .osc => ansiGround callback { ctx with escLevel := .none } c

/-- The loop of `tm_console_write` and `fb_term_output`. -/
def handleAll (callback : Callback) : List UInt8 → Ctx → Ctx × List Event
  | [], ctx => (ctx, [])
  | c :: buf, ctx =>
      let (ctx, out) := ansiHandle callback ctx c.toNat
      let (ctx, out') := handleAll callback buf ctx
      (ctx, out ++ out')

/-! ## The callbacks draw at the cursor -/

/-- The cells a list of events draws characters at. -/
def drawn (out : List Event) : List (Nat × Nat) := out.filterMap Event.drawnAt

theorem drawn_append (out out' : List Event) : drawn (out ++ out') = drawn out ++ drawn out' :=
  List.filterMap_append

/-- The bytes that are drawn. -/
def Printable (c : Nat) : Prop := 0x20 ≤ c ∧ c ≠ 0x7f

instance (c : Nat) : Decidable (Printable c) := inferInstanceAs (Decidable (_ ∧ _))

/-- What the parser needs to know about a callback: a character moves the
cursor in its line and is drawn where the cursor was; nothing else moves the
cursor or draws a character. -/
structure DrawsAtCursor (callback : Callback) : Prop where
  moves : ∀ ctx c, ∃ x, (callback ctx .char c).1 = { ctx with curX := x }
  char : ∀ ctx c, c < 2 ^ 8 →
    drawn (callback ctx .char c).2 = if Printable c then [(ctx.curX, ctx.curY)] else []
  stays : ∀ ctx type c, type ≠ .char → (callback ctx type c).1 = ctx
  other : ∀ ctx type c, type ≠ .char → drawn (callback ctx type c).2 = []

theorem not_printable_del : ¬ Printable 0x7f := fun h => h.2 rfl

theorem not_printable_c0 {c : Nat} (h : c < 0x20) : ¬ Printable c := fun hc =>
  absurd hc.1 (Nat.not_le_of_lt h)

theorem u8_of_lt {c : Nat} (h : c < 2 ^ 8) : u8 c = c := by
  rw [u8]
  omega

section Callbacks

variable {draw : Ctx → Nat → Event} {after : Ctx → List Event}

theorem outChar_moves (ctx : Ctx) (c : Nat) :
    ∃ x, (outChar draw after ctx c).1 = { ctx with curX := x } := by
  unfold outChar
  split_ifs
  · exact ⟨ctx.curX, rfl⟩
  · exact ⟨_, rfl⟩
  · exact ⟨ctx.curX, rfl⟩
  · exact ⟨_, rfl⟩

theorem drawn_outChar (hdraw : ∀ ctx c, (draw ctx c).drawnAt = some (ctx.curX, ctx.curY))
    (hafter : ∀ ctx, drawn (after ctx) = []) (ctx : Ctx) (c : Nat) :
    drawn (outChar draw after ctx c).2
      = if Printable c then [(ctx.curX, ctx.curY)] else [] := by
  unfold outChar
  by_cases hdel : c = 0x7f
  · rw [if_pos hdel, if_neg (hdel ▸ not_printable_del)]
    rfl
  by_cases hc0 : c < 0x20
  · rw [if_neg hdel, if_pos hc0, if_neg (not_printable_c0 hc0)]
    split_ifs <;> rfl
  · rw [if_neg hdel, if_neg hc0, if_pos ⟨Nat.le_of_not_lt hc0, hdel⟩, drawn,
      List.filterMap_cons_some (hdraw ctx c)]
    exact congrArg _ (hafter ctx.advance)

theorem outEsc_spec (hafter : ∀ ctx, drawn (after ctx) = []) (ctx : Ctx) (uc : Nat) :
    (outEsc after ctx uc).1 = ctx ∧ drawn (outEsc after ctx uc).2 = [] := by
  unfold outEsc
  split_ifs
  · exact ⟨rfl, hafter ctx⟩
  · exact ⟨rfl, hafter ctx⟩
  · exact ⟨rfl, hafter ctx⟩

end Callbacks

theorem tmAnsiCallback_draws : DrawsAtCursor tmAnsiCallback where
  moves ctx c := outChar_moves ctx (u8 c)
  char ctx c hc := by
    rw [tmAnsiCallback, u8_of_lt hc]
    exact drawn_outChar (fun _ _ => rfl) (fun _ => rfl) ctx c
  stays ctx type c htype := by
    cases type with
    | char => exact absurd rfl htype
    | esc => exact (outEsc_spec (fun _ => rfl) ctx c).1
    | scroll => rfl
  other ctx type c htype := by
    cases type with
    | char => exact absurd rfl htype
    | esc => exact (outEsc_spec (fun _ => rfl) ctx c).2
    | scroll => rfl

theorem fbTermAnsiCallback_draws : DrawsAtCursor fbTermAnsiCallback where
  moves ctx c := outChar_moves ctx c
  char ctx c _ := drawn_outChar (fun _ _ => rfl) (fun _ => rfl) ctx c
  stays ctx type c htype := by
    cases type with
    | char => exact absurd rfl htype
    | esc => exact (outEsc_spec (fun _ => rfl) ctx c).1
    | scroll => rfl
  other ctx type c htype := by
    cases type with
    | char => exact absurd rfl htype
    | esc => exact (outEsc_spec (fun _ => rfl) ctx c).2
    | scroll => rfl

/-- The terminals of the kernel. -/
inductive Terminal where
  | tm
  | fb
deriving DecidableEq

def Terminal.callback : Terminal → Callback
  | .tm => tmAnsiCallback
  | .fb => fbTermAnsiCallback

theorem Terminal.draws (t : Terminal) : DrawsAtCursor t.callback := by
  cases t with
  | tm => exact tmAnsiCallback_draws
  | fb => exact fbTermAnsiCallback_draws

/-! ## The cursor stays in range -/

/-- All that holds of a context at every point, wherever the cursor is. -/
structure Safe (w h : Nat) (ctx : Ctx) : Prop where
  width : ctx.width = w
  height : ctx.height = h
  scurX : ctx.scurX < w
  scurY : ctx.scurY < h
  argsSz : ctx.argsSz ≤ argsLen
  argBufI : ctx.argBufI ≤ argBufLen

/-- A context between two calls of `ansi_handle`. -/
structure InRange (w h : Nat) (ctx : Ctx) : Prop extends Safe w h ctx where
  curX : ctx.curX < w
  curY : ctx.curY < h

section InRange

variable {callback : Callback} {w h : Nat} {ctx : Ctx}

/-- The fields that moving the cursor leaves alone. -/
def Ctx.frame (ctx : Ctx) : Nat × Nat × Nat × Nat × Nat × Nat :=
  (ctx.width, ctx.height, ctx.scurX, ctx.scurY, ctx.argsSz, ctx.argBufI)

theorem Safe.congr {ctx' : Ctx} (hsafe : Safe w h ctx) (hframe : ctx'.frame = ctx.frame) :
    Safe w h ctx' := by
  simp only [Ctx.frame, Prod.mk.injEq] at hframe
  obtain ⟨hwidth, hheight, hscurX, hscurY, hargsSz, hargBufI⟩ := hframe
  exact ⟨hwidth.trans hsafe.width, hheight.trans hsafe.height, hscurX ▸ hsafe.scurX,
    hscurY ▸ hsafe.scurY, hargsSz ▸ hsafe.argsSz, hargBufI ▸ hsafe.argBufI⟩

/-- Moving the cursor and changing the parser's level is safe. -/
theorem Safe.move (hsafe : Safe w h ctx) (x y : Nat) (level : Level) :
    Safe w h { ctx with curX := x, curY := y, escLevel := level } :=
  hsafe.congr rfl

theorem Safe.wrapX (hw : 1 ≤ w) (hsafe : Safe w h ctx) :
    Safe w h ctx.wrapX ∧ ctx.wrapX.curX < w := by
  unfold Ctx.wrapX
  by_cases hx : ctx.curX ≥ ctx.width
  · rw [if_pos hx]
    exact ⟨hsafe.move 0 _ ctx.escLevel, hw⟩
  · rw [if_neg hx]
    rw [hsafe.width] at hx
    exact ⟨hsafe, Nat.lt_of_not_le hx⟩

/-- `ansi_check_cursor` ends in range, whatever the cursor was. -/
theorem inRange_checkCursor (hcb : DrawsAtCursor callback) (hw : 1 ≤ w) (hh : 1 ≤ h)
    (hmax : h < 2 ^ 16) (hsafe : Safe w h ctx) : InRange w h (ansiCheckCursor callback ctx).1 := by
  obtain ⟨hsafe, hx⟩ := hsafe.wrapX hw
  rw [ansiCheckCursor, scrollY]
  by_cases hy : ctx.wrapX.curY ≥ ctx.wrapX.height
  · simp only [if_pos hy, hcb.stays _ .scroll _ (by decide)]
    refine ⟨hsafe.move _ _ _, hx, ?_⟩
    show u16 (ctx.wrapX.height - 1) < h
    rw [hsafe.height, u16]
    omega
  · rw [if_neg hy]
    rw [hsafe.height] at hy
    exact ⟨hsafe, hx, Nat.lt_of_not_le hy⟩

theorem drawn_checkCursor (hcb : DrawsAtCursor callback) :
    drawn (ansiCheckCursor callback ctx).2 = [] := by
  rw [ansiCheckCursor, scrollY]
  split_ifs
  · exact hcb.other _ .scroll _ (by decide)
  · rfl

theorem Safe.control (hcb : DrawsAtCursor callback) (hsafe : Safe w h ctx) (c : Nat) :
    Safe w h (ansiControl callback ctx c).1 := by
  unfold ansiControl
  split_ifs
  · exact hsafe.move _ ctx.curY ctx.escLevel
  · exact hsafe
  · exact hsafe.move 0 _ ctx.escLevel
  · exact hsafe.move 0 ctx.curY ctx.escLevel
  · exact hsafe.move ctx.curX _ ctx.escLevel
  · exact hsafe.move ctx.curX ctx.curY .esc
  · obtain ⟨x, hx⟩ := hcb.moves ctx c
    rw [hx]
    exact hsafe.move x ctx.curY ctx.escLevel

theorem drawn_control (hcb : DrawsAtCursor callback) {c : Nat} (hc : c < 2 ^ 8) :
    drawn (ansiControl callback ctx c).2 = if Printable c then [(ctx.curX, ctx.curY)] else [] := by
  have hcontrol : ∀ k, c = k → k < 0x20 → ¬ Printable c := fun k hk hlt =>
    not_printable_c0 (hk ▸ hlt)
  unfold ansiControl
  by_cases hbs : c = 0x08
  · rw [if_pos hbs, if_neg (hcontrol _ hbs (by decide))]
    rfl
  by_cases hlf : c = 0x0a
  · rw [if_neg hbs, if_pos hlf, if_neg (hcontrol _ hlf (by decide))]
    rfl
  by_cases hcr : c = 0x0d
  · rw [if_neg hbs, if_neg hlf, if_pos hcr, if_neg (hcontrol _ hcr (by decide))]
    rfl
  by_cases hvt : c = 0x0b ∨ c = 0x0c
  · rw [if_neg hbs, if_neg hlf, if_neg hcr, if_pos hvt, if_neg]
    · rfl
    · exact not_printable_c0 (by omega)
  by_cases hesc : c = 0x1b
  · rw [if_neg hbs, if_neg hlf, if_neg hcr, if_neg hvt, if_pos hesc,
      if_neg (hcontrol _ hesc (by decide))]
    rfl
  · rw [if_neg hbs, if_neg hlf, if_neg hcr, if_neg hvt, if_neg hesc]
    exact hcb.char ctx c hc

theorem Safe.digit (hsafe : Safe w h ctx) (c : Nat) : Safe w h (ctx.digit c) := by
  unfold Ctx.digit
  by_cases hlt : ctx.argBufI < argBufLen
  · rw [if_pos hlt]
    exact ⟨hsafe.width, hsafe.height, hsafe.scurX, hsafe.scurY, hsafe.argsSz, hlt⟩
  · rw [if_neg hlt]
    exact hsafe

theorem Safe.endArg (hsafe : Safe w h ctx) : Safe w h ctx.endArg := by
  unfold Ctx.endArg
  by_cases hlt : ctx.argsSz < argsLen
  · rw [if_pos hlt]
    exact ⟨hsafe.width, hsafe.height, hsafe.scurX, hsafe.scurY, hlt, Nat.zero_le _⟩
  · rw [if_neg hlt]
    exact ⟨hsafe.width, hsafe.height, hsafe.scurX, hsafe.scurY, hsafe.argsSz, Nat.zero_le _⟩

theorem endArg_cur (ctx : Ctx) : ctx.endArg.curX = ctx.curX ∧ ctx.endArg.curY = ctx.curY := by
  unfold Ctx.endArg
  split_ifs <;> exact ⟨rfl, rfl⟩

theorem InRange.digit (hin : InRange w h ctx) (c : Nat) : InRange w h (ctx.digit c) := by
  refine ⟨hin.toSafe.digit c, ?_, ?_⟩ <;> unfold Ctx.digit
  · split_ifs <;> exact hin.curX
  · split_ifs <;> exact hin.curY

theorem InRange.endArg (hin : InRange w h ctx) : InRange w h ctx.endArg := by
  refine ⟨hin.toSafe.endArg, ?_, ?_⟩
  · rw [(endArg_cur ctx).1]
    exact hin.curX
  · rw [(endArg_cur ctx).2]
    exact hin.curY

theorem Safe.ite {p : Prop} [Decidable p] {ctx' : Ctx} (hsafe : Safe w h ctx)
    (hsafe' : Safe w h ctx') : Safe w h (if p then ctx else ctx') := by
  by_cases hp : p
  · rw [if_pos hp]
    exact hsafe
  · rw [if_neg hp]
    exact hsafe'

/-- Only `CSI_SCP` changes a field that `Safe` looks at: it saves the cursor,
which is in range. -/
theorem InRange.csiSwitch (hin : InRange w h ctx) (c : Nat) : Safe w h (csiSwitch ctx c) := by
  have hsafe := hin.toSafe
  have hsave : Safe w h ctx.saveCursor :=
    ⟨hsafe.width, hsafe.height, hin.curX, hin.curY, hsafe.argsSz, hsafe.argBufI⟩
  unfold Ansi.csiSwitch
  refine .ite (hsafe.congr rfl) ?_
  refine .ite (hsafe.congr rfl) ?_
  refine .ite (hsafe.congr rfl) ?_
  refine .ite (hsafe.congr rfl) ?_
  refine .ite (hsafe.congr rfl) ?_
  refine .ite (hsafe.congr rfl) ?_
  refine .ite (hsafe.congr rfl) ?_
  refine .ite (hsafe.congr rfl) ?_
  refine .ite (hsafe.congr rfl) ?_
  refine .ite hsave ?_
  exact .ite (hsafe.congr rfl) hsafe

theorem InRange.level (hin : InRange w h ctx) (level : Level) :
    InRange w h { ctx with escLevel := level } :=
  ⟨hin.toSafe.congr rfl, hin.curX, hin.curY⟩

theorem InRange.ground (hcb : DrawsAtCursor callback) (hw : 1 ≤ w) (hh : 1 ≤ h)
    (hmax : h < 2 ^ 16) (hin : InRange w h ctx) (c : Nat) :
    InRange w h (ansiGround callback ctx c).1 :=
  inRange_checkCursor hcb hw hh hmax (hin.toSafe.control hcb c)

theorem drawn_ground (hcb : DrawsAtCursor callback) {c : Nat} (hc : c < 2 ^ 8) :
    drawn (ansiGround callback ctx c).2 = if Printable c then [(ctx.curX, ctx.curY)] else [] := by
  simp only [ansiGround, drawn_append, drawn_control hcb hc, drawn_checkCursor hcb,
    List.append_nil]

/-- One of the events of `ansi_handle_esc`, or what the calls after it do. -/
theorem event_or {p : Prop} [Decidable p] (k : Nat) {rest : Callback → Ctx × List Event}
    (hrest : (∃ n, ∀ callback, rest callback = callback ctx .esc n)
      ∨ ∀ callback, rest callback = (ctx, [])) :
    (∃ n, ∀ callback : Callback,
        (if p then callback ctx .esc k else rest callback) = callback ctx .esc n)
      ∨ ∀ callback : Callback,
        (if p then callback ctx .esc k else rest callback) = (ctx, []) := by
  by_cases hp : p
  · exact .inl ⟨k, fun _ => if_pos hp⟩
  · simp only [if_neg hp]
    exact hrest

/-- What `ansi_handle_esc` does: it goes on to one of the two sequences it
knows, passes an event on, or does nothing. -/
theorem handleEsc_cases (ctx : Ctx) (c : Nat) :
    (c = '['.toNat ∧ ∀ callback, ansiHandleEsc callback ctx c
        = ({ ctx with escLevel := .csi, argsSz := 0, argBufI := 0 }, []))
      ∨ (c = ']'.toNat ∧ ∀ callback,
          ansiHandleEsc callback ctx c = ({ ctx with escLevel := .osc }, []))
      ∨ c ≠ '['.toNat ∧ c ≠ ']'.toNat
        ∧ ((∃ n, ∀ callback, ansiHandleEsc callback ctx c = callback ctx .esc n)
          ∨ ∀ callback, ansiHandleEsc callback ctx c = (ctx, [])) := by
  by_cases hcsi : c = '['.toNat
  · exact .inl ⟨hcsi, fun _ => if_pos hcsi⟩
  by_cases hosc : c = ']'.toNat
  · exact .inr (.inl ⟨hosc, fun _ => (if_neg hcsi).trans (if_pos hosc)⟩)
  · refine .inr (.inr ⟨hcsi, hosc, ?_⟩)
    simp only [ansiHandleEsc, if_neg hcsi, if_neg hosc]
    exact event_or 2 <| event_or 3 <| event_or 4 <| event_or 6 <| event_or 8 <| event_or 9 <|
      event_or 10 <| .inr fun _ => rfl

theorem handleEsc_spec (hcb : DrawsAtCursor callback) (hin : InRange w h ctx) (c : Nat) :
    InRange w h (ansiHandleEsc callback ctx c).1 ∧ drawn (ansiHandleEsc callback ctx c).2 = [] := by
  rcases handleEsc_cases ctx c with ⟨-, hcsi⟩ | ⟨-, hosc⟩ | ⟨-, -, ⟨n, hevent⟩ | hstay⟩
  · rw [hcsi]
    exact ⟨⟨⟨hin.width, hin.height, hin.scurX, hin.scurY, Nat.zero_le _, Nat.zero_le _⟩,
      hin.curX, hin.curY⟩, rfl⟩
  · rw [hosc]
    exact ⟨hin.level .osc, rfl⟩
  · rw [hevent, hcb.stays ctx .esc n (by decide)]
    exact ⟨hin, hcb.other ctx .esc n (by decide)⟩
  · rw [hstay]
    exact ⟨hin, rfl⟩

theorem handleCsi_spec (hcb : DrawsAtCursor callback) (hw : 1 ≤ w) (hh : 1 ≤ h)
    (hmax : h < 2 ^ 16) (hin : InRange w h ctx) (c : Nat) :
    InRange w h (ansiHandleCsi callback ctx c).1 ∧ drawn (ansiHandleCsi callback ctx c).2 = [] := by
  have hend := hin.endArg.level .none
  have hevent : ∀ n, InRange w h (callback { ctx.endArg with escLevel := .none } .esc n).1
      ∧ drawn (callback { ctx.endArg with escLevel := .none } .esc n).2 = [] := by
    intro n
    rw [hcb.stays _ .esc n (by decide)]
    exact ⟨hend, hcb.other _ .esc n (by decide)⟩
  unfold ansiHandleCsi
  split_ifs
  · exact ⟨hin.digit c, rfl⟩
  · exact ⟨hin.endArg, rfl⟩
  · exact hevent 0
  · exact hevent 1
  · exact ⟨inRange_checkCursor hcb hw hh hmax (hend.csiSwitch c), drawn_checkCursor hcb⟩

/-- What one call does: the cursor is in range again, and a printable byte
that is not part of a sequence is drawn where the cursor was. -/
theorem ansiHandle_spec (hcb : DrawsAtCursor callback) (hw : 1 ≤ w) (hh : 1 ≤ h)
    (hmax : h < 2 ^ 16) (hin : InRange w h ctx) {c : Nat} (hc : c < 2 ^ 8) :
    InRange w h (ansiHandle callback ctx c).1 ∧ drawn (ansiHandle callback ctx c).2
      = if (ctx.escLevel = .none ∨ ctx.escLevel = .osc) ∧ Printable c then [(ctx.curX, ctx.curY)]
        else [] := by
  unfold ansiHandle
  cases hlevel : ctx.escLevel with
  | none =>
      simp only [true_or, true_and]
      exact ⟨hin.ground hcb hw hh hmax c, drawn_ground hcb hc⟩
  | esc =>
      rw [if_neg (by rintro ⟨h | h, -⟩ <;> cases h)]
      exact handleEsc_spec hcb hin c
  | csi =>
      rw [if_neg (by rintro ⟨h | h, -⟩ <;> cases h)]
      exact handleCsi_spec hcb hw hh hmax hin c
  | osc =>
      simp only [or_true, true_and]
      exact ⟨(hin.level .none).ground hcb hw hh hmax c, drawn_ground hcb hc⟩

end InRange

/-- Whatever a terminal is sent, its cursor is in range after every byte,
every character is drawn at a cell of the screen, namely where the cursor is,
and the parser's two buffers are not overrun. -/
theorem run_onScreen (t : Terminal) {w h : Nat} (hw : 1 ≤ w ∧ w ≤ 65000) (hh : 1 ≤ h ∧ h ≤ 65000) :
    ∀ (buf : List UInt8) (ctx : Ctx), InRange w h ctx →
      InRange w h (handleAll t.callback buf ctx).1
      ∧ (∀ p ∈ drawn (handleAll t.callback buf ctx).2, p.1 < w ∧ p.2 < h)
      ∧ ∀ c : UInt8, drawn (ansiHandle t.callback (handleAll t.callback buf ctx).1 c.toNat).2
        = let last := (handleAll t.callback buf ctx).1
          if (last.escLevel = .none ∨ last.escLevel = .osc) ∧ Printable c.toNat then
            [(last.curX, last.curY)]
          else [] := by
  have hmax : h < 2 ^ 16 := Nat.lt_of_le_of_lt hh.2 (by decide)
  intro buf
  induction buf with
  | nil =>
      intro ctx hin
      refine ⟨hin, fun p hp => (List.not_mem_nil hp).elim, fun c => ?_⟩
      exact (ansiHandle_spec t.draws hw.1 hh.1 hmax hin c.toNat_lt).2
  | cons c buf ih =>
      intro ctx hin
      obtain ⟨hin', hdrawn⟩ := ansiHandle_spec t.draws hw.1 hh.1 hmax hin c.toNat_lt
      obtain ⟨hlast, hall, hnext⟩ := ih _ hin'
      refine ⟨hlast, fun p hp => ?_, hnext⟩
      rw [handleAll, drawn_append, hdrawn] at hp
      rcases List.mem_append.mp hp with hp | hp
      · split_ifs at hp with hprint
        · rw [List.mem_singleton.mp hp]
          exact ⟨hin.curX, hin.curY⟩
        · exact (List.not_mem_nil hp).elim
      · exact hall p hp

/-- A cleared text-mode terminal. -/
def tmCtx : Ctx := ansiInit zeroCtx 80 25 0 7 0

theorem tmCtx_inRange : InRange 80 25 tmCtx :=
  ⟨⟨rfl, rfl, by decide, by decide, by decide, by decide⟩, by decide, by decide⟩

/-- `CSI 0 H` sends the cursor to line 65535; the character after it is drawn
in the last line. -/
theorem run_onScreen_home :
    InRange 80 25 (handleAll tmAnsiCallback [0x1b, 0x5b, 0x30, 0x48, 0x41] tmCtx).1
    ∧ drawn (handleAll tmAnsiCallback [0x1b, 0x5b, 0x30, 0x48, 0x41] tmCtx).2 = [(0, 24)] := by
  exact ⟨(run_onScreen .tm (by decide) (by decide) _ tmCtx tmCtx_inRange).1, by decide⟩

end Ansi

end Shitos
