import Mathlib.Data.List.Induction
import Shitos.Ansi

/-!
# What the parser calls

The callbacks draw, and text mode shortens a scroll to eight bits. To say what
`ansi_handle` calls them with, whatever they do with it, a callback is wrapped
in one that notes its calls (`noted`). The context does not see the difference
(`handleAll_noted`).

Two properties of the parser are read off the calls. A scroll is by at least
one line and by no more than the screen has, unless `CSI_CUP` is told line 0
(`scroll_fits_iff`): the line is decremented below 0. And a sequence ends with
its final byte, unless ESC is followed by a byte that is neither `[` nor `]`
(`level_ends_iff`): `ansi_handle_esc` leaves the level as it is.
-/

namespace Shitos

namespace Ansi

/-! ## The calls -/

/-- The callback that does to the context what `callback` does, and notes a
character with its place and a scroll with its lines. -/
def noted (callback : Callback) : Callback
  | ctx, .char, uc => ((callback ctx .char uc).1, [.cell ctx.curX ctx.curY uc])
  | ctx, .esc, uc => ((callback ctx .esc uc).1, [])
  | ctx, .scroll, uc => ((callback ctx .scroll uc).1, [.scroll uc])

/-- The line counts of the calls for `ANSI_OUT_SCROLL`. -/
def scrolls (out : List Event) : List Nat :=
  out.filterMap fun
    | .scroll lines => some lines
    | _ => none

/-- The printable characters of the calls for `ANSI_OUT_CHAR`. -/
def printed (out : List Event) : List Nat :=
  out.filterMap fun
    | .cell _ _ c => if Printable c then some c else none
    | _ => none

theorem scrolls_append (out out' : List Event) :
    scrolls (out ++ out') = scrolls out ++ scrolls out' :=
  List.filterMap_append

theorem printed_append (out out' : List Event) :
    printed (out ++ out') = printed out ++ printed out' :=
  List.filterMap_append

theorem noted_fst (callback : Callback) (ctx : Ctx) (type : AnsiOut) (uc : Nat) :
    (noted callback ctx type uc).1 = (callback ctx type uc).1 := by
  cases type <;> rfl

section Noted

variable (callback : Callback) (ctx : Ctx) (c : Nat)

theorem checkCursor_noted :
    (ansiCheckCursor (noted callback) ctx).1 = (ansiCheckCursor callback ctx).1 := by
  simp only [ansiCheckCursor, scrollY, noted_fst]
  split_ifs <;> rfl

theorem control_noted :
    (ansiControl (noted callback) ctx c).1 = (ansiControl callback ctx c).1 := by
  simp only [ansiControl]
  split_ifs <;> rfl

theorem ground_noted : (ansiGround (noted callback) ctx c).1 = (ansiGround callback ctx c).1 := by
  simp only [ansiGround, checkCursor_noted, control_noted]

theorem handleEsc_noted :
    (ansiHandleEsc (noted callback) ctx c).1 = (ansiHandleEsc callback ctx c).1 := by
  rcases handleEsc_cases ctx c with ⟨-, hesc⟩ | ⟨-, hesc⟩ | ⟨-, -, ⟨n, hesc⟩ | hesc⟩
  · rw [hesc, hesc]
  · rw [hesc, hesc]
  · rw [hesc, hesc, noted_fst]
  · rw [hesc, hesc]

theorem handleCsi_noted :
    (ansiHandleCsi (noted callback) ctx c).1 = (ansiHandleCsi callback ctx c).1 := by
  unfold ansiHandleCsi
  split_ifs
  · rfl
  · rfl
  · rfl
  · rfl
  · exact checkCursor_noted ..

theorem ansiHandle_noted :
    (ansiHandle (noted callback) ctx c).1 = (ansiHandle callback ctx c).1 := by
  unfold ansiHandle
  cases ctx.escLevel with
  | none => exact ground_noted callback ctx c
  | esc => exact handleEsc_noted callback ctx c
  | csi => exact handleCsi_noted callback ctx c
  | osc => exact ground_noted callback _ c

end Noted

/-- Noting the calls does not change the run. -/
theorem handleAll_noted (callback : Callback) : ∀ (buf : List UInt8) (ctx : Ctx),
    (handleAll (noted callback) buf ctx).1 = (handleAll callback buf ctx).1 := by
  intro buf
  induction buf with
  | nil => exact fun ctx => rfl
  | cons c buf ih =>
      intro ctx
      simp only [handleAll, ansiHandle_noted, ih]

/-- A run in two parts. -/
theorem handleAll_append (callback : Callback) (buf' : List UInt8) :
    ∀ (buf : List UInt8) (ctx : Ctx), handleAll callback (buf ++ buf') ctx
      = ((handleAll callback buf' (handleAll callback buf ctx).1).1,
        (handleAll callback buf ctx).2
          ++ (handleAll callback buf' (handleAll callback buf ctx).1).2) := by
  intro buf
  induction buf with
  | nil => exact fun ctx => rfl
  | cons c buf ih =>
      intro ctx
      simp only [List.cons_append, handleAll, ih, List.append_assoc]

/-- A byte at the end of a run. -/
theorem handleAll_concat (callback : Callback) (buf : List UInt8) (c : UInt8) (ctx : Ctx) :
    handleAll callback (buf ++ [c]) ctx
      = ((ansiHandle callback (handleAll callback buf ctx).1 c.toNat).1,
        (handleAll callback buf ctx).2
          ++ (ansiHandle callback (handleAll callback buf ctx).1 c.toNat).2) := by
  rw [handleAll_append]
  simp only [handleAll, List.append_nil]

/-- The cursor is in range after every byte. -/
theorem handleAll_inRange {callback : Callback} (hcb : DrawsAtCursor callback) {w h : Nat}
    (hw : 1 ≤ w) (hh : 1 ≤ h ∧ h < 2 ^ 16) : ∀ (buf : List UInt8) (ctx : Ctx),
      InRange w h ctx → InRange w h (handleAll callback buf ctx).1 := by
  intro buf
  induction buf with
  | nil => exact fun ctx hin => hin
  | cons c buf ih =>
      exact fun ctx hin => ih _ (ansiHandle_spec hcb hw hh.1 hh.2 hin c.toNat_lt).1

/-- Each byte of a run is handled in a state that satisfies `p`. -/
def EachStep (callback : Callback) (p : Ctx → Nat → Prop) (buf : List UInt8) (ctx : Ctx) : Prop :=
  ∀ pre c post, buf = pre ++ c :: post → p (handleAll callback pre ctx).1 c.toNat

theorem eachStep_nil (callback : Callback) (p : Ctx → Nat → Prop) (ctx : Ctx) :
    EachStep callback p [] ctx := by
  intro pre c post heq
  exact absurd heq.symm (List.append_ne_nil_of_right_ne_nil pre (List.cons_ne_nil c post))

theorem eachStep_cons {callback : Callback} {p : Ctx → Nat → Prop} {c : UInt8} {buf : List UInt8}
    {ctx : Ctx} : EachStep callback p (c :: buf) ctx
      ↔ p ctx c.toNat ∧ EachStep callback p buf (ansiHandle callback ctx c.toNat).1 := by
  constructor
  · intro hall
    refine ⟨hall [] c buf rfl, fun pre d post heq => ?_⟩
    exact hall (c :: pre) d post (by rw [heq, List.cons_append])
  · rintro ⟨hfirst, hrest⟩ pre d post heq
    cases pre with
    | nil =>
        obtain ⟨rfl, -⟩ := List.cons.inj heq
        exact hfirst
    | cons e pre =>
        obtain ⟨rfl, htail⟩ := List.cons.inj heq
        exact hrest pre d post htail

/-! ## Scrolling -/

section Scroll

variable {callback : Callback} {w h : Nat} {ctx : Ctx}

/-- The parameter `i` of a sequence that ends with the next byte: what its
digits so far say, or 1 when the sequence is too short for it. -/
def Ctx.param (ctx : Ctx) (i : Nat) : Nat :=
  if i < ctx.argsSz then ctx.args i
  else if i = ctx.argsSz ∧ i < argsLen then ansiParseDecRev ctx.argBuf ctx.argBufI
  else 1

theorem arg_endArg (ctx : Ctx) (i : Nat) : ctx.endArg.arg i = u8 (ctx.param i) := by
  unfold Ctx.arg Ctx.param Ctx.endArg
  by_cases hroom : ctx.argsSz < argsLen
  · rw [if_pos hroom]
    rcases Nat.lt_trichotomy i ctx.argsSz with hi | rfl | hi
    · simp only [if_pos (Nat.lt_succ_of_lt hi), if_pos hi, Function.update_of_ne (Nat.ne_of_lt hi)]
    · simp only [if_pos (Nat.lt_succ_self _), if_neg (Nat.lt_irrefl _), Function.update_self,
        if_pos (And.intro trivial hroom)]
    · rw [if_neg (by simp only; omega), if_neg (by omega), if_neg (by omega)]
      rfl
  · rw [if_neg hroom]
    by_cases hi : i < ctx.argsSz
    · simp only [if_pos hi]
    · simp only [if_neg hi, if_neg (show ¬ (i = ctx.argsSz ∧ i < argsLen) by omega)]
      rfl

/-- The number of lines is one the screen can be scrolled by, and `tm_scroll`
is passed all of it. -/
def Fits (h lines : Nat) : Prop := 1 ≤ lines ∧ lines ≤ h ∧ (h ≤ 255 → u8 lines = lines)

theorem fits_iff {lines : Nat} : Fits h lines ↔ 1 ≤ lines ∧ lines ≤ h := by
  refine ⟨fun hfits => ⟨hfits.1, hfits.2.1⟩, fun hle => ⟨hle.1, hle.2, fun hmax => ?_⟩⟩
  exact u8_of_lt (by omega)

/-- The byte ends a sequence that sends the cursor to line 0, but not to
column 0. Counted from 0 that is line 65535, and the screen has fewer than
32768 lines. -/
def LineZero (h : Nat) (ctx : Ctx) (c : Nat) : Prop :=
  ctx.escLevel = .csi ∧ (c = 'f'.toNat ∨ c = 'H'.toNat) ∧ u8 (ctx.param 0) = 0
    ∧ u8 (ctx.param 1) ≠ 0 ∧ h < 2 ^ 15

/-- `ansi_check_cursor` scrolls the last line in. -/
theorem scrolls_checkCursor (ctx : Ctx) : scrolls (ansiCheckCursor (noted callback) ctx).2
    = if ctx.wrapX.curY ≥ ctx.wrapX.height then [ctx.wrapX.curY - ctx.wrapX.height + 1]
      else [] := by
  simp only [ansiCheckCursor, scrollY]
  split_ifs <;> rfl

/-- From a line of the screen it scrolls by one line at most, and so it does
from the line below the screen. -/
theorem scrolls_fit (hsafe : Safe w h ctx) (hh : 1 ≤ h ∧ h < 2 ^ 16)
    (hcur : ctx.curY < h ∨ ctx.curX < w ∧ ctx.curY ≤ h) :
    ∀ lines ∈ scrolls (ansiCheckCursor (noted callback) ctx).2, Fits h lines := by
  intro lines hlines
  have hle : ctx.wrapX.curY ≤ h := by
    unfold Ctx.wrapX
    by_cases hx : ctx.curX ≥ ctx.width
    · rw [if_pos hx, u16]
      rw [hsafe.width] at hx
      simp only
      omega
    · rw [if_neg hx]
      omega
  have hheight : ctx.wrapX.height = h := by
    unfold Ctx.wrapX
    split_ifs <;> exact hsafe.height
  rw [scrolls_checkCursor, hheight] at hlines
  split_ifs at hlines with hscroll
  · rw [List.mem_singleton.mp hlines, fits_iff]
    omega
  · exact (List.not_mem_nil hlines).elim

theorem row_ite {p : Prop} [Decidable p] {ctx' : Ctx}
    (hrow : ctx.curY < h) (hrow' : ctx'.curY < h) :
    (if p then ctx else ctx').curY < h := by
  by_cases hp : p
  · rw [if_pos hp]
    exact hrow
  · rw [if_neg hp]
    exact hrow'

theorem cursorUp_row (hrow : ctx.curY < h) : ctx.cursorUp.curY < h := by
  simp only [Ctx.cursorUp]
  split_ifs <;> omega

theorem cursorDown_row (hheight : ctx.height = h) (hmax : h < 2 ^ 16) (hrow : ctx.curY < h) :
    ctx.cursorDown.curY < h := by
  simp only [Ctx.cursorDown, u16, hheight]
  split_ifs <;> omega

/-- The sequences that leave the cursor in a line of the screen: all but
`CSI_CUP` and `CSI_HVP`. -/
theorem csiSwitch_row (hin : InRange w h ctx) (hmax : h < 2 ^ 16) {c : Nat}
    (hc : ¬ (c = 'f'.toNat ∨ c = 'H'.toNat)) : (csiSwitch ctx c).curY < h := by
  have hrow := hin.curY
  unfold csiSwitch
  rw [if_neg hc]
  refine row_ite (@cursorUp_row h ctx.lineStart hrow) ?_
  refine row_ite (cursorUp_row hrow) ?_
  refine row_ite (@cursorDown_row h ctx.lineStart hin.height hmax hrow) ?_
  refine row_ite (cursorDown_row hin.height hmax hrow) ?_
  refine row_ite hrow (row_ite hrow (row_ite hrow (row_ite hrow (row_ite hrow ?_))))
  exact row_ite hin.scurY hrow

/-- `CSI_CUP` scrolls too far exactly when it is told line 0, but not column
0: told both, the wrap at the margin counts the line on to 0. -/
theorem scrolls_position (hsafe : Safe w h ctx) (hw : 1 ≤ w ∧ w < 2 ^ 16)
    (hh : 1 ≤ h ∧ h < 2 ^ 16) :
    (∀ lines ∈ scrolls (ansiCheckCursor (noted callback) ctx.cursorPosition).2, Fits h lines)
      ↔ ¬ (ctx.arg 0 = 0 ∧ ctx.arg 1 ≠ 0 ∧ h < 2 ^ 15) := by
  have hpos : Safe w h ctx.cursorPosition := hsafe.congr rfl
  have hy : ctx.cursorPosition.curY = u16 (min h (ctx.arg 0) - 1) := by
    rw [← hsafe.height]
    rfl
  have hx : ctx.cursorPosition.curX = u16 (min w (ctx.arg 1) - 1) := by
    rw [← hsafe.width]
    rfl
  rw [u16] at hx hy
  by_cases hrow : ctx.arg 0 = 0
  · by_cases hcol : ctx.arg 1 = 0
    · have hwrap : ctx.cursorPosition.wrapX.curY = 0 := by
        unfold Ctx.wrapX
        rw [if_pos (by rw [hpos.width]; omega), u16]
        simp only
        omega
      have hheight := (hpos.wrapX hw.1).1.height
      refine ⟨fun _ hbad => hbad.2.1 hcol, fun _ lines hlines => ?_⟩
      rw [scrolls_checkCursor, hwrap, hheight, if_neg (by omega)] at hlines
      exact (List.not_mem_nil hlines).elim
    · have hwrap : ctx.cursorPosition.wrapX = ctx.cursorPosition := by
        unfold Ctx.wrapX
        rw [if_neg (by rw [hpos.width]; omega)]
      rw [scrolls_checkCursor, hwrap, hpos.height, if_pos (by omega), List.forall_mem_singleton,
        fits_iff]
      omega
  · refine ⟨fun _ hbad => hrow hbad.1, fun _ => scrolls_fit hpos hh (.inl ?_)⟩
    omega

theorem scrolls_csi (hin : InRange w h ctx) (hw : 1 ≤ w ∧ w < 2 ^ 16) (hh : 1 ≤ h ∧ h < 2 ^ 16)
    (c : Nat) (hlevel : ctx.escLevel = .csi) :
    (∀ lines ∈ scrolls (ansiHandleCsi (noted callback) ctx c).2, Fits h lines)
      ↔ ¬ LineZero h ctx c := by
  have hnil : ∀ lines ∈ scrolls [], Fits h lines := fun lines hlines =>
    (List.not_mem_nil hlines).elim
  have hend := hin.endArg.level .none
  by_cases hpos : c = 'f'.toNat ∨ c = 'H'.toNat
  · have hout : ansiHandleCsi (noted callback) ctx c = ansiCheckCursor (noted callback)
        ({ ctx.endArg with escLevel := .none } : Ctx).cursorPosition := by
      rcases hpos with rfl | rfl <;> rfl
    rw [hout, scrolls_position hend.toSafe hw hh]
    refine not_congr ⟨fun hbad => ?_, fun hbad => ?_⟩
    · exact ⟨hlevel, hpos, (arg_endArg ctx 0) ▸ hbad.1, (arg_endArg ctx 1) ▸ hbad.2.1, hbad.2.2⟩
    · exact ⟨(arg_endArg ctx 0).trans hbad.2.2.1, (arg_endArg ctx 1).symm ▸ hbad.2.2.2.1,
        hbad.2.2.2.2⟩
  · refine iff_of_true ?_ fun hbad => hpos hbad.2.1
    unfold ansiHandleCsi
    split_ifs
    · exact hnil
    · exact hnil
    · exact hnil
    · exact hnil
    · exact scrolls_fit (hend.csiSwitch c) hh (.inl (csiSwitch_row hend hh.2 hpos))

theorem control_cur (hcb : DrawsAtCursor callback) (hin : InRange w h ctx) (hw : 1 ≤ w)
    (hmax : h < 2 ^ 16) (c : Nat) :
    (ansiControl callback ctx c).1.curY < h
      ∨ (ansiControl callback ctx c).1.curX < w ∧ (ansiControl callback ctx c).1.curY ≤ h := by
  have hx := hin.curX
  have hy := hin.curY
  have hnext : u16 (ctx.curY + 1) ≤ h := by
    rw [u16]
    omega
  unfold ansiControl
  split_ifs
  · exact .inl hy
  · exact .inl hy
  · exact .inr ⟨hw, hnext⟩
  · exact .inl hy
  · exact .inr ⟨hx, hnext⟩
  · exact .inl hy
  · obtain ⟨x, hmove⟩ := hcb.moves ctx c
    rw [hmove]
    exact .inl hy

theorem scrolls_control (ctx : Ctx) (c : Nat) :
    scrolls (ansiControl (noted callback) ctx c).2 = [] := by
  unfold ansiControl
  split_ifs <;> rfl

theorem scrolls_ground (hcb : DrawsAtCursor callback) (hin : InRange w h ctx) (hw : 1 ≤ w)
    (hh : 1 ≤ h ∧ h < 2 ^ 16) (c : Nat) :
    ∀ lines ∈ scrolls (ansiGround (noted callback) ctx c).2, Fits h lines := by
  simp only [ansiGround, scrolls_append, scrolls_control, List.nil_append, control_noted]
  exact scrolls_fit (hin.toSafe.control hcb c) hh (control_cur hcb hin hw hh.2 c)

theorem scrolls_esc (ctx : Ctx) (c : Nat) :
    scrolls (ansiHandleEsc (noted callback) ctx c).2 = [] := by
  rcases handleEsc_cases ctx c with ⟨-, hesc⟩ | ⟨-, hesc⟩ | ⟨-, -, ⟨n, hesc⟩ | hesc⟩ <;>
    rw [hesc] <;> rfl

/-- What one call scrolls by. -/
theorem scrolls_ansiHandle (hcb : DrawsAtCursor callback) (hw : 1 ≤ w ∧ w < 2 ^ 16)
    (hh : 1 ≤ h ∧ h < 2 ^ 16) (hin : InRange w h ctx) (c : Nat) :
    (∀ lines ∈ scrolls (ansiHandle (noted callback) ctx c).2, Fits h lines)
      ↔ ¬ LineZero h ctx c := by
  have hother : ctx.escLevel ≠ .csi → ¬ LineZero h ctx c := fun hne hbad => hne hbad.1
  unfold ansiHandle
  cases hlevel : ctx.escLevel with
  | none =>
      exact iff_of_true (scrolls_ground hcb hin hw.1 hh c) (hother (hlevel ▸ Level.noConfusion))
  | esc =>
      refine iff_of_true (fun lines hlines => ?_) (hother (hlevel ▸ Level.noConfusion))
      rw [scrolls_esc] at hlines
      exact (List.not_mem_nil hlines).elim
  | csi => exact scrolls_csi hin hw hh c hlevel
  | osc =>
      exact iff_of_true (scrolls_ground hcb (hin.level .none) hw.1 hh c)
        (hother (hlevel ▸ Level.noConfusion))

end Scroll

/-- Every scroll of a run is by a number of lines between 1 and the height of
the screen exactly when no byte of it ends a sequence that sends the cursor to
line 0. -/
theorem scroll_fits_iff (t : Terminal) {w h : Nat} (hw : 1 ≤ w ∧ w < 2 ^ 16)
    (hh : 1 ≤ h ∧ h < 2 ^ 16) :
    ∀ (buf : List UInt8) (ctx : Ctx), InRange w h ctx →
      ((∀ lines ∈ scrolls (handleAll (noted t.callback) buf ctx).2, Fits h lines)
        ↔ EachStep t.callback (fun ctx c => ¬ LineZero h ctx c) buf ctx) := by
  intro buf
  induction buf with
  | nil =>
      intro ctx _
      exact iff_of_true (fun lines hlines => (List.not_mem_nil hlines).elim) (eachStep_nil _ _ ctx)
  | cons c buf ih =>
      intro ctx hin
      have hin' := (ansiHandle_spec t.draws hw.1 hh.1 hh.2 hin c.toNat_lt).1
      simp only [handleAll, scrolls_append, List.forall_mem_append, ansiHandle_noted]
      rw [eachStep_cons, scrolls_ansiHandle t.draws hw hh hin c.toNat, ih _ hin']

/-- `CSI 5 H` on a text-mode screen. -/
theorem scroll_fits_iff_given :
    (∀ lines ∈ scrolls (handleAll (noted tmAnsiCallback) [0x1b, 0x5b, 0x35, 0x48] tmCtx).2,
        Fits 25 lines)
      ↔ EachStep tmAnsiCallback (fun ctx c => ¬ LineZero 25 ctx c) [0x1b, 0x5b, 0x35, 0x48]
          tmCtx :=
  scroll_fits_iff .tm (by decide) (by decide) _ tmCtx tmCtx_inRange

/-- `CSI H` asks for a scroll by 65511 lines. -/
theorem scroll_not_fits :
    ¬ ∀ (t : Terminal) (w h : Nat), 1 ≤ w ∧ w < 2 ^ 16 → 1 ≤ h ∧ h < 2 ^ 16 →
      ∀ (buf : List UInt8) (ctx : Ctx), InRange w h ctx →
        ∀ lines ∈ scrolls (handleAll (noted t.callback) buf ctx).2, Fits h lines := by
  intro hall
  have hfits := hall .tm 80 25 (by decide) (by decide) [0x1b, 0x5b, 0x48] tmCtx tmCtx_inRange
    65511 (by decide)
  exact absurd hfits.2.1 (by decide)

/-! ## The end of a sequence -/

/-- The level of the parser after a byte. ESC begins a sequence, `[` after it
a control sequence, which lasts up to the first byte outside `0` to `?`, and
`]` an OSC sequence, which `ansi_handle` takes for ended. Any other byte after
ESC is a sequence on its own. -/
def Level.next : Level → Nat → Level
  | .none, c => if c = 0x1b then .esc else .none
  | .esc, c => if c = '['.toNat then .csi else if c = ']'.toNat then .osc else .none
  | .csi, c => if '0'.toNat ≤ c ∧ c ≤ '?'.toNat then .csi else .none
  | .osc, c => if c = 0x1b then .esc else .none

/-- A byte outside any sequence. -/
def Level.Outside (level : Level) : Prop := level = .none ∨ level = .osc

instance (level : Level) : Decidable level.Outside := inferInstanceAs (Decidable (_ ∨ _))

/-- The level after some bytes. -/
def levelAfter (level : Level) (buf : List UInt8) : Level :=
  buf.foldl (fun level c => level.next c.toNat) level

/-- The printable bytes outside any sequence. -/
def textOf : Level → List UInt8 → List Nat
  | _, [] => []
  | level, c :: buf =>
      (if level.Outside ∧ Printable c.toNat then [c.toNat] else [])
        ++ textOf (level.next c.toNat) buf

theorem levelAfter_concat (level : Level) (buf : List UInt8) (c : UInt8) :
    levelAfter level (buf ++ [c]) = (levelAfter level buf).next c.toNat := by
  simp only [levelAfter, List.foldl_append, List.foldl_cons, List.foldl_nil]

theorem textOf_concat (c : UInt8) : ∀ (buf : List UInt8) (level : Level),
    textOf level (buf ++ [c]) = textOf level buf
      ++ if (levelAfter level buf).Outside ∧ Printable c.toNat then [c.toNat] else [] := by
  intro buf
  induction buf with
  | nil => exact fun level => List.append_nil _
  | cons d buf ih =>
      intro level
      rw [List.cons_append, textOf, ih, textOf, List.append_assoc]
      rfl

/-- A byte that `ansi_handle_esc` ends the sequence at, by beginning
another. -/
def Introduces (c : Nat) : Prop := c = '['.toNat ∨ c = ']'.toNat

instance (c : Nat) : Decidable (Introduces c) := inferInstanceAs (Decidable (_ ∨ _))

section Levels

variable {callback : Callback} {ctx : Ctx}

theorem checkCursor_level (hcb : DrawsAtCursor callback) (ctx : Ctx) :
    (ansiCheckCursor callback ctx).1.escLevel = ctx.escLevel := by
  have hwrap : ctx.wrapX.escLevel = ctx.escLevel := by
    unfold Ctx.wrapX
    split_ifs <;> rfl
  simp only [ansiCheckCursor, scrollY,
    hcb.stays _ .scroll _ (show AnsiOut.scroll ≠ .char by decide)]
  split_ifs <;> exact hwrap

theorem control_level (hcb : DrawsAtCursor callback) (ctx : Ctx) (c : Nat) :
    (ansiControl callback ctx c).1.escLevel = if c = 0x1b then .esc else ctx.escLevel := by
  unfold ansiControl
  by_cases hesc : c = 0x1b
  · subst hesc
    rfl
  · rw [if_neg hesc]
    split_ifs
    · rfl
    · rfl
    · rfl
    · rfl
    · rfl
    · obtain ⟨x, hmove⟩ := hcb.moves ctx c
      rw [hmove]

theorem ground_level (hcb : DrawsAtCursor callback) (ctx : Ctx) (c : Nat) :
    (ansiGround callback ctx c).1.escLevel = if c = 0x1b then .esc else ctx.escLevel := by
  simp only [ansiGround, checkCursor_level hcb, control_level hcb]

theorem level_ite {p : Prop} [Decidable p] {ctx' : Ctx} {level : Level}
    (hlevel : ctx.escLevel = level) (hlevel' : ctx'.escLevel = level) :
    (if p then ctx else ctx').escLevel = level := by
  by_cases hp : p
  · rw [if_pos hp]
    exact hlevel
  · rw [if_neg hp]
    exact hlevel'

theorem csiSwitch_level (ctx : Ctx) (c : Nat) : (csiSwitch ctx c).escLevel = ctx.escLevel := by
  unfold csiSwitch
  refine level_ite rfl (level_ite rfl (level_ite rfl (level_ite rfl (level_ite rfl ?_))))
  exact level_ite rfl (level_ite rfl (level_ite rfl (level_ite rfl (level_ite rfl
    (level_ite rfl rfl)))))

theorem handleCsi_level (hcb : DrawsAtCursor callback) (hlevel : ctx.escLevel = .csi) (c : Nat) :
    (ansiHandleCsi callback ctx c).1.escLevel = Level.csi.next c := by
  have hdigit : (ctx.digit c).escLevel = .csi := by
    unfold Ctx.digit
    split_ifs <;> exact hlevel
  have hend : ctx.endArg.escLevel = .csi := by
    unfold Ctx.endArg
    split_ifs <;> exact hlevel
  have hevent : ∀ (ctx : Ctx) n, (callback ctx .esc n).1 = ctx := fun ctx n =>
    hcb.stays ctx .esc n (by decide)
  -- a digit or a separator keeps the level, all else is final
  have hbytes : ('0'.toNat ≤ c ∧ c ≤ '?'.toNat)
      ↔ ('0'.toNat ≤ c ∧ c ≤ '9'.toNat) ∨ (':'.toNat ≤ c ∧ c ≤ '?'.toNat) := by
    simp only [Char.reduceToNat]
    omega
  simp only [Level.next, hbytes]
  unfold ansiHandleCsi
  by_cases hd : '0'.toNat ≤ c ∧ c ≤ '9'.toNat
  · rw [if_pos hd, if_pos (.inl hd)]
    exact hdigit
  by_cases hs : ':'.toNat ≤ c ∧ c ≤ '?'.toNat
  · rw [if_neg hd, if_pos hs, if_pos (.inr hs)]
    exact hend
  · rw [if_neg hd, if_neg hs, if_neg (not_or.mpr ⟨hd, hs⟩)]
    split_ifs
    · rw [hevent]
    · rw [hevent]
    · rw [checkCursor_level hcb, csiSwitch_level]

/-- `ansi_handle_esc` goes on to the two sequences it knows, and otherwise
stays. -/
theorem handleEsc_level (hcb : DrawsAtCursor callback) (ctx : Ctx) (c : Nat) :
    (ansiHandleEsc callback ctx c).1.escLevel
      = if c = '['.toNat then .csi else if c = ']'.toNat then .osc else ctx.escLevel := by
  rcases handleEsc_cases ctx c with ⟨rfl, hcsi⟩ | ⟨rfl, hosc⟩ | ⟨hcsi, hosc, ⟨n, hevent⟩ | hstay⟩
  · rw [hcsi]
    rfl
  · rw [hosc]
    rfl
  · rw [hevent, hcb.stays ctx .esc n (by decide), if_neg hcsi, if_neg hosc]
  · rw [hstay, if_neg hcsi, if_neg hosc]

/-- The level after one call. -/
theorem ansiHandle_level (hcb : DrawsAtCursor callback) (ctx : Ctx) (c : Nat) :
    (ansiHandle callback ctx c).1.escLevel
      = if ctx.escLevel = .esc ∧ ¬ Introduces c then .esc else ctx.escLevel.next c := by
  unfold ansiHandle
  cases hlevel : ctx.escLevel with
  | none =>
      simp only [ground_level hcb, hlevel]
      exact (if_neg fun hbad => Level.noConfusion hbad.1).symm
  | esc =>
      simp only [handleEsc_level hcb, hlevel, Level.next, Introduces, true_and]
      by_cases hcsi : c = '['.toNat
      · rw [if_pos hcsi, if_neg (not_not_intro (.inl hcsi)), if_pos hcsi]
      by_cases hosc : c = ']'.toNat
      · rw [if_neg hcsi, if_pos hosc, if_neg (not_not_intro (.inr hosc)), if_neg hcsi, if_pos hosc]
      · rw [if_neg hcsi, if_neg hosc, if_pos (not_or.mpr ⟨hcsi, hosc⟩)]
  | csi =>
      simp only [handleCsi_level hcb hlevel]
      exact (if_neg fun hbad => Level.noConfusion hbad.1).symm
  | osc =>
      simp only [ground_level hcb]
      exact (if_neg fun hbad => Level.noConfusion hbad.1).symm

theorem printed_checkCursor (ctx : Ctx) :
    printed (ansiCheckCursor (noted callback) ctx).2 = [] := by
  simp only [ansiCheckCursor, scrollY]
  split_ifs <;> rfl

/-- A printable byte is passed on as a character, the others are not
printable. -/
theorem printed_ground (ctx : Ctx) (c : Nat) :
    printed (ansiGround (noted callback) ctx c).2 = if Printable c then [c] else [] := by
  simp only [ansiGround, printed_append, printed_checkCursor, List.append_nil]
  unfold ansiControl
  by_cases hprint : Printable c
  · have hge := hprint.1
    rw [if_neg (by omega), if_neg (by omega), if_neg (by omega), if_neg (by omega),
      if_neg (by omega)]
    simp only [noted, printed, List.filterMap_cons, List.filterMap_nil, if_pos hprint]
  · rw [if_neg hprint]
    split_ifs
    · rfl
    · rfl
    · rfl
    · rfl
    · rfl
    · rfl
    · simp only [noted, printed, List.filterMap_cons, List.filterMap_nil, if_neg hprint]

theorem printed_esc (ctx : Ctx) (c : Nat) :
    printed (ansiHandleEsc (noted callback) ctx c).2 = [] := by
  rcases handleEsc_cases ctx c with ⟨-, hesc⟩ | ⟨-, hesc⟩ | ⟨-, -, ⟨n, hesc⟩ | hesc⟩ <;>
    rw [hesc] <;> rfl

theorem printed_csi (ctx : Ctx) (c : Nat) :
    printed (ansiHandleCsi (noted callback) ctx c).2 = [] := by
  unfold ansiHandleCsi
  split_ifs
  · rfl
  · rfl
  · rfl
  · rfl
  · exact printed_checkCursor _

/-- What one call prints. -/
theorem printed_ansiHandle (ctx : Ctx) (c : Nat) :
    printed (ansiHandle (noted callback) ctx c).2
      = if ctx.escLevel.Outside ∧ Printable c then [c] else [] := by
  have hinside : ∀ {level : Level}, level = .esc ∨ level = .csi →
      [] = if level.Outside ∧ Printable c then [c] else [] := by
    intro level hlevel
    rcases hlevel with rfl | rfl <;> exact (if_neg fun hout => absurd hout.1 (by decide)).symm
  have houtside : ∀ {level : Level}, level.Outside →
      (if Printable c then [c] else []) = if level.Outside ∧ Printable c then [c] else [] := by
    intro level hout
    simp only [hout, true_and]
  unfold ansiHandle
  cases hlevel : ctx.escLevel with
  | none => exact (printed_ground ctx c).trans (houtside (.inl rfl))
  | esc => exact (printed_esc ctx c).trans (hinside (.inl rfl))
  | csi => exact (printed_csi ctx c).trans (hinside (.inr rfl))
  | osc => exact (printed_ground _ c).trans (houtside (.inr rfl))

end Levels

/-- After every byte of a run the parser is at the level that the sequences
give it, and every printable byte outside a sequence has been passed on as a
character, exactly when ESC is never followed by a byte other than `[` and
`]`. -/
theorem level_ends_iff (t : Terminal) (buf : List UInt8) (ctx : Ctx) :
    (∀ pre post, buf = pre ++ post →
        (handleAll t.callback pre ctx).1.escLevel = levelAfter ctx.escLevel pre
        ∧ printed (handleAll (noted t.callback) pre ctx).2 = textOf ctx.escLevel pre)
      ↔ ∀ pre c post, buf = pre ++ c :: post → levelAfter ctx.escLevel pre = .esc →
          Introduces c.toNat := by
  constructor
  · intro hall pre c post heq hesc
    by_contra hother
    have hbefore := (hall pre (c :: post) heq).1
    have hafter := (hall (pre ++ [c]) post (by rw [heq, List.append_assoc]; rfl)).1
    rw [handleAll_concat, levelAfter_concat, hesc, ansiHandle_level t.draws, hbefore, hesc,
      if_pos ⟨rfl, hother⟩, Level.next] at hafter
    rw [if_neg (fun hcsi => hother (.inl hcsi)), if_neg (fun hosc => hother (.inr hosc))] at hafter
    exact Level.noConfusion hafter
  · intro hesc pre
    -- on the bytes before the last one the invariant holds by induction
    induction pre using List.reverseRecOn with
    | nil => exact fun post _ => ⟨rfl, rfl⟩
    | append_singleton pre c ih =>
        intro post heq
        have hsplit : buf = pre ++ c :: post := by
          rw [heq, List.append_assoc]
          rfl
        obtain ⟨hlevel, hprinted⟩ := ih (c :: post) hsplit
        refine ⟨?_, ?_⟩
        · rw [handleAll_concat, levelAfter_concat, ansiHandle_level t.draws, hlevel, if_neg]
          exact fun hbad => hbad.2 (hesc pre c post hsplit hbad.1)
        · rw [handleAll_concat, printed_append, hprinted, printed_ansiHandle, handleAll_noted,
            hlevel, textOf_concat]

/-- ESC N swallows the letter after it. -/
theorem level_not_ends :
    ¬ ∀ (t : Terminal) (buf : List UInt8) (ctx : Ctx) (pre post : List UInt8),
      buf = pre ++ post →
        (handleAll t.callback pre ctx).1.escLevel = levelAfter ctx.escLevel pre
        ∧ printed (handleAll (noted t.callback) pre ctx).2 = textOf ctx.escLevel pre := by
  intro hall
  have hends := (hall .tm [0x1b, 0x4e, 0x41] tmCtx [0x1b, 0x4e, 0x41] [] rfl).2
  exact absurd hends (by decide)

end Ansi

end Shitos
