import Mathlib.Data.Int.ModEq
import Mathlib.Tactic.Ring
import Shitos.AnsiCalls

/-!
# The cursor sequences

What ECMA-48 says of the sequences that move the cursor, and what
`ansi_handle_csi` makes of them. The parameters reach the switch as they are
written, through the digit buffer and the reverse decimal parser
(`handleAll_params`): the array holds a missing one as 0, so the default of 1
is only ever taken for a second parameter that has no separator before it. The
switch then reads a parameter into eight bits. The sequence does what it should
exactly where this reading makes no difference (`cursorSeq_iff`).
-/

namespace Shitos

namespace Ansi

/-! ## Parameters -/

/-- The bytes of a parameter. -/
def digitBytes (p : List (Fin 10)) : List UInt8 := p.map fun d => UInt8.ofNat (48 + d.val)

theorem digitBytes_cons (d : Fin 10) (p : List (Fin 10)) :
    digitBytes (d :: p) = UInt8.ofNat (48 + d.val) :: digitBytes p := rfl

/-- The parameters of a sequence. -/
def paramBytes : List (List (Fin 10)) → List UInt8
  | [] => []
  | [p] => digitBytes p
  | p :: q :: params => digitBytes p ++ 0x3b :: paramBytes (q :: params)

/-- The number that digits stand for. -/
def value (p : List (Fin 10)) : Nat := p.foldl (fun v d => 10 * v + d.val) 0

/-- The value of the parameter `i`, 0 when it is missing. -/
def valueAt (params : List (List (Fin 10))) (i : Nat) : Nat := ((params[i]?).map value).getD 0

theorem value_concat (p : List (Fin 10)) (d : Fin 10) : value (p ++ [d]) = 10 * value p + d := by
  simp only [value, List.foldl_append, List.foldl_cons, List.foldl_nil]

/-- The number in the first `i` bytes of a buffer. -/
def bufValue (s : Nat → Int) : Nat → Int
  | 0 => 0
  | i + 1 => 10 * bufValue s i + (s i - 48)

theorem bufValue_congr {s s' : Nat → Int} : ∀ {i : Nat}, (∀ j < i, s j = s' j) →
    bufValue s i = bufValue s' i
  | 0, _ => rfl
  | i + 1, heq => by
      rw [bufValue, bufValue, heq i (Nat.lt_succ_self i),
        bufValue_congr fun j hj => heq j (Nat.lt_succ_of_lt hj)]

theorem u16_modEq (z : Int) : (u16 z : Int) ≡ z [ZMOD 2 ^ 16] := by
  rw [u16, Int.toNat_of_nonneg (Int.emod_nonneg _ (by decide))]
  exact Int.mod_modEq _ _

/-- The loop of `ansi_parse_dec_rev` adds the digits from the last one on, all
of it to 16 bits. -/
theorem decRev_eq (s : Nat → Int) : ∀ (i prod out : Nat), out < 2 ^ 16 →
    decRev s i prod out = u16 (out + prod * bufValue s i)
  | 0, prod, out, hout => by
      rw [decRev, bufValue, u16]
      omega
  | i + 1, prod, out, _ => by
      rw [decRev, decRev_eq s i _ _ (by rw [u16]; omega), bufValue]
      have hsum : (u16 (out + prod * (s i - 48)) : Int) + u16 (prod * 10) * bufValue s i
          ≡ out + prod * (s i - 48) + prod * 10 * bufValue s i [ZMOD 2 ^ 16] :=
        (u16_modEq _).add ((u16_modEq _).mul_right _)
      have hring : (out : Int) + prod * (s i - 48) + prod * 10 * bufValue s i
          = out + prod * (10 * bufValue s i + (s i - 48)) := by ring
      rw [hring] at hsum
      exact congrArg Int.toNat hsum

theorem parseDecRev_eq {s : Nat → Int} {i v : Nat} (hv : bufValue s i = v) (hlt : v < 2 ^ 16) :
    ansiParseDecRev s i = v := by
  rw [ansiParseDecRev, decRev_eq s i 1 0 (by decide), hv, u16]
  omega

/-! ## The parser collects the parameters -/

/-- The parser in a control sequence, after the parameters `done` and the
digits `p` of another: the cursor has not moved from where it was in `ctx₀`. -/
structure Collects (ctx₀ : Ctx) (done : List (List (Fin 10))) (p : List (Fin 10)) (ctx : Ctx) :
    Prop where
  width : ctx.width = ctx₀.width
  height : ctx.height = ctx₀.height
  curX : ctx.curX = ctx₀.curX
  curY : ctx.curY = ctx₀.curY
  level : ctx.escLevel = .csi
  argsSz : ctx.argsSz = done.length
  args : ∀ i < done.length, ctx.args i = valueAt done i
  argBufI : ctx.argBufI = p.length
  argBuf : bufValue ctx.argBuf p.length = value p

section Collects

variable {ctx₀ ctx : Ctx} {done : List (List (Fin 10))} {p : List (Fin 10)}

theorem toNat_digit (d : Fin 10) : (UInt8.ofNat (48 + d.val)).toNat = 48 + d.val := by
  rw [UInt8.toNat_ofNat']
  omega

theorem Collects.digit (hcol : Collects ctx₀ done p ctx) (hroom : p.length < argBufLen)
    (d : Fin 10) : Collects ctx₀ done (p ++ [d]) (ctx.digit (48 + d.val)) := by
  rw [Ctx.digit, if_pos (hcol.argBufI ▸ hroom)]
  refine ⟨hcol.width, hcol.height, hcol.curX, hcol.curY, hcol.level, hcol.argsSz, hcol.args,
    ?_, ?_⟩
  · simp only [hcol.argBufI, List.length_append, List.length_singleton]
  · have hbefore :
        bufValue (Function.update ctx.argBuf ctx.argBufI ((48 + d.val : Nat) : Int)) p.length
          = value p := by
      rw [← hcol.argBuf]
      refine bufValue_congr fun j hj => Function.update_of_ne ?_ _ _
      rw [hcol.argBufI]
      exact Nat.ne_of_lt hj
    rw [List.length_append, List.length_singleton, bufValue, hbefore, ← hcol.argBufI, value_concat]
    simp only [Function.update_self]
    omega

theorem valueAt_concat_of_lt {i : Nat} (hi : i < done.length) :
    valueAt (done ++ [p]) i = valueAt done i := by
  rw [valueAt, List.getElem?_append_left hi, valueAt]

theorem valueAt_concat_length : valueAt (done ++ [p]) done.length = value p := by
  rw [valueAt, List.getElem?_concat_length]
  rfl

theorem Collects.endArg (hcol : Collects ctx₀ done p ctx) (hroom : done.length < argsLen)
    (hvalue : value p < 2 ^ 16) : Collects ctx₀ (done ++ [p]) [] ctx.endArg := by
  rw [Ctx.endArg, if_pos (hcol.argsSz ▸ hroom)]
  refine ⟨hcol.width, hcol.height, hcol.curX, hcol.curY, hcol.level, ?_, fun i hi => ?_, rfl, rfl⟩
  · simp only [hcol.argsSz, List.length_append, List.length_singleton]
  · simp only [hcol.argsSz]
    rw [List.length_append, List.length_singleton] at hi
    rcases Nat.lt_succ_iff_lt_or_eq.mp hi with hlt | rfl
    · rw [Function.update_of_ne (Nat.ne_of_lt hlt), hcol.args i hlt, valueAt_concat_of_lt hlt]
    · rw [Function.update_self, hcol.argBufI, parseDecRev_eq hcol.argBuf hvalue,
        valueAt_concat_length]

/-- The digits of a parameter are collected without a call. -/
theorem Collects.digits : ∀ (q p : List (Fin 10)) (ctx : Ctx), Collects ctx₀ done p ctx →
    (p ++ q).length ≤ argBufLen → ∃ ctx', Collects ctx₀ done (p ++ q) ctx'
      ∧ ∀ callback, handleAll callback (digitBytes q) ctx = (ctx', [])
  | [], p, ctx, hcol, _ => ⟨ctx, (List.append_nil p).symm ▸ hcol, fun _ => rfl⟩
  | d :: q, p, ctx, hcol, hlen => by
      rw [List.append_cons] at hlen ⊢
      have hroom : p.length < argBufLen := by
        rw [List.length_append, List.length_append, List.length_singleton] at hlen
        omega
      obtain ⟨ctx', hcol', hrun⟩ := Collects.digits q _ _ (hcol.digit hroom d) hlen
      refine ⟨ctx', hcol', fun callback => ?_⟩
      have hstep : ansiHandle callback ctx (48 + d.val) = (ctx.digit (48 + d.val), []) := by
        rw [ansiHandle, hcol.level]
        exact if_pos ⟨Nat.le_add_right 48 d.val, Nat.add_le_add_left (Nat.le_of_lt_succ d.isLt) 48⟩
      rw [digitBytes_cons, handleAll, toNat_digit, hstep]
      simp only [hrun, List.append_nil]

/-- Parameters a sequence can have without running over the parser's
buffers. -/
def Small (params : List (List (Fin 10))) : Prop :=
  params.length ≤ argsLen ∧ ∀ p ∈ params, p.length ≤ 5 ∧ value p ≤ 65535

instance (params : List (List (Fin 10))) : Decidable (Small params) :=
  inferInstanceAs (Decidable (_ ∧ _))

/-- All parameters but the last are stored, and the last one is in the digit
buffer. -/
theorem Collects.params : ∀ (params done : List (List (Fin 10))) (p : List (Fin 10)) (ctx : Ctx),
    Collects ctx₀ done [] ctx → Small (done ++ p :: params) → ∃ done' p' ctx',
      done ++ p :: params = done' ++ [p'] ∧ Collects ctx₀ done' p' ctx'
      ∧ ∀ callback, handleAll callback (paramBytes (p :: params)) ctx = (ctx', [])
  | [], done, p, ctx, hcol, hsmall => by
      have hp := (hsmall.2 p (List.mem_append_right _ (List.mem_cons_self ..))).1
      obtain ⟨ctx', hcol', hrun⟩ := hcol.digits p [] ctx (Nat.le_succ_of_le hp)
      exact ⟨done, p, ctx', rfl, hcol', hrun⟩
  | q :: params, done, p, ctx, hcol, hsmall => by
      have hp := hsmall.2 p (List.mem_append_right _ (List.mem_cons_self ..))
      have hroom : done.length < argsLen := by
        have hlen := hsmall.1
        rw [List.length_append, List.length_cons] at hlen
        omega
      obtain ⟨ctx', hcol', hrun⟩ := hcol.digits p [] ctx (Nat.le_succ_of_le hp.1)
      rw [List.append_cons] at hsmall ⊢
      obtain ⟨done', p', ctx'', heq, hcol'', hrun'⟩ := Collects.params params (done ++ [p]) q _
        (hcol'.endArg hroom (Nat.lt_succ_of_le hp.2)) hsmall
      refine ⟨done', p', ctx'', heq, hcol'', fun callback => ?_⟩
      have hstep : ansiHandle callback ctx' (0x3b : UInt8).toNat = (ctx'.endArg, []) := by
        rw [ansiHandle, hcol'.level]
        rfl
      rw [paramBytes, handleAll_append, hrun callback, handleAll]
      simp only [hstep, hrun' callback, List.append_nil]

/-- Where the parser is before the final byte. -/
theorem handleAll_params (params : List (List (Fin 10))) (hsmall : Small params)
    (hcol : Collects ctx₀ [] [] ctx) : ∃ done p ctx',
      valueAt params 0 = valueAt (done ++ [p]) 0 ∧ valueAt params 1 = valueAt (done ++ [p]) 1
      ∧ (params.length < 2 ↔ done = []) ∧ Small (done ++ [p]) ∧ Collects ctx₀ done p ctx'
      ∧ ∀ callback, handleAll callback (paramBytes params) ctx = (ctx', []) := by
  cases params with
  | nil =>
      refine ⟨[], [], ctx, rfl, rfl, iff_of_true (by decide) rfl, ⟨by decide, ?_⟩, hcol,
        fun _ => rfl⟩
      intro p hp
      rw [List.mem_singleton.mp hp]
      decide
  | cons p params =>
      obtain ⟨done, p', ctx', heq, hcol', hrun⟩ := Collects.params params [] p ctx hcol hsmall
      rw [List.nil_append] at heq
      refine ⟨done, p', ctx', by rw [heq], by rw [heq], ?_, heq ▸ hsmall, hcol', hrun⟩
      rw [heq, List.length_append, List.length_singleton, ← List.length_eq_zero_iff]
      omega

theorem u8_natCast (n : Nat) : u8 n = n % 256 := by
  rw [u8]
  omega

/-- The parameters as the switch reads them, when the sequence is long enough
for them. -/
theorem Collects.arg (hcol : Collects ctx₀ done p ctx) (hsmall : Small (done ++ [p])) (i : Nat) :
    ctx.endArg.arg i = if i < done.length + 1 then valueAt (done ++ [p]) i % 256 else 1 := by
  have hroom : done.length < argsLen := by
    have hlen := hsmall.1
    rw [List.length_append, List.length_singleton] at hlen
    exact hlen
  have hvalue := (hsmall.2 p (List.mem_append_right _ (List.mem_singleton_self p))).2
  have hend := hcol.endArg hroom (Nat.lt_succ_of_le hvalue)
  have hsz : ctx.endArg.argsSz = done.length + 1 := by
    rw [hend.argsSz, List.length_append, List.length_singleton]
  rw [Ctx.arg, hsz]
  by_cases hi : i < done.length + 1
  · rw [if_pos hi, if_pos hi, hend.args i (by rw [← hend.argsSz, hsz]; exact hi), u8_natCast]
  · rw [if_neg hi, if_neg hi]

end Collects

/-! ## The cursor -/

/-- Where `ansi_check_cursor` leaves a cursor, if it does not scroll. -/
theorem checkCursor_lands {callback : Callback} {w h x y : Nat} {ctx : Ctx}
    (hsafe : Safe w h ctx) (hy : y < h) :
    (((ansiCheckCursor callback ctx).1.curX, (ansiCheckCursor callback ctx).1.curY) = (x, y)
        ∧ scrolls (ansiCheckCursor (noted callback) ctx).2 = [])
      ↔ (ctx.wrapX.curX, ctx.wrapX.curY) = (x, y) := by
  have hheight : ctx.wrapX.height = h := by
    unfold Ctx.wrapX
    split_ifs <;> exact hsafe.height
  rw [scrolls_checkCursor, hheight]
  simp only [ansiCheckCursor, scrollY, hheight]
  by_cases hscroll : ctx.wrapX.curY ≥ h
  · simp only [if_pos hscroll]
    refine iff_of_false (fun hland => List.cons_ne_nil _ _ hland.2) fun hland => ?_
    rw [(Prod.mk.inj hland).2] at hscroll
    exact absurd hy (Nat.not_lt_of_le hscroll)
  · simp only [if_neg hscroll, and_true]

/-- The sequences that move the cursor. -/
inductive CursorSeq where
  | cuu
  | cud
  | cuf
  | cub
  | cnl
  | cpl
  | cha
  | cup
  | hvp
deriving DecidableEq

/-- The final byte. -/
def CursorSeq.final : CursorSeq → UInt8
  | .cuu => 0x41
  | .cud => 0x42
  | .cuf => 0x43
  | .cub => 0x44
  | .cnl => 0x45
  | .cpl => 0x46
  | .cha => 0x47
  | .cup => 0x48
  | .hvp => 0x66

def CursorSeq.bytes (seq : CursorSeq) (params : List (List (Fin 10))) : List UInt8 :=
  0x1b :: 0x5b :: paramBytes params ++ [seq.final]

/-- The parameter `i` of a sequence, a missing or zero one for 1. -/
def paramOf (params : List (List (Fin 10))) (i : Nat) : Nat := max 1 (valueAt params i)

/-- Where ECMA-48 sends the cursor from `(x, y)`, on a screen of `w` columns
and `h` lines: `n` and `m` are the first two parameters. -/
def CursorSeq.target (w h x y n m : Nat) : CursorSeq → Nat × Nat
  | .cuu => (x, y - n)
  | .cud => (x, min (y + n) (h - 1))
  | .cuf => (min (x + n) (w - 1), y)
  | .cub => (x - n, y)
  | .cnl => (0, min (y + n) (h - 1))
  | .cpl => (0, y - n)
  | .cha => (min n w - 1, y)
  | .cup => (min m w - 1, min n h - 1)
  | .hvp => (min m w - 1, min n h - 1)

/-- The readings `b` and `d` of the parameters `n` and `m` make no difference:
they are as good as the parameters up to the edge of the screen. When the
column is read as 0, the wrap at the margin counts the line up and sets the
column to the first. -/
def CursorSeq.Reads (w h x y n m b d : Nat) : CursorSeq → Prop
  | .cuu => min y b = min y n
  | .cud => min (h - 1 - y) b = min (h - 1 - y) n
  | .cuf => min (w - 1 - x) b = min (w - 1 - x) n
  | .cub => min x b = min x n
  | .cnl => min (h - 1 - y) b = min (h - 1 - y) n
  | .cpl => min y b = min y n
  | .cha => min w b = min w n
  | .cup => if d = 0 then min w m = 1 ∧ min h b + 1 = min h n
      else min w d = min w m ∧ min h b = min h n
  | .hvp => if d = 0 then min w m = 1 ∧ min h b + 1 = min h n
      else min w d = min w m ∧ min h b = min h n

section Moves

variable {w h : Nat} {ctx : Ctx}

/-- In range the margin is not reached. -/
theorem wrapX_of_lt (hx : ctx.curX < ctx.width) : ctx.wrapX = ctx := by
  rw [Ctx.wrapX, if_neg (Nat.not_le_of_lt hx)]

theorem cursorUp_iff (hx : ctx.curX < ctx.width) (n : Nat) :
    (ctx.cursorUp.wrapX.curX, ctx.cursorUp.wrapX.curY) = (ctx.curX, ctx.curY - n)
      ↔ min ctx.curY (ctx.arg 0) = min ctx.curY n := by
  rw [@wrapX_of_lt ctx.cursorUp hx]
  simp only [Ctx.cursorUp, Prod.mk.injEq, true_and]
  split_ifs <;> omega

theorem cursorDown_iff (hsafe : Safe w h ctx) (hmax : h < 2 ^ 16) (hx : ctx.curX < ctx.width)
    (hy : ctx.curY < h) (n : Nat) :
    (ctx.cursorDown.wrapX.curX, ctx.cursorDown.wrapX.curY)
        = (ctx.curX, min (ctx.curY + n) (h - 1))
      ↔ min (h - 1 - ctx.curY) (ctx.arg 0) = min (h - 1 - ctx.curY) n := by
  have hcur : ctx.cursorDown.curY = min (ctx.curY + ctx.arg 0) (h - 1) := by
    simp only [Ctx.cursorDown, u16, hsafe.height]
    split_ifs <;> omega
  rw [@wrapX_of_lt ctx.cursorDown hx, hcur, Prod.mk.injEq,
    and_iff_right (show ctx.cursorDown.curX = ctx.curX from rfl)]
  omega

theorem cursorForward_iff (hsafe : Safe w h ctx) (hmax : w < 2 ^ 16) (hx : ctx.curX < w) (n : Nat) :
    (ctx.cursorForward.wrapX.curX, ctx.cursorForward.wrapX.curY)
        = (min (ctx.curX + n) (w - 1), ctx.curY)
      ↔ min (w - 1 - ctx.curX) (ctx.arg 0) = min (w - 1 - ctx.curX) n := by
  have hcur : ctx.cursorForward.curX = min (ctx.curX + ctx.arg 0) (w - 1) := by
    simp only [Ctx.cursorForward, u16, hsafe.width]
    split_ifs <;> omega
  have hin : ctx.cursorForward.curX < ctx.cursorForward.width := by
    have hwidth : ctx.cursorForward.width = w := hsafe.width
    omega
  rw [wrapX_of_lt hin, hcur, Prod.mk.injEq,
    and_iff_left (show ctx.cursorForward.curY = ctx.curY from rfl)]
  omega

theorem cursorBack_iff (hx : ctx.curX < ctx.width) (n : Nat) :
    (ctx.cursorBack.wrapX.curX, ctx.cursorBack.wrapX.curY) = (ctx.curX - n, ctx.curY)
      ↔ min ctx.curX (ctx.arg 0) = min ctx.curX n := by
  have hcur : ctx.cursorBack.curX = ctx.curX - ctx.arg 0 := by
    simp only [Ctx.cursorBack]
    split_ifs <;> omega
  have hin : ctx.cursorBack.curX < ctx.cursorBack.width := by
    rw [hcur]
    exact Nat.lt_of_le_of_lt (Nat.sub_le _ _) hx
  rw [wrapX_of_lt hin, hcur, Prod.mk.injEq,
    and_iff_left (show ctx.cursorBack.curY = ctx.curY from rfl)]
  omega

/-- Column 0 is column 65535, which wraps to the next line. -/
theorem wrapX_zero (hw : 1 ≤ w ∧ w < 2 ^ 16) (hsafe : Safe w h ctx) {b : Nat}
    (hx : ctx.curX = u16 (min w b - 1)) :
    (ctx.wrapX.curX, ctx.wrapX.curY)
      = if b = 0 then (0, u16 (ctx.curY + 1)) else (min w b - 1, ctx.curY) := by
  rw [u16] at hx
  unfold Ctx.wrapX
  by_cases hb : b = 0
  · rw [if_pos (by rw [hsafe.width]; omega), if_pos hb]
  · rw [if_neg (by rw [hsafe.width]; omega), if_neg hb, Prod.mk.injEq]
    omega

/-- The line below the one a parameter asks for. -/
theorem u16_below (hh : h < 2 ^ 16) (b : Nat) : u16 (u16 (min h b - 1) + 1) = min h b := by
  unfold u16
  omega

/-- A line is the one a parameter asks for. -/
theorem u16_pred_iff (hh : 1 ≤ h ∧ h < 2 ^ 16) {n : Nat} (hn : 1 ≤ n) (b : Nat) :
    u16 (min h b - 1) = min n h - 1 ↔ min h b = min h n := by
  unfold u16
  omega

/-- A column from 1 on is the one a parameter asks for. -/
theorem pred_min_iff (hw : 1 ≤ w) {n b : Nat} (hn : 1 ≤ n) (hb : b ≠ 0) :
    min w b - 1 = min n w - 1 ↔ min w b = min w n := by
  omega

theorem cursorColumn_iff (hsafe : Safe w h ctx) (hw : 1 ≤ w ∧ w < 2 ^ 16) {n : Nat} (hn : 1 ≤ n) :
    (ctx.cursorColumn.wrapX.curX, ctx.cursorColumn.wrapX.curY) = (min n w - 1, ctx.curY)
      ↔ min w (ctx.arg 0) = min w n := by
  have hcol : Safe w h ctx.cursorColumn := hsafe.congr rfl
  have hx : ctx.cursorColumn.curX = u16 (min w (ctx.arg 0) - 1) := by
    rw [← hsafe.width]
    rfl
  rw [wrapX_zero hw hcol hx, show ctx.cursorColumn.curY = ctx.curY from rfl, u16]
  split_ifs with hb <;> rw [Prod.mk.injEq] <;> omega

theorem cursorPosition_iff (hsafe : Safe w h ctx) (hw : 1 ≤ w ∧ w < 2 ^ 16)
    (hh : 1 ≤ h ∧ h < 2 ^ 16) {n m : Nat} (hn : 1 ≤ n) (hm : 1 ≤ m) :
    (ctx.cursorPosition.wrapX.curX, ctx.cursorPosition.wrapX.curY) = (min m w - 1, min n h - 1)
      ↔ if ctx.arg 1 = 0 then min w m = 1 ∧ min h (ctx.arg 0) + 1 = min h n
        else min w (ctx.arg 1) = min w m ∧ min h (ctx.arg 0) = min h n := by
  have hpos : Safe w h ctx.cursorPosition := hsafe.congr rfl
  have hx : ctx.cursorPosition.curX = u16 (min w (ctx.arg 1) - 1) := by
    rw [← hsafe.width]
    rfl
  have hy : ctx.cursorPosition.curY = u16 (min h (ctx.arg 0) - 1) := by
    rw [← hsafe.height]
    rfl
  rw [wrapX_zero hw hpos hx, hy]
  by_cases hb : ctx.arg 1 = 0
  · rw [if_pos hb, if_pos hb, Prod.mk.injEq, u16_below hh.2]
    omega
  · rw [if_neg hb, if_neg hb, Prod.mk.injEq, pred_min_iff hw.1 hm hb, u16_pred_iff hh hn]

/-- The switch sends the cursor where it should go exactly when the eight-bit
readings of the parameters make no difference. -/
theorem csiSwitch_iff (hin : InRange w h ctx) (hw : 1 ≤ w ∧ w < 2 ^ 16) (hh : 1 ≤ h ∧ h < 2 ^ 16)
    {n m : Nat} (hn : 1 ≤ n) (hm : 1 ≤ m) (seq : CursorSeq) :
    ((csiSwitch ctx seq.final.toNat).wrapX.curX, (csiSwitch ctx seq.final.toNat).wrapX.curY)
        = seq.target w h ctx.curX ctx.curY n m
      ↔ seq.Reads w h ctx.curX ctx.curY n m (ctx.arg 0) (ctx.arg 1) := by
  have hsafe := hin.toSafe
  have hstart : Safe w h ctx.lineStart := hsafe.congr rfl
  have hx : ctx.curX < ctx.width := hsafe.width.symm ▸ hin.curX
  have hzero : ctx.lineStart.curX < ctx.lineStart.width := Nat.zero_lt_of_lt hx
  cases seq with
  | cuu => exact cursorUp_iff hx n
  | cud => exact cursorDown_iff hsafe hh.2 hx hin.curY n
  | cuf => exact cursorForward_iff hsafe hw.2 hin.curX n
  | cub => exact cursorBack_iff hx n
  | cnl => exact cursorDown_iff hstart hh.2 hzero hin.curY n
  | cpl => exact cursorUp_iff hzero n
  | cha => exact cursorColumn_iff hsafe hw hn
  | cup => exact cursorPosition_iff hsafe hw hh hn hm
  | hvp => exact cursorPosition_iff hsafe hw hh hn hm

theorem CursorSeq.target_lt {x y : Nat} (hy : y < h) (n m : Nat) (seq : CursorSeq) :
    (seq.target w h x y n m).2 < h := by
  cases seq <;> simp only [CursorSeq.target] <;> omega

/-- The final byte of a cursor sequence reaches the switch. -/
theorem ansiHandle_final {callback : Callback} (hlevel : ctx.escLevel = .csi) (seq : CursorSeq) :
    ansiHandle callback ctx seq.final.toNat
      = ansiCheckCursor callback (csiSwitch { ctx.endArg with escLevel := .none }
          seq.final.toNat) := by
  rw [ansiHandle, hlevel]
  cases seq <;> rfl

theorem checkCursor_of_lt {callback : Callback} (hx : ctx.curX < ctx.width)
    (hy : ctx.curY < ctx.height) : ansiCheckCursor callback ctx = (ctx, []) := by
  rw [ansiCheckCursor, wrapX_of_lt hx, scrollY, if_neg (Nat.not_le_of_lt hy)]

/-- After `ESC [` nothing is collected. -/
theorem collects_start (hin : InRange w h ctx) (hlevel : ctx.escLevel.Outside) :
    ∃ ctx', Collects ctx [] [] ctx'
      ∧ ∀ callback, handleAll callback [0x1b, 0x5b] ctx = (ctx', []) := by
  have hx : ctx.curX < ctx.width := hin.width.symm ▸ hin.curX
  have hy : ctx.curY < ctx.height := hin.height.symm ▸ hin.curY
  refine ⟨{ ctx with escLevel := .csi, argsSz := 0, argBufI := 0 }, ⟨rfl, rfl, rfl, rfl, rfl, rfl,
    fun i hi => absurd hi (Nat.not_lt_zero i), rfl, rfl⟩, fun callback => ?_⟩
  have hesc : ansiHandle callback ctx (0x1b : UInt8).toNat
      = ({ ctx with escLevel := .esc }, []) := by
    have hcheck := @checkCursor_of_lt { ctx with escLevel := .esc } callback hx hy
    have hground : ansiGround callback { ctx with escLevel := .none } (0x1b : UInt8).toNat
        = ({ ctx with escLevel := .esc }, []) := by
      rw [ansiGround]
      exact hcheck
    rcases hlevel with hlevel | hlevel
    · have hsame : ({ ctx with escLevel := .none } : Ctx) = ctx := by rw [← hlevel]
      rw [hsame] at hground
      rw [ansiHandle, hlevel]
      exact hground
    · rw [ansiHandle, hlevel]
      exact hground
  simp only [handleAll, hesc]
  rfl

end Moves

/-- A cursor sequence does what ECMA-48 says, and does not scroll, exactly when
the eight-bit readings of its first two parameters make no difference on the
way to the edge of the screen. -/
theorem cursorSeq_iff (t : Terminal) {w h : Nat} (hw : 1 ≤ w ∧ w < 2 ^ 16)
    (hh : 1 ≤ h ∧ h < 2 ^ 16) (ctx : Ctx) (hin : InRange w h ctx)
    (hlevel : ctx.escLevel.Outside) (seq : CursorSeq) (params : List (List (Fin 10)))
    (hsmall : Small params) :
    (((handleAll t.callback (seq.bytes params) ctx).1.curX,
        (handleAll t.callback (seq.bytes params) ctx).1.curY)
          = seq.target w h ctx.curX ctx.curY (paramOf params 0) (paramOf params 1)
        ∧ scrolls (handleAll (noted t.callback) (seq.bytes params) ctx).2 = [])
      ↔ seq.Reads w h ctx.curX ctx.curY (paramOf params 0) (paramOf params 1)
          (valueAt params 0 % 256) (if params.length < 2 then 1 else valueAt params 1 % 256) := by
  obtain ⟨ctx₁, hcol₁, hstart⟩ := collects_start hin hlevel
  obtain ⟨done, p, ctx₂, hzero, hone, hlen, hsmall₂, hcol₂, hparams⟩ :=
    handleAll_params params hsmall hcol₁
  -- the run up to the final byte
  have hrun : ∀ callback, handleAll callback (0x1b :: 0x5b :: paramBytes params) ctx
      = (ctx₂, []) := by
    intro callback
    rw [show (0x1b :: 0x5b :: paramBytes params) = [0x1b, 0x5b] ++ paramBytes params from rfl,
      handleAll_append, hstart callback]
    simp only [hparams callback, List.append_nil]
  have hin₂ : InRange w h ctx₂ := by
    have hlast := handleAll_inRange t.draws hw.1 hh (0x1b :: 0x5b :: paramBytes params) ctx hin
    rw [hrun] at hlast
    exact hlast
  have hend : InRange w h { ctx₂.endArg with escLevel := .none } := hin₂.endArg.level .none
  have hx : ({ ctx₂.endArg with escLevel := .none } : Ctx).curX = ctx.curX :=
    (endArg_cur ctx₂).1.trans hcol₂.curX
  have hy : ({ ctx₂.endArg with escLevel := .none } : Ctx).curY = ctx.curY :=
    (endArg_cur ctx₂).2.trans hcol₂.curY
  have hfirst : ({ ctx₂.endArg with escLevel := .none } : Ctx).arg 0 = valueAt params 0 % 256 := by
    rw [hzero]
    exact (hcol₂.arg hsmall₂ 0).trans (if_pos (Nat.succ_pos _))
  have hsecond : ({ ctx₂.endArg with escLevel := .none } : Ctx).arg 1
      = if params.length < 2 then 1 else valueAt params 1 % 256 := by
    refine (hcol₂.arg hsmall₂ 1).trans ?_
    by_cases hdone : done = []
    · rw [if_pos (hlen.mpr hdone), hdone, if_neg (by decide)]
    · rw [if_neg (fun hlt => hdone (hlen.mp hlt)), hone,
        if_pos (Nat.succ_lt_succ (List.length_pos_iff.mpr hdone))]
  have hrow : (seq.target w h ctx.curX ctx.curY (paramOf params 0) (paramOf params 1)).2 < h :=
    seq.target_lt hin.curY _ _
  rw [CursorSeq.bytes, handleAll_concat, handleAll_concat, hrun, hrun, List.nil_append,
    ansiHandle_final hcol₂.level, ansiHandle_final hcol₂.level]
  refine (checkCursor_lands (hend.csiSwitch seq.final.toNat) hrow).trans ?_
  have hswitch := csiSwitch_iff hend hw hh (Nat.le_max_left 1 (valueAt params 0))
    (Nat.le_max_left 1 (valueAt params 1)) seq
  rw [hfirst, hsecond, hx, hy] at hswitch
  exact hswitch

/-- `CSI 3 B` in the top line of a text-mode screen. -/
theorem cursorSeq_iff_down :
    (((handleAll tmAnsiCallback (CursorSeq.cud.bytes [[3]]) tmCtx).1.curX,
        (handleAll tmAnsiCallback (CursorSeq.cud.bytes [[3]]) tmCtx).1.curY)
          = CursorSeq.cud.target 80 25 0 0 3 1
        ∧ scrolls (handleAll (noted tmAnsiCallback) (CursorSeq.cud.bytes [[3]]) tmCtx).2 = [])
      ↔ CursorSeq.cud.Reads 80 25 0 0 3 1 3 1 :=
  cursorSeq_iff .tm (by decide) (by decide) tmCtx tmCtx_inRange (.inl rfl) .cud
    [[3]] (by decide)

/-- `CSI C` does not move the cursor, and should by a column. -/
theorem cursorSeq_default :
    ¬ ∀ (t : Terminal) (w h : Nat), 1 ≤ w ∧ w < 2 ^ 16 → 1 ≤ h ∧ h < 2 ^ 16 →
      ∀ ctx : Ctx, InRange w h ctx → ctx.escLevel.Outside →
      ∀ (seq : CursorSeq) (params : List (List (Fin 10))), Small params →
        ((handleAll t.callback (seq.bytes params) ctx).1.curX,
          (handleAll t.callback (seq.bytes params) ctx).1.curY)
            = seq.target w h ctx.curX ctx.curY (paramOf params 0) (paramOf params 1)
          ∧ scrolls (handleAll (noted t.callback) (seq.bytes params) ctx).2 = [] := by
  intro hall
  have hmoves := hall .tm 80 25 (by decide) (by decide) tmCtx tmCtx_inRange (.inl rfl) .cuf
    [] (by decide)
  exact absurd hmoves.1 (by decide)

end Ansi

end Shitos
