import Mathlib.Data.Nat.Digits.Lemmas
import Mathlib.Data.List.Induction
import Mathlib.Logic.Function.Basic
import Mathlib.Tactic.SplitIfs
import Shitos.Mem

/-!
# `tm_printf` of the boot loader

The three number conversions of stage2's `tm_printf` have a loop each. It
fills the static buffer `buf` from its start with the digits, the last one
first, and empties it downwards. The numeral is what is said to come out: the
digits in the base, the first one first (`numeral`).

`%u` and `%o` print the numeral (`emitDown_stored`); `%x` decrements its
pointer after the comparison, so it prints the byte before `buf` as well. A
32-bit number has at most ten decimal digits, but eleven octal ones from
2^30 on.
-/

namespace Shitos

namespace TmIo

/-! ## The screen -/

def tmWidth : Nat := 80

def tmHeight : Nat := 25

/-- `tm_memory`, `tm_cursor`, `tm_line_reset` and `tm_color`. -/
structure Tm where
  memory : Nat → Nat
  cursor : Nat
  lineReset : Nat
  color : Nat

def tmScroll (memory : Nat → Nat) : Nat → Nat := fun i =>
  if i < (tmHeight - 1) * tmWidth then memory (i + tmWidth)
  else if i < tmHeight * tmWidth then 0
  else memory i

/-- The control characters: where the cursor goes. -/
def tmControl (tm : Tm) (c : Nat) : Nat :=
  let x := tm.cursor % tmWidth
  let y := tm.cursor / tmWidth % 2 ^ 8
  let (x, y) :=
    if c = 0x08 then (if x ≠ 0 then x - 1 else x, y)
    else if c = 0x09 then ((x + 8) / 8 * 8, y)
    else if c = 0x0a then (tm.lineReset, (y + 1) % 2 ^ 8)
    else if c = 0x0d then (tm.lineReset, y)
    else (x, y)
  (x + y * tmWidth) % 2 ^ 16

def tmPutc (tm : Tm) (c : Nat) : Tm :=
  let tm :=
    if c < 0x20 then { tm with cursor := tmControl tm c }
    else { tm with
      memory := Function.update tm.memory tm.cursor (c ||| tm.color <<< 8)
      cursor := (tm.cursor + 1) % 2 ^ 16 }
  if tm.cursor ≥ tmWidth * tmHeight then
    { tm with memory := tmScroll tm.memory, cursor := tm.cursor - tmWidth }
  else tm

/-- What `tm_printf` does to the screen: the calls of `tm_putc` and the stores
to `tm_color`. -/
inductive Out where
  | putc (c : Nat)
  | color (c : Nat)
deriving DecidableEq

def Tm.shown (tm : Tm) : List Out → Tm
  | [] => tm
  | .putc c :: out => (tmPutc tm c).shown out
  | .color c :: out => { tm with color := c }.shown out

/-! ## Numbers -/

/-- The conversions `%u`, `%x` and `%o`. -/
inductive Conv where
  | u
  | x
  | o
deriving DecidableEq

namespace Conv

def char : Conv → Nat
  | .u => 'u'.toNat
  | .x => 'x'.toNat
  | .o => 'o'.toNat

def radix : Conv → Nat
  | .u => 10
  | .x => 16
  | .o => 8

theorem one_lt_radix (conv : Conv) : 1 < conv.radix := by
  cases conv <;> decide

def alphanum : List Nat :=
  [0x30, 0x31, 0x32, 0x33, 0x34, 0x35, 0x36, 0x37,
   0x38, 0x39, 0x61, 0x62, 0x63, 0x64, 0x65, 0x66]

def digit : Conv → Nat → Nat
  | .u, d => 0x30 + d
  | .x, d => (alphanum[d]?).getD 0
  | .o, d => 0x30 + d

/-- The `do` loop: the digits of `u` from the address `s` on. It returns the
memory, the pointer after the last digit and the addresses it stored to. -/
def pushDigits (conv : Conv) (u s : Nat) (m : Mem) : Mem × Nat × List Nat :=
  let m := wr8 m s (conv.digit (u % conv.radix))
  if u / conv.radix = 0 then (m, s + 1, [s])
  else
    let (m, s', stored) := conv.pushDigits (u / conv.radix) (s + 1) m
    (m, s', s :: stored)
termination_by u
decreasing_by
  rename_i hne
  exact Nat.div_lt_self (Nat.pos_of_ne_zero fun hz => hne (by rw [hz, Nat.zero_div]))
    conv.one_lt_radix

end Conv

/-- `while(--s >= buf) tm_putc(*s);` -/
def emitDown (m : Mem) (buf : Nat) : Nat → List Out
  | 0 => []
  | s + 1 => if s ≥ buf then .putc (rd8 m s) :: emitDown m buf s else []

/-- `while(s-- >= buf) tm_putc(*s);` -/
def emitDownPost (m : Mem) (buf : Nat) : Nat → List Out
  | 0 => []
  | s + 1 => if s + 1 ≥ buf then .putc (rd8 m s) :: emitDownPost m buf s else []

/-- What a call has done so far: the memory, the addresses stored to, and the
output. -/
structure Run where
  mem : Mem
  stored : List Nat
  out : List Out

/-- The case of a number conversion. -/
def Conv.print (conv : Conv) (buf u : Nat) (m : Mem) : Run :=
  let (m, s, stored) := conv.pushDigits u buf m
  match conv with
  | .u => ⟨m, stored, emitDown m buf s⟩
  | .x => ⟨m, stored, emitDownPost m buf s⟩
  | .o => ⟨m, stored, emitDown m buf s⟩

/-! ## `tm_printf` -/

/-- What `va_arg` can give: a number, or the characters of a string. -/
inductive VaArg where
  | int (n : Nat)
  | str (s : List Nat)

/-- The value of a hexadecimal digit. The parameter is a signed `char`. -/
def chtoi (c : Nat) : Nat :=
  if 'a'.toNat ≤ c ∧ c < 2 ^ 7 then c - 'a'.toNat + 0xa else (c + 2 ^ 8 - '0'.toNat) % 2 ^ 8

/-- What a call does after `run`. -/
def Run.andThen (run rest : Run) : Run := ⟨rest.mem, run.stored ++ rest.stored, run.out ++ rest.out⟩

/-- The switch over the character after `%`: what it does, and the format and
the arguments that are left. There is no result where an argument is missing,
or the format ends in the middle of `%H`. -/
def tmConv (buf c : Nat) (fmt : List Nat) (args : List VaArg) (m : Mem) :
    Option (Run × List Nat × List VaArg) :=
  if c = 'c'.toNat then
    match args with
    | .int n :: args => some (⟨m, [], [.putc (n % 2 ^ 8)]⟩, fmt, args)
    | _ => none
  else if c = 's'.toNat then
    match args with
    | .str s :: args => some (⟨m, [], s.map .putc⟩, fmt, args)
    | _ => none
  else if c = 'u'.toNat then
    match args with
    | .int u :: args => some (Conv.u.print buf u m, fmt, args)
    | _ => none
  else if c = 'x'.toNat then
    match args with
    | .int u :: args => some (Conv.x.print buf u m, fmt, args)
    | _ => none
  else if c = 'o'.toNat then
    match args with
    | .int u :: args => some (Conv.o.print buf u m, fmt, args)
    | _ => none
  else if c = 'h'.toNat then
    match args with
    | .int n :: args => some (⟨m, [], [.color (n % 2 ^ 8)]⟩, fmt, args)
    | _ => none
  else if c = 'H'.toNat then
    match fmt with
    | a :: b :: fmt =>
      let color := chtoi a <<< 4 % 2 ^ 8
      some (⟨m, [], [.color color, .color (color ||| chtoi b)]⟩, fmt, args)
    | _ => none
  else some (⟨m, [], [.putc c]⟩, fmt, args)

/-- One turn of the loop of `tm_printf`. -/
def tmTurn (buf c : Nat) (fmt : List Nat) (args : List VaArg) (m : Mem) :
    Option (Run × List Nat × List VaArg) :=
  if c = '%'.toNat then
    match fmt with
    | [] => none
    | c :: fmt => tmConv buf c fmt args m
  else some (⟨m, [], [.putc c]⟩, fmt, args)

/-- The loop of `tm_printf`, for at most `fuel` turns. -/
def tmLoop (buf : Nat) : Nat → List Nat → List VaArg → Mem → Option Run
  | _, [], _, m => some ⟨m, [], []⟩
  | 0, _ :: _, _, _ => none
  | fuel + 1, c :: fmt, args, m =>
      (tmTurn buf c fmt args m).bind fun (run, fmt, args) =>
        (tmLoop buf fuel fmt args run.mem).map run.andThen

/-- `tm_printf`. Every turn takes a character off the format. -/
def tmPrintf (buf : Nat) (fmt : List Nat) (args : List VaArg) (m : Mem) : Option Run :=
  tmLoop buf fmt.length fmt args m

theorem tmConv_length {buf c : Nat} {fmt fmt' : List Nat} {args args' : List VaArg} {m : Mem}
    {run : Run} (hconv : tmConv buf c fmt args m = some (run, fmt', args')) :
    fmt'.length ≤ fmt.length := by
  unfold tmConv at hconv
  split_ifs at hconv
  all_goals try split at hconv
  all_goals cases hconv
  -- only `%H` reads on in the format
  all_goals first | exact Nat.le_refl _ | exact Nat.le_add_right fmt'.length 2

theorem tmTurn_length {buf c : Nat} {fmt fmt' : List Nat} {args args' : List VaArg} {m : Mem}
    {run : Run} (hturn : tmTurn buf c fmt args m = some (run, fmt', args')) :
    fmt'.length ≤ fmt.length := by
  unfold tmTurn at hturn
  split_ifs at hturn
  · cases fmt with
    | nil => cases hturn
    | cons c fmt => exact Nat.le_succ_of_le (tmConv_length hturn)
  · cases hturn
    exact Nat.le_refl _

/-- `tm_printf` comes to an end: more turns make no difference. -/
theorem tmLoop_enough (buf : Nat) : ∀ (fuel : Nat) (fmt : List Nat) (args : List VaArg) (m : Mem),
    fmt.length ≤ fuel → tmLoop buf fuel fmt args m = tmPrintf buf fmt args m := by
  intro fuel
  induction fuel using Nat.strong_induction_on with
  | _ fuel ih =>
      intro fmt args m hle
      cases fmt with
      | nil => cases fuel <;> rfl
      | cons c fmt =>
          cases fuel with
          | zero => exact absurd hle (Nat.not_succ_le_zero _)
          | succ fuel =>
              have hle' := Nat.le_of_succ_le_succ hle
              rw [tmPrintf, List.length_cons, tmLoop, tmLoop]
              cases hturn : tmTurn buf c fmt args m with
              | none => rfl
              | some next =>
                  obtain ⟨run, fmt', args'⟩ := next
                  have hlen := tmTurn_length hturn
                  have hfuel := ih fuel (Nat.lt_succ_self _) fmt' args' run.mem (hlen.trans hle')
                  simp only [Option.bind_some, hfuel]
                  rcases Nat.eq_or_lt_of_le hle' with heq | hlt
                  · rw [heq, hfuel]
                  · rw [ih fmt.length (Nat.lt_succ_of_lt hlt) _ _ _ hlen]

/-! ## What a number looks like -/

namespace Conv

/-- The digits of `u`, the last one first: a single 0 for zero. -/
def digitsOf (conv : Conv) (u : Nat) : List Nat := if u = 0 then [0] else Nat.digits conv.radix u

/-- The numeral of `u`. -/
def numeral (conv : Conv) (u : Nat) : List Nat :=
  ((conv.digitsOf u).map fun d => (Nat.digitChar d).toNat).reverse

/-- The digits of `u` are in the memory from `s` on. -/
def Holds (conv : Conv) (m : Mem) (s : Nat) (ds : List Nat) : Prop :=
  ∀ i (hi : i < ds.length), rd8 m (s + i) = conv.digit ds[i]

variable {conv : Conv} {m m' : Mem} {buf s u : Nat}

theorem digitsOf_of_lt (hlt : u / conv.radix = 0) : conv.digitsOf u = [u % conv.radix] := by
  rw [digitsOf]
  split_ifs with hu
  · rw [hu, Nat.zero_mod]
  · rw [Nat.digits_def' conv.one_lt_radix (Nat.pos_of_ne_zero hu), hlt, Nat.digits_zero]

theorem digitsOf_of_ne (hne : u / conv.radix ≠ 0) :
    conv.digitsOf u = u % conv.radix :: conv.digitsOf (u / conv.radix) := by
  have hu : u ≠ 0 := fun hz => hne (by rw [hz, Nat.zero_div])
  rw [digitsOf, digitsOf, if_neg hu, if_neg hne,
    Nat.digits_def' conv.one_lt_radix (Nat.pos_of_ne_zero hu)]

theorem digitsOf_ne_nil (conv : Conv) (u : Nat) : conv.digitsOf u ≠ [] := by
  rw [digitsOf]
  split_ifs with hu
  · exact List.cons_ne_nil 0 []
  · exact Nat.digits_ne_nil_iff_ne_zero.mpr hu

/-- The digits fit in `k` bytes exactly when the number is below the power. -/
theorem length_digitsOf_le {k : Nat} (hk : 0 < k) :
    (conv.digitsOf u).length ≤ k ↔ u < conv.radix ^ k := by
  rw [digitsOf]
  split_ifs with hu
  · exact iff_of_true hk (hu ▸ Nat.pow_pos (Nat.zero_lt_of_lt conv.one_lt_radix))
  · exact Nat.digits_length_le_iff conv.one_lt_radix u

/-- The characters of the three loops. -/
theorem digit_eq (conv : Conv) {d : Nat} (hd : d < conv.radix) :
    conv.digit d = (Nat.digitChar d).toNat ∧ conv.digit d < 2 ^ 8 := by
  have hall : ∀ d < conv.radix, conv.digit d = (Nat.digitChar d).toNat ∧ conv.digit d < 2 ^ 8 := by
    cases conv <;> decide
  exact hall d hd

theorem digitsOf_lt {d : Nat} (hd : d ∈ conv.digitsOf u) : d < conv.radix := by
  rw [digitsOf] at hd
  split_ifs at hd with hu
  · rw [List.mem_singleton.mp hd]
    exact Nat.zero_lt_of_lt conv.one_lt_radix
  · exact Nat.digits_lt_base conv.one_lt_radix hd

theorem numeral_eq (conv : Conv) (u : Nat) :
    conv.numeral u = ((conv.digitsOf u).map conv.digit).reverse :=
  congrArg List.reverse
    (List.map_congr_left fun _ hd => (conv.digit_eq (digitsOf_lt hd)).1.symm)

/-- The first loop: it stores the digits, one after the other, and nothing
else. -/
theorem pushDigits_spec (conv : Conv) (u s : Nat) (m : Mem) :
    ∃ m', conv.pushDigits u s m
        = (m', s + (conv.digitsOf u).length, List.range' s (conv.digitsOf u).length)
      ∧ conv.Holds m' s (conv.digitsOf u)
      ∧ ∀ a, a < s ∨ s + (conv.digitsOf u).length ≤ a → m' a = m a := by
  induction u using Nat.strong_induction_on generalizing s m with
  | _ u ih =>
      have hdigit := (conv.digit_eq (Nat.mod_lt u (Nat.zero_lt_of_lt conv.one_lt_radix))).2
      have hfirst := rd8_wr8_same m (a := s) hdigit
      rw [pushDigits]
      by_cases hlast : u / conv.radix = 0
      · rw [if_pos hlast, digitsOf_of_lt hlast]
        refine ⟨_, rfl, fun i hi => ?_, fun a ha => wr8_apply_of_ne ?_⟩
        · obtain rfl : i = 0 := Nat.lt_one_iff.mp hi
          exact hfirst
        · rw [List.length_singleton] at ha
          omega
      · have hlt : u / conv.radix < u :=
          Nat.div_lt_self (Nat.pos_of_ne_zero fun hz => hlast (by rw [hz, Nat.zero_div]))
            conv.one_lt_radix
        obtain ⟨m', heq, hholds, hframe⟩ := ih _ hlt (s + 1) (wr8 m s (conv.digit (u % conv.radix)))
        rw [if_neg hlast, digitsOf_of_ne hlast]
        simp only [heq]
        refine ⟨m', ?_, fun i hi => ?_, fun a ha => ?_⟩
        · rw [List.length_cons, List.range'_succ, Nat.add_right_comm, Nat.add_assoc]
        · cases i with
          | zero =>
              rw [rd8, Nat.add_zero, hframe s (.inl (Nat.lt_succ_self s))]
              exact hfirst
          | succ i =>
              have hnext := hholds i (Nat.lt_of_succ_lt_succ hi)
              rw [Nat.add_assoc, Nat.add_comm 1 i] at hnext
              exact hnext
        · rw [List.length_cons] at ha
          rw [hframe a (by omega), wr8_apply_of_ne (by omega)]

/-- The second loop empties the buffer downwards. -/
theorem emitDown_stored : ∀ ds : List Nat, conv.Holds m buf ds →
    emitDown m buf (buf + ds.length) = (ds.map conv.digit).reverse.map .putc := by
  intro ds
  induction ds using List.reverseRecOn with
  | nil =>
      intro _
      cases buf with
      | zero => rfl
      | succ buf => exact if_neg (Nat.not_succ_le_self buf)
  | append_singleton ds d ih =>
      intro hholds
      have hinit : conv.Holds m buf ds := fun i hi => by
        rw [hholds i (by rw [List.length_append]; omega), List.getElem_append_left hi]
      have hlast : rd8 m (buf + ds.length) = conv.digit d := by
        rw [hholds ds.length (by rw [List.length_append, List.length_singleton]; omega),
          List.getElem_concat_length rfl]
      rw [List.length_append, List.length_singleton, ← Nat.add_assoc, emitDown,
        if_pos (Nat.le_add_right _ _), ih hinit, hlast]
      simp only [List.map_append, List.map_cons, List.map_nil, List.reverse_append,
        List.reverse_cons, List.reverse_nil, List.nil_append, List.cons_append]

/-- With the comparison before the decrement, one byte more comes out. -/
theorem emitDownPost_eq (hbuf : 0 < buf) : ∀ n,
    emitDownPost m buf (buf + n) = emitDown m buf (buf + n) ++ [.putc (rd8 m (buf - 1))] := by
  intro n
  induction n with
  | zero =>
      obtain ⟨b, rfl⟩ : ∃ b, buf = b + 1 := ⟨buf - 1, (Nat.succ_pred_eq_of_pos hbuf).symm⟩
      have hend : emitDownPost m (b + 1) b = [] := by
        cases b with
        | zero => rfl
        | succ b => exact if_neg (Nat.not_succ_le_self (b + 1))
      rw [Nat.add_zero, emitDownPost, if_pos (Nat.le_refl _), hend, emitDown,
        if_neg (Nat.not_succ_le_self b)]
      rfl
  | succ n ih =>
      rw [← Nat.add_assoc, emitDownPost, if_pos (Nat.le_trans (Nat.le_add_right buf n)
        (Nat.le_succ _)), ih, emitDown, if_pos (Nat.le_add_right buf n)]
      rfl

/-- What the case of a conversion prints and stores to. -/
theorem print_spec (hbuf : 0 < buf) (conv : Conv) (u : Nat) (m : Mem) :
    (conv.print buf u m).stored = List.range' buf (conv.digitsOf u).length
      ∧ (conv.print buf u m).out = (conv.numeral u).map .putc
        ++ if conv = .x then [.putc (rd8 m (buf - 1))] else [] := by
  obtain ⟨m', heq, hholds, hframe⟩ := conv.pushDigits_spec u buf m
  have hdown := emitDown_stored _ hholds
  rw [← numeral_eq] at hdown
  have hbefore : rd8 m' (buf - 1) = rd8 m (buf - 1) :=
    congrArg UInt8.toNat (hframe (buf - 1) (.inl (Nat.sub_one_lt_of_lt hbuf)))
  cases conv with
  | u =>
      simp only [print, heq]
      exact ⟨trivial, hdown.trans (List.append_nil _).symm⟩
  | x =>
      simp only [print, heq, emitDownPost_eq hbuf, hdown, hbefore]
      exact ⟨trivial, rfl⟩
  | o =>
      simp only [print, heq]
      exact ⟨trivial, hdown.trans (List.append_nil _).symm⟩

end Conv

/-- A conversion in a format prints its number before all that follows. -/
theorem tmPrintf_conv (buf : Nat) (conv : Conv) (fmt : List Nat) (u : Nat) (args : List VaArg)
    (m : Mem) : tmPrintf buf ('%'.toNat :: conv.char :: fmt) (.int u :: args) m
      = (tmPrintf buf fmt args (conv.print buf u m).mem).map (conv.print buf u m).andThen := by
  have hturn : tmLoop buf (fmt.length + 2) ('%'.toNat :: conv.char :: fmt) (.int u :: args) m
      = (tmLoop buf (fmt.length + 1) fmt args (conv.print buf u m).mem).map
        (conv.print buf u m).andThen := by
    cases conv <;> rfl
  rw [tmLoop_enough buf _ fmt _ _ (Nat.le_succ _)] at hturn
  exact hturn

/-- Characters that are not control characters, and do not reach the end of
the screen, are put in the cells from the cursor on. -/
theorem shown_putc : ∀ (cs : List Nat) (tm : Tm), (∀ c ∈ cs, 0x20 ≤ c) →
    tm.cursor + cs.length < tmWidth * tmHeight → ∃ memory,
      tm.shown (cs.map .putc) = { tm with memory := memory, cursor := tm.cursor + cs.length }
      ∧ (∀ i (hi : i < cs.length), memory (tm.cursor + i) = cs[i] ||| tm.color <<< 8)
      ∧ ∀ i, i < tm.cursor ∨ tm.cursor + cs.length ≤ i → memory i = tm.memory i
  | [], tm, _, _ => ⟨tm.memory, rfl, fun i hi => absurd hi (Nat.not_lt_zero i), fun _ _ => rfl⟩
  | c :: cs, tm, hcs, hfit => by
      rw [List.length_cons] at hfit
      obtain ⟨hc, hcs⟩ := List.forall_mem_cons.mp hcs
      have hcursor : (tm.cursor + 1) % 2 ^ 16 = tm.cursor + 1 :=
        Nat.mod_eq_of_lt (by simp only [tmWidth, tmHeight] at hfit; omega)
      have hputc : tmPutc tm c = { tm with
          memory := Function.update tm.memory tm.cursor (c ||| tm.color <<< 8)
          cursor := tm.cursor + 1 } := by
        simp only [tmPutc, if_neg (Nat.not_lt_of_le hc), hcursor]
        exact if_neg (by omega)
      obtain ⟨memory, heq, hcells, hframe⟩ := shown_putc cs (tmPutc tm c) hcs
        (by rw [hputc]; simp only; omega)
      rw [hputc] at heq hcells hframe
      refine ⟨memory, ?_, fun i hi => ?_, fun i hi => ?_⟩
      · rw [List.map_cons, Tm.shown, hputc, heq]
        simp only [List.length_cons, Nat.add_assoc, Nat.add_comm 1]
      · cases i with
        | zero =>
            rw [Nat.add_zero, hframe tm.cursor (.inl (Nat.lt_succ_self _))]
            exact Function.update_self ..
        | succ i =>
            have hnext := hcells i (Nat.lt_of_succ_lt_succ hi)
            rw [Nat.add_assoc, Nat.add_comm 1 i] at hnext
            exact hnext
      · rw [List.length_cons] at hi
        rw [hframe i (by simp only; omega)]
        exact Function.update_of_ne (by omega) _ _

/-- A numeral on the screen: one cell a digit. -/
theorem shown_numeral (conv : Conv) (u : Nat) (tm : Tm)
    (hfit : tm.cursor + (conv.numeral u).length < tmWidth * tmHeight) :
    ∃ memory, tm.shown ((conv.numeral u).map .putc)
        = { tm with memory := memory, cursor := tm.cursor + (conv.numeral u).length }
      ∧ ∀ i (hi : i < (conv.numeral u).length),
        memory (tm.cursor + i) = (conv.numeral u)[i] ||| tm.color <<< 8 := by
  have hprintable : ∀ c ∈ conv.numeral u, 0x20 ≤ c := by
    intro c hc
    obtain ⟨d, hd, rfl⟩ := List.mem_map.mp (List.mem_reverse.mp hc)
    have hall : ∀ d < conv.radix, 0x20 ≤ (Nat.digitChar d).toNat := by
      cases conv <;> decide
    exact hall d (Conv.digitsOf_lt hd)
  obtain ⟨memory, heq, hcells, -⟩ := shown_putc _ tm hprintable hfit
  exact ⟨memory, heq, hcells⟩

/-- The number is printed as its numeral, and all digits are stored in the ten
bytes of `buf`. -/
def Exact (conv : Conv) (buf u : Nat) (run : Run) : Prop :=
  run.out = (conv.numeral u).map .putc ∧ ∀ a ∈ run.stored, buf ≤ a ∧ a < buf + 10

/-- `%x` never prints the numeral alone, the others do, and ten digits are
enough below the tenth power of the base. -/
theorem tmPrintf_exact {buf : Nat} (hbuf : 0 < buf) (conv : Conv) (u : Nat) (m : Mem) :
    (∃ run, tmPrintf buf ['%'.toNat, conv.char] [.int u] m = some run ∧ Exact conv buf u run)
      ↔ conv ≠ .x ∧ u < conv.radix ^ 10 := by
  obtain ⟨run, heq, hout, hstored⟩ : ∃ run,
      tmPrintf buf ['%'.toNat, conv.char] [.int u] m = some run
      ∧ run.out = (conv.print buf u m).out ∧ run.stored = (conv.print buf u m).stored := by
    refine ⟨_, tmPrintf_conv buf conv [] u [] m, ?_, ?_⟩
    · exact List.append_nil _
    · exact List.append_nil _
  obtain ⟨hsaved, hprinted⟩ := Conv.print_spec hbuf conv u m
  have hten : (∀ a ∈ run.stored, buf ≤ a ∧ a < buf + 10) ↔ u < conv.radix ^ 10 := by
    rw [← Conv.length_digitsOf_le (by decide), hstored, hsaved]
    constructor
    · intro hin
      have hpos := List.length_pos_iff.mpr (conv.digitsOf_ne_nil u)
      have hlast := (hin (buf + (conv.digitsOf u).length - 1)
        (List.mem_range'_1.mpr ⟨by omega, by omega⟩)).2
      omega
    · intro hle a ha
      have hrange := List.mem_range'_1.mp ha
      omega
  have hexact : Exact conv buf u run ↔ conv ≠ .x ∧ u < conv.radix ^ 10 := by
    rw [Exact, hten, hout, hprinted, List.append_right_eq_self]
    split_ifs with hx
    · exact iff_of_false (fun hbad => hbad.1) fun hbad => hbad.1 hx
    · exact and_congr_left fun _ => iff_of_true rfl hx
  simp only [heq, Option.some.injEq, exists_eq_left', hexact]

/-- A conversion of `tm_printf` is exact for `%u`, for `%o` below 2^30, and
never for `%x`. -/
theorem tmPrintf_exact_iff {buf : Nat} (hbuf : 0 < buf) (conv : Conv) {u : Nat} (hu : u < 2 ^ 32)
    (m : Mem) :
    (∃ run, tmPrintf buf ['%'.toNat, conv.char] [.int u] m = some run ∧ Exact conv buf u run)
      ↔ conv = .u ∨ (conv = .o ∧ u < 2 ^ 30) := by
  rw [tmPrintf_exact hbuf]
  cases conv with
  | u => exact iff_of_true ⟨by decide, Nat.lt_of_lt_of_le hu (by decide)⟩ (.inl rfl)
  | x => exact iff_of_false (fun hbad => hbad.1 rfl) (by rintro (hbad | ⟨hbad, -⟩) <;> cases hbad)
  | o => simp [Conv.radix]

theorem tmPrintf_exact_mode :
    ∃ run, tmPrintf 0x8000 ['%'.toNat, 'o'.toNat] [.int 493] (fun _ => 0) = some run
      ∧ Exact .o 0x8000 493 run :=
  (tmPrintf_exact_iff (by decide) .o (by decide) _).mpr (.inr ⟨rfl, by decide⟩)

/-- `%x` prints the byte before `buf` after the 0. -/
theorem tmPrintf_not_exact :
    ¬ ∀ buf, 0 < buf → ∀ (conv : Conv) (u : Nat), u < 2 ^ 32 → ∀ m : Mem,
      ∃ run, tmPrintf buf ['%'.toNat, conv.char] [.int u] m = some run ∧ Exact conv buf u run := by
  intro hall
  exact ((tmPrintf_exact (by decide) .x 0 _).mp
    (hall 0x8000 (by decide) .x 0 (by decide) fun _ => 0)).1 rfl

end TmIo

end Shitos
