import Mathlib.Logic.Function.Basic
import Shitos.Snprintf
import Shitos.Syscall

/-!
# printf

`printf_core` reads a format from left to right: literal text with its `%%`, then one
conversion with its flags, width, precision and type, and so on. `vfprintf` runs it
twice, the first time without a FILE. That pass finds out the types of the arguments of a
format that numbers them, and reads these; of any other format it only reads the literal
text before the first conversion.

A format is the bytes before its NUL, and the arguments are the words on the stack that
`va_arg` takes. How floating point is written (`fmt_fp`) is not known here.
-/

namespace Shitos

namespace Printf

open Stdio Syscall

/-- A word of the stack. -/
abbrev Word := BitVec 32

/-- The bits of `fl`. -/
structure Flags where
  alt : Bool
  zero : Bool
  left : Bool
  padPos : Bool
  markPos : Bool
  grouped : Bool
deriving DecidableEq

def Flags.none : Flags := ⟨false, false, false, false, false, false⟩

/-- The flag `-` takes the flag `0` away. -/
def Flags.normal (fl : Flags) : Flags := if fl.left then { fl with zero := false } else fl

/-- The types of arguments, from `CHAR` on. -/
inductive ArgType
  | char | uchar | short | ushort | int | uint | long | ulong | llong | ullong
  | imax | umax | ptr | pdiff | uiptr | sizet | dbl | ldbl
deriving DecidableEq

/-- The states before them, `BARE` to `JPRE`. -/
inductive Pre
  | bare | l | ll | h | hh | bigl | zt | j
deriving DecidableEq

/-- An entry of `states`. -/
inductive State
  | none
  | pre (p : Pre)
  | type (ty : ArgType)
deriving DecidableEq

/-- `union arg`. The bytes of a floating point number are apart. -/
structure Arg where
  i : BitVec 64
  f : List Word

def Arg.zero : Arg := ⟨0, []⟩

/-- `arg.p`, the lower half of `arg.i`. -/
def Arg.p (arg : Arg) : Nat := (arg.i.setWidth 32).toNat

/-! ## Reading the format -/

def isdigit (c : UInt8) : Bool := c - 48 < 10

/-- The conversions that take an argument of a signed type and of an unsigned one. -/
def integers (signed unsigned : ArgType) (c : UInt8) : State :=
  match c with
  | 100 | 105 => .type signed             -- d i
  | 117 | 111 | 120 | 88 => .type unsigned -- u o x X
  | _ => .none

def floats (ty : ArgType) (c : UInt8) : State :=
  match c with
  | 101 | 102 | 103 | 97 | 69 | 70 | 71 | 65 => .type ty -- e f g a E F G A
  | _ => .none

/-- The table `states`. -/
def states (st : Pre) (c : UInt8) : State :=
  match st, c with
  | .bare, 99 => .type .char    -- c
  | .bare, 115 => .type .ptr    -- s
  | .bare, 112 => .type .uiptr  -- p
  | .bare, 108 => .pre .l       -- l
  | .bare, 104 => .pre .h       -- h
  | .bare, 76 => .pre .bigl     -- L
  | .bare, 122 => .pre .zt      -- z
  | .bare, 116 => .pre .zt      -- t
  | .bare, 106 => .pre .j       -- j
  | .l, 108 => .pre .ll
  | .h, 104 => .pre .hh
  | _, 110 => .type .ptr        -- n
  | .bare, c => if integers .int .uint c = .none then floats .dbl c else integers .int .uint c
  | .l, c => if integers .long .ulong c = .none then floats .dbl c else integers .long .ulong c
  | .ll, c => integers .llong .ullong c
  | .h, c => integers .short .ushort c
  | .hh, c => integers .char .uchar c
  | .bigl, c => floats .ldbl c
  | .zt, c => integers .pdiff .sizet c
  | .j, c => integers .imax .umax c

/-- `OOB`. -/
def oob (c : UInt8) : Bool := c < 65 || 122 < c

/-- The loop over `states`: the type of the argument, the state before it, the letter of
the conversion and the rest of the format. -/
def machine (st : Pre) : List UInt8 → Option (ArgType × Pre × UInt8 × List UInt8)
  | [] => none
  | c :: s =>
      if oob c then none
      else match states st c with
        | .none => none
        | .pre st' => machine st' s
        | .type ty => some (ty, st, c, s)

/-- `getint`. -/
def getint (i : Int) : List UInt8 → Int × List UInt8
  | [] => (i, [])
  | c :: s =>
      if isdigit c then
        let d : Int := (c - 48).toNat
        if i < 0 ∨ i > intMax / 10 ∨ d > intMax - 10 * i then getint (-1) s
        else getint (10 * i + d) s
      else (i, c :: s)

/-- A number of an argument, a digit and a `$`. -/
def position : List UInt8 → Option (Nat × List UInt8)
  | d :: 36 :: s => if isdigit d then some ((d - 48).toNat, s) else none
  | _ => none

/-- The flag of a character. -/
def flag (fl : Flags) (c : UInt8) : Option Flags :=
  match c with
  | 35 => some { fl with alt := true }     -- #
  | 48 => some { fl with zero := true }    -- 0
  | 45 => some { fl with left := true }    -- -
  | 32 => some { fl with padPos := true }  -- space
  | 43 => some { fl with markPos := true } -- +
  | 39 => some { fl with grouped := true } -- '
  | _ => none

def readFlags (fl : Flags) : List UInt8 → Flags × List UInt8
  | [] => (fl, [])
  | c :: s =>
      match flag fl c with
      | some fl' => readFlags fl' s
      | none => (fl, c :: s)

/-- What reading a conversion changes. -/
structure Cursor where
  s : List UInt8
  l10n : Bool
  ap : List Word
  nlType : Nat → Option ArgType
  nlArg : Nat → Arg

/-- `va_arg(*ap, int)`. -/
def vaInt : List Word → Int × List Word
  | [] => (0, [])
  | v :: ap => (v.toInt, ap)

/-- A width or precision that is an argument, behind its `*`. -/
def readStar (f : Bool) (c : Cursor) (s : List UInt8) : Except Int (Int × Cursor) :=
  match position s with
  | some (i, s') =>
      .ok (((c.nlArg i).i.setWidth 32).toInt, { c with
        s := s'
        l10n := true
        nlType := Function.update c.nlType i (some .int) })
  | none =>
      if c.l10n then .error EINVAL
      else if f then .ok ((vaInt c.ap).1, { c with s := s, ap := (vaInt c.ap).2 })
      else .ok (0, { c with s := s })

/-- The field width. -/
def readWidth (f : Bool) (c : Cursor) (fl : Flags) : Except Int (Int × Flags × Cursor) :=
  match c.s with
  | 42 :: s =>
      match readStar f c s with
      | .error e => .error e
      | .ok (w, c') =>
          -- `-w` of an int
          if w < 0 then .ok ((-BitVec.ofInt 32 w).toInt, { fl with left := true }, c')
          else .ok (w, fl, c')
  | s =>
      match getint 0 s with
      | (w, s') => if w < 0 then .error EOVERFLOW else .ok (w, fl, { c with s := s' })

/-- The precision, with `xp`. -/
def readPrec (f : Bool) (c : Cursor) : Except Int (Int × Bool × Cursor) :=
  match c.s with
  | 46 :: 42 :: s =>
      match readStar f c s with
      | .error e => .error e
      | .ok (p, c') => .ok (p, 0 ≤ p, c')
  | 46 :: s =>
      match getint 0 s with
      | (p, s') => .ok (p, true, { c with s := s' })
  | _ => .ok (-1, false, c)

/-! ## The arguments -/

/-- The low word of an argument and the arguments behind it. -/
def vaWord : List Word → Word × List Word
  | [] => (0, [])
  | v :: ap => (v, ap)

/-- An argument of two words, the low one first. -/
def vaLong (ap : List Word) : BitVec 64 × List Word :=
  match vaWord ap with
  | (lo, ap') =>
      match vaWord ap' with
      | (hi, ap'') => (hi ++ lo, ap'')

/-- `pop_arg`. -/
def popArg (ty : ArgType) (ap : List Word) : Arg × List Word :=
  match vaWord ap with
  | (v, ap') =>
      match ty with
      | .ptr | .uint | .ulong | .uiptr | .sizet => (⟨v.setWidth 64, []⟩, ap')
      | .int | .long | .pdiff => (⟨v.signExtend 64, []⟩, ap')
      | .char => (⟨(v.setWidth 8).signExtend 64, []⟩, ap')
      | .uchar => (⟨(v.setWidth 8).setWidth 64, []⟩, ap')
      | .short => (⟨(v.setWidth 16).signExtend 64, []⟩, ap')
      | .ushort => (⟨(v.setWidth 16).setWidth 64, []⟩, ap')
      | .llong | .ullong | .imax | .umax => (⟨(vaLong ap).1, []⟩, (vaLong ap).2)
      | .dbl => (⟨0, ap.take 2⟩, ap.drop 2)
      | .ldbl => (⟨0, ap.take 3⟩, ap.drop 3)

/-! ## Writing -/

/-- `output`. -/
def output (f : Bool) (bs : List UInt8) : List (List UInt8) := if f then [bs] else []

/-- The chunks of `pad`. -/
def padLoop (c : UInt8) (l : Nat) : List (List UInt8) :=
  if 256 ≤ l then List.replicate 256 c :: padLoop c (l - 256) else [List.replicate l c]
termination_by l
decreasing_by omega

/-- `pad`, which does nothing where one of the flags it asks for is set. -/
def pad (f : Bool) (c : UInt8) (w l : Int) (fl : Flags) : List (List UInt8) :=
  if !f then []
  else if fl.left || fl.zero || w ≤ l then []
  else padLoop c (w - l).toNat

def xdigits (x : Nat) : UInt8 :=
  if x < 10 then UInt8.ofNat (48 + x) else UInt8.ofNat (55 + x)

/-- `fmt_x`, the digits before `s`. -/
def fmtX (x : Nat) (s : List UInt8) (lower : UInt8) : List UInt8 :=
  if x = 0 then s else fmtX (x / 16) ((xdigits (x % 16) ||| lower) :: s) lower

/-- `fmt_o`. -/
def fmtO (x : Nat) (s : List UInt8) : List UInt8 :=
  if x = 0 then s else fmtO (x / 8) (UInt8.ofNat (48 + x % 8) :: s)

/-- The second loop of `fmt_u`. -/
def fmtY (y : Nat) (s : List UInt8) : List UInt8 :=
  if y = 0 then s else fmtY (y / 10) (UInt8.ofNat (48 + y % 10) :: s)

/-- `fmt_u`. -/
def fmtU (x : Nat) (s : List UInt8) : List UInt8 :=
  if 2 ^ 32 ≤ x then fmtU (x / 10) (UInt8.ofNat (48 + x % 10) :: s) else fmtY x s

/-! ## One conversion -/

/-- What the `switch` leaves: a value stored (`%n`), a number that `fmt_fp` writes, or the
characters `a` of the field with the sign or base before them, `p` and `fl`. -/
inductive Converted
  | stored (mem : Mem)
  | floating
  | overflow
  | text (a sign : List UInt8) (p : Int) (fl : Flags)

/-- What the integer conversions have in common. -/
def number (i : BitVec 64) (a sign : List UInt8) (xp : Bool) (p : Int) (fl : Flags) : Converted :=
  if xp ∧ p < 0 then .overflow
  else
    let fl' := if xp then { fl with zero := false } else fl
    if i = 0 ∧ p = 0 then .text [] sign p fl'
    else .text a sign (max p (a.length + if i = 0 then 1 else 0)) fl'

/-- `%x`, `%X` and `%p`; for `%p`, `t` has become `'x'`. -/
def hex (t : UInt8) (i : BitVec 64) (xp : Bool) (p : Int) (fl : Flags) : Converted :=
  let sign := if i ≠ 0 ∧ fl.alt then [48, t] else []
  number i (fmtX i.toNat [] (t &&& 32)) sign xp p fl

/-- `%d` and `%i`. -/
def decimal (i : BitVec 64) (xp : Bool) (p : Int) (fl : Flags) : Converted :=
  if 2 ^ 63 ≤ i.toNat then number (-i) (fmtU (-i).toNat []) [45] xp p fl
  else
    let sign := if fl.markPos then [43] else if fl.padPos then [32] else []
    number i (fmtU i.toNat []) sign xp p fl

/-- `%n`, which the prefix `L` has no case for. -/
def store (ps : Pre) (p cnt : Nat) (mem : Mem) : Mem :=
  match ps with
  | .bare | .l | .zt => wr32 mem p cnt
  | .ll | .j => wr32 (wr32 mem p cnt) (p + 4) 0
  | .h => wr16 mem p cnt
  | .hh => wr8 mem p cnt
  | .bigl => mem

/-- `strnlen`. -/
def strnlen (mem : Nat → UInt8) (a : Nat) : Nat → Nat
  | 0 => 0
  | n + 1 => if mem a = 0 then 0 else strnlen mem (a + 1) n + 1

/-- The string `"(null)"`. -/
def null : List UInt8 := [40, 110, 117, 108, 108, 41]

/-- `%s`. -/
def string (arg : Arg) (p : Int) (fl : Flags) (mem : Mem) : Converted :=
  let mem' : Mem := if arg.p = 0 then fun i => null.getD i 0 else mem
  let n := strnlen mem' arg.p (if p < 0 then intMax else p.toNat)
  if p < 0 ∧ mem' (arg.p + n) ≠ 0 then .overflow
  else .text (StoreLog.bytes mem' arg.p n) [] n { fl with zero := false }

/-- The `switch` over the letter `t`. -/
def convert (ps : Pre) (t : UInt8) (arg : Arg) (xp : Bool) (p : Int) (fl : Flags) (cnt : Nat)
    (mem : Mem) : Converted :=
  match t with
  | 110 => .stored (store ps arg.p cnt mem)
  | 112 =>
      -- the comparison is of unsigned ints, so a negative `p` stays
      hex 120 arg.i xp (if p < 0 then p else max p 8) { fl with alt := true }
  | 120 | 88 => hex t arg.i xp p fl
  | 111 =>
      let a := fmtO arg.i.toNat []
      number arg.i a [] xp (if fl.alt ∧ p < a.length + 1 then a.length + 1 else p) fl
  | 100 | 105 => decimal arg.i xp p fl
  | 117 => number arg.i (fmtU arg.i.toNat []) [] xp p fl
  | 99 => .text [(arg.i.setWidth 8).toNat.toUInt8] [] 1 { fl with zero := false }
  | 115 => string arg p fl mem
  | _ => .floating

/-! ## printf_core -/

/-- Where `printf_core` is: the reading position, `cnt`, memory and what went out. -/
structure Core where
  cur : Cursor
  cnt : Nat
  mem : Mem
  out : List (List UInt8)

/-- What it leaves: what it returns, what it stores in `errno`, and the state. -/
structure Result where
  ret : Int
  errno : Option Int
  core : Core

def fail (e : Int) (st : Core) : Result := ⟨-1, some e, st⟩

/-- The field of a conversion, and the count behind it. -/
def field (f : Bool) (st : Core) (a sign : List UInt8) (w p : Int) (fl : Flags) :
    Except Result Core :=
  let p := max p a.length
  if p > intMax - sign.length then .error (fail EOVERFLOW st)
  else
    let l := sign.length + p
    let w := max w l
    if w > intMax - st.cnt then .error (fail EOVERFLOW st)
    else .ok { st with
      cnt := st.cnt + w.toNat
      out := st.out ++ (pad f 32 w l fl ++ output f sign
        ++ pad f 48 w l { fl with zero := !fl.zero } ++ pad f 48 p a.length .none
        ++ output f a ++ pad f 32 w l { fl with left := !fl.left }) }

/-- The argument of a conversion. Without a FILE, only numbered ones are there. -/
def fetch (f : Bool) (argi : Option Nat) (ty : ArgType) (c : Cursor) : Option (Arg × Cursor) :=
  match argi with
  | some i => some (c.nlArg i, { c with nlType := Function.update c.nlType i (some ty) })
  | none =>
      if f then some ((popArg ty c.ap).1, { c with ap := (popArg ty c.ap).2 })
      else none

/-- The number of `%%` at the front, and the rest of the format. -/
def percents : List UInt8 → Nat × List UInt8
  | 37 :: 37 :: s => ((percents s).1 + 1, (percents s).2)
  | s => (0, s)

/-- Literal text with its `%%`: how long it is, and the rest of the format. -/
def literal (s : List UInt8) : Nat × List UInt8 :=
  match percents (s.dropWhile (· ≠ 37)) with
  | (n, s') => ((s.takeWhile (· ≠ 37)).length + n, s')

/-- The arguments that have a type, one after the other from `i` on. -/
def readArgs (c : Cursor) (i : Nat) : Nat → Nat × Cursor
  | 0 => (i, c)
  | n + 1 =>
      match c.nlType i with
      | none => (i, c)
      | some ty => readArgs { c with
          nlArg := Function.update c.nlArg i (popArg ty c.ap).1
          ap := (popArg ty c.ap).2 } (i + 1) n

/-- Behind the loop: without a FILE, the numbered arguments are read. -/
def finish (f : Bool) (st : Core) : Result :=
  if f then ⟨st.cnt, none, st⟩
  else if !st.cur.l10n then ⟨0, none, st⟩
  else
    match readArgs st.cur 1 9 with
    | (i, c) =>
        if (List.range' i (10 - i)).any fun j => (c.nlType j).isSome then
          fail EINVAL { st with cur := c }
        else ⟨1, none, { st with cur := c }⟩

section

-- `fmt_fp`: what it writes and what it returns
variable (fmtFp : List Word → Int → Int → Flags → UInt8 → List (List UInt8) × Int)

/-- The conversions of floating point numbers. -/
def floating (f : Bool) (st : Core) (t : UInt8) (arg : Arg) (w p : Int) (xp : Bool) (fl : Flags) :
    Except Result Core :=
  if xp ∧ p < 0 then .error (fail EOVERFLOW st)
  else
    match fmtFp arg.f w p fl t with
    | (cs, l) =>
        if l < 0 ∨ l > intMax - st.cnt then .error (fail EOVERFLOW st)
        else .ok { st with cnt := st.cnt + l.toNat, out := st.out ++ if f then cs else [] }

/-- A conversion that has been read, from the `switch` on. -/
def emit (f : Bool) (st : Core) (ps : Pre) (t : UInt8) (arg : Arg) (w p : Int) (xp : Bool)
    (fl : Flags) : Except Result Core :=
  match convert ps t arg xp p fl.normal st.cnt st.mem with
  | .stored mem => .ok { st with mem := mem }
  | .overflow => .error (fail EOVERFLOW st)
  | .text a sign p fl => field f st a sign w p fl
  | .floating => floating fmtFp f st t arg w p xp fl.normal

/-- A conversion, behind its `%`. -/
def conversion (f : Bool) (st : Core) (s : List UInt8) : Except Result Core :=
  let (argi, c) : Option Nat × Cursor :=
    match position s with
    | some (i, s') => (some i, { st.cur with s := s', l10n := true })
    | none => (none, { st.cur with s := s })
  match readFlags .none c.s with
  | (fl, s) =>
      match readWidth f { c with s := s } fl with
      | .error e => .error (fail e st)
      | .ok (w, fl, c) =>
          match readPrec f c with
          | .error e => .error (fail e st)
          | .ok (p, xp, c) =>
              match machine .bare c.s with
              | none => .error (fail EINVAL st)
              | some (ty, ps, t, s) =>
                  match fetch f argi ty { c with s := s } with
                  | none => .error ⟨0, none, { st with cur := c }⟩
                  | some (arg, c) => emit fmtFp f { st with cur := c } ps t arg w p xp fl

/-- One turn of the loop. -/
def turn (f : Bool) (st : Core) : Except Result Core :=
  if st.cur.s = [] then .error (finish f st)
  else
    match literal st.cur.s with
    | (l, s) =>
        if l > intMax - st.cnt then .error (fail EOVERFLOW st)
        else
          let st' := { st with out := st.out ++ output f (st.cur.s.take l) }
          if l ≠ 0 then .ok { st' with cur := { st.cur with s := s }, cnt := st.cnt + l }
          else conversion fmtFp f st' st.cur.s.tail

end

/-! ## Every turn reads some of the format -/

theorem getint_length (i : Int) (s : List UInt8) : (getint i s).2.length ≤ s.length := by
  induction s generalizing i with
  | nil => exact Nat.le_refl _
  | cons c s ih =>
      rw [getint]
      dsimp only
      split
      · split <;> exact (ih _).trans (Nat.le_succ _)
      · exact Nat.le_refl _

theorem readFlags_length (fl : Flags) (s : List UInt8) :
    (readFlags fl s).2.length ≤ s.length := by
  induction s generalizing fl with
  | nil => exact Nat.le_refl _
  | cons c s ih =>
      rw [readFlags]
      split
      · exact (ih _).trans (Nat.le_succ _)
      · exact Nat.le_refl _

theorem position_length {i : Nat} {s s' : List UInt8} (h : position s = some (i, s')) :
    s'.length ≤ s.length := by
  unfold position at h
  split at h
  · split at h
    · obtain ⟨-, rfl⟩ := Prod.mk.inj (Option.some.inj h)
      exact Nat.le_add_right _ 2
    · simp at h
  · simp at h

theorem readStar_length {f : Bool} {c c' : Cursor} {s : List UInt8} {v : Int}
    (h : readStar f c s = .ok (v, c')) : c'.s.length ≤ s.length := by
  unfold readStar at h
  split at h
  · rename_i hpos
    obtain ⟨-, rfl⟩ := Prod.mk.inj (Except.ok.inj h)
    exact position_length hpos
  · split at h
    · simp at h
    · split at h <;>
      · obtain ⟨-, rfl⟩ := Prod.mk.inj (Except.ok.inj h)
        exact Nat.le_refl _

theorem readWidth_length {f : Bool} {c c' : Cursor} {fl fl' : Flags} {w : Int}
    (h : readWidth f c fl = .ok (w, fl', c')) : c'.s.length ≤ c.s.length := by
  unfold readWidth at h
  split at h
  · rename_i s hs
    split at h
    · simp at h
    · rename_i hstar
      have hle := (readStar_length hstar).trans (Nat.le_succ s.length)
      rw [hs]
      split at h <;>
      · simp only [Except.ok.injEq, Prod.mk.injEq] at h
        rw [← h.2.2]
        exact hle
  · dsimp only at h
    split at h
    · simp at h
    · simp only [Except.ok.injEq, Prod.mk.injEq] at h
      rw [← h.2.2]
      exact getint_length 0 c.s

theorem readPrec_length {f : Bool} {c c' : Cursor} {p : Int} {xp : Bool}
    (h : readPrec f c = .ok (p, xp, c')) : c'.s.length ≤ c.s.length := by
  unfold readPrec at h
  split at h
  · rename_i s hs
    split at h
    · simp at h
    · rename_i hstar
      simp only [Except.ok.injEq, Prod.mk.injEq] at h
      rw [hs, ← h.2.2]
      exact (readStar_length hstar).trans (Nat.le_add_right _ 2)
  · rename_i s _ hs
    simp only [Except.ok.injEq, Prod.mk.injEq] at h
    rw [hs, ← h.2.2]
    exact (getint_length 0 s).trans (Nat.le_succ _)
  · simp only [Except.ok.injEq, Prod.mk.injEq] at h
    rw [← h.2.2]

theorem machine_length {st ps : Pre} {s s' : List UInt8} {ty : ArgType} {t : UInt8}
    (h : machine st s = some (ty, ps, t, s')) : s'.length < s.length := by
  induction s generalizing st with
  | nil => simp [machine] at h
  | cons c s ih =>
      rw [machine] at h
      split at h
      · simp at h
      · split at h
        · simp at h
        · exact (ih h).trans (Nat.lt_succ_self _)
        · simp only [Option.some.injEq, Prod.mk.injEq] at h
          rw [h.2.2.2]
          exact Nat.lt_succ_self _

theorem percents_length (s : List UInt8) :
    (percents s).2.length + 2 * (percents s).1 = s.length := by
  fun_induction percents s with
  | case1 s ih =>
      rw [List.length_cons, List.length_cons]
      dsimp only
      omega
  | case2 s => rfl

theorem literal_length (s : List UInt8) : (literal s).2.length + (literal s).1 ≤ s.length := by
  have hsplit := congrArg List.length (@List.takeWhile_append_dropWhile _ (· ≠ 37) s)
  rw [List.length_append] at hsplit
  have hpercents := percents_length (s.dropWhile (· ≠ 37))
  rw [literal]
  dsimp only
  omega

section

variable (fmtFp : List Word → Int → Int → Flags → UInt8 → List (List UInt8) × Int)
variable {f : Bool} {st st' : Core}

theorem field_cur {a sign : List UInt8} {w p : Int} {fl : Flags}
    (h : field f st a sign w p fl = .ok st') : st'.cur = st.cur := by
  unfold field at h
  dsimp only at h
  split at h
  · simp at h
  · split at h
    · simp at h
    · rw [← Except.ok.inj h]

variable {fmtFp} in
theorem floating_cur {t : UInt8} {arg : Arg} {w p : Int} {xp : Bool} {fl : Flags}
    (h : floating fmtFp f st t arg w p xp fl = .ok st') : st'.cur = st.cur := by
  unfold floating at h
  dsimp only at h
  split at h
  · simp at h
  · split at h
    · simp at h
    · rw [← Except.ok.inj h]

variable {fmtFp} in
theorem emit_cur {ps : Pre} {t : UInt8} {arg : Arg} {w p : Int} {xp : Bool} {fl : Flags}
    (h : emit fmtFp f st ps t arg w p xp fl = .ok st') : st'.cur = st.cur := by
  unfold emit at h
  split at h
  · rw [← Except.ok.inj h]
  · simp at h
  · exact field_cur h
  · exact floating_cur h

theorem fetch_s {argi : Option Nat} {ty : ArgType} {c c' : Cursor} {arg : Arg}
    (h : fetch f argi ty c = some (arg, c')) : c'.s = c.s := by
  unfold fetch at h
  split at h
  · simp only [Option.some.injEq, Prod.mk.injEq] at h
    rw [← h.2]
  · split at h
    · simp only [Option.some.injEq, Prod.mk.injEq] at h
      rw [← h.2]
    · simp at h

variable {fmtFp} in
theorem conversion_length {s : List UInt8} (h : conversion fmtFp f st s = .ok st') :
    st'.cur.s.length < s.length := by
  unfold conversion at h
  split at h
  rename_i argi c hpos
  have hc : c.s.length ≤ s.length := by
    split at hpos
    · rename_i hsome
      rw [← (Prod.mk.inj hpos).2]
      exact position_length hsome
    · rw [← (Prod.mk.inj hpos).2]
  have hflags := readFlags_length .none c.s
  dsimp only at h
  split at h
  · simp at h
  · rename_i hwidth
    have hw := readWidth_length hwidth
    split at h
    · simp at h
    · rename_i hprec
      have hp := readPrec_length hprec
      split at h
      · simp at h
      · rename_i hmachine
        have hm := machine_length hmachine
        split at h
        · simp at h
        · rename_i hfetch
          have hs := congrArg List.length (fetch_s hfetch)
          rw [emit_cur h]
          dsimp only at hw hs ⊢
          omega

variable {fmtFp} in
theorem turn_length (h : turn fmtFp f st = .ok st') : st'.cur.s.length < st.cur.s.length := by
  unfold turn at h
  split at h
  · simp at h
  · rename_i hs
    have hl := literal_length st.cur.s
    dsimp only at h
    split at h
    · simp at h
    · split at h
      · rw [← Except.ok.inj h]
        dsimp only
        omega
      · refine (conversion_length h).trans_le ?_
        rw [List.length_tail]
        omega

/-- The loop of `printf_core`. -/
def loop (f : Bool) (st : Core) : Result :=
  match _h : turn fmtFp f st with
  | .error r => r
  | .ok st' => loop f st'
termination_by st.cur.s.length
decreasing_by exact turn_length _h

/-- `printf_core`. -/
def printfCore (f : Bool) (fmt : List UInt8) (ap : List Word) (nlArg : Nat → Arg)
    (nlType : Nat → Option ArgType) (mem : Mem) : Result :=
  loop fmtFp f ⟨⟨fmt, false, ap, nlType, nlArg⟩, 0, mem, []⟩

/-- `vfprintf`. -/
def vfprintf (fmt : List UInt8) (ap : List Word) (mem : Mem) : Result :=
  let r := printfCore fmtFp false fmt ap (fun _ => .zero) (fun _ => none) mem
  if r.ret < 0 then { r with ret := -1 }
  else
    printfCore fmtFp true fmt r.core.cur.ap r.core.cur.nlArg r.core.cur.nlType r.core.mem

end

/-- What `vsnprintf` gets of it. -/
def Result.formatted (r : Result) : Formatted := ⟨r.core.out, r.ret, r.errno⟩

end Printf

end Shitos
