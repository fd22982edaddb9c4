import Mathlib.Data.Nat.Digits.Defs
import Shitos.Printf

/-!
# What printf writes

A format with its arguments is a list of characters, `%%` and conversions, each with the
words that it takes from the stack (`Item`). What a conversion means is said here without
the order in which `printf_core` goes about it: a number is written in its base, with at
least as many digits as the precision asks for, behind its sign, and a field is filled up
to its width on one side (`Directive.Writes`). What a format writes is one conversion
after the other (`Writes`), which matters for `%n`.

Such a format is read back as it was written: the flags, the width, the precision and
the type (`readFlags_bytes`, `readWidth_wide`, `readPrec_bytes`, `machine_bytes`).
-/

namespace Shitos

namespace Printf

open Stdio Syscall

/-! ## Formats -/

/-- A flag, as it is written. -/
inductive Flag
  | alt | zero | left | space | plus | group
deriving DecidableEq

def Flag.byte : Flag → UInt8
  | .alt => 35
  | .zero => 48
  | .left => 45
  | .space => 32
  | .plus => 43
  | .group => 39

def Flag.set (fl : Flags) : Flag → Flags
  | .alt => { fl with alt := true }
  | .zero => { fl with zero := true }
  | .left => { fl with left := true }
  | .space => { fl with padPos := true }
  | .plus => { fl with markPos := true }
  | .group => { fl with grouped := true }

/-- The length of an integer argument. -/
inductive Size
  | int | l | ll | h | hh | z | t | j
deriving DecidableEq

def Size.bytes : Size → List UInt8
  | .int => []
  | .l => [108]
  | .ll => [108, 108]
  | .h => [104]
  | .hh => [104, 104]
  | .z => [122]
  | .t => [116]
  | .j => [106]

def Size.pre : Size → Pre
  | .int => .bare
  | .l => .l
  | .ll => .ll
  | .h => .h
  | .hh => .hh
  | .z | .t => .zt
  | .j => .j

/-- How many bits of the argument count. -/
def Size.bits : Size → Nat
  | .hh => 8
  | .h => 16
  | .int | .l | .z | .t => 32
  | .ll | .j => 64

/-- The number that digits stand for. -/
def value (ds : List UInt8) (n : Nat) : Nat := ds.foldl (fun n c => 10 * n + (c - 48).toNat) n

/-- Digits that stand for an int. -/
structure Digits where
  ds : List UInt8
  digit : ∀ c ∈ ds, isdigit c
  small : value ds 0 ≤ intMax

/-- A width or precision. -/
inductive Amount
  | digits (d : Digits)
  | star (v : Word)

def Amount.bytes : Amount → List UInt8
  | .digits d => d.ds
  | .star _ => [42]

def Amount.words : Amount → List Word
  | .digits _ => []
  | .star v => [v]

def Amount.value : Amount → Int
  | .digits d => Printf.value d.ds 0
  | .star v => v.toInt

/-- A width begins with no zero, which is a flag, and can be negated. -/
def Amount.Wide : Amount → Prop
  | .digits d => d.ds.head? ≠ some 48
  | .star v => v ≠ BitVec.intMin 32

inductive Conv
  | signed (size : Size) (i : Bool)
  | unsigned (size : Size)
  | octal (size : Size)
  | hex (size : Size) (upper : Bool)
  | pointer
  | char
  | string
  | count (size : Size)

/-- Its letter. -/
def Conv.letter : Conv → UInt8
  | .signed _ i => if i then 105 else 100
  | .unsigned _ => 117
  | .octal _ => 111
  | .hex _ upper => if upper then 88 else 120
  | .pointer => 112
  | .char => 99
  | .string => 115
  | .count _ => 110

def Conv.size : Conv → Size
  | .signed size _ | .unsigned size | .octal size | .hex size _ | .count size => size
  | .pointer | .char | .string => .int

def Conv.bytes (c : Conv) : List UInt8 := c.size.bytes ++ [c.letter]

/-- Whether its argument has two words. -/
def Conv.long : Conv → Bool
  | .signed size _ | .unsigned size | .octal size | .hex size _ => size.bits = 64
  | .pointer | .char | .string | .count _ => false

/-- A conversion with its arguments. -/
structure Directive where
  flags : List Flag
  width : Amount
  prec : Option Amount
  conv : Conv
  arg : BitVec 64
  wide : width.Wide

namespace Directive

variable (d : Directive)

/-- A precision, behind its dot. -/
def precBytes : List UInt8 :=
  match d.prec with
  | none => []
  | some a => 46 :: a.bytes

/-- What stands in the format, behind the `%`. -/
def bytes : List UInt8 :=
  d.flags.map Flag.byte ++ (d.width.bytes ++ (d.precBytes ++ d.conv.bytes))

def argWords : List Word :=
  if d.conv.long then [d.arg.setWidth 32, (d.arg >>> 32).setWidth 32] else [d.arg.setWidth 32]

/-- What stands on the stack. -/
def words : List Word :=
  d.width.words ++ ((d.prec.elim [] Amount.words) ++ d.argWords)

end Directive

/-! ## What a conversion means -/

/-- A digit of a number. -/
def digit (upper : Bool) (x : Nat) : UInt8 :=
  if x < 10 then UInt8.ofNat (48 + x)
  else if upper then UInt8.ofNat (55 + x) else UInt8.ofNat (87 + x)

/-- A number in base `b`, without leading zeros. -/
def digits (b : Nat) (upper : Bool) (n : Nat) : List UInt8 :=
  (Nat.digits b n).reverse.map (digit upper)

/-- With zeros before it, up to `p` digits. -/
def numeral (p : Nat) (ds : List UInt8) : List UInt8 := List.replicate (p - ds.length) 48 ++ ds

/-- A field of width `w`: on the left or on the right, or filled with zeros. -/
def fill (left zero : Bool) (w : Nat) (sign body : List UInt8) : List UInt8 :=
  let n := w - (sign.length + body.length)
  if left then sign ++ body ++ List.replicate n 32
  else if zero then sign ++ List.replicate n 48 ++ body
  else List.replicate n 32 ++ sign ++ body

/-- The string at `p`, not longer than the precision. -/
structure IsString (m : Mem) (p : Nat) (prec : Option Nat) (s : List UInt8) : Prop where
  here : ∀ (i : Nat) (hi : i < s.length), m (p + i) = s[i]
  nonzero : 0 ∉ s
  short : ∀ n, prec = some n → s.length ≤ n
  ends : prec = some s.length ∨ m (p + s.length) = 0

namespace Directive

variable (d : Directive)

/-- The flags. A negative width asks for the left side. -/
def fl : Flags := d.flags.foldl Flag.set .none

def left : Bool := d.fl.left || d.width.value < 0

/-- The precision, unless it is negative. -/
def precision : Option Nat :=
  d.prec.bind fun a => if a.value < 0 then none else some a.value.toNat

/-- Zeros fill a number that has no precision. -/
def zero : Bool := d.fl.zero && d.precision.isNone

def signedValue (size : Size) : Int := (d.arg.setWidth size.bits).toInt

def unsignedValue (size : Size) : Nat := (d.arg.setWidth size.bits).toNat

/-- What is written before the number. -/
def sign : List UInt8 :=
  match d.conv with
  | .signed size _ =>
      if d.signedValue size < 0 then [45]
      else if d.fl.markPos then [43]
      else if d.fl.padPos then [32]
      else []
  | .hex size upper =>
      if d.fl.alt ∧ d.unsignedValue size ≠ 0 then [48, if upper then 88 else 120] else []
  | .pointer => if d.unsignedValue .int ≠ 0 then [48, 120] else []
  | _ => []

/-- The number. -/
def body : List UInt8 :=
  match d.conv with
  | .signed size _ => numeral (d.precision.getD 1) (digits 10 false (d.signedValue size).natAbs)
  | .unsigned size => numeral (d.precision.getD 1) (digits 10 false (d.unsignedValue size))
  | .octal size =>
      let ds := digits 8 false (d.unsignedValue size)
      numeral (if d.fl.alt then max (d.precision.getD 1) (ds.length + 1) else d.precision.getD 1) ds
  | .hex size upper => numeral (d.precision.getD 1) (digits 16 upper (d.unsignedValue size))
  | .pointer => numeral ((d.precision.map (max 8)).getD 1) (digits 16 false (d.unsignedValue .int))
  | _ => []

/-- What a conversion of a number writes. -/
def text : List UInt8 := fill d.left d.zero d.width.value.natAbs d.sign d.body

/-- The pointer it takes. -/
def ptr : Nat := d.unsignedValue .int

/-- What the conversion writes, with `cnt` characters before it, and what it stores. -/
def Writes (m : Mem) (cnt : Nat) (text : List UInt8) (m' : Mem) : Prop :=
  match d.conv with
  | .count size => text = [] ∧ m' = store size.pre d.ptr cnt m
  | .string => m' = m ∧ ∃ s, text = fill d.left false d.width.value.natAbs [] s ∧
      if d.ptr = 0 then s = null.take (d.precision.getD null.length)
      else IsString m d.ptr d.precision s
  | .char => m' = m ∧ text = fill d.left false d.width.value.natAbs [] [d.arg.toNat.toUInt8]
  | _ => m' = m ∧ text = d.text

end Directive

/-- A piece of a format. -/
inductive Item
  | char (c : UInt8) (text : c ≠ 37)
  | percent
  | conv (d : Directive)

def Item.bytes : Item → List UInt8
  | .char c _ => [c]
  | .percent => [37, 37]
  | .conv d => 37 :: d.bytes

def Item.words : Item → List Word
  | .char _ _ => []
  | .percent => []
  | .conv d => d.words

/-- What a format writes, with `cnt` characters before it, and what it stores. -/
inductive Writes : Mem → Nat → List Item → List UInt8 → Mem → Prop
  | nil (m : Mem) (cnt : Nat) : Writes m cnt [] [] m
  | char {m m' : Mem} {cnt : Nat} {c : UInt8} {hc : c ≠ 37} {is : List Item} {t : List UInt8} :
      Writes m (cnt + 1) is t m' → Writes m cnt (.char c hc :: is) (c :: t) m'
  | percent {m m' : Mem} {cnt : Nat} {is : List Item} {t : List UInt8} :
      Writes m (cnt + 1) is t m' → Writes m cnt (.percent :: is) (37 :: t) m'
  | conv {m m' m'' : Mem} {cnt : Nat} {d : Directive} {is : List Item} {t u : List UInt8} :
      d.Writes m cnt t m' → Writes m' (cnt + t.length) is u m'' →
        Writes m cnt (.conv d :: is) (t ++ u) m''

/-! ## Reading a conversion -/

theorem isdigit_iff {c : UInt8} : isdigit c = true ↔ 48 ≤ c.toNat ∧ c.toNat < 58 := by
  rw [isdigit, decide_eq_true_eq, UInt8.lt_iff_toNat_lt, UInt8.toNat_sub]
  have h := c.toNat_lt
  change (2 ^ 8 - 48 + c.toNat) % 2 ^ 8 < 10 ↔ _
  omega

theorem le_value (ds : List UInt8) (n : Nat) : n ≤ value ds n := by
  induction ds generalizing n with
  | nil => exact Nat.le_refl n
  | cons c ds ih =>
      have h := ih (10 * n + (c - 48).toNat)
      rw [value, List.foldl_cons]
      rw [value] at h
      omega

theorem getint_digits {ds s : List UInt8} {n : Nat} (hds : ∀ c ∈ ds, isdigit c)
    (hs : ∀ c, s.head? = some c → isdigit c = false) (hsmall : value ds n ≤ intMax) :
    getint n (ds ++ s) = (↑(value ds n), s) := by
  induction ds generalizing n with
  | nil =>
      cases s with
      | nil => rfl
      | cons c s => simp [getint, hs c rfl, value]
  | cons c ds ih =>
      have hnext : value (c :: ds) n = value ds (10 * n + (c - 48).toNat) := rfl
      have hle := le_value ds (10 * n + (c - 48).toNat)
      rw [hnext] at hsmall
      rw [List.cons_append, getint, if_pos (hds c List.mem_cons_self), if_neg (by omega), hnext,
        ← ih (fun c' hc' => hds c' (List.mem_cons_of_mem c hc')) hsmall]
      rw [Nat.cast_add, Nat.cast_mul]
      rfl

/-- A character that is no digit, `$`, `%`, `*`, `.` or flag. -/
structure Plain (c : UInt8) : Prop where
  digit : isdigit c = false
  dollar : c ≠ 36
  percent : c ≠ 37
  star : c ≠ 42
  dot : c ≠ 46
  flag : ∀ fl, flag fl c = none

theorem Conv.plain (c : Conv) : ∃ a s, c.bytes = a :: s ∧ Plain a := by
  have hplain : ∀ a : UInt8, a ∈ [100, 105, 117, 111, 120, 88, 112, 99, 115, 110, 108, 104, 122,
      116, 106] → Plain a := by
    intro a ha
    simp only [List.mem_cons, List.not_mem_nil, or_false] at ha
    rcases ha with rfl | rfl | rfl | rfl | rfl | rfl | rfl | rfl | rfl | rfl | rfl | rfl | rfl |
      rfl | rfl <;>
      exact ⟨by decide, by decide, by decide, by decide, by decide, fun _ => rfl⟩
  cases c with
  | signed size i => cases size <;> cases i <;> exact ⟨_, _, rfl, hplain _ (by decide)⟩
  | hex size upper => cases size <;> cases upper <;> exact ⟨_, _, rfl, hplain _ (by decide)⟩
  | unsigned size | octal size | count size =>
      cases size <;> exact ⟨_, _, rfl, hplain _ (by decide)⟩
  | pointer | char | string => exact ⟨_, _, rfl, hplain _ (by decide)⟩

theorem position_append {u t : List UInt8} (hu : ∀ c ∈ u, c ≠ 36)
    (ht : ∃ a s, t = a :: s ∧ Plain a) : position (u ++ t) = none := by
  obtain ⟨a, s, rfl, ha⟩ := ht
  unfold position
  split
  · rename_i heq
    cases u with
    | nil =>
        rw [List.nil_append, List.cons.injEq] at heq
        rw [← heq.1, ha.digit, if_neg Bool.false_ne_true]
    | cons b u =>
        rw [List.cons_append, List.cons.injEq] at heq
        cases u with
        | nil => exact absurd (List.cons.inj heq.2).1 ha.dollar
        | cons b' u =>
            exact absurd (List.cons.inj heq.2).1
              (hu b' (List.mem_cons_of_mem b List.mem_cons_self))
  · rfl

theorem Amount.bytes_ne {a : Amount} {c : UInt8} (h : c ∈ a.bytes) : isdigit c ∨ c = 42 := by
  cases a with
  | digits d => exact .inl (d.digit c h)
  | star v => exact .inr (List.mem_singleton.mp h)

theorem isdigit_not {c : UInt8} (h : isdigit c) : c ≠ 36 ∧ c ≠ 37 ∧ c ≠ 42 ∧ c ≠ 46 := by
  rw [isdigit_iff] at h
  refine ⟨?_, ?_, ?_, ?_⟩ <;>
  · rintro rfl
    revert h
    decide

theorem Amount.ne_dollar {a : Amount} {c : UInt8} (h : c ∈ a.bytes) : c ≠ 36 ∧ c ≠ 37 := by
  rcases bytes_ne h with h' | rfl
  · exact ⟨(isdigit_not h').1, (isdigit_not h').2.1⟩
  · decide

namespace Directive

variable (d : Directive)

theorem precBytes_ne {c : UInt8} (h : c ∈ d.precBytes) : c ≠ 36 ∧ c ≠ 37 := by
  unfold precBytes at h
  split at h
  · simp at h
  · rcases List.mem_cons.mp h with rfl | h'
    · decide
    · exact Amount.ne_dollar h'

/-- What stands before the type. -/
def front : List UInt8 := d.flags.map Flag.byte ++ (d.width.bytes ++ d.precBytes)

theorem front_ne {c : UInt8} (h : c ∈ d.front) : c ≠ 36 ∧ c ≠ 37 := by
  simp only [front, List.mem_append, List.mem_map] at h
  rcases h with ⟨f, -, rfl⟩ | h | h
  · cases f <;> decide
  · exact Amount.ne_dollar h
  · exact d.precBytes_ne h

theorem bytes_front (s : List UInt8) : d.bytes ++ s = d.front ++ (d.conv.bytes ++ s) := by
  simp [bytes, front]

theorem position_bytes (s : List UInt8) : position (d.bytes ++ s) = none := by
  obtain ⟨a, t, hbytes, ha⟩ := d.conv.plain
  rw [d.bytes_front s]
  exact position_append (fun _ hc => (d.front_ne hc).1)
    ⟨a, t ++ s, by rw [hbytes, List.cons_append], ha⟩

/-- A conversion is no `%%`. -/
theorem bytes_ne_percent (s : List UInt8) : ∃ b u, d.bytes ++ s = b :: u ∧ b ≠ 37 := by
  obtain ⟨a, t, hbytes, ha⟩ := d.conv.plain
  rw [d.bytes_front s]
  cases hfront : d.front with
  | nil => exact ⟨a, t ++ s, by rw [hbytes]; rfl, ha.percent⟩
  | cons b u => exact ⟨b, _, rfl, (d.front_ne (by simp [hfront])).2⟩

end Directive

theorem readFlags_bytes {fs : List Flag} {fl : Flags} {s : List UInt8}
    (hs : ∀ c, s.head? = some c → ∀ fl, flag fl c = none) :
    readFlags fl (fs.map Flag.byte ++ s) = (fs.foldl Flag.set fl, s) := by
  induction fs generalizing fl with
  | nil =>
      cases s with
      | nil => rfl
      | cons c s => simp [readFlags, hs c rfl]
  | cons f fs ih =>
      have hf : flag fl f.byte = some (f.set fl) := by
        cases f <;> rfl
      rw [List.map_cons, List.cons_append, readFlags, hf]
      exact ih

theorem readStar_plain {f : Bool} {c : Cursor} {s : List UInt8} {v : Word} {ap : List Word}
    (hs : position s = none) (hl10n : c.l10n = false) (hap : c.ap = v :: ap) :
    readStar f c s
      = .ok (if f then (v.toInt, { c with s := s, ap := ap }) else (0, { c with s := s })) := by
  cases f <;> simp [readStar, hs, hl10n, hap, vaInt]

theorem neg_of_wide {v : Word} (h : v ≠ BitVec.intMin 32) (hneg : v.toInt < 0) :
    (-BitVec.ofInt 32 v.toInt).toInt = v.toInt.natAbs := by
  rw [BitVec.ofInt_toInt, BitVec.toInt_neg_of_ne_intMin h]
  omega

section

variable {c : Cursor} {s : List UInt8} {ap : List Word} {fl : Flags}

theorem readWidth_star {f : Bool} (hc : c.s = 42 :: s) : readWidth f c fl =
    match readStar f c s with
    | .error e => .error e
    | .ok (w, c') =>
        if w < 0 then .ok ((-BitVec.ofInt 32 w).toInt, { fl with left := true }, c')
        else .ok (w, fl, c') := by
  unfold readWidth
  rw [hc]
  rfl

theorem readWidth_digits {f : Bool} {w : Nat} (hc : ∀ u, c.s ≠ 42 :: u)
    (hget : getint 0 c.s = (↑w, s)) : readWidth f c fl = .ok (w, fl, { c with s := s }) := by
  unfold readWidth
  split
  · exact absurd ‹c.s = _› (hc _)
  · rw [hget]
    exact if_neg (by omega)

theorem getint_amount {d : Digits} {a : UInt8} (ha : isdigit a = false) :
    getint 0 (d.ds ++ a :: s) = (↑(value d.ds 0), a :: s) := by
  refine getint_digits d.digit ?_ d.small
  intro c hc
  obtain rfl := Option.some.inj hc
  exact ha

theorem digits_ne_star {d : Digits} {a : UInt8} (ha : a ≠ 42) (u : List UInt8) :
    d.ds ++ a :: s ≠ 42 :: u := by
  intro hu
  cases hds : d.ds with
  | nil => simp_all
  | cons b ds =>
      have hb := d.digit b (by simp [hds])
      rw [hds, List.cons_append, List.cons.injEq] at hu
      exact (isdigit_not hb).2.2.1 hu.1

theorem readWidth_wide {w : Amount} {a : UInt8} (hw : w.Wide) (hdigit : isdigit a = false)
    (hstar : a ≠ 42) (hpos : position (a :: s) = none) (hc : c.s = w.bytes ++ a :: s)
    (hl10n : c.l10n = false) (hap : c.ap = w.words ++ ap) :
    readWidth true c fl = .ok (w.value.natAbs, { fl with left := fl.left || w.value < 0 },
      { c with s := a :: s, ap := ap }) := by
  cases w with
  | digits d =>
      have happ : ap = c.ap := hap.symm
      rw [readWidth_digits (by rw [hc]; exact digits_ne_star hstar)
        (by rw [hc]; exact getint_amount hdigit)]
      simp [Amount.value, happ, not_lt_of_ge]
  | star v =>
      rw [readWidth_star (s := a :: s) hc, readStar_plain hpos hl10n hap, if_pos rfl]
      dsimp only
      split
      · rename_i hneg
        rw [neg_of_wide hw hneg]
        simp [Amount.value, hneg]
      · rename_i hneg
        simpa [Amount.value, hneg] using (abs_of_nonneg (not_lt.mp hneg)).symm

/-- Without a FILE, a `*` takes no argument. -/
theorem readWidth_null {w : Amount} {a : UInt8} (hdigit : isdigit a = false) (hstar : a ≠ 42)
    (hpos : position (a :: s) = none) (hc : c.s = w.bytes ++ a :: s) (hl10n : c.l10n = false) :
    ∃ n : Nat, readWidth false c fl = .ok (n, fl, { c with s := a :: s }) := by
  cases w with
  | digits d =>
      exact ⟨_, readWidth_digits (by rw [hc]; exact digits_ne_star hstar)
        (by rw [hc]; exact getint_amount hdigit)⟩
  | star v =>
      refine ⟨0, ?_⟩
      rw [readWidth_star (s := a :: s) hc]
      simp [readStar, hpos, hl10n]

theorem readPrec_star {f : Bool} (hc : c.s = 46 :: 42 :: s) : readPrec f c =
    match readStar f c s with
    | .error e => .error e
    | .ok (p, c') => .ok (p, 0 ≤ p, c') := by
  unfold readPrec
  rw [hc]
  rfl

theorem readPrec_digits {f : Bool} {t : List UInt8} {p : Nat} (hc : c.s = 46 :: t)
    (ht : ∀ u, t ≠ 42 :: u) (hget : getint 0 t = (↑p, s)) :
    readPrec f c = .ok (p, true, { c with s := s }) := by
  unfold readPrec
  split
  · rename_i u heq
    exact absurd (List.cons.inj (hc.symm.trans heq)).2 (ht u)
  · rename_i heq
    obtain rfl := (List.cons.inj (hc.symm.trans heq)).2
    rw [hget]
  · rename_i hne
    exact absurd hc (hne t)

theorem readPrec_none {f : Bool} {a : UInt8} (hc : c.s = a :: s) (ha : a ≠ 46) :
    readPrec f c = .ok (-1, false, c) := by
  unfold readPrec
  split
  · rename_i heq
    exact absurd (List.cons.inj (hc.symm.trans heq)).1 ha
  · rename_i heq
    exact absurd (List.cons.inj (hc.symm.trans heq)).1 ha
  · rfl

end

namespace Directive

/-- The precision as an int. -/
def p (d : Directive) : Int := d.prec.elim (-1) Amount.value

theorem precision_eq (d : Directive) :
    d.precision = if d.p < 0 then none else some d.p.toNat := by
  unfold precision p
  cases d.prec with
  | none => rfl
  | some a => rfl

section

variable (d : Directive) {c : Cursor} {s : List UInt8} {ap : List Word}

theorem readPrec_bytes {a : UInt8} (ha : Plain a) (hpos : position (a :: s) = none)
    (hc : c.s = d.precBytes ++ a :: s) (hl10n : c.l10n = false)
    (hap : c.ap = d.prec.elim [] Amount.words ++ ap) :
    readPrec true c = .ok (d.p, 0 ≤ d.p, { c with s := a :: s, ap := ap }) := by
  unfold precBytes at hc
  unfold p
  cases hprec : d.prec with
  | none =>
      rw [hprec] at hc hap
      have hcs : c.s = a :: s := hc
      have hcap : c.ap = ap := hap
      rw [readPrec_none hcs ha.dot]
      subst hcap
      rw [← hcs]
      rfl
  | some w =>
      rw [hprec] at hc hap
      cases w with
      | digits n =>
          have hcap : c.ap = ap := hap
          rw [readPrec_digits hc (digits_ne_star ha.star) (getint_amount ha.digit)]
          subst hcap
          simp [Amount.value]
      | star v =>
          rw [readPrec_star (s := a :: s) hc, readStar_plain hpos hl10n hap]
          rfl

theorem readPrec_null {a : UInt8} (ha : Plain a) (hpos : position (a :: s) = none)
    (hc : c.s = d.precBytes ++ a :: s) (hl10n : c.l10n = false) :
    ∃ p xp, readPrec false c = .ok (p, xp, { c with s := a :: s }) := by
  unfold precBytes at hc
  cases hprec : d.prec with
  | none =>
      rw [hprec] at hc
      have hcs : c.s = a :: s := hc
      rw [← hcs]
      exact ⟨_, _, readPrec_none hcs ha.dot⟩
  | some w =>
      rw [hprec] at hc
      cases w with
      | digits n =>
          exact ⟨_, _, readPrec_digits hc (digits_ne_star ha.star) (getint_amount ha.digit)⟩
      | star v =>
          refine ⟨0, true, ?_⟩
          rw [readPrec_star (s := a :: s) hc]
          simp [readStar, hpos, hl10n]

end

end Directive

/-- The type of the argument. -/
def Conv.type : Conv → ArgType
  | .signed size _ =>
      match size with
      | .int => .int
      | .l => .long
      | .ll => .llong
      | .h => .short
      | .hh => .char
      | .z | .t => .pdiff
      | .j => .imax
  | .unsigned size | .octal size | .hex size _ =>
      match size with
      | .int => .uint
      | .l => .ulong
      | .ll => .ullong
      | .h => .ushort
      | .hh => .uchar
      | .z | .t => .sizet
      | .j => .umax
  | .pointer => .uiptr
  | .char => .char
  | .string => .ptr
  | .count _ => .ptr

theorem machine_bytes (c : Conv) (s : List UInt8) :
    machine .bare (c.bytes ++ s) = some (c.type, c.size.pre, c.letter, s) := by
  cases c with
  | signed size i => cases size <;> cases i <;> rfl
  | hex size upper => cases size <;> cases upper <;> rfl
  | unsigned size | octal size | count size => cases size <;> rfl
  | pointer | char | string => rfl

end Printf

end Shitos
