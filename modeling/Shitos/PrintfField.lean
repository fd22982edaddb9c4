import Mathlib.Data.Nat.Digits.Lemmas
import Shitos.PrintfText

/-!
# The fields that printf writes

From the argument of a conversion to the characters that go out. The digits are written
backwards into a buffer and padded by five calls of `pad`, each of which has its own
condition on the flags; together they are the field of the conversion (`field_emits`).
For each letter the `switch` of `printf_core` leaves what the conversion means
(`emit_emits`).
-/

namespace Shitos

namespace Printf

open Stdio Syscall

/-! ## The arguments -/

/-- The argument of a conversion, as `pop_arg` finds it. -/
def Directive.popped (d : Directive) : Arg := (popArg d.conv.type d.argWords).1

theorem words_append (x : BitVec 64) : (x >>> 32).setWidth 32 ++ x.setWidth 32 = x := by
  apply BitVec.eq_of_toNat_eq
  have h := x.isLt
  rw [BitVec.toNat_append, ← Nat.shiftLeft_add_eq_or_of_lt (BitVec.isLt _)]
  simp only [BitVec.toNat_setWidth, BitVec.toNat_ushiftRight, Nat.shiftRight_eq_div_pow,
    Nat.shiftLeft_eq]
  omega

namespace Directive

variable {d : Directive}

theorem popArg_words (ap : List Word) : popArg d.conv.type (d.argWords ++ ap) = (d.popped, ap) := by
  obtain ⟨flags, width, prec, conv, arg, wide⟩ := d
  cases conv with
  | signed size i => cases size <;> rfl
  | unsigned size | octal size | hex size upper => cases size <;> rfl
  | pointer | char | string => rfl
  | count size => rfl

theorem popped_signed {size : Size} {i : Bool} (h : d.conv = .signed size i) :
    d.popped.i.toInt = d.signedValue size := by
  unfold popped argWords signedValue
  rw [h]
  cases size <;>
    simp [Conv.type, Conv.long, Size.bits, popArg, vaWord, vaLong, words_append,
      BitVec.toInt_signExtend_of_le]

theorem popped_unsigned {size : Size}
    (h : d.conv = .unsigned size ∨ d.conv = .octal size ∨ ∃ upper, d.conv = .hex size upper) :
    d.popped.i.toNat = d.unsignedValue size := by
  unfold popped argWords unsignedValue
  rcases h with h | h | ⟨upper, h⟩ <;> rw [h] <;>
  cases size <;>
    simp [Conv.type, Conv.long, Size.bits, popArg, vaWord, vaLong, words_append] <;>
    omega

theorem popped_pointer (h : d.conv = .pointer) : d.popped.i.toNat = d.unsignedValue .int := by
  unfold popped argWords unsignedValue
  rw [h]
  simp [Conv.type, Conv.long, Size.bits, popArg, vaWord]
  omega

theorem popped_char (h : d.conv = .char) :
    (d.popped.i.setWidth 8).toNat.toUInt8 = d.arg.toNat.toUInt8 := by
  have hlow : ∀ x : BitVec 8, (x.signExtend 64).setWidth 8 = x := by
    intro x
    ext i hi
    simp [BitVec.getLsbD_signExtend, hi]
    omega
  unfold popped argWords
  rw [h]
  simp [Conv.type, Conv.long, popArg, vaWord, hlow, ← UInt8.toNat_inj]

theorem popped_ptr (h : d.conv = .string ∨ ∃ size, d.conv = .count size) :
    d.popped.p = d.ptr := by
  unfold popped argWords ptr unsignedValue
  rcases h with h | ⟨size, h⟩ <;> rw [h] <;>
    simp [Conv.type, Conv.long, Size.bits, popArg, vaWord, Arg.p]

end Directive

/-! ## Numbers -/

theorem digits_zero (b : Nat) (upper : Bool) : digits b upper 0 = [] := by
  simp [digits]

theorem digits_step {b n : Nat} (upper : Bool) (hb : 1 < b) (hn : n ≠ 0) :
    digits b upper n = digits b upper (n / b) ++ [digit upper (n % b)] := by
  rw [digits, Nat.digits_def' hb (Nat.pos_of_ne_zero hn), List.reverse_cons, List.map_append]
  rfl

theorem digits_eq_nil {b n : Nat} {upper : Bool} (hb : 1 < b) :
    digits b upper n = [] ↔ n = 0 := by
  constructor
  · intro h
    by_contra hn
    rw [digits_step upper hb hn] at h
    simp at h
  · rintro rfl
    exact digits_zero b upper

theorem digit_small {x : Nat} (hx : x < 10) : digit false x = UInt8.ofNat (48 + x) := if_pos hx

theorem fmtY_eq (n : Nat) (s : List UInt8) : fmtY n s = digits 10 false n ++ s := by
  fun_induction fmtY n s with
  | case1 s => simp [digits]
  | case2 n s hn ih =>
      rw [ih, digits_step false (by decide) hn, digit_small (Nat.mod_lt n (by decide))]
      simp

theorem fmtU_eq (n : Nat) (s : List UInt8) : fmtU n s = digits 10 false n ++ s := by
  fun_induction fmtU n s with
  | case1 n s hn ih =>
      rw [ih, digits_step (n := n) false (by decide) (by omega),
        digit_small (Nat.mod_lt n (by decide))]
      simp
  | case2 n s hn => exact fmtY_eq n s

theorem fmtO_eq (n : Nat) (s : List UInt8) : fmtO n s = digits 8 false n ++ s := by
  fun_induction fmtO n s with
  | case1 s => simp [digits]
  | case2 n s hn ih =>
      have hlt : n % 8 < 10 := by
        omega
      rw [ih, digits_step false (by decide) hn, digit_small hlt]
      simp

theorem xdigits_lower : ∀ x < 16, ∀ upper : Bool,
    xdigits x ||| (if upper then 0 else 32) = digit upper x := by
  decide

theorem fmtX_eq (n : Nat) (s : List UInt8) (upper : Bool) :
    fmtX n s (if upper then 0 else 32) = digits 16 upper n ++ s := by
  fun_induction fmtX n s (if upper then 0 else 32) with
  | case1 s => simp [digits]
  | case2 n s hn ih =>
      rw [ih, digits_step upper (by decide) hn,
        xdigits_lower _ (Nat.mod_lt n (by decide)) upper]
      simp

theorem length_numeral (p : Nat) (ds : List UInt8) : (numeral p ds).length = max p ds.length := by
  rw [numeral, List.length_append, List.length_replicate]
  omega

theorem length_fill (left zero : Bool) (w : Nat) (sign body : List UInt8) :
    (fill left zero w sign body).length = max w (sign.length + body.length) := by
  cases left <;> cases zero <;> simp [fill] <;> omega

/-- The digits of a number never leave `buf`, which has 43 bytes. -/
theorem fmt_fits (i : BitVec 64) (upper : Bool) :
    (fmtX i.toNat [] (if upper then 0 else 32)).length ≤ 22
      ∧ (fmtO i.toNat []).length ≤ 22 ∧ (fmtU i.toNat []).length ≤ 22 := by
  have hdigits : ∀ b upper, 8 ≤ b → (digits b upper i.toNat).length ≤ 22 := by
    intro b upper hb
    have hlt : i.toNat < b ^ 22 :=
      calc i.toNat < 2 ^ 64 := i.isLt
        _ ≤ 8 ^ 22 := by decide
        _ ≤ b ^ 22 := Nat.pow_le_pow_left hb 22
    simpa [digits] using (Nat.digits_length_le_iff (by omega) i.toNat).mpr hlt
  simp only [fmtX_eq, fmtO_eq, fmtU_eq, List.append_nil]
  exact ⟨hdigits 16 upper (by decide), hdigits 8 false (by decide), hdigits 10 false (by decide)⟩

/-- What the integer conversions have in common: the digits, and how many there are. -/
theorem number_eq {i : BitVec 64} {a sign : List UInt8} {xp : Bool} {p : Int} {fl : Flags}
    (hxp : xp → 0 ≤ p) (ha : i = 0 ↔ a = []) :
    ∃ q, number i a sign xp p fl = .text a sign q { fl with zero := fl.zero && !xp } ∧
      numeral q.toNat a = numeral (if p < 0 then 1 else p.toNat) a := by
  have hfl : (if xp then { fl with zero := false } else fl)
      = { fl with zero := fl.zero && !xp } := by
    cases xp <;> simp
  have hxp' : ¬(xp ∧ p < 0) := fun h => absurd h.2 (by simpa using hxp h.1)
  rw [number, if_neg hxp', hfl]
  dsimp only
  by_cases hi : i = 0
  · obtain rfl := ha.mp hi
    by_cases hp : p = 0
    · exact ⟨p, if_pos ⟨hi, hp⟩, by simp [hp]⟩
    · refine ⟨_, if_neg (fun h => hp h.2), ?_⟩
      have hcount : (max p (([] : List UInt8).length + if i = 0 then 1 else 0)).toNat
          = if p < 0 then 1 else p.toNat := by
        simp only [hi, List.length_nil, if_true]
        split <;> omega
      rw [hcount]
  · have hpos : 0 < a.length := List.length_pos_iff.mpr fun h => hi (ha.mpr h)
    refine ⟨_, if_neg (fun h => hi h.1), ?_⟩
    rw [numeral, numeral]
    congr 2
    simp only [hi, if_false]
    split <;> omega

/-! ## Fields -/

theorem padLoop_flatten (c : UInt8) (l : Nat) : (padLoop c l).flatten = List.replicate l c := by
  fun_induction padLoop c l with
  | case1 l hl ih =>
      rw [List.flatten_cons, ih, List.replicate_append_replicate, Nat.add_sub_cancel' hl]
  | case2 l hl => simp

theorem pad_flatten (c : UInt8) (w l : Int) (fl : Flags) : (pad true c w l fl).flatten
    = if fl.left || fl.zero then [] else List.replicate (w - l).toNat c := by
  unfold pad
  by_cases hfl : (fl.left || fl.zero) = true
  · simp [hfl]
  · by_cases hw : w ≤ l
    · have hnone : (w - l).toNat = 0 := by
        omega
      simp [hw, hnone]
    · simp [hfl, hw, padLoop_flatten]

/-- What is left of a conversion that writes `text`, if there is room for it in an int. -/
def Emits (st : Core) (text : List UInt8) (m' : Mem) (r : Except Result Core) : Prop :=
  if st.cnt + text.length ≤ intMax then
    ∃ cs, cs.flatten = text ∧
      r = .ok { st with cnt := st.cnt + text.length, mem := m', out := st.out ++ cs }
  else r = .error (fail EOVERFLOW st)

theorem field_emits {st : Core} {a sign : List UInt8} {w : Nat} {p : Int} {fl : Flags}
    (hfl : fl.left = false ∨ fl.zero = false) :
    Emits st (fill fl.left fl.zero w sign (numeral p.toNat a)) st.mem
      (field true st a sign w p fl) := by
  have hlen : (fill fl.left fl.zero w sign (numeral p.toNat a)).length
      = max w (sign.length + max p.toNat a.length) := by
    rw [length_fill, length_numeral]
  unfold Emits field
  rw [hlen]
  dsimp only
  split
  · rename_i hfits
    have hcnt : (max (w : Int) (sign.length + max p a.length)).toNat
        = max w (sign.length + max p.toNat a.length) := by
      omega
    have hzeros : (max p ↑a.length - ↑a.length).toNat = p.toNat - a.length := by
      omega
    have hfill : (max (w : Int) (sign.length + max p a.length)
        - (sign.length + max p a.length)).toNat = w - (sign.length + max p.toNat a.length) := by
      omega
    rw [if_neg (by omega), if_neg (by omega), hcnt]
    refine ⟨_, ?_, rfl⟩
    simp only [List.flatten_append, pad_flatten, hzeros, hfill, output, if_true, fill,
      length_numeral]
    rcases hfl with hl | hz
    · cases hz : fl.zero <;>
        simp [hl, numeral, Flags.none, -List.replicate_append_replicate]
    · cases hl : fl.left <;> simp [hz, numeral, Flags.none]
  · rename_i hfits
    by_cases hp : max p a.length > (intMax : Int) - sign.length
    · rw [if_pos hp]
    · rw [if_neg hp, if_pos (by omega)]

/-! ## One conversion -/

theorem strnlen_eq {m : Mem} {a n : Nat} {s : List UInt8}
    (hs : ∀ (i : Nat) (hi : i < s.length), m (a + i) = s[i]) (hzero : 0 ∉ s)
    (hend : n ≤ s.length ∨ m (a + s.length) = 0) : strnlen m a n = min s.length n := by
  induction n generalizing a s with
  | zero => simp [strnlen]
  | succ n ih =>
      rw [strnlen]
      cases s with
      | nil =>
          have hnul : m a = 0 := by
            simpa using hend
          simp [hnul]
      | cons c s =>
          have hc : m a = c := hs 0 (Nat.zero_lt_succ _)
          have hne : c ≠ 0 := fun h => hzero (by simp [h])
          have hrest := @ih (a + 1) s (fun i hi => by
              rw [Nat.add_assoc, Nat.add_comm 1]
              exact hs (i + 1) (Nat.succ_lt_succ hi))
            (fun h => hzero (List.mem_cons_of_mem c h))
            (by
              rw [Nat.add_assoc, Nat.add_comm 1]
              exact hend.imp Nat.le_of_succ_le_succ id)
          rw [hc, if_neg hne, hrest, List.length_cons]
          omega

theorem bytes_eq {m : Mem} {a n : Nat} {s : List UInt8}
    (hs : ∀ (i : Nat) (hi : i < s.length), m (a + i) = s[i]) (hn : n ≤ s.length) :
    StoreLog.bytes m a n = s.take n := by
  refine List.ext_getElem (by simp [StoreLog.bytes, hn]) ?_
  intro i hi hi'
  have hlt : i < s.length := by
    rw [List.length_take] at hi'
    omega
  simp [StoreLog.bytes, hs i hlt]

/-- Where `NULL` is given, `(null)` is read. -/
theorem null_isString (prec : Option Nat) :
    IsString (fun i => null.getD i 0) 0 prec (null.take (prec.getD null.length)) where
  here i hi := by
    rw [List.length_take] at hi
    simp [List.getElem_take, List.getElem?_eq_getElem (show i < null.length by omega)]
  nonzero h := absurd (List.mem_of_mem_take h) (by decide)
  short n hn := by
    simp [hn]
  ends := by
    cases prec with
    | none => exact .inr (by decide)
    | some n =>
        by_cases hn : n ≤ null.length
        · exact .inl (by simp [hn])
        · refine .inr ?_
          have hlen : null.length ≤ n := by
            omega
          simp [hlen]

namespace Directive

variable (d : Directive)

theorem precision_isNone : d.precision.isNone = !decide (0 ≤ d.p) := by
  rw [precision_eq]
  split <;> simp <;> omega

theorem precision_getD (n : Nat) : d.precision.getD n = if d.p < 0 then n else d.p.toNat := by
  rw [precision_eq]
  split <;> rfl

/-- The flags, as `printf_core` has them in front of the `switch`. -/
def flags' : Flags := ({ d.fl with left := d.left } : Flags).normal

theorem flags'_eq : d.flags' = { d.fl with left := d.left, zero := d.fl.zero && !d.left } := by
  unfold flags' Flags.normal
  cases h : d.left <;> simp

theorem fill_left {zero : Bool} {w : Nat} {sign body : List UInt8} :
    fill d.left (zero && !d.left) w sign body = fill d.left zero w sign body := by
  cases h : d.left <;> simp [fill]

end Directive

section

variable (fmtFp : List Word → Int → Int → Flags → UInt8 → List (List UInt8) × Int)
variable {st : Core} {d : Directive}

theorem emit_text {ps : Pre} {t : UInt8} {arg : Arg} {w p q : Int} {xp : Bool} {fl fl' : Flags}
    {a sign : List UInt8}
    (h : convert ps t arg xp p fl.normal st.cnt st.mem = .text a sign q fl') :
    emit fmtFp true st ps t arg w p xp fl = field true st a sign w q fl' := by
  rw [emit, h]

theorem emit_overflow {ps : Pre} {t : UInt8} {arg : Arg} {w p : Int} {xp : Bool} {fl : Flags}
    (h : convert ps t arg xp p fl.normal st.cnt st.mem = .overflow) :
    emit fmtFp true st ps t arg w p xp fl = .error (fail EOVERFLOW st) := by
  rw [emit, h]

theorem emit_stored {ps : Pre} {t : UInt8} {arg : Arg} {w p : Int} {xp : Bool} {fl : Flags}
    {m : Mem} (h : convert ps t arg xp p fl.normal st.cnt st.mem = .stored m) :
    emit fmtFp true st ps t arg w p xp fl = .ok { st with mem := m } := by
  rw [emit, h]

/-- The conversions that write characters as they are. -/
theorem emit_plain {ps : Pre} {t : UInt8} {a : List UInt8} {n : Nat}
    (h : convert ps t d.popped (0 ≤ d.p) d.p d.flags' st.cnt st.mem
      = .text a [] n { d.flags' with zero := false }) (hn : n ≤ a.length) :
    Emits st (fill d.left false d.width.value.natAbs [] a) st.mem
      (emit fmtFp true st ps t d.popped d.width.value.natAbs d.p (0 ≤ d.p)
        { d.fl with left := d.left }) := by
  have hfield := @field_emits st a [] d.width.value.natAbs n { d.flags' with zero := false }
    (.inr rfl)
  have hleft : d.flags'.left = d.left := by rw [d.flags'_eq]
  have hnumeral : numeral (n : Int).toNat a = a := by
    simp [numeral, Nat.sub_eq_zero_of_le hn]
  rw [hnumeral] at hfield
  rw [emit_text fmtFp h, ← hleft]
  exact hfield

/-- The integer conversions, with the precision `q` that they come to. -/
theorem emit_number {ps : Pre} {t : UInt8} {i : BitVec 64} {a sign : List UInt8} {q : Int}
    {fl : Flags}
    (h : convert ps t d.popped (0 ≤ d.p) d.p d.flags' st.cnt st.mem
      = number i a sign (0 ≤ d.p) q fl)
    (hleft : fl.left = d.left) (hzero : fl.zero = (d.fl.zero && !d.left))
    (hq : 0 ≤ d.p → 0 ≤ q) (ha : i = 0 ↔ a = []) {n : Nat}
    (hn : (if q < 0 then 1 else q.toNat) = n) :
    Emits st (fill d.left d.zero d.width.value.natAbs sign (numeral n a)) st.mem
      (emit fmtFp true st ps t d.popped d.width.value.natAbs d.p (0 ≤ d.p)
        { d.fl with left := d.left }) := by
  obtain ⟨r, hr, hnumeral⟩ := @number_eq i a sign (decide (0 ≤ d.p)) q fl (by simpa using hq) ha
  have hflags : (fl.zero && !decide (0 ≤ d.p)) = (d.zero && !d.left) := by
    rw [hzero, Directive.zero, d.precision_isNone, Bool.and_right_comm]
  have hfield := @field_emits st a sign d.width.value.natAbs r
    { fl with zero := fl.zero && !decide (0 ≤ d.p) } (by
      dsimp only
      rw [hflags, hleft]
      cases d.left <;> simp)
  dsimp only at hfield
  rw [hflags, hleft, d.fill_left, hnumeral, hn] at hfield
  rw [emit_text fmtFp (h.trans hr), hflags, hleft]
  exact hfield

theorem emit_signed {size : Size} {i : Bool} (hd : d.conv = .signed size i) :
    Emits st d.text st.mem
      (emit fmtFp true st size.pre d.conv.letter d.popped d.width.value.natAbs d.p (0 ≤ d.p)
        { d.fl with left := d.left }) := by
  have hvalue := Directive.popped_signed hd
  have hconvert : convert size.pre d.conv.letter d.popped (0 ≤ d.p) d.p d.flags' st.cnt st.mem
      = decimal d.popped.i (0 ≤ d.p) d.p d.flags' := by
    rw [hd]
    cases i <;> rfl
  have hbody : d.body
      = numeral (if d.p < 0 then 1 else d.p.toNat)
          (digits 10 false (d.signedValue size).natAbs) := by
    unfold Directive.body
    rw [hd, d.precision_getD]
  have hlt := d.popped.i.isLt
  have htoInt := BitVec.toInt_eq_toNat_cond d.popped.i
  have hfl := d.flags'_eq
  rw [Directive.text, hbody]
  by_cases hneg : d.signedValue size < 0
  · -- the digits are those of the number with the other sign
    have hbig : 2 ^ 63 ≤ d.popped.i.toNat := by
      omega
    have habs : (-d.popped.i).toNat = (d.signedValue size).natAbs := by
      rw [BitVec.toNat_neg]
      omega
    have hsign : d.sign = [45] := by
      unfold Directive.sign
      rw [hd]
      exact if_pos hneg
    rw [decimal, if_pos hbig, habs, fmtU_eq, List.append_nil] at hconvert
    rw [hsign]
    refine emit_number fmtFp hconvert (by rw [hfl]) (by rw [hfl]) id ?_ rfl
    rw [digits_eq_nil (by decide), ← BitVec.toNat_inj, habs]
    rfl
  · have hsmall : ¬2 ^ 63 ≤ d.popped.i.toNat := by
      omega
    have habs : d.popped.i.toNat = (d.signedValue size).natAbs := by
      omega
    have hsign : d.sign
        = if d.flags'.markPos then [43] else if d.flags'.padPos then [32] else [] := by
      unfold Directive.sign
      rw [hd, hfl]
      exact if_neg hneg
    rw [decimal, if_neg hsmall, habs, fmtU_eq, List.append_nil, ← hsign] at hconvert
    refine emit_number fmtFp hconvert (by rw [hfl]) (by rw [hfl]) id ?_ rfl
    rw [digits_eq_nil (by decide), ← BitVec.toNat_inj, habs]
    rfl

theorem emit_unsigned {size : Size} (hd : d.conv = .unsigned size) :
    Emits st d.text st.mem
      (emit fmtFp true st size.pre d.conv.letter d.popped d.width.value.natAbs d.p (0 ≤ d.p)
        { d.fl with left := d.left }) := by
  have hvalue := Directive.popped_unsigned (.inl hd)
  have hconvert : convert size.pre d.conv.letter d.popped (0 ≤ d.p) d.p d.flags' st.cnt st.mem
      = number d.popped.i (fmtU d.popped.i.toNat []) [] (0 ≤ d.p) d.p d.flags' := by
    rw [hd]
    rfl
  have hbody : d.body
      = numeral (if d.p < 0 then 1 else d.p.toNat) (digits 10 false (d.unsignedValue size)) := by
    unfold Directive.body
    rw [hd, d.precision_getD]
  have hsign : d.sign = [] := by
    unfold Directive.sign
    rw [hd]
  have hfl := d.flags'_eq
  rw [fmtU_eq, List.append_nil, hvalue] at hconvert
  rw [Directive.text, hbody, hsign]
  refine emit_number fmtFp hconvert (by rw [hfl]) (by rw [hfl]) id ?_ rfl
  rw [digits_eq_nil (by decide), ← BitVec.toNat_inj, hvalue]
  rfl

theorem emit_octal {size : Size} (hd : d.conv = .octal size) :
    Emits st d.text st.mem
      (emit fmtFp true st size.pre d.conv.letter d.popped d.width.value.natAbs d.p (0 ≤ d.p)
        { d.fl with left := d.left }) := by
  have hvalue := Directive.popped_unsigned (.inr (.inl hd))
  have hfl := d.flags'_eq
  have halt : d.flags'.alt = d.fl.alt := by rw [hfl]
  have hconvert : convert size.pre d.conv.letter d.popped (0 ≤ d.p) d.p d.flags' st.cnt st.mem
      = number d.popped.i (fmtO d.popped.i.toNat []) [] (0 ≤ d.p)
          (if d.flags'.alt ∧ d.p < (fmtO d.popped.i.toNat []).length + 1 then
            (fmtO d.popped.i.toNat []).length + 1 else d.p) d.flags' := by
    rw [hd]
    rfl
  have hsign : d.sign = [] := by
    unfold Directive.sign
    rw [hd]
  rw [fmtO_eq, List.append_nil, hvalue, halt] at hconvert
  have hbody : d.body = numeral
      (if d.fl.alt then max (if d.p < 0 then 1 else d.p.toNat)
          ((digits 8 false (d.unsignedValue size)).length + 1)
        else if d.p < 0 then 1 else d.p.toNat) (digits 8 false (d.unsignedValue size)) := by
    unfold Directive.body
    rw [hd, d.precision_getD]
  rw [Directive.text, hbody, hsign]
  refine emit_number fmtFp hconvert (by rw [hfl]) (by rw [hfl]) ?_ ?_ ?_
  · intro hp
    split <;> omega
  · rw [digits_eq_nil (by decide), ← BitVec.toNat_inj, hvalue]
    rfl
  · cases d.fl.alt
    · simp
    · simp only [true_and, if_true]
      split_ifs <;> omega

/-- `%x`, `%X` and `%p`, which differ in the precision and in when `0x` stands before. -/
theorem emit_hex {ps : Pre} {t t' : UInt8} (upper : Bool) {q : Int} {fl : Flags} {n : Nat}
    (h : convert ps t d.popped (0 ≤ d.p) d.p d.flags' st.cnt st.mem
      = hex t' d.popped.i (0 ≤ d.p) q fl)
    (hlower : t' &&& 32 = if upper then 0 else 32)
    (hleft : fl.left = d.left) (hzero : fl.zero = (d.fl.zero && !d.left))
    (hq : 0 ≤ d.p → 0 ≤ q) (hn : (if q < 0 then 1 else q.toNat) = n) :
    Emits st (fill d.left d.zero d.width.value.natAbs
        (if d.popped.i.toNat ≠ 0 ∧ fl.alt then [48, t'] else [])
        (numeral n (digits 16 upper d.popped.i.toNat))) st.mem
      (emit fmtFp true st ps t d.popped d.width.value.natAbs d.p (0 ≤ d.p)
        { d.fl with left := d.left }) := by
  have hne : d.popped.i ≠ 0 ↔ d.popped.i.toNat ≠ 0 := by
    rw [Ne, ← BitVec.toNat_inj]
    rfl
  rw [hex, hlower, fmtX_eq, List.append_nil] at h
  simp only [hne] at h
  refine emit_number fmtFp h hleft hzero hq ?_ hn
  rw [digits_eq_nil (by decide), ← BitVec.toNat_inj]
  rfl

theorem emit_hexadecimal {size : Size} {upper : Bool} (hd : d.conv = .hex size upper) :
    Emits st d.text st.mem
      (emit fmtFp true st size.pre d.conv.letter d.popped d.width.value.natAbs d.p (0 ≤ d.p)
        { d.fl with left := d.left }) := by
  have hvalue := Directive.popped_unsigned (.inr (.inr ⟨upper, hd⟩))
  have hfl := d.flags'_eq
  have hconvert : convert size.pre d.conv.letter d.popped (0 ≤ d.p) d.p d.flags' st.cnt st.mem
      = hex (if upper then 88 else 120) d.popped.i (0 ≤ d.p) d.p d.flags' := by
    rw [hd]
    cases upper <;> rfl
  have hemit := emit_hex fmtFp upper hconvert (by cases upper <;> rfl) (by rw [hfl])
    (by rw [hfl]) id rfl
  have hsign : d.sign
      = if d.unsignedValue size ≠ 0 ∧ d.flags'.alt then [48, if upper then 88 else 120]
        else [] := by
    unfold Directive.sign
    rw [hd, hfl]
    simp only [and_comm]
  have hbody : d.body
      = numeral (if d.p < 0 then 1 else d.p.toNat) (digits 16 upper (d.unsignedValue size)) := by
    unfold Directive.body
    rw [hd, d.precision_getD]
  rw [hvalue] at hemit
  rwa [Directive.text, hsign, hbody]

theorem emit_pointer (hd : d.conv = .pointer) :
    Emits st d.text st.mem
      (emit fmtFp true st .bare d.conv.letter d.popped d.width.value.natAbs d.p (0 ≤ d.p)
        { d.fl with left := d.left }) := by
  have hvalue := Directive.popped_pointer hd
  have hfl := d.flags'_eq
  have hconvert : convert .bare d.conv.letter d.popped (0 ≤ d.p) d.p d.flags' st.cnt st.mem
      = hex 120 d.popped.i (0 ≤ d.p) (if d.p < 0 then d.p else max d.p 8)
          { d.flags' with alt := true } := by
    rw [hd]
    rfl
  have hemit := emit_hex fmtFp false hconvert rfl (by rw [hfl]) (by rw [hfl])
    (fun hp => by rw [if_neg (not_lt.mpr hp)]; omega) rfl
  have hsign : d.sign = if d.unsignedValue .int ≠ 0 then [48, 120] else [] := by
    unfold Directive.sign
    rw [hd]
  have hbody : d.body = numeral
      (if (if d.p < 0 then d.p else max d.p 8) < 0 then 1
        else (if d.p < 0 then d.p else max d.p 8).toNat)
      (digits 16 false (d.unsignedValue .int)) := by
    unfold Directive.body
    rw [hd]
    dsimp only
    rw [d.precision_eq]
    by_cases hp : d.p < 0
    · simp [hp]
    · have hmax : (max d.p 8).toNat = max 8 d.p.toNat := by
        omega
      simp [hp, hmax]
  rw [hvalue] at hemit
  rw [Directive.text, hsign, hbody]
  simpa using hemit

theorem emit_char (hd : d.conv = .char) :
    Emits st (fill d.left false d.width.value.natAbs [] [d.arg.toNat.toUInt8]) st.mem
      (emit fmtFp true st .bare d.conv.letter d.popped d.width.value.natAbs d.p (0 ≤ d.p)
        { d.fl with left := d.left }) := by
  have hconvert : convert .bare d.conv.letter d.popped (0 ≤ d.p) d.p d.flags' st.cnt st.mem
      = .text [d.arg.toNat.toUInt8] [] 1 { d.flags' with zero := false } := by
    rw [hd, ← Directive.popped_char hd]
    rfl
  exact emit_plain fmtFp (n := 1) hconvert (Nat.le_refl 1)

theorem emit_string (hd : d.conv = .string) {s : List UInt8}
    (hs : if d.ptr = 0 then s = null.take (d.precision.getD null.length)
      else IsString st.mem d.ptr d.precision s) :
    Emits st (fill d.left false d.width.value.natAbs [] s) st.mem
      (emit fmtFp true st .bare d.conv.letter d.popped d.width.value.natAbs d.p (0 ≤ d.p)
        { d.fl with left := d.left }) := by
  have hptr := Directive.popped_ptr (.inl hd)
  -- NULL is an address where `(null)` is
  obtain ⟨m, hm, hstr⟩ : ∃ m : Mem, (if d.ptr = 0 then fun i => null.getD i 0 else st.mem) = m
      ∧ IsString m d.ptr d.precision s := by
    by_cases hnull : d.ptr = 0
    · rw [if_pos hnull] at hs
      refine ⟨_, if_pos hnull, ?_⟩
      rw [hnull, hs]
      exact null_isString d.precision
    · rw [if_neg hnull] at hs
      exact ⟨_, if_neg hnull, hs⟩
  have hconvert : convert .bare d.conv.letter d.popped (0 ≤ d.p) d.p d.flags' st.cnt st.mem
      = string d.popped d.p d.flags' st.mem := by
    rw [hd]
    rfl
  rw [string, hptr] at hconvert
  simp only [hm] at hconvert
  by_cases hp : d.p < 0
  · have hprec : d.precision = none := by
      rw [d.precision_eq, if_pos hp]
    have hnul : m (d.ptr + s.length) = 0 :=
      hstr.ends.resolve_left (by rw [hprec]; simp)
    rw [if_pos hp, strnlen_eq hstr.here hstr.nonzero (.inr hnul)] at hconvert
    by_cases hlong : intMax < s.length
    · -- the string alone is too long for an int
      have hmin : min s.length intMax = intMax := by
        omega
      have hne : m (d.ptr + intMax) ≠ 0 := by
        rw [hstr.here intMax hlong]
        exact fun h => hstr.nonzero (h ▸ List.getElem_mem hlong)
      rw [hmin, if_pos ⟨hp, hne⟩] at hconvert
      rw [Emits, length_fill, if_neg (by omega)]
      exact emit_overflow fmtFp hconvert
    · have hmin : min s.length intMax = s.length := by
        omega
      rw [hmin, if_neg (fun h => h.2 hnul), bytes_eq hstr.here (Nat.le_refl _),
        List.take_length] at hconvert
      exact emit_plain fmtFp hconvert (Nat.le_refl _)
  · have hprec : d.precision = some d.p.toNat := by
      rw [d.precision_eq, if_neg hp]
    have hshort := hstr.short _ hprec
    have hends : d.p.toNat ≤ s.length ∨ m (d.ptr + s.length) = 0 :=
      hstr.ends.imp (fun h => (Option.some.inj (hprec.symm.trans h)).le) id
    have hmin : min s.length d.p.toNat = s.length := by
      omega
    rw [if_neg hp, strnlen_eq hstr.here hstr.nonzero hends, hmin, if_neg (fun h => hp h.1),
      bytes_eq hstr.here (Nat.le_refl _), List.take_length] at hconvert
    exact emit_plain fmtFp hconvert (Nat.le_refl _)

theorem emit_count {size : Size} (hd : d.conv = .count size) (hcnt : st.cnt ≤ intMax) :
    Emits st [] (store size.pre d.ptr st.cnt st.mem)
      (emit fmtFp true st size.pre d.conv.letter d.popped d.width.value.natAbs d.p (0 ≤ d.p)
        { d.fl with left := d.left }) := by
  have hconvert : convert size.pre d.conv.letter d.popped (0 ≤ d.p) d.p d.flags' st.cnt st.mem
      = .stored (store size.pre d.ptr st.cnt st.mem) := by
    rw [hd, ← Directive.popped_ptr (.inr ⟨size, hd⟩)]
    rfl
  rw [emit_stored fmtFp hconvert]
  exact (if_pos hcnt).mpr ⟨[], rfl, by simp⟩

theorem emit_emits {text : List UInt8} {m' : Mem} (hcnt : st.cnt ≤ intMax)
    (h : d.Writes st.mem st.cnt text m') :
    Emits st text m' (emit fmtFp true st d.conv.size.pre d.conv.letter d.popped
      d.width.value.natAbs d.p (0 ≤ d.p) { d.fl with left := d.left }) := by
  unfold Directive.Writes at h
  split at h
  · rename_i size hd
    obtain ⟨rfl, rfl⟩ := h
    have hemit := emit_count fmtFp hd hcnt
    rwa [show d.conv.size = size by rw [hd]; rfl]
  · rename_i hd
    obtain ⟨rfl, s, rfl, hs⟩ := h
    have hemit := emit_string fmtFp hd hs
    rwa [show d.conv.size = .int by rw [hd]; rfl]
  · rename_i hd
    obtain ⟨rfl, rfl⟩ := h
    have hemit : Emits st _ st.mem _ := emit_char fmtFp hd
    rwa [show d.conv.size = .int by rw [hd]; rfl]
  · rename_i hcount hstring hchar
    obtain ⟨rfl, rfl⟩ := h
    cases hd : d.conv with
    | signed size i =>
        rw [← hd, show d.conv.size = _ from congrArg Conv.size hd]
        exact emit_signed fmtFp hd
    | unsigned size =>
        rw [← hd, show d.conv.size = _ from congrArg Conv.size hd]
        exact emit_unsigned fmtFp hd
    | octal size =>
        rw [← hd, show d.conv.size = _ from congrArg Conv.size hd]
        exact emit_octal fmtFp hd
    | hex size upper =>
        rw [← hd, show d.conv.size = _ from congrArg Conv.size hd]
        exact emit_hexadecimal fmtFp hd
    | pointer =>
        rw [← hd, show d.conv.size = _ from congrArg Conv.size hd]
        exact emit_pointer fmtFp hd
    | char => exact absurd hd hchar
    | string => exact absurd hd hstring
    | count size => exact absurd hd (hcount size)

end

end Printf

end Shitos
