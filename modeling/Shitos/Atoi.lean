import Shitos.PrintfLoop

/-!
# Reading numbers back

`atoi`, `atol` and `atoll` are one function for ints of different widths. It counts down
from zero, so that the least int can be read. What `snprintf` writes for `%d`, with any
flags, width and precision, is read back as the number that was given to it
(`snprintf_atoi`).
-/

namespace Shitos

namespace Printf

open Stdio StoreLog

/-! ## The functions -/

def isspace (c : UInt8) : Bool := c = 32 || c - 9 < 5

/-- `n = 10*n - (*s++ - '0')`, as long as there are digits. -/
def countDown {w : Nat} (n : BitVec w) : List UInt8 → BitVec w
  | [] => n
  | c :: s => if isdigit c then countDown (10 * n - BitVec.ofNat w (c - 48).toNat) s else n

/-- `atoi` for ints of `w` bits, on the characters before the NUL. -/
def ato (w : Nat) (s : List UInt8) : BitVec w :=
  match s.dropWhile isspace with
  | 45 :: s => countDown 0 s
  | 43 :: s => -countDown 0 s
  | s => -countDown 0 s

def atoi (s : List UInt8) : BitVec 32 := ato 32 s

def atol (s : List UInt8) : BitVec 32 := ato 32 s

def atoll (s : List UInt8) : BitVec 64 := ato 64 s

/-- `snprintf`. -/
def snprintf (fmtFp : List Word → Int → Int → Flags → UInt8 → List (List UInt8) × Int)
    (s n : Nat) (fmt : List UInt8) (ap : List Word) (m : Mem) : Printed :=
  vsnprintf s n (vfprintf fmtFp fmt ap m).formatted

/-! ## Digits -/

theorem value_append (ds es : List UInt8) (n : Nat) :
    value (ds ++ es) n = value es (value ds n) := by
  rw [value, List.foldl_append]
  rfl

theorem digit_sub {x : Nat} (hx : x < 10) : (digit false x - 48).toNat = x := by
  rw [digit_small hx, UInt8.toNat_sub, UInt8.toNat_ofNat']
  change (2 ^ 8 - 48 + (48 + x) % 2 ^ 8) % 2 ^ 8 = x
  omega

theorem value_digits (n : Nat) : value (digits 10 false n) 0 = n := by
  induction n using Nat.strong_induction_on with
  | h n ih =>
      by_cases hn : n = 0
      · subst hn
        rw [digits_zero]
        rfl
      · have hlast : value [digit false (n % 10)] (n / 10) = n := by
          change 10 * (n / 10) + (digit false (n % 10) - 48).toNat = n
          rw [digit_sub (Nat.mod_lt n (by decide))]
          omega
        rw [digits_step false (by decide) hn, value_append, ih (n / 10) (by omega), hlast]

theorem value_zeros (k : Nat) : value (List.replicate k 48) 0 = 0 := by
  induction k with
  | zero => rfl
  | succ k ih => exact ih

theorem digit_isdigit {x : Nat} (hx : x < 10) : isdigit (digit false x) := by
  rw [isdigit_iff, digit_small hx, UInt8.toNat_ofNat']
  omega

theorem digits_isdigit {n : Nat} {c : UInt8} (hc : c ∈ digits 10 false n) : isdigit c := by
  simp only [digits, List.mem_map, List.mem_reverse] at hc
  obtain ⟨x, hx, rfl⟩ := hc
  exact digit_isdigit (Nat.digits_lt_base (by decide) hx)

/-! ## Counting down -/

section

variable {w : Nat}

theorem countDown_digits {ds s : List UInt8} (hds : ∀ c ∈ ds, isdigit c)
    (hs : ∀ c, s.head? = some c → isdigit c = false) (n : Nat) :
    countDown (BitVec.ofInt w (-n)) (ds ++ s) = BitVec.ofInt w (-value ds n) := by
  induction ds generalizing n with
  | nil =>
      cases s with
      | nil => rfl
      | cons c s =>
          rw [List.nil_append, countDown, hs c rfl]
          rfl
  | cons c ds ih =>
      have hnext : 10 * BitVec.ofInt w (-n) - BitVec.ofNat w (c - 48).toNat
          = BitVec.ofInt w (-(10 * n + (c - 48).toNat : Nat)) := by
        have hten : (10 : BitVec w) = BitVec.ofInt w 10 := rfl
        rw [hten, ← BitVec.ofInt_mul, ← BitVec.ofInt_natCast, BitVec.sub_eq_add_neg,
          ← BitVec.ofInt_neg, ← BitVec.ofInt_add]
        congr 1
        push_cast
        omega
      rw [List.cons_append, countDown, if_pos (hds c List.mem_cons_self), hnext,
        ih fun c' hc' => hds c' (List.mem_cons_of_mem c hc')]
      rfl

theorem isspace_of_digit {c : UInt8} (hc : isdigit c) : isspace c = false ∧ c ≠ 45 ∧ c ≠ 43 := by
  have hspace : ∀ c : UInt8, isdigit c = true → isspace c = false := by
    intro c hc
    rw [isdigit_iff] at hc
    simp only [isspace, Bool.or_eq_false_iff, decide_eq_false_iff_not, UInt8.lt_iff_toNat_lt,
      UInt8.toNat_sub, ← UInt8.toNat_inj]
    change ¬c.toNat = 32 ∧ ¬(2 ^ 8 - 9 + c.toNat) % 2 ^ 8 < 5
    omega
  refine ⟨hspace c hc, ?_, ?_⟩ <;>
  · rintro rfl
    revert hc
    decide

theorem ato_unsigned {s t : List UInt8} (hs : s.dropWhile isspace = t)
    (ht : ∀ c, t.head? = some c → c ≠ 45 ∧ c ≠ 43) : ato w s = -countDown 0 t := by
  unfold ato
  rw [hs]
  split
  · exact absurd rfl (ht 45 rfl).1
  · exact absurd rfl (ht 43 rfl).2
  · rfl

theorem not_isdigit_spaces (k : Nat) (c : UInt8)
    (hc : (List.replicate k (32 : UInt8)).head? = some c) : isdigit c = false := by
  obtain rfl := List.eq_of_mem_replicate (List.mem_of_mem_head? hc)
  rfl

/-- White space in front is skipped, and what follows the digits is not read. -/
theorem ato_eq {l sign ds : List UInt8} (neg : Bool) (k : Nat) (hl : ∀ c ∈ l, isspace c)
    (hsign : neg = true ∧ sign = [45] ∨ neg = false ∧ (sign = [] ∨ sign = [43]))
    (hds : ∀ c ∈ ds, isdigit c) : ato w (l ++ (sign ++ (ds ++ List.replicate k 32)))
      = BitVec.ofInt w (if neg then -(value ds 0 : Int) else value ds 0) := by
  have hcount := @countDown_digits w ds (List.replicate k 32) hds (not_isdigit_spaces k) 0
  have hzero : BitVec.ofInt w (-(0 : Nat)) = 0 := rfl
  rw [hzero] at hcount
  rcases hsign with ⟨rfl, rfl⟩ | ⟨rfl, rfl | rfl⟩
  · rw [ato, List.dropWhile_append_of_pos hl]
    exact hcount
  · have hneg : -BitVec.ofInt w (-(value ds 0 : Int)) = BitVec.ofInt w (value ds 0) := by
      rw [← BitVec.ofInt_neg, Int.neg_neg]
    cases ds with
    | nil =>
        have hnil : (l ++ ([] ++ ([] ++ List.replicate k 32))).dropWhile isspace = [] := by
          rw [List.dropWhile_append_of_pos hl]
          simp [isspace]
        rw [ato_unsigned hnil (by simp)]
        simp [countDown, value]
    | cons c ds =>
        have hc := isspace_of_digit (hds c List.mem_cons_self)
        rw [ato_unsigned (t := c :: ds ++ List.replicate k 32)
          (by rw [List.dropWhile_append_of_pos hl]; simp [hc.1]) (by
            intro c' hc'
            obtain rfl := Option.some.inj hc'
            exact hc.2), hcount]
        exact hneg
  · rw [ato, List.dropWhile_append_of_pos hl]
    change -countDown 0 (ds ++ List.replicate k 32) = _
    rw [hcount, ← BitVec.ofInt_neg, Int.neg_neg]
    rfl

end

/-! ## The round trip -/

theorem fill_shape (left zero : Bool) (w p : Nat) (sign ds : List UInt8) :
    ∃ a z k, fill left zero w sign (numeral p ds) = List.replicate a 32
      ++ (sign ++ ((List.replicate z 48 ++ ds) ++ List.replicate k 32)) := by
  cases left
  · cases zero
    · refine ⟨w - (sign.length + (numeral p ds).length), p - ds.length, 0, ?_⟩
      simp [fill, numeral]
    · refine ⟨0, w - (sign.length + (numeral p ds).length) + (p - ds.length), 0, ?_⟩
      rw [← List.replicate_append_replicate]
      simp [fill, numeral, -List.replicate_append_replicate]
  · refine ⟨0, p - ds.length, w - (sign.length + (numeral p ds).length), ?_⟩
    simp [fill, numeral]

namespace Directive

variable {d : Directive} {size : Size} {i : Bool}

/-- What `%d` writes: white space, a sign and digits, and white space. -/
theorem text_signed (hd : d.conv = .signed size i) : ∃ l sign ds k,
    d.text = l ++ (sign ++ (ds ++ List.replicate k 32)) ∧ (∀ c ∈ l, c = 32)
      ∧ (d.signedValue size < 0 ∧ sign = [45] ∨ 0 ≤ d.signedValue size ∧ (sign = [] ∨ sign = [43]))
      ∧ (∀ c ∈ ds, isdigit c) ∧ value ds 0 = (d.signedValue size).natAbs := by
  have hbody : d.body
      = numeral (d.precision.getD 1) (digits 10 false (d.signedValue size).natAbs) := by
    unfold body
    rw [hd]
  obtain ⟨a, z, k, hfill⟩ := fill_shape d.left d.zero d.width.value.natAbs (d.precision.getD 1)
    d.sign (digits 10 false (d.signedValue size).natAbs)
  have hdigit : ∀ c ∈ List.replicate z 48 ++ digits 10 false (d.signedValue size).natAbs,
      isdigit c := by
    intro c hc
    rcases List.mem_append.mp hc with hc | hc
    · obtain rfl := List.eq_of_mem_replicate hc
      rfl
    · exact digits_isdigit hc
  have hvalue : value (List.replicate z 48 ++ digits 10 false (d.signedValue size).natAbs) 0
      = (d.signedValue size).natAbs := by
    rw [value_append, value_zeros, value_digits]
  have hsign : d.sign = if d.signedValue size < 0 then [45] else if d.fl.markPos then [43]
      else if d.fl.padPos then [32] else [] := by
    unfold sign
    rw [hd]
  rw [text, hbody, hfill]
  have hspaces : ∀ c ∈ List.replicate a (32 : UInt8), c = 32 := fun c hc =>
    List.eq_of_mem_replicate hc
  by_cases hneg : d.signedValue size < 0
  · rw [if_pos hneg] at hsign
    exact ⟨_, _, _, _, rfl, hspaces, .inl ⟨hneg, hsign⟩, hdigit, hvalue⟩
  · have hnonneg := not_lt.mp hneg
    rw [if_neg hneg] at hsign
    cases hplus : d.fl.markPos
    · cases hspace : d.fl.padPos
      · rw [hplus, hspace] at hsign
        exact ⟨_, _, _, _, rfl, hspaces, .inr ⟨hnonneg, .inl hsign⟩, hdigit, hvalue⟩
      · -- the space for a sign is white space too
        rw [hplus, hspace] at hsign
        refine ⟨List.replicate a 32 ++ [32], [], _, k, ?_, ?_, .inr ⟨hnonneg, .inl rfl⟩, hdigit,
          hvalue⟩
        · simp [hsign]
        · intro c hc
          rcases List.mem_append.mp hc with hc | hc
          · exact hspaces c hc
          · exact List.mem_singleton.mp hc
    · rw [hplus] at hsign
      exact ⟨_, _, _, _, rfl, hspaces, .inr ⟨hnonneg, .inr hsign⟩, hdigit, hvalue⟩

theorem ato_text (hd : d.conv = .signed size i) (w : Nat) :
    ato w d.text = BitVec.ofInt w (d.signedValue size) := by
  obtain ⟨l, sign, ds, k, htext, hl, hsign, hds, hvalue⟩ := text_signed hd
  have hspace : ∀ c ∈ l, isspace c := by
    intro c hc
    rw [hl c hc]
    rfl
  rw [htext, ato_eq (d.signedValue size < 0) k hspace ?_ hds, hvalue]
  · congr 1
    simp only [decide_eq_true_eq]
    split <;> omega
  · rcases hsign with ⟨hneg, hsign⟩ | ⟨hnonneg, hsign⟩
    · exact .inl ⟨by simpa using hneg, hsign⟩
    · exact .inr ⟨by simpa using hnonneg, hsign⟩

theorem zero_notMem_text (hd : d.conv = .signed size i) : 0 ∉ d.text := by
  obtain ⟨l, sign, ds, k, htext, hl, hsign, hds, -⟩ := text_signed hd
  intro hmem
  simp only [htext, List.mem_append] at hmem
  rcases hmem with h | h | h | h
  · exact absurd (hl 0 h) (by decide)
  · rcases hsign with ⟨-, rfl⟩ | ⟨-, rfl | rfl⟩
    · exact absurd h (by decide)
    · exact absurd h (by decide)
    · exact absurd h (by decide)
  · exact absurd (hds 0 h) (by decide)
  · exact absurd (List.eq_of_mem_replicate h) (by decide)

end Directive

/-- Bytes that have been stored with a zero behind them are a string. -/
theorem isString_stored {m : Mem} {s : Nat} {t : List UInt8} (ht : 0 ∉ t) :
    IsString (after m (storeAt s (t ++ [0]))) s none t := by
  have hbytes := bytes_after_storeAt m s (t ++ [0])
  have hget : ∀ (j : Nat) (hj : j < (t ++ [0]).length),
      after m (storeAt s (t ++ [0])) (s + j) = (t ++ [0])[j] := by
    intro j hj
    have hj' : j < (bytes (after m (storeAt s (t ++ [0]))) s (t ++ [0]).length).length := by
      rw [hbytes]
      exact hj
    calc after m (storeAt s (t ++ [0])) (s + j)
        = (bytes (after m (storeAt s (t ++ [0]))) s (t ++ [0]).length)[j] := by simp [bytes]
      _ = (t ++ [0])[j] := by simp only [hbytes]
  refine ⟨?_, ht, by simp, .inr ?_⟩
  · intro j hj
    rw [hget j (by rw [List.length_append]; omega), List.getElem_append_left hj]
  · rw [hget t.length (by simp)]
    simp

/-- The number fits an int of at least as many bits as it is given with. -/
theorem toInt_signedValue {size : Size} {w : Nat} (d : Directive) (hw : size.bits ≤ w) :
    (BitVec.ofInt w (d.signedValue size)).toInt = d.signedValue size := by
  have hpos : 0 < size.bits := by
    cases size <;> decide
  have hlow := BitVec.le_toInt (d.arg.setWidth size.bits)
  have hhigh := BitVec.toInt_lt (x := d.arg.setWidth size.bits)
  have hpow : (2 : Int) ^ (size.bits - 1) ≤ 2 ^ (w - 1) := by
    exact_mod_cast Nat.pow_le_pow_right (by decide) (by omega)
  refine BitVec.toInt_ofInt_eq_self (by omega) ?_ ?_
  · exact (neg_le_neg hpow).trans hlow
  · exact hhigh.trans_le hpow

/-- What `snprintf` writes for `%d`, with any flags, width and precision, is a string that
`atoi` and its siblings read as the number that was given, where they have room for it. -/
theorem snprintf_atoi (fmtFp : List Word → Int → Int → Flags → UInt8 → List (List UInt8) × Int)
    {d : Directive} {size : Size} {i : Bool} (hd : d.conv = .signed size i) (m : Mem) (s n : Nat)
    (ap : List Word) (hroom : d.text.length < n) (hmax : n ≤ intMax) :
    ∃ t, (snprintf fmtFp s n (37 :: d.bytes) (d.words ++ ap) m).ret = t.length
      ∧ IsString (after m (snprintf fmtFp s n (37 :: d.bytes) (d.words ++ ap) m).log) s none t
      ∧ (atoll t).toInt = d.signedValue size
      ∧ (size.bits ≤ 32 → (atoi t).toInt = d.signedValue size
        ∧ (atol t).toInt = d.signedValue size) := by
  have hwrites : Writes m 0 [.conv d] d.text m := by
    have hd' : d.Writes m 0 d.text m := by
      unfold Directive.Writes
      rw [hd]
      exact ⟨rfl, rfl⟩
    have hconv := Writes.conv hd' (Writes.nil m _)
    rwa [List.append_nil] at hconv
  have hbytes : bytesOf [.conv d] = 37 :: d.bytes := by
    simp [bytesOf, Item.bytes]
  have hwords : wordsOf [.conv d] = d.words := by
    simp [wordsOf, Item.words]
  have hprints := @vfprintf_prints fmtFp _ ap _ _ _ hwrites
  rw [hbytes, hwords] at hprints
  unfold Prints at hprints
  simp only [start, Nat.zero_add, List.flatten_nil, List.nil_append] at hprints
  rw [if_pos (by omega)] at hprints
  obtain ⟨hret, -, hout, -, -⟩ := hprints
  have hlog := after_vsnprintf (m := m) (s := s) (by omega) hmax
    (vfprintf fmtFp (37 :: d.bytes) (d.words ++ ap) m).formatted
  have hchunks : (vfprintf fmtFp (37 :: d.bytes) (d.words ++ ap) m).formatted.chunks.flatten.take
      (n - 1) = d.text := by
    rw [Result.formatted, hout, List.take_of_length_le (by omega)]
  refine ⟨d.text, ?_, ?_, ?_, ?_⟩
  · rw [snprintf, vsnprintf, if_neg (by omega)]
    exact hret
  · rw [snprintf, hlog, hchunks]
    exact isString_stored (Directive.zero_notMem_text hd)
  · have hbits : size.bits ≤ 64 := by
      cases size <;> decide
    rw [atoll, Directive.ato_text hd, toInt_signedValue d hbits]
  · intro hbits
    rw [atoi, atol, Directive.ato_text hd, toInt_signedValue d hbits]
    exact ⟨rfl, rfl⟩

theorem snprintf_atoi_decimal :
    ∃ t, (snprintf (fun _ _ _ _ _ => ([], 0)) 0x1000 16 [37, 100] [42] (fun _ => 0xff)).ret
        = t.length
      ∧ (atoi t).toInt = 42 := by
  obtain ⟨t, hret, -, -, hatoi⟩ := snprintf_atoi (fun _ _ _ _ _ => ([], 0))
    (d := .plain 42) (i := false) rfl (fun _ => 0xff) 0x1000 16 []
    (by rw [Directive.text_plain]; decide) (by decide)
  exact ⟨t, hret, (hatoi (by decide)).1⟩

end Printf

end Shitos
