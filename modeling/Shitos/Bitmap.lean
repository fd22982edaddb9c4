import Mathlib.Data.Finset.Card
import Mathlib.Data.Nat.Bitwise
import Shitos.Mem

/-!
# Bitmaps of 32-bit words

A bitmap is a memory read as consecutive little-endian words. `ffsl` is the
find-first-set of the C library; applied to a complemented word it finds the
lowest clear bit. The two updates are the read-modify-write statements
`map[w] |= 1 << i` and `map[w] &= ~(1 << i)`, and the lemmas say what they do
to the bit view `bitAt` and to the number of clear bits.
-/

namespace Shitos

/-! ## Words -/

/-- The complement of a 32-bit word. -/
def not32 (w : Nat) : Nat := w ^^^ (2 ^ 32 - 1)

/-- `ffsl`: one plus the index of the lowest set bit, zero for zero. -/
def ffsl (w : Nat) : Nat :=
  match (List.range 32).find? (w.testBit ·) with
  | some i => i + 1
  | none => 0

theorem testBit_not32 {w i : Nat} (hi : i < 32) : (not32 w).testBit i = !w.testBit i := by
  rw [not32, Nat.testBit_xor, Nat.testBit_two_pow_sub_one, decide_eq_true hi, Bool.xor_true]

theorem not32_lt {w : Nat} (h : w < 2 ^ 32) : not32 w < 2 ^ 32 :=
  Nat.xor_lt_two_pow h (by decide)

theorem ffsl_not32_eq_zero {w : Nat} : ffsl (not32 w) = 0 ↔ ∀ i < 32, w.testBit i = true := by
  unfold ffsl
  split
  · rename_i i h
    obtain ⟨hset, hi, -⟩ := List.find?_range_eq_some.mp h
    rw [List.mem_range] at hi
    simp only [testBit_not32 hi, Bool.not_eq_true'] at hset
    simp only [Nat.add_eq_zero_iff, one_ne_zero, and_false, false_iff, not_forall]
    exact ⟨i, hi, by simp [hset]⟩
  · rename_i h
    simp only [List.find?_eq_none, List.mem_range] at h
    simp only [true_iff]
    intro i hi
    have := h i hi
    simpa [testBit_not32 hi] using this

/-- What `ffsl(~w)` finds is the lowest clear bit of `w`. -/
theorem ffsl_not32_eq_succ {w i : Nat} (h : ffsl (not32 w) = i + 1) :
    i < 32 ∧ w.testBit i = false := by
  unfold ffsl at h
  split at h
  · rename_i j hj
    obtain ⟨hset, hlt, -⟩ := List.find?_range_eq_some.mp hj
    rw [List.mem_range] at hlt
    obtain rfl : j = i := by omega
    exact ⟨hlt, by simpa [testBit_not32 hlt] using hset⟩
  · cases h

/-! ## The bit view -/

/-- Word `i` of a word array. -/
def wordAt (m : Mem) (i : Nat) : Nat := rd32 m (4 * i)

def setWord (m : Mem) (i w : Nat) : Mem := wr32 m (4 * i) w

/-- Bit `k` of a bitmap. -/
def bitAt (m : Mem) (k : Nat) : Bool := (wordAt m (k / 32)).testBit (k % 32)

theorem wordAt_lt (m : Mem) (i : Nat) : wordAt m i < 2 ^ 32 := rd32_lt m _

theorem wordAt_setWord_same (m : Mem) {i w : Nat} (hw : w < 2 ^ 32) :
    wordAt (setWord m i w) i = w := rd32_wr32_same m hw

theorem wordAt_setWord_of_ne {m : Mem} {i j w : Nat} (h : j ≠ i) :
    wordAt (setWord m i w) j = wordAt m j :=
  rd32_wr32_of_disjoint (by omega)

theorem wordAt_setWord {m : Mem} {i j w : Nat} (hw : w < 2 ^ 32) :
    wordAt (setWord m i w) j = if j = i then w else wordAt m j := by
  by_cases h : j = i
  · subst h; rw [if_pos rfl, wordAt_setWord_same m hw]
  · rw [if_neg h, wordAt_setWord_of_ne h]

/-- Two bitmaps that agree on the first `n` bytes agree on the bits stored
there. -/
theorem bitAt_congr {m m' : Mem} {n k : Nat} (h : Agree m m' 0 n) (hk : k < 8 * (n / 4 * 4)) :
    bitAt m k = bitAt m' k := by
  have : rd32 m (4 * (k / 32)) = rd32 m' (4 * (k / 32)) :=
    rd32_congr (h.mono (by omega) (by omega))
  rw [bitAt, bitAt, wordAt, wordAt, this]

/-! ## Setting and clearing one bit -/

/-- `map[w] |= 1 << i`. -/
def orBit (m : Mem) (w i : Nat) : Mem := setWord m w (wordAt m w ||| 1 <<< i)

/-- `map[w] &= ~(1 << i)`. -/
def andNotBit (m : Mem) (w i : Nat) : Mem := setWord m w (wordAt m w &&& not32 (1 <<< i))

theorem one_shiftLeft_lt {i : Nat} (hi : i < 32) : 1 <<< i < 2 ^ 32 := by
  rw [Nat.one_shiftLeft]; exact Nat.pow_lt_pow_right (by decide) hi

theorem testBit_one_shiftLeft {i j : Nat} : (1 <<< i).testBit j = decide (j = i) := by
  rw [Nat.one_shiftLeft, Nat.testBit_two_pow]
  exact decide_eq_decide.mpr eq_comm

theorem bitAt_orBit {m : Mem} {w i k : Nat} (hi : i < 32) :
    bitAt (orBit m w i) k = (decide (k = 32 * w + i) || bitAt m k) := by
  have hlt : wordAt m w ||| 1 <<< i < 2 ^ 32 :=
    Nat.or_lt_two_pow (wordAt_lt m w) (one_shiftLeft_lt hi)
  unfold bitAt orBit
  rw [wordAt_setWord hlt]
  by_cases hw : k / 32 = w
  · rw [if_pos hw, Nat.testBit_or, testBit_one_shiftLeft, hw, Bool.or_comm]
    congr 1
    exact decide_eq_decide.mpr (by omega)
  · rw [if_neg hw, decide_eq_false (by omega), Bool.false_or]

theorem bitAt_andNotBit {m : Mem} {w i k : Nat} (hi : i < 32) :
    bitAt (andNotBit m w i) k = (!decide (k = 32 * w + i) && bitAt m k) := by
  have hlt : wordAt m w &&& not32 (1 <<< i) < 2 ^ 32 :=
    Nat.and_lt_two_pow _ (not32_lt (one_shiftLeft_lt hi))
  unfold bitAt andNotBit
  rw [wordAt_setWord hlt]
  by_cases hw : k / 32 = w
  · rw [if_pos hw, Nat.testBit_and, testBit_not32 (by omega), testBit_one_shiftLeft, hw,
      Bool.and_comm]
    congr 2
    exact decide_eq_decide.mpr (by omega)
  · rw [if_neg hw, decide_eq_false (by omega), Bool.not_false, Bool.true_and]

/-! ## Counting clear bits -/

/-- The clear bits among the first `n`. -/
def clearBits (m : Mem) (n : Nat) : Finset Nat :=
  (Finset.range n).filter fun k => bitAt m k = false

theorem mem_clearBits {m : Mem} {n k : Nat} : k ∈ clearBits m n ↔ k < n ∧ bitAt m k = false := by
  simp [clearBits]

theorem clearBits_congr {m m' : Mem} {n : Nat} (h : ∀ k < n, bitAt m k = bitAt m' k) :
    clearBits m n = clearBits m' n := by
  ext k
  simp only [mem_clearBits]
  exact and_congr_right fun hk => by rw [h k hk]

/-- Setting a clear bit takes exactly that bit out of the clear ones. -/
theorem clearBits_set {m m' : Mem} {n k : Nat}
    (h : ∀ j < n, bitAt m' j = (decide (j = k) || bitAt m j)) :
    clearBits m' n = (clearBits m n).erase k := by
  ext j
  simp only [mem_clearBits, Finset.mem_erase]
  constructor
  · rintro ⟨hj, hb⟩
    rw [h j hj, Bool.or_eq_false_iff, decide_eq_false_iff_not] at hb
    exact ⟨hb.1, hj, hb.2⟩
  · rintro ⟨hne, hj, hb⟩
    exact ⟨hj, by rw [h j hj, hb, decide_eq_false hne, Bool.or_false]⟩

theorem clearBits_clear {m m' : Mem} {n k : Nat} (hk : k < n)
    (h : ∀ j < n, bitAt m' j = (!decide (j = k) && bitAt m j)) :
    clearBits m' n = insert k (clearBits m n) := by
  ext j
  simp only [mem_clearBits, Finset.mem_insert]
  constructor
  · rintro ⟨hj, hb⟩
    by_cases hjk : j = k
    · exact Or.inl hjk
    · rw [h j hj, decide_eq_false hjk, Bool.not_false, Bool.true_and] at hb
      exact Or.inr ⟨hj, hb⟩
  · rintro (rfl | ⟨hj, hb⟩)
    · exact ⟨hk, by rw [h _ hk]; simp⟩
    · exact ⟨hj, by rw [h j hj, hb, Bool.and_false]⟩

theorem clearBits_card_le (m : Mem) (n : Nat) : (clearBits m n).card ≤ n := by
  simpa [clearBits] using Finset.card_filter_le (Finset.range n) fun k => bitAt m k = false

end Shitos
