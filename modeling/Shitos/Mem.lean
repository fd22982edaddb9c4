import Mathlib.Data.Nat.Bitwise

/-!
# Byte memory

RAM, a block device and a buffer of either are all the same thing here: a
function from addresses to bytes. The C structures of the kernel are read
and written through little-endian accessors at fixed offsets, so a cast of
a buffer to a structure is no operation at all.

Everything below is independent of any particular program: the read-over-
write lemmas for the three access widths, block copies, and the range
agreement `Agree` that frame conditions are stated with.
-/

namespace Shitos

/-- Byte-addressed memory. -/
abbrev Mem := Nat → UInt8

/-! ## Accessors -/

def rd8 (m : Mem) (a : Nat) : Nat := (m a).toNat

def rd16 (m : Mem) (a : Nat) : Nat := rd8 m a + 256 * rd8 m (a + 1)

def rd32 (m : Mem) (a : Nat) : Nat := rd16 m a + 65536 * rd16 m (a + 2)

def wr8 (m : Mem) (a v : Nat) : Mem :=
  fun i => if i = a then UInt8.ofNat v else m i

def wr16 (m : Mem) (a v : Nat) : Mem := wr8 (wr8 m a v) (a + 1) (v / 256)

def wr32 (m : Mem) (a v : Nat) : Mem := wr16 (wr16 m a v) (a + 2) (v / 65536)

/-- `memcpy(dst + o, src + s, n)` on the destination's side. -/
def copy (dst : Mem) (o : Nat) (src : Mem) (s n : Nat) : Mem :=
  fun i => if o ≤ i ∧ i < o + n then src (s + (i - o)) else dst i

/-- `memset(dst + o, v, n)`. -/
def fill (dst : Mem) (o : Nat) (v : UInt8) (n : Nat) : Mem :=
  fun i => if o ≤ i ∧ i < o + n then v else dst i

/-- The two memories hold the same bytes at `lo, …, lo + n - 1`. -/
def Agree (m m' : Mem) (lo n : Nat) : Prop :=
  ∀ i, lo ≤ i → i < lo + n → m i = m' i

/-- `a - b` on 32-bit words. -/
def sub32 (a b : Nat) : Nat := if b ≤ a then a - b else 2 ^ 32 - (b - a)

theorem sub32_of_le {a b : Nat} (h : b ≤ a) : sub32 a b = a - b := if_pos h

/-! ## Bounds -/

theorem rd8_lt (m : Mem) (a : Nat) : rd8 m a < 256 := (m a).toNat_lt

theorem rd16_lt (m : Mem) (a : Nat) : rd16 m a < 65536 := by
  have h0 := rd8_lt m a
  have h1 := rd8_lt m (a + 1)
  unfold rd16; omega

theorem rd32_lt (m : Mem) (a : Nat) : rd32 m a < 2 ^ 32 := by
  have h0 := rd16_lt m a
  have h1 := rd16_lt m (a + 2)
  unfold rd32; omega

/-! ## Single bytes under a write -/

theorem wr8_apply_of_ne {m : Mem} {a v i : Nat} (h : i ≠ a) : wr8 m a v i = m i :=
  if_neg h

theorem wr16_apply_of_ne {m : Mem} {a v i : Nat} (h : i < a ∨ a + 2 ≤ i) :
    wr16 m a v i = m i := by
  rw [wr16, wr8_apply_of_ne (by omega), wr8_apply_of_ne (by omega)]

theorem wr32_apply_of_ne {m : Mem} {a v i : Nat} (h : i < a ∨ a + 4 ≤ i) :
    wr32 m a v i = m i := by
  rw [wr32, wr16_apply_of_ne (by omega), wr16_apply_of_ne (by omega)]

/-! ## Reading what was written -/

theorem rd8_wr8_same (m : Mem) {a v : Nat} (hv : v < 256) : rd8 (wr8 m a v) a = v := by
  simp only [rd8, wr8, if_true, UInt8.toNat_ofNat']
  omega

theorem rd8_wr8_of_ne {m : Mem} {a b v : Nat} (h : b ≠ a) : rd8 (wr8 m a v) b = rd8 m b := by
  rw [rd8, wr8_apply_of_ne h, rd8]

theorem rd16_wr16_same (m : Mem) {a v : Nat} (hv : v < 65536) :
    rd16 (wr16 m a v) a = v := by
  have hlo : rd8 (wr16 m a v) a = v % 256 := by
    rw [wr16, rd8_wr8_of_ne (by omega)]
    simp [rd8, wr8, UInt8.toNat_ofNat']
  have hhi : rd8 (wr16 m a v) (a + 1) = v / 256 := rd8_wr8_same _ (by omega)
  rw [rd16, hlo, hhi]; omega

/-- A write only depends on the low bits of the value. -/
theorem wr8_mod (m : Mem) (a v : Nat) : wr8 m a (v % 256) = wr8 m a v := by
  funext i
  by_cases h : i = a
  · subst h
    simp only [wr8, if_true]
    apply UInt8.toNat_inj.mp
    simp [UInt8.toNat_ofNat']
  · rw [wr8_apply_of_ne h, wr8_apply_of_ne h]

theorem wr16_mod (m : Mem) (a v : Nat) : wr16 m a (v % 65536) = wr16 m a v := by
  have hlo : wr8 m a (v % 65536) = wr8 m a v := by
    rw [← wr8_mod m a v, ← wr8_mod m a (v % 65536)]
    congr 1; omega
  rw [wr16, wr16, hlo, ← wr8_mod _ _ (v / 256), ← wr8_mod _ _ (v % 65536 / 256)]
  congr 1; omega

theorem rd16_congr {m m' : Mem} {a : Nat} (h : Agree m m' a 2) : rd16 m a = rd16 m' a := by
  simp only [rd16, rd8, h a (by omega) (by omega), h (a + 1) (by omega) (by omega)]

theorem rd32_congr {m m' : Mem} {a : Nat} (h : Agree m m' a 4) : rd32 m a = rd32 m' a := by
  rw [rd32, rd32, rd16_congr (fun i h1 h2 => h i h1 (by omega)),
    @rd16_congr _ _ (a + 2) (fun i h1 h2 => h i (by omega) (by omega))]

/-- Equal bytes read as equal words, also at different addresses. -/
theorem rd16_eq_of_bytes {m m' : Mem} {a b : Nat} (h : ∀ k < 2, m (a + k) = m' (b + k)) :
    rd16 m a = rd16 m' b := by
  have h0 := h 0 (by decide)
  have h1 := h 1 (by decide)
  simp only [Nat.add_zero] at h0
  simp only [rd16, rd8, h0, h1]

theorem rd32_eq_of_bytes {m m' : Mem} {a b : Nat} (h : ∀ k < 4, m (a + k) = m' (b + k)) :
    rd32 m a = rd32 m' b := by
  have h0 := h 0 (by decide)
  have h1 := h 1 (by decide)
  have h2 := h 2 (by decide)
  have h3 := h 3 (by decide)
  simp only [Nat.add_zero] at h0
  simp only [rd32, rd16, rd8, Nat.add_assoc, Nat.reduceAdd, h0, h1, h2, h3]

theorem rd16_wr16_of_disjoint {m : Mem} {a b v : Nat} (h : b + 2 ≤ a ∨ a + 2 ≤ b) :
    rd16 (wr16 m a v) b = rd16 m b :=
  rd16_congr fun _ _ _ => wr16_apply_of_ne (by omega)

theorem rd32_wr32_same (m : Mem) {a v : Nat} (hv : v < 2 ^ 32) : rd32 (wr32 m a v) a = v := by
  have hlo : rd16 (wr32 m a v) a = v % 65536 := by
    rw [wr32, rd16_wr16_of_disjoint (by omega), ← wr16_mod, rd16_wr16_same _ (by omega)]
  have hhi : rd16 (wr32 m a v) (a + 2) = v / 65536 := rd16_wr16_same _ (by omega)
  rw [rd32, hlo, hhi]; omega

theorem rd32_wr32_of_disjoint {m : Mem} {a b v : Nat} (h : b + 4 ≤ a ∨ a + 4 ≤ b) :
    rd32 (wr32 m a v) b = rd32 m b :=
  rd32_congr fun _ _ _ => wr32_apply_of_ne (by omega)

theorem rd32_wr16_of_disjoint {m : Mem} {a b v : Nat} (h : b + 4 ≤ a ∨ a + 2 ≤ b) :
    rd32 (wr16 m a v) b = rd32 m b :=
  rd32_congr fun _ _ _ => wr16_apply_of_ne (by omega)

theorem rd32_wr8_of_disjoint {m : Mem} {a b v : Nat} (h : b + 4 ≤ a ∨ a < b) :
    rd32 (wr8 m a v) b = rd32 m b :=
  rd32_congr fun _ _ _ => wr8_apply_of_ne (by omega)

theorem rd8_wr32_of_disjoint {m : Mem} {a b v : Nat} (h : b < a ∨ a + 4 ≤ b) :
    rd8 (wr32 m a v) b = rd8 m b := by
  rw [rd8, wr32_apply_of_ne h, rd8]

/-! ## Agreement -/

theorem Agree.symm {m m' : Mem} {lo n : Nat} (h : Agree m m' lo n) : Agree m' m lo n :=
  fun i h1 h2 => (h i h1 h2).symm

theorem Agree.trans {m₁ m₂ m₃ : Mem} {lo n : Nat} (h : Agree m₁ m₂ lo n)
    (h' : Agree m₂ m₃ lo n) : Agree m₁ m₃ lo n :=
  fun i h1 h2 => (h i h1 h2).trans (h' i h1 h2)

theorem Agree.mono {m m' : Mem} {lo n lo' n' : Nat} (h : Agree m m' lo n)
    (hlo : lo ≤ lo') (hhi : lo' + n' ≤ lo + n) : Agree m m' lo' n' :=
  fun i h1 h2 => h i (by omega) (by omega)

/-! ## Copies -/

theorem copy_apply {dst src : Mem} {o s n i : Nat} (h1 : o ≤ i) (h2 : i < o + n) :
    copy dst o src s n i = src (s + (i - o)) := if_pos ⟨h1, h2⟩

theorem copy_apply_of_not {dst src : Mem} {o s n i : Nat} (h : i < o ∨ o + n ≤ i) :
    copy dst o src s n i = dst i := if_neg (by omega)

theorem fill_apply {dst : Mem} {o n i : Nat} {v : UInt8} (h1 : o ≤ i) (h2 : i < o + n) :
    fill dst o v n i = v := if_pos ⟨h1, h2⟩

end Shitos
