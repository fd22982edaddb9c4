import Mathlib.Data.BitVec

/-!
# DOS partitions

`dospart_read` and `dospart_write`, which pass a request on to the disk below
the partition. All of their arithmetic is on 32-bit words: `off_t` is signed,
the comparisons are unsigned, and sums and products wrap.
-/

namespace Shitos

namespace Dospart

/-- The fields of `partition_t` that requests depend on. -/
structure Partition where
  startLba : BitVec 32
  numSectors : BitVec 32

/-- A request to a device: an `off_t` and a `size_t`. -/
structure Request where
  off : BitVec 32
  sz : BitVec 32
deriving DecidableEq

/-- `read` and `write` of a device with the state `σ`. -/
structure Device (σ : Type) where
  read : Request → σ → Int × σ
  write : Request → σ → Int × σ

/-- The body of both functions; `call` is the device's function. -/
def transfer {σ : Type} (call : Request → σ → Int × σ) (part : Partition) (off sz : BitVec 32)
    (s : σ) : Int × σ :=
  if part.numSectors * 512 < off then (0, s)
  else
    let sz := if part.numSectors * 512 < off + sz then part.numSectors * 512 - off else sz
    call ⟨off + part.startLba * 512, sz⟩ s

def dospartRead {σ : Type} (dev : Device σ) (part : Partition) (off sz : BitVec 32) (s : σ) :
    Int × σ :=
  transfer dev.read part off sz s

def dospartWrite {σ : Type} (dev : Device σ) (part : Partition) (off sz : BitVec 32) (s : σ) :
    Int × σ :=
  transfer dev.write part off sz s

/-! ## Confinement -/

/-- A device that keeps the requests it gets. -/
def recorder : Device (List Request) := ⟨fun r s => (0, r :: s), fun r s => (0, r :: s)⟩

/-- What a request for `off` and `sz` may become on the disk, in exact
integers. -/
structure Confined (part : Partition) (off sz : BitVec 32) (r : Request) : Prop where
  inside : 0 ≤ off.toInt ∧ off.toInt ≤ part.numSectors.toNat * 512
  start : r.off.toInt = part.startLba.toNat * 512 + off.toInt
  length : (r.sz.toNat : Int) = min (sz.toNat : Int) (part.numSectors.toNat * 512 - off.toInt)
  covers : (part.startLba.toNat * 512 : Int) ≤ r.off.toInt
    ∧ r.off.toInt + r.sz.toNat ≤ (part.startLba.toNat + part.numSectors.toNat) * 512

/-- The size of the partition in bytes, as the driver computes it. -/
def limit (part : Partition) : Nat := part.numSectors.toNat * 512 % 2 ^ 32

/-- The request is either past the computed size, or none of its sums wraps
in a way that matters. -/
def Fits (part : Partition) (off sz : BitVec 32) : Prop :=
  limit part < off.toNat
  ∨ (0 ≤ off.toInt ∧ part.startLba.toNat * 512 + off.toInt < 2 ^ 31
    ∧ if part.numSectors.toNat * 512 < 2 ^ 32 then off.toNat + sz.toNat < 2 ^ 32
      else off.toNat + sz.toNat ≤ limit part ∨ 2 ^ 32 ≤ off.toNat + sz.toNat)

/-- The request that is forwarded. -/
def forwarded (part : Partition) (off sz : BitVec 32) : Request :=
  ⟨off + part.startLba * 512,
    if part.numSectors * 512 < off + sz then part.numSectors * 512 - off else sz⟩

theorem toNat_limit (part : Partition) : (part.numSectors * 512).toNat = limit part :=
  BitVec.toNat_mul _ _

theorem transfer_eq {σ : Type} (call : Request → σ → Int × σ) (part : Partition)
    (off sz : BitVec 32) (s : σ) : transfer call part off sz s
      = if limit part < off.toNat then (0, s) else call (forwarded part off sz) s := by
  rw [transfer, forwarded, ← toNat_limit]
  exact if_congr BitVec.lt_def rfl rfl

/-- The forwarded request, in exact integers. -/
theorem forwarded_off (part : Partition) (off sz : BitVec 32) :
    (forwarded part off sz).off.toNat = (off.toNat + part.startLba.toNat * 512) % 2 ^ 32 := by
  show (off + part.startLba * 512).toNat = _
  rw [BitVec.toNat_add, BitVec.toNat_mul]
  exact Nat.add_mod_mod _ _ _

theorem forwarded_sz (part : Partition) {off : BitVec 32} (sz : BitVec 32)
    (h : off.toNat ≤ limit part) : (forwarded part off sz).sz.toNat
      = if limit part < (off.toNat + sz.toNat) % 2 ^ 32 then limit part - off.toNat
        else sz.toNat := by
  have hlt : part.numSectors * 512 < off + sz ↔ limit part < (off.toNat + sz.toNat) % 2 ^ 32 := by
    rw [BitVec.lt_def, toNat_limit, BitVec.toNat_add]
  show (if _ then _ else _ : BitVec 32).toNat = _
  by_cases hover : limit part < (off.toNat + sz.toNat) % 2 ^ 32
  · rw [if_pos (hlt.mpr hover), if_pos hover, BitVec.toNat_sub_of_le, toNat_limit]
    rw [BitVec.le_def, toNat_limit]
    exact h
  · rw [if_neg (mt hlt.mp hover), if_neg hover]

theorem confined_forwarded (part : Partition) {off : BitVec 32} (sz : BitVec 32)
    (h : off.toNat ≤ limit part) : Confined part off sz (forwarded part off sz)
      ↔ Fits part off sz := by
  have hoff := forwarded_off part off sz
  have hsz := forwarded_sz part sz h
  have hlimit : limit part = part.numSectors.toNat * 512 % 2 ^ 32 := rfl
  have hstart := part.startLba.isLt
  have hnum := part.numSectors.isLt
  have hoff' := off.isLt
  have hsz' := sz.isLt
  have hint := BitVec.toInt_eq_toNat_cond off
  have hint' := BitVec.toInt_eq_toNat_cond (forwarded part off sz).off
  constructor
  · rintro ⟨hinside, hbegin, hlength, -⟩
    refine .inr ⟨hinside.1, ?_, ?_⟩
    · split at hint' <;> omega
    · by_cases hsmall : part.numSectors.toNat * 512 < 2 ^ 32
      · rw [if_pos hsmall]
        split at hsz <;> split at hint <;> omega
      · rw [if_neg hsmall]
        split at hsz <;> split at hint <;> omega
  · intro hfits
    obtain ⟨hpos, hbegin, hwrap⟩ := hfits.resolve_left (by omega)
    have hnat : off.toInt = off.toNat := by split at hint <;> omega
    have hexact : (forwarded part off sz).off.toInt = part.startLba.toNat * 512 + off.toInt := by
      split at hint' <;> omega
    have hlength : ((forwarded part off sz).sz.toNat : Int)
        = min (sz.toNat : Int) (part.numSectors.toNat * 512 - off.toInt) := by
      by_cases hsmall : part.numSectors.toNat * 512 < 2 ^ 32
      · rw [if_pos hsmall] at hwrap
        split at hsz <;> omega
      · rw [if_neg hsmall] at hwrap
        split at hsz <;> omega
    refine ⟨⟨hpos, by omega⟩, hexact, hlength, by omega, ?_⟩
    rw [hlength, hexact]
    omega

end Dospart

end Shitos
