import Mathlib.Data.Nat.ModEq
import Shitos.Ext2Disk

/-!
# Locating an inode, in the kernel and in the boot loader

`refresh_inode` and `write_inode` compute a block of the inode table from the
whole inode number, `ext2_read_inode` of stage2 a sector from the number
within the group. `Format` is what both rely on: the fields the mount copies
from the superblock, and inode tables that lie on the disk and do not overlap.

The two addresses are the same in the first group. Beyond it the kernel's
block is too far by the tables of all groups before, and its range check lets
the group number `bgdt_sz` pass (`located_iff`).
-/

namespace Shitos

namespace Ext2

/-! ## Superblock fields -/

def sbInodesCount (sb : Mem) : Nat := rd32 sb 0

def sbLogBlockSize (sb : Mem) : Nat := rd32 sb 24

def sbInodesPerGroup (sb : Mem) : Nat := rd32 sb 40

/-- `EXT2_BLOCK_SIZE(sb)`. -/
def sbBlockSize (sb : Mem) : Nat := 1024 * 2 ^ sbLogBlockSize sb

/-- `EXT2_INODE_SIZE(sb)`. -/
def sbInodeSize (sb : Mem) : Nat := if rd32 sb 76 = 0 then 128 else rd16 sb 88

/-- `EXT2_BLOCK_TO_SECTOR(sb)`. -/
def sbBlockToSector (sb : Mem) : Nat := 2 ^ (sbLogBlockSize sb + 10 - 9)

/-! ## Addresses -/

/-- Where `refresh_inode` copies from and `write_inode` to, as a byte address
on the partition. There is none if they fail, or ask for block 0. -/
def inodeAddr (fs : Fs) (inoNo : Nat) : Option Nat :=
  if inoNo = 0 ∨ (inoNo - 1) / fs.inodesPerGroup > fs.bgdtSz then none
  else
    let (block, bgi) := inodeSlot fs (inoNo - 1)
    if block = 0 then none else some (block * fs.blockSz % 2 ^ 32 + bgi)

/-- The sector `ext2_read_inode` reads first, and the offset of the inode
behind its start. -/
def bootInodeSlot (startLba : Nat) (sb bgdt : Mem) (inode : Nat) : Nat × Nat :=
  let n := (inode + (2 ^ 32 - 1)) % 2 ^ 32
  let blockGroup := n / sbInodesPerGroup sb % 2 ^ 16
  let bgIndex := n % sbInodesPerGroup sb
  let lba := (startLba + sbBlockToSector sb * rd32 bgdt (32 * blockGroup + 8)
    + bgIndex * sbInodeSize sb % 2 ^ 32 / 512) % 2 ^ 32
  (lba, bgIndex * sbInodeSize sb % 2 ^ 32 % 512)

/-- `ext2_read_inode` on the disk the partition is on. -/
def bootReadInode (disk : Mem) (startLba : Nat) (sb bgdt : Mem) (inode : Nat) (buf : Mem) : Mem :=
  let (lba, off) := bootInodeSlot startLba sb bgdt inode
  copy buf 0 disk (512 * lba + off) 128

/-- `a` is the partition address `ext2_read_inode` copies from. -/
def BootAt (startLba : Nat) (sb bgdt : Mem) (inode a : Nat) : Prop :=
  512 * (bootInodeSlot startLba sb bgdt inode).1 + (bootInodeSlot startLba sb bgdt inode).2
    = 512 * startLba + a

instance (startLba : Nat) (sb bgdt : Mem) (inode a : Nat) :
    Decidable (BootAt startLba sb bgdt inode a) := inferInstanceAs (Decidable (_ = _))

/-! ## Volumes -/

namespace Fs

/-- The group of inode number `n` (already decremented). -/
def inodeGroup (fs : Fs) (n : Nat) : Nat := n / fs.inodesPerGroup

/-- The size of the inode table of a group. -/
def tableSz (fs : Fs) : Nat := fs.inodesPerGroup * fs.inodeSz

/-- Where the inode table of group `g` starts on the partition. -/
def tableStart (fs : Fs) (g : Nat) : Nat := fs.inodeTable g * fs.blockSz

/-- The number is the number of an inode. -/
def IsInode (fs : Fs) (inoNo : Nat) : Prop := 1 ≤ inoNo ∧ inoNo ≤ sbInodesCount fs.sb

instance (fs : Fs) (inoNo : Nat) : Decidable (fs.IsInode inoNo) :=
  inferInstanceAs (Decidable (_ ∧ _))

end Fs

/-- A mounted volume on a partition that starts at sector `startLba`. -/
structure Format (fs : Fs) (startLba : Nat) : Prop where
  inodesPerGroup : fs.inodesPerGroup = sbInodesPerGroup fs.sb
  inodeSz : fs.inodeSz = sbInodeSize fs.sb
  blockSz : fs.blockSz = sbBlockSize fs.sb
  logBlockSize : sbLogBlockSize fs.sb < 22
  pos : 0 < fs.tableSz
  multiple : fs.blockSz ∣ fs.tableSz
  small : fs.tableSz < 2 ^ 32
  count : sbInodesCount fs.sb ≤ fs.inodesPerGroup * fs.bgdtSz
  table : ∀ g < fs.bgdtSz, 1 ≤ fs.inodeTable g
    ∧ startLba + (fs.tableStart g + fs.tableSz) / 512 ≤ 2 ^ 32
  apart : ∀ g < fs.bgdtSz, ∀ g' < fs.bgdtSz, g ≠ g' →
    fs.tableStart g + fs.tableSz ≤ fs.tableStart g' ∨ fs.tableStart g' + fs.tableSz ≤ fs.tableStart g

/-- What is asked of one inode number: the kernel and the boot loader use the
same address, inside the table of the inode's group; a number that is not an
inode's is refused. -/
def Located (fs : Fs) (startLba inoNo : Nat) : Prop :=
  if fs.IsInode inoNo then
    ∃ a, inodeAddr fs inoNo = some a ∧ BootAt startLba fs.sb fs.bgdt inoNo a
      ∧ fs.tableStart (fs.inodeGroup (inoNo - 1)) ≤ a
      ∧ a + fs.inodeSz ≤ fs.tableStart (fs.inodeGroup (inoNo - 1)) + fs.tableSz
  else ∀ ino, (refreshInode fs ino inoNo).1 = .badBlock ∧ (writeInode fs ino inoNo).1 = .badBlock

/-- The condition: an inode of the first group (or one whose group the 32-bit
product loses) in the first 4 GiB, or a number whose group is beyond
`bgdt_sz`. -/
def Locatable (fs : Fs) (inoNo : Nat) : Prop :=
  if fs.IsInode inoNo then
    fs.inodeGroup (inoNo - 1) < 2 ^ 16
      ∧ fs.inodeGroup (inoNo - 1) * fs.tableSz % 2 ^ 32 = 0
      ∧ fs.tableStart (fs.inodeGroup (inoNo - 1))
        + (inoNo - 1) % fs.inodesPerGroup * fs.inodeSz < 2 ^ 32
  else inoNo = 0 ∨ fs.bgdtSz < fs.inodeGroup (inoNo - 1)

/-! ## The kernel's address -/

section Addresses

variable {fs : Fs} {startLba : Nat}

theorem Format.blockSz_mul (F : Format fs startLba) :
    fs.blockSz * 2 ^ (22 - sbLogBlockSize fs.sb) = 2 ^ 32 := by
  have hlog := F.logBlockSize
  rw [F.blockSz, sbBlockSize, show (1024 : Nat) = 2 ^ 10 by decide, ← pow_add, ← pow_add]
  congr 1
  omega

theorem Format.blockSz_sector (F : Format fs startLba) :
    fs.blockSz = 512 * sbBlockToSector fs.sb := by
  rw [F.blockSz, sbBlockSize, sbBlockToSector,
    show sbLogBlockSize fs.sb + 10 - 9 = sbLogBlockSize fs.sb + 1 by omega, pow_succ]
  omega

theorem Format.inodesPerGroup_pos (F : Format fs startLba) : 0 < fs.inodesPerGroup :=
  Nat.pos_of_mul_pos_right F.pos

/-- The offset of an inode in its table. -/
theorem Format.slot_le (F : Format fs startLba) (n : Nat) :
    n % fs.inodesPerGroup * fs.inodeSz + fs.inodeSz ≤ fs.tableSz := by
  have hlt := Nat.mod_lt n F.inodesPerGroup_pos
  calc n % fs.inodesPerGroup * fs.inodeSz + fs.inodeSz
      = (n % fs.inodesPerGroup + 1) * fs.inodeSz := by rw [Nat.add_mul, Nat.one_mul]
    _ ≤ fs.inodesPerGroup * fs.inodeSz := Nat.mul_le_mul_right _ hlt

theorem Format.inodeSz_pos (F : Format fs startLba) : 0 < fs.inodeSz :=
  Nat.pos_of_mul_pos_left F.pos

theorem Format.slot_lt (F : Format fs startLba) (n : Nat) :
    n % fs.inodesPerGroup * fs.inodeSz < 2 ^ 32 := by
  have hle := F.slot_le n
  have hsmall := F.small
  have hpos := F.inodeSz_pos
  omega

/-- The block number, reduced to what its byte address keeps of it. -/
theorem slotBlock_mod {B M t g k r : Nat} (hBM : B * M = 2 ^ 32) :
    (t + (g * (B * k) + r) % 2 ^ 32 / B) % 2 ^ 32 * B % 2 ^ 32
      = B * ((t + (g * k + r / B)) % M) := by
  have hB : 0 < B := Nat.pos_of_ne_zero fun h => by rw [h, Nat.zero_mul] at hBM; cases hBM
  have hsum : (g * (B * k) + r) / B = g * k + r / B := by
    rw [show g * (B * k) = B * (g * k) by rw [Nat.mul_left_comm], Nat.mul_add_div hB]
  have hdiv : (g * (B * k) + r) % 2 ^ 32 / B = (g * k + r / B) % M := by
    rw [← hBM, Nat.mod_mul_right_div_self, hsum]
  have hdvd : M ∣ 2 ^ 32 := ⟨B, by rw [Nat.mul_comm, hBM]⟩
  rw [hdiv, Nat.mul_comm, ← hBM, Nat.mul_mod_mul_left, hBM, Nat.mod_mod_of_dvd _ hdvd,
    Nat.add_mod_mod]

/-- A sum reduced to its first part has lost a multiple of the modulus. -/
theorem add_mod_eq_left {x y M : Nat} (hM : 0 < M) : (x + y) % M = x ↔ x < M ∧ y % M = 0 := by
  constructor
  · intro h
    have hx : x < M := by rw [← h]; exact Nat.mod_lt _ hM
    have hmod : x + y ≡ x + 0 [MOD M] := by
      rw [Nat.ModEq, h, Nat.add_zero, Nat.mod_eq_of_lt hx]
    have hy : y % M = 0 % M := Nat.ModEq.add_left_cancel' x hmod
    exact ⟨hx, hy.trans (Nat.zero_mod M)⟩
  · rintro ⟨hx, hy⟩
    rw [Nat.add_mod, hy, Nat.add_zero, Nat.mod_mod, Nat.mod_eq_of_lt hx]

theorem inode_lt (fs : Fs) {inoNo : Nat} (h : fs.IsInode inoNo) : inoNo < 2 ^ 32 :=
  Nat.lt_of_le_of_lt h.2 (rd32_lt ..)

theorem Format.group_lt (F : Format fs startLba) {inoNo : Nat} (h : fs.IsInode inoNo) :
    fs.inodeGroup (inoNo - 1) < fs.bgdtSz := by
  have hcount := F.count
  obtain ⟨h1, h2⟩ := h
  exact Nat.div_lt_of_lt_mul (by omega)

/-- The inode number as its group's tables and its place in the table. -/
theorem inode_product (fs : Fs) (n : Nat) :
    n * fs.inodeSz = fs.inodeGroup n * fs.tableSz + n % fs.inodesPerGroup * fs.inodeSz := by
  have hn := Nat.div_add_mod n fs.inodesPerGroup
  calc n * fs.inodeSz
      = (fs.inodesPerGroup * (n / fs.inodesPerGroup) + n % fs.inodesPerGroup) * fs.inodeSz := by
        rw [hn]
    _ = fs.inodeGroup n * fs.tableSz + n % fs.inodesPerGroup * fs.inodeSz := by
        rw [Fs.inodeGroup, Fs.tableSz]
        ring

/-- The boot loader uses the table of the group number's low 16 bits. -/
theorem Format.bootAt_iff (F : Format fs startLba) {inoNo : Nat} (h : fs.IsInode inoNo) (a : Nat) :
    BootAt startLba fs.sb fs.bgdt inoNo a ↔
      a = fs.tableStart (fs.inodeGroup (inoNo - 1) % 2 ^ 16)
        + (inoNo - 1) % fs.inodesPerGroup * fs.inodeSz := by
  have hlt := inode_lt fs h
  have hn : (inoNo + (2 ^ 32 - 1)) % 2 ^ 32 = inoNo - 1 := by
    obtain ⟨h1, -⟩ := h
    omega
  have hg : fs.inodeGroup (inoNo - 1) % 2 ^ 16 < fs.bgdtSz :=
    Nat.lt_of_le_of_lt (Nat.mod_le _ _) (F.group_lt h)
  obtain ⟨-, hdisk⟩ := F.table _ hg
  have hslot := F.slot_lt (inoNo - 1)
  have hle := F.slot_le (inoNo - 1)
  have hpos := F.inodeSz_pos
  have hsec := F.blockSz_sector
  obtain ⟨k, hk⟩ := F.multiple
  have hstart : fs.tableStart (fs.inodeGroup (inoNo - 1) % 2 ^ 16)
      = 512 * (sbBlockToSector fs.sb * fs.inodeTable (fs.inodeGroup (inoNo - 1) % 2 ^ 16)) := by
    rw [Fs.tableStart, hsec]
    ring
  have hsz : fs.tableSz = 512 * (sbBlockToSector fs.sb * k) := by
    rw [hk, hsec, Nat.mul_assoc]
  unfold BootAt bootInodeSlot
  simp only [hn, ← F.inodesPerGroup, ← F.inodeSz, Nat.mod_eq_of_lt hslot]
  rw [hstart, hsz] at hdisk
  rw [hsz] at hle
  rw [show rd32 fs.bgdt (32 * ((inoNo - 1) / fs.inodesPerGroup % 2 ^ 16) + 8)
    = fs.inodeTable (fs.inodeGroup (inoNo - 1) % 2 ^ 16) from rfl, hstart]
  generalize sbBlockToSector fs.sb * fs.inodeTable (fs.inodeGroup (inoNo - 1) % 2 ^ 16) = st
    at hdisk ⊢
  generalize (inoNo - 1) % fs.inodesPerGroup * fs.inodeSz = r at hslot hle ⊢
  generalize sbBlockToSector fs.sb * k = sz at hdisk hle
  omega

/-- The kernel's address is right exactly when nothing is added to the block
that the 32-bit arithmetic does not lose again. -/
theorem Format.inodeAddr_iff (F : Format fs startLba) {inoNo : Nat} (h : fs.IsInode inoNo) :
    inodeAddr fs inoNo = some (fs.tableStart (fs.inodeGroup (inoNo - 1))
        + (inoNo - 1) % fs.inodesPerGroup * fs.inodeSz) ↔
      fs.inodeGroup (inoNo - 1) * fs.tableSz % 2 ^ 32 = 0
        ∧ fs.tableStart (fs.inodeGroup (inoNo - 1))
          + (inoNo - 1) % fs.inodesPerGroup * fs.inodeSz < 2 ^ 32 := by
  have hBM := F.blockSz_mul
  have hM : 0 < 2 ^ (22 - sbLogBlockSize fs.sb) := Nat.two_pow_pos _
  have hgroup := F.group_lt h
  obtain ⟨htable, -⟩ := F.table _ hgroup
  have hslot := F.slot_lt (inoNo - 1)
  have hprod := inode_product fs (inoNo - 1)
  obtain ⟨k, hk⟩ := F.multiple
  have hzero : ¬(inoNo = 0 ∨ (inoNo - 1) / fs.inodesPerGroup > fs.bgdtSz) := by
    have h1 := h.1
    rw [Fs.inodeGroup] at hgroup
    omega
  have hdef : fs.inodeTable ((inoNo - 1) / fs.inodesPerGroup)
    = fs.inodeTable (fs.inodeGroup (inoNo - 1)) := rfl
  unfold inodeAddr inodeSlot
  simp only [if_neg hzero, hdef]
  rw [hprod, hk, Nat.mod_eq_of_lt hslot, slotBlock_mod hBM, Fs.tableStart]
  generalize fs.inodeTable (fs.inodeGroup (inoNo - 1)) = t at htable ⊢
  generalize fs.inodeGroup (inoNo - 1) = g
  generalize (inoNo - 1) % fs.inodesPerGroup * fs.inodeSz = r
  generalize 2 ^ (22 - sbLogBlockSize fs.sb) = M at hBM hM ⊢
  generalize fs.blockSz = B at hBM ⊢
  have hB : 0 < B := Nat.pos_of_ne_zero fun h => by rw [h, Nat.zero_mul] at hBM; cases hBM
  have hr : B * (r / B) + r % B = r := Nat.div_add_mod r B
  have hfirst : g * (B * k) % 2 ^ 32 = 0 ↔ g * k % M = 0 := by
    rw [← hBM, show g * (B * k) = B * (g * k) by rw [Nat.mul_left_comm], Nat.mul_mod_mul_left]
    exact ⟨fun h => (Nat.mul_eq_zero.mp h).resolve_left (by omega), fun h => by rw [h, Nat.mul_zero]⟩
  have hsecond : t * B + r < 2 ^ 32 ↔ t + r / B < M := by
    rw [← hBM, Nat.mul_comm B M, ← Nat.div_lt_iff_lt_mul hB, Nat.mul_comm t B, Nat.mul_add_div hB]
  have haddr : B * ((t + (g * k + r / B)) % M) + r % B = t * B + r ↔
      t + r / B < M ∧ g * k % M = 0 := by
    rw [show t + (g * k + r / B) = t + r / B + g * k by omega, ← add_mod_eq_left hM]
    constructor
    · intro h
      refine Nat.eq_of_mul_eq_mul_left hB ?_
      rw [Nat.mul_add, Nat.mul_comm B t]
      omega
    · intro h
      rw [h, Nat.mul_add, Nat.mul_comm B t]
      omega
  constructor
  · intro h
    split at h
    · cases h
    · obtain ⟨h1, h2⟩ := haddr.mp (Option.some.inj h)
      exact ⟨hfirst.mpr h2, hsecond.mpr h1⟩
  · rintro ⟨h1, h2⟩
    have hlow := hsecond.mp h2
    have hlost := hfirst.mp h1
    have hM32 : M ≤ 2 ^ 32 := by rw [← hBM]; exact Nat.le_mul_of_pos_left M hB
    have hblock : (t + (g * (B * k) + r) % 2 ^ 32 / B) % 2 ^ 32 ≠ 0 := by
      have hq : (g * (B * k) + r) % 2 ^ 32 / B = r / B := by
        rw [← hBM, Nat.mod_mul_right_div_self, show g * (B * k) = B * (g * k) by
          rw [Nat.mul_left_comm], Nat.mul_add_div hB, Nat.add_mod, hlost, Nat.zero_add,
          Nat.mod_mod, Nat.mod_eq_of_lt (by omega)]
      rw [hq, Nat.mod_eq_of_lt (by omega)]
      exact Nat.ne_of_gt (Nat.add_pos_left htable _)
    rw [if_neg hblock, haddr.mpr ⟨hlow, hlost⟩]

end Addresses

/-! ## What the two agree on -/

section Agreement

variable {fs : Fs} {startLba : Nat}

theorem refused_iff {inoNo : Nat} :
    (∀ ino, (refreshInode fs ino inoNo).1 = .badBlock ∧ (writeInode fs ino inoNo).1 = .badBlock)
      ↔ inoNo = 0 ∨ fs.bgdtSz < fs.inodeGroup (inoNo - 1) := by
  unfold refreshInode writeInode Fs.inodeGroup
  by_cases h0 : inoNo = 0
  · simp only [if_pos h0]
    exact ⟨fun _ => Or.inl h0, fun _ _ => ⟨trivial, trivial⟩⟩
  · by_cases hg : fs.bgdtSz < (inoNo - 1) / fs.inodesPerGroup
    · simp only [if_neg h0, gt_iff_lt, if_pos hg]
      exact ⟨fun _ => Or.inr hg, fun _ _ => ⟨trivial, trivial⟩⟩
    · simp only [if_neg h0, gt_iff_lt, if_neg hg]
      exact ⟨fun h => absurd (h fun _ => 0).1 (by decide), fun h => absurd h (by omega)⟩

theorem Format.located (F : Format fs startLba) (inoNo : Nat) :
    Located fs startLba inoNo ↔ Locatable fs inoNo := by
  unfold Located Locatable
  by_cases hino : fs.IsInode inoNo
  · rw [if_pos hino, if_pos hino]
    have hgroup := F.group_lt hino
    have hpos := F.inodeSz_pos
    have hle := F.slot_le (inoNo - 1)
    constructor
    · rintro ⟨a, haddr, hboot, hstart, hend⟩
      rw [F.bootAt_iff hino] at hboot
      have hlow : fs.inodeGroup (inoNo - 1) < 2 ^ 16 := by
        -- a larger group number makes stage2 look into another group's table
        by_contra hlarge
        have hapart := F.apart _ hgroup (fs.inodeGroup (inoNo - 1) % 2 ^ 16)
          (Nat.lt_of_le_of_lt (Nat.mod_le _ _) hgroup)
          (by have := Nat.mod_lt (fs.inodeGroup (inoNo - 1)) (show 0 < 2 ^ 16 by decide); omega)
        omega
      rw [Nat.mod_eq_of_lt hlow] at hboot
      rw [hboot] at haddr
      exact ⟨hlow, (F.inodeAddr_iff hino).mp haddr⟩
    · rintro ⟨hlow, hkernel⟩
      refine ⟨_, (F.inodeAddr_iff hino).mpr hkernel, ?_, by omega, by omega⟩
      rw [F.bootAt_iff hino, Nat.mod_eq_of_lt hlow]
  · rw [if_neg hino, if_neg hino]
    exact refused_iff

/-- The slots of two inodes in the tables the format describes. -/
theorem Format.slots_disjoint (F : Format fs startLba) {i j : Nat} (hi : fs.IsInode i)
    (hj : fs.IsInode j) (hij : i ≠ j) {a b : Nat}
    (ha : a = fs.tableStart (fs.inodeGroup (i - 1)) + (i - 1) % fs.inodesPerGroup * fs.inodeSz)
    (hb : b = fs.tableStart (fs.inodeGroup (j - 1)) + (j - 1) % fs.inodesPerGroup * fs.inodeSz) :
    a + fs.inodeSz ≤ b ∨ b + fs.inodeSz ≤ a := by
  have hslot (n : Nat) := F.slot_le n
  have hi' := hslot (i - 1)
  have hj' := hslot (j - 1)
  by_cases hg : fs.inodeGroup (i - 1) = fs.inodeGroup (j - 1)
  · have hne : (i - 1) % fs.inodesPerGroup ≠ (j - 1) % fs.inodesPerGroup := by
      intro hmod
      have h1 := Nat.div_add_mod (i - 1) fs.inodesPerGroup
      have h2 := Nat.div_add_mod (j - 1) fs.inodesPerGroup
      rw [Fs.inodeGroup, Fs.inodeGroup] at hg
      rw [hg, hmod, h2] at h1
      have hi1 := hi.1
      have hj1 := hj.1
      omega
    rw [hg] at ha
    have hstep (x y : Nat) (hxy : x < y) : x * fs.inodeSz + fs.inodeSz ≤ y * fs.inodeSz := by
      have hmul := Nat.mul_le_mul_right fs.inodeSz hxy
      rwa [Nat.succ_mul] at hmul
    rcases Nat.lt_or_gt_of_ne hne with hlt | hgt
    · have := hstep _ _ hlt
      omega
    · have := hstep _ _ hgt
      omega
  · have hapart := F.apart _ (F.group_lt hi) _ (F.group_lt hj) hg
    omega

/-- The address is where `refresh_inode` copies from, for a slot that does not
cross a block. -/
theorem refreshInode_at {inoNo a : Nat} (h : inodeAddr fs inoNo = some a)
    (hslot : (inodeSlot fs (inoNo - 1)).2 + fs.inodeSz ≤ fs.blockSz)
    (hdev : a + fs.inodeSz ≤ fs.devSz) (ino : Mem) {i : Nat} (hi : i < fs.inodeSz) :
    (refreshInode fs ino inoNo).2 i = fs.dev (a + i) := by
  unfold inodeAddr at h
  split at h
  · cases h
  · rename_i hok
    obtain ⟨hpos, hgroup⟩ := not_or.mp hok
    simp only at h
    split at h
    · cases h
    · rename_i hblock
      have ha := Option.some.inj h
      unfold refreshInode
      rw [if_neg hpos, if_neg hgroup]
      simp only [copy, readBlock, if_neg hblock, devRead]
      rw [if_pos ⟨Nat.zero_le i, by omega⟩, if_pos ⟨by omega, by omega⟩]
      congr 1
      omega

/-- Where the two agree on the address, they read the same inode. -/
theorem bootReadInode_eq {disk : Mem} (hdisk : ∀ x < fs.devSz, fs.dev x = disk (512 * startLba + x))
    {inoNo a : Nat} (h : inodeAddr fs inoNo = some a)
    (hboot : BootAt startLba fs.sb fs.bgdt inoNo a)
    (hslot : (inodeSlot fs (inoNo - 1)).2 + fs.inodeSz ≤ fs.blockSz)
    (hdev : a + fs.inodeSz ≤ fs.devSz) (ino buf : Mem) {i : Nat} (hi : i < 128)
    (hi' : i < fs.inodeSz) :
    bootReadInode disk startLba fs.sb fs.bgdt inoNo buf i = (refreshInode fs ino inoNo).2 i := by
  rw [refreshInode_at h hslot hdev ino hi', hdisk _ (by omega)]
  unfold BootAt at hboot
  simp only [bootReadInode, copy]
  rw [if_pos ⟨Nat.zero_le i, by omega⟩, hboot]
  congr 1
  omega

/-- Two groups of eight inodes each, in blocks 5 and 20. -/
def twoGroups : Fs where
  sb := wr32 (wr32 (wr32 (fun _ => 0) 0 16) 40 8) 76 0
  bgdt := wr32 (wr32 (fun _ => 0) 8 5) 40 20
  dev := fun _ => 0
  devSz := 65536
  blockSz := 1024
  inodesPerGroup := 8
  bgdtSz := 2
  inodeSz := 128
  bgdtBlockSz := 1
  bgdtOff := 2
  rw := true
  fresh := fun _ => 0
  critical := 0

theorem twoGroups_format : Format twoGroups 63 where
  inodesPerGroup := by decide
  inodeSz := by decide
  blockSz := by decide
  logBlockSize := by decide
  pos := by decide
  multiple := by decide
  small := by decide
  count := by decide
  table := by decide
  apart := by decide

end Agreement

end Ext2

end Shitos
