import Shitos.BootInode
import Shitos.Ext2Unlink

/-!
# `ext2fs_mount`

Mounting checks the magic number and that the root inode is a directory, and
takes every other field of the superblock as it is. `mount_usable_iff` says
which superblocks are mounted as file systems the driver can use, or refused:
two fields must not be zero, since they are divided by during the mount
already, and of the rest only the accident that the root inode does not look
like a directory keeps a bad one out.
-/

namespace Shitos

namespace Ext2

/-! ## The function -/

/-- A block device, with the driver's other inputs: whether `rw` is among the
arguments, and what fresh memory holds. -/
structure Device where
  dev : Mem
  devSz : Nat
  rw : Bool
  fresh : Mem

/-- `EXT2_BLOCK_SIZE(sb)` in 32 bits; the shift count is taken modulo 32. -/
def sbBlockSize32 (sb : Mem) : Nat := 1024 * 2 ^ (sbLogBlockSize sb % 32) % 2 ^ 32

/-- `s_blocks_per_group`. -/
def sbBlocksPerGroup (sb : Mem) : Nat := rd32 sb 32

/-- The file system while only its superblock is read. -/
def Device.rawFs (d : Device) : Fs :=
  { sb := d.fresh, bgdt := d.fresh, dev := d.dev, devSz := d.devSz, blockSz := 1024,
    inodesPerGroup := 0, bgdtSz := 0, inodeSz := 0, bgdtBlockSz := 0, bgdtOff := 0, rw := d.rw,
    fresh := d.fresh, critical := 0 }

/-- What is read for the superblock. -/
def Device.sb (d : Device) : Mem := (readBlock d.rawFs 1 d.fresh).2

/-- The number of groups. -/
def sbGroups (sb : Mem) : Nat :=
  sub32 (add32 (rd32 sb 4) (sbBlocksPerGroup sb)) 1 / sbBlocksPerGroup sb

/-- The number of blocks of the group table, kept in eight bits. -/
def bgdtBlocks (groups blockSz : Nat) : Nat :=
  sub32 (add32 (mul32 groups 32) blockSz) 1 / blockSz % 2 ^ 8

/-- The loop that reads the group table. -/
def readBgdtFrom (fs : Fs) : Nat → Nat → Mem → Mem
  | 0, _, buf => buf
  | n + 1, i, buf =>
      let block := (readBlock fs (fs.bgdtOff + i) fun x => buf (i * fs.blockSz + x)).2
      readBgdtFrom fs n (i + 1) fun x =>
        if i * fs.blockSz ≤ x ∧ x < (i + 1) * fs.blockSz then block (x - i * fs.blockSz) else buf x

/-- The file system before the root inode is read. -/
def Device.loaded (d : Device) : Fs :=
  let blockSz := sbBlockSize32 d.sb
  let fs := { d.rawFs with
    sb := d.sb
    inodeSz := sbInodeSize d.sb
    blockSz := blockSz
    inodesPerGroup := sbInodesPerGroup d.sb
    bgdtSz := sbGroups d.sb
    bgdtBlockSz := bgdtBlocks (sbGroups d.sb) blockSz
    bgdtOff := if blockSz > 1024 then 1 else 2 }
  { fs with bgdt := readBgdtFrom fs fs.bgdtBlockSz 0 d.fresh }

/-- The superblock's magic number. -/
def Magic (sb : Mem) : Prop := rd16 sb 56 = 0xef53

instance (sb : Mem) : Decidable (Magic sb) := inferInstanceAs (Decidable (_ = _))

/-- The root inode can be read and is a directory. -/
def HasRoot (fs : Fs) : Prop := ∃ ino, readInode fs 2 = some ino ∧ IsDir ino

/-- `ext2fs_mount` on a device that could be opened: `some none` is NULL, `none` a
division by zero. -/
def ext2fsMount (d : Device) : Option (Option Fs) :=
  if ¬Magic d.sb then some none
  -- the divisor of bgdt_sz, and then the one of bgdt_block_sz
  else if sbBlocksPerGroup d.sb = 0 then none
  else if sbBlockSize32 d.sb = 0 then none
  -- the divisor in refresh_inode
  else if sbInodesPerGroup d.sb = 0 then none
  else
    match readInode d.loaded 2 with
    | none => some none
    | some root => if IsDir root then some (some d.loaded) else some none

/-! ## What can be used -/

/-- The driver can use the file system. -/
structure Usable (fs : Fs) : Prop where
  blocksPerGroup : fs.perGroup .block ≠ 0
  inodesPerGroup : fs.perGroup .inode ≠ 0
  blockSz : fs.blockSz ≠ 0
  inodeSz : 128 ≤ fs.inodeSz ∧ fs.inodeSz ≤ fs.blockSz
  bgdt : 32 * fs.bgdtSz ≤ fs.bgdtBlockSz * fs.blockSz

/-- The group table holds all groups exactly when it has at most 255 blocks and
its size, rounded up, fits 32 bits. -/
theorem bgdtBlocks_iff {groups bs : Nat} (hbs : bs ≠ 0) (hlt : bs < 2 ^ 32) :
    32 * groups ≤ bgdtBlocks groups bs * bs ↔ 32 * groups ≤ 255 * bs ∧ 32 * groups + bs ≤ 2 ^ 32 := by
  unfold bgdtBlocks
  generalize hx : 32 * groups = x
  have hmul : mul32 groups 32 = x % 2 ^ 32 := by rw [mul32, Nat.mul_comm, hx]
  rw [hmul]
  have hrem : ∀ q, q % 2 ^ 8 * bs ≤ q * bs ∧ q % 2 ^ 8 * bs ≤ 255 * bs := fun q =>
    ⟨Nat.mul_le_mul_right _ (Nat.mod_le _ _), Nat.mul_le_mul_right _ (by omega)⟩
  have hquot : ∀ y, y / bs * bs ≤ y := fun y => Nat.div_mul_le_self y bs
  rcases Nat.lt_or_ge (2 ^ 32) (x + bs) with hwrap | hfits
  · -- the size wraps, and what is left of it is smaller than the table
    refine iff_of_false (fun h => ?_) fun h => by omega
    have hless : sub32 (add32 (x % 2 ^ 32) bs) 1 < x := by
      unfold sub32 add32
      split <;> omega
    obtain ⟨hq, -⟩ := hrem (sub32 (add32 (x % 2 ^ 32) bs) 1 / bs)
    have hy := hquot (sub32 (add32 (x % 2 ^ 32) bs) 1)
    omega
  · have hexact : sub32 (add32 (x % 2 ^ 32) bs) 1 = x + bs - 1 := by
      unfold sub32 add32
      rcases Nat.lt_or_ge (x + bs) (2 ^ 32) with hlt' | hge
      · rw [Nat.mod_eq_of_lt (show x < 2 ^ 32 by omega), Nat.mod_eq_of_lt hlt', if_pos (by omega)]
      · have heq : x + bs = 2 ^ 32 := by omega
        rw [Nat.mod_eq_of_lt (show x < 2 ^ 32 by omega), heq]
        rfl
    rw [hexact]
    obtain ⟨-, h255⟩ := hrem ((x + bs - 1) / bs)
    have hup : x ≤ (x + bs - 1) / bs * bs := by
      have hdm := Nat.div_add_mod' (x + bs - 1) bs
      have hmod := Nat.mod_lt (x + bs - 1) (Nat.pos_of_ne_zero hbs)
      omega
    constructor
    · exact fun h => ⟨h.trans h255, hfits⟩
    · rintro ⟨hle, -⟩
      have hsmall : (x + bs - 1) / bs < 2 ^ 8 := by
        refine (Nat.div_lt_iff_lt_mul (Nat.pos_of_ne_zero hbs)).mpr ?_
        omega
      rw [Nat.mod_eq_of_lt hsmall]
      exact hup

/-- The superblock describes something the driver can use: inodes that fit a
block, and a group table of at most 255 blocks whose size fits 32 bits. -/
structure Fitting (sb : Mem) : Prop where
  inodeSz : 128 ≤ sbInodeSize sb ∧ sbInodeSize sb ≤ sbBlockSize32 sb
  blocks : 32 * sbGroups sb ≤ 255 * sbBlockSize32 sb
  bytes : 32 * sbGroups sb + sbBlockSize32 sb ≤ 2 ^ 32

theorem usable_loaded {d : Device} (hbpg : sbBlocksPerGroup d.sb ≠ 0)
    (hipg : sbInodesPerGroup d.sb ≠ 0) (hbs : sbBlockSize32 d.sb ≠ 0) :
    Usable d.loaded ↔ Fitting d.sb := by
  have hbgdt := @bgdtBlocks_iff (sbGroups d.sb) (sbBlockSize32 d.sb) hbs
    (Nat.mod_lt _ (Nat.two_pow_pos 32))
  constructor
  · rintro ⟨-, -, -, hino, htable⟩
    obtain ⟨hblocks, hbytes⟩ := hbgdt.mp htable
    exact ⟨hino, hblocks, hbytes⟩
  · rintro ⟨hino, hblocks, hbytes⟩
    exact ⟨hbpg, hipg, hbs, hino, hbgdt.mpr ⟨hblocks, hbytes⟩⟩

/-- The mount is refused, or the file system can be used. -/
def Rejects (d : Device) : Prop :=
  ext2fsMount d = some none ∨ ∃ fs, ext2fsMount d = some (some fs) ∧ Usable fs

/-- **Mounting rejects superblocks it cannot use** exactly when the fields that
it divides by are not zero, and the superblock describes something usable or no
root directory is found. -/
theorem mount_usable_iff {d : Device} (hmagic : Magic d.sb) :
    Rejects d ↔ sbBlocksPerGroup d.sb ≠ 0 ∧ sbInodesPerGroup d.sb ≠ 0 ∧ sbBlockSize32 d.sb ≠ 0
      ∧ (Fitting d.sb ∨ ¬HasRoot d.loaded) := by
  unfold Rejects ext2fsMount
  rw [if_neg (not_not.mpr hmagic)]
  have hfault : ∀ {P : Prop}, ¬P →
      (((none : Option (Option Fs)) = some none
        ∨ ∃ fs, (none : Option (Option Fs)) = some (some fs) ∧ Usable fs) ↔ P) := by
    intro P hP
    refine iff_of_false ?_ hP
    rintro (h | ⟨fs, h, -⟩) <;> cases h
  by_cases hbpg : sbBlocksPerGroup d.sb = 0
  · rw [if_pos hbpg]
    exact hfault fun h => h.1 hbpg
  rw [if_neg hbpg]
  by_cases hbs : sbBlockSize32 d.sb = 0
  · rw [if_pos hbs]
    exact hfault fun h => h.2.2.1 hbs
  rw [if_neg hbs]
  by_cases hipg : sbInodesPerGroup d.sb = 0
  · rw [if_pos hipg]
    exact hfault fun h => h.2.1 hipg
  rw [if_neg hipg]
  have hnull : ¬HasRoot d.loaded → sbBlocksPerGroup d.sb ≠ 0 ∧ sbInodesPerGroup d.sb ≠ 0
      ∧ sbBlockSize32 d.sb ≠ 0 ∧ (Fitting d.sb ∨ ¬HasRoot d.loaded) := fun h =>
    ⟨hbpg, hipg, hbs, Or.inr h⟩
  cases hread : readInode d.loaded 2 with
  | none =>
      refine iff_of_true (Or.inl rfl) (hnull ?_)
      rintro ⟨ino, hino, -⟩
      rw [hread] at hino
      cases hino
  | some root =>
      by_cases hdir : IsDir root
      · simp only [if_pos hdir]
        have hroot : HasRoot d.loaded := ⟨root, hread, hdir⟩
        constructor
        · rintro (h | ⟨fs, h, husable⟩)
          · cases h
          · obtain rfl := Option.some.inj (Option.some.inj h)
            exact ⟨hbpg, hipg, hbs, Or.inl ((usable_loaded hbpg hipg hbs).mp husable)⟩
        · rintro ⟨-, -, -, hfit⟩
          exact Or.inr ⟨_, rfl, (usable_loaded hbpg hipg hbs).mpr
            (hfit.resolve_right (not_not.mpr hroot))⟩
      · simp only [if_neg hdir]
        refine iff_of_true (Or.inl trivial) (hnull ?_)
        rintro ⟨ino, hino, hino'⟩
        rw [hread] at hino
        exact hdir (Option.some.inj hino ▸ hino')

/-! ## Small devices -/

/-- A device with blocks of 1024 bytes, the given numbers of blocks, blocks per
group and inodes per group, and a root directory in block 5. -/
def plainDevice (blocks bpg ipg : Nat) : Device :=
  let sb := wr16 (wr32 (wr32 (wr32 (fun _ => 0) 4 blocks) 32 bpg) 40 ipg) 56 0xef53
  { dev := fun x =>
      if x / 1024 = 1 then sb (x - 1024)
      else if x / 1024 = 2 then wr32 (fun _ => 0) 8 5 (x - 2048)
      else if x / 1024 = 5 then wr16 (fun _ => 0) 128 0x41ed (x - 5120)
      else 0
    devSz := 65536
    rw := true
    fresh := fun _ => 0 }

theorem mount_usable_iff_plain : Rejects (plainDevice 64 32 32) :=
  (mount_usable_iff (by decide +kernel)).mpr ⟨by decide +kernel, by decide +kernel,
    by decide +kernel, Or.inl ⟨by decide +kernel, by decide +kernel, by decide +kernel⟩⟩

/-- Without inodes per group the mount divides by zero. With 8193 groups it
succeeds, and one block of the group table is loaded instead of 257. -/
theorem mount_accepts_unusable :
    ext2fsMount (plainDevice 64 32 0) = none ∧ ¬Rejects (plainDevice 64 32 0)
      ∧ (plainDevice 262176 32 32).loaded.bgdtSz = 8193
      ∧ (plainDevice 262176 32 32).loaded.bgdtBlockSz = 1 := by
  have hnone : ext2fsMount (plainDevice 64 32 0) = none := by
    unfold ext2fsMount
    rw [if_neg (not_not.mpr (by decide +kernel)), if_neg (by decide +kernel),
      if_neg (by decide +kernel), if_pos (by decide +kernel)]
  refine ⟨hnone, ?_, by decide +kernel, by decide +kernel⟩
  rintro (h | ⟨fs, h, -⟩)
  · rw [hnone] at h
    cases h
  · rw [hnone] at h
    cases h

end Ext2

end Shitos
