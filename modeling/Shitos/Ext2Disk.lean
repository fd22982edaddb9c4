import Mathlib.Data.Set.Basic
import Mathlib.Tactic.Ring
import Shitos.Bitmap

/-!
# The ext2 driver on its block device

The mounted file system `Fs` is the driver's `ext2_fs_t` together with the
device below it. The superblock, the group table and inodes are kept as the
bytes the driver keeps them as; their fields are accessors at the offsets
of the C structures.

The device is an array of `devSz` bytes. Transfers are clamped to it, as the
partition and disk drivers do, and offsets are computed in 32 bits as
`off * fs->block_sz` is. `blk fs b` is the block view, and `Frame S fs fs'`
says that the device has changed in the blocks of `S` only.
-/

namespace Shitos

namespace Ext2

/-- `E_SUCCESS`, `E_BADBLOCK`, `E_NOSPACE`. -/
inductive Status where
  | success
  | badBlock
  | noSpace
deriving DecidableEq, Repr

/-- The two kinds of object a block group hands out. -/
inductive Kind where
  | block
  | inode
deriving DecidableEq, Repr

/-- `ext2_fs_t`, with the device behind `fs->dev`. `fresh` is what an
allocated buffer holds before it is written, and `critical` counts the
"no free blocks left" and "no free inodes left" reports. -/
structure Fs where
  sb : Mem
  bgdt : Mem
  dev : Mem
  devSz : Nat
  blockSz : Nat
  inodesPerGroup : Nat
  bgdtSz : Nat
  inodeSz : Nat
  bgdtBlockSz : Nat
  bgdtOff : Nat
  rw : Bool
  fresh : Mem
  critical : Nat

/-! ## Structure fields -/

namespace Kind

/-- Offset of `bg_block_bitmap`/`bg_inode_bitmap` in a group descriptor. -/
def bitmapOff : Kind → Nat
  | block => 0
  | inode => 4

/-- Offset of `bg_free_blocks_count`/`bg_free_inodes_count`. -/
def countOff : Kind → Nat
  | block => 12
  | inode => 14

/-- Offset of `s_free_blocks_count`/`s_free_inodes_count`. -/
def totalOff : Kind → Nat
  | block => 12
  | inode => 16

/-- Offset of `s_blocks_per_group`/`s_inodes_per_group`. -/
def perGroupOff : Kind → Nat
  | block => 32
  | inode => 40

end Kind

namespace Fs

/-- `s_blocks_per_group`/`s_inodes_per_group`. -/
def perGroup (fs : Fs) (K : Kind) : Nat := rd32 fs.sb K.perGroupOff

/-- `s_free_blocks_count`/`s_free_inodes_count`. -/
def total (fs : Fs) (K : Kind) : Nat := rd32 fs.sb K.totalOff

/-- `bgdt[bg].bg_block_bitmap`/`bg_inode_bitmap`. -/
def bitmapNo (fs : Fs) (K : Kind) (bg : Nat) : Nat := rd32 fs.bgdt (32 * bg + K.bitmapOff)

/-- `bgdt[bg].bg_free_blocks_count`/`bg_free_inodes_count`. -/
def count (fs : Fs) (K : Kind) (bg : Nat) : Nat := rd16 fs.bgdt (32 * bg + K.countOff)

/-- `bgdt[bg].bg_inode_table`. -/
def inodeTable (fs : Fs) (bg : Nat) : Nat := rd32 fs.bgdt (32 * bg + 8)

end Fs

/-- `sizeof(ext2_superblock_t)`. -/
def superblockSz : Nat := 236

/-! ## Device transfers -/

/-- `fs_read(fs->dev, off, sz, buf)`. -/
def devRead (fs : Fs) (off sz : Nat) (buf : Mem) : Mem :=
  fun i => if i < sz ∧ off + i < fs.devSz then fs.dev (off + i) else buf i

/-- `fs_write(fs->dev, off, sz, buf)`. -/
def devWrite (fs : Fs) (off sz : Nat) (buf : Mem) : Fs :=
  { fs with dev := fun x =>
      if off ≤ x ∧ x < off + sz ∧ x < fs.devSz then buf (x - off) else fs.dev x }

def readBlock (fs : Fs) (off : Nat) (buf : Mem) : Status × Mem :=
  if off = 0 then (.badBlock, buf)
  else (.success, devRead fs (off * fs.blockSz % 2 ^ 32) fs.blockSz buf)

def writeBlock (fs : Fs) (off : Nat) (buf : Mem) : Status × Fs :=
  if off = 0 then (.badBlock, fs)
  else (.success, devWrite fs (off * fs.blockSz % 2 ^ 32) fs.blockSz buf)

def writeSuperblock (fs : Fs) : Status × Fs :=
  (.success, devWrite fs 1024 superblockSz fs.sb)

/-- The loop that rewrites the group table after an update. -/
def writeBgdtFrom (fs : Fs) : Nat → Nat → Fs
  | 0, _ => fs
  | n + 1, i =>
      writeBgdtFrom (writeBlock fs (fs.bgdtOff + i) fun x => fs.bgdt (fs.blockSz * i + x)).2
        n (i + 1)

def writeBgdt (fs : Fs) : Fs := writeBgdtFrom fs fs.bgdtBlockSz 0

/-! ## The block view -/

/-- The contents of block `b` (its first `blockSz` bytes are meaningful). -/
def blk (fs : Fs) (b : Nat) : Mem := fun i => fs.dev (b * fs.blockSz + i)

/-- Block `b` can be transferred in full. -/
def InVol (fs : Fs) (b : Nat) : Prop := 0 < b ∧ (b + 1) * fs.blockSz ≤ fs.devSz

/-- Only blocks of `S` have changed on the device. -/
def Frame (S : Set Nat) (fs fs' : Fs) : Prop :=
  ∀ x, x / fs.blockSz ∉ S → fs'.dev x = fs.dev x

/-- `fs'` is the same mount: only the device, the superblock, the group
table and the report counter may differ. -/
structure SameMount (fs fs' : Fs) : Prop where
  devSz : fs'.devSz = fs.devSz
  blockSz : fs'.blockSz = fs.blockSz
  inodesPerGroup : fs'.inodesPerGroup = fs.inodesPerGroup
  bgdtSz : fs'.bgdtSz = fs.bgdtSz
  inodeSz : fs'.inodeSz = fs.inodeSz
  bgdtBlockSz : fs'.bgdtBlockSz = fs.bgdtBlockSz
  bgdtOff : fs'.bgdtOff = fs.bgdtOff
  rw : fs'.rw = fs.rw
  fresh : fs'.fresh = fs.fresh

theorem SameMount.refl (fs : Fs) : SameMount fs fs := ⟨rfl, rfl, rfl, rfl, rfl, rfl, rfl, rfl, rfl⟩

theorem SameMount.trans {fs₁ fs₂ fs₃ : Fs} (h : SameMount fs₁ fs₂) (h' : SameMount fs₂ fs₃) :
    SameMount fs₁ fs₃ :=
  ⟨h'.devSz.trans h.devSz, h'.blockSz.trans h.blockSz,
    h'.inodesPerGroup.trans h.inodesPerGroup, h'.bgdtSz.trans h.bgdtSz,
    h'.inodeSz.trans h.inodeSz, h'.bgdtBlockSz.trans h.bgdtBlockSz,
    h'.bgdtOff.trans h.bgdtOff, h'.rw.trans h.rw, h'.fresh.trans h.fresh⟩

theorem Frame.refl (S : Set Nat) (fs : Fs) : Frame S fs fs := fun _ _ => rfl

theorem Frame.mono {S T : Set Nat} {fs fs' : Fs} (h : Frame S fs fs') (hST : S ⊆ T) :
    Frame T fs fs' := fun x hx => h x fun hm => hx (hST hm)

theorem Frame.trans {S : Set Nat} {fs₁ fs₂ fs₃ : Fs} (h : Frame S fs₁ fs₂)
    (hb : fs₂.blockSz = fs₁.blockSz) (h' : Frame S fs₂ fs₃) : Frame S fs₁ fs₃ :=
  fun x hx => (h' x (by rwa [hb])).trans (h x hx)

theorem div_block {b i bs : Nat} (hi : i < bs) : (b * bs + i) / bs = b := by
  rw [Nat.mul_comm, Nat.mul_add_div (by omega), Nat.div_eq_of_lt hi, Nat.add_zero]

theorem mod_block {b i bs : Nat} (hi : i < bs) : (b * bs + i) % bs = i := by
  rw [Nat.mul_comm, Nat.mul_add_mod, Nat.mod_eq_of_lt hi]

theorem Frame.blk_eq {S : Set Nat} {fs fs' : Fs} (h : Frame S fs fs')
    (hb : fs'.blockSz = fs.blockSz) {b i : Nat} (hS : b ∉ S) (hi : i < fs.blockSz) :
    blk fs' b i = blk fs b i := by
  rw [blk, blk, hb]
  exact h _ (by rwa [div_block hi])

theorem Frame.blk_agree {S : Set Nat} {fs fs' : Fs} (h : Frame S fs fs')
    (hb : fs'.blockSz = fs.blockSz) {b : Nat} (hS : b ∉ S) :
    Agree (blk fs' b) (blk fs b) 0 fs.blockSz :=
  fun i _ hi => h.blk_eq hb hS (by omega)

/-- An in-range block address does not wrap. -/
theorem InVol.addr {fs : Fs} (hd : fs.devSz ≤ 2 ^ 32) {b : Nat} (h : InVol fs b)
    (hb : 0 < fs.blockSz) : b * fs.blockSz % 2 ^ 32 = b * fs.blockSz := by
  obtain ⟨-, h⟩ := h
  rw [Nat.add_mul] at h
  exact Nat.mod_eq_of_lt (by omega)

theorem readBlock_snd {fs : Fs} (hd : fs.devSz ≤ 2 ^ 32) {b : Nat} (h : InVol fs b) (buf : Mem)
    {i : Nat} (hi : i < fs.blockSz) : (readBlock fs b buf).2 i = blk fs b i := by
  have haddr := h.addr hd (by omega)
  obtain ⟨hpos, hin⟩ := h
  rw [Nat.add_mul] at hin
  rw [readBlock, if_neg (by omega)]
  simp only [devRead, haddr]
  rw [if_pos ⟨hi, by omega⟩, blk]

theorem readBlock_agree {fs : Fs} (hd : fs.devSz ≤ 2 ^ 32) {b : Nat} (h : InVol fs b)
    (buf : Mem) : Agree (readBlock fs b buf).2 (blk fs b) 0 fs.blockSz :=
  fun _ _ hi => readBlock_snd hd h buf (by omega)

theorem devWrite_sameMount (fs : Fs) (off sz : Nat) (buf : Mem) :
    SameMount fs (devWrite fs off sz buf) := ⟨rfl, rfl, rfl, rfl, rfl, rfl, rfl, rfl, rfl⟩

@[simp] theorem devWrite_sb (fs : Fs) (off sz : Nat) (buf : Mem) :
    (devWrite fs off sz buf).sb = fs.sb := rfl

@[simp] theorem devWrite_bgdt (fs : Fs) (off sz : Nat) (buf : Mem) :
    (devWrite fs off sz buf).bgdt = fs.bgdt := rfl

@[simp] theorem devWrite_critical (fs : Fs) (off sz : Nat) (buf : Mem) :
    (devWrite fs off sz buf).critical = fs.critical := rfl

theorem writeBlock_sameMount (fs : Fs) (b : Nat) (buf : Mem) :
    SameMount fs (writeBlock fs b buf).2 := by
  unfold writeBlock; split
  · exact SameMount.refl fs
  · exact devWrite_sameMount ..

@[simp] theorem writeBlock_sb (fs : Fs) (b : Nat) (buf : Mem) :
    (writeBlock fs b buf).2.sb = fs.sb := by
  unfold writeBlock; split <;> rfl

@[simp] theorem writeBlock_bgdt (fs : Fs) (b : Nat) (buf : Mem) :
    (writeBlock fs b buf).2.bgdt = fs.bgdt := by
  unfold writeBlock; split <;> rfl

@[simp] theorem writeBlock_critical (fs : Fs) (b : Nat) (buf : Mem) :
    (writeBlock fs b buf).2.critical = fs.critical := by
  unfold writeBlock; split <;> rfl

@[simp] theorem writeBlock_blockSz (fs : Fs) (b : Nat) (buf : Mem) :
    (writeBlock fs b buf).2.blockSz = fs.blockSz := (writeBlock_sameMount fs b buf).blockSz

theorem writeBlock_fst {fs : Fs} {b : Nat} (hb : 0 < b) (buf : Mem) :
    (writeBlock fs b buf).1 = .success := by
  rw [writeBlock, if_neg (by omega)]

/-- The device after a block write, byte by byte. -/
theorem writeBlock_dev {fs : Fs} (hd : fs.devSz ≤ 2 ^ 32) (hbs : 0 < fs.blockSz) {b : Nat}
    (h : InVol fs b) (buf : Mem) (x : Nat) :
    (writeBlock fs b buf).2.dev x
      = if x / fs.blockSz = b then buf (x % fs.blockSz) else fs.dev x := by
  have haddr := h.addr hd hbs
  obtain ⟨hpos, hin⟩ := h
  rw [Nat.add_mul] at hin
  rw [writeBlock, if_neg (by omega)]
  simp only [devWrite, haddr]
  have hx := Nat.div_add_mod x fs.blockSz
  have hm := Nat.mod_lt x hbs
  rw [Nat.mul_comm] at hx
  by_cases hxb : x / fs.blockSz = b
  · rw [hxb] at hx
    rw [if_pos hxb, if_pos (by omega), show x - b * fs.blockSz = x % fs.blockSz by omega]
  · rw [if_neg hxb, if_neg]
    rintro ⟨h1, h2, -⟩
    exact hxb (Nat.div_eq_of_lt_le h1 (by rw [Nat.add_mul]; omega))

theorem writeBlock_frame {fs : Fs} (hd : fs.devSz ≤ 2 ^ 32) (hbs : 0 < fs.blockSz) {b : Nat}
    (h : InVol fs b) (buf : Mem) : Frame {b} fs (writeBlock fs b buf).2 := by
  intro x hx
  rw [writeBlock_dev hd hbs h]
  exact if_neg hx

theorem writeBlock_blk_same {fs : Fs} (hd : fs.devSz ≤ 2 ^ 32) {b : Nat}
    (h : InVol fs b) (buf : Mem) {i : Nat} (hi : i < fs.blockSz) :
    blk (writeBlock fs b buf).2 b i = buf i := by
  rw [blk, writeBlock_blockSz, writeBlock_dev hd (by omega) h, div_block hi, if_pos rfl,
    mod_block hi]

/-! ## Rewriting the superblock and the group table -/

/-- The block that holds the superblock. -/
def sbBlock (fs : Fs) : Nat := 1024 / fs.blockSz

theorem writeSuperblock_sameMount (fs : Fs) : SameMount fs (writeSuperblock fs).2 :=
  devWrite_sameMount ..

theorem writeSuperblock_frame {fs : Fs} (hbs : 1024 ∣ fs.blockSz) (hpos : 0 < fs.blockSz) :
    Frame {sbBlock fs} fs (writeSuperblock fs).2 := by
  intro x hx
  simp only [writeSuperblock, devWrite, superblockSz]
  refine if_neg ?_
  rintro ⟨h1, h2, -⟩
  refine hx ?_
  obtain ⟨c, hc⟩ := hbs
  show x / fs.blockSz = 1024 / fs.blockSz
  rcases Nat.lt_or_ge c 2 with h | h
  · obtain rfl : c = 1 := by
      rcases Nat.lt_or_ge c 1 with h0 | h0
      · obtain rfl : c = 0 := by omega
        omega
      · omega
    rw [hc]; omega
  · rw [Nat.div_eq_of_lt (show x < fs.blockSz by omega),
      Nat.div_eq_of_lt (show 1024 < fs.blockSz by omega)]

/-- After `write_superblock` the device holds the superblock's bytes. -/
theorem writeSuperblock_dev {fs : Fs} (hd : 1024 + superblockSz ≤ fs.devSz) {i : Nat}
    (hi : i < superblockSz) : (writeSuperblock fs).2.dev (1024 + i) = fs.sb i := by
  simp only [writeSuperblock, devWrite]
  rw [if_pos ⟨by omega, by omega, by omega⟩, Nat.add_sub_cancel_left]

theorem writeBgdtFrom_sameMount (n : Nat) : ∀ (fs : Fs) (i : Nat),
    SameMount fs (writeBgdtFrom fs n i) := by
  induction n with
  | zero => exact fun fs _ => SameMount.refl fs
  | succ n ih => exact fun fs i => (writeBlock_sameMount ..).trans (ih _ _)

theorem writeBgdtFrom_sb (n : Nat) : ∀ (fs : Fs) (i : Nat), (writeBgdtFrom fs n i).sb = fs.sb := by
  induction n with
  | zero => exact fun _ _ => rfl
  | succ n ih => intro fs i; rw [writeBgdtFrom, ih, writeBlock_sb]

theorem writeBgdtFrom_bgdt (n : Nat) : ∀ (fs : Fs) (i : Nat),
    (writeBgdtFrom fs n i).bgdt = fs.bgdt := by
  induction n with
  | zero => exact fun _ _ => rfl
  | succ n ih => intro fs i; rw [writeBgdtFrom, ih, writeBlock_bgdt]

theorem writeBgdtFrom_critical (n : Nat) : ∀ (fs : Fs) (i : Nat),
    (writeBgdtFrom fs n i).critical = fs.critical := by
  induction n with
  | zero => exact fun _ _ => rfl
  | succ n ih => intro fs i; rw [writeBgdtFrom, ih, writeBlock_critical]

/-- The device after `n` table blocks from block `i` on have been written. -/
theorem writeBgdtFrom_dev (n : Nat) : ∀ (fs : Fs) (i : Nat), fs.devSz ≤ 2 ^ 32 →
    0 < fs.blockSz → (∀ j, i ≤ j → j < i + n → InVol fs (fs.bgdtOff + j)) → ∀ x,
    (writeBgdtFrom fs n i).dev x
      = if fs.bgdtOff + i ≤ x / fs.blockSz ∧ x / fs.blockSz < fs.bgdtOff + i + n
        then fs.bgdt (x - fs.bgdtOff * fs.blockSz) else fs.dev x := by
  induction n with
  | zero => intro fs i _ _ _ x; rw [if_neg (by omega)]; rfl
  | succ n ih =>
      intro fs i hd hbs hv x
      have hw := hv i (by omega) (by omega)
      have hm := writeBlock_sameMount fs (fs.bgdtOff + i) fun x => fs.bgdt (fs.blockSz * i + x)
      rw [writeBgdtFrom, ih _ _ (by rw [hm.devSz]; exact hd) (by rw [hm.blockSz]; exact hbs)
        (fun j h1 h2 => by
          rw [hm.bgdtOff, InVol, hm.blockSz, hm.devSz]; exact hv j (by omega) (by omega))]
      rw [hm.blockSz, hm.bgdtOff, writeBlock_bgdt, writeBlock_dev hd hbs hw]
      by_cases h1 : x / fs.blockSz = fs.bgdtOff + i
      · have hx := Nat.div_add_mod x fs.blockSz
        rw [h1, Nat.mul_comm, Nat.add_mul] at hx
        rw [if_neg (by omega), if_pos h1, if_pos (by omega)]
        congr 1
        rw [Nat.mul_comm fs.blockSz i]
        omega
      · rw [if_neg h1]
        exact if_congr (by omega) rfl rfl

theorem writeBgdt_sameMount (fs : Fs) : SameMount fs (writeBgdt fs) := writeBgdtFrom_sameMount ..

@[simp] theorem writeBgdt_sb (fs : Fs) : (writeBgdt fs).sb = fs.sb := writeBgdtFrom_sb ..

@[simp] theorem writeBgdt_bgdt (fs : Fs) : (writeBgdt fs).bgdt = fs.bgdt := writeBgdtFrom_bgdt ..

@[simp] theorem writeBgdt_critical (fs : Fs) : (writeBgdt fs).critical = fs.critical :=
  writeBgdtFrom_critical ..

/-! ## Inodes -/

/-- The block and the byte offset inside it at which the driver looks for
inode `n` (already decremented); `bgoff` is computed from the whole number. -/
def inodeSlot (fs : Fs) (n : Nat) : Nat × Nat :=
  let bg := n / fs.inodesPerGroup
  let bgi := n % fs.inodesPerGroup
  let bgoff := n * fs.inodeSz % 2 ^ 32 / fs.blockSz
  ((fs.inodeTable bg + bgoff) % 2 ^ 32, bgi * fs.inodeSz % 2 ^ 32 % fs.blockSz)

/-- `refresh_inode` reads inode `inoNo` into `ino`. -/
def refreshInode (fs : Fs) (ino : Mem) (inoNo : Nat) : Status × Mem :=
  if inoNo = 0 then (.badBlock, ino)
  else if (inoNo - 1) / fs.inodesPerGroup > fs.bgdtSz then (.badBlock, ino)
  else
    let (block, bgi) := inodeSlot fs (inoNo - 1)
    let inodes := (readBlock fs block fs.fresh).2
    (.success, copy ino 0 inodes bgi fs.inodeSz)

/-- `read_inode`; `none` is its NULL. -/
def readInode (fs : Fs) (inoNo : Nat) : Option Mem :=
  match refreshInode fs fs.fresh inoNo with
  | (.success, ino) => some ino
  | _ => none

def writeInode (fs : Fs) (ino : Mem) (inoNo : Nat) : Status × Fs :=
  if inoNo = 0 then (.badBlock, fs)
  else if (inoNo - 1) / fs.inodesPerGroup > fs.bgdtSz then (.badBlock, fs)
  else
    let (block, bgi) := inodeSlot fs (inoNo - 1)
    let inodes := copy (readBlock fs block fs.fresh).2 bgi ino 0 fs.inodeSz
    (.success, (writeBlock fs block inodes).2)

/-- `i_mode`. -/
def iMode (ino : Mem) : Nat := rd16 ino 0

/-- `i_size`. -/
def iSize (ino : Mem) : Nat := rd32 ino 4

/-- `i_links_count`. -/
def iLinksCount (ino : Mem) : Nat := rd16 ino 26

/-- `i_blocks`, in disk sectors. -/
def iBlocks (ino : Mem) : Nat := rd32 ino 28

/-- `i_block[k]`. -/
def iBlock (ino : Mem) (k : Nat) : Nat := rd32 ino (40 + 4 * k)

def setISize (ino : Mem) (v : Nat) : Mem := wr32 ino 4 v

def setILinksCount (ino : Mem) (v : Nat) : Mem := wr16 ino 26 v

def setIBlocks (ino : Mem) (v : Nat) : Mem := wr32 ino 28 v

def setIBlock (ino : Mem) (k v : Nat) : Mem := wr32 ino (40 + 4 * k) v

end Ext2

end Shitos
