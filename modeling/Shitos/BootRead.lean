import Mathlib.Data.List.Range
import Mathlib.Tactic.Ring
import Mathlib.Tactic.SplitIfs
import Shitos.Mem

/-!
# The boot loader reads a file

`ext2_read_file` of stage2 reads the blocks of an inode through `xread`, which
puts its arguments into the registers of a real-mode call to stage1; there they
are a disk packet (`Packet`), which the BIOS carries out on the disk and the
memory.

Both loops count in `uint8_t i`. The first ends at twelve. The second is given
up to 256 entries or more, and `i` never gets there: it ends exactly when fewer
than 256 blocks are left. The packet takes the sector from `cx:ax`, and
`xread` puts bits 32 and up of it into `ecx`, so bits 16 to 31 are lost
(`readFile_iff`).
-/

namespace Shitos

namespace BootRead

/-! ## Disk packets -/

/-- The disk packet stage1 hands to the BIOS. -/
structure Packet where
  lba : Nat
  seg : Nat
  off : Nat
  drive : Nat
  num : Nat
deriving DecidableEq

/-- `xread`, and what stage1 takes of the registers: the sector from `cx:ax`,
the buffer from `es:bx`, the drive from `dl` and the count from `dh`. -/
def xread (lba segment offset driveNum numSectors : Nat) : Packet :=
  let ecx := lba / 2 ^ 32 % 2 ^ 32
  let eax := lba % 2 ^ 32
  let es := segment
  let ebx := offset
  let edx := numSectors <<< 8 ||| driveNum
  { lba := ecx % 2 ^ 16 * 2 ^ 16 + eax % 2 ^ 16
    seg := es % 2 ^ 16
    off := ebx % 2 ^ 16
    drive := edx % 2 ^ 8
    num := edx / 2 ^ 8 % 2 ^ 8 }

/-- The BIOS reads the sectors into memory. -/
def Packet.read (p : Packet) (disk m : Mem) : Mem :=
  copy m (16 * p.seg + p.off) disk (512 * p.lba) (512 * p.num)

/-! ## `ext2_read_file` -/

/-- `MEM_BLK`. -/
def memBlk : Nat := 0xe00

/-- `MEM_BUF`. -/
def memBuf : Nat := memBlk + 4096 * 3

/-- `EXT2_NDIR_BLOCKS` and `EXT2_SIND_BLOCK`. -/
def ndirBlocks : Nat := 12

/-- The arguments of `ext2_read_file`, with the fields of the superblock and
the inode that it uses. -/
structure Args where
  startLba : Nat
  driveNum : Nat
  logBlockSize : Nat
  iBlocks : Nat
  iBlock : Nat → Nat
  segBuf : Nat

namespace Args

/-- `EXT2_BLOCK_SIZE(sb)`. -/
def blockSz (a : Args) : Nat := 1024 * 2 ^ a.logBlockSize

/-- `EXT2_BLOCK_TO_SECTOR(sb)`. -/
def spb (a : Args) : Nat := 2 ^ (a.logBlockSize + 10 - 9)

/-- The sector of a block, in 32 bits. -/
def sector (a : Args) (block : Nat) : Nat := (a.startLba + block * a.spb) % 2 ^ 32

/-- The call of `xread` for turn `i` of a loop. -/
def blockRead (a : Args) (segBuf block i : Nat) : Packet :=
  xread (a.sector block) ((segBuf + (512 >>> 4) * i * a.spb) % 2 ^ 32) 0 a.driveNum a.spb

end Args

/-- A `for` loop over `uint8_t i`, for at most `fuel` turns: `i` and the memory
after it, and the packets. -/
def blockLoop (disk : Mem) (cond : Nat → Bool) (call : Nat → Mem → Packet) :
    Nat → Nat → Mem → Option (Nat × Mem × List Packet)
  | 0, _, _ => none
  | fuel + 1, i, m =>
      if cond i then
        let p := call i m
        (blockLoop disk cond call fuel ((i + 1) % 2 ^ 8) (p.read disk m)).map fun (i, m, ps) =>
          (i, m, p :: ps)
      else some (i, m, [])

/-- The packets of a call, if its loops end within `fuel` turns each. -/
def ext2ReadFile (a : Args) (disk m : Mem) (fuel : Nat) : Option (List Packet) :=
  let nblocks := a.iBlocks / a.spb
  (blockLoop disk (fun i => i < nblocks ∧ i < ndirBlocks)
      (fun i _ => a.blockRead a.segBuf (a.iBlock i) i) fuel 0 m).bind fun (i, m, direct) =>
    let nblocks := nblocks - i
    let segBuf := (a.segBuf + (512 >>> 4) * i * a.spb) % 2 ^ 32
    if nblocks = 0 then some direct
    else
      let nblocks := nblocks - 1
      let p := xread (a.sector (a.iBlock ndirBlocks)) 0 memBlk a.driveNum a.spb
      (blockLoop disk (fun i => i < nblocks ∧ i < a.blockSz / 4)
          (fun i m => a.blockRead segBuf (rd32 m (memBlk + 4 * i)) i) fuel 0 (p.read disk m)).map
        fun (_, _, indirect) => direct ++ p :: indirect

/-! ## The loops -/

section Loop

variable {disk : Mem} {cond : Nat → Bool} {call : Nat → Mem → Packet}

/-- A loop ends at the first `n` below 256 that fails its condition. Its calls
are read off an invariant of the memory. -/
theorem blockLoop_ends {n : Nat} (hn : n < 2 ^ 8) (hcond : ∀ i < n, cond i = true)
    (hlast : cond n = false) (inv : Mem → Prop) (c : Nat → Packet)
    (hcall : ∀ i < n, ∀ m, inv m → call i m = c i ∧ inv ((c i).read disk m)) :
    ∀ (k i fuel : Nat) (m : Mem), i + k = n → k < fuel → inv m →
      ∃ m', blockLoop disk cond call fuel i m = some (n, m', (List.range' i k).map c) := by
  intro k
  induction k with
  | zero =>
      intro i fuel m heq hfuel _
      obtain ⟨fuel, rfl⟩ := Nat.exists_eq_succ_of_ne_zero (Nat.ne_of_gt hfuel)
      obtain rfl : i = n := heq
      exact ⟨m, by rw [blockLoop, hlast]; rfl⟩
  | succ k ih =>
      intro i fuel m heq hfuel hinv
      obtain ⟨fuel, rfl⟩ := Nat.exists_eq_succ_of_ne_zero (Nat.ne_of_gt (Nat.zero_lt_of_lt hfuel))
      have hi : i < n := by omega
      obtain ⟨hpacket, hinv'⟩ := hcall i hi m hinv
      obtain ⟨m', hrest⟩ := ih (i + 1) fuel ((c i).read disk m) (by omega) (by omega) hinv'
      refine ⟨m', ?_⟩
      rw [blockLoop, if_pos (hcond i hi), hpacket, Nat.mod_eq_of_lt (by omega)]
      simp only [hrest, Option.map_some, List.range'_succ, List.map_cons]

/-- A loop whose condition holds of every 8-bit number does not end. -/
theorem blockLoop_stuck (hcond : ∀ i < 2 ^ 8, cond i = true) : ∀ (fuel i : Nat) (m : Mem),
    i < 2 ^ 8 → blockLoop disk cond call fuel i m = none
  | 0, _, _, _ => rfl
  | fuel + 1, i, m, hi => by
      rw [blockLoop, if_pos (hcond i hi)]
      simp only [blockLoop_stuck hcond fuel _ _ (Nat.mod_lt _ (by decide)), Option.map_none]

/-- Every packet of a loop is one of its calls. -/
theorem blockLoop_calls : ∀ (fuel i : Nat) (m : Mem) (last : Nat) (m' : Mem) (ps : List Packet),
    blockLoop disk cond call fuel i m = some (last, m', ps) → ∀ p ∈ ps, ∃ i m, p = call i m
  | 0, _, _, _, _, _, hrun, _, _ => nomatch hrun
  | fuel + 1, i, m, last, m', ps, hrun, p, hp => by
      rw [blockLoop] at hrun
      split_ifs at hrun with hc
      · obtain ⟨⟨last', m'', ps'⟩, hrest, heq⟩ := Option.map_eq_some_iff.mp hrun
        obtain ⟨rfl, rfl, rfl⟩ : last' = last ∧ m'' = m' ∧ call i m :: ps' = ps := by
          simpa using heq
        rcases List.mem_cons.mp hp with rfl | hp
        · exact ⟨i, m, rfl⟩
        · exact blockLoop_calls fuel _ _ _ _ _ hrest p hp
      · obtain ⟨-, -, rfl⟩ : i = last ∧ m = m' ∧ [] = ps := by simpa using hrun
        exact (List.not_mem_nil hp).elim

/-- More turns make no difference to a loop that ended. -/
theorem blockLoop_succ : ∀ (fuel i : Nat) (m : Mem) (r : Nat × Mem × List Packet),
    blockLoop disk cond call fuel i m = some r → blockLoop disk cond call (fuel + 1) i m = some r
  | 0, _, _, _, hrun => nomatch hrun
  | fuel + 1, i, m, r, hrun => by
      rw [blockLoop] at hrun ⊢
      split_ifs at hrun ⊢ with hc
      · obtain ⟨r', hrest, heq⟩ := Option.map_eq_some_iff.mp hrun
        simp only [blockLoop_succ fuel _ _ r' hrest, Option.map_some]
        exact congrArg some heq
      · exact hrun

end Loop

theorem ext2ReadFile_succ {a : Args} {disk m : Mem} {fuel : Nat} {ps : List Packet}
    (hrun : ext2ReadFile a disk m fuel = some ps) : ext2ReadFile a disk m (fuel + 1) = some ps := by
  rw [ext2ReadFile] at hrun ⊢
  obtain ⟨⟨i, m', direct⟩, hfirst, hrest⟩ := Option.bind_eq_some_iff.mp hrun
  rw [blockLoop_succ _ _ _ _ hfirst, Option.bind_some]
  simp only at hrest ⊢
  split_ifs at hrest ⊢ with hdone
  · exact hrest
  · obtain ⟨r', hsecond, heq⟩ := Option.map_eq_some_iff.mp hrest
    rw [blockLoop_succ _ _ _ _ hsecond, Option.map_some, heq]

theorem ext2ReadFile_add {a : Args} {disk m : Mem} {fuel : Nat} {ps : List Packet}
    (hrun : ext2ReadFile a disk m fuel = some ps) : ∀ k,
    ext2ReadFile a disk m (fuel + k) = some ps
  | 0 => hrun
  | k + 1 => ext2ReadFile_succ (ext2ReadFile_add hrun k)

/-! ## The packets of a file -/

theorem xread_eq {lba driveNum numSectors : Nat} (hlba : lba < 2 ^ 32) (hdrive : driveNum < 2 ^ 8)
    (hnum : numSectors < 2 ^ 8) (segment offset : Nat) :
    xread lba segment offset driveNum numSectors
      = ⟨lba % 2 ^ 16, segment % 2 ^ 16, offset % 2 ^ 16, driveNum, numSectors⟩ := by
  have hedx : numSectors <<< 8 ||| driveNum = numSectors * 2 ^ 8 + driveNum := by
    rw [← Nat.shiftLeft_add_eq_or_of_lt hdrive, Nat.shiftLeft_eq]
  simp only [xread, hedx, Packet.mk.injEq, true_and]
  omega

namespace Args

/-- The blocks of the content: those of the inode, then those of the table on
the disk. -/
def contentBlock (a : Args) (disk : Mem) (k : Nat) : Nat :=
  if k < ndirBlocks then a.iBlock k
  else rd32 disk (512 * (a.startLba + a.iBlock ndirBlocks * a.spb) + 4 * (k - ndirBlocks))

/-- How content block `k` is to be read. -/
def content (a : Args) (disk : Mem) (k : Nat) : Packet where
  lba := a.startLba + a.contentBlock disk k * a.spb
  seg := a.segBuf + k * a.blockSz / 16
  off := 0
  drive := a.driveNum
  num := a.spb

/-- The call ends, and its reads, but for the one into the buffer for indirect
blocks, are those of the `n` content blocks. -/
def ReadsFile (a : Args) (disk m : Mem) (n : Nat) : Prop :=
  ∃ fuel ps, ext2ReadFile a disk m fuel = some ps
    ∧ ps.filter (fun p => p.off ≠ memBlk) = (List.range n).map (a.content disk)

/-- `i_blocks` counts `n` content blocks, and the indirect block if there is
one. -/
def Counts (a : Args) (n : Nat) : Prop :=
  a.iBlocks = a.spb * (n + if n ≤ ndirBlocks then 0 else 1)

/-- The entry that is used for content block `k`: the table is read at the low
16 bits of its sector. -/
def usedBlock (a : Args) (disk : Mem) (k : Nat) : Nat :=
  if k < ndirBlocks then a.iBlock k
  else rd32 disk (512 * (a.sector (a.iBlock ndirBlocks) % 2 ^ 16) + 4 * (k - ndirBlocks))

/-- The sector and the segment of content block `k` have 16 bits, and the entry
that is used for it leads to the same sector. -/
def Reaches (a : Args) (disk : Mem) (k : Nat) : Prop :=
  a.segBuf + k * a.blockSz / 16 < 2 ^ 16
    ∧ a.startLba + a.contentBlock disk k * a.spb < 2 ^ 16
    ∧ a.sector (a.usedBlock disk k) % 2 ^ 16 = a.startLba + a.contentBlock disk k * a.spb

variable {a : Args} {disk m : Mem} {n k : Nat}

/-- Where the table's sector has 16 bits, the table is the right one. -/
theorem reaches_of_low (htable : a.startLba + a.iBlock ndirBlocks * a.spb < 2 ^ 16)
    (hseg : a.segBuf + k * a.blockSz / 16 < 2 ^ 16)
    (hlba : a.startLba + a.contentBlock disk k * a.spb < 2 ^ 16) : a.Reaches disk k := by
  have hused : a.usedBlock disk k = a.contentBlock disk k := by
    have hlow : a.sector (a.iBlock ndirBlocks) % 2 ^ 16
        = a.startLba + a.iBlock ndirBlocks * a.spb := by
      rw [sector]
      omega
    rw [usedBlock, contentBlock, hlow]
  refine ⟨hseg, hlba, ?_⟩
  rw [hused, sector]
  omega

theorem spb_eq (hlog : a.logBlockSize ≤ 2) :
    a.spb < 2 ^ 8 ∧ 2 ≤ a.spb ∧ a.blockSz = 512 * a.spb := by
  have hspb : a.spb = 2 * 2 ^ a.logBlockSize := by
    rw [spb, ← Nat.pow_succ']
    congr 1
  have hpos := Nat.two_pow_pos a.logBlockSize
  have hle := Nat.pow_le_pow_right (show 0 < 2 by decide) hlog
  rw [blockSz]
  omega

/-- The packet of a turn, as the loops make it. -/
theorem blockRead_eq (hlog : a.logBlockSize ≤ 2) (hdrive : a.driveNum < 2 ^ 8)
    (segBuf block i : Nat) : a.blockRead segBuf block i
      = ⟨a.sector block % 2 ^ 16, (segBuf + 32 * i * a.spb) % 2 ^ 32 % 2 ^ 16, 0, a.driveNum,
        a.spb⟩ :=
  xread_eq (Nat.mod_lt _ (by decide)) hdrive (spb_eq hlog).1 _ 0

theorem segment_eq (hlog : a.logBlockSize ≤ 2) (k : Nat) : k * a.blockSz / 16 = 32 * k * a.spb := by
  rw [(spb_eq hlog).2.2, show k * (512 * a.spb) = 16 * (32 * k * a.spb) by ring]
  exact Nat.mul_div_cancel_left _ (by decide)

/-- A turn reads content block `k`. -/
theorem reads_iff (hlog : a.logBlockSize ≤ 2) (hdrive : a.driveNum < 2 ^ 8) (k : Nat) :
    a.blockRead a.segBuf (a.usedBlock disk k) k = a.content disk k ↔ a.Reaches disk k := by
  rw [blockRead_eq hlog hdrive, content, Reaches, segment_eq hlog]
  simp only [Packet.mk.injEq, and_true]
  omega

/-- The read of content block `k`, as the code does it. -/
def usedRead (a : Args) (disk : Mem) (k : Nat) : Packet :=
  a.blockRead a.segBuf (a.usedBlock disk k) k

theorem nblocks_eq (hlog : a.logBlockSize ≤ 2) (hcount : a.Counts n) :
    a.iBlocks / a.spb = n + if n ≤ ndirBlocks then 0 else 1 := by
  rw [hcount, Nat.mul_div_cancel_left _ (Nat.zero_lt_of_lt (spb_eq hlog).2.1)]

/-- The first loop. -/
theorem direct_ends (hlog : a.logBlockSize ≤ 2) (hcount : a.Counts n) {fuel : Nat}
    (hfuel : ndirBlocks < fuel) (disk m : Mem) :
    ∃ m', blockLoop disk (fun i => i < a.iBlocks / a.spb ∧ i < ndirBlocks)
        (fun i _ => a.blockRead a.segBuf (a.iBlock i) i) fuel 0 m
      = some (min n ndirBlocks, m', (List.range (min n ndirBlocks)).map (a.usedRead disk)) := by
  have hturns : ∀ i, (i < a.iBlocks / a.spb ∧ i < ndirBlocks) ↔ i < min n ndirBlocks := by
    intro i
    rw [nblocks_eq hlog hcount]
    split_ifs <;> omega
  rw [List.range_eq_range']
  refine blockLoop_ends (Nat.lt_of_le_of_lt (Nat.min_le_right ..) (by decide))
    (fun i hi => decide_eq_true ((hturns i).mpr hi))
    (decide_eq_false fun hlt => Nat.lt_irrefl _ ((hturns _).mp hlt)) (fun _ => True) _
    (fun i hi _ _ => ?_)
    _ 0 fuel m (Nat.zero_add _) (Nat.lt_of_le_of_lt (Nat.min_le_right ..) hfuel) trivial
  refine ⟨?_, trivial⟩
  rw [usedRead, usedBlock, if_pos (Nat.lt_of_lt_of_le hi (Nat.min_le_right ..))]

/-- A file of direct blocks. -/
theorem run_direct (hlog : a.logBlockSize ≤ 2) (hcount : a.Counts n) (hn : n ≤ ndirBlocks)
    {fuel : Nat} (hfuel : ndirBlocks < fuel) (disk m : Mem) :
    ext2ReadFile a disk m fuel = some ((List.range n).map (a.usedRead disk)) := by
  obtain ⟨m', hrun⟩ := direct_ends hlog hcount hfuel disk m
  rw [Nat.min_eq_left hn] at hrun
  have hleft : a.iBlocks / a.spb - n = 0 := by
    rw [nblocks_eq hlog hcount, if_pos hn, Nat.add_zero, Nat.sub_self]
  rw [ext2ReadFile, hrun, Option.bind_some]
  simp only [hleft, if_true]

/-- The packet for the table. -/
def tableRead (a : Args) : Packet :=
  xread (a.sector (a.iBlock ndirBlocks)) 0 memBlk a.driveNum a.spb

/-- The second loop goes on from the twelfth block. -/
theorem blockRead_shift (hlog : a.logBlockSize ≤ 2) (hdrive : a.driveNum < 2 ^ 8) (block j : Nat) :
    a.blockRead ((a.segBuf + (512 >>> 4) * ndirBlocks * a.spb) % 2 ^ 32) block j
      = a.blockRead a.segBuf block (ndirBlocks + j) := by
  have hshift : 32 * (ndirBlocks + j) * a.spb
      = (512 >>> 4) * ndirBlocks * a.spb + 32 * j * a.spb := by
    simp only [Nat.mul_add, Nat.add_mul]
    rfl
  rw [blockRead_eq hlog hdrive, blockRead_eq hlog hdrive, hshift]
  simp only [Packet.mk.injEq, true_and, and_true]
  omega

/-- A file with an indirect block, up to the second loop. -/
theorem run_table (hlog : a.logBlockSize ≤ 2) (hcount : a.Counts n) (hn : ndirBlocks < n)
    {fuel : Nat} (hfuel : ndirBlocks < fuel) (disk m : Mem) : ∃ m', ext2ReadFile a disk m fuel
      = (blockLoop disk (fun i => i < n - ndirBlocks ∧ i < a.blockSz / 4)
          (fun i m => a.blockRead ((a.segBuf + (512 >>> 4) * ndirBlocks * a.spb) % 2 ^ 32)
            (rd32 m (memBlk + 4 * i)) i) fuel 0 (a.tableRead.read disk m')).map
        fun (_, _, indirect) =>
          (List.range ndirBlocks).map (a.usedRead disk) ++ a.tableRead :: indirect := by
  obtain ⟨m', hrun⟩ := direct_ends hlog hcount hfuel disk m
  rw [Nat.min_eq_right (Nat.le_of_lt hn)] at hrun
  have hblocks : a.iBlocks / a.spb - ndirBlocks = n - ndirBlocks + 1 := by
    rw [nblocks_eq hlog hcount, if_neg (Nat.not_le_of_lt hn)]
    omega
  refine ⟨m', ?_⟩
  rw [ext2ReadFile, hrun, Option.bind_some]
  simp only [hblocks, if_neg (Nat.succ_ne_zero _), Nat.add_sub_cancel]
  rfl

/-- From 256 indirect blocks on the second loop does not end. -/
theorem run_stuck (hlog : a.logBlockSize ≤ 2) (hcount : a.Counts n) (hn : 267 < n)
    (disk m : Mem) (fuel : Nat) : ext2ReadFile a disk m fuel = none := by
  cases hrun : ext2ReadFile a disk m fuel with
  | none => rfl
  | some ps =>
      obtain ⟨m', htable⟩ := run_table hlog hcount (Nat.lt_trans (by decide) hn)
        (Nat.lt_of_lt_of_le (show ndirBlocks < 13 by decide) (Nat.le_add_left 13 fuel)) disk m
      obtain ⟨-, hpos, hsz⟩ := spb_eq hlog
      rw [ext2ReadFile_add hrun 13, blockLoop_stuck _ _ 0 _ (by decide), Option.map_none] at htable
      · cases htable
      · intro i hi
        rw [decide_eq_true_eq]
        simp only [ndirBlocks]
        omega

/-- Where a content block goes. -/
theorem usedRead_read (hlog : a.logBlockSize ≤ 2) (hdrive : a.driveNum < 2 ^ 8)
    (hseg : a.segBuf + k * a.blockSz / 16 < 2 ^ 16) {x : Nat} (hx : x < 16 * a.segBuf) :
    (a.usedRead disk k).read disk m x = m x := by
  rw [segment_eq hlog] at hseg
  rw [usedRead, blockRead_eq hlog hdrive, Packet.read]
  exact copy_apply_of_not (.inl (by simp only; omega))

/-- The table in memory. -/
theorem tableRead_read (hlog : a.logBlockSize ≤ 2) (hdrive : a.driveNum < 2 ^ 8) {j : Nat}
    (hj : 4 * j + 4 ≤ a.blockSz) :
    rd32 (a.tableRead.read disk m) (memBlk + 4 * j) = a.usedBlock disk (ndirBlocks + j) := by
  obtain ⟨hspb, -, hsz⟩ := spb_eq hlog
  have hsector : a.sector (a.iBlock ndirBlocks) < 2 ^ 32 := Nat.mod_lt _ (by decide)
  rw [tableRead, xread_eq hsector hdrive hspb, usedBlock,
    if_neg (Nat.not_lt_of_le (Nat.le_add_right _ _)), Nat.add_sub_cancel_left]
  refine rd32_eq_of_bytes fun i hi => ?_
  have hat : memBlk + 4 * j + i = 16 * (0 % 2 ^ 16) + memBlk % 2 ^ 16 + (4 * j + i) := by
    simp only [memBlk]
    omega
  rw [Packet.read, hat, copy_apply (Nat.le_add_right _ _) (by simp only; omega),
    Nat.add_sub_cancel_left, Nat.add_assoc]

/-- A file with an indirect block, when all segments have 16 bits: no read
overwrites the table. -/
theorem run_indirect (hlog : a.logBlockSize ≤ 2) (hdrive : a.driveNum < 2 ^ 8)
    (hbuf : memBuf ≤ 16 * a.segBuf) (hcount : a.Counts n) (hn : ndirBlocks < n ∧ n ≤ 267)
    (hseg : ∀ k < n, a.segBuf + k * a.blockSz / 16 < 2 ^ 16) {fuel : Nat} (hfuel : 2 ^ 8 < fuel)
    (disk m : Mem) : ext2ReadFile a disk m fuel
      = some ((List.range ndirBlocks).map (a.usedRead disk)
        ++ a.tableRead :: (List.range (n - ndirBlocks)).map fun i =>
          a.usedRead disk (ndirBlocks + i)) := by
  obtain ⟨hspb, htwo, hsz⟩ := spb_eq hlog
  obtain ⟨m', htable⟩ := run_table hlog hcount hn.1 (Nat.lt_trans (by decide) hfuel) disk m
  have hcountdown : n - ndirBlocks < 2 ^ 8 := by
    simp only [ndirBlocks]
    omega
  have hturns : ∀ i, (i < n - ndirBlocks ∧ i < a.blockSz / 4) ↔ i < n - ndirBlocks := by
    intro i
    omega
  -- the table stays in memory
  let inv : Mem → Prop := fun m => ∀ j < n - ndirBlocks,
    rd32 m (memBlk + 4 * j) = a.usedBlock disk (ndirBlocks + j)
  have hinit : inv (a.tableRead.read disk m') := fun j hj =>
    tableRead_read hlog hdrive (by omega)
  have hstep : ∀ i < n - ndirBlocks, ∀ m, inv m →
      a.blockRead ((a.segBuf + (512 >>> 4) * ndirBlocks * a.spb) % 2 ^ 32)
          (rd32 m (memBlk + 4 * i)) i = a.usedRead disk (ndirBlocks + i)
      ∧ inv ((a.usedRead disk (ndirBlocks + i)).read disk m) := by
    intro i hi m hinv
    refine ⟨?_, fun j hj => ?_⟩
    · rw [blockRead_shift hlog hdrive, hinv i hi, usedRead]
    · rw [← hinv j hj]
      have hlow : memBlk + 4096 * 3 ≤ 16 * a.segBuf := hbuf
      have hk : ndirBlocks + i < n := by omega
      refine rd32_eq_of_bytes fun x hx => ?_
      exact usedRead_read hlog hdrive (hseg (ndirBlocks + i) hk) (by omega)
  obtain ⟨m'', hrun⟩ := blockLoop_ends hcountdown
    (fun i hi => decide_eq_true ((hturns i).mpr hi))
    (decide_eq_false fun hlt => Nat.lt_irrefl _ ((hturns _).mp hlt)) inv
    (fun i => a.usedRead disk (ndirBlocks + i)) hstep (n - ndirBlocks) 0 fuel _ (Nat.zero_add _)
    (by omega) hinit
  rw [htable, hrun, Option.map_some]
  simp only [List.range_eq_range']

theorem filter_usedRead (hlog : a.logBlockSize ≤ 2) (hdrive : a.driveNum < 2 ^ 8) (l : List Nat) :
    (l.map (a.usedRead disk)).filter (fun p => p.off ≠ memBlk) = l.map (a.usedRead disk) := by
  refine List.filter_eq_self.mpr fun p hp => ?_
  obtain ⟨k, -, rfl⟩ := List.mem_map.mp hp
  rw [usedRead, blockRead_eq hlog hdrive]
  rfl

/-- The reads of the content, as the code does them. -/
theorem run_contents (hlog : a.logBlockSize ≤ 2) (hdrive : a.driveNum < 2 ^ 8)
    (hbuf : memBuf ≤ 16 * a.segBuf) (hcount : a.Counts n) (hn : n ≤ 267)
    (hseg : ∀ k < n, a.segBuf + k * a.blockSz / 16 < 2 ^ 16) (disk m : Mem) :
    ∃ ps, (∀ fuel, 2 ^ 8 < fuel → ext2ReadFile a disk m fuel = some ps)
      ∧ ps.filter (fun p => p.off ≠ memBlk) = (List.range n).map (a.usedRead disk) := by
  by_cases hdirect : n ≤ ndirBlocks
  · exact ⟨_, fun fuel hfuel =>
      run_direct hlog hcount hdirect (Nat.lt_trans (by decide) hfuel) disk m,
      filter_usedRead hlog hdrive _⟩
  · have hmore := Nat.lt_of_not_le hdirect
    refine ⟨_, fun fuel hfuel =>
      run_indirect hlog hdrive hbuf hcount ⟨hmore, hn⟩ hseg hfuel disk m, ?_⟩
    have htable : a.tableRead.off = memBlk := rfl
    have hrest := @filter_usedRead a disk hlog hdrive
      ((List.range (n - ndirBlocks)).map (ndirBlocks + ·))
    rw [List.map_map] at hrest
    rw [List.filter_append, filter_usedRead hlog hdrive, List.filter_cons_of_neg (by simp [htable])]
    refine (congrArg _ hrest).trans ?_
    rw [← Nat.add_sub_cancel' (Nat.le_of_lt hmore), List.range_add, List.map_append,
      Nat.add_sub_cancel_left, List.map_map]

/-- The segment register has 16 bits. -/
theorem ext2ReadFile_seg {fuel : Nat} {ps : List Packet}
    (hrun : ext2ReadFile a disk m fuel = some ps) : ∀ p ∈ ps, p.seg < 2 ^ 16 := by
  have hcall : ∀ {lba segment offset driveNum numSectors : Nat},
      (xread lba segment offset driveNum numSectors).seg < 2 ^ 16 := Nat.mod_lt _ (by decide)
  rw [ext2ReadFile] at hrun
  obtain ⟨⟨i, m', direct⟩, hfirst, hrest⟩ := Option.bind_eq_some_iff.mp hrun
  have hdirect : ∀ p ∈ direct, p.seg < 2 ^ 16 := by
    intro p hp
    obtain ⟨j, -, rfl⟩ := blockLoop_calls _ _ _ _ _ _ hfirst p hp
    exact hcall
  simp only at hrest
  split_ifs at hrest with hdone
  · obtain rfl := Option.some.inj hrest
    exact hdirect
  · obtain ⟨⟨i', m'', indirect⟩, hsecond, rfl⟩ := Option.map_eq_some_iff.mp hrest
    intro p hp
    rcases List.mem_append.mp hp with hp | hp
    · exact hdirect p hp
    · rcases List.mem_cons.mp hp with rfl | hp
      · exact hcall
      · obtain ⟨j, m₁, rfl⟩ := blockLoop_calls _ _ _ _ _ _ hsecond p hp
        exact hcall

end Args

/-- A file is read exactly when it has at most 267 blocks, the sectors and the
segments of all of them have 16 bits, and the table that is read leads to
them. -/
theorem readFile_iff {a : Args} {n : Nat} (hlog : a.logBlockSize ≤ 2)
    (hdrive : a.driveNum < 2 ^ 8) (hbuf : memBuf ≤ 16 * a.segBuf) (hcount : a.Counts n)
    (disk m : Mem) : a.ReadsFile disk m n ↔ n ≤ 267 ∧ ∀ k < n, a.Reaches disk k := by
  constructor
  · rintro ⟨fuel, ps, hrun, heq⟩
    have hn : n ≤ 267 := by
      by_contra hmore
      rw [Args.run_stuck hlog hcount (Nat.lt_of_not_le hmore)] at hrun
      cases hrun
    have hseg : ∀ k < n, a.segBuf + k * a.blockSz / 16 < 2 ^ 16 := by
      intro k hk
      have hmem : a.content disk k ∈ (List.range n).map (a.content disk) :=
        List.mem_map_of_mem (List.mem_range.mpr hk)
      rw [← heq] at hmem
      exact Args.ext2ReadFile_seg hrun _ (List.mem_filter.mp hmem).1
    obtain ⟨ps', hall, hcontents⟩ := Args.run_contents hlog hdrive hbuf hcount hn hseg disk m
    have hsame := hall (fuel + 257) (Nat.lt_of_lt_of_le (by decide) (Nat.le_add_left ..))
    rw [ext2ReadFile_add hrun 257] at hsame
    obtain rfl := Option.some.inj hsame
    rw [hcontents, List.map_inj_left] at heq
    exact ⟨hn, fun k hk => (Args.reads_iff hlog hdrive k).mp (heq k (List.mem_range.mpr hk))⟩
  · rintro ⟨hn, hreach⟩
    obtain ⟨ps, hall, hcontents⟩ := Args.run_contents hlog hdrive hbuf hcount hn
      (fun k hk => (hreach k hk).1) disk m
    refine ⟨257, ps, hall 257 (by decide), hcontents.trans ?_⟩
    exact List.map_congr_left fun k hk =>
      (Args.reads_iff hlog hdrive k).mpr (hreach k (List.mem_range.mp hk))

/-- A file of `n` blocks of 1024 bytes, in the blocks from 100 on. -/
def smallFile (n : Nat) : Args where
  startLba := 2048
  driveNum := 0x80
  logBlockSize := 0
  iBlocks := 2 * (n + if n ≤ ndirBlocks then 0 else 1)
  iBlock k := 100 + k
  segBuf := 0x1000

theorem smallFile_counts (n : Nat) : (smallFile n).Counts n := rfl

theorem readFile_iff_small : (smallFile 3).ReadsFile (fun _ => 0) (fun _ => 0) 3 := by
  refine (readFile_iff (by decide) (by decide) (by decide) (smallFile_counts 3) _ _).mpr
    ⟨by decide, fun k hk => ?_⟩
  refine Args.reaches_of_low (by decide) ?_ ?_
  · show 0x1000 + k * 1024 / 16 < 2 ^ 16
    omega
  · rw [Args.contentBlock, if_pos (Nat.lt_trans hk (by decide))]
    show 2048 + (100 + k) * 2 < 2 ^ 16
    omega

/-- With 256 indirect blocks the call does not return. -/
theorem readFile_stuck :
    ¬ ∀ (a : Args) (n : Nat), a.logBlockSize ≤ 2 → a.driveNum < 2 ^ 8 → memBuf ≤ 16 * a.segBuf →
      n ≤ ndirBlocks + a.blockSz / 4 → a.Counts n → ∀ disk m : Mem, a.ReadsFile disk m n := by
  intro hall
  obtain ⟨fuel, ps, hrun, -⟩ := hall (smallFile 268) 268 (by decide) (by decide) (by decide)
    (by decide) (smallFile_counts 268) (fun _ => 0) (fun _ => 0)
  rw [Args.run_stuck (by decide) (smallFile_counts 268) (by decide)] at hrun
  cases hrun

end BootRead

end Shitos
