import Mathlib.Data.Int.Init
import Shitos.Mem

/-!
# Transfers of the ATA driver

`ata_read` and `ata_write` split a request into chunks that lie in one block
of 4096 bytes each: a first one up to the next block boundary, a last one from
the last boundary on, and whole blocks in between. The last block is computed
before the request is clamped to the disk, and the first chunk is transferred
whether or not anything of the request is left. `transfer_iff` says for which
requests the driver is the clamped byte array it is meant to be.

A transfer moves the sectors that the disk has. What comes for the sectors
behind its end is `stray`, of which nothing is assumed.
-/

namespace Shitos

namespace Ata

/-- A disk of `sectors` sectors of 512 bytes. -/
structure Disk where
  bytes : Mem
  sectors : Nat
  stray : Nat → Mem

/-- The size of the disk in bytes. -/
def Disk.size (d : Disk) : Nat := d.sectors * 512

/-- The disk with other contents. -/
def Disk.put (d : Disk) (bytes : Mem) : Disk := { d with bytes := bytes }

/-- `ata_max_offset`: the size as an `off_t`. -/
def maxOffset (d : Disk) : Int := Int.bmod d.size (2 ^ 32)

/-- `ata_device_read_block`. -/
def readBlock (d : Disk) (block : Nat) : Mem := fun i =>
  if block * 4096 + i < d.size then d.bytes (block * 4096 + i) else d.stray block i

/-- `ata_device_write_block`. -/
def writeBlock (d : Disk) (block : Nat) (tmp : Mem) : Disk :=
  d.put fun x =>
    if block * 4096 ≤ x ∧ x < (block + 1) * 4096 ∧ x < d.size then tmp (x - block * 4096)
    else d.bytes x

/-- `len` bytes at `pos` of a block, and at `buf` of the buffer. -/
structure Chunk where
  block : Nat
  pos : Nat
  buf : Nat
  len : Nat
deriving DecidableEq

section Request

variable (off sz endBlock : Nat)

/-- The start is not on a block boundary, or there is less than a block. -/
def HasPrefix : Prop := off % 4096 ≠ 0 ∨ sz < 4096

instance : Decidable (HasPrefix off sz) := inferInstanceAs (Decidable (_ ∨ _))

def prefixSz : Nat := min (4096 - off % 4096) sz

/-- `buf_offset` after the first chunk. -/
def bufOffset : Nat := if HasPrefix off sz then prefixSz off sz else 0

/-- `start_block` after the first chunk. -/
def startBlock : Nat := if HasPrefix off sz then off / 4096 + 1 else off / 4096

def postfixSz : Nat := (off + sz) % 2 ^ 32 % 4096

/-- The end is not on a block boundary, and there are blocks left. -/
def HasPostfix : Prop := postfixSz off sz ≠ 0 ∧ startBlock off sz ≤ endBlock

instance : Decidable (HasPostfix off sz endBlock) := inferInstanceAs (Decidable (_ ∧ _))

/-- `end_block` after the last chunk. -/
def lastBlock : Nat :=
  if HasPostfix off sz endBlock then (endBlock + (2 ^ 64 - 1)) % 2 ^ 64 else endBlock

/-- The chunks of a request that has been clamped to `sz` bytes; `endBlock` was
computed before. The last list is the loop over the remaining blocks. -/
def chunks : List Chunk :=
  (if HasPrefix off sz then [⟨off / 4096, off % 4096, 0, prefixSz off sz⟩] else [])
    ++ (if HasPostfix off sz endBlock then
      [⟨endBlock, 0, sub32 sz (postfixSz off sz), postfixSz off sz⟩] else [])
    ++ (List.range (lastBlock off sz endBlock + 1 - startBlock off sz)).map fun i =>
      ⟨startBlock off sz + i, 0, (bufOffset off sz + i * 4096) % 2 ^ 32, 4096⟩

end Request

/-- What a request becomes: the value returned and the chunks. There is none for
a negative offset that is not past the end: its block numbers are negative. -/
def request (d : Disk) (off : Int) (sz : Nat) : Option (Nat × List Chunk) :=
  if maxOffset d < off then some (0, [])
  else if off < 0 then none
  else
    let endBlock := sub32 ((off.toNat + sz) % 2 ^ 32) 1 / 4096
    let sz := if maxOffset d < Int.bmod (off + sz) (2 ^ 32) then (maxOffset d - off).toNat else sz
    some (sz, chunks off.toNat sz endBlock)

/-- Read a chunk into the buffer at `buf`. -/
def readChunk (d : Disk) (buf : Nat) (mem : Mem) (c : Chunk) : Mem :=
  copy mem ((buf + c.buf) % 2 ^ 32) (readBlock d c.block) c.pos c.len

/-- Write a chunk from the buffer; a block that is not replaced as a whole is
read first. -/
def writeChunk (mem : Mem) (buf : Nat) (d : Disk) (c : Chunk) : Disk :=
  let src := (buf + c.buf) % 2 ^ 32
  writeBlock d c.block
    (if c.len = 4096 then fun i => mem (src + i) else copy (readBlock d c.block) c.pos mem src c.len)

def ataRead (d : Disk) (off : Int) (sz : Nat) (mem : Mem) (buf : Nat) : Option (Nat × Mem) :=
  (request d off sz).map fun (ret, cs) => (ret, cs.foldl (readChunk d buf) mem)

def ataWrite (d : Disk) (off : Int) (sz : Nat) (mem : Mem) (buf : Nat) : Option (Nat × Disk) :=
  (request d off sz).map fun (ret, cs) => (ret, cs.foldl (writeChunk mem buf) d)

/-- The blocks that a request transfers. -/
def transferred (d : Disk) (off : Int) (sz : Nat) : List Nat :=
  match request d off sz with
  | none => []
  | some (_, cs) => cs.map Chunk.block

/-! ## Chunks that make up a range -/

/-- The chunks are parts of the `r` bytes at `off` of the disk, and together all
of them. -/
structure Splits (off r : Nat) (cs : List Chunk) : Prop where
  same : ∀ c ∈ cs, c.block * 4096 + c.pos = off + c.buf
  inBlock : ∀ c ∈ cs, c.pos + c.len ≤ 4096
  inBuf : ∀ c ∈ cs, c.buf + c.len ≤ r
  pos : ∀ c ∈ cs, 0 < c.len
  all : ∀ i < r, ∃ c ∈ cs, c.buf ≤ i ∧ i < c.buf + c.len

theorem add32_buf {buf r : Nat} (hbuf : buf + r ≤ 2 ^ 32) {c : Chunk} (hin : c.buf + c.len ≤ r)
    (hpos : 0 < c.len) : (buf + c.buf) % 2 ^ 32 = buf + c.buf := Nat.mod_eq_of_lt (by omega)

/-- The buffer after some of the chunks have been read. -/
theorem readChunks_apply {d : Disk} {off r buf : Nat} (hbuf : buf + r ≤ 2 ^ 32)
    (hoff : off + r ≤ d.size) : ∀ (cs : List Chunk) (mem : Mem),
      (∀ c ∈ cs, c.block * 4096 + c.pos = off + c.buf) → (∀ c ∈ cs, c.buf + c.len ≤ r) →
      (∀ c ∈ cs, 0 < c.len) → ∀ x, cs.foldl (readChunk d buf) mem x
        = if ∃ c ∈ cs, buf + c.buf ≤ x ∧ x < buf + c.buf + c.len then d.bytes (off + (x - buf))
          else mem x := by
  intro cs
  induction cs with
  | nil => intro mem _ _ _ x; rw [if_neg (by simp)]; rfl
  | cons c cs ih =>
      intro mem hsame hin hpos x
      obtain ⟨hsame₀, hsame⟩ := List.forall_mem_cons.mp hsame
      obtain ⟨hin₀, hin⟩ := List.forall_mem_cons.mp hin
      obtain ⟨hpos₀, hpos⟩ := List.forall_mem_cons.mp hpos
      rw [List.foldl_cons, ih _ hsame hin hpos]
      by_cases hrest : ∃ c ∈ cs, buf + c.buf ≤ x ∧ x < buf + c.buf + c.len
      · obtain ⟨c', hc', hx⟩ := hrest
        rw [if_pos ⟨c', hc', hx⟩, if_pos ⟨c', List.mem_cons_of_mem _ hc', hx⟩]
      rw [if_neg hrest, readChunk, add32_buf hbuf hin₀ hpos₀]
      by_cases hx : buf + c.buf ≤ x ∧ x < buf + c.buf + c.len
      · rw [if_pos ⟨c, List.mem_cons_self, hx⟩, copy_apply hx.1 hx.2, readBlock, if_pos (by omega)]
        congr 1
        omega
      · rw [copy_apply_of_not (by omega), if_neg]
        rintro ⟨c', hc', hx'⟩
        rcases List.mem_cons.mp hc' with rfl | hc'
        · exact hx hx'
        · exact hrest ⟨c', hc', hx'⟩

theorem writeChunk_bytes {mem : Mem} {d : Disk} {off r buf : Nat} (hbuf : buf + r ≤ 2 ^ 32)
    (hoff : off + r ≤ d.size) {c : Chunk} (hsame : c.block * 4096 + c.pos = off + c.buf)
    (hblock : c.pos + c.len ≤ 4096) (hin : c.buf + c.len ≤ r) (hpos : 0 < c.len) (x : Nat) :
    (writeChunk mem buf d c).bytes x
      = if off + c.buf ≤ x ∧ x < off + c.buf + c.len then mem (buf + (x - off)) else d.bytes x := by
  rw [writeChunk, add32_buf hbuf hin hpos]
  simp only [writeBlock, Disk.put]
  by_cases hx : off + c.buf ≤ x ∧ x < off + c.buf + c.len
  · rw [if_pos hx, if_pos (by rw [Nat.add_mul]; omega)]
    split
    · show mem _ = mem _
      congr 1
      omega
    · rw [copy_apply (by omega) (by omega)]
      congr 1
      omega
  · rw [if_neg hx]
    by_cases hx' : c.block * 4096 ≤ x ∧ x < (c.block + 1) * 4096 ∧ x < d.size
    · rw [if_pos hx', if_neg (by rw [Nat.add_mul] at hx'; omega),
        copy_apply_of_not (by omega), readBlock, if_pos (by omega)]
      congr 1
      omega
    · rw [if_neg hx']

/-- The disk after some of the chunks have been written. -/
theorem writeChunks_apply {mem : Mem} {off r buf : Nat} (hbuf : buf + r ≤ 2 ^ 32) :
    ∀ (cs : List Chunk) (d : Disk), off + r ≤ d.size →
      (∀ c ∈ cs, c.block * 4096 + c.pos = off + c.buf) → (∀ c ∈ cs, c.pos + c.len ≤ 4096) →
      (∀ c ∈ cs, c.buf + c.len ≤ r) → (∀ c ∈ cs, 0 < c.len) →
      cs.foldl (writeChunk mem buf) d = d.put fun x =>
        if ∃ c ∈ cs, off + c.buf ≤ x ∧ x < off + c.buf + c.len then mem (buf + (x - off))
        else d.bytes x := by
  intro cs
  induction cs with
  | nil =>
      intro d _ _ _ _ _
      simp only [List.not_mem_nil, false_and, exists_false, if_false]
      rfl
  | cons c cs ih =>
      intro d hoff hsame hblock hin hpos
      obtain ⟨hsame₀, hsame⟩ := List.forall_mem_cons.mp hsame
      obtain ⟨hblock₀, hblock⟩ := List.forall_mem_cons.mp hblock
      obtain ⟨hin₀, hin⟩ := List.forall_mem_cons.mp hin
      obtain ⟨hpos₀, hpos⟩ := List.forall_mem_cons.mp hpos
      have hchunk := @writeChunk_bytes mem d off r buf hbuf hoff c hsame₀ hblock₀ hin₀ hpos₀
      rw [List.foldl_cons, ih (writeChunk mem buf d c) hoff hsame hblock hin hpos]
      show Disk.mk _ d.sectors d.stray = Disk.mk _ d.sectors d.stray
      congr 1
      funext x
      by_cases hrest : ∃ c ∈ cs, off + c.buf ≤ x ∧ x < off + c.buf + c.len
      · obtain ⟨c', hc', hx⟩ := hrest
        rw [if_pos ⟨c', hc', hx⟩, if_pos ⟨c', List.mem_cons_of_mem _ hc', hx⟩]
      rw [if_neg hrest, hchunk]
      refine if_congr ⟨fun hx => ⟨c, List.mem_cons_self, hx⟩, ?_⟩ rfl rfl
      rintro ⟨c', hc', hx⟩
      rcases List.mem_cons.mp hc' with rfl | hc'
      · exact hx
      · exact absurd ⟨c', hc', hx⟩ hrest

section Splits

variable {d : Disk} {off r buf : Nat} {cs : List Chunk}

theorem Splits.read (S : Splits off r cs) (hbuf : buf + r ≤ 2 ^ 32) (hoff : off + r ≤ d.size)
    (mem : Mem) : cs.foldl (readChunk d buf) mem = copy mem buf d.bytes off r := by
  funext x
  rw [readChunks_apply hbuf hoff cs mem S.same S.inBuf S.pos]
  by_cases hx : buf ≤ x ∧ x < buf + r
  · obtain ⟨c, hc, h1, h2⟩ := S.all (x - buf) (by omega)
    rw [if_pos ⟨c, hc, by omega, by omega⟩, copy_apply hx.1 hx.2]
  · rw [copy_apply_of_not (by omega), if_neg]
    rintro ⟨c, hc, h1, h2⟩
    have := S.inBuf c hc
    exact hx (by omega)

theorem Splits.write (S : Splits off r cs) (hbuf : buf + r ≤ 2 ^ 32) (hoff : off + r ≤ d.size)
    (mem : Mem) : cs.foldl (writeChunk mem buf) d
      = d.put (copy d.bytes off mem buf r) := by
  rw [writeChunks_apply hbuf cs d hoff S.same S.inBlock S.inBuf S.pos]
  congr 1
  funext x
  by_cases hx : off ≤ x ∧ x < off + r
  · obtain ⟨c, hc, h1, h2⟩ := S.all (x - off) (by omega)
    rw [if_pos ⟨c, hc, by omega, by omega⟩, copy_apply hx.1 hx.2]
  · rw [copy_apply_of_not (by omega), if_neg]
    rintro ⟨c, hc, h1, h2⟩
    have := S.inBuf c hc
    exact hx (by omega)

end Splits

/-! ## The chunks of a request -/

theorem mem_chunks {off sz endBlock : Nat} {c : Chunk} : c ∈ chunks off sz endBlock
    ↔ (HasPrefix off sz ∧ c = ⟨off / 4096, off % 4096, 0, prefixSz off sz⟩)
      ∨ (HasPostfix off sz endBlock
        ∧ c = ⟨endBlock, 0, sub32 sz (postfixSz off sz), postfixSz off sz⟩)
      ∨ ∃ i < lastBlock off sz endBlock + 1 - startBlock off sz,
        c = ⟨startBlock off sz + i, 0, (bufOffset off sz + i * 4096) % 2 ^ 32, 4096⟩ := by
  rw [chunks, List.mem_append, List.mem_append, or_assoc]
  refine or_congr ?_ (or_congr ?_ ?_)
  · split
    · simp [*]
    · simp [*]
  · split
    · simp [*]
    · simp [*]
  · simp only [List.mem_map, List.mem_range, eq_comm]

section Chunks

variable {off sz endBlock : Nat}

theorem start_cases (off sz : Nat) :
    (HasPrefix off sz ∧ startBlock off sz = off / 4096 + 1 ∧ bufOffset off sz = prefixSz off sz)
      ∨ (¬HasPrefix off sz ∧ startBlock off sz = off / 4096 ∧ bufOffset off sz = 0
        ∧ off % 4096 = 0 ∧ 4096 ≤ sz) := by
  by_cases h : HasPrefix off sz
  · exact Or.inl ⟨h, if_pos h, if_pos h⟩
  · have hno := h
    unfold HasPrefix at hno
    exact Or.inr ⟨h, if_neg h, if_neg h, by omega, by omega⟩

theorem prefixSz_cases (off sz : Nat) :
    prefixSz off sz ≤ sz
      ∧ (prefixSz off sz = 4096 - off % 4096 ∨ prefixSz off sz = sz ∧ sz < 4096 - off % 4096) := by
  unfold prefixSz
  omega

theorem postfixSz_eq (hlt : off + sz < 2 ^ 32) : postfixSz off sz = (off + sz) % 4096 := by
  rw [postfixSz, Nat.mod_eq_of_lt hlt]

/-- The last block counts down when its part has been transferred. -/
theorem last_cases (off sz : Nat) {endBlock : Nat} (hlt : endBlock < 2 ^ 32) :
    (HasPostfix off sz endBlock ∧ (0 < endBlock → lastBlock off sz endBlock = endBlock - 1))
      ∨ (¬HasPostfix off sz endBlock ∧ lastBlock off sz endBlock = endBlock) := by
  by_cases h : HasPostfix off sz endBlock
  · refine Or.inl ⟨h, fun hpos => ?_⟩
    rw [lastBlock, if_pos h]
    omega
  · exact Or.inr ⟨h, if_neg h⟩

/-- The last chunk is not in the block where the disk begins, also if the end was
computed before the request was clamped. -/
theorem HasPostfix.pos {z : Nat} (hlt : off + sz < 2 ^ 32) (hsz : sz ≤ z)
    (h : HasPostfix off sz ((off + z - 1) / 4096)) : 0 < (off + z - 1) / 4096 := by
  obtain ⟨h0, hle⟩ := h
  rw [postfixSz_eq hlt] at h0
  rcases start_cases off sz with ⟨-, hs, -⟩ | ⟨-, hs, -, hal, hge⟩
  · omega
  · omega

/-- A part of a block is left for the last chunk. -/
theorem hasPostfix_bounds (hlt : off + sz < 2 ^ 32)
    (h : HasPostfix off sz ((off + sz - 1) / 4096)) :
    sub32 sz (postfixSz off sz) = sz - (off + sz) % 4096 ∧ (off + sz) % 4096 < sz
      ∧ 0 < (off + sz) % 4096 ∧ 0 < (off + sz - 1) / 4096 := by
  have hpos := h.pos hlt (Nat.le_refl sz)
  obtain ⟨h0, hle⟩ := h
  rw [postfixSz_eq hlt] at h0 ⊢
  have hsub : (off + sz) % 4096 < sz := by
    rcases start_cases off sz with ⟨-, hs, -⟩ | ⟨-, hs, -, hal, hge⟩
    · omega
    · omega
  exact ⟨sub32_of_le (Nat.le_of_lt hsub), hsub, Nat.pos_of_ne_zero h0, hpos⟩

/-- Where the loop over the remaining blocks starts and ends, if the last block
is that of the last byte. -/
theorem loop_bounds (hsz : 0 < sz) (hlt : off + sz < 2 ^ 32) {i : Nat}
    (hi : i < lastBlock off sz ((off + sz - 1) / 4096) + 1 - startBlock off sz) :
    startBlock off sz * 4096 = off + bufOffset off sz
      ∧ bufOffset off sz + (i + 1) * 4096 ≤ sz := by
  have hpre := prefixSz_cases off sz
  have hstart := start_cases off sz
  rcases last_cases off sz (show (off + sz - 1) / 4096 < 2 ^ 32 by omega) with
    ⟨hpost, hlast⟩ | ⟨hpost, hlast⟩
  · obtain ⟨-, hlow, h0, hend⟩ := hasPostfix_bounds hlt hpost
    have hlast' := hlast hend
    rcases hstart with ⟨-, hs, hb⟩ | ⟨-, hs, hb, hal, hge⟩ <;> omega
  · -- without a last chunk the end is on a boundary, or nothing is left
    have hnone : (off + sz) % 4096 = 0 ∨ (off + sz - 1) / 4096 < startBlock off sz := by
      by_contra hno
      refine hpost ⟨?_, by omega⟩
      rw [postfixSz_eq hlt]
      omega
    rcases hstart with ⟨-, hs, hb⟩ | ⟨-, hs, hb, hal, hge⟩ <;> omega

theorem loop_buf (hlt : off + sz < 2 ^ 32) {i : Nat}
    (hle : bufOffset off sz + (i + 1) * 4096 ≤ sz) :
    (bufOffset off sz + i * 4096) % 2 ^ 32 = bufOffset off sz + i * 4096 :=
  Nat.mod_eq_of_lt (by omega)

/-- A request whose last block is that of its last byte is split into its
parts. -/
theorem chunks_splits (hsz : 0 < sz) (hlt : off + sz < 2 ^ 32) :
    Splits off sz (chunks off sz ((off + sz - 1) / 4096)) := by
  have hmod := postfixSz_eq hlt
  have hpre := prefixSz_cases off sz
  have hpost := @hasPostfix_bounds off sz hlt
  have hoff := Nat.mod_lt off (show 0 < 4096 by decide)
  constructor
  · intro c hc
    rcases mem_chunks.mp hc with ⟨-, rfl⟩ | ⟨hlast, rfl⟩ | ⟨i, hi, rfl⟩
    · show off / 4096 * 4096 + off % 4096 = off + 0
      omega
    · obtain ⟨hsub, hlow, h0, -⟩ := hpost hlast
      show (off + sz - 1) / 4096 * 4096 + 0 = off + sub32 sz (postfixSz off sz)
      rw [hsub]
      omega
    · obtain ⟨hstart, hle⟩ := loop_bounds hsz hlt hi
      have hwrap := loop_buf hlt hle
      dsimp only
      rw [hwrap, Nat.add_mul, hstart]
      omega
  · intro c hc
    rcases mem_chunks.mp hc with ⟨-, rfl⟩ | ⟨-, rfl⟩ | ⟨i, -, rfl⟩
    · show off % 4096 + prefixSz off sz ≤ 4096
      omega
    · show 0 + postfixSz off sz ≤ 4096
      rw [hmod]
      omega
    · exact Nat.le_of_eq (Nat.zero_add 4096)
  · intro c hc
    rcases mem_chunks.mp hc with ⟨-, rfl⟩ | ⟨hlast, rfl⟩ | ⟨i, hi, rfl⟩
    · show 0 + prefixSz off sz ≤ sz
      omega
    · obtain ⟨hsub, hlow, h0, -⟩ := hpost hlast
      show sub32 sz (postfixSz off sz) + postfixSz off sz ≤ sz
      rw [hsub, hmod]
      omega
    · obtain ⟨hstart, hle⟩ := loop_bounds hsz hlt hi
      have hwrap := loop_buf hlt hle
      show (bufOffset off sz + i * 4096) % 2 ^ 32 + 4096 ≤ sz
      omega
  · intro c hc
    rcases mem_chunks.mp hc with ⟨-, rfl⟩ | ⟨hlast, rfl⟩ | ⟨i, -, rfl⟩
    · show 0 < prefixSz off sz
      omega
    · obtain ⟨-, -, h0, -⟩ := hpost hlast
      show 0 < postfixSz off sz
      rw [hmod]
      omega
    · show 0 < 4096
      decide
  · intro i hi
    by_cases hfirst : i < bufOffset off sz
    · -- in the first chunk
      have hpre' : HasPrefix off sz := by
        by_contra hno
        rw [bufOffset, if_neg hno] at hfirst
        omega
      rw [bufOffset, if_pos hpre'] at hfirst
      exact ⟨_, mem_chunks.mpr (Or.inl ⟨hpre', rfl⟩), Nat.zero_le i, by simpa using hfirst⟩
    by_cases hlast : HasPostfix off sz ((off + sz - 1) / 4096) ∧ sz - (off + sz) % 4096 ≤ i
    · -- in the last one
      obtain ⟨hhas, hge⟩ := hlast
      obtain ⟨hsub, hlow, h0, -⟩ := hpost hhas
      refine ⟨_, mem_chunks.mpr (Or.inr (Or.inl ⟨hhas, rfl⟩)), ?_, ?_⟩
      · show sub32 sz (postfixSz off sz) ≤ i
        rw [hsub]
        exact hge
      · show i < sub32 sz (postfixSz off sz) + postfixSz off sz
        rw [hsub, hmod]
        omega
    · -- in one of the whole blocks
      have hk : (i - bufOffset off sz) / 4096
          < lastBlock off sz ((off + sz - 1) / 4096) + 1 - startBlock off sz := by
        have hstart := start_cases off sz
        rcases last_cases off sz (show (off + sz - 1) / 4096 < 2 ^ 32 by omega) with
          ⟨hhas, hend⟩ | ⟨hhas, hend⟩
        · obtain ⟨-, hlow, h0, hpos⟩ := hpost hhas
          have hlow' : i < sz - (off + sz) % 4096 := by
            by_contra hge
            exact hlast ⟨hhas, by omega⟩
          have hend' := hend hpos
          rcases hstart with ⟨-, hs, hb⟩ | ⟨-, hs, hb, hal, hge⟩ <;> omega
        · have hnone : (off + sz) % 4096 = 0 ∨ (off + sz - 1) / 4096 < startBlock off sz := by
            by_contra hno
            refine hhas ⟨?_, by omega⟩
            rw [hmod]
            omega
          rcases hstart with ⟨-, hs, hb⟩ | ⟨-, hs, hb, hal, hge⟩ <;> omega
      obtain ⟨hstart, hle⟩ := loop_bounds hsz hlt hk
      have hwrap := loop_buf hlt hle
      refine ⟨_, mem_chunks.mpr (Or.inr (Or.inr ⟨_, hk, rfl⟩)), ?_, ?_⟩
      · show (bufOffset off sz + (i - bufOffset off sz) / 4096 * 4096) % 2 ^ 32 ≤ i
        omega
      · show i < (bufOffset off sz + (i - bufOffset off sz) / 4096 * 4096) % 2 ^ 32 + 4096
        omega

end Chunks

/-! ## The driver is a clamped byte array -/

section Requests

variable {d : Disk} {off sz M : Nat}

theorem bmod_of_lt {n : Nat} (h : n < 2 ^ 31) : Int.bmod n (2 ^ 32) = n := by
  rw [Int.bmod_def]
  split <;> omega

theorem request_past (h : maxOffset d < off) : request d off sz = some (0, []) := if_pos h

/-- What is left of a request after the comparison of its end with the size. The
sum is signed, so that an end behind 2 GiB is not clamped. -/
def leftOf (M off sz : Nat) : Nat := if off + sz < 2 ^ 31 then min sz (M - off) else sz

/-- A request that starts on the disk is clamped to it, with the last block of
what was asked for. -/
theorem request_eq (hM : maxOffset d = M) (hoff : off ≤ M) (hlt : off + sz < 2 ^ 32) :
    request d off sz = some (leftOf M off sz,
      chunks off (leftOf M off sz) (sub32 (off + sz) 1 / 4096)) := by
  have hsz : (if (M : Int) < Int.bmod (off + sz) (2 ^ 32) then ((M : Int) - off).toNat else sz)
      = leftOf M off sz := by
    unfold leftOf
    rw [Int.bmod_def]
    split <;> split <;> split <;> omega
  unfold request
  rw [hM, if_neg (by omega), if_neg (by omega)]
  simp only [Int.toNat_natCast, hsz, Nat.mod_eq_of_lt hlt]

/-- A request is carried out if its last block is that of the last byte that is
left of it. -/
theorem request_splits (hM : maxOffset d = M) (hoff : off < M) (hsz : 0 < sz)
    (hlt : off + sz < 2 ^ 31)
    (hlast : (off + sz - 1) / 4096 = (off + min sz (M - off) - 1) / 4096) :
    ∃ cs, request d off sz = some (min sz (M - off), cs) ∧ Splits off (min sz (M - off)) cs := by
  have hreq := request_eq hM (Nat.le_of_lt hoff) (show off + sz < 2 ^ 32 by omega)
  rw [leftOf, if_pos hlt] at hreq
  refine ⟨_, hreq, ?_⟩
  rw [sub32_of_le (by omega), hlast]
  exact chunks_splits (by omega) (by omega)

theorem ataRead_of {o : Int} {r : Nat} {cs : List Chunk} (h : request d o sz = some (r, cs))
    (mem : Mem) (buf : Nat) : ataRead d o sz mem buf = some (r, cs.foldl (readChunk d buf) mem) := by
  rw [ataRead, h]
  rfl

theorem ataWrite_of {o : Int} {r : Nat} {cs : List Chunk} (h : request d o sz = some (r, cs))
    (mem : Mem) (buf : Nat) : ataWrite d o sz mem buf = some (r, cs.foldl (writeChunk mem buf) d) := by
  rw [ataWrite, h]
  rfl

/-- The number of bytes that the disk has for a request. -/
def avail (d : Disk) (off sz : Nat) : Nat := min sz (d.size - off)

/-- The driver does for a request what a clamped byte array does, and transfers
only blocks that overlap what is left of it. -/
structure Clamped (d : Disk) (off sz : Nat) : Prop where
  read : ∀ mem buf, buf + sz ≤ 2 ^ 32 → ataRead d off sz mem buf
    = some (avail d off sz, copy mem buf d.bytes off (avail d off sz))
  write : ∀ mem buf, buf + sz ≤ 2 ^ 32 → ataWrite d off sz mem buf
    = some (avail d off sz, d.put (copy d.bytes off mem buf (avail d off sz)))
  overlap : ∀ b ∈ transferred d off sz,
    b * 4096 < off + avail d off sz ∧ off < (b + 1) * 4096 ∧ 0 < avail d off sz

theorem Splits.clamped {cs : List Chunk} (h : request d off sz = some (avail d off sz, cs))
    (S : Splits off (avail d off sz) cs) (hoff : off ≤ d.size) : Clamped d off sz := by
  have hin : off + avail d off sz ≤ d.size ∧ avail d off sz ≤ sz := by
    unfold avail
    omega
  refine ⟨fun mem buf hbuf => ?_, fun mem buf hbuf => ?_, fun b hb => ?_⟩
  · rw [ataRead_of h, S.read (by omega) hin.1]
  · rw [ataWrite_of h, S.write (by omega) hin.1]
  · rw [transferred, h] at hb
    obtain ⟨c, hc, rfl⟩ := List.mem_map.mp hb
    have hsame := S.same c hc
    have hblock := S.inBlock c hc
    have hbuf := S.inBuf c hc
    have hpos := S.pos c hc
    rw [Nat.add_mul]
    omega

/-- **The disk driver implements a byte array with clamping** exactly for the
requests that start behind the end, and for those of at least one byte whose
last block is also that of the last byte there is. -/
theorem transfer_iff (hsize : d.size < 2 ^ 31) (hlt : off + sz < 2 ^ 31) : Clamped d off sz
    ↔ d.size < off ∨ off < d.size ∧ 0 < sz
      ∧ (off + sz ≤ d.size ∨ (off + sz - 1) / 4096 = (d.size - 1) / 4096) := by
  have hM : maxOffset d = d.size := bmod_of_lt hsize
  constructor
  · intro C
    by_contra hno
    have hoff : off ≤ d.size := by omega
    have htrans : transferred d off sz
        = (chunks off (avail d off sz) (sub32 (off + sz) 1 / 4096)).map Chunk.block := by
      rw [transferred, request_eq hM hoff (by omega), leftOf, if_pos hlt]
      rfl
    have hover : ∀ c ∈ chunks off (avail d off sz) (sub32 (off + sz) 1 / 4096),
        c.block * 4096 < off + avail d off sz ∧ 0 < avail d off sz := fun c hc => by
      have := C.overlap c.block (by rw [htrans]; exact List.mem_map_of_mem hc)
      exact ⟨this.1, this.2.2⟩
    rcases Nat.eq_zero_or_pos (avail d off sz) with hzero | hpos
    · -- nothing is left, but the first block is transferred all the same
      have hfirst := hover _ (mem_chunks.mpr (Or.inl ⟨Or.inr (by omega), rfl⟩))
      omega
    · have havail : avail d off sz = d.size - off ∧ d.size - off < sz := by
        unfold avail at hpos ⊢
        omega
      have hend : sub32 (off + sz) 1 / 4096 = (off + sz - 1) / 4096 := by
        rw [sub32_of_le (by omega)]
      rw [hend] at hover
      have hbeyond : (d.size - 1) / 4096 < (off + sz - 1) / 4096 := by omega
      have hstart : startBlock off (avail d off sz) ≤ (off + sz - 1) / 4096 := by
        rcases start_cases off (avail d off sz) with ⟨-, hs, -⟩ | ⟨-, hs, -⟩ <;> omega
      -- the block of the last byte asked for is transferred, as last chunk or in the loop
      by_cases hpost : HasPostfix off (avail d off sz) ((off + sz - 1) / 4096)
      · have hlast := hover _ (mem_chunks.mpr (Or.inr (Or.inl ⟨hpost, rfl⟩)))
        simp only at hlast
        omega
      · have hlb : lastBlock off (avail d off sz) ((off + sz - 1) / 4096)
            = (off + sz - 1) / 4096 := if_neg hpost
        have hloop := hover _ (mem_chunks.mpr (Or.inr (Or.inr
          ⟨(off + sz - 1) / 4096 - startBlock off (avail d off sz), by omega, rfl⟩)))
        simp only at hloop
        omega
  · rintro (hpast | ⟨hoff, hsz, hend⟩)
    · have hzero : avail d off sz = 0 := by
        unfold avail
        omega
      have hreq : request d off sz = some (avail d off sz, []) := by
        rw [hzero]
        exact request_past (by omega)
      have hnone : ∀ (m m' : Mem) (a b : Nat), copy m a m' b 0 = m := fun m m' a b => by
        funext x
        exact copy_apply_of_not (by omega)
      refine ⟨fun mem buf _ => ?_, fun mem buf _ => ?_, fun b hb => ?_⟩
      · rw [ataRead_of hreq, hzero, hnone]
        rfl
      · rw [ataWrite_of hreq, hzero, hnone]
        rfl
      · rw [transferred, hreq] at hb
        exact absurd hb List.not_mem_nil
    · have hlast : (off + sz - 1) / 4096 = (off + min sz (d.size - off) - 1) / 4096 := by
        rcases Nat.lt_or_ge d.size (off + sz) with hover | hfit
        · rw [Nat.min_eq_right (by omega), Nat.add_sub_of_le (Nat.le_of_lt hoff)]
          exact hend.resolve_left (by omega)
        · rw [Nat.min_eq_left (by omega)]
      obtain ⟨cs, hreq, S⟩ := request_splits hM hoff hsz hlt hlast
      exact S.clamped hreq (Nat.le_of_lt hoff)

end Requests

/-- A disk of nine sectors, full of zeros. -/
def nineSectors : Disk := ⟨fun _ => 0, 9, fun _ _ => 0⟩

/-- The last byte asked for is in the same block as the last byte there is. -/
theorem transfer_iff_nineSectors : Clamped nineSectors 4000 4000 :=
  (transfer_iff (by decide) (by decide)).mpr (Or.inr ⟨by decide, by decide, Or.inr (by decide)⟩)

/-- Writing nothing at offset 4096 still transfers block 1, and writing 8192
bytes at offset 512 transfers block 2, which the disk does not have. -/
theorem transfers_too_much :
    transferred nineSectors (4096 : Nat) 0 = [1] ∧ ¬Clamped nineSectors 4096 0
      ∧ transferred nineSectors (512 : Nat) 8192 = [0, 2, 1] ∧ ¬Clamped nineSectors 512 8192 := by
  have hnone : transferred nineSectors (4096 : Nat) 0 = [1] := by decide
  have hpast : transferred nineSectors (512 : Nat) 8192 = [0, 2, 1] := by decide
  refine ⟨hnone, fun C => ?_, hpast, fun C => ?_⟩
  · have := (C.overlap 1 (by rw [hnone]; decide)).2.2
    exact absurd this (by decide)
  · have := (C.overlap 2 (by rw [hpast]; decide)).1
    exact absurd this (by decide)

end Ata

end Shitos
