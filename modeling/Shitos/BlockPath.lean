import Shitos.Ata
import Shitos.Dospart
import Shitos.Ext2Blocks

/-!
# From a file system block to the disk

`read_block` and `write_block` multiply the block number by the block size,
`dospart_read` and `dospart_write` add the start of the partition, and the ATA
driver compares the offset with its size; all of it in 32 bits, the last of it
signed. `reached_iff` says which blocks come out at the right place: those
below 2 GiB on the disk, on disks whose size, cut to 32 bits, is still large
enough.
-/

namespace Shitos

namespace BlockPath

open Ata Dospart

/-- The buffer's memory and the disk; none after an access that is not
modelled. -/
abbrev State := Option (Mem × Disk)

/-- The disk below the partition, with the buffer at `buf`. -/
def ataDevice (buf : Nat) : Device State where
  read r s :=
    match s with
    | none => (0, none)
    | some (mem, d) =>
        match ataRead d r.off.toInt r.sz.toNat mem buf with
        | none => (0, none)
        | some (ret, mem) => (ret, some (mem, d))
  write r s :=
    match s with
    | none => (0, none)
    | some (mem, d) =>
        match ataWrite d r.off.toInt r.sz.toNat mem buf with
        | none => (0, none)
        | some (ret, d) => (ret, some (mem, d))

/-- `off * fs->block_sz` and `fs->block_sz`. -/
def blockOffset (bs b : Nat) : BitVec 32 := BitVec.ofNat 32 (b * bs)

def blockLength (bs : Nat) : BitVec 32 := BitVec.ofNat 32 bs

/-- `read_block(fs, b, buf)`; the code it returns only says whether `b` is 0. -/
def readBlock (part : Partition) (bs b buf : Nat) (mem : Mem) (d : Disk) : State :=
  if b = 0 then some (mem, d)
  else (dospartRead (ataDevice buf) part (blockOffset bs b) (blockLength bs) (some (mem, d))).2

/-- `write_block(fs, b, buf)`. -/
def writeBlock (part : Partition) (bs b buf : Nat) (mem : Mem) (d : Disk) : State :=
  if b = 0 then some (mem, d)
  else (dospartWrite (ataDevice buf) part (blockOffset bs b) (blockLength bs) (some (mem, d))).2

/-- The chunks that both transfer. -/
def issued (part : Partition) (bs b : Nat) (d : Disk) : Option (List Chunk) :=
  if b = 0 ∨ limit part < (blockOffset bs b).toNat then some []
  else
    let r := forwarded part (blockOffset bs b) (blockLength bs)
    (request d r.off.toInt r.sz.toNat).map Prod.snd

/-- What the disk driver does with the chunks of a request is what an access to
the block does with those of `issued`. -/
theorem accessed_of_issued {part : Partition} {bs b : Nat} {mem : Mem} {d : Disk}
    {cs : List Chunk} (h : issued part bs b d = some cs)
    {call : Request → State → Int × State} {g : List Chunk → Mem × Disk}
    (hnil : g [] = (mem, d))
    (hcall : ∀ r ret cs, request d r.off.toInt r.sz.toNat = some (ret, cs) →
      (call r (some (mem, d))).2 = some (g cs)) :
    (if b = 0 then some (mem, d)
      else (transfer call part (blockOffset bs b) (blockLength bs) (some (mem, d))).2)
      = some (g cs) := by
  unfold issued at h
  by_cases hb : b = 0
  · rw [if_pos (Or.inl hb)] at h
    rw [if_pos hb, ← Option.some.inj h, hnil]
  rw [if_neg hb, transfer_eq]
  by_cases hpast : limit part < (blockOffset bs b).toNat
  · rw [if_pos (Or.inr hpast)] at h
    rw [if_pos hpast, ← Option.some.inj h, hnil]
  · rw [if_neg (not_or.mpr ⟨hb, hpast⟩)] at h
    obtain ⟨⟨ret, cs'⟩, hreq, rfl⟩ := Option.map_eq_some_iff.mp h
    rw [if_neg hpast]
    exact hcall _ ret cs' hreq

theorem readBlock_of_issued {part : Partition} {bs b : Nat} {d : Disk} {cs : List Chunk}
    (h : issued part bs b d = some cs) (buf : Nat) (mem : Mem) :
    readBlock part bs b buf mem d = some (cs.foldl (readChunk d buf) mem, d) := by
  unfold readBlock dospartRead
  refine accessed_of_issued h (g := fun cs => (cs.foldl (readChunk d buf) mem, d)) rfl ?_
  intro r ret cs' hreq
  simp only [ataDevice, ataRead_of hreq]

theorem writeBlock_of_issued {part : Partition} {bs b : Nat} {d : Disk} {cs : List Chunk}
    (h : issued part bs b d = some cs) (buf : Nat) (mem : Mem) :
    writeBlock part bs b buf mem d = some (mem, cs.foldl (writeChunk mem buf) d) := by
  unfold writeBlock dospartWrite
  refine accessed_of_issued h (g := fun cs => (mem, cs.foldl (writeChunk mem buf) d)) rfl ?_
  intro r ret cs' hreq
  simp only [ataDevice, ataWrite_of hreq]

/-! ## The right place -/

/-- Where block `b` of the partition lies on the disk, in exact integers. -/
def place (part : Partition) (bs b : Nat) : Nat := part.startLba.toNat * 512 + b * bs

/-- Reading and writing block `b` transfers its bytes and no others. -/
structure Reached (part : Partition) (bs b : Nat) (d : Disk) : Prop where
  chunks : ∃ cs, issued part bs b d = some cs ∧ Splits (place part bs b) bs cs
  read : ∀ buf mem, buf + bs ≤ 2 ^ 32 →
    readBlock part bs b buf mem d = some (copy mem buf d.bytes (place part bs b) bs, d)
  write : ∀ buf mem, buf + bs ≤ 2 ^ 32 →
    writeBlock part bs b buf mem d = some (mem, d.put (copy d.bytes (place part bs b) mem buf bs))

/-- What is left of the block's length behind the partition driver. -/
def partLength (part : Partition) (bs b : Nat) : Nat := min bs (limit part - b * bs)

/-- The disk driver clamps the request although the disk goes on, but only in
front of a block boundary, and the blocks up to the end are transferred. -/
structure Spilled (part : Partition) (bs b : Nat) (d : Disk) : Prop where
  low : (place part bs b : Int) < maxOffset d
  high : maxOffset d < (place part bs b + partLength part bs b : Nat)
  small : place part bs b + partLength part bs b < 2 ^ 31
  cut : (4096 : Int) ∣ maxOffset d
  stop : 4096 ∣ place part bs b + bs
  last : bs < partLength part bs b + 4096

/-- The three layers agree on where the block lies, and on its length. -/
structure InReach (part : Partition) (bs b : Nat) (d : Disk) : Prop where
  off : place part bs b < 2 ^ 31
  inPart : b * bs ≤ limit part
  onDisk : (place part bs b : Int) ≤ maxOffset d
  whole : (b * bs + bs ≤ limit part
      ∧ ((place part bs b + bs : Nat) ≤ maxOffset d ∨ 2 ^ 31 ≤ place part bs b + bs))
    ∨ Spilled part bs b d

section Reached

variable {part : Partition} {bs b : Nat} {d : Disk}

theorem blockOffset_toNat : (blockOffset bs b).toNat = b * bs % 2 ^ 32 := BitVec.toNat_ofNat _ _

theorem toInt_cases (x : BitVec 32) :
    x.toNat < 2 ^ 31 ∧ x.toInt = (x.toNat : Nat) ∨ x.toInt < 0 := by
  have hint := BitVec.toInt_eq_toNat_cond x
  have hlt := x.isLt
  split at hint
  · left
    constructor <;> omega
  · right
    omega

/-- The request at the disk, if the block is not behind the end of the
partition. -/
theorem forwarded_block (hbs : bs < 2 ^ 32) (ho : b * bs % 2 ^ 32 ≤ limit part) :
    (forwarded part (blockOffset bs b) (blockLength bs)).off.toNat = place part bs b % 2 ^ 32
      ∧ (forwarded part (blockOffset bs b) (blockLength bs)).sz.toNat
        = if limit part < (b * bs % 2 ^ 32 + bs) % 2 ^ 32 then limit part - b * bs % 2 ^ 32
          else bs := by
  have hoff := @blockOffset_toNat bs b
  have hlen : (blockLength bs).toNat = bs := by
    rw [blockLength, BitVec.toNat_ofNat, Nat.mod_eq_of_lt hbs]
  constructor
  · rw [forwarded_off, hoff, place]
    omega
  · rw [forwarded_sz part (blockLength bs) (by rw [hoff]; exact ho), hoff, hlen]

/-- What the disk driver gets, for a block that lies below 2 GiB. -/
theorem issued_eq (hb : b ≠ 0) (hbs : bs ≤ 2 ^ 31) (hoff : place part bs b < 2 ^ 31)
    (hpart : b * bs ≤ limit part) {M : Nat} (hM : maxOffset d = M) (hdisk : place part bs b ≤ M) :
    issued part bs b d = some (chunks (place part bs b)
      (leftOf M (place part bs b) (partLength part bs b))
      (sub32 (place part bs b + partLength part bs b) 1 / 4096)) := by
  have hlow : b * bs ≤ place part bs b := Nat.le_add_left _ _
  have hmod : b * bs % 2 ^ 32 = b * bs := Nat.mod_eq_of_lt (by omega)
  obtain ⟨hfoff, hfsz⟩ := @forwarded_block part bs b (show bs < 2 ^ 32 by omega)
    (by rw [hmod]; exact hpart)
  rw [hmod] at hfsz
  rw [Nat.mod_eq_of_lt (by omega)] at hfoff
  have hlen : (forwarded part (blockOffset bs b) (blockLength bs)).sz.toNat
      = partLength part bs b := by
    rw [hfsz, partLength, Nat.mod_eq_of_lt (by omega)]
    split <;> omega
  have hint : (forwarded part (blockOffset bs b) (blockLength bs)).off.toInt
      = (place part bs b : Nat) := by
    rw [BitVec.toInt_eq_toNat_cond, hfoff, if_pos (by omega)]
  have hpast : ¬limit part < (blockOffset bs b).toNat := by
    rw [blockOffset_toNat, hmod]
    exact Nat.not_lt.mpr hpart
  have hle : partLength part bs b ≤ bs := Nat.min_le_left _ _
  have hreq := @request_eq d _ (partLength part bs b) M hM hdisk (by omega)
  unfold issued
  rw [if_neg (not_or.mpr ⟨hb, hpast⟩)]
  simp only [hint, hlen, hreq]
  rfl

/-- The loop does not go behind the last block that was computed. -/
theorem lastBlock_le {off r sz : Nat} (hr : r ≤ sz) (hlt : off + sz < 2 ^ 32) :
    lastBlock off r (sub32 (off + sz) 1 / 4096) ≤ sub32 (off + sz) 1 / 4096 := by
  have hmod := @postfixSz_eq off r (by omega)
  have hsub : sub32 (off + sz) 1 < 2 ^ 32 := by
    unfold sub32
    split <;> omega
  rcases last_cases off r (show sub32 (off + sz) 1 / 4096 < 2 ^ 32 by omega) with
    ⟨⟨h0, hle⟩, hlast⟩ | ⟨-, hlast⟩
  · rcases Nat.eq_zero_or_pos (sub32 (off + sz) 1 / 4096) with hzero | hpos
    · -- block 0 is not both whole and the last part
      rw [hzero] at hle
      unfold sub32 at hzero
      rcases start_cases off r with ⟨-, hs, -⟩ | ⟨-, hs, -, hal, hge⟩
      · omega
      · split at hzero <;> omega
    · rw [hlast hpos]
      omega
  · exact Nat.le_of_eq hlast

/-- Every chunk that is issued lies below 4 GiB. -/
theorem chunks_low {off r sz : Nat} (hr : r ≤ sz) (hsz : 0 < sz) (hlt : off + sz < 2 ^ 32)
    {c : Chunk} (hc : c ∈ chunks off r (sub32 (off + sz) 1 / 4096)) :
    c.block * 4096 ≤ off + sz := by
  have hsub : sub32 (off + sz) 1 = off + sz - 1 := sub32_of_le (by omega)
  have hlast := @lastBlock_le off r sz hr hlt
  rw [hsub] at hc hlast
  rcases mem_chunks.mp hc with ⟨-, rfl⟩ | ⟨-, rfl⟩ | ⟨i, hi, rfl⟩
  · dsimp only
    omega
  · dsimp only
    omega
  · dsimp only
    omega

/-- A block that is transferred to its place lies in reach. -/
theorem place_lt (hbs0 : 0 < bs) (hbs : bs ≤ 2 ^ 31) {cs : List Chunk}
    (h : issued part bs b d = some cs) (S : Splits (place part bs b) bs cs) :
    b ≠ 0 ∧ place part bs b < 2 ^ 31 ∧ b * bs ≤ limit part
      ∧ (place part bs b : Int) ≤ maxOffset d := by
  obtain ⟨c, hc, -⟩ := S.all 0 hbs0
  have hsame := S.same c hc
  have hpos := S.inBlock c hc
  unfold issued at h
  split at h
  · rw [← Option.some.inj h] at hc
    exact absurd hc List.not_mem_nil
  rename_i hpast
  obtain ⟨hb, hpast⟩ := not_or.mp hpast
  obtain ⟨⟨ret, cs'⟩, hreq, rfl⟩ := Option.map_eq_some_iff.mp h
  have ho : b * bs % 2 ^ 32 ≤ limit part := by
    rw [← blockOffset_toNat]
    exact Nat.not_lt.mp hpast
  obtain ⟨hfoff, hfsz⟩ := @forwarded_block part bs b (show bs < 2 ^ 32 by omega) ho
  have hint := toInt_cases (forwarded part (blockOffset bs b) (blockLength bs)).off
  generalize forwarded part (blockOffset bs b) (blockLength bs) = r at *
  have hz : r.sz.toNat ≤ bs := by
    rw [hfsz]
    split <;> omega
  clear hfsz
  -- a request that is past the end transfers nothing, and one below zero is none
  have hnot : ¬maxOffset d < r.off.toInt := fun hgt => by
    rw [request, if_pos hgt] at hreq
    rw [← (Prod.mk.inj (Option.some.inj hreq)).2] at hc
    exact List.not_mem_nil hc
  have hneg : ¬r.off.toInt < 0 := fun hlt => by
    rw [request, if_neg hnot, if_pos hlt] at hreq
    cases hreq
  obtain ⟨hlow, hint⟩ := hint.resolve_right hneg
  have hoffM : (r.off.toNat : Int) ≤ maxOffset d := by
    rw [← hint]
    exact Int.not_lt.mp hnot
  obtain ⟨M, hM⟩ := Int.eq_ofNat_of_zero_le (Int.le_trans (Int.natCast_nonneg _) hoffM)
  rw [hM] at hoffM
  rw [hint, request_eq hM (Int.ofNat_le.mp hoffM) (by omega)] at hreq
  obtain ⟨-, rfl⟩ := Prod.mk.inj (Option.some.inj hreq)
  have hleft : leftOf M r.off.toNat r.sz.toNat ≤ r.sz.toNat := by
    unfold leftOf
    split <;> omega
  have hzpos : 0 < r.sz.toNat := by
    by_contra hzero
    have hlen := S.pos _ (mem_chunks.mpr (Or.inl ⟨Or.inr (by omega), rfl⟩))
    have hle := (prefixSz_cases r.off.toNat (leftOf M r.off.toNat r.sz.toNat)).1
    simp only at hlen
    omega
  have hblock := chunks_low hleft hzpos (by omega) hc
  have hplace : place part bs b % 2 ^ 32 = place part bs b := Nat.mod_eq_of_lt (by omega)
  rw [hplace] at hfoff
  have hbb : b * bs ≤ place part bs b := Nat.le_add_left _ _
  have hlt : place part bs b < 2 ^ 31 := by
    rw [← hfoff]
    exact hlow
  have hmod : b * bs % 2 ^ 32 = b * bs := Nat.mod_eq_of_lt (by omega)
  rw [hmod] at ho
  rw [← hfoff, hM]
  exact ⟨hb, hlow, ho, hoffM⟩

/-- Of a request that is cut short, the chunks are those of the whole one only if
it is spilled. -/
theorem spilled_of_splits {M : Nat} (hbs : bs ≤ 2 ^ 31) (hoff : place part bs b < 2 ^ 31)
    (hM : maxOffset d = M) (hdisk : place part bs b ≤ M)
    (hcut : leftOf M (place part bs b) (partLength part bs b) < bs)
    (S : Splits (place part bs b) bs (chunks (place part bs b)
      (leftOf M (place part bs b) (partLength part bs b))
      (sub32 (place part bs b + partLength part bs b) 1 / 4096))) : Spilled part bs b d := by
  have hz : partLength part bs b ≤ bs := Nat.min_le_left _ _
  generalize hzdef : partLength part bs b = z at *
  generalize hadef : place part bs b = a at *
  have hleft : leftOf M a z ≤ z := by
    unfold leftOf
    split <;> omega
  have hleftdef : leftOf M a z = if a + z < 2 ^ 31 then min z (M - a) else z := rfl
  generalize leftOf M a z = r at *
  have hpos : 0 < r := by
    by_contra hzero
    have hlen := S.pos _ (mem_chunks.mpr (Or.inl ⟨Or.inr (by omega), rfl⟩))
    have hle := (prefixSz_cases a r).1
    simp only at hlen
    omega
  have hsub : sub32 (a + z) 1 = a + z - 1 := sub32_of_le (by omega)
  have hlast := @lastBlock_le a r z hleft (by omega)
  rw [hsub] at S hlast
  have hmod := @postfixSz_eq a r (by omega)
  -- the last byte of the block is in some chunk, and that is one of the loop
  obtain ⟨c, hc, hc1, hc2⟩ := S.all (bs - 1) (by omega)
  have hsame := S.same c hc
  have hin := S.inBuf c hc
  have hshort : r < z ∧ a + z < 2 ^ 31 ∧ r = M - a := by
    by_contra hno
    have heq : r = z := by
      split at hleftdef <;> omega
    subst heq
    have := (chunks_splits hpos (show a + r < 2 ^ 32 by omega)).inBuf c hc
    omega
  obtain ⟨hrz, hsmall, hrM⟩ := hshort
  have hsum : a + r = M := by omega
  clear hleftdef hrM hlast hsub
  have hpost : HasPostfix a r ((a + z - 1) / 4096) →
      (a + z - 1) / 4096 * 4096 = a + sub32 r (M % 4096) ∧ M % 4096 ≤ r := by
    intro h
    have hs := S.same _ (mem_chunks.mpr (Or.inr (Or.inl ⟨h, rfl⟩)))
    dsimp only at hs
    rw [hmod, hsum, Nat.add_zero] at hs
    refine ⟨hs, ?_⟩
    by_contra hlt
    have hbig : sub32 r (M % 4096) = 2 ^ 32 - (M % 4096 - r) := if_neg hlt
    have hfar : 2 ^ 31 ≤ sub32 r (M % 4096) := by
      rw [hbig]
      omega
    generalize sub32 r (M % 4096) = w at hs hfar
    omega
  rcases mem_chunks.mp hc with ⟨-, rfl⟩ | ⟨h, rfl⟩ | ⟨i, hi, rfl⟩
  · have hle := (prefixSz_cases a r).1
    simp only at hc2
    omega
  · obtain ⟨-, hwrap⟩ := hpost h
    dsimp only at hc1 hc2
    rw [hmod, hsum, sub32_of_le hwrap] at hc2
    omega
  · dsimp only at hsame hin hc1 hc2
    generalize (bufOffset a r + i * 4096) % 2 ^ 32 = q at *
    rcases last_cases a r (show (a + z - 1) / 4096 < 2 ^ 32 by omega) with ⟨h, hlb⟩ | ⟨h, hlb⟩
    · -- behind a last chunk the loop ends before it
      obtain ⟨hs, hwrap⟩ := hpost h
      rw [sub32_of_le hwrap] at hs
      have hend := h.pos (by omega) hleft
      have hlb' := hlb hend
      omega
    · have hcutM : M % 4096 = 0 := by
        by_contra hne
        refine h ⟨?_, by omega⟩
        rw [hmod, hsum]
        exact hne
      subst hzdef hadef
      exact
        { low := by rw [hM]; omega
          high := by rw [hM]; omega
          small := hsmall
          cut := by rw [hM]; omega
          stop := by omega
          last := by omega }

/-- A spilled request is carried out as a whole. -/
theorem Spilled.splits {M : Nat} (hbs : bs ≤ 2 ^ 31) (hM : maxOffset d = M)
    (P : Spilled part bs b d) :
    Splits (place part bs b) bs (chunks (place part bs b)
      (leftOf M (place part bs b) (partLength part bs b))
      (sub32 (place part bs b + partLength part bs b) 1 / 4096)) := by
  obtain ⟨hlow, hhigh, hsmall, hcut, hstop, hlast⟩ := P
  rw [hM] at hlow hhigh hcut
  have hz : partLength part bs b ≤ bs := Nat.min_le_left _ _
  generalize partLength part bs b = z at *
  generalize place part bs b = a at *
  have hr : leftOf M a z = M - a := by
    rw [leftOf, if_pos hsmall]
    omega
  rw [hr, sub32_of_le (by omega)]
  obtain ⟨r, rfl⟩ : ∃ r, M = a + r := ⟨M - a, by omega⟩
  rw [Nat.add_sub_cancel_left]
  have hdvd : (a + r) % 4096 = 0 := by omega
  obtain ⟨E, hE⟩ : ∃ E, (a + z - 1) / 4096 = E := ⟨_, rfl⟩
  rw [hE]
  have hend : (E + 1) * 4096 = a + bs := by omega
  have hpre := prefixSz_cases a r
  have hstart : startBlock a r * 4096 = a + bufOffset a r ∧ bufOffset a r ≤ bs := by
    rcases start_cases a r with ⟨-, hs, hb⟩ | ⟨-, hs, hb, hal, hge⟩ <;> omega
  have hnopost : ¬HasPostfix a r E := fun h => h.1 (by
    rw [postfixSz_eq (by omega)]
    exact hdvd)
  have hlb : lastBlock a r E = E := if_neg hnopost
  have hloop : ∀ i < E + 1 - startBlock a r,
      (bufOffset a r + i * 4096) % 2 ^ 32 = bufOffset a r + i * 4096
        ∧ bufOffset a r + i * 4096 + 4096 ≤ bs := fun i hi => by
    have hle : bufOffset a r + i * 4096 + 4096 ≤ bs := by omega
    exact ⟨Nat.mod_eq_of_lt (by omega), hle⟩
  constructor
  · intro c hc
    rcases mem_chunks.mp hc with ⟨-, rfl⟩ | ⟨h, -⟩ | ⟨i, hi, rfl⟩
    · show a / 4096 * 4096 + a % 4096 = a + 0
      omega
    · exact absurd h hnopost
    · rw [hlb] at hi
      show (startBlock a r + i) * 4096 + 0 = a + (bufOffset a r + i * 4096) % 2 ^ 32
      rw [(hloop i hi).1]
      omega
  · intro c hc
    rcases mem_chunks.mp hc with ⟨-, rfl⟩ | ⟨h, -⟩ | ⟨i, hi, rfl⟩
    · show a % 4096 + prefixSz a r ≤ 4096
      omega
    · exact absurd h hnopost
    · exact Nat.le_of_eq (Nat.zero_add 4096)
  · intro c hc
    rcases mem_chunks.mp hc with ⟨-, rfl⟩ | ⟨h, -⟩ | ⟨i, hi, rfl⟩
    · show 0 + prefixSz a r ≤ bs
      omega
    · exact absurd h hnopost
    · rw [hlb] at hi
      show (bufOffset a r + i * 4096) % 2 ^ 32 + 4096 ≤ bs
      rw [(hloop i hi).1]
      exact (hloop i hi).2
  · intro c hc
    rcases mem_chunks.mp hc with ⟨-, rfl⟩ | ⟨h, -⟩ | ⟨i, hi, rfl⟩
    · show 0 < prefixSz a r
      omega
    · exact absurd h hnopost
    · show 0 < 4096
      decide
  · intro i hi
    by_cases hfirst : i < bufOffset a r
    · have hhas : HasPrefix a r := by
        by_contra hno
        rw [bufOffset, if_neg hno] at hfirst
        omega
      rw [bufOffset, if_pos hhas] at hfirst
      exact ⟨_, mem_chunks.mpr (Or.inl ⟨hhas, rfl⟩), Nat.zero_le i, by simpa using hfirst⟩
    · have hk : (i - bufOffset a r) / 4096 < E + 1 - startBlock a r := by omega
      refine ⟨_, mem_chunks.mpr (Or.inr (Or.inr ⟨(i - bufOffset a r) / 4096, ?_, rfl⟩)), ?_, ?_⟩
      · rw [hlb]
        exact hk
      · show (bufOffset a r + (i - bufOffset a r) / 4096 * 4096) % 2 ^ 32 ≤ i
        rw [(hloop _ hk).1]
        omega
      · show i < (bufOffset a r + (i - bufOffset a r) / 4096 * 4096) % 2 ^ 32 + 4096
        rw [(hloop _ hk).1]
        omega

/-- **A block of the file system reaches its place on the disk** exactly if its
number is not 0 and the three layers agree about it. -/
theorem reached_iff {blocksCount : Nat} (hbs0 : 0 < bs) (hbs : bs ≤ 2 ^ 31) (hb : 1 ≤ b)
    (hcount : b < blocksCount) (hvol : blocksCount * bs ≤ part.numSectors.toNat * 512)
    (hpart : part.startLba.toNat + part.numSectors.toNat ≤ d.sectors) :
    Reached part bs b d ↔ InReach part bs b d := by
  constructor
  · intro R
    obtain ⟨cs, hcs, S⟩ := R.chunks
    obtain ⟨hb0, hoff, hin, hdisk⟩ := place_lt hbs0 hbs hcs S
    obtain ⟨M, hM⟩ := Int.eq_ofNat_of_zero_le (Int.le_trans (Int.natCast_nonneg _) hdisk)
    have hdisk' := hdisk
    rw [hM] at hdisk'
    have hle := Int.ofNat_le.mp hdisk'
    rw [issued_eq hb0 hbs hoff hin hM hle] at hcs
    rw [← Option.some.inj hcs] at S
    refine ⟨hoff, hin, hdisk, ?_⟩
    rcases Nat.lt_or_ge (leftOf M (place part bs b) (partLength part bs b)) bs with hcut | hwhole
    · exact Or.inr (spilled_of_splits hbs hoff hM hle hcut S)
    · left
      rw [hM]
      have hlen : partLength part bs b ≤ bs ∧ partLength part bs b ≤ limit part - b * bs :=
        ⟨Nat.min_le_left _ _, Nat.min_le_right _ _⟩
      unfold leftOf at hwhole
      generalize partLength part bs b = z at *
      generalize place part bs b = a at *
      generalize limit part = l at *
      split at hwhole
      · exact ⟨by omega, by omega⟩
      · exact ⟨by omega, by omega⟩
  · rintro ⟨hoff, hin, hdisk, hwhole⟩
    obtain ⟨M, hM⟩ := Int.eq_ofNat_of_zero_le (Int.le_trans (Int.natCast_nonneg _) hdisk)
    rw [hM] at hdisk
    have hle := Int.ofNat_le.mp hdisk
    have hcs := issued_eq (by omega) hbs hoff hin hM hle
    have hend : place part bs b + bs ≤ d.size := by
      have hnext : (b + 1) * bs ≤ blocksCount * bs := Nat.mul_le_mul_right bs hcount
      rw [Nat.add_mul, Nat.one_mul] at hnext
      unfold place Disk.size
      omega
    have S : Splits (place part bs b) bs (chunks (place part bs b)
        (leftOf M (place part bs b) (partLength part bs b))
        (sub32 (place part bs b + partLength part bs b) 1 / 4096)) := by
      rcases hwhole with ⟨hfit, hround⟩ | P
      · have hlen : partLength part bs b = bs := Nat.min_eq_left (by omega)
        rw [hM] at hround
        rw [hlen]
        generalize place part bs b = a at *
        have hleft : leftOf M a bs = bs := by
          unfold leftOf
          split <;> omega
        rw [hleft, sub32_of_le (by omega)]
        exact chunks_splits hbs0 (by omega)
      · exact P.splits hbs hM
    refine ⟨⟨_, hcs, S⟩, fun buf mem hbuf => ?_, fun buf mem hbuf => ?_⟩
    · rw [readBlock_of_issued hcs, S.read hbuf hend]
    · rw [writeBlock_of_issued hcs, S.write hbuf hend]

end Reached

/-- A partition of 1 MiB behind the first eight sectors. -/
def oneMiB : Partition := ⟨8, 2048⟩

/-- A disk of the given number of sectors, full of zeros. -/
def zeroDisk (sectors : Nat) : Disk := ⟨fun _ => 0, sectors, fun _ _ => 0⟩

theorem reached_iff_oneMiB : Reached oneMiB 1024 3 (zeroDisk 2056) :=
  (@reached_iff oneMiB 1024 3 (zeroDisk 2056) 1024 (by decide) (by decide) (by decide)
    (by decide) (by decide) (by decide)).mpr
    { off := by decide
      inPart := by decide
      onDisk := by decide
      whole := Or.inl ⟨by decide, Or.inl (by decide)⟩ }

/-- On a disk of 2 GiB the driver takes every request to be past the end. -/
theorem blocks_unreached :
    1024 * 1024 ≤ oneMiB.numSectors.toNat * 512
      ∧ oneMiB.startLba.toNat + oneMiB.numSectors.toNat ≤ (zeroDisk (2 ^ 22)).sectors
      ∧ issued oneMiB 1024 3 (zeroDisk (2 ^ 22)) = some []
      ∧ ¬Reached oneMiB 1024 3 (zeroDisk (2 ^ 22)) := by
  refine ⟨by decide, by decide, by decide, fun R => ?_⟩
  obtain ⟨cs, hcs, S⟩ := R.chunks
  have hdisk := (place_lt (by decide) (by decide) hcs S).2.2.2
  exact absurd hdisk (by decide)

end BlockPath

end Shitos
