import Mathlib.Data.List.Nodup
import Shitos.Ext2Disk

/-!
# Block and inode allocation

`alloc_block`, `free_block`, `alloc_inode` and `free_inode`. The four
functions share their bookkeeping: the bitmap block is written back, the
group's 16-bit counter changes by one and the whole table is rewritten, the
superblock counter changes by one and the superblock is rewritten. That
sequence is `commit`; `commit_spec` is the one lemma about it, and the
functions differ in how they find the bit and in what they return.

`Layout` collects what the volume format promises about the metadata blocks
the sequence touches. It is a fact about the mount, not about the counters,
and every operation keeps it.
-/

namespace Shitos

namespace Ext2

/-! ## The functions -/

/-- What the search loop leaves behind at its `goto found`. -/
structure Found where
  bg : Nat
  blocki : Nat
  blockoff : Nat
  buf : Mem

/-- The inner loop over the words of one bitmap. -/
def findWord (buf : Mem) (words : Nat) : Option (Nat × Nat) :=
  (List.range words).findSome? fun blocki =>
    let blockoff := ffsl (not32 (wordAt buf blocki))
    if blockoff = 0 then none else some (blocki, blockoff)

/-- The outer loop: `todo` groups from `bg` on are still to be searched. -/
def findFree (K : Kind) (fs : Fs) : Nat → Nat → Mem → Option Found
  | 0, _, _ => none
  | todo + 1, bg, buf =>
      if fs.count K bg = 0 then findFree K fs todo (bg + 1) buf
      else
        let buf := (readBlock fs (fs.bitmapNo K bg) buf).2
        match findWord buf (fs.perGroup K / 8 / 4) with
        | some (blocki, blockoff) => some ⟨bg, blocki, blockoff, buf⟩
        | none => findFree K fs todo (bg + 1) buf

/-- Write a changed bitmap back and carry the change through both counters. -/
def commit (K : Kind) (fs : Fs) (bg : Nat) (buf : Mem) (count total : Nat) : Fs :=
  let fs := (writeBlock fs (fs.bitmapNo K bg) buf).2
  let fs := { fs with bgdt := wr16 fs.bgdt (32 * bg + K.countOff) count }
  let fs := writeBgdt fs
  let fs := { fs with sb := wr32 fs.sb K.totalOff total }
  (writeSuperblock fs).2

/-- The part of an allocation after `found:`. -/
def takeBit (K : Kind) (fs : Fs) (f : Found) : Fs :=
  commit K fs f.bg (orBit f.buf f.blocki (f.blockoff - 1))
    ((fs.count K f.bg + (2 ^ 16 - 1)) % 2 ^ 16) ((fs.total K + (2 ^ 32 - 1)) % 2 ^ 32)

/-- The part of a deallocation after the checks; `n` counts from zero. -/
def releaseBit (K : Kind) (fs : Fs) (n : Nat) : Fs :=
  let bg := n / fs.perGroup K
  let bgi := n % fs.perGroup K
  let bitmap := (readBlock fs (fs.bitmapNo K bg) fs.fresh).2
  commit K fs bg (andNotBit bitmap (bgi / 32) (bgi % 32))
    ((fs.count K bg + 1) % 2 ^ 16) ((fs.total K + 1) % 2 ^ 32)

def reportFull (fs : Fs) : Fs := { fs with critical := fs.critical + 1 }

def allocBlock (fs : Fs) : Nat × Fs :=
  match findFree .block fs fs.bgdtSz 0 fs.fresh with
  | none => (0, reportFull fs)
  | some f =>
      let blockno := (f.blockoff - 1 + 32 * f.blocki + f.bg * fs.perGroup .block) % 2 ^ 32
      if blockno = 0 then (0, reportFull fs)
      else
        let fs := takeBit .block fs f
        (blockno, (writeBlock fs blockno (fill f.buf 0 0 fs.blockSz)).2)

def freeBlock (fs : Fs) (block : Nat) : Status × Fs :=
  if block = 0 then (.badBlock, fs) else (.success, releaseBit .block fs block)

def allocInode (fs : Fs) : Nat × Fs :=
  match findFree .inode fs fs.bgdtSz 0 fs.fresh with
  | none => (0, reportFull fs)
  | some f =>
      let inono := (f.blockoff + 32 * f.blocki + f.bg * fs.perGroup .inode) % 2 ^ 32
      if inono = 0 then (0, reportFull fs) else (inono, takeBit .inode fs f)

def freeInode (fs : Fs) (inoNo : Nat) : Status × Fs :=
  if inoNo = 0 then (.badBlock, fs) else (.success, releaseBit .inode fs (inoNo - 1))

/-! ## The volume format -/

/-- The blocks the bookkeeping writes: superblock, group table, bitmaps. -/
def bookBlocks (fs : Fs) : List Nat :=
  sbBlock fs :: (List.range fs.bgdtBlockSz).map (fs.bgdtOff + ·)
    ++ (List.range fs.bgdtSz).map (fs.bitmapNo .block)
    ++ (List.range fs.bgdtSz).map (fs.bitmapNo .inode)

/-- What the format fixes: a block size of `1024 * 2^k`, bitmaps of one
block, a table that holds every descriptor, and bookkeeping blocks that are
distinct and inside a device of less than 2^32 bytes. -/
structure Layout (fs : Fs) : Prop where
  dev : fs.devSz ≤ 2 ^ 32
  blockSz : ∃ k ≤ 6, fs.blockSz = 1024 * 2 ^ k
  sbIn : 1024 + superblockSz ≤ fs.devSz
  bgdtOff : fs.bgdtOff = if fs.blockSz > 1024 then 1 else 2
  bgdtFits : 32 * fs.bgdtSz ≤ fs.bgdtBlockSz * fs.blockSz
  words : ∀ K, fs.perGroup K % 32 = 0
  fits : ∀ K, fs.perGroup K ≤ 8 * fs.blockSz
  numbers : ∀ K, fs.bgdtSz * fs.perGroup K < 2 ^ 32
  distinct : (bookBlocks fs).Nodup
  bgdtIn : ∀ i < fs.bgdtBlockSz, InVol fs (fs.bgdtOff + i)
  bitmapIn : ∀ K, ∀ g < fs.bgdtSz, InVol fs (fs.bitmapNo K g)

namespace Layout

theorem blockSz_dvd {fs : Fs} (L : Layout fs) : 1024 ∣ fs.blockSz := by
  obtain ⟨k, -, hk⟩ := L.blockSz
  exact ⟨2 ^ k, hk⟩

theorem blockSz_ge {fs : Fs} (L : Layout fs) : 1024 ≤ fs.blockSz := by
  obtain ⟨k, -, hk⟩ := L.blockSz
  have : 0 < 2 ^ k := Nat.pow_pos (by decide)
  omega

theorem blockSz_le {fs : Fs} (L : Layout fs) : fs.blockSz ≤ 65536 := by
  obtain ⟨k, hk, h⟩ := L.blockSz
  have : 2 ^ k ≤ 2 ^ 6 := Nat.pow_le_pow_right (by decide) hk
  omega

end Layout

/-- The blocks every update rewrites: superblock and group table. -/
def tableBlocks (fs : Fs) : Set Nat :=
  {b | b = sbBlock fs ∨ fs.bgdtOff ≤ b ∧ b < fs.bgdtOff + fs.bgdtBlockSz}

theorem mem_tableBlocks {fs : Fs} {b : Nat} : b ∈ tableBlocks fs
    ↔ b = sbBlock fs ∨ fs.bgdtOff ≤ b ∧ b < fs.bgdtOff + fs.bgdtBlockSz := Iff.rfl

theorem Layout.bitmap_not_table {fs : Fs} (L : Layout fs) (K : Kind) {g : Nat}
    (hg : g < fs.bgdtSz) : fs.bitmapNo K g ∉ tableBlocks fs := by
  have hnd := L.distinct
  rw [bookBlocks, List.nodup_append, List.nodup_append] at hnd
  obtain ⟨⟨-, -, hblock⟩, -, hinode⟩ := hnd
  have hmem : fs.bitmapNo K g ∈ (List.range fs.bgdtSz).map (fs.bitmapNo K) :=
    List.mem_map_of_mem (List.mem_range.mpr hg)
  have hno : ∀ b ∈ sbBlock fs :: (List.range fs.bgdtBlockSz).map (fs.bgdtOff + ·),
      b ≠ fs.bitmapNo K g := by
    intro b hb
    cases K with
    | block => exact hblock b hb _ hmem
    | inode => exact hinode b (List.mem_append_left _ hb) _ hmem
  rintro (h | ⟨h1, h2⟩)
  · exact hno _ List.mem_cons_self h.symm
  · refine hno (fs.bitmapNo K g) (List.mem_cons_of_mem _ (List.mem_map.mpr
      ⟨fs.bitmapNo K g - fs.bgdtOff, List.mem_range.mpr (by omega), by omega⟩)) rfl

theorem Layout.bitmap_inj {fs : Fs} (L : Layout fs) {K K' : Kind} {g g' : Nat}
    (hg : g < fs.bgdtSz) (hg' : g' < fs.bgdtSz) (h : fs.bitmapNo K g = fs.bitmapNo K' g') :
    K = K' ∧ g = g' := by
  have hnd := L.distinct
  rw [bookBlocks, List.nodup_append, List.nodup_append] at hnd
  obtain ⟨⟨-, hb, -⟩, hi, hbi⟩ := hnd
  have hmem : ∀ (K : Kind) {g : Nat}, g < fs.bgdtSz →
      fs.bitmapNo K g ∈ (List.range fs.bgdtSz).map (fs.bitmapNo K) :=
    fun K g hg => List.mem_map_of_mem (List.mem_range.mpr hg)
  have hcross : ∀ {a b : Nat}, a < fs.bgdtSz → b < fs.bgdtSz →
      fs.bitmapNo .block a ≠ fs.bitmapNo .inode b := fun ha hb =>
    hbi _ (List.mem_append_right _ (hmem .block ha)) _ (hmem .inode hb)
  cases K <;> cases K'
  · exact ⟨rfl, List.inj_on_of_nodup_map hb (List.mem_range.mpr hg) (List.mem_range.mpr hg') h⟩
  · exact absurd h (hcross hg hg')
  · exact absurd h.symm (hcross hg' hg)
  · exact ⟨rfl, List.inj_on_of_nodup_map hi (List.mem_range.mpr hg) (List.mem_range.mpr hg') h⟩

/-! ## What the bookkeeping does -/

/-- The device holds what the driver has in memory. -/
structure Synced (fs : Fs) : Prop where
  bgdt : Agree (fun x => fs.dev (fs.bgdtOff * fs.blockSz + x)) fs.bgdt 0
    (fs.bgdtBlockSz * fs.blockSz)
  sb : Agree (fun x => fs.dev (1024 + x)) fs.sb 0 superblockSz

/-- The format fields of superblock and group table are untouched. -/
structure SameFormat (fs fs' : Fs) : Prop extends SameMount fs fs' where
  bitmapNo : fs'.bitmapNo = fs.bitmapNo
  inodeTable : fs'.inodeTable = fs.inodeTable
  perGroup : fs'.perGroup = fs.perGroup

theorem SameFormat.refl (fs : Fs) : SameFormat fs fs := ⟨SameMount.refl fs, rfl, rfl, rfl⟩

theorem SameFormat.trans {fs₁ fs₂ fs₃ : Fs} (h : SameFormat fs₁ fs₂) (h' : SameFormat fs₂ fs₃) :
    SameFormat fs₁ fs₃ :=
  ⟨h.toSameMount.trans h'.toSameMount, h'.bitmapNo.trans h.bitmapNo,
    h'.inodeTable.trans h.inodeTable, h'.perGroup.trans h.perGroup⟩

theorem SameFormat.inVol {fs fs' : Fs} (h : SameFormat fs fs') (b : Nat) :
    InVol fs' b ↔ InVol fs b := by
  rw [InVol, InVol, h.blockSz, h.devSz]

theorem SameFormat.bookBlocks {fs fs' : Fs} (h : SameFormat fs fs') :
    bookBlocks fs' = bookBlocks fs := by
  unfold Ext2.bookBlocks sbBlock
  rw [h.blockSz, h.bgdtBlockSz, h.bgdtOff, h.bgdtSz, h.bitmapNo]

theorem Layout.of_sameFormat {fs fs' : Fs} (L : Layout fs) (h : SameFormat fs fs') :
    Layout fs' where
  dev := by rw [h.devSz]; exact L.dev
  blockSz := by rw [h.blockSz]; exact L.blockSz
  sbIn := by rw [h.devSz]; exact L.sbIn
  bgdtOff := by rw [h.bgdtOff, h.blockSz]; exact L.bgdtOff
  bgdtFits := by rw [h.bgdtSz, h.bgdtBlockSz, h.blockSz]; exact L.bgdtFits
  words := by rw [h.perGroup]; exact L.words
  fits := by rw [h.perGroup, h.blockSz]; exact L.fits
  numbers := by rw [h.perGroup, h.bgdtSz]; exact L.numbers
  distinct := by rw [h.bookBlocks]; exact L.distinct
  bgdtIn := fun i hi => by
    rw [h.bgdtOff, h.inVol]; exact L.bgdtIn i (by rwa [← h.bgdtBlockSz])
  bitmapIn := fun K g hg => by
    rw [h.bitmapNo, h.inVol]; exact L.bitmapIn K g (by rwa [← h.bgdtSz])

/-- The outcome of `commit K fs bg buf count total`. -/
structure Committed (K : Kind) (fs : Fs) (bg : Nat) (buf : Mem) (count total : Nat)
    (fs' : Fs) : Prop where
  format : SameFormat fs fs'
  critical : fs'.critical = fs.critical
  count_eq : ∀ K' g, fs'.count K' g = if K' = K ∧ g = bg then count else fs.count K' g
  total_eq : ∀ K', fs'.total K' = if K' = K then total else fs.total K'
  synced : Synced fs'
  frame : Frame (insert (fs.bitmapNo K bg) (tableBlocks fs)) fs fs'
  bitmap : Agree (blk fs' (fs.bitmapNo K bg)) buf 0 fs.blockSz

theorem commit_spec {K : Kind} {fs : Fs} (L : Layout fs) {bg : Nat} (hbg : bg < fs.bgdtSz)
    (buf : Mem) {count total : Nat} (hcount : count < 2 ^ 16) (htotal : total < 2 ^ 32) :
    Committed K fs bg buf count total (commit K fs bg buf count total) := by
  have hbs := L.blockSz_ge
  have hno := L.bitmap_not_table K hbg
  have hin := L.bitmapIn K bg hbg
  -- the five statements, one state each
  obtain ⟨fs₁, h₁⟩ : ∃ x, x = (writeBlock fs (fs.bitmapNo K bg) buf).2 := ⟨_, rfl⟩
  obtain ⟨fs₂, h₂⟩ : ∃ x : Fs,
      x = { fs₁ with bgdt := wr16 fs₁.bgdt (32 * bg + K.countOff) count } := ⟨_, rfl⟩
  obtain ⟨fs₃, h₃⟩ : ∃ x, x = writeBgdt fs₂ := ⟨_, rfl⟩
  obtain ⟨fs₄, h₄⟩ : ∃ x : Fs, x = { fs₃ with sb := wr32 fs₃.sb K.totalOff total } := ⟨_, rfl⟩
  have hdef : commit K fs bg buf count total = (writeSuperblock fs₄).2 := by
    rw [h₄, h₃, h₂, h₁]; rfl
  have hm₁ : SameMount fs fs₁ := by rw [h₁]; exact writeBlock_sameMount ..
  have hm₂ : SameMount fs fs₂ :=
    hm₁.trans (by rw [h₂]; exact ⟨rfl, rfl, rfl, rfl, rfl, rfl, rfl, rfl, rfl⟩)
  have hm₃ : SameMount fs fs₃ := hm₂.trans (by rw [h₃]; exact writeBgdt_sameMount _)
  have hm₄ : SameMount fs fs₄ :=
    hm₃.trans (by rw [h₄]; exact ⟨rfl, rfl, rfl, rfl, rfl, rfl, rfl, rfl, rfl⟩)
  have hm : SameMount fs (commit K fs bg buf count total) := by
    rw [hdef]; exact hm₄.trans (writeSuperblock_sameMount _)
  have hbgdt : (commit K fs bg buf count total).bgdt
      = wr16 fs.bgdt (32 * bg + K.countOff) count := by
    rw [hdef]; show fs₄.bgdt = _
    rw [h₄]; show fs₃.bgdt = _
    rw [h₃, writeBgdt_bgdt, h₂, h₁, writeBlock_bgdt]
  have hsb : (commit K fs bg buf count total).sb = wr32 fs.sb K.totalOff total := by
    rw [hdef]; show fs₄.sb = _
    rw [h₄]; show wr32 fs₃.sb _ _ = _
    rw [h₃, writeBgdt_sb, h₂]; show wr32 fs₁.sb _ _ = _
    rw [h₁, writeBlock_sb]
  have hdev₂ : fs₂.dev = fs₁.dev := by rw [h₂]
  have hdev₃ : ∀ x, fs₃.dev x
      = if fs.bgdtOff ≤ x / fs.blockSz ∧ x / fs.blockSz < fs.bgdtOff + fs.bgdtBlockSz
        then fs₂.bgdt (x - fs.bgdtOff * fs.blockSz) else fs₁.dev x := by
    intro x
    rw [h₃, writeBgdt, writeBgdtFrom_dev _ _ _ (by rw [hm₂.devSz]; exact L.dev)
      (by rw [hm₂.blockSz]; omega), hm₂.blockSz, hm₂.bgdtOff, hm₂.bgdtBlockSz, hdev₂, Nat.add_zero]
    intro j _ hj
    rw [hm₂.bgdtOff, InVol, hm₂.blockSz, hm₂.devSz]
    exact L.bgdtIn j (by rw [hm₂.bgdtBlockSz] at hj; omega)
  have hdev₄ : fs₄.dev = fs₃.dev := by rw [h₄]
  have hfr₄ : Frame {sbBlock fs} fs₄ (commit K fs bg buf count total) := by
    rw [hdef]
    have := @writeSuperblock_frame fs₄ (by rw [hm₄.blockSz]; exact L.blockSz_dvd)
      (by rw [hm₄.blockSz]; omega)
    rwa [sbBlock, hm₄.blockSz] at this
  have hbitmapNo : ∀ K' g, (commit K fs bg buf count total).bitmapNo K' g = fs.bitmapNo K' g := by
    intro K' g
    rw [Fs.bitmapNo, Fs.bitmapNo, hbgdt]
    refine rd32_wr16_of_disjoint ?_
    cases K <;> cases K' <;> simp only [Kind.bitmapOff, Kind.countOff] <;> omega
  refine ⟨⟨hm, ?_, ?_, ?_⟩, ?_, ?_, ?_, ?_, ?_, ?_⟩
  · funext K' g; exact hbitmapNo K' g
  · funext g
    rw [Fs.inodeTable, Fs.inodeTable, hbgdt]
    exact rd32_wr16_of_disjoint (by cases K <;> simp only [Kind.countOff] <;> omega)
  · funext K'
    rw [Fs.perGroup, Fs.perGroup, hsb]
    exact rd32_wr32_of_disjoint (by cases K <;> cases K' <;> decide)
  · rw [hdef]
    show fs₄.critical = _
    rw [h₄]
    show fs₃.critical = _
    rw [h₃, writeBgdt_critical, h₂]
    show fs₁.critical = _
    rw [h₁, writeBlock_critical]
  · intro K' g
    rw [Fs.count, Fs.count, hbgdt]
    by_cases h : K' = K ∧ g = bg
    · rw [if_pos h, h.1, h.2, rd16_wr16_same _ hcount]
    · rw [if_neg h]
      refine rd16_wr16_of_disjoint ?_
      cases K <;> cases K' <;>
        simp only [Kind.countOff, true_and, reduceCtorEq, false_and] at h ⊢ <;> omega
  · intro K'
    rw [Fs.total, Fs.total, hsb]
    by_cases h : K' = K
    · rw [if_pos h, h, rd32_wr32_same _ htotal]
    · rw [if_neg h]
      refine rd32_wr32_of_disjoint ?_
      cases K <;> cases K' <;> first | exact absurd rfl h | decide
  · refine ⟨?_, ?_⟩
    · intro x _ hx
      rw [Nat.zero_add, hm.bgdtBlockSz, hm.blockSz] at hx
      have hq : x / fs.blockSz < fs.bgdtBlockSz := Nat.div_lt_of_lt_mul (by rwa [Nat.mul_comm])
      have hdiv : (fs.bgdtOff * fs.blockSz + x) / fs.blockSz = fs.bgdtOff + x / fs.blockSz := by
        rw [Nat.mul_comm, Nat.mul_add_div (by omega)]
      have hne : (fs.bgdtOff * fs.blockSz + x) / fs.blockSz ∉ ({sbBlock fs} : Set Nat) := by
        rw [hdiv]
        intro hmem
        have hd := L.distinct
        rw [bookBlocks, List.cons_append, List.cons_append, List.nodup_cons] at hd
        refine hd.1 (List.mem_append_left _ (List.mem_append_left _ (List.mem_map.mpr
          ⟨x / fs.blockSz, List.mem_range.mpr hq, hmem⟩)))
      show (commit K fs bg buf count total).dev _ = _
      rw [hm.bgdtOff, hm.blockSz, hfr₄ _ (by rwa [hm₄.blockSz]), hdev₄, hdev₃, hdiv,
        if_pos ⟨Nat.le_add_right .., Nat.add_lt_add_left hq _⟩, Nat.add_sub_cancel_left, hbgdt, h₂,
        h₁, writeBlock_bgdt]
    · intro x _ hx
      show (commit K fs bg buf count total).dev _ = _
      have hw := @writeSuperblock_dev fs₄ (by rw [hm₄.devSz]; exact L.sbIn)
        x (show x < superblockSz by omega)
      rw [hdef]
      exact hw
  · intro x hx
    simp only [Set.mem_insert_iff, mem_tableBlocks, not_or] at hx
    rw [hfr₄ x (by rw [hm₄.blockSz]; exact hx.2.1), hdev₄, hdev₃, if_neg hx.2.2, h₁,
      writeBlock_dev L.dev (by omega) hin, if_neg hx.1]
  · intro i _ hi
    rw [Nat.zero_add] at hi
    have hdiv : (fs.bitmapNo K bg * fs.blockSz + i) / fs.blockSz = fs.bitmapNo K bg :=
      div_block hi
    simp only [mem_tableBlocks, not_or] at hno
    rw [blk, hm.blockSz, hfr₄ _ (by rw [hm₄.blockSz, hdiv]; exact hno.1), hdev₄, hdev₃, hdiv,
      if_neg hno.2, h₁, writeBlock_dev L.dev (by omega) hin, hdiv, if_pos rfl, mod_block hi]

end Ext2

end Shitos
