import Shitos.Ext2Count

/-!
# A mounted volume

`Volume` is what every file operation starts from: the format, the marking
of the metadata, and block 0 taken. `BitRun bs v S fs fs'` says what a whole
sequence of allocations (`v = true`) or deallocations (`v = false`) has done:
the bits of `bs` were flipped, each once, and besides the bookkeeping only
the blocks of `S` were written. A plain block write is a run of no bits.

An inode lives in its home block, at the place where the driver looks for it.
-/

namespace Shitos

namespace Ext2

/-- A volume in the format the driver expects, with its metadata marked. -/
structure Volume (fs : Fs) : Prop extends Layout fs, Marked fs where
  zeroUsed : 0 < capacity .block fs → usedBit .block fs 0 = true

/-- What group `g` can hand out: `alloc_block` needs a clear bit in its bitmap
and a counter that is not zero. -/
def groupSupply (fs : Fs) (g : Nat) : Nat := min (fs.count .block g) (freeCount .block fs g)

/-- The number of blocks that `alloc_block` can hand out. -/
def supply (fs : Fs) : Nat := ∑ g ∈ Finset.range fs.bgdtSz, groupSupply fs g

/-- The groups are small enough for 16-bit counters, which count the clear bits
of the bitmaps. -/
def Exact (fs : Fs) : Prop :=
  fs.perGroup .block < 2 ^ 16 ∧ ∀ g < fs.bgdtSz, fs.count .block g = freeCount .block fs g

/-! ## Runs of allocations and deallocations -/

/-- The bits of `bs` have become `v`, each once; besides the bookkeeping only
blocks of `S` have changed. -/
structure BitRun (bs : List Nat) (v : Bool) (S : Set Nat) (fs fs' : Fs) : Prop where
  format : SameFormat fs fs'
  nodup : bs.Nodup
  flipped : ∀ b ∈ bs, b < capacity .block fs ∧ usedBit .block fs b = !v
  bits : ∀ n < capacity .block fs,
    usedBit .block fs' n = if n ∈ bs then v else usedBit .block fs n
  inodeBits : ∀ n < capacity .inode fs, usedBit .inode fs' n = usedBit .inode fs n
  counts : bs = [] → ∀ g, fs'.count .block g = fs.count .block g
  total : if v then (fs'.total .block + bs.length) % 2 ^ 32 = fs.total .block
    else fs'.total .block = (fs.total .block + bs.length) % 2 ^ 32
  left : v = true → supply fs' + bs.length = supply fs
  exact : Exact fs → Exact fs'
  critical : fs.critical ≤ fs'.critical
  frame : Frame ({b | b ∈ bookBlocks fs} ∪ S) fs fs'

namespace BitRun

variable {bs bs' : List Nat} {v : Bool} {S T : Set Nat} {fs fs' fs'' : Fs}

theorem mono (h : BitRun bs v S fs fs') (hST : S ⊆ T) : BitRun bs v T fs fs' :=
  ⟨h.format, h.nodup, h.flipped, h.bits, h.inodeBits, h.counts, h.total, h.left, h.exact,
    h.critical, h.frame.mono (Set.union_subset_union_right _ hST)⟩

theorem refl (fs : Fs) : BitRun [] v ∅ fs fs := by
  have htotal := rd32_lt fs.sb (Kind.totalOff .block)
  refine ⟨SameFormat.refl fs, List.nodup_nil, (fun _ h => nomatch h), fun _ _ => rfl,
    fun _ _ => rfl, fun _ _ => rfl, ?_, fun _ => rfl, id, Nat.le_refl _, Frame.refl _ fs⟩
  rw [List.length_nil, Nat.add_zero, Fs.total, Nat.mod_eq_of_lt htotal]
  split <;> rfl

theorem trans (h : BitRun bs v S fs fs') (h' : BitRun bs' v T fs' fs'') :
    BitRun (bs ++ bs') v (S ∪ T) fs fs'' := by
  have hcap := h.format.capacity .block
  refine ⟨h.format.trans h'.format, ?_, ?_, ?_, ?_, ?_, ?_, fun hv => ?_,
    fun he => h'.exact (h.exact he), h.critical.trans h'.critical, ?_⟩
  · refine List.nodup_append.mpr ⟨h.nodup, h'.nodup, fun a ha b hb heq => ?_⟩
    -- a bit flipped by the first run is not one for the second to flip
    subst heq
    obtain ⟨hlt, hflip⟩ := h'.flipped a hb
    rw [h.bits a (hcap ▸ hlt), if_pos ha] at hflip
    cases v <;> cases hflip
  · intro b hb
    rcases List.mem_append.mp hb with hb | hb
    · exact h.flipped b hb
    · obtain ⟨hlt, hflip⟩ := h'.flipped b hb
      rw [hcap] at hlt
      rw [h.bits b hlt] at hflip
      refine ⟨hlt, ?_⟩
      split at hflip
      · cases v <;> cases hflip
      · exact hflip
  · intro n hn
    rw [h'.bits n (hcap ▸ hn), h.bits n hn]
    by_cases h1 : n ∈ bs
    · rw [if_pos h1, if_pos (List.mem_append_left _ h1), ite_self]
    · rw [if_neg h1]
      exact if_congr (by simp [h1]) rfl rfl
  · intro n hn
    rw [h'.inodeBits n (by rwa [h.format.capacity]), h.inodeBits n hn]
  · intro hnil g
    obtain ⟨h1, h2⟩ := List.append_eq_nil_iff.mp hnil
    rw [h'.counts h2 g, h.counts h1 g]
  · have h1 := h.total
    have h2 := h'.total
    rw [List.length_append]
    cases v with
    | true =>
        simp only [if_true] at h1 h2 ⊢
        omega
    | false =>
        simp only [Bool.false_eq_true, if_false] at h1 h2 ⊢
        omega
  · have h1 := h.left hv
    have h2 := h'.left hv
    rw [List.length_append]
    omega
  · have hbook := h.format.bookBlocks
    refine (h.frame.mono ?_).trans h.format.blockSz (h'.frame.mono ?_)
    · exact Set.union_subset_union_right _ Set.subset_union_left
    · rw [hbook]
      exact Set.union_subset_union_right _ Set.subset_union_right

/-- A block that is neither bookkeeping nor in `S` keeps its bytes. -/
theorem blk_eq (h : BitRun bs v S fs fs') {b : Nat} (hbook : b ∉ bookBlocks fs) (hS : b ∉ S)
    {i : Nat} (hi : i < fs.blockSz) : blk fs' b i = blk fs b i :=
  h.frame.blk_eq h.format.blockSz (fun hm => hm.elim hbook hS) hi

/-- What is used stays used while blocks are only taken. -/
theorem used (h : BitRun bs true S fs fs') {n : Nat} (hn : n < capacity .block fs)
    (hu : usedBit .block fs n = true) : usedBit .block fs' n = true := by
  rw [h.bits n hn, hu, ite_self]

/-- Taking one block takes one from the supply. -/
theorem supply_bitStep {n : Nat} (h : BitStep .block fs n true S fs') (hn : n < capacity .block fs)
    (hflip : usedBit .block fs n = false) (hcount : fs.count .block (n / fs.perGroup .block) ≠ 0) :
    Ext2.supply fs' + 1 = Ext2.supply fs := by
  have hbg := group_lt_of_lt_capacity hn
  have hgroup : ∀ g < fs.bgdtSz, g ≠ n / fs.perGroup .block →
      groupSupply fs' g = groupSupply fs g := by
    intro g hg hne
    rw [groupSupply, groupSupply, h.count, if_neg fun hh => hne hh.2,
      (h.freeCount_eq hn hflip .block hg).2 fun hh => hne hh.2]
  have hone : groupSupply fs' (n / fs.perGroup .block) + 1
      = groupSupply fs (n / fs.perGroup .block) := by
    have hfc := (h.freeCount_eq hn hflip .block hbg).1 ⟨rfl, rfl⟩
    have hlt := rd16_lt fs.bgdt (32 * (n / fs.perGroup .block) + Kind.countOff .block)
    change fs.count .block _ < _ at hlt
    rw [groupSupply, groupSupply, h.count, if_pos ⟨rfl, rfl⟩]
    simp only [if_true] at hfc ⊢
    omega
  have hrest : ∑ g ∈ (Finset.range fs.bgdtSz).erase (n / fs.perGroup .block), groupSupply fs' g
      = ∑ g ∈ (Finset.range fs.bgdtSz).erase (n / fs.perGroup .block), groupSupply fs g :=
    Finset.sum_congr rfl fun g hg => hgroup g (Finset.mem_range.mp (Finset.mem_of_mem_erase hg))
      (Finset.ne_of_mem_erase hg)
  have hsum := Finset.add_sum_erase _ (groupSupply fs) (Finset.mem_range.mpr hbg)
  have hsum' := Finset.add_sum_erase _ (groupSupply fs') (Finset.mem_range.mpr hbg)
  rw [hrest] at hsum'
  rw [Ext2.supply, Ext2.supply, h.format.bgdtSz]
  omega

/-- A step that flips its bit keeps exact counters exact. -/
theorem exact_bitStep {n : Nat} (h : BitStep .block fs n v S fs') (hn : n < capacity .block fs)
    (hflip : usedBit .block fs n = !v) (he : Exact fs) : Exact fs' := by
  obtain ⟨hsmall, hcounts⟩ := he
  refine ⟨by rw [h.format.perGroup]; exact hsmall, fun g hg => ?_⟩
  rw [h.format.bgdtSz] at hg
  obtain ⟨hin, hout⟩ := h.freeCount_eq hn hflip .block hg
  have hcount := h.count .block g
  have hle : freeCount .block fs' g ≤ fs'.perGroup .block := clearBits_card_le _ _
  rw [h.format.perGroup] at hle
  by_cases hgroup : g = n / fs.perGroup .block
  · have hstep := hin ⟨rfl, hgroup⟩
    have hold := hcounts g hg
    rw [if_pos ⟨rfl, hgroup⟩] at hcount
    rw [hcount, hold]
    cases v with
    | true =>
        simp only [if_true] at hstep ⊢
        omega
    | false =>
        simp only [Bool.false_eq_true, if_false] at hstep ⊢
        omega
  · rw [hcount, if_neg fun hh => hgroup hh.2, hout fun hh => hgroup hh.2]
    exact hcounts g hg

theorem of_bitStep {n : Nat} (h : BitStep .block fs n v S fs') (hn : n < capacity .block fs)
    (hflip : usedBit .block fs n = !v)
    (hcount : v = true → fs.count .block (n / fs.perGroup .block) ≠ 0) :
    BitRun [n] v S fs fs' := by
  have htotal := rd32_lt fs.sb (Kind.totalOff .block)
  refine ⟨h.format, List.nodup_singleton n, ?_, ?_, ?_, (fun hnil => nomatch hnil), ?_, ?_,
    exact_bitStep h hn hflip, Nat.le_of_eq h.critical.symm, h.frame⟩
  · intro b hb
    rw [List.mem_singleton.mp hb]
    exact ⟨hn, hflip⟩
  · intro m hm
    rw [h.bits .block m hm]
    exact if_congr (by simp) rfl rfl
  · intro m hm
    rw [h.bits .inode m hm, if_neg fun hh => nomatch hh.1]
  · have ht := h.total .block
    rw [if_pos rfl] at ht
    rw [ht, List.length_singleton]
    change fs.total .block < _ at htotal
    cases v with
    | true =>
        simp only [if_true]
        omega
    | false => simp only [Bool.false_eq_true, if_false]
  · rintro rfl
    exact supply_bitStep h hn hflip (hcount rfl)

theorem reportFull (fs : Fs) : BitRun [] v ∅ fs (reportFull fs) := by
  have h := BitRun.refl (v := v) fs
  exact ⟨⟨⟨rfl, rfl, rfl, rfl, rfl, rfl, rfl, rfl, rfl⟩, rfl, rfl, rfl⟩, h.nodup, h.flipped,
    h.bits, h.inodeBits, h.counts, h.total, h.left, h.exact, Nat.le_succ _, h.frame⟩

end BitRun

/-! ## Keeping the volume -/

namespace Volume

variable {bs : List Nat} {S : Set Nat} {fs fs' : Fs}

theorem blockSz_pos (V : Volume fs) : 0 < fs.blockSz :=
  Nat.lt_of_lt_of_le (by decide) V.toLayout.blockSz_ge

theorem of_taken (V : Volume fs) (h : BitRun bs true S fs fs') : Volume fs' := by
  have hcap := h.format.capacity .block
  refine ⟨V.toLayout.of_sameFormat h.format, ⟨?_, ?_⟩, ?_⟩
  · intro b hb hlt
    rw [h.format.bookBlocks] at hb
    rw [hcap] at hlt
    exact h.used hlt (V.book b hb hlt)
  · intro b hlt hclear
    rw [hcap] at hlt
    rw [h.format.inVol]
    refine V.padded b hlt ?_
    by_contra hu
    rw [h.used hlt (Bool.not_eq_false _ ▸ hu)] at hclear
    cases hclear
  · intro hpos
    rw [hcap] at hpos
    exact h.used hpos (V.zeroUsed hpos)

/-- Giving blocks back keeps the volume when they are blocks that files may
have. -/
theorem of_given (V : Volume fs) (h : BitRun bs false S fs fs')
    (hbs : ∀ b ∈ bs, InVol fs b ∧ b ∉ bookBlocks fs) : Volume fs' := by
  have hcap := h.format.capacity .block
  refine ⟨V.toLayout.of_sameFormat h.format, ⟨?_, ?_⟩, ?_⟩
  · intro b hb hlt
    rw [h.format.bookBlocks] at hb
    rw [hcap] at hlt
    rw [h.bits b hlt, if_neg fun hm => (hbs b hm).2 hb]
    exact V.book b hb hlt
  · intro b hlt hclear
    rw [hcap] at hlt
    rw [h.format.inVol]
    rw [h.bits b hlt] at hclear
    split at hclear
    · rename_i hm
      exact Or.inl (hbs b hm).1
    · exact V.padded b hlt hclear
  · intro hpos
    rw [hcap] at hpos
    rw [h.bits 0 hpos, if_neg fun hm => absurd (hbs 0 hm).1.1 (Nat.lt_irrefl 0)]
    exact V.zeroUsed hpos

end Volume

/-! ## Block writes -/

/-- The clear bits of a group, from the bits that are the same. -/
theorem groupClear_congr {K : Kind} {fs fs' : Fs} (hf : SameFormat fs fs')
    (h : ∀ n < capacity K fs, usedBit K fs' n = usedBit K fs n) {g : Nat} (hg : g < fs.bgdtSz) :
    groupClear K fs' g = groupClear K fs g := by
  rw [groupClear, groupClear, hf.perGroup]
  refine clearBits_congr fun k hk => ?_
  have hbit := h _ (group_lt_capacity hg hk)
  rwa [usedBit_group hk, ← hf.perGroup, usedBit_group (by rwa [hf.perGroup])] at hbit

/-- Writing one block that is not a bookkeeping block. -/
theorem writeBlock_run {v : Bool} {fs : Fs} (V : Volume fs) {b : Nat} (hin : InVol fs b)
    (hb : b ∉ bookBlocks fs) (buf : Mem) : BitRun [] v {b} fs (writeBlock fs b buf).2 := by
  have hfr := writeBlock_frame V.dev V.blockSz_pos hin buf
  have hm := writeBlock_sameMount fs b buf
  have hf : SameFormat fs (writeBlock fs b buf).2 :=
    ⟨hm, by funext K g; rw [Fs.bitmapNo, writeBlock_bgdt, Fs.bitmapNo],
      by funext g; rw [Fs.inodeTable, writeBlock_bgdt, Fs.inodeTable],
      by funext K; rw [Fs.perGroup, writeBlock_sb, Fs.perGroup]⟩
  have hbit : ∀ K, ∀ n < capacity K fs,
      usedBit K (writeBlock fs b buf).2 n = usedBit K fs n := by
    intro K n hn
    have hg := group_lt_of_lt_capacity hn
    rw [usedBit, usedBit, hf.bitmapNo, hf.perGroup]
    refine V.toLayout.bitAt_congr (hfr.blk_agree hm.blockSz ?_)
      (Nat.mod_lt _ (perGroup_pos_of_lt_capacity hn))
    rw [Set.mem_singleton_iff]
    exact fun h => hb (h ▸ bitmap_mem_bookBlocks hg)
  have htotal := (BitRun.refl (v := v) fs).total
  have hcount : ∀ g, (writeBlock fs b buf).2.count .block g = fs.count .block g := fun g => by
    rw [Fs.count, writeBlock_bgdt, Fs.count]
  have hfree : ∀ g < fs.bgdtSz,
      freeCount .block (writeBlock fs b buf).2 g = freeCount .block fs g := fun g hg => by
    rw [freeCount, freeCount, groupClear_congr hf (hbit .block) hg]
  have hsupply : supply (writeBlock fs b buf).2 = supply fs := by
    rw [supply, supply, hf.bgdtSz]
    refine Finset.sum_congr rfl fun g hg => ?_
    rw [groupSupply, groupSupply, hcount, hfree g (Finset.mem_range.mp hg)]
  have hexact : Exact fs → Exact (writeBlock fs b buf).2 := by
    rintro ⟨hsmall, hcounts⟩
    refine ⟨by rw [hf.perGroup]; exact hsmall, fun g hg => ?_⟩
    rw [hf.bgdtSz] at hg
    rw [hcount, hfree g hg]
    exact hcounts g hg
  refine ⟨hf, List.nodup_nil, (fun _ h => absurd h List.not_mem_nil), ?_, hbit .inode,
    fun _ => hcount, ?_,
    fun _ => hsupply, hexact, Nat.le_of_eq (writeBlock_critical fs b buf).symm, ?_⟩
  · intro n hn
    rw [hbit .block n hn]
    rfl
  · rw [Fs.total, writeBlock_sb]
    exact htotal
  · exact hfr.mono Set.subset_union_right

/-- No group has a block to give: its counter is zero or its bitmap is full. -/
def Full (fs : Fs) : Prop :=
  ∀ g < fs.bgdtSz, fs.count .block g = 0 ∨ groupClear .block fs g = ∅

/-- A full volume stays full while no bits change. -/
theorem Full.run {v : Bool} {S : Set Nat} {fs fs' : Fs} (h : Full fs)
    (hr : BitRun [] v S fs fs') : Full fs' := by
  intro g hg
  rw [hr.format.bgdtSz] at hg
  refine (h g hg).imp (fun hz => (hr.counts rfl g).trans hz) fun he => ?_
  rw [groupClear_congr hr.format (fun n hn => ?_) hg, he]
  rw [hr.bits n hn, if_neg fun hm => nomatch hm]

/-- A volume is full when there is nothing to hand out. -/
theorem full_iff {fs : Fs} : Full fs ↔ supply fs = 0 := by
  rw [supply, Finset.sum_eq_zero_iff]
  refine forall_congr' fun g => ?_
  rw [Finset.mem_range]
  refine imp_congr_right fun _ => ?_
  rw [groupSupply, Nat.min_eq_zero_iff, freeCount, Finset.card_eq_zero]

/-- What `alloc_block` does: it reports that the volume is full, or takes a
block that was free and fills it with zeros. -/
theorem allocBlock_cases {fs : Fs} (V : Volume fs) :
    ((allocBlock fs).1 = 0 ∧ Full fs ∧ (allocBlock fs).2 = reportFull fs)
      ∨ ((allocBlock fs).1 ≠ 0 ∧ InVol fs (allocBlock fs).1
        ∧ (allocBlock fs).1 ∉ bookBlocks fs
        ∧ BitRun [(allocBlock fs).1] true {(allocBlock fs).1} fs (allocBlock fs).2
        ∧ ∀ i < fs.blockSz, blk (allocBlock fs).2 (allocBlock fs).1 i = 0) := by
  rcases alloc_cases V.toLayout V.toMarked V.zeroUsed .block with ⟨h1, h2, h3⟩ | h
  · exact Or.inl ⟨h1, h3, h2⟩
  · refine Or.inr ⟨h.pos, (V.padded _ h.lt h.clear).resolve_right h.pos,
      V.not_book h.lt h.clear, ?_, h.zeroed rfl⟩
    refine (BitRun.of_bitStep h.step h.lt h.clear fun _ => h.count).mono fun b hb => ?_
    exact hb.2

/-- On a full volume `alloc_block` fails. -/
theorem allocBlock_full {fs : Fs} (V : Volume fs) (h : Full fs) : (allocBlock fs).1 = 0 := by
  rcases alloc_cases V.toLayout V.toMarked V.zeroUsed .block with ⟨h1, -, -⟩ | hA
  · exact h1
  · have hlt := hA.lt
    rcases h _ (group_lt_of_lt_capacity hlt) with hz | he
    · exact absurd hz hA.count
    · have hmem := (mem_groupClear hlt).mpr hA.clear
      rw [he] at hmem
      exact absurd hmem (Finset.notMem_empty _)

/-- What `free_block` does to a block in use. -/
theorem freeBlock_run {fs : Fs} (V : Volume fs) {b : Nat} (hpos : b ≠ 0)
    (hlt : b < capacity .block fs) (hused : usedBit .block fs b = true) :
    BitRun [b] false ∅ fs (freeBlock fs b).2 :=
  BitRun.of_bitStep (@free_spec fs V.toLayout .block b hpos hlt) hlt hused fun h => nomatch h

/-! ## The home of an inode -/

/-- The block that holds inode `no`. -/
def home (fs : Fs) (no : Nat) : Nat := (inodeSlot fs (no - 1)).1

/-- Where inode `no` starts in its block. -/
def homeOff (fs : Fs) (no : Nat) : Nat := (inodeSlot fs (no - 1)).2

/-- Inode `no` as it is on the device. -/
def diskInode (fs : Fs) (no : Nat) : Mem := fun i => blk fs (home fs no) (homeOff fs no + i)

/-- The driver accepts the number of the inode. -/
def Numbered (fs : Fs) (no : Nat) : Prop := no ≠ 0 ∧ (no - 1) / fs.inodesPerGroup ≤ fs.bgdtSz

/-- Inode `no` has its place in a block of the volume that is not one of the
bookkeeping blocks. -/
structure Homed (fs : Fs) (no : Nat) : Prop where
  numbered : Numbered fs no
  inVol : InVol fs (home fs no)
  notBook : home fs no ∉ bookBlocks fs
  fits : homeOff fs no + fs.inodeSz ≤ fs.blockSz
  size : 128 ≤ fs.inodeSz

section Home

variable {fs fs' : Fs} {no : Nat}

theorem SameFormat.inodeSlot (h : SameFormat fs fs') (n : Nat) :
    inodeSlot fs' n = inodeSlot fs n := by
  simp only [Ext2.inodeSlot, h.inodesPerGroup, h.inodeSz, h.blockSz, h.inodeTable]

theorem SameFormat.home (h : SameFormat fs fs') : home fs' no = home fs no := by
  rw [Ext2.home, Ext2.home, h.inodeSlot]

theorem SameFormat.homeOff (h : SameFormat fs fs') : homeOff fs' no = homeOff fs no := by
  rw [Ext2.homeOff, Ext2.homeOff, h.inodeSlot]

theorem Homed.of_sameFormat (H : Homed fs no) (h : SameFormat fs fs') : Homed fs' no where
  numbered := by rw [Numbered, h.inodesPerGroup, h.bgdtSz]; exact H.numbered
  inVol := by rw [h.home, h.inVol]; exact H.inVol
  notBook := by rw [h.home, h.bookBlocks]; exact H.notBook
  fits := by rw [h.homeOff, h.inodeSz, h.blockSz]; exact H.fits
  size := by rw [h.inodeSz]; exact H.size

theorem writeInode_fst {ino : Mem} (h : Numbered fs no) : (writeInode fs ino no).1 = .success := by
  rw [writeInode, if_neg h.1, if_neg (Nat.not_lt.mpr h.2)]

theorem writeInode_snd {ino : Mem} (h : Numbered fs no) : (writeInode fs ino no).2
    = (writeBlock fs (home fs no)
        (copy (readBlock fs (home fs no) fs.fresh).2 (homeOff fs no) ino 0 fs.inodeSz)).2 := by
  rw [writeInode, if_neg h.1, if_neg (Nat.not_lt.mpr h.2)]
  rfl

theorem writeInode_run {v : Bool} (V : Volume fs) (H : Homed fs no) (ino : Mem) :
    BitRun [] v {home fs no} fs (writeInode fs ino no).2 := by
  rw [writeInode_snd H.numbered]
  exact writeBlock_run V H.inVol H.notBook _

/-- The home block after `write_inode`. -/
theorem writeInode_blk (V : Volume fs) (H : Homed fs no) (ino : Mem) {i : Nat}
    (hi : i < fs.blockSz) : blk (writeInode fs ino no).2 (home fs no) i
      = if homeOff fs no ≤ i ∧ i < homeOff fs no + fs.inodeSz then ino (i - homeOff fs no)
        else blk fs (home fs no) i := by
  rw [writeInode_snd H.numbered, writeBlock_blk_same V.dev H.inVol _ hi]
  by_cases h : homeOff fs no ≤ i ∧ i < homeOff fs no + fs.inodeSz
  · rw [if_pos h, copy_apply h.1 h.2, Nat.zero_add]
  · rw [if_neg h, copy_apply_of_not (by omega), readBlock_snd V.dev H.inVol _ hi]

/-- The inode on the device after `write_inode`. -/
theorem diskInode_writeInode (V : Volume fs) (H : Homed fs no) (ino : Mem) :
    Agree (diskInode (writeInode fs ino no).2 no) ino 0 fs.inodeSz := by
  have hf := (@writeInode_run _ _ true V H ino).format
  have hfits := H.fits
  intro i _ hi
  rw [Nat.zero_add] at hi
  rw [diskInode, hf.home, hf.homeOff, writeInode_blk V H ino (by omega),
    if_pos ⟨Nat.le_add_right .., by omega⟩, Nat.add_sub_cancel_left]

/-- What leaves the home block alone leaves the inode alone. -/
theorem BitRun.diskInode {bs : List Nat} {v : Bool} {S : Set Nat} (h : BitRun bs v S fs fs')
    (H : Homed fs no) (hS : home fs no ∉ S) :
    Agree (diskInode fs' no) (diskInode fs no) 0 fs.inodeSz := by
  have hfits := H.fits
  intro i _ hi
  rw [Ext2.diskInode, Ext2.diskInode, h.format.home, h.format.homeOff]
  exact h.blk_eq H.notBook hS (by omega)

end Home

end Ext2

end Shitos
