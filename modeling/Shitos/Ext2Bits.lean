import Mathlib.Algebra.BigOperators.Group.Finset.Basic
import Shitos.Ext2Alloc

/-!
# What an allocation does to the bitmaps

The bit view of the four allocation functions. A step takes or releases one
bit and carries it through the counters of its group and of the superblock,
in memory and on the device: `BitStep`. The search is characterised by
`findFree_some` (the bit found is clear, in a group whose counter is not
zero) and `findFree_none` (there was no such bit).

`Marked` is the second half of the volume format: the bookkeeping blocks are
marked in the block bitmap, and so is every bit that stands for no block of
the device. It is what makes the zeroing of a fresh block harmless.
-/

namespace Shitos

namespace Ext2

/-- Bit `n` (counting over all groups, in the driver's numbering) of the
bitmaps of kind `K`. -/
def usedBit (K : Kind) (fs : Fs) (n : Nat) : Bool :=
  bitAt (blk fs (fs.bitmapNo K (n / fs.perGroup K))) (n % fs.perGroup K)

/-- How many objects of kind `K` the bitmaps describe. -/
def capacity (K : Kind) (fs : Fs) : Nat := fs.bgdtSz * fs.perGroup K

/-- The clear bits of group `g`. -/
def groupClear (K : Kind) (fs : Fs) (g : Nat) : Finset Nat :=
  clearBits (blk fs (fs.bitmapNo K g)) (fs.perGroup K)

theorem group_lt_of_lt_capacity {K : Kind} {fs : Fs} {n : Nat} (h : n < capacity K fs) :
    n / fs.perGroup K < fs.bgdtSz :=
  Nat.div_lt_of_lt_mul (by rwa [Nat.mul_comm])

theorem perGroup_pos_of_lt_capacity {K : Kind} {fs : Fs} {n : Nat} (h : n < capacity K fs) :
    0 < fs.perGroup K := by
  unfold capacity at h
  exact Nat.pos_of_mul_pos_left (Nat.zero_lt_of_lt h)

theorem usedBit_group {K : Kind} {fs : Fs} {g k : Nat} (hk : k < fs.perGroup K) :
    usedBit K fs (g * fs.perGroup K + k) = bitAt (blk fs (fs.bitmapNo K g)) k := by
  rw [usedBit, div_block hk, mod_block hk]

theorem group_lt_capacity {K : Kind} {fs : Fs} {g k : Nat} (hg : g < fs.bgdtSz)
    (hk : k < fs.perGroup K) : g * fs.perGroup K + k < capacity K fs := by
  have : (g + 1) * fs.perGroup K ≤ fs.bgdtSz * fs.perGroup K := Nat.mul_le_mul_right _ hg
  rw [Nat.add_mul] at this
  unfold capacity; omega

/-- Bits of a bitmap block only depend on the block's bytes. -/
theorem Layout.bitAt_congr {fs : Fs} (L : Layout fs) {K : Kind} {m m' : Mem}
    (h : Agree m m' 0 fs.blockSz) {k : Nat} (hk : k < fs.perGroup K) : bitAt m k = bitAt m' k := by
  have hf := L.fits K
  obtain ⟨c, hc⟩ := L.blockSz_dvd
  exact Shitos.bitAt_congr h (by omega)

theorem SameFormat.capacity {fs fs' : Fs} (h : SameFormat fs fs') (K : Kind) :
    capacity K fs' = capacity K fs := by
  unfold Ext2.capacity; rw [h.bgdtSz, h.perGroup]

/-! ## Taking and releasing one bit -/

/-- `v = true`: bit `n` is taken, the counters go down by one.
`v = false`: it is released, and they go up. Besides the bookkeeping blocks
only those of `S` may have changed. -/
structure BitStep (K : Kind) (fs : Fs) (n : Nat) (v : Bool) (S : Set Nat) (fs' : Fs) :
    Prop where
  format : SameFormat fs fs'
  critical : fs'.critical = fs.critical
  bits : ∀ K' m, m < capacity K' fs →
    usedBit K' fs' m = if K' = K ∧ m = n then v else usedBit K' fs m
  count : ∀ K' g, fs'.count K' g = if K' = K ∧ g = n / fs.perGroup K
    then (if v then fs.count K g + (2 ^ 16 - 1) else fs.count K g + 1) % 2 ^ 16
    else fs.count K' g
  total : ∀ K', fs'.total K' = if K' = K
    then (if v then fs.total K + (2 ^ 32 - 1) else fs.total K + 1) % 2 ^ 32
    else fs.total K'
  synced : Synced fs'
  frame : Frame ({b | b ∈ bookBlocks fs} ∪ S) fs fs'

theorem bitmap_mem_bookBlocks {fs : Fs} {K : Kind} {g : Nat} (hg : g < fs.bgdtSz) :
    fs.bitmapNo K g ∈ bookBlocks fs := by
  have : fs.bitmapNo K g ∈ (List.range fs.bgdtSz).map (fs.bitmapNo K) :=
    List.mem_map_of_mem (List.mem_range.mpr hg)
  cases K
  · exact List.mem_append_left _ (List.mem_append_right _ this)
  · exact List.mem_append_right _ this

theorem tableBlocks_subset (fs : Fs) : tableBlocks fs ⊆ {b | b ∈ bookBlocks fs} := by
  rintro b (rfl | ⟨h1, h2⟩)
  · exact List.mem_cons_self
  · refine List.mem_cons_of_mem _ (List.mem_append_left _ (List.mem_append_left _
      (List.mem_map.mpr ⟨b - fs.bgdtOff, List.mem_range.mpr (by omega), ?_⟩)))
    show fs.bgdtOff + (b - fs.bgdtOff) = b
    omega

/-- A `commit` whose buffer differs from the bitmap in one bit is a bit step. -/
theorem bitStep_of_commit {K : Kind} {fs fs' : Fs} (L : Layout fs) {n : Nat} {v : Bool}
    (hn : n < capacity K fs) {buf : Mem}
    (hbuf : ∀ k < fs.perGroup K, bitAt buf k
      = if k = n % fs.perGroup K then v
        else bitAt (blk fs (fs.bitmapNo K (n / fs.perGroup K))) k)
    (h : Committed K fs (n / fs.perGroup K) buf
      ((if v then fs.count K (n / fs.perGroup K) + (2 ^ 16 - 1)
        else fs.count K (n / fs.perGroup K) + 1) % 2 ^ 16)
      ((if v then fs.total K + (2 ^ 32 - 1) else fs.total K + 1) % 2 ^ 32) fs') :
    BitStep K fs n v ∅ fs' := by
  have hbg := group_lt_of_lt_capacity hn
  refine ⟨h.format, h.critical, ?_, ?_, ?_, h.synced, ?_⟩
  · intro K' m hm
    have hg := group_lt_of_lt_capacity hm
    have hk : m % fs.perGroup K' < fs.perGroup K' :=
      Nat.mod_lt _ (perGroup_pos_of_lt_capacity hm)
    rw [usedBit, usedBit, h.format.bitmapNo, h.format.perGroup]
    by_cases hsame : K' = K ∧ m / fs.perGroup K' = n / fs.perGroup K
    · obtain ⟨rfl, hq⟩ := hsame
      rw [hq, L.bitAt_congr h.bitmap hk, hbuf _ hk]
      refine if_congr ⟨fun hr => ⟨rfl, ?_⟩, fun hr => by rw [hr.2]⟩ rfl rfl
      rw [← Nat.div_add_mod m (fs.perGroup K'), ← Nat.div_add_mod n (fs.perGroup K'), hq, hr]
    · rw [if_neg fun hr => hsame ⟨hr.1, by rw [hr.2, hr.1]⟩]
      refine L.bitAt_congr (h.frame.blk_agree h.format.blockSz ?_) hk
      rintro (heq | hmem)
      · obtain ⟨rfl, hgg⟩ := L.bitmap_inj hg hbg heq
        exact hsame ⟨rfl, hgg⟩
      · exact L.bitmap_not_table K' hg hmem
  · intro K' g
    rw [h.count_eq]
    by_cases hg : K' = K ∧ g = n / fs.perGroup K
    · rw [if_pos hg, if_pos hg, hg.2]
    · rw [if_neg hg, if_neg hg]
  · exact h.total_eq
  · refine h.frame.mono (Set.insert_subset ?_ ?_)
    · exact Or.inl (bitmap_mem_bookBlocks hbg)
    · exact fun b hb => Or.inl (tableBlocks_subset fs hb)

/-! ## The search -/

theorem findWord_some {buf : Mem} {words w o : Nat} (h : findWord buf words = some (w, o)) :
    w < words ∧ 1 ≤ o ∧ o ≤ 32 ∧ bitAt buf (32 * w + (o - 1)) = false := by
  obtain ⟨i, hi, hsome⟩ := List.exists_of_findSome?_eq_some h
  rw [List.mem_range] at hi
  simp only at hsome
  split at hsome
  · cases hsome
  · rename_i hne
    obtain ⟨rfl, rfl⟩ := Prod.mk.injEq .. |>.mp (Option.some.inj hsome)
    obtain ⟨j, hj⟩ := Nat.exists_eq_succ_of_ne_zero hne
    obtain ⟨hlt, hbit⟩ := ffsl_not32_eq_succ hj
    refine ⟨hi, by omega, by omega, ?_⟩
    rw [hj, Nat.succ_sub_one, bitAt, show (32 * i + j) / 32 = i by omega,
      show (32 * i + j) % 32 = j by omega, hbit]

theorem findWord_none {buf : Mem} {words : Nat} (h : findWord buf words = none) :
    ∀ k < 32 * words, bitAt buf k = true := by
  intro k hk
  have hw := List.findSome?_eq_none_iff.mp h (k / 32) (List.mem_range.mpr (by omega))
  simp only at hw
  split at hw
  · rename_i hz
    exact ffsl_not32_eq_zero.mp hz _ (by omega)
  · cases hw

/-- What a successful search has found: a clear bit of a group whose counter
is not zero, with that group's bitmap in the buffer. -/
structure FoundAt (K : Kind) (fs : Fs) (f : Found) : Prop where
  bg : f.bg < fs.bgdtSz
  count : fs.count K f.bg ≠ 0
  buf : Agree f.buf (blk fs (fs.bitmapNo K f.bg)) 0 fs.blockSz
  off_pos : 1 ≤ f.blockoff
  off_le : f.blockoff ≤ 32
  lt : 32 * f.blocki + (f.blockoff - 1) < fs.perGroup K
  clear : bitAt f.buf (32 * f.blocki + (f.blockoff - 1)) = false

theorem findFree_some {K : Kind} {fs : Fs} (L : Layout fs) {f : Found} :
    ∀ (todo bg : Nat) (buf : Mem), bg + todo ≤ fs.bgdtSz → findFree K fs todo bg buf = some f →
      FoundAt K fs f := by
  intro todo
  induction todo with
  | zero => intro bg buf _ h; cases h
  | succ todo ih =>
      intro bg buf hle h
      rw [findFree] at h
      split at h
      · exact ih _ _ (by omega) h
      · rename_i hcount
        simp only at h
        split at h
        · rename_i w o hfind
          obtain rfl := Option.some.inj h
          obtain ⟨hw, h1, h32, hbit⟩ := findWord_some hfind
          have hwords := L.words K
          have hbg : bg < fs.bgdtSz := by omega
          exact ⟨hbg, hcount, readBlock_agree L.dev (L.bitmapIn K bg (by omega)) _, h1, h32,
            by simp only; omega, hbit⟩
        · exact ih _ _ (by omega) h

theorem findFree_none {K : Kind} {fs : Fs} (L : Layout fs) :
    ∀ (todo bg : Nat) (buf : Mem), bg + todo ≤ fs.bgdtSz → findFree K fs todo bg buf = none →
      ∀ g, bg ≤ g → g < bg + todo → fs.count K g = 0 ∨ groupClear K fs g = ∅ := by
  intro todo
  induction todo with
  | zero => intro bg buf _ _ g h1 h2; omega
  | succ todo ih =>
      intro bg buf hle h g h1 h2
      rw [findFree] at h
      split at h
      · rename_i hcount
        rcases Nat.eq_or_lt_of_le h1 with rfl | hlt
        · exact Or.inl hcount
        · exact ih _ _ (by omega) h g hlt (by omega)
      · simp only at h
        split at h
        · cases h
        · rename_i hfind
          rcases Nat.eq_or_lt_of_le h1 with rfl | hlt
          · refine Or.inr (Finset.eq_empty_of_forall_notMem fun k hk => ?_)
            obtain ⟨hk, hclear⟩ := mem_clearBits.mp hk
            have hwords := L.words K
            have hset := findWord_none hfind k (by omega)
            rw [L.bitAt_congr (readBlock_agree L.dev (L.bitmapIn K bg (by omega)) _) hk,
              hclear] at hset
            cases hset
          · exact ih _ _ (by omega) h g hlt (by omega)

namespace FoundAt

variable {K : Kind} {fs : Fs} {f : Found}

/-- The position of the bit found, counted over all groups. -/
def pos (fs : Fs) (K : Kind) (f : Found) : Nat :=
  f.bg * fs.perGroup K + (32 * f.blocki + (f.blockoff - 1))

theorem pos_lt (h : FoundAt K fs f) : pos fs K f < capacity K fs := group_lt_capacity h.bg h.lt

theorem pos_div (h : FoundAt K fs f) : pos fs K f / fs.perGroup K = f.bg := div_block h.lt

theorem pos_mod (h : FoundAt K fs f) :
    pos fs K f % fs.perGroup K = 32 * f.blocki + (f.blockoff - 1) := mod_block h.lt

theorem pos_clear (h : FoundAt K fs f) (L : Layout fs) : usedBit K fs (pos fs K f) = false := by
  rw [usedBit, h.pos_div, h.pos_mod, ← L.bitAt_congr h.buf h.lt, h.clear]

theorem takeBit_spec (h : FoundAt K fs f) (L : Layout fs) :
    BitStep K fs (pos fs K f) true ∅ (takeBit K fs f) := by
  refine @bitStep_of_commit _ _ _ L _ _ h.pos_lt (orBit f.buf f.blocki (f.blockoff - 1)) ?_ ?_
  · intro k hk
    rw [bitAt_orBit (by have := h.off_le; have := h.off_pos; omega), h.pos_mod, h.pos_div,
      L.bitAt_congr h.buf hk]
    by_cases heq : k = 32 * f.blocki + (f.blockoff - 1)
    · rw [if_pos heq, decide_eq_true heq, Bool.true_or]
    · rw [if_neg heq, decide_eq_false heq, Bool.false_or]
  · rw [h.pos_div]
    exact commit_spec L h.bg _ (Nat.mod_lt _ (by decide)) (Nat.mod_lt _ (by decide))

end FoundAt

theorem releaseBit_spec {K : Kind} {fs : Fs} (L : Layout fs) {n : Nat} (hn : n < capacity K fs) :
    BitStep K fs n false ∅ (releaseBit K fs n) := by
  have hbg := group_lt_of_lt_capacity hn
  refine bitStep_of_commit L hn ?_
    (commit_spec L hbg _ (Nat.mod_lt _ (by decide)) (Nat.mod_lt _ (by decide)))
  intro k hk
  rw [bitAt_andNotBit (Nat.mod_lt _ (by decide)),
    L.bitAt_congr (readBlock_agree L.dev (L.bitmapIn K _ hbg) _) hk, Nat.div_add_mod]
  by_cases heq : k = n % fs.perGroup K
  · rw [if_pos heq, decide_eq_true heq]; rfl
  · rw [if_neg heq, decide_eq_false heq, Bool.not_false, Bool.true_and]

/-! ## Marked blocks -/

/-- The bookkeeping blocks are marked, and so is every bit of the block
bitmaps that stands for no block of the device. -/
structure Marked (fs : Fs) : Prop where
  book : ∀ b ∈ bookBlocks fs, b < capacity .block fs → usedBit .block fs b = true
  padded : ∀ b < capacity .block fs, usedBit .block fs b = false → InVol fs b ∨ b = 0

theorem Marked.not_book {fs : Fs} (M : Marked fs) {b : Nat} (hb : b < capacity .block fs)
    (hclear : usedBit .block fs b = false) : b ∉ bookBlocks fs := fun hmem => by
  rw [M.book b hmem hb] at hclear
  cases hclear

/-- Writing a block that is not a bookkeeping block, such as the zeroing of a
fresh one, adds that block to the frame and nothing else. -/
theorem BitStep.writeBlock {K : Kind} {fs fs' : Fs} {n b : Nat} {v : Bool} {S : Set Nat}
    (L : Layout fs) (h : BitStep K fs n v S fs') (hin : InVol fs b) (hb : b ∉ bookBlocks fs)
    (buf : Mem) : BitStep K fs n v (insert b S) (writeBlock fs' b buf).2 := by
  have hbs := L.blockSz_ge
  have L' := L.of_sameFormat h.format
  have hfr := writeBlock_frame L'.dev (by rw [h.format.blockSz]; omega)
    ((h.format.inVol b).mpr hin) buf
  have hm := writeBlock_sameMount fs' b buf
  have hf : SameFormat fs' (Ext2.writeBlock fs' b buf).2 :=
    ⟨hm, by funext K g; rw [Fs.bitmapNo, writeBlock_bgdt, Fs.bitmapNo],
      by funext g; rw [Fs.inodeTable, writeBlock_bgdt, Fs.inodeTable],
      by funext K; rw [Fs.perGroup, writeBlock_sb, Fs.perGroup]⟩
  refine ⟨h.format.trans hf, ?_, ?_, ?_, ?_, ⟨?_, ?_⟩, ?_⟩
  · rw [writeBlock_critical, h.critical]
  · intro K' m hmc
    have hg := group_lt_of_lt_capacity hmc
    have hk : m % fs.perGroup K' < fs.perGroup K' :=
      Nat.mod_lt _ (perGroup_pos_of_lt_capacity hmc)
    rw [← h.bits K' m hmc, usedBit, usedBit, hf.bitmapNo, hf.perGroup, h.format.perGroup]
    refine L'.bitAt_congr (hfr.blk_agree hm.blockSz ?_) (by rwa [h.format.perGroup])
    rw [Set.mem_singleton_iff, h.format.bitmapNo]
    exact fun heq => hb (heq ▸ bitmap_mem_bookBlocks hg)
  · intro K' g
    rw [← h.count, Fs.count, Fs.count, writeBlock_bgdt]
  · intro K'
    rw [← h.total, Fs.total, Fs.total, writeBlock_sb]
  · intro x _ hx
    have hsync := h.synced.bgdt x (Nat.zero_le _) (by rwa [← hm.bgdtBlockSz, ← hm.blockSz])
    rw [Nat.zero_add, hm.bgdtBlockSz, hm.blockSz, h.format.bgdtBlockSz, h.format.blockSz] at hx
    have hq : x / fs.blockSz < fs.bgdtBlockSz := Nat.div_lt_of_lt_mul (by rwa [Nat.mul_comm])
    rw [writeBlock_bgdt, ← hsync]
    show (Ext2.writeBlock fs' b buf).2.dev _ = _
    rw [hm.bgdtOff, hm.blockSz]
    refine hfr _ ?_
    rw [h.format.blockSz, h.format.bgdtOff, Nat.mul_comm, Nat.mul_add_div (by omega)]
    intro hmem
    refine hb (tableBlocks_subset fs (Or.inr ?_))
    rw [← Set.mem_singleton_iff.mp hmem]
    exact ⟨Nat.le_add_right .., Nat.add_lt_add_left hq _⟩
  · intro x _ hx
    have hsync := h.synced.sb x (Nat.zero_le _) hx
    rw [writeBlock_sb, ← hsync]
    refine hfr _ fun hmem => hb ?_
    have hdiv : (1024 + x) / fs'.blockSz = sbBlock fs := by
      rw [h.format.blockSz, sbBlock]
      have hx' : x < 236 := by simpa [superblockSz] using hx
      obtain ⟨c, hc⟩ := L.blockSz_dvd
      rcases Nat.lt_or_ge c 2 with hc2 | hc2
      · obtain rfl : c = 1 := by omega
        rw [hc]; omega
      · rw [Nat.div_eq_of_lt (by omega), Nat.div_eq_of_lt (by omega)]
    rw [← Set.mem_singleton_iff.mp hmem, hdiv]
    exact List.mem_cons_self
  · refine (h.frame.mono ?_).trans h.format.blockSz (hfr.mono ?_)
    · exact Set.union_subset_union_right _ (Set.subset_insert b S)
    · exact fun x hx => Or.inr (Or.inl hx)

end Ext2

end Shitos
