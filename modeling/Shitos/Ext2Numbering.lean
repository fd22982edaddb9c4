import Shitos.Ext2Count

/-!
# Which block a bit stands for

In the format bit `i` of group `g` stands for block
`s_first_data_block + g * s_blocks_per_group + i`. `alloc_block` and
`free_block` never read `s_first_data_block`: both take the position of the
bit for the number of the block. `numbering_iff` says when that is right. It
needs the field to be zero, which it is on volumes with blocks of more than
1024 bytes; with blocks of 1024 bytes it is one, and every allocation hands
out the block before the one it marks (`numbering_off_by_one`).

The rest of the condition is about bitmaps that are already wrong. A fresh
block is zeroed, so a bitmap that shows its own block as free is lost to the
first allocation that finds it.
-/

namespace Shitos

namespace Ext2

/-- `s_first_data_block`. -/
def firstDataBlock (fs : Fs) : Nat := rd32 fs.sb 20

/-- The block that bit `n`, counted over all groups, stands for. -/
def blockOf (fs : Fs) (n : Nat) : Nat := firstDataBlock fs + n

/-- `alloc_block` returns a block whose bit was clear, and that bit is the only
one it sets. -/
def AllocRight (fs : Fs) : Prop :=
  ∃ n < capacity .block fs, (allocBlock fs).1 = blockOf fs n ∧ usedBit .block fs n = false
    ∧ ∀ m < capacity .block fs,
      (usedBit .block fs m = false ∧ usedBit .block (allocBlock fs).2 m = true) ↔ m = n

/-- `free_block` clears the bit `n` of the block it is given and no other. -/
def FreeRight (fs : Fs) (n : Nat) : Prop :=
  (freeBlock fs (blockOf fs n)).1 = .success ∧ ∀ m < capacity .block fs,
    usedBit .block (freeBlock fs (blockOf fs n)).2 m = if m = n then false else usedBit .block fs m

/-! ## The search finds the first clear bit -/

theorem ffsl_not32_minimal {w i j : Nat} (h : ffsl (not32 w) = i + 1) (hj : j < i) :
    w.testBit j = true := by
  have hi := (ffsl_not32_eq_succ h).1
  unfold ffsl at h
  split at h
  · rename_i k hk
    obtain ⟨-, -, hmin⟩ := List.find?_range_eq_some.mp hk
    obtain rfl : k = i := by omega
    have := hmin j hj
    simpa [testBit_not32 (show j < 32 by omega)] using this
  · cases h

/-- The bits before the one found in a bitmap are set. -/
theorem findWord_minimal {buf : Mem} {words w o k : Nat} (h : findWord buf words = some (w, o))
    (hk : k < 32 * w + (o - 1)) : bitAt buf k = true := by
  induction words with
  | zero => cases h
  | succ words ih =>
      have hlast : findWord buf (words + 1) = (findWord buf words).or
          (List.findSome? (fun blocki =>
            let blockoff := ffsl (not32 (wordAt buf blocki))
            if blockoff = 0 then none else some (blocki, blockoff)) [words]) := by
        rw [findWord, List.range_succ, List.findSome?_append]
        rfl
      rw [hlast] at h
      cases hprev : findWord buf words with
      | some r =>
          rw [hprev, Option.some_or] at h
          exact ih (hprev.trans h)
      | none =>
          rw [hprev, Option.none_or] at h
          simp only [List.findSome?_cons, List.findSome?_nil] at h
          split at h
          · rename_i r hr
            split at hr
            · cases hr
            · rename_i hne
              obtain ⟨rfl, rfl⟩ : words = w ∧ ffsl (not32 (wordAt buf words)) = o := by
                rw [← Option.some.inj hr] at h
                exact Prod.mk.inj (Option.some.inj h)
              obtain ⟨j, hj⟩ := Nat.exists_eq_succ_of_ne_zero hne
              rcases Nat.lt_or_ge k (32 * words) with hlt | hge
              · exact findWord_none hprev k hlt
              · have hoff := (ffsl_not32_eq_succ hj).1
                rw [bitAt, show k / 32 = words by omega]
                exact ffsl_not32_minimal hj (by omega)
          · cases h

/-- The bits of the groups before the one found are set, as far as the search
looked at them. -/
theorem findFree_minimal {K : Kind} {fs : Fs} (L : Layout fs) {f : Found} :
    ∀ (todo bg : Nat) (buf : Mem), bg + todo ≤ fs.bgdtSz → findFree K fs todo bg buf = some f →
      ∀ m, bg * fs.perGroup K ≤ m → m < FoundAt.pos fs K f →
        fs.count K (m / fs.perGroup K) = 0 ∨ usedBit K fs m = true := by
  intro todo
  induction todo with
  | zero => intro bg buf _ h; cases h
  | succ todo ih =>
      intro bg buf hle h m hm hlt
      have hpos : 0 < fs.perGroup K := by
        have hf := findFree_some L _ _ _ hle h
        exact perGroup_pos_of_lt_capacity (hf.pos_lt)
      rw [findFree] at h
      -- the bits of later groups come from the rest of the search
      have hlater : ∀ buf', findFree K fs todo (bg + 1) buf' = some f →
          (m / fs.perGroup K = bg → fs.count K bg = 0 ∨ usedBit K fs m = true) →
          fs.count K (m / fs.perGroup K) = 0 ∨ usedBit K fs m = true := by
        intro buf' hrest hthis
        by_cases hg : m / fs.perGroup K = bg
        · rw [hg]
          exact hthis hg
        · have hge : bg ≤ m / fs.perGroup K := (Nat.le_div_iff_mul_le hpos).mpr hm
          exact ih _ _ (by omega) hrest m
            ((Nat.le_div_iff_mul_le hpos).mp (show bg + 1 ≤ m / fs.perGroup K by omega)) hlt
      split at h
      · rename_i hcount
        exact hlater _ h fun _ => Or.inl hcount
      · simp only at h
        have hagree := readBlock_agree L.dev (L.bitmapIn K bg (by omega)) buf
        split at h
        · rename_i w o hfind
          obtain rfl := Option.some.inj h
          simp only [FoundAt.pos] at hlt
          obtain ⟨hw, -, ho, -⟩ := findWord_some hfind
          have hwords := L.words K
          obtain ⟨k, rfl⟩ := Nat.exists_eq_add_of_le hm
          have hk : k < fs.perGroup K := by omega
          refine Or.inr ?_
          rw [usedBit_group hk, ← L.bitAt_congr hagree hk]
          exact findWord_minimal hfind (by omega)
        · rename_i hfind
          refine hlater _ h fun hg => Or.inr ?_
          have hwords := L.words K
          have hk := Nat.mod_lt m hpos
          have hset := findWord_none hfind (m % fs.perGroup K) (by omega)
          rw [L.bitAt_congr hagree hk] at hset
          rw [usedBit, hg, hset]

/-- Bit `n` is the first clear one of the groups that claim free blocks. -/
structure FirstFree (fs : Fs) (n : Nat) : Prop where
  lt : n < capacity .block fs
  count : fs.count .block (n / fs.perGroup .block) ≠ 0
  clear : usedBit .block fs n = false
  first : ∀ m < n, fs.count .block (m / fs.perGroup .block) = 0 ∨ usedBit .block fs m = true

theorem FirstFree.unique {fs : Fs} {n m : Nat} (hn : FirstFree fs n) (hm : FirstFree fs m) :
    n = m := by
  have hskip : ∀ {a b : Nat}, FirstFree fs a → FirstFree fs b → ¬a < b := by
    intro a b ha hb hlt
    rcases hb.first a hlt with h | h
    · exact ha.count h
    · rw [ha.clear] at h
      cases h
  exact Nat.le_antisymm (Nat.not_lt.mp (hskip hm hn)) (Nat.not_lt.mp (hskip hn hm))

theorem findFree_first {fs : Fs} (L : Layout fs) {f : Found}
    (h : findFree .block fs fs.bgdtSz 0 fs.fresh = some f) :
    FirstFree fs (FoundAt.pos fs .block f) := by
  have hf := findFree_some L _ _ _ (by omega) h
  refine ⟨hf.pos_lt, ?_, hf.pos_clear L, fun m hm => ?_⟩
  · rw [hf.pos_div]
    exact hf.count
  · exact findFree_minimal L _ _ _ (by omega) h m (by omega) hm

/-! ## Zeroing the fresh block -/

/-- Where `write_block(n)` starts writing. -/
def addr32 (fs : Fs) (n : Nat) : Nat := n * fs.blockSz % 2 ^ 32

/-- The bitmap that holds bit `n` is not what gets zeroed with block `n`. -/
def Spared (fs : Fs) (n m : Nat) : Prop :=
  addr32 fs n ≠ fs.bitmapNo .block (m / fs.perGroup .block) * fs.blockSz

theorem Layout.addr_dvd {fs : Fs} (L : Layout fs) (n : Nat) : fs.blockSz ∣ addr32 fs n := by
  obtain ⟨k, hk, hsz⟩ := L.blockSz
  have hdvd : fs.blockSz ∣ 2 ^ 32 := by
    rw [hsz, show (1024 : Nat) = 2 ^ 10 by decide, ← Nat.pow_add]
    exact Nat.pow_dvd_pow 2 (by omega)
  exact (Nat.dvd_mod_iff hdvd).mpr (Nat.dvd_mul_left _ _)

theorem writeBlock_blk_of_ne {fs : Fs} (L : Layout fs) {n b : Nat}
    (hne : addr32 fs n ≠ b * fs.blockSz) (buf : Mem) :
    Agree (blk (writeBlock fs n buf).2 b) (blk fs b) 0 fs.blockSz := by
  intro i _ hi
  have hbs := L.blockSz_ge
  rw [blk, blk, writeBlock_blockSz, writeBlock]
  split
  · rfl
  · simp only [devWrite]
    refine if_neg ?_
    rintro ⟨h1, h2, -⟩
    obtain ⟨q, hq⟩ := L.addr_dvd n
    refine hne ?_
    rw [addr32, Nat.mul_comm fs.blockSz q] at hq
    rw [hq] at h1 h2
    have hqb : (b * fs.blockSz + i) / fs.blockSz = q :=
      Nat.div_eq_of_lt_le h1 (by rw [Nat.add_mul]; omega)
    rw [div_block (by omega)] at hqb
    rw [addr32, hq, hqb]

theorem writeBlock_blk_of_eq {fs : Fs} {n b : Nat} (hin : InVol fs b)
    (heq : addr32 fs n = b * fs.blockSz) (hn : n ≠ 0) (buf : Mem) {i : Nat} (hi : i < fs.blockSz) :
    blk (writeBlock fs n buf).2 b i = buf i := by
  obtain ⟨-, hin⟩ := hin
  rw [Nat.add_mul] at hin
  rw [blk, writeBlock_blockSz, writeBlock, if_neg hn]
  rw [addr32] at heq
  simp only [devWrite, heq]
  rw [if_pos ⟨by omega, by omega, by omega⟩, Nat.add_sub_cancel_left]

theorem bitAt_zero (k : Nat) : bitAt (fun _ => 0) k = false := by
  simp [bitAt, wordAt, rd32, rd16, rd8]

/-- The block bitmaps after block `n` has been zeroed. -/
theorem usedBit_zeroed {fs : Fs} (L : Layout fs) {n : Nat} (hn : n ≠ 0) {buf : Mem}
    (hbuf : ∀ i < fs.blockSz, buf i = 0) {m : Nat} (hm : m < capacity .block fs) :
    (usedBit .block (writeBlock fs n buf).2 m = true
      ↔ Spared fs n m ∧ usedBit .block fs m = true) := by
  have hg := group_lt_of_lt_capacity hm
  have hk := Nat.mod_lt m (perGroup_pos_of_lt_capacity hm)
  have hno : (writeBlock fs n buf).2.bitmapNo = fs.bitmapNo := by
    funext K g
    rw [Fs.bitmapNo, Fs.bitmapNo, writeBlock_bgdt]
  have hper : (writeBlock fs n buf).2.perGroup = fs.perGroup := by
    funext K
    rw [Fs.perGroup, Fs.perGroup, writeBlock_sb]
  rw [usedBit, usedBit, hno, hper]
  by_cases hs : addr32 fs n = fs.bitmapNo .block (m / fs.perGroup .block) * fs.blockSz
  · have hzero : Agree (blk (writeBlock fs n buf).2
        (fs.bitmapNo .block (m / fs.perGroup .block))) (fun _ => 0) 0 fs.blockSz := by
      intro i _ hi
      rw [writeBlock_blk_of_eq (L.bitmapIn .block _ hg) hs hn buf (by omega), hbuf i (by omega)]
    rw [L.bitAt_congr hzero hk, bitAt_zero]
    exact ⟨fun h => absurd h Bool.false_ne_true, fun h => absurd hs h.1⟩
  · rw [L.bitAt_congr (writeBlock_blk_of_ne L hs buf) hk]
    exact ⟨fun h => ⟨hs, h⟩, And.right⟩

/-! ## Allocation -/

/-- The first free bit is the only one that allocation can set, and it is set
unless the bitmap is lost with it. -/
theorem allocBlock_bits {fs : Fs} (L : Layout fs) :
    (∃ n, n ≠ 0 ∧ FirstFree fs n ∧ (allocBlock fs).1 = n ∧ ∀ m < capacity .block fs,
        (usedBit .block (allocBlock fs).2 m = true
          ↔ Spared fs n m ∧ (m = n ∨ usedBit .block fs m = true)))
      ∨ ((allocBlock fs).2 = reportFull fs ∧ ∀ n, FirstFree fs n → n = 0) := by
  unfold allocBlock
  split
  · rename_i hfind
    refine Or.inr ⟨rfl, fun n hn => absurd hn.count ?_⟩
    have hg := group_lt_of_lt_capacity hn.lt
    rcases findFree_none L _ _ _ (by omega) hfind (n / fs.perGroup .block) (Nat.zero_le _)
      (by omega) with h | h
    · exact not_not.mpr h
    · have hmem := (mem_groupClear hn.lt).mpr hn.clear
      rw [h] at hmem
      exact absurd hmem (Finset.notMem_empty _)
  · rename_i f hfind
    have hf := findFree_some L _ _ _ (by omega) hfind
    have hfirst := findFree_first L hfind
    have hlt := hf.pos_lt
    have hno : (f.blockoff - 1 + 32 * f.blocki + f.bg * fs.perGroup .block) % 2 ^ 32
        = FoundAt.pos fs .block f := by
      have hnum := L.numbers .block
      rw [FoundAt.pos] at hlt ⊢
      unfold capacity at hlt
      rw [Nat.mod_eq_of_lt (by omega)]
      omega
    simp only [hno]
    by_cases hz : FoundAt.pos fs .block f = 0
    · rw [if_pos hz]
      exact Or.inr ⟨rfl, fun n hn => (hn.unique hfirst).trans hz⟩
    · rw [if_neg hz]
      have hstep := hf.takeBit_spec L
      have L' := L.of_sameFormat hstep.format
      refine Or.inl ⟨_, hz, hfirst, rfl, fun m hm => ?_⟩
      have hbuf : ∀ i < (takeBit .block fs f).blockSz,
          fill f.buf 0 0 (takeBit .block fs f).blockSz i = 0 := fun i hi =>
        fill_apply (Nat.zero_le i) (by omega)
      rw [usedBit_zeroed L' hz hbuf (by rwa [hstep.format.capacity]), hstep.bits .block m hm, Spared,
        Spared, addr32, addr32, hstep.format.bitmapNo, hstep.format.perGroup, hstep.format.blockSz]
      refine and_congr_right fun _ => ?_
      by_cases heq : m = FoundAt.pos fs .block f
      · rw [if_pos ⟨rfl, heq⟩]
        exact ⟨fun _ => Or.inl heq, fun _ => rfl⟩
      · rw [if_neg fun hh => heq hh.2]
        exact ⟨Or.inr, fun h => h.resolve_left heq⟩

theorem reportFull_usedBit (K : Kind) (fs : Fs) (n : Nat) :
    usedBit K (reportFull fs) n = usedBit K fs n := rfl

/-- **Allocation respects the numbering of blocks** exactly when
`s_first_data_block` is zero, some block other than block 0 can be found, and
the bitmap does not show its own block as the first free one. -/
theorem numbering_iff {fs : Fs} (L : Layout fs) :
    (AllocRight fs ∧ ∀ n < capacity .block fs, blockOf fs n ≠ 0 → FreeRight fs n)
      ↔ firstDataBlock fs = 0 ∧ ∃ n, n ≠ 0 ∧ FirstFree fs n ∧ Spared fs n n := by
  constructor
  · rintro ⟨⟨n, hlt, hret, hclear, hset⟩, -⟩
    obtain ⟨-, hafter⟩ := (hset n hlt).mpr rfl
    rcases allocBlock_bits L with ⟨k, hk, hfirst, hk', hbits⟩ | ⟨hfull, -⟩
    · obtain ⟨hspared, hn⟩ := (hbits n hlt).mp hafter
      rw [hclear] at hn
      obtain rfl : n = k := hn.resolve_right Bool.false_ne_true
      rw [hk', blockOf] at hret
      exact ⟨by omega, n, hk, hfirst, hspared⟩
    · rw [hfull, reportFull_usedBit, hclear] at hafter
      cases hafter
  · rintro ⟨hfdb, n, hn, hfirst, hspared⟩
    have hblock : ∀ m, blockOf fs m = m := fun m => by rw [blockOf, hfdb, Nat.zero_add]
    refine ⟨?_, fun m hm hm0 => ?_⟩
    · rcases allocBlock_bits L with ⟨k, -, hfirst', hk, hbits⟩ | ⟨-, hnone⟩
      · obtain rfl := hfirst.unique hfirst'
        refine ⟨n, hfirst.lt, by rw [hk, hblock], hfirst.clear, fun m hm => ?_⟩
        rw [hbits m hm]
        constructor
        · rintro ⟨hclear, -, hset⟩
          rw [hclear] at hset
          exact hset.resolve_right Bool.false_ne_true
        · rintro rfl
          exact ⟨hfirst.clear, hspared, Or.inl rfl⟩
      · exact absurd (hnone n hfirst) hn
    · rw [hblock] at hm0
      rw [FreeRight, hblock]
      refine ⟨by rw [freeBlock, if_neg hm0], fun k hk => ?_⟩
      have hstep : BitStep .block fs m false ∅ (freeBlock fs m).2 :=
        free_spec (K := .block) L hm0 hm
      rw [hstep.bits .block k hk]
      exact if_congr ⟨And.right, fun h => ⟨rfl, h⟩⟩ rfl rfl

/-! ## A volume with blocks of 1024 bytes -/

/-- `freshFs` finds block 9 behind its bookkeeping blocks. -/
theorem numbering_iff_freshFs : AllocRight freshFs :=
  ((numbering_iff (tinyFs_layout _ _ _ _)).mpr ⟨by decide +kernel, 9, by decide,
    ⟨by decide +kernel, by decide +kernel, by decide +kernel, by decide +kernel⟩,
    by unfold Spared; decide +kernel⟩).1

/-- The volume of `tinyFs` with `s_first_data_block` one and the bitmap of the
format: bits 0 to 7 for blocks 1 to 8, bit 31 for a block behind the end. -/
def firstFs : Fs :=
  { tinyFs 0x800000ff 0x7ff 23 21 with sb := wr32 (tinyFs 0x800000ff 0x7ff 23 21).sb 20 1 }

/-- The allocation returns block 8, which the bitmap has in use (it holds
inodes) and which it then zeroes; the bit it sets is that of block 9. Freeing
the superblock's block leaves its bit set. -/
theorem numbering_off_by_one :
    (allocBlock firstFs).1 = 8 ∧ blockOf firstFs 7 = 8 ∧ usedBit .block firstFs 7 = true
      ∧ usedBit .block (allocBlock firstFs).2 8 = true ∧ ¬AllocRight firstFs
      ∧ ¬FreeRight firstFs 0 := by
  have hret : (allocBlock firstFs).1 = 8 := by decide +kernel
  have hused : usedBit .block firstFs 7 = true := by decide +kernel
  refine ⟨hret, by decide +kernel, hused, by decide +kernel, ?_, ?_⟩
  · rintro ⟨n, -, hn, hclear, -⟩
    have hfdb : firstDataBlock firstFs = 1 := by decide +kernel
    rw [hret, blockOf, hfdb] at hn
    obtain rfl : n = 7 := by omega
    rw [hused] at hclear
    cases hclear
  · rintro ⟨-, hfree⟩
    have hzero := hfree 0 (by decide +kernel)
    revert hzero
    decide +kernel

end Ext2

end Shitos
