import Mathlib.Algebra.BigOperators.Group.Finset.Basic
import Mathlib.Algebra.Order.BigOperators.Group.Finset
import Mathlib.Logic.Relation
import Shitos.Ext2Bits

/-!
# Bitmaps and free counters agree

The free space of a group is held three times: as the clear bits of its
bitmap, as the group's 16-bit counter, and as its share of the superblock's
total; the counters exist in memory and on the device. `Counts` says that
all of these agree, `Counts.bitStep` that a bit step keeps them agreeing, and
`counters_agree` carries that through every sequence of allocations and
deallocations.

Releasing must not overflow the 16-bit counter. The run invariant `Held`
gives that: bits that were set at the start stay set and are never handed
out, so the clear bits are always among those the counter started with.
-/

namespace Shitos

namespace Ext2

open Finset

/-- `alloc_block` and `alloc_inode`. -/
def alloc : Kind → Fs → Nat × Fs
  | .block => allocBlock
  | .inode => allocInode

/-- `free_block` and `free_inode`. -/
def free : Kind → Fs → Nat → Status × Fs
  | .block => freeBlock
  | .inode => freeInode

/-- The number that bit 0 of group 0 stands for: blocks count from zero,
inodes from one. -/
def Kind.first : Kind → Nat
  | .block => 0
  | .inode => 1

/-! ## The specification of the four functions -/

/-- What an allocation that returns `r` has done. -/
structure Allocated (K : Kind) (fs : Fs) (r : Nat) (fs' : Fs) : Prop where
  pos : r ≠ 0
  ge : K.first ≤ r
  lt : r - K.first < capacity K fs
  clear : usedBit K fs (r - K.first) = false
  count : fs.count K ((r - K.first) / fs.perGroup K) ≠ 0
  step : BitStep K fs (r - K.first) true {b | K = .block ∧ b = r} fs'
  zeroed : K = .block → ∀ i < fs.blockSz, blk fs' r i = 0

theorem alloc_cases {fs : Fs} (L : Layout fs) (M : Marked fs)
    (h0 : 0 < capacity .block fs → usedBit .block fs 0 = true) (K : Kind) :
    ((alloc K fs).1 = 0 ∧ (alloc K fs).2 = reportFull fs
        ∧ ∀ g < fs.bgdtSz, fs.count K g = 0 ∨ groupClear K fs g = ∅)
      ∨ Allocated K fs (alloc K fs).1 (alloc K fs).2 := by
  cases K with
  | block =>
      simp only [alloc]
      unfold allocBlock
      split
      · rename_i hfind
        exact Or.inl ⟨rfl, rfl, fun g hg =>
          findFree_none L _ _ _ (by omega) hfind g (Nat.zero_le g) (by omega)⟩
      · rename_i f hfind
        have hf := findFree_some L _ _ _ (by omega) hfind
        have hlt := hf.pos_lt
        have hclear := hf.pos_clear L
        have hnum := L.numbers .block
        have hno : (f.blockoff - 1 + 32 * f.blocki + f.bg * fs.perGroup .block) % 2 ^ 32
            = FoundAt.pos fs .block f := by
          rw [FoundAt.pos] at hlt ⊢
          unfold capacity at hlt
          rw [Nat.mod_eq_of_lt (by omega)]; omega
        have hne : FoundAt.pos fs .block f ≠ 0 := fun h => by
          rw [h, h0 (Nat.zero_lt_of_lt hlt)] at hclear; cases hclear
        simp only [hno, if_neg hne]
        have hin : InVol fs (FoundAt.pos fs .block f) :=
          (M.padded _ hlt hclear).resolve_right hne
        have hstep := hf.takeBit_spec L
        have hbs := L.blockSz_ge
        refine Or.inr ⟨hne, Nat.zero_le _, hlt, hclear, ?_, ?_, fun _ i hi => ?_⟩
        · show fs.count .block (FoundAt.pos fs .block f / _) ≠ 0
          rw [hf.pos_div]; exact hf.count
        · have := hstep.writeBlock L hin (M.not_book hlt hclear)
            (fill f.buf 0 0 (takeBit .block fs f).blockSz)
          simpa [Kind.first] using this
        · have hsz : i < (takeBit .block fs f).blockSz := by rwa [hstep.format.blockSz]
          rw [writeBlock_blk_same (L.of_sameFormat hstep.format).dev
            ((hstep.format.inVol _).mpr hin) _ hsz]
          exact fill_apply (Nat.zero_le i) (by omega)
  | inode =>
      simp only [alloc]
      unfold allocInode
      split
      · rename_i hfind
        exact Or.inl ⟨rfl, rfl, fun g hg =>
          findFree_none L _ _ _ (by omega) hfind g (Nat.zero_le g) (by omega)⟩
      · rename_i f hfind
        have hf := findFree_some L _ _ _ (by omega) hfind
        have hlt := hf.pos_lt
        have hnum := L.numbers .inode
        have hoff := hf.off_pos
        have hno : (f.blockoff + 32 * f.blocki + f.bg * fs.perGroup .inode) % 2 ^ 32
            = FoundAt.pos fs .inode f + 1 := by
          rw [FoundAt.pos] at hlt ⊢
          unfold capacity at hlt
          rw [Nat.mod_eq_of_lt (by omega)]; omega
        simp only [hno, if_neg (Nat.succ_ne_zero _)]
        refine Or.inr ⟨Nat.succ_ne_zero _, Nat.succ_le_succ (Nat.zero_le _), ?_, ?_, ?_, ?_, ?_⟩
        · exact hlt
        · exact hf.pos_clear L
        · show fs.count .inode (FoundAt.pos fs .inode f / _) ≠ 0
          rw [hf.pos_div]; exact hf.count
        · simpa [Kind.first] using hf.takeBit_spec L
        · exact fun h => nomatch h

theorem free_spec {fs : Fs} (L : Layout fs) {K : Kind} {r : Nat} (hpos : r ≠ 0)
    (hlt : r - K.first < capacity K fs) :
    BitStep K fs (r - K.first) false ∅ (free K fs r).2 := by
  cases K with
  | block => rw [free, freeBlock, if_neg hpos]; exact releaseBit_spec L hlt
  | inode => rw [free, freeInode, if_neg hpos]; exact releaseBit_spec L hlt

/-! ## Counters -/

/-- The clear bits of group `g`, counted. -/
def freeCount (K : Kind) (fs : Fs) (g : Nat) : Nat := (groupClear K fs g).card

/-- `bg_free_*_count` of group `g` on the device. -/
def diskCount (K : Kind) (fs : Fs) (g : Nat) : Nat :=
  rd16 fs.dev (fs.bgdtOff * fs.blockSz + (32 * g + K.countOff))

/-- `s_free_*_count` on the device. -/
def diskTotal (K : Kind) (fs : Fs) : Nat := rd32 fs.dev (1024 + K.totalOff)

/-- Bitmaps and counters agree, in memory and on the device. -/
structure Counts (fs : Fs) : Prop where
  count : ∀ K, ∀ g < fs.bgdtSz, fs.count K g = freeCount K fs g
  total : ∀ K, fs.total K = ∑ g ∈ range fs.bgdtSz, freeCount K fs g
  diskCount : ∀ K, ∀ g < fs.bgdtSz, diskCount K fs g = freeCount K fs g
  diskTotal : ∀ K, diskTotal K fs = ∑ g ∈ range fs.bgdtSz, freeCount K fs g

theorem diskCount_eq {fs : Fs} (L : Layout fs) (h : Synced fs) (K : Kind) {g : Nat}
    (hg : g < fs.bgdtSz) : diskCount K fs g = fs.count K g := by
  have hfits := L.bgdtFits
  have hoff : K.countOff ≤ 14 := by cases K <;> decide
  have h0 := h.bgdt (32 * g + K.countOff) (Nat.zero_le _) (by omega)
  have h1 := h.bgdt (32 * g + K.countOff + 1) (Nat.zero_le _) (by omega)
  simp only at h0 h1
  rw [diskCount, Fs.count, rd16, rd16, rd8, rd8, rd8, rd8, Nat.add_assoc, h0, h1]

theorem diskTotal_eq {fs : Fs} (h : Synced fs) (K : Kind) : diskTotal K fs = fs.total K := by
  have hoff : K.totalOff ≤ 16 := by cases K <;> decide
  have hb : ∀ i < 4, fs.dev (1024 + (K.totalOff + i)) = fs.sb (K.totalOff + i) := fun i hi =>
    h.sb (K.totalOff + i) (Nat.zero_le _) (by unfold superblockSz; omega)
  have h0 := hb 0 (by decide)
  have h1 := hb 1 (by decide)
  have h2 := hb 2 (by decide)
  have h3 := hb 3 (by decide)
  simp only [Nat.add_zero] at h0
  simp only [diskTotal, Fs.total, rd32, rd16, rd8, Nat.add_assoc, h0, h1, h2, h3, Nat.reduceAdd]

/-- The clear bits of every group after a bit step. -/
theorem BitStep.groupClear_eq {K : Kind} {fs fs' : Fs} {n : Nat} {v : Bool} {S : Set Nat}
    (h : BitStep K fs n v S fs') (hn : n < capacity K fs) (K' : Kind) {g : Nat}
    (hg : g < fs.bgdtSz) : groupClear K' fs' g
      = if K' = K ∧ g = n / fs.perGroup K
        then if v then (groupClear K fs g).erase (n % fs.perGroup K)
          else insert (n % fs.perGroup K) (groupClear K fs g)
        else groupClear K' fs g := by
  have hbit : ∀ k < fs.perGroup K', bitAt (blk fs' (fs'.bitmapNo K' g)) k
      = if K' = K ∧ g * fs.perGroup K' + k = n then v
        else bitAt (blk fs (fs.bitmapNo K' g)) k := by
    intro k hk
    have := h.bits K' _ (group_lt_capacity hg hk)
    rwa [usedBit_group hk, ← h.format.perGroup,
      usedBit_group (by rwa [h.format.perGroup]), h.format.perGroup] at this
  have hk := Nat.mod_lt n (perGroup_pos_of_lt_capacity hn)
  unfold groupClear
  rw [h.format.perGroup]
  by_cases hsame : K' = K ∧ g = n / fs.perGroup K
  · obtain ⟨rfl, rfl⟩ := hsame
    rw [if_pos ⟨rfl, rfl⟩]
    have hpos : ∀ k, n / fs.perGroup K' * fs.perGroup K' + k = n ↔ k = n % fs.perGroup K' := by
      intro k
      have := Nat.div_add_mod n (fs.perGroup K')
      rw [Nat.mul_comm] at this
      omega
    cases v with
    | true =>
        refine clearBits_set fun j hj => ?_
        rw [hbit j hj]
        by_cases hj' : j = n % fs.perGroup K'
        · rw [if_pos ⟨rfl, (hpos j).mpr hj'⟩, decide_eq_true hj', Bool.true_or]
        · rw [if_neg fun hh => hj' ((hpos j).mp hh.2), decide_eq_false hj', Bool.false_or]
    | false =>
        refine clearBits_clear hk fun j hj => ?_
        rw [hbit j hj]
        by_cases hj' : j = n % fs.perGroup K'
        · rw [if_pos ⟨rfl, (hpos j).mpr hj'⟩, decide_eq_true hj', Bool.not_true, Bool.false_and]
        · rw [if_neg fun hh => hj' ((hpos j).mp hh.2), decide_eq_false hj', Bool.not_false,
            Bool.true_and]
  · rw [if_neg hsame]
    refine clearBits_congr fun j hj => ?_
    rw [hbit j hj, if_neg]
    rintro ⟨rfl, rfl⟩
    exact hsame ⟨rfl, (div_block hj).symm⟩

theorem mem_groupClear {K : Kind} {fs : Fs} {n : Nat} (hn : n < capacity K fs) :
    n % fs.perGroup K ∈ groupClear K fs (n / fs.perGroup K) ↔ usedBit K fs n = false := by
  rw [groupClear, mem_clearBits, usedBit]
  exact and_iff_right (Nat.mod_lt _ (perGroup_pos_of_lt_capacity hn))

/-- How the counts of clear bits move under a step that flips its bit. -/
theorem BitStep.freeCount_eq {K : Kind} {fs fs' : Fs} {n : Nat} {v : Bool} {S : Set Nat}
    (h : BitStep K fs n v S fs') (hn : n < capacity K fs) (hflip : usedBit K fs n = !v)
    (K' : Kind) {g : Nat} (hg : g < fs.bgdtSz) :
    (K' = K ∧ g = n / fs.perGroup K → if v then freeCount K fs' g + 1 = freeCount K fs g
        else freeCount K fs' g = freeCount K fs g + 1)
      ∧ (¬(K' = K ∧ g = n / fs.perGroup K) → freeCount K' fs' g = freeCount K' fs g) := by
  have heq := h.groupClear_eq hn K' hg
  constructor
  · rintro ⟨rfl, rfl⟩
    rw [if_pos ⟨rfl, rfl⟩] at heq
    have hmem := @mem_groupClear K' _ _ hn
    cases v with
    | true =>
        rw [if_pos rfl] at heq ⊢
        rw [freeCount, heq, Finset.card_erase_add_one (hmem.mpr hflip)]
        rfl
    | false =>
        rw [if_neg Bool.false_ne_true] at heq ⊢
        rw [freeCount, heq, Finset.card_insert_of_notMem]
        · rfl
        · rw [hmem, hflip]; exact Bool.true_eq_false_eq_False
  · intro hne
    rw [if_neg hne] at heq
    rw [freeCount, heq]; rfl

/-- The sum of the counts moves by one. -/
theorem BitStep.sum_freeCount {K : Kind} {fs fs' : Fs} {n : Nat} {v : Bool} {S : Set Nat}
    (h : BitStep K fs n v S fs') (hn : n < capacity K fs) (hflip : usedBit K fs n = !v) :
    (if v then ∑ g ∈ range fs.bgdtSz, freeCount K fs' g + 1
          = ∑ g ∈ range fs.bgdtSz, freeCount K fs g
        else ∑ g ∈ range fs.bgdtSz, freeCount K fs' g
          = ∑ g ∈ range fs.bgdtSz, freeCount K fs g + 1)
      ∧ ∀ K', K' ≠ K → ∑ g ∈ range fs.bgdtSz, freeCount K' fs' g
          = ∑ g ∈ range fs.bgdtSz, freeCount K' fs g := by
  have hbg := group_lt_of_lt_capacity hn
  refine ⟨?_, fun K' hK => Finset.sum_congr rfl fun g hg =>
    (h.freeCount_eq hn hflip _ (mem_range.mp hg)).2 fun hh => hK hh.1⟩
  have hrest : ∑ g ∈ (range fs.bgdtSz).erase (n / fs.perGroup K), freeCount K fs' g
      = ∑ g ∈ (range fs.bgdtSz).erase (n / fs.perGroup K), freeCount K fs g :=
    Finset.sum_congr rfl fun g hg =>
      (h.freeCount_eq hn hflip _ (mem_range.mp (mem_of_mem_erase hg))).2
        fun hh => ne_of_mem_erase hg hh.2
  have hone := (h.freeCount_eq hn hflip K hbg).1 ⟨rfl, rfl⟩
  have hsum := Finset.add_sum_erase _ (freeCount K fs) (mem_range.mpr hbg)
  have hsum' := Finset.add_sum_erase _ (freeCount K fs') (mem_range.mpr hbg)
  rw [hrest] at hsum'
  cases v <;> simp only [if_true, Bool.false_eq_true, if_false] at hone ⊢ <;> omega

/-- A bit step that flips its bit keeps bitmaps and counters in agreement, as
long as a release does not overflow the counters. -/
theorem Counts.bitStep {K : Kind} {fs fs' : Fs} {n : Nat} {v : Bool} {S : Set Nat}
    (C : Counts fs) (L : Layout fs) (h : BitStep K fs n v S fs') (hn : n < capacity K fs)
    (hflip : usedBit K fs n = !v)
    (hroom : v = false → freeCount K fs (n / fs.perGroup K) + 1 < 2 ^ 16
      ∧ ∑ g ∈ range fs.bgdtSz, freeCount K fs g + 1 < 2 ^ 32) : Counts fs' := by
  have L' := L.of_sameFormat h.format
  have hbg := group_lt_of_lt_capacity hn
  have hsum := h.sum_freeCount hn hflip
  have hcount : ∀ K', ∀ g < fs.bgdtSz, fs'.count K' g = freeCount K' fs' g := by
    intro K' g hg
    have hfc := h.freeCount_eq hn hflip K' hg
    have hlt : freeCount K fs g < 2 ^ 16 := by rw [← C.count K g hg]; exact rd16_lt _ _
    rw [h.count]
    by_cases hsame : K' = K ∧ g = n / fs.perGroup K
    · have hone := hfc.1 hsame
      obtain ⟨rfl, rfl⟩ := hsame
      rw [if_pos ⟨rfl, rfl⟩, C.count K' _ hg]
      cases v with
      | true => simp only [if_true] at hone ⊢; omega
      | false =>
          have := (hroom rfl).1
          simp only [Bool.false_eq_true, if_false] at hone ⊢
          omega
    · rw [if_neg hsame, hfc.2 hsame, C.count K' g hg]
  have htotal : ∀ K', fs'.total K' = ∑ g ∈ range fs.bgdtSz, freeCount K' fs' g := by
    intro K'
    rw [h.total]
    by_cases hK : K' = K
    · subst hK
      have hlt : ∑ g ∈ range fs.bgdtSz, freeCount K' fs g < 2 ^ 32 := by
        rw [← C.total K']; exact rd32_lt _ _
      have hone := hsum.1
      rw [if_pos rfl, C.total K']
      cases v with
      | true => simp only [if_true] at hone ⊢; omega
      | false =>
          have := (hroom rfl).2
          simp only [Bool.false_eq_true, if_false] at hone ⊢
          omega
    · rw [if_neg hK, hsum.2 K' hK, C.total K']
  refine ⟨?_, ?_, ?_, ?_⟩
  · rw [h.format.bgdtSz]; exact hcount
  · rw [h.format.bgdtSz]; exact htotal
  · rw [h.format.bgdtSz]
    intro K' g hg
    rw [diskCount_eq L' h.synced K' (by rwa [h.format.bgdtSz]), hcount K' g hg]
  · rw [h.format.bgdtSz]
    intro K'
    rw [diskTotal_eq h.synced, htotal]

/-! ## Sequences of allocations -/

/-- The mount, and the numbers handed out and not yet given back. -/
structure AllocState where
  fs : Fs
  held : Kind → Finset Nat

inductive AllocStep : AllocState → AllocState → Prop
  | alloc (K : Kind) (s : AllocState) :
      AllocStep s ⟨(alloc K s.fs).2, fun K' =>
        if K' = K ∧ (alloc K s.fs).1 ≠ 0 then insert (alloc K s.fs).1 (s.held K) else s.held K'⟩
  | free (K : Kind) (s : AllocState) {r : Nat} (hr : r ∈ s.held K) :
      AllocStep s ⟨(free K s.fs r).2, fun K' =>
        if K' = K then (s.held K).erase r else s.held K'⟩

/-- The run invariant: what was marked at the start stays marked and is not
handed out, what is handed out is marked, and the counters agree. -/
structure Held (base : Fs) (s : AllocState) : Prop where
  format : SameFormat base s.fs
  counts : Counts s.fs
  kept : ∀ K n, n < capacity K base → usedBit K base n = true →
    usedBit K s.fs n = true ∧ n + K.first ∉ s.held K
  held : ∀ K, ∀ r ∈ s.held K, r ≠ 0 ∧ K.first ≤ r ∧ r - K.first < capacity K base
    ∧ usedBit K s.fs (r - K.first) = true

theorem reportFull_format (fs : Fs) : SameFormat fs (reportFull fs) :=
  ⟨⟨rfl, rfl, rfl, rfl, rfl, rfl, rfl, rfl, rfl⟩, rfl, rfl, rfl⟩

theorem Counts.reportFull {fs : Fs} (C : Counts fs) : Counts (reportFull fs) :=
  ⟨C.count, C.total, C.diskCount, C.diskTotal⟩

namespace Held

variable {base : Fs} {s : AllocState}

theorem layout (H : Held base s) (L : Layout base) : Layout s.fs := L.of_sameFormat H.format

theorem marked (H : Held base s) (M : Marked base) : Marked s.fs := by
  refine ⟨fun b hb hlt => ?_, fun b hlt hclear => ?_⟩
  · rw [H.format.bookBlocks] at hb
    rw [H.format.capacity] at hlt
    exact (H.kept .block b hlt (M.book b hb hlt)).1
  · rw [H.format.capacity] at hlt
    rw [H.format.inVol]
    refine M.padded b hlt ?_
    by_contra hused
    have := (H.kept .block b hlt (by simpa using hused)).1
    rw [hclear] at this; cases this

theorem zero_used (H : Held base s) (h0 : usedBit .block base 0 = true)
    (hcap : 0 < capacity .block s.fs) : usedBit .block s.fs 0 = true :=
  (H.kept .block 0 (by rwa [← H.format.capacity]) h0).1

end Held

theorem Held.alloc {base : Fs} {s : AllocState} (H : Held base s) (L : Layout base)
    (M : Marked base) (h0 : usedBit .block base 0 = true) (K : Kind) :
    Held base ⟨(alloc K s.fs).2, fun K' =>
      if K' = K ∧ (Ext2.alloc K s.fs).1 ≠ 0 then insert (Ext2.alloc K s.fs).1 (s.held K)
      else s.held K'⟩ := by
  rcases alloc_cases (H.layout L) (H.marked M) (H.zero_used h0) K with
    ⟨hr, hfs, -⟩ | hA
  · have hheld : (fun K' => if K' = K ∧ (Ext2.alloc K s.fs).1 ≠ 0
        then insert (Ext2.alloc K s.fs).1 (s.held K) else s.held K') = s.held := by
      funext K'; rw [if_neg fun h => h.2 hr]
    rw [hheld, hfs]
    exact ⟨H.format.trans (reportFull_format _), H.counts.reportFull, H.kept, H.held⟩
  · have hcapeq := H.format.capacity
    have hlt := hA.lt
    have hge := hA.ge
    have hbits := hA.step.bits
    refine ⟨H.format.trans hA.step.format, ?_, ?_, ?_⟩
    · exact H.counts.bitStep (H.layout L) hA.step hlt hA.clear fun h => nomatch h
    · intro K' n hn hused
      obtain ⟨hu, hnot⟩ := H.kept K' n hn hused
      constructor
      · rw [hbits K' n (by rwa [hcapeq]), hu, ite_self]
      · simp only
        by_cases hK : K' = K ∧ (Ext2.alloc K s.fs).1 ≠ 0
        · obtain ⟨rfl, hne⟩ := hK
          rw [if_pos ⟨rfl, hne⟩, mem_insert, not_or]
          refine ⟨fun heq => ?_, hnot⟩
          have hclear := hA.clear
          rw [show (Ext2.alloc K' s.fs).1 - K'.first = n by omega, hu] at hclear
          cases hclear
        · rw [if_neg hK]; exact hnot
    · intro K' r hr
      simp only at hr ⊢
      by_cases hK : K' = K ∧ (Ext2.alloc K s.fs).1 ≠ 0
      · rw [if_pos hK, mem_insert] at hr
        obtain ⟨rfl, hne⟩ := hK
        rcases hr with rfl | hr
        · exact ⟨hne, hge, by rwa [← hcapeq], by rw [hbits _ _ hlt, if_pos ⟨rfl, rfl⟩]⟩
        · obtain ⟨hp, hf, hc, hu⟩ := H.held K' r hr
          exact ⟨hp, hf, hc, by rw [hbits _ _ (by rwa [hcapeq]), hu, ite_self]⟩
      · rw [if_neg hK] at hr
        obtain ⟨hp, hf, hc, hu⟩ := H.held K' r hr
        exact ⟨hp, hf, hc, by rw [hbits _ _ (by rwa [hcapeq]), hu, ite_self]⟩

theorem Held.free {base : Fs} {s : AllocState} (H : Held base s) (L : Layout base)
    (Cb : Counts base) {K : Kind} {r : Nat} (hr : r ∈ s.held K) :
    Held base ⟨(free K s.fs r).2, fun K' =>
      if K' = K then (s.held K).erase r else s.held K'⟩ := by
  have hcapeq := H.format.capacity
  obtain ⟨hp, hf, hc, hu⟩ := H.held K r hr
  have hlt : r - K.first < capacity K s.fs := by rwa [hcapeq]
  have hstep := free_spec (H.layout L) hp hlt
  have hkept : ∀ K' n, n < capacity K' base → usedBit K' base n = true →
      usedBit K' (Ext2.free K s.fs r).2 n = true := by
    intro K' n hn hused
    obtain ⟨hu', hnot⟩ := H.kept K' n hn hused
    rw [hstep.bits K' n (by rwa [hcapeq]), if_neg, hu']
    rintro ⟨rfl, rfl⟩
    exact hnot (by rwa [Nat.sub_add_cancel hf])
  have hbg : (r - K.first) / s.fs.perGroup K < base.bgdtSz := by
    rw [← H.format.bgdtSz]; exact group_lt_of_lt_capacity hlt
  -- the counters cannot overflow: the clear bits are still those of the start
  have hsub : ∀ g < base.bgdtSz, freeCount K (Ext2.free K s.fs r).2 g ≤ freeCount K base g := by
    intro g hg
    refine Finset.card_le_card fun k hk => ?_
    obtain ⟨hklt, hclear⟩ := mem_clearBits.mp hk
    rw [hstep.format.perGroup, H.format.perGroup] at hklt
    refine mem_clearBits.mpr ⟨hklt, ?_⟩
    rw [← usedBit_group hklt]
    by_contra hused
    have := hkept K _ (group_lt_capacity hg hklt) (by simpa using hused)
    rw [← H.format.perGroup, ← hstep.format.perGroup,
      usedBit_group (by rwa [hstep.format.perGroup, H.format.perGroup]), hclear] at this
    cases this
  have hroom : freeCount K s.fs ((r - K.first) / s.fs.perGroup K) + 1 < 2 ^ 16
      ∧ ∑ g ∈ range s.fs.bgdtSz, freeCount K s.fs g + 1 < 2 ^ 32 := by
    have hone := (hstep.freeCount_eq hlt hu K (group_lt_of_lt_capacity hlt)).1 ⟨rfl, rfl⟩
    have hsum := (hstep.sum_freeCount hlt hu).1
    simp only [Bool.false_eq_true, if_false] at hone hsum
    refine ⟨?_, ?_⟩
    · rw [← hone]
      refine Nat.lt_of_le_of_lt (hsub _ hbg) ?_
      rw [← Cb.count K _ hbg]; exact rd16_lt _ _
    · rw [← hsum, H.format.bgdtSz]
      refine Nat.lt_of_le_of_lt (Finset.sum_le_sum fun g hg => hsub g (mem_range.mp hg)) ?_
      rw [← Cb.total K]; exact rd32_lt _ _
  refine ⟨H.format.trans hstep.format, ?_, ?_, ?_⟩
  · exact H.counts.bitStep (H.layout L) hstep hlt hu fun _ => hroom
  · intro K' n hn hused
    refine ⟨hkept K' n hn hused, ?_⟩
    simp only
    have hnot := (H.kept K' n hn hused).2
    by_cases hK : K' = K
    · subst hK; rw [if_pos rfl]; exact fun h => hnot (mem_of_mem_erase h)
    · rw [if_neg hK]; exact hnot
  · intro K' q hq
    simp only at hq ⊢
    by_cases hK : K' = K
    · subst hK
      rw [if_pos rfl, mem_erase] at hq
      obtain ⟨hqp, hqf, hqc, hqu⟩ := H.held K' q hq.2
      refine ⟨hqp, hqf, hqc, ?_⟩
      rw [hstep.bits _ _ (by rwa [hcapeq]), if_neg, hqu]
      rintro ⟨-, heq⟩
      exact hq.1 (by omega)
    · rw [if_neg hK] at hq
      obtain ⟨hqp, hqf, hqc, hqu⟩ := H.held K' q hq
      refine ⟨hqp, hqf, hqc, ?_⟩
      rw [hstep.bits _ _ (by rwa [hcapeq]), if_neg (fun h => hK h.1), hqu]

/-- Every state of a run keeps the invariant. -/
theorem held_of_run {base : Fs} (L : Layout base) (M : Marked base)
    (h0 : usedBit .block base 0 = true) (C : Counts base)
    {s : AllocState} (hrun : Relation.ReflTransGen AllocStep ⟨base, fun _ => ∅⟩ s) :
    Held base s := by
  induction hrun with
  | refl =>
      exact ⟨SameFormat.refl base, C, fun K n _ hu => ⟨hu, notMem_empty _⟩,
        fun K r hr => absurd hr (notMem_empty r)⟩
  | tail _ hstep ih =>
      cases hstep with
      | alloc K s => exact ih.alloc L M h0 K
      | free K s hr => exact ih.free L C hr

/-! ## Exactness -/

/-- Same bitmaps and same counters, in memory and on the device. -/
def SameCounts (fs fs' : Fs) : Prop :=
  (∀ K n, n < capacity K fs → usedBit K fs' n = usedBit K fs n)
    ∧ (∀ K, ∀ g < fs.bgdtSz, fs'.count K g = fs.count K g ∧ diskCount K fs' g = diskCount K fs g)
    ∧ ∀ K, fs'.total K = fs.total K ∧ diskTotal K fs' = diskTotal K fs

/-- The only bit that differs is bit `n` of kind `K`, and it has become `v`. -/
def OneBit (K : Kind) (fs fs' : Fs) (n : Nat) (v : Bool) : Prop :=
  usedBit K fs n = !v ∧ ∀ K' m, m < capacity K' fs →
    usedBit K' fs' m = if K' = K ∧ m = n then v else usedBit K' fs m

/-- What an allocation of kind `K` from `fs` does: a number whose bit was
clear, the only bit changed, and undone by giving the number back; or zero,
with no group to allocate from and nothing changed. -/
def AllocExact (K : Kind) (fs : Fs) : Prop :=
  ((alloc K fs).1 ≠ 0 → K.first ≤ (alloc K fs).1 ∧ (alloc K fs).1 - K.first < capacity K fs
      ∧ OneBit K fs (alloc K fs).2 ((alloc K fs).1 - K.first) true
      ∧ SameCounts fs (free K (alloc K fs).2 (alloc K fs).1).2)
    ∧ ((alloc K fs).1 = 0 → (alloc K fs).2 = reportFull fs
      ∧ ∀ g < fs.bgdtSz, ¬(fs.count K g ≠ 0 ∧ (groupClear K fs g).Nonempty))

/-- What giving back `r` does: its bit is cleared, no other bit changes, and
its counters go up by one. -/
def FreeExact (K : Kind) (fs : Fs) (r : Nat) : Prop :=
  OneBit K fs (free K fs r).2 (r - K.first) false
    ∧ (∀ K', ∀ g < fs.bgdtSz, (free K fs r).2.count K' g
        = fs.count K' g + if K' = K ∧ g = (r - K.first) / fs.perGroup K then 1 else 0)
    ∧ ∀ K', (free K fs r).2.total K' = fs.total K' + if K' = K then 1 else 0

theorem Held.freeExact {base : Fs} {s : AllocState} (H : Held base s) (L : Layout base)
    (Cb : Counts base) {K : Kind} {r : Nat} (hr : r ∈ s.held K) : FreeExact K s.fs r := by
  obtain ⟨hp, hf, hc, hu⟩ := H.held K r hr
  have hlt : r - K.first < capacity K s.fs := by rwa [H.format.capacity]
  have hstep := free_spec (H.layout L) hp hlt
  have C' := (H.free L Cb hr).counts
  have hbg := group_lt_of_lt_capacity hlt
  refine ⟨⟨hu, hstep.bits⟩, fun K' g hg => ?_, fun K' => ?_⟩
  · rw [C'.count K' g (by simpa [hstep.format.bgdtSz] using hg), H.counts.count K' g hg]
    have hfc := hstep.freeCount_eq hlt hu K' hg
    by_cases hsame : K' = K ∧ g = (r - K.first) / s.fs.perGroup K
    · rw [if_pos hsame]
      have := hfc.1 hsame
      rw [hsame.1]
      simpa using this
    · rw [if_neg hsame, Nat.add_zero]; exact hfc.2 hsame
  · rw [C'.total K', H.counts.total K', hstep.format.bgdtSz]
    have hsum := hstep.sum_freeCount hlt hu
    by_cases hK : K' = K
    · subst hK; rw [if_pos rfl]; simpa using hsum.1
    · rw [if_neg hK, Nat.add_zero]; exact hsum.2 K' hK

theorem Held.allocExact {base : Fs} {s : AllocState} (H : Held base s) (L : Layout base)
    (M : Marked base) (h0 : usedBit .block base 0 = true) (Cb : Counts base) (K : Kind) :
    AllocExact K s.fs := by
  have H' := H.alloc L M h0 K
  rcases alloc_cases (H.layout L) (H.marked M) (H.zero_used h0) K with
    ⟨hr, hfs, hfull⟩ | hA
  · refine ⟨fun h => absurd hr h, fun _ => ⟨hfs, fun g hg hh => ?_⟩⟩
    rcases hfull g hg with hz | he
    · exact hh.1 hz
    · exact hh.2.ne_empty he
  · refine ⟨fun hne => ⟨hA.ge, hA.lt, ⟨hA.clear, hA.step.bits⟩, ?_⟩, fun hz => absurd hz hA.pos⟩
    have hmem : (Ext2.alloc K s.fs).1 ∈ (fun K' => if K' = K ∧ (Ext2.alloc K s.fs).1 ≠ 0
        then insert (Ext2.alloc K s.fs).1 (s.held K) else s.held K') K := by
      simp only
      rw [if_pos ⟨trivial, hne⟩]
      exact mem_insert_self _ _
    have hfree := H'.freeExact L Cb hmem
    have H'' := H'.free L Cb hmem
    have hfmt : SameFormat s.fs (Ext2.free K (Ext2.alloc K s.fs).2 (Ext2.alloc K s.fs).1).2 :=
      hA.step.format.trans (free_spec (H'.layout L) hA.pos
        (by rw [hA.step.format.capacity]; exact hA.lt)).format
    have hbits : ∀ K' n, n < capacity K' s.fs →
        usedBit K' (Ext2.free K (Ext2.alloc K s.fs).2 (Ext2.alloc K s.fs).1).2 n
          = usedBit K' s.fs n := by
      intro K' n hn
      rw [hfree.1.2 K' n (by rwa [hA.step.format.capacity]), hA.step.bits K' n hn]
      by_cases hsame : K' = K ∧ n = (Ext2.alloc K s.fs).1 - K.first
      · rw [if_pos hsame, hsame.1, hsame.2, hA.clear]
      · rw [if_neg hsame, if_neg hsame]
    have hclear : ∀ K', ∀ g < s.fs.bgdtSz,
        freeCount K' (Ext2.free K (Ext2.alloc K s.fs).2 (Ext2.alloc K s.fs).1).2 g
          = freeCount K' s.fs g := by
      intro K' g hg
      unfold freeCount groupClear
      rw [hfmt.perGroup]
      refine congrArg Finset.card (clearBits_congr fun k hk => ?_)
      have := hbits K' _ (group_lt_capacity hg hk)
      rwa [usedBit_group hk, ← hfmt.perGroup, usedBit_group (by rwa [hfmt.perGroup])] at this
    have hbgdt : (Ext2.free K (Ext2.alloc K s.fs).2 (Ext2.alloc K s.fs).1).2.bgdtSz
        = s.fs.bgdtSz := hfmt.bgdtSz
    have C := H.counts
    have C'' := H''.counts
    have hsum : ∀ K', ∑ g ∈ range s.fs.bgdtSz,
        freeCount K' (Ext2.free K (Ext2.alloc K s.fs).2 (Ext2.alloc K s.fs).1).2 g
          = ∑ g ∈ range s.fs.bgdtSz, freeCount K' s.fs g := fun K' =>
      Finset.sum_congr rfl fun g hg => hclear K' g (mem_range.mp hg)
    refine ⟨hbits, fun K' g hg => ⟨?_, ?_⟩, fun K' => ⟨?_, ?_⟩⟩
    · rw [C''.count K' g (by rwa [hbgdt]), C.count K' g hg, hclear K' g hg]
    · rw [C''.diskCount K' g (by rwa [hbgdt]), C.diskCount K' g hg, hclear K' g hg]
    · rw [C''.total K', C.total K', hbgdt, hsum]
    · rw [C''.diskTotal K', C.diskTotal K', hbgdt, hsum]

/-- **Bitmaps and free counters agree.** On a volume whose bookkeeping blocks
are marked, every sequence of allocations, and of deallocations of what was
allocated, keeps the bitmaps and all four counters in agreement, in memory
and on the device; every allocation and deallocation on the way is exact. -/
theorem counters_agree {base : Fs} (L : Layout base) (M : Marked base)
    (h0 : usedBit .block base 0 = true) (C : Counts base)
    {s : AllocState} (hrun : Relation.ReflTransGen AllocStep ⟨base, fun _ => ∅⟩ s) :
    Counts s.fs ∧ (∀ K, AllocExact K s.fs) ∧ ∀ K, ∀ r ∈ s.held K, FreeExact K s.fs r :=
  have H := held_of_run L M h0 C hrun
  ⟨H.counts, fun K => H.allocExact L M h0 C K, fun _ _ hr => H.freeExact L C hr⟩

/-! ## A small volume -/

/-- A 32 KiB volume with one group of 32 blocks and 32 inodes, all metadata in
blocks 1 to 8, and the given first words of the two bitmaps. -/
def tinyFs (blockMap inodeMap freeBlocks freeInodes : Nat) : Fs :=
  let zero : Mem := fun _ => 0
  let sb := wr32 (wr32 (wr32 (wr32 zero 12 freeBlocks) 16 freeInodes) 32 32) 40 32
  let bgdt := wr16 (wr16 (wr32 (wr32 (wr32 zero 0 3) 4 4) 8 5) 12 freeBlocks) 14 freeInodes
  { sb := sb
    bgdt := bgdt
    dev := fun x =>
      if x / 1024 = 1 then sb (x - 1024)
      else if x / 1024 = 2 then bgdt (x - 2048)
      else if x / 1024 = 3 then wr32 zero 0 blockMap (x - 3072)
      else if x / 1024 = 4 then wr32 zero 0 inodeMap (x - 4096)
      else 0
    devSz := 32768
    blockSz := 1024
    inodesPerGroup := 32
    bgdtSz := 1
    inodeSz := 128
    bgdtBlockSz := 1
    bgdtOff := 2
    rw := true
    fresh := zero
    critical := 0 }

theorem tinyFs_perGroup (b i fb fi : Nat) (K : Kind) : (tinyFs b i fb fi).perGroup K = 32 := by
  cases K
  · exact (rd32_wr32_of_disjoint (by decide)).trans (rd32_wr32_same _ (by decide))
  · exact rd32_wr32_same _ (by decide)

theorem tinyFs_bitmapNo (b i fb fi : Nat) (K : Kind) :
    (tinyFs b i fb fi).bitmapNo K 0 = 3 + K.first := by
  have hcounts : ∀ {m : Mem} {a : Nat}, a + 4 ≤ 12 →
      rd32 (wr16 (wr16 m 12 fb) 14 fi) a = rd32 m a := fun h => by
    rw [rd32_wr16_of_disjoint (by omega), rd32_wr16_of_disjoint (by omega)]
  cases K
  · show rd32 (wr16 (wr16 _ 12 fb) 14 fi) 0 = 3
    rw [hcounts (by decide), rd32_wr32_of_disjoint (by decide), rd32_wr32_of_disjoint (by decide),
      rd32_wr32_same _ (by decide)]
  · show rd32 (wr16 (wr16 _ 12 fb) 14 fi) 4 = 4
    rw [hcounts (by decide), rd32_wr32_of_disjoint (by decide), rd32_wr32_same _ (by decide)]

theorem tinyFs_bookBlocks (b i fb fi : Nat) : bookBlocks (tinyFs b i fb fi) = [1, 2, 3, 4] := by
  have hsb : sbBlock (tinyFs b i fb fi) = 1 := show 1024 / 1024 = 1 by decide
  have hsz : (tinyFs b i fb fi).bgdtSz = 1 := rfl
  have hbsz : (tinyFs b i fb fi).bgdtBlockSz = 1 := rfl
  have hoff : (tinyFs b i fb fi).bgdtOff = 2 := rfl
  simp [bookBlocks, hsb, hsz, hbsz, hoff, List.range_succ, tinyFs_bitmapNo, Kind.first]

theorem tinyFs_layout (b i fb fi : Nat) : Layout (tinyFs b i fb fi) where
  dev := show 32768 ≤ 2 ^ 32 by decide
  blockSz := ⟨0, by decide, rfl⟩
  sbIn := show 1024 + 236 ≤ 32768 by decide
  bgdtOff := rfl
  bgdtFits := show 32 * 1 ≤ 1 * 1024 by decide
  words := fun K => by rw [tinyFs_perGroup]
  fits := fun K => by rw [tinyFs_perGroup]; show 32 ≤ 8 * 1024; decide
  numbers := fun K => by rw [tinyFs_perGroup]; show 1 * 32 < 2 ^ 32; decide
  distinct := by rw [tinyFs_bookBlocks]; decide
  bgdtIn := fun i hi => by
    obtain rfl : i = 0 := Nat.lt_one_iff.mp hi
    exact ⟨Nat.succ_pos 1, show 3 * 1024 ≤ 32768 by decide⟩
  bitmapIn := fun K g hg => by
    obtain rfl : g = 0 := Nat.lt_one_iff.mp hg
    rw [InVol, tinyFs_bitmapNo]
    exact ⟨by omega, show (3 + K.first + 1) * 1024 ≤ 32768 by cases K <;> decide⟩

/-- The volume with exactly its metadata blocks marked. -/
abbrev freshFs : Fs := tinyFs 0x1ff 0x7ff 23 21

theorem freshFs_tidy : Marked freshFs ∧ Counts freshFs ∧ usedBit .block freshFs 0 = true := by
  have hmarked : ∀ b ∈ [1, 2, 3, 4], usedBit .block freshFs b = true := by decide +kernel
  have hcap : capacity .block freshFs = 32 := by
    rw [capacity, tinyFs_perGroup]
    rfl
  refine ⟨⟨fun b hb _ => ?_, fun b hlt _ => ?_⟩,
    ⟨fun K g hg => ?_, fun K => by cases K <;> decide +kernel, fun K g hg => ?_,
      fun K => by cases K <;> decide +kernel⟩, by decide +kernel⟩
  · rw [tinyFs_bookBlocks] at hb
    exact hmarked b hb
  · rcases Nat.eq_zero_or_pos b with hb | hb
    · exact Or.inr hb
    · exact Or.inl ⟨hb, show (b + 1) * 1024 ≤ 32768 by omega⟩
  · obtain rfl : g = 0 := Nat.lt_one_iff.mp hg
    cases K <;> decide +kernel
  · obtain rfl : g = 0 := Nat.lt_one_iff.mp hg
    cases K <;> decide +kernel

theorem freshFs_marked : Marked freshFs := freshFs_tidy.1

/-- One block allocated and given back again on `freshFs`. -/
theorem counters_agree_freshFs :
    Counts (free .block (alloc .block freshFs).2 (alloc .block freshFs).1).2 := by
  have hne : (alloc .block freshFs).1 ≠ 0 := by decide +kernel
  have halloc := AllocStep.alloc .block ⟨freshFs, fun _ => ∅⟩
  obtain ⟨s, hs⟩ : ∃ s : AllocState, s = ⟨(alloc .block freshFs).2, fun K' =>
      if K' = .block ∧ (alloc .block freshFs).1 ≠ 0
      then insert (alloc .block freshFs).1 ∅ else ∅⟩ := ⟨_, rfl⟩
  have hmem : (alloc .block freshFs).1 ∈ s.held .block := by
    rw [hs]
    simp only
    rw [if_pos ⟨trivial, hne⟩]
    exact mem_insert_self _ _
  have hfree := AllocStep.free .block s hmem
  have hfs : s.fs = (alloc .block freshFs).2 := by rw [hs]
  rw [← hfs]
  rw [← hs] at halloc
  obtain ⟨hmarked, hcounts, hzero⟩ := freshFs_tidy
  exact (counters_agree (tinyFs_layout _ _ _ _) hmarked hzero hcounts
    ((Relation.ReflTransGen.single halloc).tail hfree)).1

/-- Without the marking the agreement breaks. Here the counters agree with the
bitmaps and bit 0 is set, but the bitmap's own block is marked free: it is
allocated, and zeroed. -/
theorem alloc_breaks_unmarked_bitmap :
    Layout (tinyFs 7 0x7ff 29 21) ∧ Counts (tinyFs 7 0x7ff 29 21)
      ∧ usedBit .block (tinyFs 7 0x7ff 29 21) 0 = true
      ∧ ¬Counts (allocBlock (tinyFs 7 0x7ff 29 21)).2 := by
  refine ⟨tinyFs_layout _ _ _ _, ⟨?_, ?_, ?_, ?_⟩, by decide +kernel, fun C => ?_⟩
  · intro K g hg
    obtain rfl : g = 0 := Nat.lt_one_iff.mp hg
    cases K <;> decide +kernel
  · intro K; cases K <;> decide +kernel
  · intro K g hg
    obtain rfl : g = 0 := Nat.lt_one_iff.mp hg
    cases K <;> decide +kernel
  · intro K; cases K <;> decide +kernel
  · have := C.count .block 0 (by decide +kernel)
    revert this
    decide +kernel

end Ext2

end Shitos
