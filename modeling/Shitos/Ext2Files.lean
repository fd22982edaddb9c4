import Shitos.Ext2Inodes

/-!
# Files side by side

What an operation on one inode does to another file: `Elsewhere S fs fs'` says
that blocks in use stay in use and that only bookkeeping and the blocks of `S`
have been written. A file with no block in `S` keeps its bytes
(`Mapped.elsewhere`).

A volume with one block group has a place for every inode number, in blocks that
no file has (`OneGroup.apart`).
-/

namespace Shitos

namespace Ext2

open PtrTree

/-- Blocks in use have stayed in use, and besides the bookkeeping only blocks of
`S` have been written. -/
structure Elsewhere (S : Set Nat) (fs fs' : Fs) : Prop where
  format : SameFormat fs fs'
  volume : Volume fs'
  used : ∀ b < capacity .block fs, usedBit .block fs b = true → usedBit .block fs' b = true
  critical : fs.critical ≤ fs'.critical
  blk : ∀ b, b ∉ bookBlocks fs → b ∉ S → ∀ i < fs.blockSz, blk fs' b i = blk fs b i

section Elsewhere

variable {p n t : Nat} {fs fs₁ fs' : Fs} {f f' : File} {S T : Set Nat} {bs new : List Nat}

theorem BitRun.elsewhere (h : BitRun bs true S fs fs') (V : Volume fs) : Elsewhere S fs fs' :=
  ⟨h.format, V.of_taken h, fun _ hb hu => h.used hb hu, h.critical,
    fun _ hbook hS _ hi => h.blk_eq hbook hS hi⟩

/-- Taking an inode writes bookkeeping blocks only. -/
theorem BitStep.elsewhere {r : Nat} (h : BitStep .inode fs r true S fs') (V : Volume fs) :
    Elsewhere S fs fs' := by
  have hbits : ∀ b < capacity .block fs, usedBit .block fs' b = usedBit .block fs b :=
    fun b hb => (h.bits .block b hb).trans (if_neg fun hk => nomatch hk.1)
  have hcap := h.format.capacity .block
  refine ⟨h.format, ⟨V.toLayout.of_sameFormat h.format, ⟨fun b hb hlt => ?_, fun b hlt hclear => ?_⟩,
    fun hpos => ?_⟩, fun b hb hu => (hbits b hb).trans hu, Nat.le_of_eq h.critical.symm,
    fun b hbook hS i hi => h.frame.blk_eq h.format.blockSz (not_or.mpr ⟨hbook, hS⟩) hi⟩
  · rw [hcap] at hlt
    rw [h.format.bookBlocks] at hb
    exact (hbits b hlt).trans (V.book b hb hlt)
  · rw [hcap] at hlt
    rw [h.format.inVol]
    exact V.padded b hlt ((hbits b hlt).symm.trans hclear)
  · rw [hcap] at hpos
    exact (hbits 0 hpos).trans (V.zeroUsed hpos)

theorem Elsewhere.taken (h : Elsewhere S fs fs') {b : Nat} (hb : Taken fs b) : Taken fs' b := by
  intro hlt
  rw [h.format.capacity] at hlt
  exact h.used b hlt (hb hlt)

/-- The inode keeps its bytes if its home block is not written. -/
theorem Elsewhere.inode (h : Elsewhere S fs fs') (H : Homed fs t) (hS : home fs t ∉ S) :
    Agree (diskInode fs' t) (diskInode fs t) 0 fs.inodeSz := fun i _ hi => by
  have hfits := H.fits
  rw [diskInode, diskInode, h.format.home, h.format.homeOff]
  exact h.blk _ H.notBook hS _ (by omega)

/-- A file none of whose blocks are written keeps its blocks. -/
theorem Owned.elsewhere (O : Owned p f) (h : Elsewhere S f.fs fs')
    (hS : ∀ x, (tree p).Valid x → f.at x ≠ 0 → f.at x ∉ S) :
    Owned p { f with fs := fs' }
      ∧ ∀ x, (tree p).Valid x → File.at { f with fs := fs' } x = f.at x := by
  have hptrs : Ext2.ptrs fs' = Ext2.ptrs f.fs := by rw [Ext2.ptrs, Ext2.ptrs, h.format.blockSz]
  have hat : ∀ x, (tree p).Valid x → File.at { f with fs := fs' } x = f.at x :=
    node_congr (fun _ _ => rfl) fun y hy h0 i hi => by
      have hb := O.block y hy.toValid h0
      exact entry_congr (h.blk _ hb.notBook (hS y hy.toValid h0)) (by rw [O.ptrs]; exact hi)
  refine ⟨⟨hptrs.trans O.ptrs, h.volume, O.homed.of_sameFormat h.format, ?_, fun x hx h0 => ?_,
    fun x y hx hy h0 heq => ?_⟩, hat⟩
  · show Taken fs' (home fs' f.no)
    rw [h.format.home]
    exact h.taken O.homeTaken
  · rw [hat x hx] at h0 ⊢
    have hb := O.block x hx h0
    refine ⟨(h.format.inVol _).mpr hb.inVol, ?_, ?_, ?_, h.used _ hb.lt hb.used⟩
    · show _ ∉ bookBlocks fs'
      rw [h.format.bookBlocks]
      exact hb.notBook
    · show _ ≠ home fs' f.no
      rw [h.format.home]
      exact hb.notHome
    · show _ < capacity .block fs'
      rw [h.format.capacity]
      exact hb.lt
  · have hxe : node (iBlock f.ino) (entry fs') x = f.at x := hat x hx
    have hye : node (iBlock f.ino) (entry fs') y = f.at y := hat y hy
    have h0' : f.at x ≠ 0 := hxe ▸ h0
    have heq' : f.at x = f.at y := hxe.symm.trans (heq.trans hye)
    exact O.separate x y hx hy h0' heq'

/-- **A file keeps its bytes** while other blocks are written. -/
theorem Mapped.elsewhere (H : Mapped p n f) (h : Elsewhere S f.fs fs')
    (hS : ∀ x, (tree p).Valid x → f.at x ≠ 0 → f.at x ∉ S) :
    Mapped p n { f with fs := fs' } ∧ File.data p n { f with fs := fs' } = f.data p n
      ∧ ∀ x, (tree p).Valid x → File.at { f with fs := fs' } x = f.at x := by
  obtain ⟨hO, hat⟩ := H.toOwned.elsewhere h hS
  have hbs := h.format.blockSz
  have hleaf := fun k hk => (@leafPos_valid p k H.tables.pos hk).1
  refine ⟨⟨hO, fun k hk => ?_, ?_, ?_, H.limit⟩,
    @File.data_congr p n n f { f with fs := fs' } hbs H.pos fun k i hi => ?_, hat⟩
  · rw [hat _ (hleaf k hk)]
    exact H.leaf k hk
  · show iBlocks f.ino = sectors fs' n
    rw [H.count, sectors_congr hbs]
  · show sectors fs' n < 2 ^ 32
    rw [sectors_congr hbs]
    exact H.small
  · by_cases hk : k < n
    · have hmax := Nat.lt_of_lt_of_le hk H.limit
      rw [if_pos hk, if_pos hk, hat _ (hleaf k hmax)]
      exact h.blk _ (H.block_live hk).notBook (hS _ (hleaf k hmax) ((H.leaf k hmax).mpr hk)) i hi
    · rw [if_neg hk, if_neg hk]

end Elsewhere

/-! ## The same file as before -/

/-- File `t` has the inode and the blocks it had, with their bytes. -/
structure SameFile (p : Nat) (fs fs' : Fs) (t : Nat) : Prop where
  inode : Agree (diskInode fs' t) (diskInode fs t) 0 128
  at_eq : ∀ x, (tree p).Valid x → (fileOf fs' t).at x = (fileOf fs t).at x
  owned : Owned p (fileOf fs' t)
  mapped : ∀ n, Mapped p n (fileOf fs t) →
    Mapped p n (fileOf fs' t) ∧ (fileOf fs' t).data p n = (fileOf fs t).data p n

section SameFile

variable {p n t : Nat} {fs fs₁ fs' : Fs} {f f' : File} {S : Set Nat} {new : List Nat}

/-- A file is the same if its inode keeps its bytes and none of its blocks are
written. -/
theorem Elsewhere.sameFile (h : Elsewhere S fs fs') (O : Owned p (fileOf fs t))
    (hS : ∀ x, (tree p).Valid x → (fileOf fs t).at x ≠ 0 → (fileOf fs t).at x ∉ S)
    (hino : Agree (diskInode fs' t) (diskInode fs t) 0 128) : SameFile p fs fs' t := by
  obtain ⟨hO, hat⟩ := O.elsewhere h hS
  have hcopy := @File.at_of_agree p { fileOf fs t with fs := fs' } (diskInode fs' t) [] hino
  refine ⟨hino, fun x hx => (hcopy x hx).trans (hat x hx), ?_, fun n hm => ?_⟩
  · exact @Owned.run p { fileOf fs t with fs := fs' } (fileOf fs' t) [] ∅ hO (BitRun.refl fs') rfl
      hcopy
  · obtain ⟨hm', hd, -⟩ := hm.elsewhere h hS
    obtain ⟨hm₂, hd₂, -⟩ := @Mapped.of_agree p n _ hm' (diskInode fs' t) [] hino
    exact ⟨hm₂, hd₂.trans hd⟩

/-- What is done to `f` leaves a file alone that lies apart from it. -/
theorem Changed.sameFile (h : Changed p new f f') (V : Volume f.fs) (A : Apart p f t)
    (O : Owned p (fileOf f.fs t))
    (hout : ∀ x, (tree p).Valid x → (fileOf f.fs t).at x ≠ 0 →
      (fileOf f.fs t).at x ∉ span p f) : SameFile p f.fs f'.fs t := by
  refine (h.run.elsewhere V).sameFile O (fun x hx h0 hmem => ?_)
    ((h.untouched A).inode.mono (Nat.le_refl 0) (Nat.add_le_add_left A.homed.size 0))
  rcases hmem with hnew | hspan
  · exact (O.block x hx h0).taken.not_mem h.run hnew
  · exact hout x hx h0 hspan

/-- A saved file is on the device as it is in memory. -/
theorem Mapped.onDisk (H : Mapped p n f) (hs : Saved f) :
    Mapped p n (fileOf f.fs f.no) ∧ (fileOf f.fs f.no).data p n = f.data p n
      ∧ (∀ x, (tree p).Valid x → (fileOf f.fs f.no).at x = f.at x)
      ∧ iSize (diskInode f.fs f.no) = iSize f.ino := by
  have h : Agree (diskInode f.fs f.no) f.ino 0 128 :=
    Agree.mono hs (Nat.le_refl 0) (Nat.add_le_add_left H.homed.size 0)
  obtain ⟨hm, hd, -⟩ := @Mapped.of_agree p n f H (diskInode f.fs f.no) [] h
  exact ⟨hm, hd, File.at_of_agree h, iSize_congr h⟩

end SameFile

/-! ## The inodes of a volume with one group -/

/-- A mounted volume with one block group: the inode table follows the format, in
blocks of its own, which the block bitmap marks. -/
structure OneGroup (fs : Fs) : Prop extends Volume fs where
  one : fs.bgdtSz = 1
  small : fs.devSz < 2 ^ 31
  perGroup : fs.inodesPerGroup = fs.perGroup .inode
  inodeSz : 128 ≤ fs.inodeSz ∧ fs.inodeSz ∣ fs.blockSz
  table : ∀ k, k * fs.blockSz < fs.inodesPerGroup * fs.inodeSz →
    InVol fs (fs.inodeTable 0 + k) ∧ fs.inodeTable 0 + k ∉ bookBlocks fs
      ∧ Taken fs (fs.inodeTable 0 + k)

/-- The numbers of inodes. -/
def Number (fs : Fs) (t : Nat) : Prop := t ≠ 0 ∧ t ≤ capacity .inode fs

theorem Number.lt {fs : Fs} {t : Nat} (h : Number fs t) : t - 1 < capacity .inode fs := by
  obtain ⟨hpos, hle⟩ := h
  omega

section OneGroup

variable {fs fs' : Fs} {S : Set Nat} {t u : Nat}

/-- Where inode `t` is: `t - 1` places into the table. -/
theorem OneGroup.slot (G : OneGroup fs) (ht : Number fs t) :
    (t - 1) * fs.inodeSz < fs.inodesPerGroup * fs.inodeSz
      ∧ home fs t = fs.inodeTable 0 + (t - 1) * fs.inodeSz / fs.blockSz
      ∧ homeOff fs t = (t - 1) * fs.inodeSz % fs.blockSz := by
  obtain ⟨hpos, hle⟩ := ht
  have hcap : capacity .inode fs = fs.inodesPerGroup := by
    rw [capacity, G.one, Nat.one_mul, G.perGroup]
  rw [hcap] at hle
  have hisz := G.inodeSz.1
  have hbs := G.toVolume.blockSz_pos
  have hlt : (t - 1) * fs.inodeSz < fs.inodesPerGroup * fs.inodeSz :=
    Nat.mul_lt_mul_of_pos_right (by omega) (by omega)
  have hdm := Nat.div_mul_le_self ((t - 1) * fs.inodeSz) fs.blockSz
  -- the table lies on the device
  have hin := (G.table ((t - 1) * fs.inodeSz / fs.blockSz) (by omega)).1.2
  have hdev := G.small
  have hmod := Nat.mod_lt ((t - 1) * fs.inodeSz) hbs
  have hsplit := Nat.div_add_mod' ((t - 1) * fs.inodeSz) fs.blockSz
  have hblock : fs.inodeTable 0 + (t - 1) * fs.inodeSz / fs.blockSz
      ≤ (fs.inodeTable 0 + (t - 1) * fs.inodeSz / fs.blockSz) * fs.blockSz :=
    Nat.le_mul_of_pos_right _ hbs
  rw [Nat.add_mul, Nat.add_mul, Nat.one_mul] at hin
  rw [Nat.add_mul] at hblock
  have hdiv : (t - 1) / fs.inodesPerGroup = 0 := Nat.div_eq_of_lt (by omega)
  have hrem : (t - 1) % fs.inodesPerGroup = t - 1 := Nat.mod_eq_of_lt (by omega)
  have hword : (t - 1) * fs.inodeSz % 2 ^ 32 = (t - 1) * fs.inodeSz := Nat.mod_eq_of_lt (by omega)
  refine ⟨hlt, ?_, ?_⟩
  · unfold home inodeSlot
    rw [hdiv, hword]
    exact Nat.mod_eq_of_lt (by omega)
  · unfold homeOff inodeSlot
    simp only [hrem, hword]

theorem OneGroup.homed (G : OneGroup fs) (ht : Number fs t) :
    Homed fs t ∧ Taken fs (home fs t) := by
  obtain ⟨hlt, hhome, hoff⟩ := G.slot ht
  have hdm := Nat.div_mul_le_self ((t - 1) * fs.inodeSz) fs.blockSz
  obtain ⟨hin, hbook, htaken⟩ := G.table ((t - 1) * fs.inodeSz / fs.blockSz) (by omega)
  obtain ⟨hisz, c, hc⟩ := G.inodeSz
  have hcap : capacity .inode fs = fs.inodesPerGroup := by
    rw [capacity, G.one, Nat.one_mul, G.perGroup]
  have hle := ht.2
  rw [hcap] at hle
  rw [← hhome] at hin hbook htaken
  refine ⟨⟨⟨ht.1, ?_⟩, hin, hbook, ?_, hisz⟩, htaken⟩
  · rw [Nat.div_eq_of_lt (by have := ht.1; omega)]
    exact Nat.zero_le _
  · -- the inode size divides the block size, so no inode crosses the end of a block
    have hbs := G.toVolume.blockSz_pos
    rw [hc] at hbs
    have hmod : (t - 1) * fs.inodeSz % fs.blockSz = fs.inodeSz * ((t - 1) % c) := by
      rw [hc, Nat.mul_comm (t - 1), Nat.mul_mod_mul_left]
    have hlt' := Nat.mod_lt (t - 1) (Nat.pos_of_mul_pos_left hbs)
    have hmul := Nat.mul_le_mul_left fs.inodeSz (show (t - 1) % c + 1 ≤ c from hlt')
    rw [hoff, hmod, hc]
    rw [Nat.mul_add, Nat.mul_one] at hmul
    exact hmul

/-- Two inodes in one block lie one behind the other. -/
theorem OneGroup.slots_apart (G : OneGroup fs) (ht : Number fs t) (hu : Number fs u) (hne : t ≠ u)
    (h : home fs t = home fs u) : homeOff fs t + fs.inodeSz ≤ homeOff fs u
      ∨ homeOff fs u + fs.inodeSz ≤ homeOff fs t := by
  obtain ⟨-, ht₁, ht₂⟩ := G.slot ht
  obtain ⟨-, hu₁, hu₂⟩ := G.slot hu
  have htd := Nat.div_add_mod' ((t - 1) * fs.inodeSz) fs.blockSz
  have hud := Nat.div_add_mod' ((u - 1) * fs.inodeSz) fs.blockSz
  have hdiv : (t - 1) * fs.inodeSz / fs.blockSz = (u - 1) * fs.inodeSz / fs.blockSz := by omega
  rw [hdiv] at htd
  have htpos := ht.1
  have hupos := hu.1
  rcases Nat.lt_or_gt_of_ne hne with hlt | hlt
  · have hmul := Nat.mul_le_mul_right fs.inodeSz (show t - 1 + 1 ≤ u - 1 by omega)
    rw [Nat.add_mul, Nat.one_mul] at hmul
    omega
  · have hmul := Nat.mul_le_mul_right fs.inodeSz (show u - 1 + 1 ≤ t - 1 by omega)
    rw [Nat.add_mul, Nat.one_mul] at hmul
    omega

theorem OneGroup.elsewhere (G : OneGroup fs) (h : Elsewhere S fs fs') : OneGroup fs' where
  toVolume := h.volume
  one := h.format.bgdtSz.trans G.one
  small := by rw [h.format.devSz]; exact G.small
  perGroup := by rw [h.format.inodesPerGroup, h.format.perGroup]; exact G.perGroup
  inodeSz := by rw [h.format.inodeSz, h.format.blockSz]; exact G.inodeSz
  table := by
    intro k hk
    rw [h.format.blockSz, h.format.inodesPerGroup, h.format.inodeSz] at hk
    obtain ⟨hin, hbook, htaken⟩ := G.table k hk
    rw [h.format.inodeTable, h.format.inVol, h.format.bookBlocks]
    exact ⟨hin, hbook, h.taken htaken⟩

/-- File `t` has no block that holds inodes. -/
def OffTable (p : Nat) (fs : Fs) (t : Nat) : Prop :=
  ∀ x, (tree p).Valid x → (fileOf fs t).at x ≠ 0 → ∀ u, Number fs u →
    (fileOf fs t).at x ≠ home fs u

theorem SameFormat.number (h : SameFormat fs fs') : Number fs' t ↔ Number fs t := by
  rw [Number, Number, h.capacity]

theorem OffTable.same {p : Nat} (hoff : OffTable p fs t) (h : SameFile p fs fs' t)
    (hf : SameFormat fs fs') : OffTable p fs' t := fun x hx h0 u hu => by
  rw [h.at_eq x hx] at h0 ⊢
  rw [hf.home]
  exact hoff x hx h0 u (hf.number.mp hu)

/-- An inode lies apart from a file if the file has no block of the table. -/
theorem OneGroup.apart {p : Nat} {f : File} (G : OneGroup f.fs) (hf : Number f.fs f.no)
    (ht : Number f.fs t) (hne : t ≠ f.no)
    (hblock : ∀ x, (tree p).Valid x → f.at x ≠ 0 → f.at x ≠ home f.fs t) : Apart p f t :=
  ⟨(G.homed ht).1, (G.homed ht).2, G.slots_apart ht hf hne, hblock⟩

/-- `write_inode` leaves the other files alone. -/
theorem OneGroup.writeInode {p : Nat} (G : OneGroup fs) (hu : Number fs u) (ht : Number fs t)
    (hne : t ≠ u) (O : Owned p (fileOf fs t)) (hoff : OffTable p fs t) (ino : Mem) :
    Elsewhere {home fs u} fs (Ext2.writeInode fs ino u).2
      ∧ SameFile p fs (Ext2.writeInode fs ino u).2 t := by
  have hr := @writeInode_run _ _ true G.toVolume (G.homed hu).1 ino
  have h := hr.elsewhere G.toVolume
  have hzero : ∀ x, (tree p).Valid x → File.at ⟨fs, fun _ => 0, u, []⟩ x = 0 := fun x _ =>
    node_of_root rfl
  have A : Apart p ⟨fs, fun _ => 0, u, []⟩ t :=
    G.apart hu ht hne fun x hx h0 => absurd (hzero x hx) h0
  have hkept : Untouched fs (Ext2.writeInode fs ino u).2 t :=
    @Apart.untouched p t ⟨fs, fun _ => 0, u, []⟩ ⟨(Ext2.writeInode fs ino u).2, ino, u, []⟩
      [] [] true _ A hr (fun b hb => Or.inr (Or.inl hb)) List.not_mem_nil fun i hi hout =>
        (writeInode_blk G.toVolume (G.homed hu).1 ino hi).trans (if_neg hout)
  exact ⟨h, h.sameFile O (fun x hx h0 hmem => hoff x hx h0 u hu hmem)
    (hkept.inode.mono (Nat.le_refl 0) (by have := G.inodeSz.1; omega))⟩

end OneGroup

/-! ## The small volume -/

theorem freshFs_oneGroup : OneGroup freshFs where
  toVolume := freshFs_volume
  one := rfl
  small := by decide
  perGroup := (tinyFs_perGroup _ _ _ _ .inode).symm
  inodeSz := ⟨Nat.le_refl 128, 8, rfl⟩
  table := by
    intro k hk
    have hk : k < 4 := by
      change k * 1024 < 32 * 128 at hk
      omega
    rw [show freshFs.inodeTable 0 = 5 by decide +kernel, tinyFs_bookBlocks]
    refine ⟨⟨by omega, ?_⟩, ?_, fun _ => ?_⟩
    · show (5 + k + 1) * 1024 ≤ 32768
      omega
    · simp only [List.mem_cons, List.not_mem_nil, or_false]
      omega
    · have hall : ∀ k < 4, usedBit .block freshFs (5 + k) = true := by decide +kernel
      exact hall k hk

end Ext2

end Shitos
