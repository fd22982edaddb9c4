import Shitos.Ext2Files

/-!
# Files are arrays of bytes

On a volume with one group whose files lie apart (`Laid`), writing to a file
changes the bytes of the range and no others: not those of the same file, and
not those of the other files (`write_splices`).

For this the mapped blocks of a file have to be its first blocks, and what they
hold past the size has to be zero, not in the last block alone (`WellFormed`).
With less than that there are volumes on which a write brings old bytes back
into the file, or gets lost (`write_splices_limits`).
-/

namespace Shitos

namespace Ext2

open PtrTree

/-- Inode `t` has `size` bytes, which are those of `d` wherever they are read. -/
def Contents (fs : Fs) (t size : Nat) (d : Mem) : Prop :=
  ∃ ino, readInode fs t = some ino ∧ iSize ino = size
    ∧ ∀ off sz buf, off < size → 0 < sz → off + sz < 2 ^ 32 →
      readBufferInode fs ino off sz buf = (min sz (size - off),
        fun i => if i < min sz (size - off) then d (off + i) else buf i)

/-- The first `size` bytes of `d`, zeros behind them, and `buf` spliced in at `off`. -/
def splice (d : Mem) (size off sz : Nat) (buf : Mem) : Mem := fun x =>
  if off ≤ x ∧ x < off + sz then buf (x - off) else if x < size then d x else 0

/-- The inodes of `I` have blocks in use that are reached once, by one of them, and
hold neither bookkeeping nor inodes. -/
structure Laid (p : Nat) (I : Set Nat) (fs : Fs) : Prop extends OneGroup fs where
  number : ∀ t ∈ I, Number fs t
  owned : ∀ t ∈ I, Owned p (fileOf fs t)
  offTable : ∀ t ∈ I, OffTable p fs t
  apart : ∀ t ∈ I, ∀ u ∈ I, t ≠ u → ∀ x y, (tree p).Valid x → (tree p).Valid y →
    (fileOf fs t).at x ≠ 0 → (fileOf fs t).at x ≠ (fileOf fs u).at y

/-- The first `n` blocks of file `t` are mapped. They cover its size, and hold zeros
past it. -/
structure Stored (p n : Nat) (fs : Fs) (t : Nat) : Prop where
  mapped : Mapped p n (fileOf fs t)
  covers : iSize (diskInode fs t) ≤ n * fs.blockSz
  padded : ∀ x, iSize (diskInode fs t) ≤ x → (fileOf fs t).data p n x = 0

structure WellFormed (p : Nat) (I : Set Nat) (fs : Fs) : Prop extends Laid p I fs where
  stored : ∀ t ∈ I, ∃ n, Stored p n fs t

section Contents

variable {p n t size : Nat} {fs : Fs} {d : Mem}

/-- A file has the contents that its blocks hold. -/
theorem Mapped.contents_iff (H : Mapped p n (fileOf fs t)) : Contents fs t size d
    ↔ iSize (diskInode fs t) = size ∧ ∀ x < size, (fileOf fs t).data p n x = d x := by
  obtain ⟨ino, hread, hm, hdata, hagree, -⟩ := H.reread fun _ _ _ => rfl
  have hsize : iSize ino = iSize (diskInode fs t) := iSize_congr hagree
  have hlt : iSize ino < 2 ^ 32 := rd32_lt ino 4
  constructor
  · rintro ⟨ino', hread', rfl, hall⟩
    obtain rfl : ino = ino' := Option.some.inj (hread.symm.trans hread')
    refine ⟨hsize.symm, fun x hx => ?_⟩
    -- read this byte alone
    have hlast : x + 1 < 2 ^ 32 := by omega
    have hmin : min 1 (iSize ino - x) = 1 := by omega
    have h₁ := hall x 1 (fun _ => 0) hx Nat.one_pos hlast
    have h₂ := @Mapped.readBufferInode_eq p n _ x 1 hm hlast
      (show 0 < min 1 (iSize ino - x) by omega) fun _ => 0
    have h := congrFun (congrArg Prod.snd (h₂.symm.trans h₁)) 0
    simp only [hmin, hdata] at h
    simpa using h
  · rintro ⟨rfl, hbytes⟩
    refine ⟨ino, hread, hsize, fun off sz buf hoff hsz h => ?_⟩
    have hsome : 0 < min sz (iSize ino - off) := by omega
    refine (@Mapped.readBufferInode_eq p n _ off sz hm h hsome buf).trans ?_
    refine Prod.ext (by rw [← hsize]) (funext fun i => ?_)
    show (if i < min sz (iSize ino - off) then _ else buf i)
      = if i < min sz (iSize (diskInode fs t) - off) then d (off + i) else buf i
    rw [hsize, hdata]
    by_cases hi : i < min sz (iSize (diskInode fs t) - off)
    · rw [if_pos hi, if_pos hi, hbytes _ (by omega)]
    · rw [if_neg hi, if_neg hi]

end Contents

/-! ## What a write leaves alone -/

section Write

variable {p n m t d : Nat} {I : Set Nat} {fs : Fs} {f f' : File} {new : List Nat}

/-- What is done to one file of `I` keeps the volume laid out, and the other files
as they are. -/
theorem Laid.changed (L : Laid p I f.fs) (hI : f.no ∈ I)
    (hat : ∀ x, (tree p).Valid x → f.at x = (fileOf f.fs f.no).at x) (h : Changed p new f f')
    (hat' : ∀ x, (tree p).Valid x → (fileOf f'.fs f.no).at x = f'.at x)
    (hO : Owned p (fileOf f'.fs f.no)) :
    Laid p I f'.fs ∧ ∀ u ∈ I, u ≠ f.no → SameFile p f.fs f'.fs u := by
  have hE := h.run.elsewhere L.toVolume
  have hsame : ∀ u ∈ I, u ≠ f.no → SameFile p f.fs f'.fs u := by
    intro u hu hne
    have A : Apart p f u := L.toOneGroup.apart (L.number _ hI) (L.number u hu) hne
      fun x hx h0 => by
        rw [hat x hx] at h0 ⊢
        exact L.offTable _ hI x hx h0 u (L.number u hu)
    refine h.sameFile L.toVolume A (L.owned u hu) fun x hx h0 hmem => ?_
    rcases hmem with hhome | ⟨y, hy, -, heq⟩
    · exact L.offTable u hu x hx h0 _ (L.number _ hI) hhome
    · rw [hat y hy] at heq
      exact L.apart u hu _ hI hne x y hx hy h0 heq.symm
  -- a block of the file was one before, or has just been taken
  have hblock : ∀ x, (tree p).Valid x → (fileOf f'.fs f.no).at x = (fileOf f.fs f.no).at x
      ∨ (fileOf f'.fs f.no).at x ∈ new := fun x hx => by
    rw [hat' x hx, ← hat x hx]
    exact h.pointer x hx
  have hforeign : ∀ u ∈ I, u ≠ f.no → ∀ x y, (tree p).Valid x → (tree p).Valid y →
      (fileOf f'.fs u).at y ≠ 0 → (fileOf f'.fs f.no).at x ≠ (fileOf f'.fs u).at y := by
    intro u hu hne x y hx hy h0 heq
    rw [(hsame u hu hne).at_eq y hy] at h0 heq
    rcases hblock x hx with hold | hnew
    · exact L.apart u hu _ hI hne y x hy hx h0 (heq.symm.trans hold)
    · rw [heq] at hnew
      exact ((L.owned u hu).block y hy h0).taken.not_mem h.run hnew
  refine ⟨⟨L.toOneGroup.elsewhere hE, fun u hu => hE.format.number.mpr (L.number u hu), fun u hu => ?_,
    fun u hu => ?_, fun u hu v hv huv x y hx hy h0 heq => ?_⟩, hsame⟩
  · by_cases hne : u = f.no
    · rwa [hne]
    · exact (hsame u hu hne).owned
  · by_cases hne : u = f.no
    · subst hne
      intro x hx h0 v hv
      rw [hE.format.number] at hv
      rw [hE.format.home]
      rcases hblock x hx with hold | hnew
      · rw [hold] at h0 ⊢
        exact L.offTable _ hI x hx h0 v hv
      · exact fun heq => (L.toOneGroup.homed hv).2.not_mem h.run (heq ▸ hnew)
    · exact (L.offTable u hu).same (hsame u hu hne) hE.format
  · by_cases hun : u = f.no
    · subst hun
      exact hforeign v hv (Ne.symm huv) x y hx hy (heq ▸ h0) heq
    · by_cases hvn : v = f.no
      · subst hvn
        exact hforeign u hu hun y x hy hx h0 heq.symm
      · rw [(hsame u hu hun).at_eq x hx] at h0 heq
        rw [(hsame v hv hvn).at_eq y hy] at heq
        exact L.apart u hu v hv huv x y hx hy h0 heq

theorem Stored.same (h : Stored p n fs t) {fs' : Fs} (hs : SameFile p fs fs' t)
    (hbs : fs'.blockSz = fs.blockSz) : Stored p n fs' t := by
  obtain ⟨hm, hdata⟩ := hs.mapped n h.mapped
  have hsize : iSize (diskInode fs' t) = iSize (diskInode fs t) := iSize_congr hs.inode
  refine ⟨hm, ?_, ?_⟩
  · rw [hsize, hbs]
    exact h.covers
  · rw [hsize, hdata]
    exact h.padded

/-- **Files are arrays of bytes.** If no allocation fails, writing to a file of a
well-formed volume splices the bytes in, with zeros before them if the file ended
before, and the other files are as they were. -/
theorem write_splices {off sz N : Nat} {ino buf : Mem} (W : WellFormed p I fs) (ht : t ∈ I)
    (hread : readInode fs t = some ino) (hsz : 0 < sz) (h : off + sz < 2 ^ 31)
    (hN : (off + sz - 1) / fs.blockSz < N) :
    ∃ f', writeBufferInode N ⟨fs, ino, t, []⟩ off sz buf = some (sz, f')
      ∧ (f'.fs.critical = fs.critical → WellFormed p I f'.fs
        ∧ (∀ {size : Nat} {d : Mem}, Contents fs t size d →
          Contents f'.fs t (max size (off + sz)) (splice d size off sz buf))
        ∧ ∀ u ∈ I, u ≠ t → ∀ {size : Nat} {d : Mem}, Contents fs u size d →
          Contents f'.fs u size d) := by
  obtain ⟨n, hstored⟩ := W.stored t ht
  have H := (W.toOneGroup.homed (W.number t ht)).1
  obtain ⟨ino', hread', hagree⟩ := readInode_agree W.dev H
  obtain rfl : ino = ino' := Option.some.inj (hread.symm.trans hread')
  have hcopy : Agree ino (fileOf fs t).ino 0 128 :=
    hagree.mono (Nat.le_refl 0) (by have := H.size; omega)
  obtain ⟨hm, hdata, -⟩ := @Mapped.of_agree p n _ hstored.mapped ino [] hcopy
  have hat := @File.at_of_agree p (fileOf fs t) ino [] hcopy
  have hsize : iSize ino = iSize (diskInode fs t) := iSize_congr hcopy
  have hs := saved_of_read W.dev H hread
  obtain ⟨f', m, hw, hedit, hend⟩ := @Mapped.writeRange p n _ off sz N hm hsz (by omega) hN buf
  refine ⟨f', hw, fun hcrit => ?_⟩
  obtain ⟨hle, hbytes⟩ := hend (Or.inl hcrit)
  obtain ⟨new, hch⟩ := hedit.changed
  obtain ⟨hm', hdata', hat', hsize'⟩ := hedit.mapped.onDisk (hedit.saved hs)
  have hno : f'.no = t := hch.no
  rw [hno] at hm' hdata' hat' hsize'
  have hnew : iSize (diskInode f'.fs t) = max (iSize (diskInode fs t)) (off + sz) := by
    rw [hsize', hedit.size, ← hsize]
  have hbs : f'.fs.blockSz = fs.blockSz := hedit.blockSz
  have hall : (fileOf f'.fs t).data p m = copy ((fileOf fs t).data p n) off buf 0 sz := by
    rw [hdata', hbytes, hdata]
  have hstored' : Stored p m f'.fs t := by
    refine ⟨hm', ?_, fun x hx => ?_⟩
    · rw [hnew, hbs]
      exact max_le (hstored.covers.trans (Nat.mul_le_mul_right _ hedit.le)) hle
    · rw [hnew] at hx
      rw [hall, copy_apply_of_not (by omega)]
      exact hstored.padded x (by omega)
  obtain ⟨L, hsame⟩ := @Laid.changed p I ⟨fs, ino, t, []⟩ f' new W.toLaid ht hat hch hat' hm'.toOwned
  refine ⟨⟨L, fun u hu => ?_⟩, fun {size d} hc => ?_, fun u hu hne {size d} hc => ?_⟩
  · by_cases hne : u = t
    · exact ⟨m, hne ▸ hstored'⟩
    · obtain ⟨k, hk⟩ := W.stored u hu
      exact ⟨k, hk.same (hsame u hu hne) hbs⟩
  · obtain ⟨rfl, hd⟩ := hstored.mapped.contents_iff.mp hc
    refine hm'.contents_iff.mpr ⟨hnew, fun x hx => ?_⟩
    rw [hall, splice]
    by_cases hin : off ≤ x ∧ x < off + sz
    · rw [if_pos hin, copy_apply hin.1 hin.2, Nat.zero_add]
    · rw [if_neg hin, copy_apply_of_not (by omega)]
      by_cases hold : x < iSize (diskInode fs t)
      · rw [if_pos hold]
        exact hd x hold
      · rw [if_neg hold]
        exact hstored.padded x (Nat.not_lt.mp hold)
  · obtain ⟨k, hk⟩ := W.stored u hu
    obtain ⟨hmu, hdu⟩ := (hsame u hu hne).mapped k hk.mapped
    obtain ⟨hsz', hd⟩ := hk.mapped.contents_iff.mp hc
    refine hmu.contents_iff.mpr ⟨(iSize_congr (hsame u hu hne).inode).trans hsz', ?_⟩
    rw [hdu]
    exact hd

end Write

/-! ## A volume of empty files -/

theorem freshFs_wellFormed : WellFormed 256 {t | Number freshFs t} freshFs := by
  have hcap : capacity .inode freshFs = 32 := by decide +kernel
  have hzero : ∀ t < 33, t ≠ 0 → iSize (diskInode freshFs t) = 0
      ∧ iBlocks (diskInode freshFs t) = 0 ∧ ∀ r < 15, iBlock (diskInode freshFs t) r = 0 := by
    decide +kernel
  have hempty : ∀ t, Number freshFs t → iSize (diskInode freshFs t) = 0
      ∧ Dense 256 0 (fileOf freshFs t) := fun t ht => by
    obtain ⟨hsize, hblocks, hmap⟩ := hzero t (by have := ht.2; omega) ht.1
    obtain ⟨hhomed, htaken⟩ := freshFs_oneGroup.homed ht
    exact ⟨hsize, dense_empty (show 1024 / 4 = 256 by decide) freshFs_volume hhomed htaken hblocks hmap⟩
  have hat : ∀ t, Number freshFs t → ∀ x, (tree 256).Valid x → (fileOf freshFs t).at x = 0 :=
    fun t ht x hx => by
      by_contra h0
      have := ((hempty t ht).2.filled x hx).mp h0
      rw [tables_direct (by decide)] at this
      omega
  refine ⟨⟨freshFs_oneGroup, fun t ht => ht, fun t ht => (hempty t ht).2.toOwned,
    fun t ht x hx h0 => absurd (hat t ht x hx) h0,
    fun t ht _ _ _ x _ hx _ h0 => absurd (hat t ht x hx) h0⟩,
    fun t ht => ⟨0, (hempty t ht).2.mapped, ?_, fun x _ => ?_⟩⟩
  · rw [(hempty t ht).1]
    exact Nat.zero_le _
  · exact if_neg (Nat.not_lt_zero _)

/-- Two bytes behind the end of an empty file, in its third block. -/
theorem write_splices_empty : ∃ ino f', readInode freshFs 1 = some ino
    ∧ writeBufferInode 3 ⟨freshFs, ino, 1, []⟩ 2500 2 (fun _ => 7) = some (2, f')
    ∧ WellFormed 256 {t | Number freshFs t} f'.fs
    ∧ Contents f'.fs 1 2502 (splice (fun _ => 0) 0 2500 2 fun _ => 7) := by
  have hrun : ((readInode freshFs 1).bind fun ino =>
      (writeBufferInode 3 ⟨freshFs, ino, 1, []⟩ 2500 2 fun _ => 7).map fun r => r.2.fs.critical)
        = some freshFs.critical := by decide +kernel
  obtain ⟨ino, hread, hrun⟩ := Option.bind_eq_some_iff.mp hrun
  have ht : Number freshFs 1 := ⟨by decide, by decide +kernel⟩
  obtain ⟨f', hw, hend⟩ := @write_splices 256 1 {t | Number freshFs t} freshFs 2500 2 3 ino
    (fun _ => 7) freshFs_wellFormed ht hread (by decide) (by decide) (by decide)
  rw [hw] at hrun
  obtain ⟨W, hsplice, -⟩ := hend (Option.some.inj hrun)
  obtain ⟨n, hstored⟩ := freshFs_wellFormed.stored 1 ht
  have hc : Contents freshFs 1 0 fun _ => 0 := hstored.mapped.contents_iff.mpr
    ⟨by decide +kernel, fun x hx => absurd hx (Nat.not_lt_zero x)⟩
  exact ⟨ino, f', hread, hw, W, hsplice hc⟩

/-! ## Volumes on which a write goes wrong -/

/-- The content blocks that a file has, first or not. -/
def File.content (p : Nat) (f : File) : Finset Nat :=
  (Finset.range (maxBlocks p)).filter fun k => f.at (leafPos p k) ≠ 0

/-- File `t` has `n` content blocks, as many as `i_blocks` counts and enough for its
size. The block that the file ends in, and its last block, hold zeros past the size. -/
structure Measured (p n : Nat) (fs : Fs) (t : Nat) : Prop where
  card : ((fileOf fs t).content p).card = n
  count : iBlocks (diskInode fs t) = getBlockCount fs n
  covers : iSize (diskInode fs t) ≤ n * fs.blockSz
  tail : ∀ k ∈ (fileOf fs t).content p,
    k = (iSize (diskInode fs t) - 1) / fs.blockSz ∨ (∀ j ∈ (fileOf fs t).content p, j ≤ k) →
      ∀ i < fs.blockSz, iSize (diskInode fs t) ≤ k * fs.blockSz + i →
        blk fs ((fileOf fs t).at (leafPos p k)) i = 0

/-- The conditions on a volume if nothing is said about which blocks of a file are
mapped, and about what those between its end and its last block hold. -/
structure Formed (p : Nat) (I : Set Nat) (fs : Fs) : Prop extends Laid p I fs where
  measured : ∀ t ∈ I, ∃ n, Measured p n fs t

theorem content_direct {p : Nat} {f : File} (hp : 0 < p)
    (htab : ∀ r, 12 ≤ r → r < 15 → iBlock f.ino r = 0) :
    f.content p = (Finset.range 12).filter fun r => iBlock f.ino r ≠ 0 := by
  ext k
  rw [File.content, Finset.mem_filter, Finset.mem_filter, Finset.mem_range, Finset.mem_range]
  have hmax : 12 ≤ maxBlocks p := by
    unfold maxBlocks
    omega
  constructor
  · rintro ⟨hk, h0⟩
    have hlt := (at_direct htab _ (leafPos_valid hp hk).1 h0).2
    have hk' : k < 12 := by
      by_contra hge
      unfold leafPos at hlt
      split_ifs at hlt <;> simp at hlt
    rw [leafPos_direct hk'] at h0
    exact ⟨hk', h0⟩
  · rintro ⟨hk, h0⟩
    rw [leafPos_direct hk]
    exact ⟨by omega, h0⟩

section FullFs

variable {tab : Nat → Nat → Nat} {t : Nat}

theorem fullFs_oneGroup : OneGroup (fullFs tab) where
  toVolume := fullFs_volume
  one := rfl
  small := show 1048576 < 2 ^ 31 by decide
  perGroup := (fullFs_perGroup .inode).symm
  inodeSz := ⟨Nat.le_refl 128, 8, rfl⟩
  table := by
    intro k hk
    have hk : k < 4 := by
      change k * 1024 < 32 * 128 at hk
      omega
    rw [show (fullFs tab).inodeTable 0 = 5 from rd32_wr32_same _ (by decide), fullFs_bookBlocks]
    refine ⟨fullFs_inVol (by omega) (by omega), ?_, fun _ => fullFs_used (by omega)⟩
    simp only [List.mem_cons, List.not_mem_nil, or_false]
    omega

theorem fullFs_home_lt (ht : Number (fullFs tab) t) : home (fullFs tab) t < 9 := by
  obtain ⟨hlt, hhome, -⟩ := fullFs_oneGroup.slot ht
  rw [hhome, show (fullFs tab).inodeTable 0 = 5 from rd32_wr32_same _ (by decide)]
  change (t - 1) * 128 < 32 * 128 at hlt
  show 5 + (t - 1) * 128 / 1024 < 9
  omega

/-- Inode 1 has blocks from 9 on, the others have none. -/
theorem fullFs_laid
    (h : ∀ r < 15, iBlock (diskInode (fullFs tab) 1) r ≠ 0 →
      r < 12 ∧ iBlock (diskInode (fullFs tab) 1) r = 9 + r)
    (hnone : ∀ t, Number (fullFs tab) t → t ≠ 1 → ∀ r < 15,
      iBlock (diskInode (fullFs tab) t) r = 0) :
    Laid 256 {t | Number (fullFs tab) t} (fullFs tab) := by
  obtain ⟨hO, hblock⟩ := fullFs_owned h
  have hat : ∀ t, Number (fullFs tab) t → t ≠ 1 → ∀ x, (tree 256).Valid x →
      (fileOf (fullFs tab) t).at x = 0 := fun t ht hne x hx =>
    node_of_root (hnone t ht hne _ hx.root)
  refine ⟨fullFs_oneGroup, fun t ht => ht, fun t ht => ?_, fun t ht x hx h0 u hu => ?_,
    fun t ht u hu hne x y hx hy h0 => ?_⟩
  · by_cases hone : t = 1
    · exact hone ▸ hO
    · obtain ⟨hhomed, htaken⟩ := fullFs_oneGroup.homed ht
      exact Owned.direct (show 1024 / 4 = 256 by decide) fullFs_volume hhomed htaken
        (fun r _ hr => hnone t ht hone r hr)
        (fun r hr h0 => absurd (hnone t ht hone r (by omega)) h0)
        fun r hr _ _ h0 => absurd (hnone t ht hone r (by omega)) h0
  · by_cases hone : t = 1
    · subst hone
      have h₁ := hblock x hx h0
      have h₂ := fullFs_home_lt hu
      omega
    · exact absurd (hat t ht hone x hx) h0
  · by_cases hone : t = 1
    · rw [hat u hu (fun h => hne (hone.trans h.symm)) y hy]
      exact h0
    · exact absurd (hat t ht hone x hx) h0

theorem fullFs_formed {n : Nat}
    (h : ∀ r < 15, iBlock (diskInode (fullFs tab) 1) r ≠ 0 →
      r < 12 ∧ iBlock (diskInode (fullFs tab) 1) r = 9 + r)
    (hnone : ∀ t < 33, t ≠ 0 → t ≠ 1 → iSize (diskInode (fullFs tab) t) = 0
      ∧ iBlocks (diskInode (fullFs tab) t) = 0 ∧ ∀ r < 15, iBlock (diskInode (fullFs tab) t) r = 0)
    (hone : Measured 256 n (fullFs tab) 1) :
    Formed 256 {t | Number (fullFs tab) t} (fullFs tab) := by
  have hcap : capacity .inode (fullFs tab) = 32 := by
    rw [capacity, fullFs_perGroup]
    exact Nat.one_mul 32
  have hlt : ∀ t, Number (fullFs tab) t → t < 33 := fun t ht => by
    have := ht.2
    omega
  refine ⟨fullFs_laid h fun t ht hne => (hnone t (hlt t ht) ht.1 hne).2.2, fun t ht => ?_⟩
  by_cases hne : t = 1
  · exact ⟨n, hne ▸ hone⟩
  · obtain ⟨hsize, hblocks, hmap⟩ := hnone t (hlt t ht) ht.1 hne
    have hcontent : (fileOf (fullFs tab) t).content 256 = ∅ := by
      rw [content_direct (by decide) fun r _ hr => hmap r hr, Finset.filter_eq_empty_iff]
      intro r hr h0
      exact h0 (hmap r (by rw [Finset.mem_range] at hr; omega))
    refine ⟨0, ?_, ?_, ?_, ?_⟩
    · rw [hcontent]
      rfl
    · rw [hblocks]
      simp [getBlockCount, add32, mul32]
    · rw [hsize]
      exact Nat.zero_le _
    · rw [hcontent]
      exact fun k hk => absurd hk (Finset.notMem_empty k)

end FullFs

/-- A file of five bytes has three blocks, and the second of them holds an old byte. -/
def gapTable (b i : Nat) : Nat :=
  match b, i with
  | 5, 1 => 5
  | 5, 7 => 6
  | 5, 10 => 9
  | 5, 11 => 10
  | 5, 12 => 11
  | 10, 0 => 7
  | _, _ => 0

abbrev gapFs : Fs := fullFs gapTable

/-- A file of five bytes has one block, which is its second. -/
def holeTable (b i : Nat) : Nat :=
  match b, i with
  | 5, 1 => 5
  | 5, 7 => 2
  | 5, 11 => 10
  | _, _ => 0

abbrev holeFs : Fs := fullFs holeTable

theorem gapFs_formed : Formed 256 {t | Number gapFs t} gapFs := by
  have hcontent : (fileOf gapFs 1).content 256 = {0, 1, 2} := by
    rw [content_direct (by decide) (by decide +kernel)]
    decide +kernel
  refine @fullFs_formed _ 3 (by decide +kernel) (by decide +kernel) ⟨?_, ?_, ?_, ?_⟩
  · rw [hcontent]
    rfl
  · decide +kernel
  · decide +kernel
  · have hend : (iSize (diskInode gapFs 1) - 1) / gapFs.blockSz = 0 := by decide +kernel
    have hzero : ∀ i < 1024, blk gapFs 9 i = 0 ∧ blk gapFs 11 i = 0 := by decide +kernel
    rw [hcontent, hend]
    intro k hk hlast i hi _
    rw [Finset.mem_insert, Finset.mem_insert, Finset.mem_singleton] at hk
    rcases hk with rfl | rfl | rfl
    · rw [show (fileOf gapFs 1).at (leafPos 256 0) = 9 by decide +kernel]
      exact (hzero i hi).1
    · -- the second block is neither the one the file ends in nor its last
      exact absurd hlast (by decide)
    · rw [show (fileOf gapFs 1).at (leafPos 256 2) = 11 by decide +kernel]
      exact (hzero i hi).2

theorem holeFs_formed : Formed 256 {t | Number holeFs t} holeFs := by
  have hcontent : (fileOf holeFs 1).content 256 = {1} := by
    rw [content_direct (by decide) (by decide +kernel)]
    decide +kernel
  refine @fullFs_formed _ 1 (by decide +kernel) (by decide +kernel) ⟨?_, ?_, ?_, ?_⟩
  · rw [hcontent]
    rfl
  · decide +kernel
  · decide +kernel
  · have hzero : ∀ i < 1024, blk holeFs 10 i = 0 := by decide +kernel
    rw [hcontent]
    intro k hk _ i hi _
    rw [Finset.mem_singleton.mp hk,
      show (fileOf holeFs 1).at (leafPos 256 1) = 10 by decide +kernel]
    exact hzero i hi

/-- What one byte of a file reads as. -/
theorem Contents.byte {fs : Fs} {t size x : Nat} {d ino : Mem} (h : Contents fs t size d)
    (hread : readInode fs t = some ino) (hx : x < size) :
    (readBufferInode fs ino x 1 fun _ => 0).2 0 = d x := by
  obtain ⟨ino', hread', hsize, hall⟩ := h
  obtain rfl : ino = ino' := Option.some.inj (hread.symm.trans hread')
  have hlt : iSize ino < 2 ^ 32 := rd32_lt ino 4
  have hmin : 0 < min 1 (size - x) := by omega
  rw [hall x 1 _ hx Nat.one_pos (by omega)]
  exact if_pos hmin

/-- A write of one byte, after which byte `x` reads as `v`, has not left contents
with another byte there. -/
theorem Contents.refute {fs : Fs} {N off x size : Nat} {v : UInt8} (hx : x < size)
    (hrun : ((readInode fs 1).bind fun ino =>
      (writeBufferInode N ⟨fs, ino, 1, []⟩ off 1 fun _ => 1).bind fun r =>
        (readInode r.2.fs 1).map fun ino' => (r.1, r.2.fs.critical,
          (readBufferInode r.2.fs ino' x 1 fun _ => 0).2 0)) = some (1, fs.critical, v)) :
    ∃ ino f', readInode fs 1 = some ino
      ∧ writeBufferInode N ⟨fs, ino, 1, []⟩ off 1 (fun _ => 1) = some (1, f')
      ∧ f'.fs.critical = fs.critical ∧ ∀ d, d x ≠ v → ¬Contents f'.fs 1 size d := by
  obtain ⟨ino, hread, hrun⟩ := Option.bind_eq_some_iff.mp hrun
  obtain ⟨⟨out, f'⟩, hw, hrun⟩ := Option.bind_eq_some_iff.mp hrun
  obtain ⟨ino', hread', heq⟩ := Option.map_eq_some_iff.mp hrun
  simp only [Prod.mk.injEq] at heq
  obtain ⟨rfl, hcrit, hbyte⟩ := heq
  exact ⟨ino, f', hread, hw, hcrit, fun d hd hc => hd ((hc.byte hread' hx).symm.trans hbyte)⟩

/-- A write behind the end of a file brings back what its blocks hold between the two;
a write to a block that is not mapped is lost; and a range that wraps around is not cut
to the size of the file. -/
theorem write_splices_limits :
    (Formed 256 {t | Number gapFs t} gapFs ∧ ∃ ino f', readInode gapFs 1 = some ino
      ∧ writeBufferInode 3 ⟨gapFs, ino, 1, []⟩ 2048 1 (fun _ => 1) = some (1, f')
      ∧ f'.fs.critical = gapFs.critical
      ∧ ∀ d, ¬Contents f'.fs 1 2049 (splice d 5 2048 1 fun _ => 1))
    ∧ (Formed 256 {t | Number holeFs t} holeFs ∧ ∃ ino f', readInode holeFs 1 = some ino
      ∧ writeBufferInode 3 ⟨holeFs, ino, 1, []⟩ 0 1 (fun _ => 1) = some (1, f')
      ∧ f'.fs.critical = holeFs.critical
      ∧ ∀ d, ¬Contents f'.fs 1 5 (splice d 5 0 1 fun _ => 1))
    ∧ ∃ ino, readInode gapFs 1 = some ino ∧ iSize ino = 5
      ∧ (readBufferInode gapFs ino 1 (2 ^ 32 - 1) fun _ => 0).1 = 2 ^ 32 - 1 := by
  refine ⟨⟨gapFs_formed, ?_⟩, ⟨holeFs_formed, ?_⟩, ?_⟩
  · obtain ⟨ino, f', hread, hw, hcrit, hnot⟩ := @Contents.refute gapFs 3 2048 1024 2049 7
      (by decide) (by decide +kernel)
    refine ⟨ino, f', hread, hw, hcrit, fun d => hnot _ ?_⟩
    rw [splice, if_neg (by decide), if_neg (by decide)]
    decide
  · obtain ⟨ino, f', hread, hw, hcrit, hnot⟩ := @Contents.refute holeFs 3 0 0 5 0
      (by decide) (by decide +kernel)
    refine ⟨ino, f', hread, hw, hcrit, fun d => hnot _ ?_⟩
    rw [splice, if_pos (by decide)]
    decide
  · have hrun : (readInode gapFs 1).map (fun ino => (iSize ino,
        (readBufferInode gapFs ino 1 (2 ^ 32 - 1) fun _ => 0).1)) = some (5, 2 ^ 32 - 1) := by
      decide +kernel
    obtain ⟨ino, hread, heq⟩ := Option.map_eq_some_iff.mp hrun
    simp only [Prod.mk.injEq] at heq
    exact ⟨ino, hread, heq⟩

end Ext2

end Shitos
