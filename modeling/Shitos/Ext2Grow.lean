import Shitos.Ext2Remap

/-!
# Growing an inode block by block

`alloc_inode_block` gives a content block to an inode, and the loop of
`write_block_inode` repeats that until the block that is to be written is
there. The loop asks `get_content_blocks` for the next index each time. As
the block count in `i_blocks` is a value of `get_block_count`, the index goes
up by one in each turn (`growLoop_within`).
-/

namespace Shitos

namespace Ext2

/-! ## The functions -/

/-- `if(ino->i_blocks < sectors) ino->i_blocks = sectors`. -/
def File.raise (f : File) (sectors : Nat) : File :=
  if iBlocks f.ino < sectors then { f with ino := setIBlocks f.ino sectors } else f

/-- `alloc_inode_block`. -/
def allocInodeBlock (f : File) (block : Nat) : Status × File :=
  let (realBlock, f) := f.alloc
  if realBlock = 0 then (.noSpace, f)
  else
    match setRealBlock f block realBlock with
    | (.success, f) => (f.raise (getBlockCount f.fs (add32 block 1))).save
    | (err, f) => (err, f)

/-- The loop of `write_block_inode`, for at most `n` turns. -/
def growLoop : Nat → File → Nat → Option (Status × File)
  | n, f, off =>
      let b := getContentBlocks f.fs (iBlocks f.ino)
      if off < b then some (.success, f)
      else
        match n with
        | 0 => none
        | n + 1 =>
            match allocInodeBlock f b with
            | (.success, f) => growLoop n f off
            | (ret, f) => some (ret, f)

/-- `write_block_inode`; `none` if its loop takes more than `n` turns. -/
def writeBlockInode (n : Nat) (f : File) (off : Nat) (buf : Mem) : Option (Status × File) :=
  match growLoop n f off with
  | none => none
  | some (.success, f) => some (f.store (getRealBlock f.fs f.ino off) buf)
  | some (ret, f) => some (ret, f)

/-- Consecutive successful calls of `alloc_inode_block`, at `n`, `n + 1`, … -/
inductive AllocRun (f : File) (n : Nat) : File → Nat → Prop
  | refl : AllocRun f n f n
  | step {g : File} {m : Nat} (h : AllocRun f n g m) (hs : (allocInodeBlock g m).1 = .success) :
      AllocRun f n (allocInodeBlock g m).2 (m + 1)

/-! ## What is kept without any assumption -/

/-- The mount, the inode's number and all of the inode but its block pointers
are the same. -/
structure Kept (f f' : File) : Prop where
  mount : SameMount f.fs f'.fs
  no : f'.no = f.no
  head : SameHead f.ino f'.ino

section Kept

variable {f f₁ f' : File}

theorem Kept.refl (f : File) : Kept f f := ⟨SameMount.refl _, rfl, SameHead.refl _⟩

theorem Kept.trans (h : Kept f f₁) (h' : Kept f₁ f') : Kept f f' :=
  ⟨h.mount.trans h'.mount, h'.no.trans h.no, h.head.trans h'.head⟩

theorem commit_sameMount (K : Kind) (fs : Fs) (bg : Nat) (buf : Mem) (count total : Nat) :
    SameMount fs (commit K fs bg buf count total) := by
  have hbgdt : ∀ (g : Fs) (m : Mem), SameMount g { g with bgdt := m } := fun _ _ =>
    ⟨rfl, rfl, rfl, rfl, rfl, rfl, rfl, rfl, rfl⟩
  have hsb : ∀ (g : Fs) (m : Mem), SameMount g { g with sb := m } := fun _ _ =>
    ⟨rfl, rfl, rfl, rfl, rfl, rfl, rfl, rfl, rfl⟩
  exact (writeBlock_sameMount ..).trans ((hbgdt _ _).trans ((writeBgdt_sameMount _).trans
    ((hsb _ _).trans (writeSuperblock_sameMount _))))

theorem allocBlock_sameMount (fs : Fs) : SameMount fs (allocBlock fs).2 := by
  have hreport : SameMount fs (reportFull fs) := ⟨rfl, rfl, rfl, rfl, rfl, rfl, rfl, rfl, rfl⟩
  unfold allocBlock
  split
  · exact hreport
  · simp only
    split
    · exact hreport
    · exact (commit_sameMount ..).trans (writeBlock_sameMount ..)

theorem writeInode_sameMount (fs : Fs) (ino : Mem) (no : Nat) :
    SameMount fs (writeInode fs ino no).2 := by
  unfold writeInode
  split
  · exact SameMount.refl fs
  · split
    · exact SameMount.refl fs
    · exact writeBlock_sameMount ..

theorem File.alloc_kept (f : File) : Kept f f.alloc.2 :=
  ⟨allocBlock_sameMount f.fs, rfl, SameHead.refl _⟩

theorem File.save_kept (f : File) : Kept f f.save.2 :=
  ⟨writeInode_sameMount .., rfl, SameHead.refl _⟩

theorem File.store_kept (f : File) (b : Nat) (buf : Mem) : Kept f (f.store b buf).2 :=
  ⟨writeBlock_sameMount .., rfl, SameHead.refl _⟩

theorem Kept.setIBlock (f : File) {k : Nat} (hk : k < 15) (v : Nat) :
    Kept f { f with ino := setIBlock f.ino k v } :=
  ⟨SameMount.refl _, rfl, SameHead.setIBlock _ hk v⟩

theorem ensureRoot_kept (f : File) {k : Nat} (hk : k < 15) : Kept f (ensureRoot f k).2 := by
  unfold ensureRoot
  split
  · exact Kept.refl f
  · simp only
    split
    · exact f.alloc_kept
    · exact f.alloc_kept.trans ((Kept.setIBlock _ hk _).trans (File.save_kept _))

theorem ensureEntry_kept (f : File) (t : Nat) (tmp : Mem) (i : Nat) :
    Kept f (ensureEntry f t tmp i).2.2 := by
  unfold ensureEntry
  simp only
  split
  · exact Kept.refl f
  · split
    · exact f.alloc_kept
    · exact f.alloc_kept.trans (File.store_kept ..)

theorem setRealBlock_kept (f : File) (k r : Nat) : Kept f (setRealBlock f k r).2 := by
  have hroot := fun {k} (hk : k < 15) => ensureRoot_kept f hk
  unfold setRealBlock
  simp only
  split
  · rename_i h
    exact (Kept.setIBlock f (Nat.lt_trans h (by decide)) r).trans (File.save_kept _)
  split
  · have h := hroot (show 12 < 15 by decide)
    split
    · rename_i f₁ heq
      rw [heq] at h
      exact h.trans (File.store_kept ..)
    · rename_i heq
      rw [heq] at h
      exact h
  split
  · have h := hroot (show 13 < 15 by decide)
    split
    · rename_i f₁ heq
      rw [heq] at h
      have h' := ensureEntry_kept f₁ (iBlock f₁.ino 13) f₁.fs.fresh ((k - 12 - ptrs f.fs) / ptrs f.fs)
      split
      · rename_i heq'
        rw [heq'] at h'
        exact (h.trans h').trans (File.store_kept ..)
      · rename_i heq'
        rw [heq'] at h'
        exact h.trans h'
    · rename_i heq
      rw [heq] at h
      exact h
  · have h := hroot (show 14 < 15 by decide)
    split
    · rename_i f₁ heq
      rw [heq] at h
      have h' := ensureEntry_kept f₁ (iBlock f₁.ino 14) f₁.fs.fresh
        ((k - 12 - ptrs f.fs - ptrs f.fs * ptrs f.fs) / (ptrs f.fs * ptrs f.fs))
      split
      · rename_i tmp f₂ heq'
        rw [heq'] at h'
        have h'' := ensureEntry_kept f₂ (rd32 tmp (4
          * ((k - 12 - ptrs f.fs - ptrs f.fs * ptrs f.fs) / (ptrs f.fs * ptrs f.fs)))) tmp
          ((k - 12 - ptrs f.fs - ptrs f.fs * ptrs f.fs) % (ptrs f.fs * ptrs f.fs) / ptrs f.fs)
        split
        · rename_i heq''
          rw [heq''] at h''
          exact ((h.trans h').trans h'').trans (File.store_kept ..)
        · rename_i heq''
          rw [heq''] at h''
          exact (h.trans h').trans h''
      · rename_i heq'
        rw [heq'] at h'
        exact h.trans h'
    · rename_i heq
      rw [heq] at h
      exact h

end Kept

/-! ## The block count -/

section Count

variable {f f' : File} {k : Nat}

theorem getBlockCount_congr {fs fs' : Fs} (h : fs'.blockSz = fs.blockSz) (n : Nat) :
    getBlockCount fs' n = getBlockCount fs n := by
  unfold getBlockCount ptrs
  rw [h]

theorem getBlockCount_lt (fs : Fs) (n : Nat) : getBlockCount fs n < 2 ^ 32 :=
  Nat.mod_lt _ (by decide)

theorem sectors_congr {fs fs' : Fs} (h : fs'.blockSz = fs.blockSz) (n : Nat) :
    sectors fs' n = sectors fs n := by
  unfold sectors ptrs
  rw [h]

theorem SameHead.iBlocks {ino ino' : Mem} (h : SameHead ino ino') : iBlocks ino' = iBlocks ino :=
  rd32_congr fun i h1 h2 => h i (by omega)

theorem iBlocks_setIBlocks (ino : Mem) {v : Nat} (hv : v < 2 ^ 32) :
    iBlocks (setIBlocks ino v) = v := rd32_wr32_same ino hv

@[simp] theorem File.raise_fs (f : File) (v : Nat) : (f.raise v).fs = f.fs := by
  unfold File.raise
  split <;> rfl

@[simp] theorem File.raise_no (f : File) (v : Nat) : (f.raise v).no = f.no := by
  unfold File.raise
  split <;> rfl

@[simp] theorem File.raise_got (f : File) (v : Nat) : (f.raise v).got = f.got := by
  unfold File.raise
  split <;> rfl

theorem File.iBlocks_raise (f : File) {v : Nat} (hv : v < 2 ^ 32) :
    iBlocks (f.raise v).ino = max (iBlocks f.ino) v := by
  unfold File.raise
  split
  · rename_i hlt
    rw [Nat.max_eq_right (Nat.le_of_lt hlt)]
    exact iBlocks_setIBlocks _ hv
  · rename_i hle
    rw [Nat.max_eq_left (Nat.not_lt.mp hle)]

/-- `alloc_inode_block` with its first allocation made. -/
theorem allocInodeBlock_of_alloc (h : f.alloc.1 ≠ 0) : allocInodeBlock f k
    = match setRealBlock f.alloc.2 k f.alloc.1 with
      | (.success, g) => (g.raise (getBlockCount g.fs (add32 k 1))).save
      | (err, g) => (err, g) := if_neg h

theorem allocInodeBlock_sameMount (f : File) (k : Nat) :
    SameMount f.fs (allocInodeBlock f k).2.fs := by
  unfold allocInodeBlock
  simp only
  split
  · exact f.alloc_kept.mount
  · have h := f.alloc_kept.mount.trans (setRealBlock_kept f.alloc.2 k f.alloc.1).mount
    split
    · rename_i g heq
      rw [heq] at h
      have hsave := (g.raise (getBlockCount g.fs (add32 k 1))).save_kept.mount
      rw [g.raise_fs] at hsave
      exact h.trans hsave
    · rename_i heq
      rw [heq] at h
      exact h

/-- Whatever it returns, `alloc_inode_block` keeps the mount and the number of
the inode. A success raises `i_blocks` to the count of `k + 1` blocks, an error
leaves it alone. -/
theorem allocInodeBlock_iBlocks (hno : Numbered f.fs f.no) :
    SameMount f.fs (allocInodeBlock f k).2.fs ∧ (allocInodeBlock f k).2.no = f.no
      ∧ ((allocInodeBlock f k).1 = .success → iBlocks (allocInodeBlock f k).2.ino
        = max (iBlocks f.ino) (getBlockCount f.fs (add32 k 1)))
      ∧ ((allocInodeBlock f k).1 ≠ .success →
        iBlocks (allocInodeBlock f k).2.ino = iBlocks f.ino) := by
  by_cases h0 : f.alloc.1 = 0
  · have heq : allocInodeBlock f k = (.noSpace, f.alloc.2) := if_pos h0
    rw [heq]
    exact ⟨f.alloc_kept.mount, rfl, (fun h => nomatch h), fun _ => rfl⟩
  · rw [allocInodeBlock_of_alloc h0]
    have hk := f.alloc_kept.trans (setRealBlock_kept f.alloc.2 k f.alloc.1)
    generalize setRealBlock f.alloc.2 k f.alloc.1 = res at *
    obtain ⟨st, g⟩ := res
    have hblk : iBlocks g.ino = iBlocks f.ino := hk.head.iBlocks
    cases st with
    | badBlock => exact ⟨hk.mount, hk.no, (fun h => nomatch h), fun _ => hblk⟩
    | noSpace => exact ⟨hk.mount, hk.no, (fun h => nomatch h), fun _ => hblk⟩
    | success =>
        have hval := g.iBlocks_raise (getBlockCount_lt g.fs (add32 k 1))
        rw [hblk, getBlockCount_congr hk.mount.blockSz] at hval
        have hnum : Numbered (g.raise (getBlockCount g.fs (add32 k 1))).fs
            (g.raise (getBlockCount g.fs (add32 k 1))).no := by
          rw [File.raise_fs, File.raise_no, hk.no, Numbered, hk.mount.inodesPerGroup,
            hk.mount.bgdtSz]
          exact hno
        have hsave := (g.raise (getBlockCount g.fs (add32 k 1))).save_kept
        rw [getBlockCount_congr hk.mount.blockSz] at hnum hsave
        simp only [getBlockCount_congr hk.mount.blockSz]
        refine ⟨hk.mount.trans ?_, hsave.no.trans ((g.raise_no _).trans hk.no), fun _ => hval,
          fun h => absurd (writeInode_fst hnum) h⟩
        rw [← g.raise_fs (getBlockCount f.fs (add32 k 1))]
        exact hsave.mount

end Count

/-! ## The loop -/

theorem growLoop_sameMount {f' : File} {st : Status} {off : Nat} : ∀ {n : Nat} {f : File},
    growLoop n f off = some (st, f') → SameMount f.fs f'.fs := by
  intro n
  induction n with
  | zero =>
      intro f h
      unfold growLoop at h
      simp only at h
      split at h
      · cases h
        exact SameMount.refl _
      · cases h
  | succ n ih =>
      intro f h
      unfold growLoop at h
      simp only at h
      split at h
      · cases h
        exact SameMount.refl _
      · have hm := allocInodeBlock_sameMount f (getContentBlocks f.fs (iBlocks f.ino))
        split at h
        · rename_i heq
          rw [heq] at hm
          exact hm.trans (ih h)
        · rename_i heq
          rw [heq] at hm
          cases h
          exact hm

theorem growLoop_fits {f g : File} {n off m : Nat} (hsz : Sized f.fs)
    (hmount : SameMount f.fs g.fs) (hfits : sectors f.fs (max n (off + 1)) < 2 ^ 32)
    (hm : m ≤ max n (off + 1)) : sectors g.fs m < 2 ^ 32 := by
  rw [sectors_congr hmount.blockSz]
  rcases Nat.eq_or_lt_of_le hm with heq | hlt
  · rwa [heq]
  · exact (sectors_lt hsz hlt).trans hfits

theorem growLoop_content {f g : File} {n off m : Nat} (hsz : Sized f.fs)
    (hmount : SameMount f.fs g.fs) (hfits : sectors f.fs (max n (off + 1)) < 2 ^ 32)
    (hle : m ≤ max n (off + 1)) (hm : iBlocks g.ino = getBlockCount g.fs m) :
    getContentBlocks g.fs (iBlocks g.ino) = m := by
  have hsz' : Sized g.fs := by
    unfold Sized
    rw [hmount.blockSz]
    exact hsz
  rw [hm]
  exact (content_of_count hsz' (growLoop_fits hsz hmount hfits hle)).1

/-- **Growing a file by writing one block terminates.** With the block count of
`n` content blocks in `i_blocks`, the loop needs at most `off + 1 - n` turns. It
ends with block `off` among the content blocks, or with the error of the first
`alloc_inode_block` that fails, at an index `m` that `i_blocks` still has. -/
theorem growLoop_within {f : File} {n off : Nat} (hsz : Sized f.fs) (hno : Numbered f.fs f.no)
    (hn : iBlocks f.ino = getBlockCount f.fs n)
    (hfits : sectors f.fs (max n (off + 1)) < 2 ^ 32) :
    ∃ st f', growLoop (off + 1 - n) f off = some (st, f')
      ∧ (st = .success → AllocRun f n f' (max n (off + 1))
        ∧ getContentBlocks f'.fs (iBlocks f'.ino) = max n (off + 1))
      ∧ (st ≠ .success → ∃ m g, n ≤ m ∧ m ≤ off ∧ AllocRun f n g m
        ∧ allocInodeBlock g m = (st, f') ∧ iBlocks f'.ino = getBlockCount f'.fs m) := by
  suffices h : ∀ d (g : File) m, off + 1 - m = d → n ≤ m → m ≤ max n (off + 1) →
      AllocRun f n g m → SameMount f.fs g.fs → Numbered g.fs g.no →
      iBlocks g.ino = getBlockCount g.fs m → ∃ st f', growLoop d g off = some (st, f')
        ∧ (st = .success → AllocRun f n f' (max n (off + 1))
          ∧ getContentBlocks f'.fs (iBlocks f'.ino) = max n (off + 1))
        ∧ (st ≠ .success → ∃ m g, n ≤ m ∧ m ≤ off ∧ AllocRun f n g m
          ∧ allocInodeBlock g m = (st, f') ∧ iBlocks f'.ino = getBlockCount f'.fs m) from
    h _ f n rfl (Nat.le_refl n) (Nat.le_max_left ..) .refl (SameMount.refl _) hno hn
  intro d
  induction d with
  | zero =>
      intro g m hd hnm hle hrun hmount _ hm
      have hcontent := growLoop_content hsz hmount hfits hle hm
      have hmax : m = max n (off + 1) := by omega
      refine ⟨.success, g, ?_, fun _ => ⟨hmax ▸ hrun, hcontent.trans hmax⟩, fun h => absurd rfl h⟩
      unfold growLoop
      simp only [hcontent]
      exact if_pos (by omega)
  | succ d ih =>
      intro g m hd hnm hle hrun hmount hno hm
      have hcontent := growLoop_content hsz hmount hfits hle hm
      obtain ⟨hmount', hno', hup, hsame⟩ := @allocInodeBlock_iBlocks g m hno
      have hstep : growLoop (d + 1) g off = match allocInodeBlock g m with
          | (.success, f) => growLoop d f off
          | (ret, f) => some (ret, f) := by
        rw [growLoop]
        simp only [hcontent]
        exact if_neg (by omega)
      have hrun' := @AllocRun.step f n g m hrun
      rw [hstep]
      obtain ⟨⟨st, g'⟩, hres⟩ : ∃ res, res = allocInodeBlock g m := ⟨_, rfl⟩
      rw [← hres] at hmount' hno' hup hsame hrun' ⊢
      have hfail : st ≠ .success → ∃ m g, n ≤ m ∧ m ≤ off ∧ AllocRun f n g m
          ∧ allocInodeBlock g m = (st, g') ∧ iBlocks g'.ino = getBlockCount g'.fs m := by
        intro hst
        refine ⟨m, g, hnm, by omega, hrun, hres.symm, (hsame hst).trans (hm.trans ?_)⟩
        exact (getBlockCount_congr hmount'.blockSz m).symm
      cases st with
      | badBlock => exact ⟨.badBlock, g', rfl, (fun h => nomatch h), hfail⟩
      | noSpace => exact ⟨.noSpace, g', rfl, (fun h => nomatch h), hfail⟩
      | success =>
          -- the count goes up to that of `m + 1` blocks
          have hblocks := hup rfl
          rw [hm] at hblocks
          have hfits' := growLoop_fits hsz hmount hfits (show m + 1 ≤ max n (off + 1) by omega)
          have hsz' : Sized g.fs := by
            unfold Sized
            rw [hmount.blockSz]
            exact hsz
          have hadd : add32 m 1 = m + 1 :=
            add32_of_lt (Nat.lt_trans (Nat.lt_of_le_of_lt (Nat.le_add_right _ _)
              (sectors_half hsz' hfits')) (by decide))
          have hlt := (content_of_count hsz' hfits').2 m (Nat.lt_succ_self m)
          refine ih g' (m + 1) (by omega) (by omega) (by omega) (hrun' rfl) (hmount.trans hmount')
            ?_ ?_
          · rw [hno', Numbered, hmount'.inodesPerGroup, hmount'.bgdtSz]
            exact hno
          · rw [hblocks, hadd, Nat.max_eq_right (Nat.le_of_lt hlt)]
            exact (getBlockCount_congr hmount'.blockSz _).symm

/-- Three turns are enough to reach block 2 of an empty inode. -/
theorem growLoop_within_three : ∃ st f', growLoop 3 emptyFile 2 = some (st, f') := by
  obtain ⟨st, f', h, -⟩ := @growLoop_within emptyFile 0 2 ⟨0, by decide, rfl⟩
    freshFs_homed.numbered (by decide +kernel) (by decide +kernel)
  exact ⟨st, f', h⟩

end Ext2

end Shitos
