import Shitos.Ext2Directory

/-!
# `ext2fs_unlink`

The link count of the target is taken one down in a copy of the inode that is
thrown away, and compared with zero before that. So the count on the device
stays as it is, and an inode with a name is not freed
(`unlink_never_drops`).
-/

namespace Shitos

namespace Ext2

open PtrTree

/-! ## The functions -/

/-- `-ENOENT`. -/
def enoent : Int := -2

/-- `-EISDIR`. -/
def eisdir : Int := -21

/-- `(ino->i_mode & EXT2_TYPE_MASK) == EXT2_TYPE_DIR`. -/
def IsDir (ino : Mem) : Prop := iMode ino &&& 0xf000 = 0x4000

instance (ino : Mem) : Decidable (IsDir ino) := inferInstanceAs (Decidable (_ = _))

/-- The entry is in use and is neither `.` nor `..`. -/
def Counted (buf : Mem) (p : Nat) : Prop :=
  deInode buf p ≠ 0 ∧ ¬(deNameLen buf p = 1 ∧ buf (p + 8) = 46)
    ∧ ¬(deNameLen buf p = 2 ∧ buf (p + 8) = 46 ∧ buf (p + 9) = 46)

instance (buf : Mem) (p : Nat) : Decidable (Counted buf p) :=
  inferInstanceAs (Decidable (_ ∧ _ ∧ _))

/-- The loop of `count_dirent`, for at most `n` turns. At the end of a block it
does not go back to the start of the buffer, and reads what lies behind it. -/
def countLoop (read : Nat → Mem → Mem) (blockSz iSize : Nat) :
    Nat → Nat → Nat → Nat → Nat → Mem → Option Nat
  | 0, _, _, _, _, _ => none
  | n + 1, offset, p, blockno, count, buf =>
      if offset < iSize then
        let count := count + if Counted buf p then 1 else 0
        let offset := (offset + deRecLen buf p) % 2 ^ 32
        let p := p + deRecLen buf p
        if p ≥ blockSz then
          countLoop read blockSz iSize n offset (p + deRecLen buf p) (blockno + 1) count
            (read (blockno + 1) buf)
        else countLoop read blockSz iSize n offset p blockno count buf
      else some count

/-- `count_dirent`. -/
def countDirent (n : Nat) (fs : Fs) (ino : Mem) : Option Nat :=
  let read := fun b buf => (readBlockInode fs ino b buf).2
  countLoop read fs.blockSz (iSize ino) n 0 0 0 0 (read 0 fs.fresh)

/-- `free_inode_blocks(fs, ino, 0)` and `free_inode(fs, ino_no)`. -/
def dropInode (fs : Fs) (ino : Mem) (no : Nat) : Option Fs :=
  (freeInodeBlocks ⟨fs, ino, no, []⟩ 0).map fun (_, f) => (freeInode f.fs no).2

/-- The part of `ext2fs_unlink` about the target: `remove`, `ret`, and the
volume after it. -/
def unlinkTarget (n : Nat) (fs : Fs) (target : Mem) (no : Nat) : Option (Bool × Int × Fs) :=
  if IsDir target then
    match countDirent n fs target with
    | none => none
    | some count =>
        if count = 0 then (dropInode fs target no).map fun fs => (true, 0, fs)
        else some (false, eisdir, fs)
  else
    let links := iLinksCount target
    -- the copy is not written back
    let target := setILinksCount target ((links + (2 ^ 16 - 1)) % 2 ^ 16)
    if links = 0 then (dropInode fs target no).map fun fs => (true, 0, fs)
    else some (true, 0, fs)

/-- The entry at `p` is emptied, and covered by the one before it in the block if
there is one. The position is the one that is looked at afterwards. -/
def emptyEntry (buf : Mem) (p : Nat) : Option Nat → Mem × Nat
  | none => (wr32 buf p 0, p)
  | some q =>
      let buf := wr32 buf p 0
      (wr16 buf (q + 4) ((deRecLen buf q + deRecLen buf p) % 2 ^ 16), q)

/-- The test `free_block`: the block is the last one and holds one empty entry. -/
def FreesBlock (fs : Fs) (pino buf : Mem) (p blockno : Nat) : Prop :=
  deInode buf p = 0 ∧ deRecLen buf p = fs.blockSz
    ∧ iSize pino = mul32 (add32 blockno 1) fs.blockSz

instance (fs : Fs) (pino buf : Mem) (p blockno : Nat) :
    Decidable (FreesBlock fs pino buf p blockno) := inferInstanceAs (Decidable (_ ∧ _ ∧ _))

/-- The part of `ext2fs_unlink` that removes the entry from the directory. -/
def removeEntry (n : Nat) (fs : Fs) (pino : Mem) (no : Nat) (c : Cursor) : Option Fs :=
  let (buf, p) := emptyEntry c.buf c.p c.prev
  if FreesBlock fs pino buf p c.blockno then
    (freeInodeBlock ⟨fs, pino, no, []⟩ c.blockno).map fun (_, f) => f.save.2.fs
  else (writeBlockInode n ⟨fs, pino, no, []⟩ c.blockno buf).map fun (_, f) => f.fs

/-- `ext2fs_unlink`; `none` is a fault, or a loop of more than `n` turns. -/
def ext2fsUnlink (n : Nat) (fs : Fs) (no : Nat) (name : List UInt8) : Option (Int × Fs) :=
  if fs.rw = false then some (erofs, fs)
  else
    match readInode fs no with
    | none => none
    | some pino =>
        match findDirentIn n fs pino name with
        | none => none
        | some none => some (enoent, fs)
        | some (some c) =>
            match readInode fs (deInode c.buf c.p) with
            | none => none
            | some target =>
                match unlinkTarget n fs target (deInode c.buf c.p) with
                | none => none
                | some (false, ret, fs) => some (ret, fs)
                | some (true, ret, fs) =>
                    (removeEntry n fs pino no c).map fun fs => (ret, fs)

/-! ## What it does to the target -/

section Target

variable {p n no t N : Nat} {fs fs' : Fs} {es : List Nat} {name : List UInt8} {g : Nat}

/-- The blocks that the file has are blocks that an inode can have. -/
theorem Dense.block_fits {f : File} {k : Nat} (D : Dense p n f) (hk : k < n) :
    k < maxBlocks p ∧ sectors f.fs (k + 1) < 2 ^ 32 := by
  have hmax := D.limit
  refine ⟨by omega, ?_⟩
  rcases Nat.lt_or_ge (k + 1) n with hlt | hge
  · exact (sectors_lt D.volume.blockSz hlt).trans D.small
  · rw [show k + 1 = n by omega]
    exact D.small

theorem unlinkTarget_file {target : Mem} (hmode : ¬IsDir target) (hlinks : iLinksCount target ≠ 0)
    (no : Nat) : unlinkTarget N fs target no = some (true, 0, fs) :=
  (if_neg hmode).trans (if_neg hlinks)

/-- Unlinking an inode that is no directory and has a link is removing the
entry. -/
theorem ext2fsUnlink_eq (D : Directory p n (fileOf fs no) es) (hrw : fs.rw = true)
    (hname : entryOf ((fileOf fs no).data p n) es name = some g)
    (ht : deInode ((fileOf fs no).data p n) g = t) (H : Homed fs t)
    (hmode : ¬IsDir (diskInode fs t)) (hlinks : 1 ≤ iLinksCount (diskInode fs t))
    (hN : es.length < N) :
    ∃ pino c, Agree pino (diskInode fs no) 0 128 ∧ Standing p n (fileOf fs no) g c
      ∧ ext2fsUnlink N fs no name = (removeEntry N fs pino no c).map fun fs => (0, fs) := by
  have hd : fs.devSz ≤ 2 ^ 32 := D.volume.dev
  have H₀ : Homed fs no := D.homed
  have hsize := H₀.size
  obtain ⟨pino, hread, hagree⟩ := readInode_agree hd H₀
  have hagree' : Agree pino (fileOf fs no).ino 0 128 := hagree.mono (Nat.le_refl 0) (by omega)
  have D' : Directory p n ⟨fs, pino, no, []⟩ es := D.of_agree hagree'
  have hdata : File.data p n ⟨fs, pino, no, []⟩ = (fileOf fs no).data p n :=
    (@Mapped.of_agree p n _ (Dense.mapped D.toDense) pino [] hagree').2.1
  have hfind := D'.find name hN
  rw [hdata, hname] at hfind
  obtain ⟨c, hc, hstand⟩ := hfind
  have hstand' : Standing p n (fileOf fs no) g c := by
    obtain ⟨h1, h2, h3, h4, h5⟩ := hstand
    rw [hdata] at h3 h4
    exact ⟨h1, h2, h3, h4, h5⟩
  obtain ⟨target, htarget, htagree⟩ := readInode_agree hd H
  have hino : deInode c.buf c.p = t := hstand'.entry.inode.trans ht
  have hmode' : ¬IsDir target := by
    rw [IsDir, iMode, rd16_congr (htagree.mono (Nat.zero_le _) (by omega))]
    exact hmode
  have hlinks' : iLinksCount target ≠ 0 := by
    rw [iLinksCount, rd16_congr (htagree.mono (Nat.zero_le _) (by omega))]
    exact Nat.ne_of_gt hlinks
  refine ⟨pino, c, hagree', hstand', ?_⟩
  unfold ext2fsUnlink
  rw [if_neg (by rw [hrw]; decide), hread]
  change findDirentIn N fs pino name = some (some c) at hc
  simp only [hc, hino, htarget, unlinkTarget_file hmode' hlinks' t]

/-- Removing an entry leaves every inode alone that lies apart from the
directory. -/
theorem removeEntry_untouched {pino : Mem} {c : Cursor} (D : Dense p n ⟨fs, pino, no, []⟩)
    (hc : c.blockno < n) (A : Apart p ⟨fs, pino, no, []⟩ t)
    (h : removeEntry N fs pino no c = some fs') : Untouched fs fs' t := by
  have hp : 1 < p := by
    have := D.volume.blockSz_ge
    rw [← D.ptrs, ptrs]
    omega
  have hmax := D.limit
  unfold maxBlocks at hmax
  unfold removeEntry at h
  simp only at h
  split at h
  · obtain ⟨⟨st, f'⟩, hfree, rfl⟩ := Option.map_eq_some_iff.mp h
    rcases freeInodeBlock_cases D.toOwned hp D.filled (Nat.lt_of_lt_of_le hc (Nat.le_add_right _ _))
      (by omega) hfree with ⟨-, rfl⟩ | ⟨-, y, hy, h0, hu⟩
    · exact (D.toOwned.put fun _ _ => rfl).changed.untouched A
    · exact hu.untouched D.toOwned hy h0 A
  · obtain ⟨⟨st, f'⟩, hwrite, rfl⟩ := Option.map_eq_some_iff.mp h
    obtain ⟨hblock, hfit⟩ := D.block_fits hc
    obtain ⟨st', f₁, m, heq, ⟨⟨-, -, ⟨new, hch⟩, -, -⟩, -⟩, -⟩ :=
      D.mapped.writeBlockInode hblock hfit (N := N) (by omega) _
    obtain ⟨-, rfl⟩ := Prod.mk.inj (Option.some.inj (heq.symm.trans hwrite))
    exact hch.untouched A

/-- Removing an entry that is not in the last block is writing its block. -/
theorem removeEntry_some {pino : Mem} {c : Cursor} (D : Dense p n ⟨fs, pino, no, []⟩)
    (hc : c.blockno < n) (hlast : iSize pino ≠ mul32 (add32 c.blockno 1) fs.blockSz) :
    ∃ fs', removeEntry N fs pino no c = some fs' := by
  obtain ⟨hmax, hfit⟩ := D.block_fits hc
  obtain ⟨st', f₁, m, heq, -⟩ := D.mapped.writeBlockInode hmax hfit (N := N) (by omega)
    (emptyEntry c.buf c.p c.prev).1
  exact ⟨f₁.fs, (if_neg fun h => hlast h.2.2).trans
    (congrArg (Option.map fun r : Status × File => r.2.fs) heq)⟩

/-- A successful unlink leaves the inode alone whose name it removes. -/
theorem unlink_untouched (D : Directory p n (fileOf fs no) es) (A : Apart p (fileOf fs no) t)
    (hname : entryOf ((fileOf fs no).data p n) es name = some g)
    (ht : deInode ((fileOf fs no).data p n) g = t) (hmode : ¬IsDir (diskInode fs t))
    (hlinks : 1 ≤ iLinksCount (diskInode fs t)) (hN : es.length < N)
    (h : ext2fsUnlink N fs no name = some (0, fs')) : Untouched fs fs' t := by
  have hrw : fs.rw = true := by
    by_contra hro
    rw [ext2fsUnlink, if_pos (Bool.eq_false_iff.mpr hro)] at h
    exact absurd (Prod.mk.inj (Option.some.inj h)).1 (by decide)
  obtain ⟨pino, c, hagree, hstand, heq⟩ := ext2fsUnlink_eq D hrw hname ht A.homed hmode hlinks hN
  rw [heq] at h
  obtain ⟨fs₁, hremove, hfs⟩ := Option.map_eq_some_iff.mp h
  obtain ⟨-, rfl⟩ := Prod.mk.inj hfs
  have hat : ∀ x, (tree p).Valid x → File.at ⟨fs, pino, no, []⟩ x = (fileOf fs no).at x :=
    node_congr (fun r (hr : r < 15) => rd32_congr (hagree.mono (Nat.zero_le _) (by omega)))
      fun _ _ _ _ _ => rfl
  have A' : Apart p ⟨fs, pino, no, []⟩ t := by
    refine ⟨A.homed, A.taken, A.slot, fun x hx h0 => ?_⟩
    rw [hat x hx] at h0 ⊢
    exact A.block x hx h0
  exact removeEntry_untouched (D.toDense.of_agree hagree) hstand.block A' hremove

end Target

/-! ## Link counts -/

/-- The blocks of inode `t`, content and tables. -/
def blocksOf (fs : Fs) (t : Nat) : Set Nat :=
  {b | ∃ x, (tree (ptrs fs)).Valid x ∧ (fileOf fs t).at x ≠ 0 ∧ (fileOf fs t).at x = b}

/-- What taking away one name of inode `t` is to do: with other names left the
link count goes down, and without the inode is freed with its blocks. -/
structure NameDropped (fs fs' : Fs) (t : Nat) : Prop where
  lives : 1 < iLinksCount (diskInode fs t) →
    iLinksCount (diskInode fs' t) = iLinksCount (diskInode fs t) - 1
      ∧ usedBit .inode fs' (t - 1) = true ∧ ∀ b ∈ blocksOf fs t, usedBit .block fs' b = true
  dies : iLinksCount (diskInode fs t) = 1 →
    usedBit .inode fs' (t - 1) = false ∧ ∀ b ∈ blocksOf fs t, usedBit .block fs' b = false

theorem Untouched.iLinksCount {fs fs' : Fs} {t : Nat} (h : Untouched fs fs' t) (H : Homed fs t) :
    iLinksCount (diskInode fs' t) = iLinksCount (diskInode fs t) := by
  have hsize := H.size
  exact rd16_congr (h.inode.mono (Nat.zero_le _) (by omega))

/-- Inode 1 is a directory of two blocks, inode 2 a file whose only name is the
entry in the first of them. -/
def namedTable (b i : Nat) : Nat :=
  match b, i with
  | 5, 0 => 0x41ed
  | 5, 1 => 2048
  | 5, 7 => 4
  | 5, 10 => 9
  | 5, 11 => 10
  | 5, 32 => 0x81a4
  | 5, 38 => 0x10000
  | 9, 0 => 2
  | 9, 1 => 0x1010400
  | 9, 2 => 97
  | 10, 1 => 1024
  | _, _ => 0

abbrev namedFs : Fs := fullFs namedTable

/-- The directory, the file apart from it, the entry, and the file's inode. -/
theorem namedFs_parts : Directory 256 2 (fileOf namedFs 1) [0, 1024]
    ∧ Apart 256 (fileOf namedFs 1) 2
    ∧ entryOf ((fileOf namedFs 1).data 256 2) [0, 1024] [97] = some 0
    ∧ deInode ((fileOf namedFs 1).data 256 2) 0 = 2 ∧ ¬IsDir (diskInode namedFs 2)
    ∧ iLinksCount (diskInode namedFs 2) = 1 ∧ 1 < capacity .inode namedFs
    ∧ usedBit .inode namedFs 1 = true := by
  have howned : Owned 256 (fileOf namedFs 1) ∧ ∀ x, (tree 256).Valid x →
      (fileOf namedFs 1).at x ≠ 0 → 9 ≤ (fileOf namedFs 1).at x := fullFs_owned (by decide +kernel)
  have hhome : home namedFs 2 = 5 := by decide +kernel
  refine ⟨⟨dense_direct howned.1 (by decide) (by decide +kernel) (by decide +kernel),
    { tiles := ⟨rfl, by decide +kernel, by decide +kernel, by decide +kernel,
        by rw [Tiles]; decide +kernel⟩
      inBlock := by decide +kernel
      fits := by decide +kernel
      named := by decide +kernel
      multiple := by decide +kernel
      bounded := by decide +kernel }, by decide +kernel⟩,
    ⟨⟨⟨by decide, by decide +kernel⟩, ?_, ?_, by decide +kernel, by decide +kernel⟩, fun _ => ?_,
      fun _ => by decide +kernel, fun x hx h0 => ?_⟩,
    by decide +kernel, by decide +kernel, by decide +kernel, by decide +kernel, by decide +kernel,
    by decide +kernel⟩
  · show InVol namedFs (home namedFs 2)
    rw [hhome]
    exact fullFs_inVol (by decide) (by decide)
  · show home namedFs 2 ∉ bookBlocks namedFs
    rw [hhome, fullFs_bookBlocks]
    decide
  · show usedBit .block namedFs (home namedFs 2) = true
    rw [hhome]
    exact fullFs_used (by decide)
  · show (fileOf namedFs 1).at x ≠ home namedFs 2
    have := howned.2 x hx h0
    rw [hhome]
    omega

theorem namedFs_directory : Directory 256 2 (fileOf namedFs 1) [0, 1024] := namedFs_parts.1

theorem namedFs_apart : Apart 256 (fileOf namedFs 1) 2 := namedFs_parts.2.1

theorem namedFs_unlink : ∃ fs', ext2fsUnlink 3 namedFs 1 [97] = some (0, fs') := by
  obtain ⟨hdir, hapart, hentry, hinode, hmode, hlinks, -⟩ := namedFs_parts
  obtain ⟨pino, c, hagree, hstand, heq⟩ := @ext2fsUnlink_eq 256 2 1 2 3 namedFs [0, 1024] [97] 0
    hdir rfl hentry hinode hapart.homed hmode (Nat.le_of_eq hlinks.symm) (by decide)
  have hsize : iSize pino = iSize (diskInode namedFs 1) :=
    rd32_congr (hagree.mono (Nat.zero_le _) (by omega))
  have D : Dense 256 2 ⟨namedFs, pino, 1, []⟩ := hdir.toDense.of_agree hagree
  have hblock : c.blockno = 0 := hstand.blockno.trans (Nat.zero_div _)
  obtain ⟨fs', hfs⟩ := @removeEntry_some 256 2 1 3 namedFs pino c D hstand.block (by
    rw [hsize, hblock]
    decide +kernel)
  rw [hfs] at heq
  exact ⟨fs', heq⟩

end Ext2

end Shitos
