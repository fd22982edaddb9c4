import Shitos.Ext2Files
import Shitos.Ext2Insert

/-!
# `ext2fs_symlink` and `ext2fs_readlink`

A symbolic link takes an inode, gets a name in its directory, and is given its
target: in the space of the block pointers if it fits there, in content blocks
otherwise. `Folder` is what a directory on a volume satisfies before and after
each of the three steps, so the name leads to the inode at the end; and
`ext2fs_readlink` finds the target in either place (`symlink_readlink`).
-/

namespace Shitos

namespace Ext2

open PtrTree

/-- `create_dirent`; `none` is a fault, or a loop of more than `n` turns. -/
def createDirent (n : Nat) (fs : Fs) (no inoNo : Nat) (name : List UInt8) (type : Nat) :
    Option (Int × Fs) :=
  match readInode fs no with
  | none => none
  | some pino =>
      (createDirent2 n ⟨fs, pino, no, []⟩ inoNo name type).map fun (ret, f) => (ret, f.fs)

/-- `EXT2_DIRENT_TYPE_LINK`. -/
def direntTypeLink : Nat := 7

/-- `sizeof newino->i_block`. -/
def iBlockSz : Nat := 60

/-- A new symbolic link: `i_links_count` is 1 and `i_mode` is
`EXT2_TYPE_LINK | 0777`; all other fields are zero. -/
def newLink : Mem := wr16 (setILinksCount (fun _ => 0) 1) 0 0xa1ff

/-- The part of `ext2fs_symlink` that writes the link itself. -/
def writeTarget (n : Nat) (fs : Fs) (newino : Mem) (newinoNo : Nat) (target : List UInt8) :
    Option Fs :=
  let src : Mem := fun i => target.getD i 0
  if target.length ≤ iBlockSz then
    let newino := setISize (copy newino 40 src 0 target.length) target.length
    some (writeInode fs newino newinoNo).2
  else
    (writeBufferInode n ⟨fs, newino, newinoNo, []⟩ 0 target.length src).map fun (_, f) => f.fs

/-- `ext2fs_symlink`; the name and the target are the strings up to their
terminating zeros. -/
def ext2fsSymlink (n : Nat) (fs : Fs) (no : Nat) (name target : List UInt8) : Option (Int × Fs) :=
  if fs.rw = false then some (erofs, fs)
  else
    let (newinoNo, fs) := allocInode fs
    if newinoNo = 0 then some (enospc, fs)
    else
      match createDirent n fs no newinoNo name direntTypeLink with
      | none => none
      | some (ret, fs) =>
          if ret ≠ 0 then some (ret, (freeInode fs newinoNo).2)
          else
            (writeTarget n fs newLink newinoNo target).map fun fs => (0, fs)

/-- `ext2fs_readlink`; `none` is a fault. -/
def ext2fsReadlink (fs : Fs) (no sz : Nat) (buf : Mem) : Option (Int × Mem) :=
  match readInode fs no with
  | none => none
  | some ino =>
      let readSz := if iSize ino > sz then sz else iSize ino
      let buf := if iSize ino > iBlockSz then (readBufferInode fs ino 0 readSz buf).2
        else copy buf 0 ino 40 readSz
      some (ssize readSz, if readSz < sz then wr8 buf readSz 0 else buf)

/-! ## A directory on the volume -/

/-- Directory `d` of a volume with one group: an inode in use, with its entries in
order, and with blocks that hold no inodes. -/
structure Folder (p n : Nat) (fs : Fs) (d : Nat) (es : List Nat) : Prop extends OneGroup fs where
  number : Number fs d
  inUse : usedBit .inode fs (d - 1) = true
  dir : DirFile p n (fileOf fs d) es
  offTable : OffTable p fs d

section Folder

variable {p n m t d N : Nat} {type : Nat} {fs fs' : Fs} {f f' : File} {es : List Nat}
  {S : Set Nat} {name : List UInt8} {e : DirEntry}

/-- A file with the size and the bytes of a directory is one, if it is saved. -/
theorem DirFile.congr (D : DirFile p n f es) (H : Mapped p n f') (hs : Saved f')
    (hbs : f'.fs.blockSz = f.fs.blockSz) (hsize : iSize f'.ino = iSize f.ino)
    (hdata : f'.data p n = f.data p n) :
    DirFile p n f' es ∧ f'.entries p n es = f.entries p n es := by
  refine ⟨⟨⟨H, ?_, ?_⟩, ?_, ?_, hs⟩, ?_⟩
  · rw [hdata, hbs, hsize]
    exact D.records
  · rw [hbs, hsize]
    exact D.covers
  · rw [hdata, hbs]
    exact D.tidy
  · rw [hbs]
    exact D.short
  · rw [File.entries, File.entries, hdata, hbs]

/-- A folder stays what it is while other files change. -/
theorem Folder.same (F : Folder p n fs d es) (h : Elsewhere S fs fs') (hs : SameFile p fs fs' d)
    (hu : usedBit .inode fs' (d - 1) = true) : Folder p n fs' d es
      ∧ (fileOf fs' d).entries p n es = (fileOf fs d).entries p n es := by
  obtain ⟨hm, hdata⟩ := hs.mapped n F.dir.toMapped
  obtain ⟨D, hentries⟩ := F.dir.congr hm (fun _ _ _ => rfl) h.format.blockSz
    (iSize_congr hs.inode) hdata
  exact ⟨⟨F.toOneGroup.elsewhere h, h.format.number.mpr F.number, hu, D, F.offTable.same hs h.format⟩,
    hentries⟩

/-- Taking an inode. It is not the one of the directory. -/
theorem Folder.allocated (F : Folder p n fs d es) (h : Allocated .inode fs t fs') :
    Folder p n fs' d es ∧ (fileOf fs' d).entries p n es = (fileOf fs d).entries p n es
      ∧ iSize (diskInode fs' d) = iSize (diskInode fs d) ∧ Number fs' t ∧ d ≠ t := by
  have hE := h.step.elsewhere F.toVolume
  have hne : d - 1 ≠ t - 1 := fun heq => by
    have hclear := h.clear
    rw [show t - Kind.first .inode = d - 1 from heq.symm, F.inUse] at hclear
    cases hclear
  have hused : usedBit .inode fs' (d - 1) = true := by
    rw [h.step.bits .inode _ F.number.lt, if_neg fun hk => hne hk.2]
    exact F.inUse
  have hnone : ∀ b, b ∉ {b | Kind.inode = .block ∧ b = t} := fun _ hb => nomatch hb.1
  have hsame : SameFile p fs fs' d := hE.sameFile F.dir.toOwned (fun _ _ _ => hnone _)
    ((hE.inode (F.toOneGroup.homed F.number).1 (hnone _)).mono (Nat.le_refl 0)
      (by have := F.inodeSz.1; omega))
  obtain ⟨F', hentries⟩ := F.same hE hsame hused
  have ht := h.lt
  have ht0 := h.pos
  refine ⟨F', hentries, iSize_congr hsame.inode, hE.format.number.mpr ⟨ht0, ?_⟩,
    fun heq => hne (by rw [heq])⟩
  have : t - 1 < capacity .inode fs := ht
  omega

/-- Reading the inode of a folder. -/
theorem Folder.opened (F : Folder p n fs d es) : ∃ pino, readInode fs d = some pino
    ∧ Agree pino (fileOf fs d).ino 0 128 ∧ DirFile p n ⟨fs, pino, d, []⟩ es
    ∧ File.entries p n ⟨fs, pino, d, []⟩ es = (fileOf fs d).entries p n es := by
  have H := (F.toOneGroup.homed F.number).1
  obtain ⟨pino, hread, hagree⟩ := readInode_agree F.dev H
  have hcopy : Agree pino (fileOf fs d).ino 0 128 :=
    hagree.mono (Nat.le_refl 0) (by have := H.size; omega)
  obtain ⟨hm, hdata, -⟩ := @Mapped.of_agree p n _ F.dir.toMapped pino [] hcopy
  exact ⟨pino, hread, hcopy,
    F.dir.congr hm (saved_of_read F.dev H hread) rfl (iSize_congr hcopy) hdata⟩

/-- Entering a name. -/
theorem Folder.enter (F : Folder p n fs d es) (E : Enterable t name type)
    (hnew : name ∉ ((fileOf fs d).entries p n es).map DirEntry.name)
    (hN : iSize (diskInode fs d) < N) :
    ∃ r fs', createDirent N fs d t name type = some (r, fs') ∧ SameFormat fs fs' ∧ OneGroup fs'
      ∧ fs.critical ≤ fs'.critical ∧ (fs'.critical = fs.critical → r = 0
        ∧ ∃ m es', Folder p m fs' d es'
          ∧ ∃ e ∈ (fileOf fs' d).entries p m es', e.name = name ∧ e.inode = t) := by
  obtain ⟨pino, hread, hcopy, D, hentries⟩ := F.opened
  have hsize : iSize pino = iSize (diskInode fs d) := iSize_congr hcopy
  rw [← hsize] at hN
  obtain ⟨r, f', m, size, heq, hed, hend⟩ := D.createDirent2 E (by rwa [hentries]) hN
  obtain ⟨new, hch⟩ := hed.changed
  have hE := hch.run.elsewhere F.toVolume
  have G := F.toOneGroup.elsewhere hE
  refine ⟨r, f'.fs, ?_, hE.format, G, hed.critical, fun hcrit => ?_⟩
  · unfold createDirent
    rw [hread]
    exact congrArg (Option.map fun r => (r.1, r.2.fs)) heq
  obtain ⟨hr, es', b, hent⟩ := hend hcrit
  obtain ⟨hm', hdata', hat', hsize'⟩ := hent.dir.onDisk hent.dir.saved
  rw [show f'.no = d from hch.no] at hm' hdata' hat' hsize'
  obtain ⟨D', hentries'⟩ := hent.dir.congr hm' (fun _ _ _ => rfl) rfl hsize' hdata'
  refine ⟨hr, m, es', ⟨G, hE.format.number.mpr F.number, ?_, D', ?_⟩,
    ⟨t, name, type, b⟩, ?_, rfl, rfl⟩
  · rw [hch.run.inodeBits _ F.number.lt]
    exact F.inUse
  · -- a block of the directory was one before, or has just been taken
    intro x hx h0 u hu
    rw [hE.format.number] at hu
    rw [hat' x hx] at h0 ⊢
    rw [hE.format.home]
    rcases hch.pointer x hx with hold | hnewb
    · have hold' : f'.at x = (fileOf fs d).at x := hold.trans (File.at_of_agree hcopy x hx)
      rw [hold'] at h0 ⊢
      exact F.offTable x hx h0 u hu
    · exact fun heq => (F.toOneGroup.homed hu).2.not_mem hch.run (heq ▸ hnewb)
  · obtain ⟨a, c, -, hsplit⟩ := hent.split
    rw [hentries', hsplit]
    exact List.mem_append_right _ List.mem_cons_self

/-- A name in a folder leads to its inode. -/
theorem Folder.lookup (F : Folder p n fs d es) (he : e ∈ (fileOf fs d).entries p n es)
    (h0 : 0 ∉ e.name) : ∃ pino, readInode fs d = some pino ∧ ∀ N, iSize pino < N →
      ∃ c, findDirentIn N fs pino e.name = some (some c) ∧ deInode c.buf c.p = e.inode := by
  obtain ⟨pino, hread, hcopy, D, hentries⟩ := F.opened
  refine ⟨pino, hread, fun N hN => ?_⟩
  obtain ⟨r, hfind, hiff, hlead⟩ := D.find_entry h0 hN
  rw [hentries] at hiff hlead
  obtain ⟨c, hc⟩ := Option.ne_none_iff_exists'.mp (hiff.mpr ⟨e, he, rfl⟩)
  obtain ⟨e', he', hname, hino⟩ := hlead c hc
  rw [hc] at hfind
  -- no two entries in use have the same name
  obtain rfl := List.inj_on_of_nodup_map F.dir.tidy.distinct he' he hname
  exact ⟨c, hfind, hino⟩

/-- Saving another inode. -/
theorem Folder.writeInode (F : Folder p n fs d es) (ht : Number fs t) (hne : d ≠ t) (ino : Mem) :
    Folder p n (Ext2.writeInode fs ino t).2 d es
      ∧ (fileOf (Ext2.writeInode fs ino t).2 d).entries p n es = (fileOf fs d).entries p n es := by
  obtain ⟨h, hsame⟩ := F.toOneGroup.writeInode ht F.number hne F.dir.toOwned F.offTable ino
  have hr := @writeInode_run _ _ true F.toVolume (F.toOneGroup.homed ht).1 ino
  exact F.same h hsame ((hr.inodeBits _ F.number.lt).trans F.inUse)

/-- Writing to an inode that has had no blocks. -/
theorem Folder.changed (F : Folder p n f.fs d es) (hf : Number f.fs f.no) (hne : d ≠ f.no)
    (hempty : ∀ x, (tree p).Valid x → f.at x = 0) {new : List Nat} (h : Changed p new f f') :
    Folder p n f'.fs d es
      ∧ (fileOf f'.fs d).entries p n es = (fileOf f.fs d).entries p n es := by
  have A : Apart p f d :=
    F.toOneGroup.apart hf F.number hne fun x hx h0 => absurd (hempty x hx) h0
  refine F.same (h.run.elsewhere F.toVolume) (h.sameFile F.toVolume A F.dir.toOwned
    fun x hx h0 hmem => ?_) ((h.run.inodeBits _ F.number.lt).trans F.inUse)
  rcases hmem with hhome | ⟨y, hy, hy0, -⟩
  · exact F.offTable x hx h0 f.no hf hhome
  · exact hy0 (hempty y hy)

end Folder

/-! ## The target -/

/-- What `ext2fs_readlink` is to leave in a buffer of `sz` bytes. -/
def linkText (target : List UInt8) (sz : Nat) (buf : Mem) : Mem := fun i =>
  if i < min sz target.length then target.getD i 0
  else if i = target.length ∧ i < sz then 0 else buf i

/-- Inode `t` is a link to `target`. -/
def LinksTo (fs : Fs) (t : Nat) (target : List UInt8) : Prop :=
  ∀ sz buf, 0 < sz →
    ext2fsReadlink fs t sz buf = some (↑(min sz target.length), linkText target sz buf)

section Target

variable {p n t N : Nat} {fs : Fs} {f : File} {target : List UInt8} {ino : Mem}

/-- It does not matter where the target is found. -/
theorem linksTo_of_read (hread : readInode fs t = some ino) (hsize : iSize ino = target.length)
    (hlt : target.length < 2 ^ 31)
    (hbytes : ∀ sz buf, 0 < sz → sz ≤ target.length → ∀ i,
      (if iSize ino > iBlockSz then (readBufferInode fs ino 0 sz buf).2 else copy buf 0 ino 40 sz) i
        = if i < sz then target.getD i 0 else buf i)
    (hpos : 0 < target.length) : LinksTo fs t target := fun sz buf hsz => by
  have hmin : (if iSize ino > sz then sz else iSize ino) = min sz target.length := by
    rw [hsize]
    split <;> omega
  unfold ext2fsReadlink
  rw [hread]
  simp only [hmin]
  refine congrArg some (Prod.ext (ssize_eq (by omega)) (funext fun i => ?_))
  have hb := hbytes (min sz target.length) buf (by omega) (Nat.min_le_right ..)
  unfold linkText
  by_cases hend : min sz target.length < sz
  · simp only [if_pos hend]
    rcases Nat.lt_trichotomy i (min sz target.length) with hi | hi | hi
    · rw [wr8_apply_of_ne (by omega), hb, if_pos hi, if_pos hi]
    · refine (if_pos hi).trans ?_
      rw [if_neg (by omega), if_pos (by omega)]
      rfl
    · rw [wr8_apply_of_ne (by omega), hb, if_neg (by omega), if_neg (by omega), if_neg (by omega)]
  · simp only [if_neg hend]
    rw [hb]
    by_cases hi : i < min sz target.length
    · rw [if_pos hi, if_pos hi]
    · rw [if_neg hi, if_neg hi, if_neg (by omega)]

theorem linksTo_short (hd : fs.devSz ≤ 2 ^ 32) (H : Homed fs t)
    (hino : Agree (diskInode fs t) ino 0 128) (hsize : iSize ino = target.length)
    (hpos : 0 < target.length) (hlen : target.length ≤ iBlockSz)
    (hbytes : ∀ i < target.length, ino (40 + i) = target.getD i 0) : LinksTo fs t target := by
  obtain ⟨ino', hread, hagree⟩ := readInode_agree hd H
  have h : Agree ino' ino 0 128 := Agree.trans
    (hagree.mono (Nat.le_refl 0) (by have := H.size; omega)) hino
  have hsize' : iSize ino' = target.length := (iSize_congr h).trans hsize
  refine linksTo_of_read hread hsize' (by unfold iBlockSz at hlen; omega)
    (fun sz buf _ hle i => ?_) hpos
  rw [if_neg (by rw [hsize']; omega)]
  unfold iBlockSz at hlen
  by_cases hi : i < sz
  · rw [if_pos hi, copy_apply (Nat.zero_le i) (by omega), Nat.sub_zero,
      h _ (Nat.zero_le _) (by omega), hbytes i (by omega)]
  · rw [if_neg hi, copy_apply_of_not (by omega)]

theorem linksTo_long (H : Mapped p n f) (hs : Saved f) (hsize : iSize f.ino = target.length)
    (hlen : iBlockSz < target.length) (hlt : target.length < 2 ^ 31)
    (hbytes : ∀ i < target.length, f.data p n i = target.getD i 0) :
    LinksTo f.fs f.no target := by
  obtain ⟨ino, hread, hm, hdata, hagree, -⟩ := H.reread hs
  have hsize' : iSize ino = target.length := (iSize_congr hagree).trans hsize
  refine linksTo_of_read hread hsize' hlt (fun sz buf hsz hle i => ?_) (by omega)
  have hmin : min sz (iSize (File.mk f.fs ino f.no []).ino - 0) = sz := by
    show min sz (iSize ino - 0) = sz
    omega
  rw [if_pos (by rw [hsize']; exact hlen),
    @Mapped.readBufferInode_eq p n _ 0 sz hm (by omega) (by rw [hmin]; exact hsz) buf, hmin, hdata]
  show (if i < sz then f.data p n (0 + i) else buf i) = _
  by_cases hi : i < sz
  · rw [if_pos hi, if_pos hi, Nat.zero_add, hbytes i (by omega)]
  · rw [if_neg hi, if_neg hi]

end Target

/-! ## Creating a link -/

theorem freeInode_critical (fs : Fs) (no : Nat) : (freeInode fs no).2.critical = fs.critical := by
  unfold freeInode
  split
  · rfl
  · simp [releaseBit, commit, writeSuperblock]

theorem iBlock_newLink (k : Nat) : iBlock newLink k = 0 := by
  rw [iBlock, newLink, rd32_wr16_of_disjoint (by omega), setILinksCount,
    rd32_wr16_of_disjoint (by omega)]
  rfl

/-- The first thing `write_buffer_inode` does is to raise the size. -/
theorem writeBufferInode_resize {N off sz : Nat} (f : File) (buf : Mem) :
    writeBufferInode N (f.resize (add32 off sz)) off sz buf = writeBufferInode N f off sz buf := by
  have hlt : add32 off sz < 2 ^ 32 := Nat.mod_lt _ (by decide)
  have hresize : (f.resize (add32 off sz)).resize (add32 off sz) = f.resize (add32 off sz) := by
    unfold File.resize
    by_cases h : iSize f.ino < add32 off sz
    · rw [if_pos h, if_neg]
      show ¬iSize (setISize f.ino (add32 off sz)) < _
      rw [iSize_setISize _ hlt]
      exact Nat.lt_irrefl _
    · rw [if_neg h, if_neg h]
  unfold writeBufferInode
  rw [hresize]

section Symlink

variable {p n t d N : Nat} {fs : Fs} {es : List Nat} {name target : List UInt8}

/-- Giving an inode its target. If no allocation fails, it is a link to it; the
folders of other inodes are as they were. -/
theorem OneGroup.writeTarget (G : OneGroup fs) (hp : ptrs fs = p) (ht : Number fs t)
    (hpos : 0 < target.length) (hlen : target.length ≤ fs.blockSz * 12) (hN : 12 ≤ N) :
    ∃ fs', Ext2.writeTarget N fs newLink t target = some fs' ∧ fs.critical ≤ fs'.critical
      ∧ (fs'.critical = fs.critical → LinksTo fs' t target)
      ∧ ∀ {n d : Nat} {es : List Nat}, Folder p n fs d es → d ≠ t → Folder p n fs' d es
        ∧ (fileOf fs' d).entries p n es = (fileOf fs d).entries p n es := by
  have H := (G.homed ht).1
  have hbs := G.blockSz_le
  have hcrit : ∀ ino, fs.critical ≤ (Ext2.writeInode fs ino t).2.critical := fun ino =>
    (@writeInode_run _ _ true G.toVolume H ino).critical
  unfold Ext2.writeTarget
  by_cases hshort : target.length ≤ iBlockSz
  · simp only [if_pos hshort]
    have hlt : target.length < 2 ^ 32 := by omega
    refine ⟨_, rfl, hcrit _, fun _ => ?_, fun D hne => D.writeInode ht hne _⟩
    generalize hino : setISize (copy newLink 40 (fun i => target.getD i 0) 0 target.length)
      target.length = ino
    have hf := (@writeInode_run _ _ true G.toVolume H ino).format
    refine linksTo_short (by rw [hf.devSz]; exact G.dev) (H.of_sameFormat hf)
      ((diskInode_writeInode G.toVolume H ino).mono (Nat.le_refl 0) (by have := H.size; omega))
      ?_ hpos hshort fun i hi => ?_
    · rw [← hino]
      exact iSize_setISize _ hlt
    · rw [← hino, setISize, wr32_apply_of_ne (by omega), copy_apply (by omega) (by omega)]
      congr 1
      omega
  · simp only [if_neg hshort]
    have hlong : target.length < 2 ^ 31 := by omega
    -- the size is raised first, which saves the inode
    generalize hino : setISize newLink target.length = ino
    have hresize : File.resize ⟨fs, newLink, t, []⟩ (add32 0 target.length)
        = ⟨(Ext2.writeInode fs ino t).2, ino, t, []⟩ := by
      rw [add32_of_lt (by omega), Nat.zero_add, ← hino]
      exact if_pos hpos
    have hs : Saved ⟨(Ext2.writeInode fs ino t).2, ino, t, []⟩ :=
      (@HomeKept.save ⟨fs, newLink, t, []⟩ G.toVolume H ino).2
    have hf := (@writeInode_run _ _ true G.toVolume H ino).format
    have ht₁ := hf.number.mpr ht
    have G' := G.elsewhere ((@writeInode_run _ _ true G.toVolume H ino).elsewhere G.toVolume)
    have hptrs : ptrs (Ext2.writeInode fs ino t).2 = p := by rw [ptrs, hf.blockSz]; exact hp
    have hmap : ∀ k < 15, iBlock ino k = 0 := fun k _ => by
      rw [← hino, iBlock_setISize, iBlock_newLink]
    have hempty : Dense p 0 ⟨(Ext2.writeInode fs ino t).2, ino, t, []⟩ :=
      dense_empty hptrs G'.toVolume (G'.homed ht₁).1 (G'.homed ht₁).2
        (by rw [← hino]; exact (iBlocks_setISize _ _).trans (by decide)) hmap
    have hat : ∀ x, (tree p).Valid x → File.at ⟨(Ext2.writeInode fs ino t).2, ino, t, []⟩ x = 0 :=
      fun x hx => node_of_root (hmap _ hx.root)
    have hblocks : (0 + target.length - 1) / (Ext2.writeInode fs ino t).2.blockSz < N := by
      rw [hf.blockSz, Nat.div_lt_iff_lt_mul G.toVolume.blockSz_pos]
      have hmul := Nat.mul_le_mul_right fs.blockSz hN
      rw [Nat.mul_comm] at hlen
      omega
    rw [← writeBufferInode_resize, hresize]
    obtain ⟨g, m, hw, hedit, hend⟩ := @Mapped.writeRange p 0 _ 0 target.length N hempty.mapped hpos
      (by omega) hblocks fun i => target.getD i 0
    obtain ⟨new, hch⟩ := hedit.changed
    have h₁ := hcrit ino
    have h₂ := hedit.critical
    have hsize : iSize g.ino = target.length := by
      rw [hedit.size, ← hino]
      show max (iSize (setISize newLink target.length)) _ = _
      rw [iSize_setISize _ (by omega), Nat.zero_add, Nat.max_self]
    refine ⟨g.fs, by rw [hw]; rfl, h₁.trans h₂, fun hc => ?_, fun {n d es} D hne => ?_⟩
    · obtain ⟨-, hdata⟩ := hend (Or.inl (Nat.le_antisymm (hc.trans_le h₁) h₂))
      have hlinks := linksTo_long hedit.mapped (hedit.saved hs) hsize (Nat.lt_of_not_le hshort)
        hlong fun i hi => by
          rw [hdata, copy_apply (Nat.zero_le i) (by omega), Nat.sub_zero, Nat.zero_add]
      rwa [show g.no = t from hch.no] at hlinks
    · obtain ⟨D₁, hentries₁⟩ := D.writeInode ht hne ino
      obtain ⟨D', hentries'⟩ := @Folder.changed p n d _ _ es D₁ ht₁ hne hat new hch
      exact ⟨D', hentries'.trans hentries₁⟩

/-- **Symbolic links round-trip.** If no allocation fails, `ext2fs_symlink`
succeeds, the name leads to an inode, and `ext2fs_readlink` of this inode returns
the target, cut to the buffer. -/
theorem symlink_readlink (F : Folder p n fs d es) (hrw : fs.rw = true)
    (hname : 0 < name.length ∧ name.length < 256 ∧ 0 ∉ name)
    (hnew : name ∉ ((fileOf fs d).entries p n es).map DirEntry.name)
    (hpos : 0 < target.length) (hlen : target.length ≤ fs.blockSz * 12)
    (hN : iSize (diskInode fs d) < N ∧ 12 ≤ N) :
    ∃ r fs', ext2fsSymlink N fs d name target = some (r, fs')
      ∧ (fs'.critical = fs.critical → r = 0 ∧ ∃ pino, readInode fs' d = some pino
        ∧ ∀ M, iSize pino < M → ∃ c, findDirentIn M fs' pino name = some (some c)
          ∧ ∀ sz buf, 0 < sz → ext2fsReadlink fs' (deInode c.buf c.p) sz buf
            = some (↑(min sz target.length), linkText target sz buf)) := by
  unfold ext2fsSymlink
  rw [if_neg (by rw [hrw]; exact nofun)]
  have hcases := alloc_cases F.toLayout F.toMarked F.zeroUsed .inode
  change ((allocInode fs).1 = 0 ∧ (allocInode fs).2 = reportFull fs ∧ _)
    ∨ Allocated .inode fs (allocInode fs).1 (allocInode fs).2 at hcases
  generalize allocInode fs = a at hcases
  obtain ⟨t, fs₁⟩ := a
  rcases hcases with ⟨ht0, hfull, -⟩ | h
  · -- no inode is left, which is reported
    simp only at ht0 hfull
    refine ⟨_, _, if_pos ht0, fun hc => absurd hc ?_⟩
    rw [hfull]
    exact Nat.succ_ne_self _
  · simp only at h ⊢
    obtain ⟨F₁, hentries₁, hsize₁, ht, hne⟩ := F.allocated h
    have hcap : t < 2 ^ 32 := Nat.lt_of_le_of_lt ht.2 (F₁.numbers .inode)
    have E : Enterable t name direntTypeLink :=
      ⟨hname.1, hname.2.1, hname.2.2, h.pos, hcap, by decide⟩
    obtain ⟨r, fs₂, hcreate, hf₂, G₂, hcrit₂, hend⟩ := F₁.enter E (by rwa [hentries₁])
      (by rw [hsize₁]; exact hN.1)
    have hcrit₁ := h.step.critical
    rw [if_neg h.pos, hcreate]
    by_cases hr : r = 0
    · subst hr
      have hbs : fs₂.blockSz = fs.blockSz := hf₂.blockSz.trans h.step.format.blockSz
      have hptrs : ptrs fs₂ = p := by
        rw [ptrs, hbs]
        exact F.dir.ptrs
      obtain ⟨fs₃, hwrite, hcrit₃, hlinks, hkeep⟩ := G₂.writeTarget hptrs (hf₂.number.mpr ht) hpos
        (by rwa [hbs]) hN.2
      refine ⟨0, fs₃, ?_, fun hc => ⟨rfl, ?_⟩⟩
      · simp only [hwrite]
        rfl
      obtain ⟨-, m, es', F₂, e, he, rfl, hino⟩ := hend (by omega)
      obtain ⟨F₃, hentries₃⟩ := hkeep F₂ hne
      obtain ⟨pino, hread, hfind⟩ := F₃.lookup (by rwa [hentries₃]) hname.2.2
      refine ⟨pino, hread, fun M hM => ?_⟩
      obtain ⟨c, hc', hlead⟩ := hfind M hM
      refine ⟨c, hc', ?_⟩
      rw [hlead, hino]
      exact hlinks (by omega)
    · -- the name could not be entered for want of a block
      simp only [if_pos hr]
      refine ⟨_, _, rfl, fun hc => absurd (hend ?_).1 hr⟩
      rw [freeInode_critical] at hc
      omega

end Symlink

/-! ## A link in an empty directory -/

theorem freshFs_size : iSize (fileOf freshFs 1).ino = 0 := by decide +kernel

theorem freshFs_folder : Folder 256 0 freshFs 1 [] where
  toOneGroup := freshFs_oneGroup
  number := ⟨by decide, by decide +kernel⟩
  inUse := by decide +kernel
  dir :=
    { toMapped := (Dense.of_agree emptyFile_dense fun i h0 hi => emptyFile_saved i h0 hi).mapped
      records :=
        { tiles := freshFs_size.symm
          inBlock := nofun
          fits := nofun
          multiple := by rw [freshFs_size]; exact Nat.dvd_zero _
          bounded := by rw [freshFs_size]; decide }
      covers := Nat.le_of_eq freshFs_size
      tidy := ⟨nofun, nofun, List.nodup_nil⟩
      short := by decide
      saved := fun _ _ _ => rfl }
  offTable := fun x hx h0 => by
    have hroots : ∀ k < 15, iBlock (fileOf freshFs 1).ino k = 0 := by decide +kernel
    exact absurd (node_of_root (hroots _ hx.root)) h0

/-- A target of 1500 bytes, in two blocks, under the first name of the directory. -/
theorem symlink_readlink_first :
    ∃ fs', ext2fsSymlink 12 freshFs 1 [97] (List.replicate 1500 98) = some (0, fs')
      ∧ ∃ pino, readInode fs' 1 = some pino
        ∧ ∀ M, iSize pino < M → ∃ c, findDirentIn M fs' pino [97] = some (some c)
          ∧ ∀ sz buf, 0 < sz → ext2fsReadlink fs' (deInode c.buf c.p) sz buf
            = some (↑(min sz (List.replicate 1500 (98 : UInt8)).length),
              linkText (List.replicate 1500 98) sz buf) := by
  have hcrit : (ext2fsSymlink 12 freshFs 1 [97] (List.replicate 1500 98)).map
      (fun r => r.2.critical) = some freshFs.critical := by decide +kernel
  obtain ⟨r, fs', heq, hend⟩ := @symlink_readlink 256 0 1 12 freshFs [] [97]
    (List.replicate 1500 98) freshFs_folder rfl (by decide) List.not_mem_nil
    (by rw [List.length_replicate]; decide) (by rw [List.length_replicate]; decide)
    (by decide +kernel)
  rw [heq] at hcrit
  obtain ⟨rfl, hrest⟩ := hend (Option.some.inj hcrit)
  exact ⟨fs', heq, hrest⟩

end Ext2

end Shitos
