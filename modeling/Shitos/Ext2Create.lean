import Shitos.Ext2Steps

/-!
# New nodes

`ext2fs_mknod` and `ext2fs_symlink` take an inode and enter its name before they save it.
The entries `.` and `..` of a new directory go to an inode that only memory has. As the
first of them saves it, the inode might as well have been saved before
(`createDirent2_saved`), and then these are names entered in a directory like others.
-/

namespace Shitos

namespace Ext2

open PtrTree

/-! ## Saving twice -/

section Twice

variable {fs : Fs} {t N : Nat} {ino ino' : Mem}

/-- The bytes that `write_inode` writes. -/
theorem writeInode_dev (V : Volume fs) (H : Homed fs t) (ino : Mem) (x : Nat) :
    (writeInode fs ino t).2.dev x = if x / fs.blockSz = home fs t ∧ homeOff fs t ≤ x % fs.blockSz
        ∧ x % fs.blockSz < homeOff fs t + fs.inodeSz then ino (x % fs.blockSz - homeOff fs t)
      else fs.dev x := by
  have hbs := V.blockSz_pos
  have hf := (@writeInode_run _ _ true V H ino).format
  by_cases hhome : x / fs.blockSz = home fs t
  · have hblk := writeInode_blk V H ino (Nat.mod_lt x hbs)
    rw [← hhome, blk, blk, hf.blockSz, Nat.div_add_mod'] at hblk
    rw [hblk]
    simp [hhome]
  · rw [if_neg fun h => hhome h.1, writeInode_snd H.numbered, writeBlock_dev V.dev hbs H.inVol,
      if_neg hhome]

theorem writeInode_eq (h : Numbered fs t) (ino : Mem) :
    (writeInode fs ino t).2 = { fs with dev := (writeInode fs ino t).2.dev } := by
  rw [writeInode_snd h]
  unfold writeBlock
  split <;> rfl

/-- What has been saved before does not matter. -/
theorem writeInode_writeInode (V : Volume fs) (H : Homed fs t) (ino ino' : Mem) :
    (writeInode (writeInode fs ino t).2 ino' t).2 = (writeInode fs ino' t).2 := by
  have hr := @writeInode_run _ _ true V H ino
  have V' := V.of_taken hr
  have H' := H.of_sameFormat hr.format
  have hdev : (writeInode (writeInode fs ino t).2 ino' t).2.dev = (writeInode fs ino' t).2.dev := by
    funext x
    rw [writeInode_dev V' H', writeInode_dev V H ino' x, writeInode_dev V H ino x,
      hr.format.blockSz, hr.format.home, hr.format.homeOff, hr.format.inodeSz]
    split <;> rfl
  rw [writeInode_eq H'.numbered, writeInode_eq H.numbered ino', hdev, writeInode_eq H.numbered ino]

/-- The first entry of a directory saves its inode. -/
theorem createDirent2_saved {u type : Nat} {name : List UInt8} (V : Volume fs) (H : Homed fs t)
    (hsize : iSize ino = 0) (hblocks : iBlocks ino = 0) :
    createDirent2 N ⟨(writeInode fs ino t).2, ino, t, []⟩ u name type
      = createDirent2 N ⟨fs, ino, t, []⟩ u name type := by
  have hf := (@writeInode_run _ _ true V H ino).format
  have hfirst : firstBlock (writeInode fs ino t).2 ino = firstBlock fs ino := by
    simp [firstBlock, dirRead, readBlockInode, hblocks, getContentBlocks, sub32, hf.blockSz,
      hf.fresh]
  have hstop : ∀ read blockSz nameLen (c : Cursor), createTurn read blockSz 0 nameLen c
      = .stop (false, c) := fun read blockSz nameLen c => if_neg (Nat.not_lt_zero _)
  cases N with
  | zero => rfl
  | succ N =>
      unfold createDirent2
      simp only [hsize, loop_stop (hstop _ _ _ _), hfirst, hf.blockSz, File.save,
        writeInode_writeInode V H]
      rfl

end Twice

/-! ## Success -/

section Success

variable {f f' : File} {k r N off : Nat} {buf : Mem}

theorem allocBlock_quiet {fs : Fs} (h : (allocBlock fs).1 ≠ 0) :
    (allocBlock fs).2.critical = fs.critical := by
  unfold allocBlock at h ⊢
  split at h
  · exact absurd rfl h
  · simp only at h ⊢
    split at h
    · exact absurd rfl h
    · rename_i hpos
      rw [if_neg hpos]
      simp [takeBit, commit, writeSuperblock]

theorem File.alloc_quiet (h : f.alloc.1 ≠ 0) : f.alloc.2.fs.critical = f.fs.critical :=
  allocBlock_quiet h

@[simp] theorem File.save_critical (f : File) : f.save.2.fs.critical = f.fs.critical :=
  writeInode_critical ..

@[simp] theorem File.store_critical (f : File) (b : Nat) (buf : Mem) :
    (f.store b buf).2.fs.critical = f.fs.critical := writeBlock_critical ..

/-- If the call succeeds, no allocation has failed in it. -/
def Quiet (f : File) (res : Status × File) : Prop :=
  res.1 = .success → res.2.fs.critical = f.fs.critical

theorem ensureRoot_quiet (f : File) (k : Nat) : Quiet f (ensureRoot f k) := by
  unfold ensureRoot
  split
  · exact fun _ => rfl
  · simp only
    split
    · intro h
      cases h
    · rename_i hpos
      intro _
      simp [File.alloc_quiet hpos]

theorem ensureEntry_quiet (f : File) (t : Nat) (tmp : Mem) (idx : Nat) :
    Quiet f ((ensureEntry f t tmp idx).1, (ensureEntry f t tmp idx).2.2) := by
  unfold ensureEntry
  simp only
  split
  · exact fun _ => rfl
  · split
    · intro h
      cases h
    · rename_i hpos
      intro _
      simp [File.alloc_quiet hpos]

@[simp] theorem setEntry_critical (f : File) (t : Nat) (tmp : Mem) (idx realBlock : Nat) :
    (setEntry f t tmp idx realBlock).2.fs.critical = f.fs.critical := File.store_critical ..

theorem setRealBlock_quiet (f : File) (k r : Nat) : Quiet f (setRealBlock f k r) := by
  unfold setRealBlock
  simp only
  split
  · intro _
    simp
  split
  · have h := ensureRoot_quiet f 12
    split
    · rename_i heq
      rw [heq] at h
      exact fun _ => (setEntry_critical ..).trans (h rfl)
    · rename_i heq
      rw [heq] at h
      exact h
  split
  · have h := ensureRoot_quiet f 13
    split
    · rename_i f₁ heq
      rw [heq] at h
      have h' := ensureEntry_quiet f₁ (iBlock f₁.ino 13) f₁.fs.fresh
        ((k - 12 - ptrs f.fs) / ptrs f.fs)
      split
      · rename_i heq'
        rw [heq'] at h'
        exact fun _ => (setEntry_critical ..).trans ((h' rfl).trans (h rfl))
      · rename_i heq'
        rw [heq'] at h'
        exact fun hs => (h' hs).trans (h rfl)
    · rename_i heq
      rw [heq] at h
      exact h
  · have h := ensureRoot_quiet f 14
    split
    · rename_i f₁ heq
      rw [heq] at h
      have h' := ensureEntry_quiet f₁ (iBlock f₁.ino 14) f₁.fs.fresh
        ((k - 12 - ptrs f.fs - ptrs f.fs * ptrs f.fs) / (ptrs f.fs * ptrs f.fs))
      split
      · rename_i tmp f₂ heq'
        rw [heq'] at h'
        have h'' := ensureEntry_quiet f₂
          (rd32 tmp (4 * ((k - 12 - ptrs f.fs - ptrs f.fs * ptrs f.fs)
            / (ptrs f.fs * ptrs f.fs)))) tmp
          ((k - 12 - ptrs f.fs - ptrs f.fs * ptrs f.fs) % (ptrs f.fs * ptrs f.fs) / ptrs f.fs)
        split
        · rename_i heq''
          rw [heq''] at h''
          exact fun _ => (setEntry_critical ..).trans ((h'' rfl).trans ((h' rfl).trans (h rfl)))
        · rename_i heq''
          rw [heq''] at h''
          exact fun hs => (h'' hs).trans ((h' rfl).trans (h rfl))
      · rename_i heq'
        rw [heq'] at h'
        exact fun hs => (h' hs).trans (h rfl)
    · rename_i heq
      rw [heq] at h
      exact h

theorem allocInodeBlock_quiet (f : File) (k : Nat) : Quiet f (allocInodeBlock f k) := by
  unfold allocInodeBlock
  simp only
  split
  · intro h
    cases h
  · rename_i hpos
    have h := setRealBlock_quiet f.alloc.2 k f.alloc.1
    split
    · rename_i heq
      rw [heq] at h
      refine fun _ => (File.save_critical _).trans ?_
      rw [File.raise_fs]
      exact (h rfl).trans (File.alloc_quiet hpos)
    · rename_i heq
      rw [heq] at h
      exact fun hs => (h hs).trans (File.alloc_quiet hpos)

theorem growLoop_quiet {res : Status × File} : ∀ {N : Nat} {f : File},
    growLoop N f off = some res → Quiet f res := by
  intro N
  induction N with
  | zero =>
      intro f h
      unfold growLoop at h
      simp only at h
      split at h
      · obtain rfl := Option.some.inj h
        exact fun _ => rfl
      · cases h
  | succ N ih =>
      intro f h
      unfold growLoop at h
      simp only at h
      split at h
      · obtain rfl := Option.some.inj h
        exact fun _ => rfl
      · have hq := allocInodeBlock_quiet f (getContentBlocks f.fs (iBlocks f.ino))
        split at h
        · rename_i heq
          rw [heq] at hq
          exact fun hs => (ih h hs).trans (hq rfl)
        · rename_i heq
          rw [heq] at hq
          obtain rfl := Option.some.inj h
          exact hq

theorem writeBlockInode_quiet {res : Status × File}
    (h : writeBlockInode N f off buf = some res) : Quiet f res := by
  unfold writeBlockInode at h
  cases hg : growLoop N f off with
  | none =>
      rw [hg] at h
      cases h
  | some r =>
      have hq := growLoop_quiet hg
      obtain ⟨st, g⟩ := r
      rw [hg] at h
      cases st with
      | success =>
          obtain rfl := Option.some.inj h
          exact fun _ => (File.store_critical ..).trans (hq rfl)
      | badBlock =>
          obtain rfl := Option.some.inj h
          exact hq
      | noSpace =>
          obtain rfl := Option.some.inj h
          exact hq

/-- If a name has been entered, no allocation has failed. -/
theorem createDirent2_quiet {t type : Nat} {name : List UInt8}
    (h : createDirent2 N f t name type = some (0, f')) : f'.fs.critical = f.fs.critical := by
  unfold createDirent2 at h
  split at h
  · rename_i found c _
    simp only at h
    obtain ⟨⟨st, g⟩, hwrite, heq⟩ := Option.map_eq_some_iff.mp h
    obtain ⟨hst, rfl⟩ := Prod.mk.inj heq
    have hsuccess : st = .success := by
      by_contra hne
      rw [if_neg hne] at hst
      cases hst
    have hq := writeBlockInode_quiet hwrite hsuccess
    cases found with
    | true => exact hq
    | false => exact hq.trans (File.save_critical _)
  · cases h

theorem createDirent_quiet {fs fs' : Fs} {d t type : Nat} {name : List UInt8}
    (h : createDirent N fs d t name type = some (0, fs')) : fs'.critical = fs.critical := by
  unfold createDirent at h
  split at h
  · cases h
  · obtain ⟨⟨r, g⟩, hcreate, heq⟩ := Option.map_eq_some_iff.mp h
    obtain ⟨rfl, rfl⟩ := Prod.mk.inj heq
    exact createDirent2_quiet hcreate

end Success

/-! ## The inode of a new node -/

section NewNode

variable {p d t mode N : Nat} {A : Nodes} {fs : Fs} {f : File} {n : Node} {ino : Mem}
  {name target : List UInt8} {names : List UInt8 → Option Nat}

theorem and_typeMask (mode : Nat) : mode % 2 ^ 16 &&& 0xf000 = mode &&& 0xf000 := by
  have h := @Nat.and_mod_two_pow mode 0xf000 16
  rw [Nat.mod_eq_of_lt (Nat.lt_of_le_of_lt Nat.and_le_right (by decide))] at h
  exact h.symm

theorem iMode_newIno (mode : Nat) : iMode (newIno mode) = mode % 2 ^ 16 := by
  rw [iMode, newIno, setIMode, ← wr16_mod]
  exact rd16_wr16_same _ (Nat.mod_lt _ (by decide))

theorem newIno_apply {i : Nat} (h : 2 ≤ i ∧ i < 26 ∨ 28 ≤ i) : newIno mode i = 0 := by
  rw [newIno, setIMode, wr16_apply_of_ne (by omega), setILinksCount, wr16_apply_of_ne (by omega)]

theorem owner_newIno (mode : Nat) : iUid (newIno mode) = 0 ∧ iGid (newIno mode) = 0 :=
  ⟨@rd16_congr _ (fun _ => 0) _ fun i _ _ => newIno_apply (by omega),
    @rd16_congr _ (fun _ => 0) _ fun i _ _ => newIno_apply (by omega)⟩

theorem iLinksCount_newIno (mode : Nat) : iLinksCount (newIno mode) = 1 := by
  rw [iLinksCount, newIno, setIMode, rd16_wr16_of_disjoint (by omega)]
  exact rd16_wr16_same _ (by decide)

/-- An inode that has zeros in the fields of its blocks. -/
structure Blank (ino : Mem) : Prop where
  size : iSize ino = 0
  blocks : iBlocks ino = 0
  map : ∀ k < 15, iBlock ino k = 0

theorem rd32_zero {m : Mem} {a : Nat} (h : ∀ i, a ≤ i → i < a + 4 → m i = 0) : rd32 m a = 0 :=
  @rd32_congr m (fun _ => 0) a h

theorem Blank.of_zero (h : ∀ i, 4 ≤ i ∧ i < 8 ∨ 28 ≤ i → ino i = 0) : Blank ino where
  size := rd32_zero fun i _ _ => h i (by omega)
  blocks := rd32_zero fun i _ _ => h i (by omega)
  map := fun k _ => rd32_zero fun i _ _ => h i (by omega)

theorem blank_newIno (mode : Nat) : Blank (newIno mode) :=
  Blank.of_zero fun i hi => newIno_apply (by omega)

/-- Saving an inode as it is saved already. -/
theorem Image.resaved (W : Image p A f.fs) (hs : Saved f) (hn : A f.no = some n) :
    Image p A (writeInode f.fs f.ino f.no).2 := by
  have hon := W.nodes _ n hn
  have hsize := W.laid.inodeSz.1
  have hcopy : ∀ i < 128, f.ino i = diskInode f.fs f.no i := fun i hi =>
    (hs i (Nat.zero_le i) (by omega)).symm
  have h := W.edited hn (fun i hi => hcopy i (by omega))
    (hon.attrs.congr fun i hi => hcopy i (by omega)) rfl
  rwa [Function.update_eq_self_iff.mpr hn.symm] at h

/-- A new inode is saved as a file or a directory of no blocks. -/
theorem Image.saved_blank (W : Image p A fs) (hp : ptrs fs = p) (hA : A t = none)
    (ht : Number fs t) (hu : usedBit .inode fs (t - 1) = true) (hblank : Blank ino)
    (hattrs : Attrs ino n)
    (hb : n.body = .file [] ∨ fs.blockSz < 2 ^ 16 ∧ n.body = .dir fun _ => none) :
    Image p (Function.update A t (some n)) (writeInode fs ino t).2
      ∧ Saved ⟨(writeInode fs ino t).2, ino, t, []⟩ := by
  obtain ⟨hW, D, hs⟩ := W.saved_empty hp hA ht hblank.blocks hblank.map
  obtain ⟨hm, hdata, -, hsize⟩ := D.mapped.onDisk hs
  rw [show iSize (File.mk (writeInode fs ino t).2 ino t []).ino = 0 from hblank.size] at hsize
  change iSize (diskInode (writeInode fs ino t).2 t) = 0 at hsize
  have hf := (@writeInode_run _ _ true W.laid.toVolume (W.laid.homed ht).1 ino).format
  have hon : Holds p (writeInode fs ino t).2 t n.body → OnDisk p (writeInode fs ino t).2 t n :=
    OnDisk.of_saved W.laid.toOneGroup ht hu hattrs
  refine ⟨?_, hs⟩
  rcases hb with hb | ⟨hshort, hb⟩
  · refine hW.image (hon ?_) (by rw [hb]; trivial)
    rw [hb]
    refine ⟨0, hm, hsize, Nat.zero_le _, funext fun x => ?_⟩
    exact if_neg (Nat.not_lt_zero _)
  · refine hW.image (hon ?_) (by rw [hb]; trivial)
    rw [hb]
    have hempty : DirFile p 0 (fileOf (writeInode fs ino t).2 t) [] :=
      { toMapped := hm
        records :=
          { tiles := hsize.symm
            inBlock := by simp
            fits := by simp
            multiple := by
              change _ ∣ iSize (diskInode _ _)
              rw [hsize]
              exact Nat.dvd_zero _
            bounded := by
              change iSize (diskInode _ _) < _
              rw [hsize]
              decide }
        covers := by
          change iSize (diskInode _ _) ≤ _
          rw [hsize]
          exact Nat.zero_le _
        tidy := ⟨by simp, by simp, List.nodup_nil⟩
        short := by
          change (writeInode fs ino t).2.blockSz < _
          rw [hf.blockSz]
          exact hshort
        saved := fun _ _ _ => rfl }
    refine ⟨0, [], hempty, fun name u => ?_⟩
    simp [File.entries, entriesOf]

theorem IsDir.ptrs (W : Image p A fs) (hd : A.IsDir d names) :
    Ext2.ptrs fs = p ∧ fs.blockSz < 2 ^ 16 := by
  obtain ⟨n, hn, hb⟩ := hd
  have hholds := (W.nodes d n hn).holds
  rw [hb] at hholds
  obtain ⟨k, es, D, -⟩ := hholds
  exact ⟨D.ptrs, D.short⟩

/-- The names of a new directory. -/
theorem dots_eq (t d : Nat) : Function.update (Function.update (fun _ => none) [46] (some t))
    [46, 46] (some d) = dotNames t d := by
  funext name
  unfold dotNames
  by_cases h : name = [46, 46]
  · subst h
    simp
  · simp [Function.update_apply, h]

theorem isDir_update {A : Nodes} {n : Node} (hb : n.body = .dir names) :
    Nodes.IsDir (Function.update A t (some n)) t names := ⟨n, Function.update_self .., hb⟩

theorem setName_update {A : Nodes} {n : Node} (hb : n.body = .dir names) (u : Option Nat) :
    Nodes.setName (Function.update A t (some n)) t name u = Function.update A t
      (some { n with body := .dir (Function.update names name u) }) := by
  rw [setName_eq (Function.update_self ..) hb, Function.update_idem]

/-- Making the entries `.` and `..` and saving the directory. -/
theorem Image.createDots (W : Image p A fs) (hp : ptrs fs = p) (hshort : fs.blockSz < 2 ^ 16)
    (hA : A t = none) (ht : Number fs t) (hu : usedBit .inode fs (t - 1) = true)
    (hblank : Blank ino) (hattrs : Attrs ino n) (hb : n.body = .dir fun _ => none)
    (hd : d ≠ 0 ∧ d < 2 ^ 32) (hN : 2 ^ 32 ≤ N) :
    ∃ r f', Ext2.createDots N ⟨fs, ino, t, []⟩ d = some (r, f') ∧ SameFormat fs f'.fs
      ∧ fs.critical ≤ f'.fs.critical ∧ (f'.fs.critical = fs.critical → r = 0
        ∧ Image p (Function.update A t (some { n with body := .dir (dotNames t d) }))
          (writeInode f'.fs f'.ino t).2) := by
  have H := (W.laid.homed ht).1
  have hr := @writeInode_run _ _ true W.laid.toVolume H ino
  have hcap : t < 2 ^ 32 := Nat.lt_of_le_of_lt ht.2 (W.laid.numbers .inode)
  obtain ⟨W₁, hs₁⟩ := W.saved_blank hp hA ht hu hblank hattrs (Or.inr ⟨hshort, hb⟩)
  have E₁ : Enterable t [46] direntTypeDir :=
    ⟨by decide, by decide, by decide, ht.1, hcap, by decide⟩
  have E₂ : Enterable d [46, 46] direntTypeDir :=
    ⟨by decide, by decide, by decide, hd.1, hd.2, by decide⟩
  obtain ⟨r, f₁, hcreate, hent⟩ := @Image.createDirent2 p t N direntTypeDir _
    ⟨(writeInode fs ino t).2, ino, t, []⟩ [46] _ W₁ (isDir_update hb) hs₁ E₁ rfl hN
  rw [createDirent2_saved W.laid.toVolume H hblank.size hblank.blocks] at hcreate
  have hcrit₁ := hent.critical
  have hf₁ := hr.format.trans hent.format
  change (writeInode fs ino t).2.critical ≤ _ at hcrit₁
  rw [writeInode_critical] at hcrit₁
  unfold Ext2.createDots
  simp only [hcreate]
  by_cases hr₁ : r = 0
  · subst hr₁
    have hquiet : f₁.fs.critical = fs.critical := createDirent2_quiet hcreate
    obtain ⟨-, hs₂, W₂⟩ := hent.entered (hquiet.trans (writeInode_critical ..).symm)
    have hno : f₁.no = t := hent.no
    rw [setName_update hb] at W₂
    obtain ⟨r₂, f₂, hcreate₂, hent₂⟩ :=
      W₂.createDirent2 (by rw [hno]; exact isDir_update rfl) hs₂ E₂ (by simp) hN
    refine ⟨r₂, f₂, by simpa using hcreate₂, hf₁.trans hent₂.format, ?_, fun hc => ?_⟩
    · rw [← hquiet]
      exact hent₂.critical
    · obtain ⟨hr₂, hs₃, W₃⟩ := hent₂.entered (hc.trans hquiet.symm)
      rw [hno, setName_update rfl, dots_eq] at W₃
      have hno₂ : f₂.no = t := hent₂.no.trans hno
      have W₄ := W₃.resaved hs₃ (by rw [hno₂]; exact Function.update_self ..)
      rw [hno₂] at W₄
      exact ⟨hr₂, W₄⟩
  · refine ⟨r, f₁, by simp [hr₁], hf₁, hcrit₁, fun hc => ?_⟩
    exact absurd (hent.entered (hc.trans (writeInode_critical ..).symm)).1 hr₁

/-- What a call leaves behind that makes node `n` of number `t`, with a name. -/
def Made (p : Nat) (A : Nodes) (d : Nat) (name : List UInt8) (node : Nat → Node) (fs : Fs)
    (r : Int) (fs' : Fs) : Prop :=
  fs.critical ≤ fs'.critical ∧ (fs'.critical = fs.critical → r = 0 ∧ fs'.rw = fs.rw
    ∧ ∃ t, A t = none
      ∧ Image p (Function.update (A.setName d name (some t)) t (some (node t))) fs')

/-- The entry of a new inode. -/
structure Named (p : Nat) (A : Nodes) (fs : Fs) (d : Nat) (name : List UInt8) (t : Nat)
    (fs' : Fs) : Prop where
  image : Image p (A.setName d name (some t)) fs'
  free : A t = none
  none : A.setName d name (some t) t = none
  number : Number fs' t
  inUse : usedBit .inode fs' (t - 1) = true
  format : SameFormat fs fs'
  critical : fs'.critical = fs.critical

/-- Taking an inode and entering its name. -/
theorem Image.nameInode (W : Image p A fs) (hd : A.IsDir d names) (hnew : names name = none)
    (hname : GoodName name) (hN : 2 ^ 32 ≤ N) :
    ((allocInode fs).1 = 0 ∧ (allocInode fs).2.critical = fs.critical + 1)
      ∨ (allocInode fs).1 ≠ 0 ∧ ∃ r fs', Ext2.createDirent N (allocInode fs).2 d (allocInode fs).1
          name direntTypeLink = some (r, fs') ∧ fs.critical ≤ fs'.critical
        ∧ (r = 0 → Named p A fs d name (allocInode fs).1 fs')
        ∧ (fs'.critical = fs.critical → r = 0) := by
  have hcases := alloc_cases W.laid.toLayout W.laid.toMarked W.laid.zeroUsed .inode
  change ((allocInode fs).1 = 0 ∧ (allocInode fs).2 = reportFull fs ∧ _)
    ∨ Allocated .inode fs (allocInode fs).1 (allocInode fs).2 at hcases
  generalize allocInode fs = a at hcases
  obtain ⟨t, fs₁⟩ := a
  rcases hcases with ⟨ht0, hfull, -⟩ | h
  · simp only at ht0 hfull ⊢
    exact Or.inl ⟨ht0, by rw [hfull]; rfl⟩
  · simp only at h ⊢
    obtain ⟨W₁, hA, ht, hu⟩ := W.allocated h
    have hcap : t < 2 ^ 32 := Nat.lt_of_le_of_lt ht.2 (W₁.laid.numbers .inode)
    have E : Enterable t name direntTypeLink :=
      ⟨hname.1, hname.2.1, hname.2.2, h.pos, hcap, by decide⟩
    obtain ⟨r, f', pino, hcreate, hent⟩ := W₁.createDirent hd E hnew hN
    have hcrit : fs₁.critical = fs.critical := h.step.critical
    have hle : fs₁.critical ≤ f'.fs.critical := hent.critical
    refine Or.inr ⟨h.pos, r, f'.fs, hcreate, by omega, fun hr => ?_, fun hc => ?_⟩
    · subst hr
      have hquiet := createDirent_quiet hcreate
      obtain ⟨-, -, W₂⟩ := hent.entered hquiet
      exact ⟨W₂, hA, edit_eq_none.mpr hA, hent.format.number.mpr ht,
        (hent.inodeBits t ht).trans hu, h.step.format.trans hent.format, hquiet.trans hcrit⟩
    · exact (hent.entered (hc.trans hcrit.symm)).1

/-- Making a file or a directory. -/
theorem Image.mknod (W : Image p A fs) (hrw : fs.rw = true) (hd : A.IsDir d names)
    (hnew : names name = none) (hname : GoodName name) (hN : 2 ^ 32 ≤ N) (mode : Nat) :
    ∃ r fs', ext2fsMknod N fs d name mode = some (r, fs')
      ∧ Made p A d name (fun t => newNode mode t d) fs r fs' := by
  obtain ⟨hptrs, hshort⟩ := IsDir.ptrs W hd
  have hdno : d ≠ 0 ∧ d < 2 ^ 32 := by
    obtain ⟨nd, hnd, -⟩ := id hd
    have hon := W.nodes d nd hnd
    exact ⟨hon.number.1, Nat.lt_of_le_of_lt hon.number.2 (W.laid.numbers .inode)⟩
  have hrw' : ¬fs.rw = false := by simp [hrw]
  unfold ext2fsMknod
  rw [if_neg hrw']
  have hcases := W.nameInode hd hnew hname hN
  generalize allocInode fs = a at hcases
  obtain ⟨t, fs₀⟩ := a
  simp only at hcases ⊢
  rcases hcases with ⟨ht0, hfull⟩ | ⟨hpos, r, fs₁, hcreate, hle, hok, hquiet⟩
  · exact ⟨enospc, fs₀, if_pos ht0, by omega, fun hc => absurd hc (by omega)⟩
  simp only [if_neg hpos, hcreate]
  by_cases hr : r = 0
  · subst hr
    have K := hok rfl
    have hcrit := K.critical
    have hrw₁ := K.format.rw
    have hptrs₁ : Ext2.ptrs fs₁ = p := by rw [Ext2.ptrs, K.format.blockSz]; exact hptrs
    by_cases hdir : mode &&& 0xf000 = 0x4000
    · -- a directory, with three links
      have hIsDir : IsDir (newIno mode) := by rw [IsDir, iMode_newIno, and_typeMask, hdir]
      have hshort₁ : fs₁.blockSz < 2 ^ 16 := by rw [K.format.blockSz]; exact hshort
      have hlinks : iLinksCount (newIno mode) + 2 = 3 := by rw [iLinksCount_newIno]
      have hblank : Blank (setILinksCount (newIno mode) 3) := Blank.of_zero fun i hi => by
        rw [setILinksCount, wr16_apply_of_ne (by omega), newIno_apply (by omega)]
      have hattrs : Attrs (setILinksCount (newIno mode) 3)
          ⟨mode % 2 ^ 16, 0, 0, 3, .dir fun _ => none⟩ := by
        refine ⟨?_, ?_, ?_, rd16_wr16_same _ (by decide)⟩
        · exact (rd16_wr16_of_disjoint (by omega)).trans (iMode_newIno mode)
        · exact (rd16_wr16_of_disjoint (by omega)).trans (owner_newIno mode).1
        · exact (rd16_wr16_of_disjoint (by omega)).trans (owner_newIno mode).2
      obtain ⟨r, f', hdots, hf', hle', hend⟩ := K.image.createDots hptrs₁ hshort₁ K.none K.number
        K.inUse hblank hattrs rfl hdno hN
      simp only [ne_eq, not_true_eq_false, if_false, if_pos hIsDir, hlinks, hdots]
      by_cases hr : r = 0
      · subst hr
        refine ⟨0, _, rfl, ?_, fun hc => ⟨rfl, ?_, t, K.free, ?_⟩⟩
        · rw [writeInode_critical]
          omega
        · exact (writeInode_sameMount ..).rw.trans (hf'.rw.trans hrw₁)
        · rw [writeInode_critical] at hc
          have h := (hend (hc.trans hcrit.symm)).2
          have hnode : newNode mode t d = ⟨mode % 2 ^ 16, 0, 0, 3, .dir (dotNames t d)⟩ :=
            if_pos hdir
          rw [← hnode] at h
          exact h
      · refine ⟨r, f'.fs, by simp [hr], by omega, fun hc => absurd (hend ?_).1 hr⟩
        exact hc.trans hcrit.symm
    · have hIsDir : ¬IsDir (newIno mode) := by rw [IsDir, iMode_newIno, and_typeMask]; exact hdir
      have hattrs : Attrs (newIno mode) (newNode mode t d) := by
        rw [newNode, if_neg hdir]
        exact ⟨iMode_newIno mode, (owner_newIno mode).1, (owner_newIno mode).2,
          iLinksCount_newIno mode⟩
      obtain ⟨h, -⟩ := K.image.saved_blank hptrs₁ K.none K.number K.inUse (blank_newIno mode)
        hattrs (Or.inl (by rw [newNode, if_neg hdir]))
      simp only [ne_eq, not_true_eq_false, if_false, if_neg hIsDir]
      refine ⟨0, _, rfl, ?_, fun _ => ⟨rfl, ?_, t, K.free, h⟩⟩
      · rw [writeInode_critical]
        omega
      · exact (writeInode_sameMount ..).rw.trans hrw₁
  · -- the name could not be entered
    refine ⟨r, (freeInode fs₁ t).2, by simp [hr], ?_, fun hc => absurd (hquiet ?_) hr⟩
    · rw [freeInode_critical]
      exact hle
    · rw [freeInode_critical] at hc
      exact hc

theorem attrs_newLink (target : List UInt8) : Attrs newLink ⟨0xa1ff, 0, 0, 1, .link target⟩ :=
  ⟨iMode_newIno 0xa1ff, (owner_newIno 0xa1ff).1, (owner_newIno 0xa1ff).2, iLinksCount_newIno 0xa1ff⟩

/-- Giving a new inode its target. -/
theorem Image.writeTarget (W : Image p A fs) (hp : Ext2.ptrs fs = p) (hA : A t = none)
    (ht : Number fs t) (hu : usedBit .inode fs (t - 1) = true)
    (hlen : target.length ≤ 12 * 1024) (hN : 2 ^ 32 ≤ N) :
    ∃ fs', Ext2.writeTarget N fs newLink t target = some fs' ∧ SameFormat fs fs'
      ∧ fs.critical ≤ fs'.critical ∧ (fs'.critical = fs.critical →
        Image p (Function.update A t (some ⟨0xa1ff, 0, 0, 1, .link target⟩)) fs') := by
  have H := (W.laid.homed ht).1
  have hf : ∀ ino, SameFormat fs (writeInode fs ino t).2 := fun ino =>
    (@writeInode_run _ _ true W.laid.toVolume H ino).format
  have hattrs := attrs_newLink target
  unfold Ext2.writeTarget
  by_cases hshort : target.length ≤ iBlockSz
  · simp only [if_pos hshort]
    refine ⟨_, rfl, hf _, Nat.le_of_eq (writeInode_critical ..).symm, fun _ => ?_⟩
    refine W.saved_inline hA ht hu (hattrs.congr fun i hi => ?_) rfl hshort ?_ fun i hi => ?_
    · rw [setISize, wr32_apply_of_ne (by omega), copy_apply_of_not (by omega)]
    · exact iSize_setISize _ (by omega)
    · rw [setISize, wr32_apply_of_ne (by omega), copy_apply (by omega) (by omega)]
      congr 1
      omega
  · simp only [if_neg hshort]
    have hpos : 0 < target.length := by omega
    -- the size is raised first, which saves the inode
    generalize hino : setISize newLink target.length = ino
    have hresize : File.resize ⟨fs, newLink, t, []⟩ (add32 0 target.length)
        = ⟨(writeInode fs ino t).2, ino, t, []⟩ := by
      rw [add32_of_lt (by omega), Nat.zero_add, ← hino]
      exact if_pos hpos
    have hattrs' : Attrs ino ⟨0xa1ff, 0, 0, 1, .link target⟩ := hattrs.congr fun i hi => by
      rw [← hino, setISize, wr32_apply_of_ne (by omega)]
    have hblocks : iBlocks ino = 0 := by
      rw [← hino]
      exact (iBlocks_setISize _ _).trans (blank_newIno 0xa1ff).blocks
    have hmap : ∀ k < 15, iBlock ino k = 0 := by
      intro k _
      rw [← hino, iBlock_setISize, iBlock_newLink]
    obtain ⟨hW, D, hs⟩ := W.saved_empty hp hA ht hblocks hmap
    have hblock : (0 + target.length - 1) / (writeInode fs ino t).2.blockSz < N := by
      have := Nat.div_le_self (0 + target.length - 1) (writeInode fs ino t).2.blockSz
      omega
    rw [← writeBufferInode_resize, hresize]
    obtain ⟨g, m, hw, hedit, hend⟩ := @Mapped.writeRange p 0 _ 0 target.length N D.mapped hpos
      (by omega) hblock fun i => target.getD i 0
    obtain ⟨new, hch⟩ := hedit.changed
    have hcrit := hedit.critical
    have hfg := (hf ino).trans hch.run.format
    have hno : g.no = t := hch.no
    refine ⟨g.fs, by rw [hw]; rfl, hfg, ?_, fun hc => ?_⟩
    · refine Nat.le_trans (Nat.le_of_eq (writeInode_critical fs ino t).symm) hcrit
    obtain ⟨hle, hdata⟩ := hend (Or.inl (hc.trans (writeInode_critical fs ino t).symm))
    have hs' := hedit.saved hs
    obtain ⟨hm', hdata', -, hsize'⟩ := hedit.mapped.onDisk hs'
    rw [hno] at hm' hdata' hsize'
    have hlong := Nat.not_le.mp hshort
    have hW' := @Around.changed p m A ⟨(writeInode fs ino t).2, ino, t, []⟩ g new hW
      (fun x hx => ?_) hch hedit.mapped hs'
    · refine hW'.image ⟨hfg.number.mpr ht, ?_, ?_, ?_, ?_⟩ hlong
      · refine (hch.run.inodeBits _ ((hf ino).number.mpr ht).lt).trans ?_
        exact ((@writeInode_run _ _ true W.laid.toVolume H ino).inodeBits _ ht.lt).trans hu
      · refine hattrs'.congr fun i hi => ?_
        have hisz := W.laid.inodeSz.1
        have h₁ := hs' i (Nat.zero_le i) (by rw [hfg.inodeSz]; omega)
        rw [hno] at h₁
        exact h₁.trans (hedit.fields i (by omega))
      · refine fun _ => ⟨m, hm', ?_, ?_, ?_⟩
        · rw [hsize', hedit.size, ← hino]
          change max (iSize (setISize newLink target.length)) _ = _
          rw [iSize_setISize _ (by omega), Nat.zero_add, Nat.max_self]
        · rw [hch.run.format.blockSz]
          omega
        · rw [hdata', hdata]
          funext x
          by_cases hx : x < target.length
          · rw [copy_apply (Nat.zero_le x) (by omega), Nat.sub_zero, Nat.zero_add]
          · rw [copy_apply_of_not (by omega), List.getD_eq_default _ _ (Nat.not_lt.mp hx)]
            exact if_neg (Nat.not_lt_zero _)
      · exact fun h => absurd h (Nat.not_le.mpr hlong)
    · exact ((D.mapped.onDisk hs).2.2.1 x hx).symm

/-- Making a symbolic link. -/
theorem Image.symlink (W : Image p A fs) (hrw : fs.rw = true) (hd : A.IsDir d names)
    (hnew : names name = none) (hname : GoodName name) (hlen : target.length ≤ 12 * 1024)
    (hN : 2 ^ 32 ≤ N) : ∃ r fs', ext2fsSymlink N fs d name target = some (r, fs')
      ∧ Made p A d name (fun _ => ⟨0xa1ff, 0, 0, 1, .link target⟩) fs r fs' := by
  obtain ⟨hptrs, -⟩ := IsDir.ptrs W hd
  unfold ext2fsSymlink
  rw [if_neg (by simp [hrw])]
  have hcases := W.nameInode hd hnew hname hN
  generalize allocInode fs = a at hcases
  obtain ⟨t, fs₀⟩ := a
  simp only at hcases ⊢
  rcases hcases with ⟨ht0, hfull⟩ | ⟨hpos, r, fs₁, hcreate, hle, hok, hquiet⟩
  · exact ⟨enospc, fs₀, if_pos ht0, by omega, fun hc => absurd hc (by omega)⟩
  simp only [if_neg hpos, hcreate]
  by_cases hr : r = 0
  · subst hr
    have K := hok rfl
    have hcrit := K.critical
    have hptrs₁ : Ext2.ptrs fs₁ = p := by rw [Ext2.ptrs, K.format.blockSz]; exact hptrs
    obtain ⟨fs', hwrite, hf', hle', hend⟩ := K.image.writeTarget hptrs₁ K.none K.number K.inUse
      hlen hN
    refine ⟨0, fs', by simp [hwrite], by omega, fun hc => ⟨rfl, ?_, t, K.free, ?_⟩⟩
    · exact hf'.rw.trans K.format.rw
    · exact hend (hc.trans hcrit.symm)
  · refine ⟨r, (freeInode fs₁ t).2, by simp [hr], ?_, fun hc => absurd (hquiet ?_) hr⟩
    · rw [freeInode_critical]
      exact hle
    · rw [freeInode_critical] at hc
      exact hc

end NewNode

end Ext2

end Shitos
