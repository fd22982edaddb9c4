import Shitos.Ext2Image

/-!
# One call

What each call does to a volume with the nodes `A`: if no allocation fails, the volume
has the nodes that the contract asks for, and the call returns what it asks for.
-/

namespace Shitos

namespace Ext2

open PtrTree

/-! ## The nodes -/

section Nodes

variable {A : Nodes} {t u d : Nat} {n : Node} {name : List UInt8}
  {names : List UInt8 → Option Nat} {change : Node → Node}

theorem edit_eq (h : A t = some n) : A.edit t change = Function.update A t (some (change n)) := by
  rw [Nodes.edit, h]
  rfl

theorem edit_of_ne (h : u ≠ t) : A.edit t change u = A u := Function.update_of_ne h _ _

@[simp] theorem edit_eq_none : A.edit t change u = none ↔ A u = none := by
  by_cases h : u = t
  · subst h
    simp [Nodes.edit]
  · rw [edit_of_ne h]

/-- A node is one directory. -/
theorem IsDir.unique {names' : List UInt8 → Option Nat} (h : A.IsDir d names)
    (h' : A.IsDir d names') : names = names' := by
  obtain ⟨n, hn, hb⟩ := h
  obtain ⟨n', hn', hb'⟩ := h'
  obtain rfl := Option.some.inj (hn.symm.trans hn')
  exact Body.dir.inj (hb.symm.trans hb')

theorem setName_eq (hn : A d = some n) (hb : n.body = .dir names) (t : Option Nat) :
    A.setName d name t
      = Function.update A d (some { n with body := .dir (Function.update names name t) }) := by
  rw [Nodes.setName, edit_eq hn, hb]
  rfl

end Nodes

theorem Attrs.body {ino : Mem} {n : Node} (h : Attrs ino n) (b : Body) :
    Attrs ino { n with body := b } := ⟨h.mode, h.uid, h.gid, h.links⟩

/-! ## Entering a name -/

section Enter

variable {p m d t N type : Nat} {A : Nodes} {fs fs' : Fs} {f f' : File} {es es' : List Nat}
  {e : DirEntry} {name : List UInt8} {names : List UInt8 → Option Nat}

/-- One more entry, under a new name. -/
theorem Entered.leads {n : Nat} (h : Entered p n m f f' es es' e)
    (hnames : ∀ name t, names name = some t ↔ ∃ e ∈ f.entries p n es, e.name = name ∧ e.inode = t)
    (hnew : names e.name = none) (name : List UInt8) (t : Nat) :
    Function.update names e.name (some e.inode) name = some t
      ↔ ∃ e' ∈ f'.entries p m es', e'.name = name ∧ e'.inode = t := by
  have hmem : ∀ e', e' ∈ f'.entries p m es' ↔ e' = e ∨ e' ∈ f.entries p n es := by
    intro e'
    rw [h.perm.mem_iff, List.mem_cons]
  by_cases hname : name = e.name
  · subst hname
    rw [Function.update_self, Option.some.injEq]
    constructor
    · intro hino
      exact ⟨e, (hmem e).mpr (Or.inl rfl), rfl, hino⟩
    · rintro ⟨e', he', heq, hino⟩
      rcases (hmem e').mp he' with rfl | hold
      · exact hino
      · have hsome := (hnames e.name e'.inode).mpr ⟨e', hold, heq, rfl⟩
        rw [hnew] at hsome
        cases hsome
  · rw [Function.update_of_ne hname, hnames]
    constructor
    · rintro ⟨e', he', heq⟩
      exact ⟨e', (hmem e').mpr (Or.inr he'), heq⟩
    · rintro ⟨e', he', heq, hino⟩
      rcases (hmem e').mp he' with rfl | hold
      · exact absurd heq.symm hname
      · exact ⟨e', hold, heq, hino⟩

/-- A directory that is saved, as it is in memory. -/
theorem Names.opened (h : Names p f.fs f.no names) (hs : Saved f) (hsize : 128 ≤ f.fs.inodeSz) :
    ∃ n es, DirFile p n f es ∧ (∀ x, (tree p).Valid x → f.at x = (fileOf f.fs f.no).at x)
      ∧ ∀ name t, names name = some t ↔ ∃ e ∈ f.entries p n es, e.name = name ∧ e.inode = t := by
  obtain ⟨n, es, D, hnames⟩ := h
  have hcopy : Agree f.ino (fileOf f.fs f.no).ino 0 128 := fun i hi hlt =>
    (hs i hi (by omega)).symm
  obtain ⟨hm, hdata, -⟩ := @Mapped.of_agree p n _ D.toMapped f.ino f.got hcopy
  obtain ⟨D', hentries⟩ := D.congr hm hs rfl (iSize_congr hcopy) hdata
  refine ⟨n, es, D', @File.at_of_agree p (fileOf f.fs f.no) f.ino f.got hcopy, fun name t => ?_⟩
  rw [hnames, ← hentries]
  rfl

/-- A directory that has been written to is one with the names it has now. -/
theorem Image.rewritten {k size : Nat} {names' : List UInt8 → Option Nat} {n : Node}
    (W : Image p A f.fs) (hn : A f.no = some n) (hb : n.body = .dir names) (hs : Saved f)
    (hat : ∀ x, (tree p).Valid x → f.at x = (fileOf f.fs f.no).at x)
    (hedit : Edited p k m size f f') (D : DirFile p m f' es')
    (hnames : ∀ name t, names' name = some t
      ↔ ∃ e ∈ f'.entries p m es', e.name = name ∧ e.inode = t) :
    Image p (Function.update A f.no (some { n with body := .dir names' })) f'.fs := by
  have hon := W.nodes _ n hn
  have hs' := D.saved
  have hsize := W.laid.inodeSz.1
  obtain ⟨new, hch⟩ := hedit.changed
  have hno : f'.no = f.no := hch.no
  have hW := W.around ⟨n, hn, by rw [hb]; trivial⟩
  refine (hW.changed hat hch D.toMapped hs').image
    ⟨hch.run.format.number.mpr hon.number, (hch.run.inodeBits _ hon.number.lt).trans hon.inUse,
    ?_, ?_⟩ trivial
  · -- the attributes are not touched
    refine (hon.attrs.congr fun i hi => ?_).body _
    have h₁ := hs' i (Nat.zero_le i) (by rw [hch.run.format.inodeSz]; omega)
    have h₂ := hs i (Nat.zero_le i) (by omega)
    rw [hno] at h₁
    rw [h₁, h₂]
    exact hedit.fields i (by omega)
  · obtain ⟨hm', hdata', -, hsize'⟩ := D.onDisk hs'
    rw [hno] at hm' hdata' hsize'
    obtain ⟨D', hentries'⟩ := D.congr hm' (fun _ _ _ => rfl) rfl hsize' hdata'
    refine ⟨m, es', D', fun name t => ?_⟩
    rw [hentries']
    exact hnames name t

/-- What `create_dirent2` leaves behind. -/
structure Entering (p : Nat) (A : Nodes) (f : File) (name : List UInt8) (t : Nat) (r : Int)
    (f' : File) : Prop where
  no : f'.no = f.no
  format : SameFormat f.fs f'.fs
  critical : f.fs.critical ≤ f'.fs.critical
  inodeBits : ∀ u, Number f.fs u → usedBit .inode f'.fs (u - 1) = usedBit .inode f.fs (u - 1)
  inodes : ∀ u, Number f.fs u → u ≠ f.no → Agree (diskInode f'.fs u) (diskInode f.fs u) 0 128
  entered : f'.fs.critical = f.fs.critical →
    r = 0 ∧ Saved f' ∧ Image p (A.setName f.no name (some t)) f'.fs

/-- `create_dirent2`, for a directory that is saved. -/
theorem Image.createDirent2 (W : Image p A f.fs) (hd : A.IsDir f.no names) (hs : Saved f)
    (E : Enterable t name type) (hnew : names name = none) (hN : 2 ^ 32 ≤ N) :
    ∃ r f', Ext2.createDirent2 N f t name type = some (r, f') ∧ Entering p A f name t r f' := by
  obtain ⟨n, hn, hb⟩ := hd
  have hon := W.nodes _ n hn
  have hholds := hon.holds
  rw [hb] at hholds
  obtain ⟨k, es, D, hat, hnames⟩ := Names.opened hholds hs W.laid.inodeSz.1
  have hfresh : name ∉ (f.entries p k es).map DirEntry.name := by
    intro hmem
    obtain ⟨e, he, heq⟩ := List.mem_map.mp hmem
    have hsome := (hnames name e.inode).mpr ⟨e, he, heq, rfl⟩
    rw [hnew] at hsome
    cases hsome
  obtain ⟨r, f', m, size, hcreate, hedit, hend⟩ := D.createDirent2 E hfresh
    (Nat.lt_of_lt_of_le (rd32_lt f.ino 4) hN)
  obtain ⟨new, hch⟩ := hedit.changed
  have hbits : ∀ u, Number f.fs u → usedBit .inode f'.fs (u - 1) = usedBit .inode f.fs (u - 1) :=
    fun u hu => hch.run.inodeBits _ hu.lt
  have hsize := W.laid.inodeSz.1
  have hW := W.around ⟨n, hn, by rw [hb]; trivial⟩
  have hinodes : ∀ u, Number f.fs u → u ≠ f.no →
      Agree (diskInode f'.fs u) (diskInode f.fs u) 0 128 := fun u hu hne =>
    (hW.untouched hat hch hu hne).inode.mono (Nat.le_refl 0) (by omega)
  refine ⟨r, f', hcreate, hch.no, hch.run.format, hedit.critical, hbits, hinodes, fun hcrit => ?_⟩
  obtain ⟨hr, es', b, hent⟩ := hend hcrit
  refine ⟨hr, hent.dir.saved, ?_⟩
  rw [setName_eq hn hb]
  exact W.rewritten hn hb hs hat hedit hent.dir (hent.leads hnames hnew)

/-- Reading an inode. -/
theorem OneGroup.read (G : OneGroup fs) (ht : Number fs t) : ∃ ino, readInode fs t = some ino
    ∧ Saved ⟨fs, ino, t, []⟩ ∧ Agree ino (diskInode fs t) 0 128 := by
  have H := (G.homed ht).1
  obtain ⟨ino, hread, hagree⟩ := readInode_agree G.dev H
  exact ⟨ino, hread, saved_of_read G.dev H hread,
    hagree.mono (Nat.le_refl 0) (by have := H.size; omega)⟩

/-- `create_dirent`. -/
theorem Image.createDirent (W : Image p A fs) (hd : A.IsDir d names) (E : Enterable t name type)
    (hnew : names name = none) (hN : 2 ^ 32 ≤ N) : ∃ r f' pino,
      Ext2.createDirent N fs d t name type = some (r, f'.fs)
        ∧ Entering p A ⟨fs, pino, d, []⟩ name t r f' := by
  obtain ⟨n, hn, -⟩ := id hd
  obtain ⟨pino, hread, hs, -⟩ := W.laid.read (W.nodes d n hn).number
  obtain ⟨r, f', hcreate, hent⟩ :=
    @Image.createDirent2 p t N type A ⟨fs, pino, d, []⟩ name names W hd hs E hnew hN
  refine ⟨r, f', pino, ?_, hent⟩
  unfold Ext2.createDirent
  rw [hread]
  exact congrArg (Option.map fun r => (r.1, r.2.fs)) hcreate

end Enter

/-! ## Files -/

section File

variable {p t off sz N : Nat} {A : Nodes} {fs : Fs} {bytes : List UInt8} {buf : Mem}

theorem overwrite_length : (overwrite bytes off sz buf).length = max bytes.length (off + sz) := by
  simp [overwrite]

theorem overwrite_getD (x : Nat) : (overwrite bytes off sz buf).getD x 0
    = if off ≤ x ∧ x < off + sz then buf (x - off) else bytes.getD x 0 := by
  unfold overwrite
  by_cases hx : x < max bytes.length (off + sz)
  · simp [List.getD_eq_getElem?_getD, hx]
  · rw [List.getD_eq_default _ _ (by simpa using hx), if_neg (by omega),
      List.getD_eq_default _ _ (by omega)]

/-- Writing to a file. -/
theorem Image.write (W : Image p A fs) (hrw : fs.rw = true) (hf : A.IsFile t bytes)
    (hsz : 0 < sz) (h : off + sz < 2 ^ 31) (hN : 2 ^ 32 ≤ N) (buf : Mem) :
    ∃ fs', ext2fsWrite N fs t off sz buf = some (↑sz, fs') ∧ SameFormat fs fs'
      ∧ fs.critical ≤ fs'.critical ∧ (fs'.critical = fs.critical →
        Image p (A.setBody t (.file (overwrite bytes off sz buf))) fs') := by
  obtain ⟨n, hn, hb⟩ := hf
  have hon := W.nodes t n hn
  have hholds := hon.holds
  rw [hb] at hholds
  obtain ⟨k, H, hsize, hcover, hdata⟩ := hholds
  obtain ⟨ino, hread, hs, hcopy⟩ := W.laid.read hon.number
  obtain ⟨hm, hdata₁, -⟩ := @Mapped.of_agree p k _ H ino [] hcopy
  have hat := @File.at_of_agree p (fileOf fs t) ino [] hcopy
  have hblock : (off + sz - 1) / fs.blockSz < N := by
    have := Nat.div_le_self (off + sz - 1) fs.blockSz
    omega
  obtain ⟨f', m, hw, hedit, hend⟩ := @Mapped.writeRange p k _ off sz N hm hsz (by omega) hblock buf
  obtain ⟨new, hch⟩ := hedit.changed
  refine ⟨f'.fs, ?_, hch.run.format, hedit.critical, fun hcrit => ?_⟩
  · rw [ext2fsWrite_eq (by simp [hrw]) hread hw, ssize_eq (by omega)]
  obtain ⟨hle, hbytes⟩ := hend (Or.inl hcrit)
  have hs' := hedit.saved hs
  have hno : f'.no = t := hch.no
  have hW := @Around.changed p m A ⟨fs, ino, t, []⟩ f' new (W.around ⟨n, hn, by rw [hb]; trivial⟩)
    hat hch hedit.mapped hs'
  rw [Nodes.setBody, edit_eq hn]
  have hlen := W.laid.inodeSz.1
  refine hW.image ⟨hch.run.format.number.mpr hon.number,
    (hch.run.inodeBits _ hon.number.lt).trans hon.inUse, ?_, ?_⟩ trivial
  · refine (hon.attrs.congr fun i hi => ?_).body _
    have h₁ := hs' i (Nat.zero_le i) (by
      rw [hch.run.format.inodeSz]
      change i < 0 + fs.inodeSz
      omega)
    rw [hno] at h₁
    refine h₁.trans ((hedit.fields i (by omega)).trans (hcopy i (Nat.zero_le i) (by omega)))
  · obtain ⟨hm', hdata', -, hsize'⟩ := hedit.mapped.onDisk hs'
    rw [hno] at hm' hdata' hsize'
    have hisize : iSize f'.ino = max bytes.length (off + sz) := by
      rw [hedit.size, ← hsize]
      exact congrArg (max · (off + sz)) (iSize_congr hcopy)
    refine ⟨m, hm', ?_, ?_, ?_⟩
    · rw [overwrite_length, hsize', hisize]
    · rw [overwrite_length, hch.run.format.blockSz]
      exact max_le (hcover.trans (Nat.mul_le_mul_right _ hedit.le)) hle
    · funext x
      rw [hdata', hbytes, hdata₁, hdata, overwrite_getD]
      by_cases hx : off ≤ x ∧ x < off + sz
      · rw [if_pos hx, copy_apply hx.1 hx.2, Nat.zero_add]
      · rw [if_neg hx, copy_apply_of_not (by omega)]

/-- At the end of a file, no byte is read. -/
theorem readBufferInode_end {fs : Fs} {ino : Mem} (hbs : 0 < fs.blockSz)
    (hoff : iSize ino = off) (hpos : 0 < off) (h : off + sz < 2 ^ 32) :
    readBufferInode fs ino off sz buf = (0, buf) := by
  have hstop : sub32 (add32 off 0) 1 / fs.blockSz < off / fs.blockSz + 1 := by
    rw [add32_of_lt (by omega), sub32_of_le (by omega)]
    exact Nat.lt_succ_of_le (Nat.div_le_div_right (by omega))
  have hpieces : pieces fs.blockSz off 0 = [⟨off / fs.blockSz, off % fs.blockSz, 0, 0⟩] := by
    simp [pieces, hbs, restPieces_nil hstop]
  have hrequest : readRequest fs ino off sz = (0, pieces fs.blockSz off 0) := by
    by_cases hsz : sz = 0
    · simp [readRequest, hoff, hsz, add32_of_lt (show off + 0 < 2 ^ 32 by omega)]
    · simp [readRequest, hoff, add32_of_lt h, sub32_of_le (Nat.le_refl off), Nat.pos_of_ne_zero hsz]
  have hcopy : ∀ src s, copy buf 0 src s 0 = buf := fun src s =>
    funext fun i => copy_apply_of_not (by omega)
  unfold readBufferInode
  rw [hrequest, hpieces]
  simp [readPiece, hbs.ne, hcopy]

/-- Reading a file. -/
theorem Image.read (W : Image p A fs) (hf : A.IsFile t bytes)
    (hpos : 0 < off ∨ 0 < bytes.length) (hsz : 0 < sz) (h : off + sz < 2 ^ 31) :
    ext2fsRead fs t off sz buf
      = some (↑(min sz (bytes.length - off)), readInto bytes off sz buf) := by
  obtain ⟨n, hn, hb⟩ := hf
  have hon := W.nodes t n hn
  have hholds := hon.holds
  rw [hb] at hholds
  obtain ⟨k, H, hsize, hcover, hdata⟩ := hholds
  obtain ⟨ino, hread, hs, hcopy⟩ := W.laid.read hon.number
  obtain ⟨hm, hdata₁, -⟩ := @Mapped.of_agree p k _ H ino [] hcopy
  have hsize₁ : iSize ino = bytes.length := (iSize_congr hcopy).trans hsize
  have hbuf : readBufferInode fs ino off sz buf
      = (min sz (bytes.length - off), readInto bytes off sz buf) := by
    rcases Nat.lt_trichotomy off bytes.length with hlt | heq | hgt
    · have hmin : 0 < min sz (iSize ino - off) := by omega
      refine (@Mapped.readBufferInode_eq p k _ off sz hm (by omega) hmin buf).trans ?_
      change (min sz (iSize ino - off), _) = _
      rw [hsize₁, hdata₁, hdata]
      rfl
    · have hpos' : 0 < fs.blockSz := hm.pos
      rw [readBufferInode_end hpos' (hsize₁.trans heq.symm) (by omega) (by omega)]
      refine Prod.ext (show 0 = min sz (bytes.length - off) by omega) (funext fun i => ?_)
      exact (if_neg (by omega)).symm
    · have hrequest : readRequest fs ino off sz = (0, []) := if_pos (by omega)
      unfold readBufferInode
      rw [hrequest]
      refine Prod.ext (show 0 = min sz (bytes.length - off) by omega) (funext fun i => ?_)
      exact (if_neg (by omega)).symm
  unfold ext2fsRead
  rw [hread]
  simp only [hbuf]
  rw [ssize_eq (by omega)]

end File

/-! ## Looking up -/

section Lookup

variable {p d t sz N : Nat} {A : Nodes} {fs : Fs} {n : Node} {ino buf : Mem} {name : List UInt8}
  {names : List UInt8 → Option Nat} {target : List UInt8}

theorem Attrs.read (h : Attrs (diskInode fs t) n) (hcopy : Agree ino (diskInode fs t) 0 128) :
    Attrs ino n := h.congr fun i hi => hcopy i (Nat.zero_le i) (by omega)

theorem OnDisk.hasSize (h : OnDisk p fs t n) : n.HasSize (iSize (diskInode fs t)) := by
  have hholds := h.holds
  unfold Node.HasSize
  cases hb : n.body with
  | file bytes =>
      rw [hb] at hholds
      obtain ⟨k, -, hsize, -⟩ := hholds
      exact hsize
  | dir names => trivial
  | link target =>
      rw [hb] at hholds
      by_cases hlong : iBlockSz < target.length
      · obtain ⟨k, -, hsize, -⟩ := hholds.1 hlong
        exact hsize
      · exact (hholds.2 (Nat.not_lt.mp hlong)).size

/-- Where `find_dirent` stops, and what it finds there. -/
theorem Names.find (h : Names p fs d names) (hs : Saved ⟨fs, ino, d, []⟩) (hsize : 128 ≤ fs.inodeSz)
    (h0 : 0 ∉ name) (hN : 2 ^ 32 ≤ N) : (names name = none → findDirentIn N fs ino name = some none)
      ∧ ∀ t, names name = some t → ∃ c, findDirentIn N fs ino name = some (some c)
        ∧ deInode c.buf c.p = t ∧ deName c.buf c.p = name := by
  obtain ⟨k, es, D, -, hnames⟩ := @Names.opened p ⟨fs, ino, d, []⟩ names h hs hsize
  have hcount : es.length < N := by
    have hle := D.records.tiles.length_le (k := 1) fun g hg => D.records.tiles.pos hg
    have hlt := D.records.bounded
    change _ ≤ iSize ino at hle
    change iSize ino < _ at hlt
    omega
  have hfind := D.toListing.find name hcount
  cases hentry : entryOf (File.data p k ⟨fs, ino, d, []⟩) es name with
  | none =>
      rw [hentry] at hfind
      refine ⟨fun _ => hfind, fun t ht => ?_⟩
      obtain ⟨e, he, hname, -⟩ := (hnames name t).mp ht
      obtain ⟨g, hg, hlive, rfl⟩ := mem_entriesOf.mp he
      have hmiss := List.find?_eq_none.mp hentry g hg
      exact absurd (decide_eq_true ((hit_iff_name h0).mpr ⟨hlive, hname⟩)) hmiss
  | some g =>
      rw [hentry] at hfind
      obtain ⟨c, hc, hstand⟩ := hfind
      obtain ⟨hg, hhit⟩ := entryOf_hit hentry
      obtain ⟨hlive, hname⟩ := (hit_iff_name h0).mp hhit
      have hlead := (hnames name _).mpr ⟨_, mem_entriesOf.mpr ⟨g, hg, hlive, rfl⟩, hname, rfl⟩
      refine ⟨fun hnone => ?_, fun t ht => ⟨c, hc, ?_, hstand.entry.name.trans hname⟩⟩
      · rw [hnone] at hlead
        cases hlead
      · rw [hstand.entry.inode]
        exact Option.some.inj (hlead.symm.trans ht)

/-- Looking a name up. -/
theorem Image.finddir (W : Image p A fs) (hd : A.IsDir d names) (h0 : 0 ∉ name)
    (hN : 2 ^ 32 ≤ N) : (names name = none → ext2fsFinddir N fs d name = some none)
      ∧ ∀ t n, names name = some t → A t = some n → ∃ sz, n.HasSize sz
        ∧ ext2fsFinddir N fs d name = some (n.stat name t sz) := by
  obtain ⟨nd, hnd, hb⟩ := hd
  have hon := W.nodes d nd hnd
  have hholds := hon.holds
  rw [hb] at hholds
  obtain ⟨ino, hread, hs, -⟩ := W.laid.read hon.number
  obtain ⟨hmissing, hfound⟩ := Names.find hholds hs W.laid.inodeSz.1 h0 hN
  unfold ext2fsFinddir
  rw [hread]
  refine ⟨fun hnone => ?_, fun t n ht hn => ?_⟩
  · simp [hmissing hnone]
  · obtain ⟨c, hc, rfl, hname⟩ := hfound t ht
    have hon' := W.nodes _ n hn
    obtain ⟨tino, htread, -, hcopy⟩ := W.laid.read hon'.number
    have hattrs := hon'.attrs.read hcopy
    refine ⟨_, hon'.hasSize, ?_⟩
    simp only [hc, fnodeFromDirent, Node.stat, htread]
    by_cases hbad : deInode c.buf c.p = badIno
    · simp [hbad]
    · simp [hbad, hon'.number.1, hname, hattrs.mode, hattrs.uid, hattrs.gid, hattrs.links,
        iSize_congr hcopy]

/-- Reading a link. -/
theorem Image.readlink (W : Image p A fs) (ht : A.IsLink t target) (hpos : 0 < target.length)
    (hlt : target.length < 2 ^ 31) (hsz : 0 < sz) : ext2fsReadlink fs t sz buf
      = some (↑(min sz target.length), linkText target sz buf) := by
  obtain ⟨n, hn, hb⟩ := ht
  have hon := W.nodes t n hn
  have hholds := hon.holds
  rw [hb] at hholds
  by_cases hlong : iBlockSz < target.length
  · obtain ⟨k, H, hsize, -, hdata⟩ := hholds.1 hlong
    refine @linksTo_long p k (fileOf fs t) target H (fun _ _ _ => rfl) hsize hlong hlt
      (fun i _ => ?_) sz buf hsz
    rw [hdata]
  · have hshort := Nat.not_lt.mp hlong
    obtain ⟨hsize, hbytes⟩ := hholds.2 hshort
    exact linksTo_short W.laid.dev (W.laid.homed hon.number).1 (fun _ _ _ => rfl) hsize hpos hshort
      hbytes sz buf hsz

end Lookup

/-! ## Attributes -/

section Attributes

variable {p d t mode N : Nat} {A : Nodes} {fs : Fs} {n : Node} {name : List UInt8}
  {names : List UInt8 → Option Nat}

@[simp] theorem writeInode_critical (fs : Fs) (ino : Mem) (no : Nat) :
    (writeInode fs ino no).2.critical = fs.critical := by
  unfold writeInode
  split
  · rfl
  · split
    · rfl
    · exact writeBlock_critical ..

/-- Setting the permissions of a node. -/
theorem Image.chmod (W : Image p A fs) (hrw : fs.rw = true) (hn : A t = some n)
    (hmode : mode < 2 ^ 12) : ∃ fs', ext2fsChmod fs t mode = some (0, fs') ∧ fs'.rw = true
      ∧ Image p (A.edit t fun n => { n with mode := n.mode &&& 0xf000 ||| mode }) fs' := by
  have hon := W.nodes t n hn
  obtain ⟨ino, hread, -, hcopy⟩ := W.laid.read hon.number
  have hattrs := hon.attrs.read hcopy
  have hlt : n.mode &&& 0xf000 ||| mode < 65536 :=
    Nat.or_lt_two_pow (n := 16) (Nat.lt_of_le_of_lt Nat.and_le_right (by decide)) (by omega)
  have hcall : ext2fsChmod fs t mode = some (0,
      (writeInode fs (setIMode ino (iMode ino &&& 0xf000 ||| mode % 2 ^ 16)) t).2) := by
    unfold ext2fsChmod
    rw [if_neg (by simp [hrw]), hread]
    rfl
  refine ⟨_, hcall, ?_, ?_⟩
  · exact (writeInode_sameMount ..).rw.trans hrw
  · rw [edit_eq hn, Nat.mod_eq_of_lt (show mode < 2 ^ 16 by omega), hattrs.mode]
    refine W.edited hn (fun i hi => ?_) ⟨?_, ?_, ?_, ?_⟩ rfl
    · rw [setIMode, wr16_apply_of_ne (by omega)]
      exact hcopy i (Nat.zero_le i) (by omega)
    · exact rd16_wr16_same _ hlt
    · exact (rd16_wr16_of_disjoint (by omega)).trans hattrs.uid
    · exact (rd16_wr16_of_disjoint (by omega)).trans hattrs.gid
    · exact (rd16_wr16_of_disjoint (by omega)).trans hattrs.links

/-- Giving a node another owner. -/
theorem Image.chown (W : Image p A fs) (hrw : fs.rw = true) (hn : A t = some n) (uid gid : Nat) :
    ∃ fs', ext2fsChown fs t uid gid = some (0, fs') ∧ fs'.rw = true
      ∧ Image p (A.edit t fun n => { n with uid := uid % 2 ^ 16, gid := gid % 2 ^ 16 }) fs' := by
  have hon := W.nodes t n hn
  obtain ⟨ino, hread, -, hcopy⟩ := W.laid.read hon.number
  have hattrs := hon.attrs.read hcopy
  have hcall : ext2fsChown fs t uid gid = some (0,
      (writeInode fs (setIGid (setIUid ino (uid % 2 ^ 16)) (gid % 2 ^ 16)) t).2) := by
    unfold ext2fsChown
    rw [if_neg (by simp [hrw]), hread]
    rfl
  refine ⟨_, hcall, ?_, ?_⟩
  · exact (writeInode_sameMount ..).rw.trans hrw
  · rw [edit_eq hn]
    refine W.edited hn (fun i hi => ?_) ⟨?_, ?_, ?_, ?_⟩ rfl
    · rw [setIGid, wr16_apply_of_ne (by omega), setIUid, wr16_apply_of_ne (by omega)]
      exact hcopy i (Nat.zero_le i) (by omega)
    · refine (rd16_wr16_of_disjoint (by omega)).trans ?_
      exact (rd16_wr16_of_disjoint (by omega)).trans hattrs.mode
    · refine (rd16_wr16_of_disjoint (by omega)).trans ?_
      exact rd16_wr16_same _ (Nat.mod_lt _ (by decide))
    · exact rd16_wr16_same _ (Nat.mod_lt _ (by decide))
    · refine (rd16_wr16_of_disjoint (by omega)).trans ?_
      exact (rd16_wr16_of_disjoint (by omega)).trans hattrs.links

/-- The type in the inode tells directories. -/
theorem isDir_iff (h : Attrs (diskInode fs t) n) {ino : Mem}
    (hcopy : Agree ino (diskInode fs t) 0 128) (htyped : n.Typed) :
    IsDir ino ↔ ∃ names, n.body = .dir names := by
  unfold IsDir
  rw [(h.read hcopy).mode]
  unfold Node.Typed at htyped
  cases hb : n.body with
  | file bytes =>
      rw [hb] at htyped
      simp [htyped.1]
  | dir names =>
      rw [hb] at htyped
      simp [htyped]
  | link target =>
      rw [hb] at htyped
      simp [htyped.1]

theorem direntTypeOf_lt (mode : Nat) : direntTypeOf mode < 256 := by
  unfold direntTypeOf
  split <;> decide

/-- No link is made to a directory. -/
theorem Image.link_dir (W : Image p A fs) (hrw : fs.rw = true) (hn : A t = some n)
    (htyped : n.Typed) (hb : n.body = .dir names) :
    ext2fsLink N fs d name t = some (eisdir, fs) := by
  have hon := W.nodes t n hn
  obtain ⟨ino, hread, -, hcopy⟩ := W.laid.read hon.number
  have hdir := (isDir_iff hon.attrs hcopy htyped).mpr ⟨names, hb⟩
  simp [ext2fsLink, hrw, hread, hdir]

/-- Making a link to a node. -/
theorem Image.link (W : Image p A fs) (hrw : fs.rw = true) (hd : A.IsDir d names)
    (hnew : names name = none) (hname : GoodName name) (hn : A t = some n) (htyped : n.Typed)
    (hb : ∀ names, n.body ≠ .dir names) (hN : 2 ^ 32 ≤ N) :
    ∃ r fs', ext2fsLink N fs d name t = some (r, fs') ∧ fs'.rw = true
      ∧ fs.critical ≤ fs'.critical ∧ (fs'.critical = fs.critical → r = 0
        ∧ Image p ((A.setName d name (some t)).edit t fun n =>
          { n with links := (n.links + 1) % 2 ^ 16 }) fs') := by
  have hon := W.nodes t n hn
  obtain ⟨ino, hread, -, hcopy⟩ := W.laid.read hon.number
  have hdir : ¬IsDir ino := fun h => by
    obtain ⟨names, h⟩ := (isDir_iff hon.attrs hcopy htyped).mp h
    exact hb names h
  have hcap : t < 2 ^ 32 := Nat.lt_of_le_of_lt hon.number.2 (W.laid.numbers .inode)
  have E : Enterable t name (direntTypeOf (iMode ino)) :=
    ⟨hname.1, hname.2.1, hname.2.2, hon.number.1, hcap, direntTypeOf_lt _⟩
  obtain ⟨r, f', pino, hcreate, hent⟩ := W.createDirent hd E hnew hN
  have hrw' : f'.fs.rw = true := hent.format.rw.trans hrw
  have hne : t ≠ d := by
    rintro rfl
    obtain ⟨n', hn', hb'⟩ := hd
    obtain rfl := Option.some.inj (hn.symm.trans hn')
    exact hb names hb'
  by_cases hr : r = 0
  · subst hr
    have hcrit := writeInode_critical f'.fs
      (setILinksCount ino ((iLinksCount ino + 1) % 2 ^ 16)) t
    have hcall : ext2fsLink N fs d name t = some (0,
        (writeInode f'.fs (setILinksCount ino ((iLinksCount ino + 1) % 2 ^ 16)) t).2) := by
      unfold ext2fsLink
      rw [if_neg (by simp [hrw]), hread]
      simp only [if_neg hdir, hcreate]
      rfl
    refine ⟨0, _, hcall, ?_, ?_, fun hc => ⟨rfl, ?_⟩⟩
    · exact (writeInode_sameMount ..).rw.trans hrw'
    · rw [hcrit]
      exact hent.critical
    · obtain ⟨-, -, W'⟩ := hent.entered (hcrit.symm.trans hc)
      have hn' : A.setName d name (some t) t = some n := (edit_of_ne hne).trans hn
      have hkept := hent.inodes t hon.number hne
      have hattrs := hon.attrs.read hcopy
      rw [edit_eq hn']
      refine W'.edited hn' (fun i hi => ?_) ⟨?_, ?_, ?_, ?_⟩ rfl
      · rw [setILinksCount, wr16_apply_of_ne (by omega), hkept i (Nat.zero_le i) (by omega)]
        exact hcopy i (Nat.zero_le i) (by omega)
      · exact (rd16_wr16_of_disjoint (by omega)).trans hattrs.mode
      · exact (rd16_wr16_of_disjoint (by omega)).trans hattrs.uid
      · exact (rd16_wr16_of_disjoint (by omega)).trans hattrs.gid
      · rw [← hattrs.links]
        exact rd16_wr16_same _ (Nat.mod_lt _ (by decide))
  · refine ⟨r, f'.fs, by simp [ext2fsLink, hrw, hread, hdir, hcreate, hr], hrw', hent.critical,
      fun hc => absurd (hent.entered hc).1 hr⟩

end Attributes

end Ext2

end Shitos
