import Shitos.Ext2Arrays
import Shitos.Ext2Spec

/-!
# Nodes on a volume

When a volume with one group has the nodes `A` on it (`Image`), and what of that is left
by a change to one inode: all other nodes are as they were (`Around`).

A link that fits in its inode has no blocks there, and its pointers are not looked at.
-/

namespace Shitos

namespace Ext2

open PtrTree

/-! ## One node -/

/-- The inode has the attributes of `n`. -/
structure Attrs (ino : Mem) (n : Node) : Prop where
  mode : iMode ino = n.mode
  uid : iUid ino = n.uid
  gid : iGid ino = n.gid
  links : iLinksCount ino = n.links

/-- File `t` has the bytes `bytes`, in its first blocks, and zeros past them. -/
def Stores (p : Nat) (fs : Fs) (t : Nat) (bytes : List UInt8) : Prop :=
  ∃ n, Mapped p n (fileOf fs t) ∧ iSize (diskInode fs t) = bytes.length
    ∧ bytes.length ≤ n * fs.blockSz ∧ (fileOf fs t).data p n = fun x => bytes.getD x 0

/-- The entries in use of directory `d` are the names `names`. -/
def Names (p : Nat) (fs : Fs) (d : Nat) (names : List UInt8 → Option Nat) : Prop :=
  ∃ n es, DirFile p n (fileOf fs d) es ∧ ∀ name t, names name = some t ↔
    ∃ e ∈ (fileOf fs d).entries p n es, e.name = name ∧ e.inode = t

/-- The target is in the space of the block pointers. -/
structure Inline (fs : Fs) (t : Nat) (target : List UInt8) : Prop where
  size : iSize (diskInode fs t) = target.length
  bytes : ∀ i < target.length, diskInode fs t (40 + i) = target.getD i 0

/-- The body is kept in blocks. -/
def Body.Blocks : Body → Prop
  | .link target => iBlockSz < target.length
  | _ => True

/-- Inode `t` holds the body. -/
def Holds (p : Nat) (fs : Fs) (t : Nat) : Body → Prop
  | .file bytes => Stores p fs t bytes
  | .dir names => Names p fs t names
  | .link target =>
      (iBlockSz < target.length → Stores p fs t target)
        ∧ (target.length ≤ iBlockSz → Inline fs t target)

/-- Inode `t` is in use, and is node `n`. -/
structure OnDisk (p : Nat) (fs : Fs) (t : Nat) (n : Node) : Prop where
  number : Number fs t
  inUse : usedBit .inode fs (t - 1) = true
  attrs : Attrs (diskInode fs t) n
  holds : Holds p fs t n.body

section Node

variable {p t : Nat} {fs fs' : Fs} {n : Node} {b : Body} {bytes : List UInt8}
  {names : List UInt8 → Option Nat}

theorem Attrs.congr {ino ino' : Mem} (h : Attrs ino n)
    (hf : ∀ i, i < 4 ∨ 24 ≤ i ∧ i < 28 → ino' i = ino i) : Attrs ino' n where
  mode := (rd16_congr fun i _ hi => hf i (by omega)).trans h.mode
  uid := (rd16_congr fun i _ hi => hf i (by omega)).trans h.uid
  gid := (rd16_congr fun i h0 hi => hf i (by omega)).trans h.gid
  links := (rd16_congr fun i h0 hi => hf i (by omega)).trans h.links

theorem Stores.congr (h : Stores p fs t bytes) (hm : ∀ m, Mapped p m (fileOf fs t) →
      Mapped p m (fileOf fs' t) ∧ (fileOf fs' t).data p m = (fileOf fs t).data p m)
    (hsize : iSize (diskInode fs' t) = iSize (diskInode fs t)) (hbs : fs'.blockSz = fs.blockSz) :
    Stores p fs' t bytes := by
  obtain ⟨m, H, hlen, hcover, hdata⟩ := h
  obtain ⟨H', hdata'⟩ := hm m H
  refine ⟨m, H', hsize.trans hlen, ?_, hdata'.trans hdata⟩
  rw [hbs]
  exact hcover

theorem Names.congr (h : Names p fs t names) (hm : ∀ m, Mapped p m (fileOf fs t) →
      Mapped p m (fileOf fs' t) ∧ (fileOf fs' t).data p m = (fileOf fs t).data p m)
    (hsize : iSize (diskInode fs' t) = iSize (diskInode fs t)) (hbs : fs'.blockSz = fs.blockSz) :
    Names p fs' t names := by
  obtain ⟨m, es, D, hnames⟩ := h
  obtain ⟨H', hdata'⟩ := hm m D.toMapped
  obtain ⟨D', hentries⟩ := D.congr H' (fun _ _ _ => rfl) hbs hsize hdata'
  refine ⟨m, es, D', fun name u => ?_⟩
  rw [hentries]
  exact hnames name u

theorem Inline.congr (h : Inline fs t bytes) (hlen : bytes.length ≤ iBlockSz)
    (hino : ∀ i, 4 ≤ i ∧ i < 8 ∨ 40 ≤ i ∧ i < 100 → diskInode fs' t i = diskInode fs t i) :
    Inline fs' t bytes where
  size := (rd32_congr fun i _ hi => hino i (by omega)).trans h.size
  bytes := by
    intro i hi
    unfold iBlockSz at hlen
    rw [hino _ (by omega)]
    exact h.bytes i hi

/-- What is kept in blocks is as it was if the blocks are. -/
theorem Holds.congr (h : Holds p fs t b) (hb : b.Blocks) (hm : ∀ m, Mapped p m (fileOf fs t) →
      Mapped p m (fileOf fs' t) ∧ (fileOf fs' t).data p m = (fileOf fs t).data p m)
    (hsize : iSize (diskInode fs' t) = iSize (diskInode fs t)) (hbs : fs'.blockSz = fs.blockSz) :
    Holds p fs' t b := by
  cases b with
  | file bytes => exact Stores.congr h hm hsize hbs
  | dir names => exact Names.congr h hm hsize hbs
  | link target =>
      exact ⟨fun hlong => (h.1 hlong).congr hm hsize hbs,
        fun hshort => absurd hb (Nat.not_lt.mpr hshort)⟩

/-- What is not kept in blocks is a short target. -/
theorem Holds.inline (h : Holds p fs t b) (hb : ¬b.Blocks) : ∃ target, b = .link target
    ∧ target.length ≤ iBlockSz ∧ Inline fs t target := by
  cases b with
  | file bytes => exact absurd trivial hb
  | dir names => exact absurd trivial hb
  | link target => exact ⟨target, rfl, Nat.not_lt.mp hb, h.2 (Nat.not_lt.mp hb)⟩

theorem Inline.holds {target : List UInt8} (h : Inline fs t target)
    (hlen : target.length ≤ iBlockSz) : Holds p fs t (.link target) :=
  ⟨fun hlong => absurd hlong (Nat.not_lt.mpr hlen), fun _ => h⟩

/-- A node is as it was if its inode is, and its blocks are. -/
theorem OnDisk.same (h : OnDisk p fs t n) (hf : SameFormat fs fs')
    (hu : usedBit .inode fs' (t - 1) = usedBit .inode fs (t - 1))
    (hino : Agree (diskInode fs' t) (diskInode fs t) 0 128)
    (hs : n.body.Blocks → SameFile p fs fs' t) : OnDisk p fs' t n := by
  refine ⟨hf.number.mpr h.number, hu.trans h.inUse,
    h.attrs.congr fun i hi => hino i (Nat.zero_le i) (by omega), ?_⟩
  by_cases hb : n.body.Blocks
  · exact h.holds.congr hb (hs hb).mapped (iSize_congr hino) hf.blockSz
  · obtain ⟨target, heq, hlen, hinline⟩ := h.holds.inline hb
    rw [heq]
    exact (hinline.congr hlen fun i hi => hino i (Nat.zero_le i) (by omega)).holds hlen

/-- A body that is kept in blocks has them. -/
theorem Holds.mapped (h : Holds p fs t b) (hb : b.Blocks) : ∃ m, Mapped p m (fileOf fs t) := by
  cases b with
  | file bytes =>
      obtain ⟨m, hm, -⟩ := h
      exact ⟨m, hm⟩
  | dir names =>
      obtain ⟨m, es, D, -⟩ := h
      exact ⟨m, D.toMapped⟩
  | link target =>
      obtain ⟨m, hm, -⟩ := h.1 hb
      exact ⟨m, hm⟩

end Node

/-! ## All nodes -/

/-- The nodes that have blocks. -/
def Nodes.blocky (A : Nodes) : Set Nat := {t | ∃ n, A t = some n ∧ n.body.Blocks}

/-- The volume has the nodes `A`, each in blocks of its own. -/
structure Image (p : Nat) (A : Nodes) (fs : Fs) : Prop where
  laid : Laid p A.blocky fs
  nodes : ∀ t n, A t = some n → OnDisk p fs t n

/-- The volume has the nodes `A` but for `t`, whose blocks are its own. -/
structure Around (p : Nat) (A : Nodes) (t : Nat) (fs : Fs) : Prop where
  laid : Laid p (insert t A.blocky) fs
  nodes : ∀ u n, A u = some n → u ≠ t → OnDisk p fs u n

section Image

variable {p m t : Nat} {A : Nodes} {fs fs' : Fs} {f f' : File} {n n' : Node} {ino : Mem}
  {S I : Set Nat} {new : List Nat}

theorem blocky_update (hn : n.body.Blocks) :
    Nodes.blocky (Function.update A t (some n)) = insert t A.blocky := by
  ext u
  by_cases hu : u = t
  · subst hu
    simp [Nodes.blocky, hn]
  · simp [Nodes.blocky, hu]

theorem blocky_update_inline (hn : ¬n.body.Blocks) (ht : t ∉ A.blocky) :
    Nodes.blocky (Function.update A t (some n)) = A.blocky := by
  ext u
  by_cases hu : u = t
  · subst hu
    simp [Nodes.blocky, hn] at ht ⊢
    exact ht
  · simp [Nodes.blocky, hu]

/-- Files that are the same are laid out the same. -/
theorem Laid.same (L : Laid p I fs) (h : Elsewhere S fs fs')
    (hs : ∀ t ∈ I, SameFile p fs fs' t) : Laid p I fs' := by
  refine ⟨L.toOneGroup.elsewhere h, fun t ht => h.format.number.mpr (L.number t ht),
    fun t ht => (hs t ht).owned, fun t ht => (L.offTable t ht).same (hs t ht) h.format,
    fun t ht u hu hne x y hx hy h0 heq => ?_⟩
  rw [(hs t ht).at_eq x hx] at h0 heq
  rw [(hs u hu).at_eq y hy] at heq
  exact L.apart t ht u hu hne x y hx hy h0 heq

/-- An inode without pointers can be laid out beside the others. -/
theorem Laid.insert (L : Laid p I fs) (ht : Number fs t) (O : Owned p (fileOf fs t))
    (h0 : ∀ x, (tree p).Valid x → (fileOf fs t).at x = 0) : Laid p (insert t I) fs := by
  refine ⟨L.toOneGroup, ?_, ?_, ?_, ?_⟩
  · rintro u (rfl | hu)
    · exact ht
    · exact L.number u hu
  · rintro u (rfl | hu)
    · exact O
    · exact L.owned u hu
  · rintro u (rfl | hu) x hx hne
    · exact absurd (h0 x hx) hne
    · exact L.offTable u hu x hx hne
  · rintro u (rfl | hu) v (rfl | hv) huv x y hx hy hne heq
    · exact huv rfl
    · exact hne (h0 x hx)
    · exact hne (heq.trans (h0 y hy))
    · exact L.apart u hu v hv huv x y hx hy hne heq

theorem Image.around (W : Image p A fs) (ht : t ∈ A.blocky) : Around p A t fs := by
  refine ⟨?_, fun u n hu _ => W.nodes u n hu⟩
  rw [Set.insert_eq_of_mem ht]
  exact W.laid

theorem Around.image (W : Around p A t fs) (hn : OnDisk p fs t n) (hb : n.body.Blocks) :
    Image p (Function.update A t (some n)) fs := by
  refine ⟨?_, fun u n' hu => ?_⟩
  · rw [blocky_update hb]
    exact W.laid
  · by_cases hut : u = t
    · subst hut
      rw [Function.update_self] at hu
      obtain rfl := Option.some.inj hu
      exact hn
    · rw [Function.update_of_ne hut] at hu
      exact W.nodes u n' hu hut

/-- A node that has no blocks beside the others. -/
theorem image_inline (L : Laid p A.blocky fs) (htA : t ∉ A.blocky)
    (hothers : ∀ u n, A u = some n → u ≠ t → OnDisk p fs u n) (hn : OnDisk p fs t n)
    (hb : ¬n.body.Blocks) : Image p (Function.update A t (some n)) fs := by
  refine ⟨?_, fun u n' hu => ?_⟩
  · rw [blocky_update_inline hb htA]
    exact L
  · by_cases hut : u = t
    · subst hut
      rw [Function.update_self] at hu
      obtain rfl := Option.some.inj hu
      exact hn
    · rw [Function.update_of_ne hut] at hu
      exact hothers u n' hu hut

/-- A change to the blocks of `t` leaves other inodes alone. -/
theorem Around.untouched {u : Nat} (W : Around p A f.no f.fs)
    (hat : ∀ x, (tree p).Valid x → f.at x = (fileOf f.fs f.no).at x) (h : Changed p new f f')
    (hu : Number f.fs u) (hne : u ≠ f.no) : Untouched f.fs f'.fs u := by
  have hno := W.laid.number _ (Set.mem_insert _ _)
  refine h.untouched (W.laid.toOneGroup.apart hno hu hne fun x hx h0 => ?_)
  rw [hat x hx] at h0 ⊢
  exact W.laid.offTable _ (Set.mem_insert _ _) x hx h0 u hu

/-- A change to the blocks of `t` leaves the other nodes as they are. -/
theorem Around.changed (W : Around p A f.no f.fs)
    (hat : ∀ x, (tree p).Valid x → f.at x = (fileOf f.fs f.no).at x) (h : Changed p new f f')
    (H : Mapped p m f') (hs : Saved f') : Around p A f.no f'.fs := by
  obtain ⟨hm', -, hat', -⟩ := H.onDisk hs
  rw [h.no] at hm' hat'
  obtain ⟨L, hsame⟩ := W.laid.changed (Set.mem_insert _ _) hat h hat' hm'.toOwned
  refine ⟨L, fun u n hu hne => ?_⟩
  have hn := W.nodes u n hu hne
  have hkept := W.untouched hat h hn.number hne
  have hsize := W.laid.inodeSz.1
  refine hn.same h.run.format (h.run.inodeBits _ hn.number.lt)
    (hkept.inode.mono (Nat.le_refl 0) (by omega)) fun hb => ?_
  exact hsame u (Set.mem_insert_of_mem _ ⟨n, hu, hb⟩) hne

/-- `write_inode` leaves the inodes of other numbers alone. -/
theorem OneGroup.writeInode_other {u : Nat} (G : OneGroup fs) (hu : Number fs u)
    (ht : Number fs t) (hne : t ≠ u) (ino : Mem) :
    Untouched fs (Ext2.writeInode fs ino u).2 t := by
  have hr := @writeInode_run _ _ true G.toVolume (G.homed hu).1 ino
  have hzero : ∀ x, (tree (ptrs fs)).Valid x → File.at ⟨fs, fun _ => 0, u, []⟩ x = 0 := fun x _ =>
    node_of_root rfl
  have A : Apart (ptrs fs) ⟨fs, fun _ => 0, u, []⟩ t :=
    G.apart hu ht hne fun x hx h0 => absurd (hzero x hx) h0
  exact @Apart.untouched (ptrs fs) t ⟨fs, fun _ => 0, u, []⟩
    ⟨(Ext2.writeInode fs ino u).2, ino, u, []⟩ [] [] true _ A hr (fun b hb => Or.inr (Or.inl hb)) List.not_mem_nil fun i hi hout =>
      (writeInode_blk G.toVolume (G.homed hu).1 ino hi).trans (if_neg hout)

/-- Saving an inode leaves all other nodes as they are. -/
theorem Image.saved (W : Image p A fs) (ht : Number fs t) (htA : t ∉ A.blocky) (ino : Mem) :
    Laid p A.blocky (writeInode fs ino t).2
      ∧ ∀ u n, A u = some n → u ≠ t → OnDisk p (writeInode fs ino t).2 u n := by
  have hr := @writeInode_run _ _ true W.laid.toVolume (W.laid.homed ht).1 ino
  have hsame : ∀ u ∈ A.blocky, SameFile p fs (writeInode fs ino t).2 u := by
    intro u hu
    have hne : u ≠ t := by
      rintro rfl
      exact htA hu
    exact (W.laid.writeInode ht (W.laid.number u hu) hne (W.laid.owned u hu)
      (W.laid.offTable u hu) ino).2
  refine ⟨W.laid.same (hr.elsewhere W.laid.toVolume) hsame, fun u n hu hne => ?_⟩
  have hn := W.nodes u n hu
  have hkept := W.laid.writeInode_other ht hn.number hne ino
  refine hn.same hr.format (hr.inodeBits _ hn.number.lt)
    (hkept.inode.mono (Nat.le_refl 0) (by have := W.laid.inodeSz.1; omega)) fun hb => ?_
  exact hsame u ⟨n, hu, hb⟩

/-- A saved inode is in use as before, with the attributes it has in memory. -/
theorem OnDisk.of_saved (G : OneGroup fs) (ht : Number fs t)
    (hu : usedBit .inode fs (t - 1) = true) (hattrs : Attrs ino n)
    (hholds : Holds p (writeInode fs ino t).2 t n.body) :
    OnDisk p (writeInode fs ino t).2 t n := by
  have H := (G.homed ht).1
  have hr := @writeInode_run _ _ true G.toVolume H ino
  refine ⟨hr.format.number.mpr ht, (hr.inodeBits _ ht.lt).trans hu, ?_, hholds⟩
  have hsize := H.size
  exact hattrs.congr fun i hi => diskInode_writeInode G.toVolume H ino i (Nat.zero_le i) (by omega)

/-- Saving an inode with other attributes changes the attributes. -/
theorem Image.edited (W : Image p A fs) (hA : A t = some n)
    (hino : ∀ i, 4 ≤ i ∧ i < 24 ∨ 28 ≤ i ∧ i < 128 → ino i = diskInode fs t i)
    (hattrs : Attrs ino n') (hbody : n'.body = n.body) :
    Image p (Function.update A t (some n')) (writeInode fs ino t).2 := by
  have hn := W.nodes t n hA
  have G := W.laid.toOneGroup
  have H := (G.homed hn.number).1
  have hr := @writeInode_run _ _ true G.toVolume H ino
  have hdisk := diskInode_writeInode G.toVolume H ino
  have hsize := H.size
  have hblock : ∀ k < 15, iBlock ino k = iBlock (diskInode fs t) k := fun k hk =>
    rd32_congr fun i _ hi => hino i (by omega)
  have hisize : iSize ino = iSize (diskInode fs t) := rd32_congr fun i _ hi => hino i (by omega)
  have hon : ∀ {b}, n.body = b → Holds p (writeInode fs ino t).2 t b →
      OnDisk p (writeInode fs ino t).2 t n' := by
    intro b hb h
    rw [← hb, ← hbody] at h
    exact OnDisk.of_saved G hn.number hn.inUse hattrs h
  by_cases hb : n.body.Blocks
  · -- the blocks are those the file had
    obtain ⟨m, H₀⟩ := hn.holds.mapped hb
    have hput := H₀.toOwned.put hblock
    have hiblocks : iBlocks ino = iBlocks (diskInode fs t) :=
      rd32_congr fun i _ hi => hino i (by omega)
    have hmapped : ∀ m, Mapped p m (fileOf fs t) → Mapped p m (fileOf (writeInode fs ino t).2 t)
        ∧ (fileOf (writeInode fs ino t).2 t).data p m = (fileOf fs t).data p m := by
      intro m hm
      obtain ⟨H', hdata, -⟩ := hput.mapped hm hiblocks
      obtain ⟨H'', hdata', -⟩ := H'.onDisk hput.saved
      exact ⟨H'', hdata'.trans hdata⟩
    have hsize' : iSize (diskInode (writeInode fs ino t).2 t) = iSize (diskInode fs t) :=
      (iSize_congr (hdisk.mono (Nat.le_refl 0) (by omega))).trans hisize
    have hholds := hn.holds.congr hb hmapped hsize' hr.format.blockSz
    have hW := @Around.changed p m A (fileOf fs t) _ [] (W.around ⟨n, hA, hb⟩) (fun _ _ => rfl)
      hput.changed (hput.mapped H₀ hiblocks).1 hput.saved
    exact hW.image (hon rfl hholds) (by rwa [hbody])
  · obtain ⟨target, heq, hlen, hinline⟩ := hn.holds.inline hb
    have htA : t ∉ A.blocky := by
      rintro ⟨n₁, h₁, hb₁⟩
      obtain rfl := Option.some.inj (hA.symm.trans h₁)
      exact hb hb₁
    obtain ⟨L, hothers⟩ := W.saved hn.number htA ino
    have hinline' : Inline (writeInode fs ino t).2 t target := hinline.congr hlen fun i hi =>
      (hdisk i (Nat.zero_le i) (by omega)).trans (hino i (by omega))
    exact image_inline L htA hothers (hon heq (hinline'.holds hlen)) (by rwa [hbody])

/-- An inode that is not a node gets a short target. -/
theorem Image.saved_inline {target : List UInt8} (W : Image p A fs) (hA : A t = none)
    (ht : Number fs t) (hu : usedBit .inode fs (t - 1) = true) (hattrs : Attrs ino n)
    (hbody : n.body = .link target) (hlen : target.length ≤ iBlockSz)
    (hsize : iSize ino = target.length)
    (hbytes : ∀ i < target.length, ino (40 + i) = target.getD i 0) :
    Image p (Function.update A t (some n)) (writeInode fs ino t).2 := by
  have G := W.laid.toOneGroup
  have H := (G.homed ht).1
  have hdisk := diskInode_writeInode G.toVolume H ino
  have hisz := H.size
  have htA : t ∉ A.blocky := by
    rintro ⟨n₁, h₁, -⟩
    rw [hA] at h₁
    cases h₁
  have hinline : Inline (writeInode fs ino t).2 t target := by
    refine ⟨(iSize_congr (hdisk.mono (Nat.le_refl 0) (by omega))).trans hsize, fun i hi => ?_⟩
    unfold iBlockSz at hlen
    rw [hdisk _ (Nat.zero_le _) (by omega)]
    exact hbytes i hi
  obtain ⟨L, hothers⟩ := W.saved ht htA ino
  refine image_inline L htA hothers (OnDisk.of_saved G ht hu hattrs ?_) ?_
  · rw [hbody]
    exact hinline.holds hlen
  · rw [hbody]
    exact Nat.not_lt.mpr hlen

/-- An inode that is not a node is saved without blocks. -/
theorem Image.saved_empty (W : Image p A fs) (hp : ptrs fs = p) (hA : A t = none)
    (ht : Number fs t) (hblocks : iBlocks ino = 0) (hmap : ∀ k < 15, iBlock ino k = 0) :
    Around p A t (writeInode fs ino t).2 ∧ Dense p 0 ⟨(writeInode fs ino t).2, ino, t, []⟩
      ∧ Saved ⟨(writeInode fs ino t).2, ino, t, []⟩ := by
  have G := W.laid.toOneGroup
  have H := (G.homed ht).1
  have htA : t ∉ A.blocky := by
    rintro ⟨n₁, h₁, -⟩
    rw [hA] at h₁
    cases h₁
  obtain ⟨L, hothers⟩ := W.saved ht htA ino
  have hr := @writeInode_run _ _ true G.toVolume H ino
  have G' := L.toOneGroup
  have ht' := hr.format.number.mpr ht
  have hempty : Dense p 0 ⟨(writeInode fs ino t).2, ino, t, []⟩ :=
    dense_empty (by rw [ptrs, hr.format.blockSz]; exact hp) G'.toVolume (G'.homed ht').1
      (G'.homed ht').2 hblocks hmap
  have hs : Saved ⟨(writeInode fs ino t).2, ino, t, []⟩ :=
    (@HomeKept.save ⟨fs, ino, t, []⟩ G.toVolume H ino).2
  obtain ⟨hm, -, hat, -⟩ := hempty.mapped.onDisk hs
  refine ⟨⟨L.insert ht' hm.toOwned fun x hx => ?_, hothers⟩, hempty, hs⟩
  rw [hat x hx]
  exact node_of_root (hmap _ hx.root)

/-- Taking an inode: it is not a node, and the nodes are as they were. -/
theorem Image.allocated (W : Image p A fs) (h : Allocated .inode fs t fs') :
    Image p A fs' ∧ A t = none ∧ Number fs' t ∧ usedBit .inode fs' (t - 1) = true := by
  have hE := h.step.elsewhere W.laid.toVolume
  have hpos := h.pos
  have hlt : t - 1 < capacity .inode fs := h.lt
  have hA : A t = none := by
    by_contra hne
    obtain ⟨n, hn⟩ := Option.ne_none_iff_exists'.mp hne
    have hclear := h.clear
    rw [show t - Kind.first .inode = t - 1 from rfl, (W.nodes t n hn).inUse] at hclear
    cases hclear
  have hnone : ∀ b, b ∉ {b | Kind.inode = .block ∧ b = t} := by
    rintro b ⟨hb, -⟩
    cases hb
  have hino : ∀ u, Number fs u → Agree (diskInode fs' u) (diskInode fs u) 0 128 := by
    intro u hu
    refine (hE.inode (W.laid.homed hu).1 (hnone _)).mono (Nat.le_refl 0) ?_
    have := W.laid.inodeSz.1
    omega
  have hsame : ∀ u ∈ A.blocky, SameFile p fs fs' u := fun u hu =>
    hE.sameFile (W.laid.owned u hu) (fun _ _ _ => hnone _) (hino u (W.laid.number u hu))
  have hbits : ∀ m < capacity .inode fs, usedBit .inode fs' m
      = if m = t - 1 then true else usedBit .inode fs m := by
    intro m hm
    rw [h.step.bits .inode m hm]
    simp [Kind.first]
  refine ⟨⟨W.laid.same hE hsame, fun u n hu => ?_⟩, hA, hE.format.number.mpr ⟨hpos, by omega⟩, ?_⟩
  · have hn := W.nodes u n hu
    refine hn.same hE.format ?_ (hino u hn.number) fun hb => hsame u ⟨n, hu, hb⟩
    rw [hbits _ hn.number.lt]
    split
    · exact hn.inUse.symm
    · rfl
  · rw [hbits _ hlt, if_pos rfl]

end Image

end Ext2

end Shitos
