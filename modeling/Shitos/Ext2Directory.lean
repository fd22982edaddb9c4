import Shitos.Ext2Dir
import Shitos.Ext2Inodes

/-!
# Directories on the volume

A directory is an inode whose bytes are a chain of records. `find_dirent` reads
them block by block through the inode, and stops at the first entry in use with
the name (`Directory.find`).
-/

namespace Shitos

namespace Ext2

open PtrTree

/-- The directory `f` has `n` content blocks, which cover its size, and its
records start at the positions `es`. -/
structure Directory (p n : Nat) (f : File) (es : List Nat) : Prop extends Dense p n f where
  image : DirImage (f.data p n) f.fs.blockSz (iSize f.ino) es
  mapped : iSize f.ino ≤ n * f.fs.blockSz

/-- What is read through `f` is a chain of records, which starts at the positions
`es`. -/
structure Listing (p n : Nat) (f : File) (es : List Nat) : Prop extends Mapped p n f where
  records : Records (f.data p n) f.fs.blockSz (iSize f.ino) es
  covers : iSize f.ino ≤ n * f.fs.blockSz

/-- `find_dirent(fs, ino, name, …)`, for at most `n` turns of its loop. -/
def findDirentIn (n : Nat) (fs : Fs) (ino : Mem) (name : List UInt8) : Option (Option Cursor) :=
  findDirent (fun b buf => (readBlockInode fs ino b buf).2) fs.fresh fs.blockSz (iSize ino) name n

/-- The entry in use with the name, as its position. -/
def entryOf (m : Mem) (es : List Nat) (name : List UInt8) : Option Nat :=
  es.find? fun g => decide (Hit name m g)

/-- Where a search that has stopped at position `g` stands: in the block of `g`,
with its entry in the buffer. -/
structure Standing (p n : Nat) (f : File) (g : Nat) (c : Cursor) : Prop where
  blockno : c.blockno = g / f.fs.blockSz
  offset : c.p = g % f.fs.blockSz
  buf : ∀ i < f.fs.blockSz, c.buf i = f.data p n (g / f.fs.blockSz * f.fs.blockSz + i)
  entry : SameEntry (f.data p n) c.buf g c.p
  block : c.blockno < n

section Directory

variable {p n g : Nat} {f : File} {es : List Nat} {name : List UInt8}

theorem Directory.of_agree (D : Directory p n f es) {ino : Mem} {got : List Nat}
    (h : Agree ino f.ino 0 128) : Directory p n ⟨f.fs, ino, f.no, got⟩ es := by
  have hdata := (@Mapped.of_agree p n f (Dense.mapped D.toDense) ino got h).2.1
  have hsize : iSize ino = iSize f.ino := rd32_congr (h.mono (Nat.zero_le _) (by omega))
  refine ⟨D.toDense.of_agree h, ?_, ?_⟩
  · rw [hdata, show iSize (File.mk f.fs ino f.no got).ino = iSize f.ino from hsize]
    exact D.image
  · show iSize ino ≤ _
    rw [hsize]
    exact D.mapped

theorem Directory.listing (D : Directory p n f es) : Listing p n f es :=
  ⟨Dense.mapped D.toDense, D.image.records, D.mapped⟩

/-- Blocks that are not there are read as zeros, so nothing is said about how far
the directory goes. -/
theorem Mapped.reads (H : Mapped p n f) (limit : Nat) :
    ReadsImage (fun b buf => (Ext2.readBlockInode f.fs f.ino b buf).2) (f.data p n) f.fs.blockSz
      limit := fun b buf _ _ hi => H.readBlockInode b buf hi

/-- A record of the directory lies in one of its content blocks. -/
theorem Listing.block_lt (L : Listing p n f es) (hg : g ∈ es) : g / f.fs.blockSz < n := by
  have hbounds := L.records.tiles.bounds hg
  have hpos := L.records.tiles.pos hg
  have hcovers := L.covers
  rw [id_eq] at hbounds
  rw [Nat.div_lt_iff_lt_mul L.pos]
  omega

/-- **Looking a name up** finds the entry in use that has it. -/
theorem Listing.find (L : Listing p n f es) (name : List UInt8) {N : Nat} (hN : es.length < N) :
    match entryOf (f.data p n) es name with
    | some g => ∃ c, findDirentIn N f.fs f.ino name = some (some c) ∧ Standing p n f g c
    | none => findDirentIn N f.fs f.ino name = some none := by
  have h := findDirent_eq L.records L.pos (L.reads _) f.fs.fresh name hN
  unfold findDirentIn
  cases hfind : entryOf (f.data p n) es name with
  | some g =>
      rw [entryOf] at hfind
      rw [hfind] at h
      obtain ⟨c, hc, hat, hsame⟩ := h
      have hmem := List.mem_of_find?_eq_some hfind
      have hbounds := L.records.tiles.bounds hmem
      have hpos := L.records.tiles.pos hmem
      rw [id_eq] at hbounds
      refine ⟨c, hc, hat.blockno, hat.p, hat.buf (by omega), hsame, ?_⟩
      rw [hat.blockno]
      exact L.block_lt hmem
  | none =>
      rw [entryOf] at hfind
      rw [hfind] at h
      exact h

theorem Directory.find (D : Directory p n f es) (name : List UInt8) {N : Nat}
    (hN : es.length < N) :
    match entryOf (f.data p n) es name with
    | some g => ∃ c, findDirentIn N f.fs f.ino name = some (some c) ∧ Standing p n f g c
    | none => findDirentIn N f.fs f.ino name = some none := D.listing.find name hN

theorem entryOf_hit {m : Mem} (h : entryOf m es name = some g) : g ∈ es ∧ Hit name m g :=
  ⟨List.mem_of_find?_eq_some h,
    of_decide_eq_true (List.find?_some (p := fun g => decide (Hit name m g)) h)⟩

end Directory

end Ext2

end Shitos
