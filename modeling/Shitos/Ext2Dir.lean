import Mathlib.Data.List.TakeWhile
import Shitos.Ext2Disk
import Shitos.Tiling

/-!
# Directories

The entries of a directory lie in its blocks as chains of records. `DirImage`
describes the directory by its contents laid out in one piece: the record
positions tile it, and no record crosses the end of a block.

`find_dirent` works on one block at a time. On an image it stops at the first
record that is in use and has the name it was asked for (`findDirent_eq`).
-/

namespace Shitos

namespace Ext2

/-! ## Entries -/

/-- `dirent->inode`, of the entry at `p`. -/
def deInode (m : Mem) (p : Nat) : Nat := rd32 m p

/-- `dirent->rec_len`. -/
def deRecLen (m : Mem) (p : Nat) : Nat := rd16 m (p + 4)

/-- `dirent->name_len`. -/
def deNameLen (m : Mem) (p : Nat) : Nat := rd8 m (p + 6)

/-- `dirent->type`. -/
def deType (m : Mem) (p : Nat) : Nat := rd8 m (p + 7)

/-- The bytes of `dirent->name`. -/
def deName (m : Mem) (p : Nat) : List UInt8 :=
  (List.range (deNameLen m p)).map fun i => m (p + 8 + i)

/-- A byte array read as a C string. -/
def cstr (l : List UInt8) : List UInt8 := l.takeWhile (· ≠ 0)

/-- The copy of the entry's name in `namebuf` is the string `name`. -/
def Reads (m : Mem) (name : List UInt8) (p : Nat) : Prop := cstr (deName m p) = name

instance (m : Mem) (name : List UInt8) (p : Nat) : Decidable (Reads m name p) :=
  inferInstanceAs (Decidable (_ = _))

/-! ## `find_dirent` -/

/-- The local variables of `find_dirent`; `p` is `dirent - *blockbuf`. -/
structure Cursor where
  offset : Nat
  p : Nat
  prev : Option Nat
  blockno : Nat
  buf : Mem

/-- The test on one entry. -/
def Hit (name : List UInt8) (buf : Mem) (p : Nat) : Prop :=
  deInode buf p ≠ 0 ∧ deNameLen buf p = name.length ∧ Reads buf name p

instance (name : List UInt8) (buf : Mem) (p : Nat) : Decidable (Hit name buf p) :=
  inferInstanceAs (Decidable (_ ∧ _ ∧ _))

/-- The step to the next entry. `read b buf` is the buffer after block `b` of
the directory has been read into it. -/
def Cursor.next (read : Nat → Mem → Mem) (blockSz : Nat) (c : Cursor) : Cursor :=
  let recLen := deRecLen c.buf c.p
  let offset := (c.offset + recLen) % 2 ^ 32
  if c.p + recLen ≥ blockSz then
    ⟨offset, c.p + recLen - blockSz, none, c.blockno + 1, read (c.blockno + 1) c.buf⟩
  else ⟨offset, c.p + recLen, some c.p, c.blockno, c.buf⟩

/-- The loop of `find_dirent`, for at most `n` turns. -/
def findLoop (read : Nat → Mem → Mem) (blockSz iSize : Nat) (name : List UInt8) :
    Nat → Cursor → Option (Option Cursor)
  | 0, _ => none
  | n + 1, c =>
      if c.offset < iSize then
        if Hit name c.buf c.p then some (some c)
        else findLoop read blockSz iSize name n (c.next read blockSz)
      else some none

/-- `find_dirent`: where the entry is, or `some none` for its NULL. -/
def findDirent (read : Nat → Mem → Mem) (fresh : Mem) (blockSz iSize : Nat) (name : List UInt8)
    (n : Nat) : Option (Option Cursor) :=
  findLoop read blockSz iSize name n ⟨0, 0, none, 0, read 0 fresh⟩

/-! ## Images -/

/-- The records of a directory of `iSize` bytes start at the positions `es`, and
each has room for its name. -/
structure Records (m : Mem) (blockSz iSize : Nat) (es : List Nat) : Prop where
  tiles : Tiles id (deRecLen m) 0 es iSize
  inBlock : ∀ p ∈ es, p % blockSz + deRecLen m p ≤ blockSz
  fits : ∀ p ∈ es, 8 + deNameLen m p ≤ deRecLen m p
  multiple : blockSz ∣ iSize
  bounded : iSize < 2 ^ 32

/-- The records of a directory of `iSize` bytes start at the positions `es`. -/
structure DirImage (m : Mem) (blockSz iSize : Nat) (es : List Nat) : Prop where
  tiles : Tiles id (deRecLen m) 0 es iSize
  inBlock : ∀ p ∈ es, p % blockSz + deRecLen m p ≤ blockSz
  fits : ∀ p ∈ es, 8 + deNameLen m p ≤ deRecLen m p
  named : ∀ p ∈ es, deInode m p ≠ 0 → 0 ∉ deName m p
  multiple : blockSz ∣ iSize
  bounded : iSize < 2 ^ 32

theorem DirImage.records {m : Mem} {blockSz iSize : Nat} {es : List Nat}
    (D : DirImage m blockSz iSize es) : Records m blockSz iSize es :=
  ⟨D.tiles, D.inBlock, D.fits, D.multiple, D.bounded⟩

/-- Reading block `b` of the directory gives its part of the image. -/
def ReadsImage (read : Nat → Mem → Mem) (m : Mem) (blockSz iSize : Nat) : Prop :=
  ∀ b buf, (b + 1) * blockSz ≤ iSize → ∀ i < blockSz, read b buf i = m (b * blockSz + i)

theorem deName_congr {m m' : Mem} {p q : Nat} (hlen : deNameLen m p = deNameLen m' q)
    (h : ∀ i < deNameLen m p, m (p + 8 + i) = m' (q + 8 + i)) : deName m p = deName m' q := by
  rw [deName, deName, ← hlen]
  exact List.map_congr_left fun i hi => h i (List.mem_range.mp hi)

/-- A name without NULs is read as it is. -/
theorem reads_iff {m : Mem} {name : List UInt8} {p : Nat} (h : 0 ∉ deName m p) :
    Reads m name p ↔ deName m p = name := by
  rw [Reads, cstr, List.takeWhile_eq_self_iff.mpr]
  intro c hc
  rw [decide_eq_true_eq]
  exact fun h0 => h (h0 ▸ hc)

theorem length_deName (m : Mem) (p : Nat) : (deName m p).length = deNameLen m p := by
  rw [deName, List.length_map, List.length_range]

/-- On the entries of an image, being in use and reading as the name is
enough. -/
theorem DirImage.hit_iff {m : Mem} {blockSz iSize : Nat} {es : List Nat}
    (D : DirImage m blockSz iSize es) {name : List UInt8} {p : Nat} (hp : p ∈ es) :
    Hit name m p ↔ deInode m p ≠ 0 ∧ Reads m name p := by
  constructor
  · exact fun h => ⟨h.1, h.2.2⟩
  · rintro ⟨hlive, hreads⟩
    refine ⟨hlive, ?_, hreads⟩
    rw [← (reads_iff (D.named p hp hlive)).mp hreads, length_deName]

/-- The entry at `p` of the image, seen in a buffer that holds its block. -/
structure SameEntry (m buf : Mem) (p q : Nat) : Prop where
  inode : deInode buf q = deInode m p
  recLen : deRecLen buf q = deRecLen m p
  nameLen : deNameLen buf q = deNameLen m p
  type : deType buf q = deType m p
  name : deName buf q = deName m p

theorem SameEntry.hit_iff {m buf : Mem} {p q : Nat} (h : SameEntry m buf p q)
    (name : List UInt8) : Hit name buf q ↔ Hit name m p := by
  rw [Hit, Hit, Reads, Reads, h.inode, h.nameLen, h.name]

/-- A buffer that agrees with the image on a block agrees on its entries. -/
theorem sameEntry_of_block {m buf : Mem} {blockSz p : Nat}
    (hbuf : ∀ i < blockSz, buf i = m (p / blockSz * blockSz + i))
    (hin : p % blockSz + deRecLen m p ≤ blockSz) (hfits : 8 + deNameLen m p ≤ deRecLen m p) :
    SameEntry m buf p (p % blockSz) := by
  have hp : p / blockSz * blockSz + p % blockSz = p := Nat.div_add_mod' p blockSz
  have hbyte : ∀ i, i < deRecLen m p → buf (p % blockSz + i) = m (p + i) := by
    intro i hi
    rw [hbuf _ (by omega), ← Nat.add_assoc, hp]
  have h8 : ∀ i, i < 8 → buf (p % blockSz + i) = m (p + i) := fun i hi => hbyte i (by omega)
  have hlen : deNameLen buf (p % blockSz) = deNameLen m p := by
    rw [deNameLen, deNameLen, rd8, rd8, h8 6 (by omega)]
  refine ⟨?_, ?_, hlen, ?_, deName_congr hlen fun i hi => ?_⟩
  · exact rd32_eq_of_bytes fun i hi => h8 i (by omega)
  · exact rd16_eq_of_bytes fun i hi => by
      rw [Nat.add_assoc, Nat.add_assoc]
      exact h8 (4 + i) (by omega)
  · rw [deType, deType, rd8, rd8, h8 7 (by omega)]
  · rw [hlen] at hi
    rw [Nat.add_assoc, Nat.add_assoc]
    exact hbyte (8 + i) (by omega)

/-! ## The search -/

section Search

variable {m : Mem} {blockSz iSize limit : Nat} {es : List Nat} {read : Nat → Mem → Mem}

/-- The cursor is at the position `g` of the image. -/
structure At (m : Mem) (blockSz iSize g : Nat) (c : Cursor) : Prop where
  offset : c.offset = g
  p : c.p = g % blockSz
  blockno : c.blockno = g / blockSz
  buf : g < iSize → ∀ i < blockSz, c.buf i = m (g / blockSz * blockSz + i)

theorem At.sameEntry (D : Records m blockSz iSize es) {g : Nat} {c : Cursor}
    (h : At m blockSz limit g c) (hg : g ∈ es) (hlt : g < limit) : SameEntry m c.buf g c.p := by
  rw [h.p]
  exact sameEntry_of_block (h.buf hlt) (D.inBlock g hg) (D.fits g hg)

/-- A block that starts below the size is there in full. -/
theorem block_le (hdvd : blockSz ∣ iSize) {g : Nat} (hg : g < iSize) :
    (g / blockSz + 1) * blockSz ≤ iSize := by
  obtain ⟨k, rfl⟩ := hdvd
  have hlt : g / blockSz < k := Nat.div_lt_of_lt_mul hg
  rw [Nat.mul_comm blockSz k]
  exact Nat.mul_le_mul_right _ hlt

/-- What can be read may go on behind the last record. -/
theorem At.next (D : Records m blockSz iSize es) (hpos : 0 < blockSz) (hdvd : blockSz ∣ limit)
    (hle : iSize ≤ limit) (hread : ReadsImage read m blockSz limit) {g : Nat} {c : Cursor}
    (h : At m blockSz limit g c) (hg : g ∈ es) :
    At m blockSz limit (g + deRecLen m g) (c.next read blockSz) := by
  have hbounds := D.tiles.bounds hg
  have hrec := D.tiles.pos hg
  have hlt : g < limit := by
    rw [id_eq] at hbounds
    omega
  have hsz := D.bounded
  have hin := D.inBlock g hg
  have hsame := (h.sameEntry D hg hlt).recLen
  rw [h.p] at hsame
  have hdm := Nat.div_add_mod' g blockSz
  rw [id_eq] at hbounds
  unfold Cursor.next
  simp only [h.p, hsame, h.offset, h.blockno]
  by_cases hend : g % blockSz + deRecLen m g ≥ blockSz
  · have hfull : g % blockSz + deRecLen m g = blockSz := Nat.le_antisymm hin hend
    have hnext : g + deRecLen m g = (g / blockSz + 1) * blockSz := by
      rw [Nat.add_mul, Nat.one_mul]
      omega
    rw [if_pos hend]
    refine ⟨Nat.mod_eq_of_lt (by omega), ?_, ?_, fun hg' i hi => ?_⟩
    · show g % blockSz + deRecLen m g - blockSz = _
      rw [hfull, Nat.sub_self, hnext, Nat.mul_mod_left]
    · show g / blockSz + 1 = _
      rw [hnext, Nat.mul_div_cancel _ hpos]
    · show read (g / blockSz + 1) c.buf i = _
      have hle := block_le hdvd hg'
      rw [hnext, Nat.mul_div_cancel _ hpos] at hle ⊢
      exact hread _ _ hle i hi
  · have hlt' : g % blockSz + deRecLen m g < blockSz := Nat.lt_of_not_le hend
    have hnext : g + deRecLen m g = g / blockSz * blockSz + (g % blockSz + deRecLen m g) := by
      omega
    rw [if_neg hend]
    refine ⟨Nat.mod_eq_of_lt (by omega), ?_, ?_, fun hg' i hi => ?_⟩
    · rw [hnext, mod_block hlt']
    · rw [hnext, div_block hlt']
    · show c.buf i = _
      rw [hnext, div_block hlt']
      exact h.buf hlt i hi

/-- The search from an entry of the image on. -/
theorem findLoop_eq (D : Records m blockSz iSize es) (hpos : 0 < blockSz)
    (hread : ReadsImage read m blockSz iSize) {name : List UInt8} :
    ∀ (post : List Nat) (pre : List Nat) (g n : Nat) (c : Cursor), es = pre ++ post →
      Tiles id (deRecLen m) g post iSize → post.length < n → At m blockSz iSize g c →
      match post.find? fun p => decide (Hit name m p) with
      | some p => ∃ c', findLoop read blockSz iSize name n c = some (some c')
          ∧ At m blockSz iSize p c' ∧ SameEntry m c'.buf p c'.p
      | none => findLoop read blockSz iSize name n c = some none := by
  intro post
  induction post with
  | nil =>
      intro pre g n c hes htiles hn hc
      obtain ⟨n, rfl⟩ := Nat.exists_eq_succ_of_ne_zero (Nat.ne_of_gt hn)
      show findLoop read blockSz iSize name (n + 1) c = some none
      have hg : g = iSize := htiles
      rw [findLoop, if_neg (by rw [hc.offset]; omega)]
  | cons p post ih =>
      intro pre g n c hes htiles hn hc
      obtain ⟨n, rfl⟩ := Nat.exists_eq_succ_of_ne_zero (Nat.ne_of_gt (Nat.zero_lt_of_lt hn))
      obtain ⟨rfl, hrec, htiles⟩ := htiles
      rw [id_eq] at hc htiles
      have hmem : p ∈ es := by
        rw [hes]
        exact List.mem_append_right _ List.mem_cons_self
      have hlt : p < iSize := by
        have := htiles.le
        omega
      have hsame := hc.sameEntry D hmem hlt
      rw [List.find?_cons, findLoop, if_pos (by rw [hc.offset]; exact hlt)]
      by_cases hhit : Hit name m p
      · rw [if_pos ((hsame.hit_iff name).mpr hhit), decide_eq_true hhit]
        exact ⟨c, rfl, hc, hsame⟩
      · rw [if_neg (mt (hsame.hit_iff name).mp hhit), decide_eq_false hhit]
        exact ih (pre ++ [p]) _ n _ (by rw [hes, List.append_assoc]; rfl) htiles
          (Nat.lt_of_succ_lt_succ hn) (hc.next D hpos D.multiple (Nat.le_refl _) hread hmem)

/-- `find_dirent` finds the first entry in use with the name, if there is
one. -/
theorem findDirent_eq (D : Records m blockSz iSize es) (hpos : 0 < blockSz)
    (hread : ReadsImage read m blockSz iSize) (fresh : Mem) (name : List UInt8) {n : Nat}
    (hn : es.length < n) :
    match es.find? fun p => decide (Hit name m p) with
    | some p => ∃ c, findDirent read fresh blockSz iSize name n = some (some c)
        ∧ At m blockSz iSize p c ∧ SameEntry m c.buf p c.p
    | none => findDirent read fresh blockSz iSize name n = some none := by
  refine findLoop_eq D hpos hread es [] 0 n _ rfl D.tiles hn ?_
  refine ⟨rfl, (Nat.zero_mod _).symm, (Nat.zero_div _).symm, fun hg i hi => ?_⟩
  have hle := block_le D.multiple hg
  rw [Nat.zero_div] at hle ⊢
  exact hread 0 fresh hle i hi

end Search

end Ext2

end Shitos
