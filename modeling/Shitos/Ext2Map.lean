import Shitos.Ext2Blocks
import Shitos.Ext2Volume
import Shitos.PtrTree

/-!
# The block map of an inode

`get_real_block` and `set_real_block`. The fifteen pointers in the inode are
the roots of trees of pointers: twelve lead to a content block, the other
three to tables one, two and three levels deep. Both functions walk down from
a root; `set_real_block` allocates the tables that are missing on the way.

`leafPos p k` is the position of content block `k`, and `tablePath p k` lists
the tables on the way to it. On an inode whose tables are sound (`Tables`),
`get_real_block` returns the pointer at `leafPos p k`.
-/

namespace Shitos

namespace Ext2

open PtrTree

/-- An inode in the driver's hands: the copy `ino` of inode `no` in memory.
`got` records the blocks that `alloc_block` has handed out meanwhile. -/
structure File where
  fs : Fs
  ino : Mem
  no : Nat
  got : List Nat

namespace File

/-- `alloc_block`. -/
def alloc (f : File) : Nat × File :=
  ((allocBlock f.fs).1, { f with
    fs := (allocBlock f.fs).2
    got := f.got ++ if (allocBlock f.fs).1 = 0 then [] else [(allocBlock f.fs).1] })

/-- `write_inode(fs, ino, ino_no)`. -/
def save (f : File) : Status × File :=
  ((writeInode f.fs f.ino f.no).1, { f with fs := (writeInode f.fs f.ino f.no).2 })

/-- `write_block(fs, b, buf)`. -/
def store (f : File) (b : Nat) (buf : Mem) : Status × File :=
  ((writeBlock f.fs b buf).1, { f with fs := (writeBlock f.fs b buf).2 })

end File

/-! ## The two functions -/

/-- `get_real_block`. -/
def getRealBlock (fs : Fs) (ino : Mem) (off : Nat) : Nat :=
  let p := ptrs fs
  if off < 12 then iBlock ino off
  else if off < 12 + p then
    if iBlock ino 12 = 0 then 0
    else
      let idx1 := off - 12
      let tmp := (readBlock fs (iBlock ino 12) fs.fresh).2
      rd32 tmp (4 * idx1)
  else if off < 12 + p + p * p then
    if iBlock ino 13 = 0 then 0
    else
      let a := off - 12 - p
      let tmp := (readBlock fs (iBlock ino 13) fs.fresh).2
      let intermediate := rd32 tmp (4 * (a / p))
      if intermediate = 0 then 0
      else
        let tmp := (readBlock fs intermediate tmp).2
        rd32 tmp (4 * (a % p))
  else
    if iBlock ino 14 = 0 then 0
    else
      let a := off - 12 - p - p * p
      let tmp := (readBlock fs (iBlock ino 14) fs.fresh).2
      let intermediate := rd32 tmp (4 * (a / (p * p)))
      if intermediate = 0 then 0
      else
        let a := a % (p * p)
        let tmp := (readBlock fs intermediate tmp).2
        let intermediate := rd32 tmp (4 * (a / p))
        if intermediate = 0 then 0
        else
          let tmp := (readBlock fs intermediate tmp).2
          rd32 tmp (4 * (a % p))

/-- Allocate the table of `i_block[k]` if there is none. -/
def ensureRoot (f : File) (k : Nat) : Status × File :=
  if iBlock f.ino k ≠ 0 then (.success, f)
  else
    let (newBlock, f) := f.alloc
    if newBlock = 0 then (.noSpace, f)
    else
      let f := { f with ino := setIBlock f.ino k newBlock }
      -- the status of this write_inode is ignored
      (.success, f.save.2)

/-- Read the table in block `t` into `tmp`, and allocate the table of its
entry `idx` if there is none. -/
def ensureEntry (f : File) (t : Nat) (tmp : Mem) (idx : Nat) : Status × Mem × File :=
  let tmp := (readBlock f.fs t tmp).2
  if rd32 tmp (4 * idx) ≠ 0 then (.success, tmp, f)
  else
    let (newBlock, f) := f.alloc
    if newBlock = 0 then (.noSpace, tmp, f)
    else
      let tmp := wr32 tmp (4 * idx) newBlock
      let (ret, f) := f.store t tmp
      (ret, tmp, f)

/-- Read the table in block `t` into `tmp` and set its entry `idx`. -/
def setEntry (f : File) (t : Nat) (tmp : Mem) (idx realBlock : Nat) : Status × File :=
  let tmp := (readBlock f.fs t tmp).2
  f.store t (wr32 tmp (4 * idx) realBlock)

/-- `set_real_block`. -/
def setRealBlock (f : File) (inoBlock realBlock : Nat) : Status × File :=
  let p := ptrs f.fs
  if inoBlock < 12 then
    File.save { f with ino := setIBlock f.ino inoBlock realBlock }
  else if inoBlock < 12 + p then
    match ensureRoot f 12 with
    | (.success, f) => setEntry f (iBlock f.ino 12) f.fs.fresh (inoBlock - 12) realBlock
    | (ret, f) => (ret, f)
  else if inoBlock < 12 + p + p * p then
    match ensureRoot f 13 with
    | (.success, f) =>
        let a := inoBlock - 12 - p
        let idx1 := a / p
        let idx2 := a % p
        match ensureEntry f (iBlock f.ino 13) f.fs.fresh idx1 with
        | (.success, tmp, f) => setEntry f (rd32 tmp (4 * idx1)) tmp idx2 realBlock
        | (ret, _, f) => (ret, f)
    | (ret, f) => (ret, f)
  else
    match ensureRoot f 14 with
    | (.success, f) =>
        let a := inoBlock - 12 - p - p * p
        let idx1 := a / (p * p)
        let idx2 := a % (p * p) / p
        let idx3 := a % (p * p) % p
        match ensureEntry f (iBlock f.ino 14) f.fs.fresh idx1 with
        | (.success, tmp, f) =>
            match ensureEntry f (rd32 tmp (4 * idx1)) tmp idx2 with
            | (.success, tmp, f) => setEntry f (rd32 tmp (4 * idx2)) tmp idx3 realBlock
            | (ret, _, f) => (ret, f)
        | (ret, _, f) => (ret, f)
    | (ret, f) => (ret, f)

/-! ## The map as a tree of pointers -/

/-- Fifteen roots; those from 12 on have tables below them. -/
def tree (p : Nat) : Shape := ⟨p, 15, fun r => r - 11⟩

/-- Entry `i` of the table in block `b`. -/
def entry (fs : Fs) (b i : Nat) : Nat := rd32 (blk fs b) (4 * i)

/-- The pointer at a position of the map. -/
def File.at (f : File) (x : Pos) : Nat := node (iBlock f.ino) (entry f.fs) x

/-- The position of content block `k`. -/
def leafPos (p k : Nat) : Pos :=
  if k < 12 then ⟨k, []⟩
  else if k < 12 + p then ⟨12, [k - 12]⟩
  else if k < 12 + p + p * p then ⟨13, [(k - 12 - p) / p, (k - 12 - p) % p]⟩
  else ⟨14, [(k - 12 - p - p * p) / (p * p), (k - 12 - p - p * p) % (p * p) / p,
    (k - 12 - p - p * p) % (p * p) % p]⟩

/-- The positions of the tables on the way to it, from the top down. -/
def tablePath (p k : Nat) : List Pos :=
  if k < 12 then []
  else if k < 12 + p then [⟨12, []⟩]
  else if k < 12 + p + p * p then [⟨13, []⟩, ⟨13, [(k - 12 - p) / p]⟩]
  else [⟨14, []⟩, ⟨14, [(k - 12 - p - p * p) / (p * p)]⟩,
    ⟨14, [(k - 12 - p - p * p) / (p * p), (k - 12 - p - p * p) % (p * p) / p]⟩]

/-- The number of content blocks an inode can have. -/
def maxBlocks (p : Nat) : Nat := 12 + p + p * p + p * p * p

section Positions

variable {p k : Nat}

theorem idx_lt (hp : 0 < p) {a : Nat} (ha : a < p * p * p) :
    a / (p * p) < p ∧ a % (p * p) / p < p ∧ a % (p * p) % p < p :=
  ⟨Nat.div_lt_of_lt_mul ha,
    Nat.div_lt_of_lt_mul (Nat.mod_lt _ (Nat.mul_pos hp hp)), Nat.mod_lt _ hp⟩

theorem leafPos_direct (h : k < 12) : leafPos p k = ⟨k, []⟩ := if_pos h

theorem leafPos_single (h : 12 ≤ k) (h' : k < 12 + p) : leafPos p k = ⟨12, [k - 12]⟩ := by
  rw [leafPos, if_neg (by omega), if_pos h']

theorem leafPos_double (h : 12 + p ≤ k) (h' : k < 12 + p + p * p) :
    leafPos p k = ⟨13, [(k - 12 - p) / p, (k - 12 - p) % p]⟩ := by
  rw [leafPos, if_neg (by omega), if_neg (by omega), if_pos h']

theorem leafPos_triple (h : 12 + p + p * p ≤ k) :
    leafPos p k = ⟨14, [(k - 12 - p - p * p) / (p * p), (k - 12 - p - p * p) % (p * p) / p,
      (k - 12 - p - p * p) % (p * p) % p]⟩ := by
  rw [leafPos, if_neg (by omega), if_neg (by omega), if_neg (by omega)]

theorem tablePath_direct (h : k < 12) : tablePath p k = [] := if_pos h

theorem tablePath_single (h : 12 ≤ k) (h' : k < 12 + p) : tablePath p k = [⟨12, []⟩] := by
  rw [tablePath, if_neg (by omega), if_pos h']

theorem tablePath_double (h : 12 + p ≤ k) (h' : k < 12 + p + p * p) :
    tablePath p k = [⟨13, []⟩, ⟨13, [(k - 12 - p) / p]⟩] := by
  rw [tablePath, if_neg (by omega), if_neg (by omega), if_pos h']

theorem tablePath_triple (h : 12 + p + p * p ≤ k) :
    tablePath p k = [⟨14, []⟩, ⟨14, [(k - 12 - p - p * p) / (p * p)]⟩,
      ⟨14, [(k - 12 - p - p * p) / (p * p), (k - 12 - p - p * p) % (p * p) / p]⟩] := by
  rw [tablePath, if_neg (by omega), if_neg (by omega), if_neg (by omega)]

theorem table_top {r : Nat} (h : 12 ≤ r) (h' : r < 15) : (tree p).Table ⟨r, []⟩ :=
  ⟨Shape.valid_root h', show 0 < r - 11 by omega⟩

theorem table_double {i : Nat} (hi : i < p) : (tree p).Table ⟨13, [i]⟩ :=
  ⟨(@Shape.valid_child (tree p) ⟨13, []⟩ i).mpr ⟨table_top (by decide) (by decide), hi⟩,
    show 1 < 2 by decide⟩

theorem table_triple {i : Nat} (hi : i < p) : (tree p).Table ⟨14, [i]⟩ :=
  ⟨(@Shape.valid_child (tree p) ⟨14, []⟩ i).mpr ⟨table_top (by decide) (by decide), hi⟩,
    show 1 < 3 by decide⟩

theorem table_triple₂ {i j : Nat} (hi : i < p) (hj : j < p) : (tree p).Table ⟨14, [i, j]⟩ :=
  ⟨(@Shape.valid_child (tree p) ⟨14, [i]⟩ j).mpr ⟨table_triple hi, hj⟩, show 2 < 3 by decide⟩

/-- Content blocks have positions of their own, which are not tables. -/
theorem leafPos_valid (hp : 0 < p) (hk : k < maxBlocks p) :
    (tree p).Valid (leafPos p k) ∧ ¬(tree p).Table (leafPos p k) := by
  unfold maxBlocks at hk
  rcases Nat.lt_or_ge k 12 with h | h
  · rw [leafPos_direct h]
    exact ⟨Shape.valid_root (show k < 15 by omega), fun ht => absurd ht.above
      (show ¬0 < k - 11 by omega)⟩
  rcases Nat.lt_or_ge k (12 + p) with h' | h'
  · rw [leafPos_single h h']
    exact ⟨(@Shape.valid_child (tree p) ⟨12, []⟩ _).mpr ⟨table_top (by decide) (by decide),
      show k - 12 < p by omega⟩, fun ht => absurd ht.above (show ¬1 < 1 by decide)⟩
  rcases Nat.lt_or_ge k (12 + p + p * p) with h'' | h''
  · rw [leafPos_double h' h'']
    exact ⟨(@Shape.valid_child (tree p) ⟨13, [_]⟩ _).mpr
      ⟨table_double (Nat.div_lt_of_lt_mul (by omega)), Nat.mod_lt _ hp⟩,
      fun ht => absurd ht.above (show ¬2 < 2 by decide)⟩
  · obtain ⟨h1, h2, h3⟩ := @idx_lt p hp (k - 12 - p - p * p) (by omega)
    rw [leafPos_triple h'']
    exact ⟨(@Shape.valid_child (tree p) ⟨14, [_, _]⟩ _).mpr ⟨table_triple₂ h1 h2, h3⟩,
      fun ht => absurd ht.above (show ¬3 < 3 by decide)⟩

theorem tablePath_table (hp : 0 < p) (hk : k < maxBlocks p) :
    ∀ x ∈ tablePath p k, (tree p).Table x := by
  unfold maxBlocks at hk
  have htop : ∀ r, 12 ≤ r → r < 15 → (tree p).Table ⟨r, []⟩ := fun r => table_top
  rcases Nat.lt_or_ge k 12 with h | h
  · rw [tablePath_direct h]
    exact fun x hx => nomatch hx
  rcases Nat.lt_or_ge k (12 + p) with h' | h'
  · rw [tablePath_single h h']
    simpa using htop 12 (by decide) (by decide)
  rcases Nat.lt_or_ge k (12 + p + p * p) with h'' | h''
  · rw [tablePath_double h' h'']
    simpa using ⟨htop 13 (by decide) (by decide),
      table_double (Nat.div_lt_of_lt_mul (show k - 12 - p < p * p by omega))⟩
  · obtain ⟨h1, h2, -⟩ := @idx_lt p hp (k - 12 - p - p * p) (by omega)
    rw [tablePath_triple h'']
    simpa using ⟨htop 14 (by decide) (by decide), table_triple h1, table_triple₂ h1 h2⟩

theorem start_tree {r : Nat} (h : r ≤ 12) : (tree p).start r = r := by
  induction r with
  | zero => rfl
  | succ r ih =>
      have hsize : Shape.size p (r - 11) = 1 := by
        rw [show r - 11 = 0 by omega, Shape.size]
      rw [Shape.start, ih (by omega)]
      exact congrArg (r + ·) hsize

theorem start_single : (tree p).start 13 = 13 + p := by
  show (tree p).start 12 + (1 + p * 1) = _
  rw [start_tree (by omega)]
  omega

theorem start_double : (tree p).start 14 = 14 + 2 * p + p * p := by
  show (tree p).start 13 + (1 + p * (1 + p * 1)) = _
  rw [start_single, Nat.mul_one, Nat.mul_add]
  omega

/-- In a traversal, content block `k` comes after the blocks below it and the
tables that they and it need. -/
theorem seq_leafPos (hp : 0 < p) (k : Nat) :
    (tree p).seq (leafPos p k) = k + tables p (k + 1) := by
  rcases Nat.lt_or_ge k 12 with h | h
  · rw [leafPos_direct h, @tables_direct p (k + 1) (by omega)]
    show (tree p).start k + Shape.before p (k - 11) [] = k + 0
    rw [Shape.before_nil, start_tree (by omega)]
  rcases Nat.lt_or_ge k (12 + p) with h' | h'
  · rw [leafPos_single h h', @tables_single p (k + 1) (by omega) (by omega)]
    show (tree p).start 12 + (1 + (k - 12) * 1 + 0) = _
    rw [start_tree (by omega)]
    omega
  rcases Nat.lt_or_ge k (12 + p + p * p) with h'' | h''
  · obtain ⟨a, rfl⟩ := Nat.exists_eq_add_of_le h'
    rw [leafPos_double h' h'', Nat.add_assoc _ a 1, tables_double (by omega),
      show 12 + p + a - 12 - p = a by omega]
    show (tree p).start 13 + (1 + a / p * (1 + p * 1) + (1 + a % p * 1 + 0)) = _
    have hdm := Nat.div_add_mod a p
    rw [start_single, Nat.mul_add, Nat.mul_one, Nat.mul_one, Nat.mul_comm (a / p) p]
    omega
  · obtain ⟨a, rfl⟩ := Nat.exists_eq_add_of_le h''
    rw [leafPos_triple h'', Nat.add_assoc _ a 1, tables_triple,
      show 12 + p + p * p + a - 12 - p - p * p = a by omega]
    show (tree p).start 14 + (1 + a / (p * p) * (1 + p * (1 + p * 1))
      + (1 + a % (p * p) / p * (1 + p * 1) + (1 + a % (p * p) % p * 1 + 0))) = _
    have h1 := Nat.div_add_mod a (p * p)
    have h2 := Nat.div_add_mod (a % (p * p)) p
    have h3 := div_split hp a
    generalize a / (p * p) = i at *
    generalize a % (p * p) / p = j at *
    generalize a % (p * p) % p = l at *
    rw [start_double, h3]
    have e1 : i * (1 + p * (1 + p * 1)) = i + i * p + p * p * i := by ring
    have e2 : j * (1 + p * 1) = j + p * j := by ring
    omega

theorem leafPos_inj (hp : 0 < p) {j : Nat} (h : leafPos p j = leafPos p k) : j = k := by
  have hseq := congrArg (tree p).seq h
  rw [seq_leafPos hp, seq_leafPos hp] at hseq
  rcases Nat.lt_trichotomy j k with hlt | heq | hlt
  · have := @tables_mono p (k + 1) hp (j + 1) (by omega)
    omega
  · exact heq
  · have := @tables_mono p (j + 1) hp (k + 1) (by omega)
    omega

end Positions

/-! ## Reading tables -/

section Entries

variable {fs fs' : Fs} {b i : Nat}

theorem entry_of_agree {m : Mem} (h : Agree m (blk fs b) 0 fs.blockSz) (hi : i < ptrs fs) :
    rd32 m (4 * i) = entry fs b i := by
  unfold ptrs at hi
  exact rd32_congr (h.mono (Nat.zero_le _) (by omega))

theorem entry_congr (h : ∀ j < fs.blockSz, blk fs' b j = blk fs b j) (hi : i < ptrs fs) :
    entry fs' b i = entry fs b i :=
  entry_of_agree (fun j _ hj => h j (by omega)) hi

theorem entry_zero (h : ∀ j < fs.blockSz, blk fs b j = 0) (hi : i < ptrs fs) :
    entry fs b i = 0 := by
  unfold ptrs at hi
  have hb : ∀ k < 4, rd8 (blk fs b) (4 * i + k) = 0 := fun k hk => by
    rw [rd8, h _ (by omega)]
    rfl
  simp only [entry, rd32, rd16, Nat.add_assoc, hb 1 (by decide), hb 2 (by decide),
    hb 3 (by decide), Nat.reduceAdd]
  rw [show rd8 (blk fs b) (4 * i) = 0 from hb 0 (by decide)]

theorem entry_readBlock (hd : fs.devSz ≤ 2 ^ 32) (h : InVol fs b) (buf : Mem)
    (hi : i < ptrs fs) : rd32 (readBlock fs b buf).2 (4 * i) = entry fs b i :=
  entry_of_agree (readBlock_agree hd h buf) hi

/-- The entries after a table has been written back with one entry changed. -/
theorem entry_writeBlock (hd : fs.devSz ≤ 2 ^ 32) {t j v : Nat} (ht : InVol fs t) {m : Mem}
    (hm : Agree m (blk fs t) 0 fs.blockSz) (hv : v < 2 ^ 32) (hi : i < ptrs fs) :
    entry (writeBlock fs t (wr32 m (4 * j) v)).2 b i
      = if b = t ∧ i = j then v else entry fs b i := by
  have hpos : 0 < fs.blockSz := by unfold ptrs at hi; omega
  by_cases hb : b = t
  · subst hb
    have hw : Agree (wr32 m (4 * j) v) (blk (writeBlock fs b (wr32 m (4 * j) v)).2 b) 0
        fs.blockSz := fun x _ hx => (writeBlock_blk_same hd ht _ (by omega)).symm
    have hsz := writeBlock_blockSz fs b (wr32 m (4 * j) v)
    rw [← entry_of_agree (hsz.symm ▸ hw) (by rwa [ptrs, hsz])]
    by_cases hij : i = j
    · rw [if_pos ⟨rfl, hij⟩, hij, rd32_wr32_same _ hv]
    · rw [if_neg fun h => hij h.2, rd32_wr32_of_disjoint (by omega), entry_of_agree hm hi]
  · rw [if_neg fun h => hb h.1]
    refine entry_congr (fun x hx => ?_) hi
    exact (writeBlock_frame hd hpos ht _).blk_eq (writeBlock_blockSz ..)
      (by rwa [Set.mem_singleton_iff]) hx

end Entries

theorem iBlock_setIBlock (ino : Mem) {k j v : Nat} (hv : v < 2 ^ 32) :
    iBlock (setIBlock ino k v) j = if j = k then v else iBlock ino j := by
  unfold iBlock setIBlock
  split
  · rename_i h
    rw [h, rd32_wr32_same _ hv]
  · rw [rd32_wr32_of_disjoint (by omega)]

/-- Only the block pointers of the inode may differ. -/
def SameHead (ino ino' : Mem) : Prop := ∀ i, i < 40 ∨ 100 ≤ i → ino' i = ino i

theorem SameHead.refl (ino : Mem) : SameHead ino ino := fun _ _ => rfl

theorem SameHead.trans {ino₁ ino₂ ino₃ : Mem} (h : SameHead ino₁ ino₂) (h' : SameHead ino₂ ino₃) :
    SameHead ino₁ ino₃ := fun i hi => (h' i hi).trans (h i hi)

theorem SameHead.setIBlock (ino : Mem) {k : Nat} (hk : k < 15) (v : Nat) :
    SameHead ino (setIBlock ino k v) := fun i hi => wr32_apply_of_ne (by omega)

/-! ## Sound tables -/

/-- A block that is marked in the bitmap, if the bitmap describes it. -/
def Taken (fs : Fs) (b : Nat) : Prop := b < capacity .block fs → usedBit .block fs b = true

theorem Taken.run {fs fs' : Fs} {b : Nat} {bs : List Nat} {S : Set Nat} (h : Taken fs b)
    (hr : BitRun bs true S fs fs') : Taken fs' b := by
  intro hlt
  rw [hr.format.capacity] at hlt
  exact hr.used hlt (h hlt)

theorem Taken.of_mem {fs fs' : Fs} {b : Nat} {bs : List Nat} {S : Set Nat} (hb : b ∈ bs)
    (hr : BitRun bs true S fs fs') : Taken fs' b := fun hlt => by
  rw [hr.format.capacity] at hlt
  rw [hr.bits b hlt, if_pos hb]

/-- What a run of allocations hands out was not taken. -/
theorem Taken.not_mem {fs fs' : Fs} {b : Nat} {bs : List Nat} {S : Set Nat} (h : Taken fs b)
    (hr : BitRun bs true S fs fs') : b ∉ bs := fun hb => by
  obtain ⟨hlt, hclear⟩ := hr.flipped b hb
  rw [h hlt] at hclear
  cases hclear

/-- A block that may be a table of the file: a block of the volume that holds
neither bookkeeping nor the inode, and that is taken or one of `P`. -/
structure TableBlock (P : Set Nat) (f : File) (b : Nat) : Prop where
  inVol : InVol f.fs b
  notBook : b ∉ bookBlocks f.fs
  notHome : b ≠ home f.fs f.no
  known : b ∈ P ∨ Taken f.fs b

/-- The volume is sound, and so are the tables of the file. `P` may name
tables that the bitmap does not mark. -/
structure Tables (p : Nat) (P : Set Nat) (f : File) : Prop where
  ptrs : ptrs f.fs = p
  volume : Volume f.fs
  homed : Homed f.fs f.no
  homeTaken : Taken f.fs (home f.fs f.no)
  table : ∀ x, (tree p).Table x → f.at x ≠ 0 → TableBlock P f (f.at x)
  distinct : Distinct (tree p) (iBlock f.ino) (entry f.fs)

/-- The pointer at `x` is `v` now, and no other has changed. -/
def Relinked (p : Nat) (f : File) (x : Pos) (v : Nat) (f' : File) : Prop :=
  Updated (tree p) (iBlock f.ino) (entry f.fs) (iBlock f'.ino) (entry f'.fs) x v

/-- The blocks that hold the inode and its tables. -/
def own (p : Nat) (f : File) : Set Nat :=
  {b | b = home f.fs f.no ∨ ∃ x, (tree p).Table x ∧ f.at x ≠ 0 ∧ f.at x = b}

section Read

variable {p k : Nat} {P : Set Nat} {f : File}

theorem Tables.pos (T : Tables p P f) : 0 < p := by
  have := T.volume.toLayout.blockSz_ge
  rw [← T.ptrs, Ext2.ptrs]
  omega

theorem Tables.entry_read (T : Tables p P f) {x : Pos} (hx : (tree p).Table x) (h0 : f.at x ≠ 0)
    {i : Nat} (hi : i < p) (buf : Mem) :
    rd32 (readBlock f.fs (f.at x) buf).2 (4 * i) = f.at (x.child i) := by
  rw [entry_readBlock T.volume.dev (T.table x hx h0).inVol _ (by rwa [T.ptrs]), File.at, File.at,
    node_child]
  exact (step_of_ne h0 i).symm

/-- `get_real_block` returns the pointer at the position of the block. -/
theorem Tables.getRealBlock_eq (T : Tables p P f) (hk : k < maxBlocks p) :
    getRealBlock f.fs f.ino k = f.at (leafPos p k) := by
  have hp := T.pos
  have hroot : ∀ r, iBlock f.ino r = f.at ⟨r, []⟩ := fun r => rfl
  have hnull : ∀ (x : Pos) (i : Nat), f.at x = 0 → f.at (x.child i) = 0 := fun x i h => by
    by_contra hne
    exact node_ne_zero_of_child hne h
  have hread := fun {x} (hx : (tree p).Table x) (h0 : f.at x ≠ 0) {i} (hi : i < p) buf =>
    T.entry_read hx h0 hi buf
  unfold maxBlocks at hk
  simp only [getRealBlock, T.ptrs, hroot]
  rcases Nat.lt_or_ge k 12 with h | h
  · rw [if_pos h, leafPos_direct h]
  rw [if_neg (by omega)]
  rcases Nat.lt_or_ge k (12 + p) with h' | h'
  · rw [if_pos h', leafPos_single h h']
    by_cases h0 : f.at ⟨12, []⟩ = 0
    · rw [if_pos h0]
      exact (hnull ⟨12, []⟩ (k - 12) h0).symm
    · rw [if_neg h0]
      exact hread (table_top (by decide) (by decide)) h0 (by omega) _
  rw [if_neg (by omega)]
  rcases Nat.lt_or_ge k (12 + p + p * p) with h'' | h''
  · rw [if_pos h'', leafPos_double h' h'']
    have hi : (k - 12 - p) / p < p := Nat.div_lt_of_lt_mul (by omega)
    by_cases h0 : f.at ⟨13, []⟩ = 0
    · rw [if_pos h0]
      exact (hnull ⟨13, [_]⟩ _ (hnull ⟨13, []⟩ _ h0)).symm
    · rw [if_neg h0, hread (table_top (by decide) (by decide)) h0 hi]
      by_cases h1 : f.at ⟨13, [(k - 12 - p) / p]⟩ = 0
      · exact (if_pos h1).trans (hnull ⟨13, [_]⟩ _ h1).symm
      · exact (if_neg h1).trans (hread (table_double hi) h1 (Nat.mod_lt _ hp) _)
  · rw [if_neg (by omega), leafPos_triple h'']
    obtain ⟨hi, hj, hl⟩ := @idx_lt p hp (k - 12 - p - p * p) (by omega)
    by_cases h0 : f.at ⟨14, []⟩ = 0
    · rw [if_pos h0]
      exact (hnull ⟨14, [_, _]⟩ _ (hnull ⟨14, [_]⟩ _ (hnull ⟨14, []⟩ _ h0))).symm
    · rw [if_neg h0, hread (table_top (by decide) (by decide)) h0 hi]
      by_cases h1 : f.at ⟨14, [(k - 12 - p - p * p) / (p * p)]⟩ = 0
      · exact (if_pos h1).trans (hnull ⟨14, [_, _]⟩ _ (hnull ⟨14, [_]⟩ _ h1)).symm
      · have hmid : ∀ buf, _ = f.at ⟨14, [_, _]⟩ := hread (table_triple hi) h1 hj
        refine (if_neg h1).trans ?_
        by_cases h2 : f.at ⟨14, [(k - 12 - p - p * p) / (p * p),
            (k - 12 - p - p * p) % (p * p) / p]⟩ = 0
        · exact (if_pos ((hmid _).trans h2)).trans (hnull ⟨14, [_, _]⟩ _ h2).symm
        · refine (if_neg fun h => h2 ((hmid _).symm.trans h)).trans ?_
          have hlast := hread (table_triple₂ hi hj) h2 hl
          rw [← hmid] at hlast
          exact hlast _

end Read

end Ext2

end Shitos
