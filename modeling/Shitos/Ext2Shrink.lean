import Shitos.Ext2Dense

/-!
# Shrinking an inode

`free_inode_block` numbers the blocks of an inode, content and tables
together, in the order of a traversal, and `free_inode_blocks` frees them from
the last one down. `target p off` is the position where `free_inode_block`
looks for block `off`. It is the position with that number up to the first
table below the doubly indirect one, and up to the first below the triply
indirect one (`target_right`); beyond them the driver counts a table for every
`p * p + p` blocks instead of every `p + 1`, and looks outside a table or at a
block that comes much earlier.
-/

namespace Shitos

namespace Ext2

open PtrTree

/-! ## The functions -/

/-- `free_block(fs, b)`, whose status is ignored. -/
def File.free (f : File) (b : Nat) : File := { f with fs := (freeBlock f.fs b).2 }

/-- Free the block of `i_block[k]`. -/
def freeRoot (f : File) (k : Nat) : File :=
  let f := f.free (iBlock f.ino k)
  { f with ino := setIBlock f.ino k 0 }

/-- Free the block of entry `i` of the table in `tmp`, clear the entry and write
the table to block `t`; `none` if the entry is outside of it. -/
def freeEntry (f : File) (t : Nat) (tmp : Mem) (i : Nat) : Option (Status × File) :=
  if i < ptrs f.fs then
    let f := f.free (rd32 tmp (4 * i))
    some (.success, (f.store t (wr32 tmp (4 * i) 0)).2)
  else none

/-- `free_inode_block`; `none` if it accesses a table outside its entries. -/
def freeInodeBlock (f : File) (off : Nat) : Option (Status × File) :=
  let p := ptrs f.fs
  if off < 12 then some (.success, freeRoot f off)
  else if off < 12 + p + 1 then
    if iBlock f.ino 12 = 0 then some (.badBlock, f)
    else
      let a := off - 12
      if a = 0 then some (.success, freeRoot f 12)
      else
        let tmp := (readBlock f.fs (iBlock f.ino 12) f.fs.fresh).2
        freeEntry f (iBlock f.ino 12) tmp (a - 1)
  else if off < 12 + p + p * p + 1 + 1 + p then
    if iBlock f.ino 13 = 0 then some (.badBlock, f)
    else
      let a := off - 12 - p - 1
      if a = 0 then some (.success, freeRoot f 13)
      else
        let tmp := (readBlock f.fs (iBlock f.ino 13) f.fs.fresh).2
        let b := (a - 1) / (p * p + p)
        let a := (a - 1) % (p * p + p)
        if a = 0 then freeEntry f (iBlock f.ino 13) tmp b
        else if b < p then
          let intermediate := rd32 tmp (4 * b)
          if intermediate = 0 then some (.badBlock, f)
          else
            let tmp := (readBlock f.fs intermediate tmp).2
            freeEntry f intermediate tmp (a - 1)
        else none
  else
    if iBlock f.ino 14 = 0 then some (.badBlock, f)
    else
      let a := off - 12 - p - p * p - 1 - 1 - p
      if a = 0 then some (.success, freeRoot f 14)
      else
        let tmp := (readBlock f.fs (iBlock f.ino 14) f.fs.fresh).2
        let b := (a - 1) / (p * p * p + p * p + p)
        let a := (a - 1) % (p * p * p + p * p + p)
        if a = 0 then freeEntry f (iBlock f.ino 14) tmp b
        else if b < p then
          let intermediate := rd32 tmp (4 * b)
          if intermediate = 0 then some (.badBlock, f)
          else
            let dind := intermediate
            let tmp := (readBlock f.fs dind tmp).2
            let b := (a - 1) / (p * p + p)
            let a := (a - 1) % (p * p + p)
            if a = 0 then freeEntry f dind tmp b
            else if b < p then
              let intermediate := rd32 tmp (4 * b)
              if intermediate = 0 then some (.badBlock, f)
              else
                let tmp := (readBlock f.fs intermediate tmp).2
                freeEntry f intermediate tmp (a - 1)
            else none
        else none

/-- The loop of `free_inode_blocks`: `n` calls of `free_inode_block`, from the
block before `last` down. -/
def freeLoop : Nat → File → Nat → Option (Status × File)
  | 0, f, _ => some (.success, f)
  | n + 1, f, last =>
      match freeInodeBlock f (sub32 last 1) with
      | some (.success, f) => freeLoop n f (sub32 last 1)
      | res => res

/-- `free_inode_blocks`. -/
def freeInodeBlocks (f : File) (blocks : Nat) : Option (Status × File) :=
  let sectors := getBlockCount f.fs blocks
  if iBlocks f.ino ≤ sectors then some (.badBlock, f)
  else
    let lastBlock := iBlocks f.ino / (f.fs.blockSz / 512)
    let toFree := (iBlocks f.ino - sectors) / (f.fs.blockSz / 512)
    match freeLoop toFree f lastBlock with
    | some (.success, f) => some (.success, { f with ino := setIBlocks f.ino sectors })
    | res => res

/-! ## Where `free_inode_block` looks -/

/-- The position where `free_inode_block` looks for block `off`; `none` if that
is outside a table. -/
def target (p off : Nat) : Option Pos :=
  if off < 12 then some ⟨off, []⟩
  else if off < 12 + p + 1 then
    let a := off - 12
    if a = 0 then some ⟨12, []⟩ else if a - 1 < p then some ⟨12, [a - 1]⟩ else none
  else if off < 12 + p + p * p + 1 + 1 + p then
    let a := off - 12 - p - 1
    if a = 0 then some ⟨13, []⟩
    else
      let b := (a - 1) / (p * p + p)
      let a := (a - 1) % (p * p + p)
      if b < p then
        if a = 0 then some ⟨13, [b]⟩ else if a - 1 < p then some ⟨13, [b, a - 1]⟩ else none
      else none
  else
    let a := off - 12 - p - p * p - 1 - 1 - p
    if a = 0 then some ⟨14, []⟩
    else
      let b := (a - 1) / (p * p * p + p * p + p)
      let a := (a - 1) % (p * p * p + p * p + p)
      if b < p then
        if a = 0 then some ⟨14, [b]⟩
        else
          let c := (a - 1) / (p * p + p)
          let a := (a - 1) % (p * p + p)
          if c < p then
            if a = 0 then some ⟨14, [b, c]⟩
            else if a - 1 < p then some ⟨14, [b, c, a - 1]⟩ else none
          else none
      else none

theorem seq_single {p i : Nat} : (tree p).seq ⟨12, [i]⟩ = 13 + i := by
  show (tree p).start 12 + (1 + i * 1 + 0) = _
  rw [start_tree (by omega)]
  omega

theorem seq_double₂ {p i j : Nat} : (tree p).seq ⟨13, [i, j]⟩ = 15 + p + i * (1 + p) + j := by
  show (tree p).start 13 + (1 + i * (1 + p * 1) + (1 + j * 1 + 0)) = _
  rw [start_single, Nat.mul_one]
  omega

theorem seq_triple₃ {p i j k : Nat} : (tree p).seq ⟨14, [i, j, k]⟩
    = 17 + 2 * p + p * p + i * (1 + p + p * p) + j * (1 + p) + k := by
  show (tree p).start 14
    + (1 + i * (1 + p * (1 + p * 1)) + (1 + j * (1 + p * 1) + (1 + k * 1 + 0))) = _
  rw [start_double, Nat.mul_one, show 1 + p * (1 + p) = 1 + p + p * p by ring]
  omega

section Target

variable {p off : Nat} {f f' : File} {y : Pos}

theorem target_valid (h : target p off = some y) : (tree p).Valid y := by
  have htop : ∀ {r}, 12 ≤ r → r < 15 → (tree p).Valid ⟨r, []⟩ := fun h h' => (table_top h h').toValid
  have hchild := fun {x} (hx : (tree p).Table x) {i} (hi : i < p) =>
    @Shape.valid_child (tree p) x i |>.mpr ⟨hx, hi⟩
  simp only [target] at h
  rcases ite_eq_iff.mp h with ⟨h12, h⟩ | ⟨-, h⟩
  · obtain rfl := Option.some.inj h
    exact Shape.valid_root (show off < 15 by omega)
  rcases ite_eq_iff.mp h with ⟨-, h⟩ | ⟨-, h⟩
  · rcases ite_eq_iff.mp h with ⟨-, h⟩ | ⟨-, h⟩
    · obtain rfl := Option.some.inj h
      exact htop (by decide) (by decide)
    rcases ite_eq_iff.mp h with ⟨hi, h⟩ | ⟨-, h⟩
    · obtain rfl := Option.some.inj h
      exact @hchild ⟨12, []⟩ (table_top (by decide) (by decide)) _ hi
    · exact nomatch h
  rcases ite_eq_iff.mp h with ⟨-, h⟩ | ⟨-, h⟩
  · rcases ite_eq_iff.mp h with ⟨-, h⟩ | ⟨-, h⟩
    · obtain rfl := Option.some.inj h
      exact htop (by decide) (by decide)
    rcases ite_eq_iff.mp h with ⟨hb, h⟩ | ⟨-, h⟩
    · rcases ite_eq_iff.mp h with ⟨-, h⟩ | ⟨-, h⟩
      · obtain rfl := Option.some.inj h
        exact (table_double hb).toValid
      rcases ite_eq_iff.mp h with ⟨hi, h⟩ | ⟨-, h⟩
      · obtain rfl := Option.some.inj h
        exact @hchild ⟨13, [_]⟩ (table_double hb) _ hi
      · exact nomatch h
    · exact nomatch h
  rcases ite_eq_iff.mp h with ⟨-, h⟩ | ⟨-, h⟩
  · obtain rfl := Option.some.inj h
    exact htop (by decide) (by decide)
  rcases ite_eq_iff.mp h with ⟨hb, h⟩ | ⟨-, h⟩
  · rcases ite_eq_iff.mp h with ⟨-, h⟩ | ⟨-, h⟩
    · obtain rfl := Option.some.inj h
      exact (table_triple hb).toValid
    rcases ite_eq_iff.mp h with ⟨hc, h⟩ | ⟨-, h⟩
    · rcases ite_eq_iff.mp h with ⟨-, h⟩ | ⟨-, h⟩
      · obtain rfl := Option.some.inj h
        exact (table_triple₂ hb hc).toValid
      rcases ite_eq_iff.mp h with ⟨hi, h⟩ | ⟨-, h⟩
      · obtain rfl := Option.some.inj h
        exact @hchild ⟨14, [_, _]⟩ (table_triple₂ hb hc) _ hi
      · exact nomatch h
    · exact nomatch h
  · exact nomatch h

/-- The blocks for which `free_inode_block` looks in the right place. -/
def Reached (p off : Nat) : Prop :=
  off ≤ 14 + 2 * p ∨ 14 + 2 * p + p * p ≤ off ∧ off ≤ 16 + 3 * p + p * p

/-- Block `off` is found where the traversal has it. -/
theorem target_right (hp : 0 < p) (h : Reached p off) :
    ∃ y, target p off = some y ∧ (tree p).seq y = off := by
  have hpp : 0 < p * p := Nat.mul_pos hp hp
  have hppp : 0 < p * p * p := Nat.mul_pos hpp hp
  have hzero : ∀ {a m : Nat}, a < m → a / m = 0 ∧ a % m = a := fun h =>
    ⟨Nat.div_eq_of_lt h, Nat.mod_eq_of_lt h⟩
  unfold Reached at h
  simp only [target]
  rcases Nat.lt_or_ge off 12 with h1 | h1
  · rw [if_pos h1]
    exact ⟨_, rfl, seq_top.trans (start_tree (by omega))⟩
  rw [if_neg (by omega)]
  rcases Nat.lt_or_ge off (12 + p + 1) with h2 | h2
  · rw [if_pos h2]
    by_cases ha : off - 12 = 0
    · rw [if_pos ha]
      exact ⟨_, rfl, by rw [seq_top, start_tree (by omega)]; omega⟩
    · rw [if_neg ha, if_pos (by omega)]
      exact ⟨_, rfl, by rw [seq_single]; omega⟩
  rw [if_neg (by omega)]
  rcases Nat.lt_or_ge off (12 + p + p * p + 1 + 1 + p) with h3 | h3
  · rw [if_pos h3]
    by_cases ha : off - 12 - p - 1 = 0
    · rw [if_pos ha]
      exact ⟨_, rfl, by rw [seq_top, start_single]; omega⟩
    · obtain ⟨hd, hm⟩ := @hzero (off - 12 - p - 1 - 1) (p * p + p) (by omega)
      rw [if_neg ha, hd, hm, if_pos hp]
      by_cases ha' : off - 12 - p - 1 - 1 = 0
      · rw [if_pos ha']
        exact ⟨_, rfl, by rw [seq_double]; omega⟩
      · rw [if_neg ha', if_pos (by omega)]
        exact ⟨_, rfl, by rw [seq_double₂]; omega⟩
  rw [if_neg (by omega)]
  by_cases ha : off - 12 - p - p * p - 1 - 1 - p = 0
  · rw [if_pos ha]
    exact ⟨_, rfl, by rw [seq_top, start_double]; omega⟩
  obtain ⟨hd, hm⟩ := @hzero (off - 12 - p - p * p - 1 - 1 - p - 1) (p * p * p + p * p + p) (by omega)
  rw [if_neg ha, hd, hm, if_pos hp]
  by_cases ha' : off - 12 - p - p * p - 1 - 1 - p - 1 = 0
  · rw [if_pos ha']
    exact ⟨_, rfl, by rw [seq_triple]; omega⟩
  obtain ⟨hd', hm'⟩ := @hzero (off - 12 - p - p * p - 1 - 1 - p - 1 - 1) (p * p + p) (by omega)
  rw [if_neg ha', hd', hm', if_pos hp]
  by_cases ha'' : off - 12 - p - p * p - 1 - 1 - p - 1 - 1 = 0
  · rw [if_pos ha'']
    exact ⟨_, rfl, by rw [seq_triple₂]; omega⟩
  · rw [if_neg ha'', if_pos (by omega)]
    exact ⟨_, rfl, by rw [seq_triple₃]; omega⟩

/-- The other blocks below the doubly indirect table are looked for outside a
table. -/
theorem target_double_none (hp : 0 < p) (h : 15 + 2 * p ≤ off) (h' : off ≤ 13 + 2 * p + p * p) :
    target p off = none := by
  simp only [target]
  rw [if_neg (by omega), if_neg (by omega), if_pos (by omega), if_neg (by omega),
    Nat.div_eq_of_lt (by omega), Nat.mod_eq_of_lt (by omega), if_pos hp, if_neg (by omega),
    if_neg (by omega)]

/-- The first block that is not reached below the triply indirect table is
looked for outside a table. -/
theorem target_triple_none (hp : 1 < p) : target p (17 + 3 * p + p * p) = none := by
  have hpp := Nat.mul_lt_mul_of_pos_right hp (Nat.zero_lt_of_lt hp)
  simp only [target]
  rw [if_neg (by omega), if_neg (by omega), if_neg (by omega), if_neg (by omega),
    Nat.div_eq_of_lt (by omega), Nat.mod_eq_of_lt (by omega), if_pos (by omega), if_neg (by omega),
    Nat.div_eq_of_lt (by omega), Nat.mod_eq_of_lt (by omega), if_pos (by omega), if_neg (by omega),
    if_neg (by omega)]

/-- The blocks after it are looked for too early in the traversal, if not outside
a table. -/
theorem target_triple_stray (hp : 1 < p) (h : 17 + 3 * p + p * p < off)
    (hlt : off < 15 + 3 * p + 2 * (p * p) + p * p * p) (ht : target p off = some y) :
    ∃ c r, 0 < c ∧ r ≤ p ∧ off = 16 + 2 * p + p * p + (c * (p * p + p) + r)
      ∧ (tree p).seq y = 16 + 2 * p + p * p + c * (1 + p) + r ∧ ((tree p).Table y ↔ r = 0) := by
  simp only [target] at ht
  rw [if_neg (by omega), if_neg (by omega), if_neg (by omega), if_neg (by omega),
    Nat.div_eq_of_lt (by omega), Nat.mod_eq_of_lt (by omega), if_pos (by omega),
    if_neg (by omega)] at ht
  have hdm := Nat.div_add_mod (off - 12 - p - p * p - 1 - 1 - p - 1 - 1) (p * p + p)
  generalize (off - 12 - p - p * p - 1 - 1 - p - 1 - 1) / (p * p + p) = c at *
  generalize (off - 12 - p - p * p - 1 - 1 - p - 1 - 1) % (p * p + p) = a at *
  rw [Nat.mul_comm] at hdm
  have hpos : a < 2 + p → 0 < c := by
    intro ha
    by_contra hc
    rw [Nat.eq_zero_of_not_pos hc, Nat.zero_mul] at hdm
    omega
  rcases ite_eq_iff.mp ht with ⟨hc, ht⟩ | ⟨-, ht⟩
  · rcases ite_eq_iff.mp ht with ⟨ha, ht⟩ | ⟨ha, ht⟩
    · obtain rfl := Option.some.inj ht
      refine ⟨c, a, hpos (by omega), by omega, by omega, ?_, fun _ => ha, fun _ => ?_⟩
      · rw [seq_triple₂]
        omega
      · exact table_triple₂ (by omega) hc
    rcases ite_eq_iff.mp ht with ⟨hi, ht⟩ | ⟨-, ht⟩
    · obtain rfl := Option.some.inj ht
      refine ⟨c, a, hpos (by omega), by omega, by omega, ?_, fun ht => ?_, fun h => absurd h ha⟩
      · rw [seq_triple₃]
        omega
      · exact absurd ht.above (show ¬3 < 3 by decide)
    · exact nomatch ht
  · exact nomatch ht

theorem freeEntry_eq {t i : Nat} {tmp : Mem} (h : i < ptrs f.fs) : freeEntry f t tmp i
    = some (.success, ((f.free (rd32 tmp (4 * i))).store t (wr32 tmp (4 * i) 0)).2) := if_pos h

theorem freeEntry_success {t i : Nat} {tmp : Mem} (h : freeEntry f t tmp i = some (.success, f')) :
    i < ptrs f.fs := by
  unfold freeEntry at h
  split at h
  · assumption
  · exact nomatch h

/-- Where the place is outside a table, `free_inode_block` does not succeed,
whatever the tables hold. -/
theorem freeInodeBlock_no_target (h : target (ptrs f.fs) off = none) :
    freeInodeBlock f off ≠ some (.success, f') := by
  intro hs
  simp only [target] at h
  simp only [freeInodeBlock] at hs
  rcases ite_eq_iff.mp h with ⟨-, h⟩ | ⟨h12, h⟩
  · exact nomatch h
  rw [if_neg h12] at hs
  rcases ite_eq_iff.mp h with ⟨hsind, h⟩ | ⟨hsind, h⟩
  · rw [if_pos hsind] at hs
    rcases ite_eq_iff.mp hs with ⟨-, hs⟩ | ⟨-, hs⟩
    · exact nomatch hs
    rcases ite_eq_iff.mp h with ⟨-, h⟩ | ⟨ha, h⟩
    · exact nomatch h
    rw [if_neg ha] at hs
    rw [if_pos (freeEntry_success hs)] at h
    exact nomatch h
  rw [if_neg hsind] at hs
  rcases ite_eq_iff.mp h with ⟨hdind, h⟩ | ⟨hdind, h⟩
  · rw [if_pos hdind] at hs
    rcases ite_eq_iff.mp hs with ⟨-, hs⟩ | ⟨-, hs⟩
    · exact nomatch hs
    rcases ite_eq_iff.mp h with ⟨-, h⟩ | ⟨ha, h⟩
    · exact nomatch h
    rw [if_neg ha] at hs
    rcases ite_eq_iff.mp hs with ⟨ha', hs⟩ | ⟨ha', hs⟩
    · rw [if_pos (freeEntry_success hs), if_pos ha'] at h
      exact nomatch h
    rcases ite_eq_iff.mp hs with ⟨hb, hs⟩ | ⟨-, hs⟩
    · rcases ite_eq_iff.mp hs with ⟨-, hs⟩ | ⟨-, hs⟩
      · exact nomatch hs
      rw [if_pos hb, if_neg ha', if_pos (freeEntry_success hs)] at h
      exact nomatch h
    · exact nomatch hs
  rw [if_neg hdind] at hs
  rcases ite_eq_iff.mp hs with ⟨-, hs⟩ | ⟨-, hs⟩
  · exact nomatch hs
  rcases ite_eq_iff.mp h with ⟨-, h⟩ | ⟨ha, h⟩
  · exact nomatch h
  rw [if_neg ha] at hs
  rcases ite_eq_iff.mp hs with ⟨ha', hs⟩ | ⟨ha', hs⟩
  · rw [if_pos (freeEntry_success hs), if_pos ha'] at h
    exact nomatch h
  rcases ite_eq_iff.mp hs with ⟨hb, hs⟩ | ⟨-, hs⟩
  · rw [if_pos hb, if_neg ha'] at h
    rcases ite_eq_iff.mp hs with ⟨-, hs⟩ | ⟨-, hs⟩
    · exact nomatch hs
    rcases ite_eq_iff.mp hs with ⟨ha'', hs⟩ | ⟨ha'', hs⟩
    · rw [if_pos (freeEntry_success hs), if_pos ha''] at h
      exact nomatch h
    rcases ite_eq_iff.mp hs with ⟨hc, hs⟩ | ⟨-, hs⟩
    · rcases ite_eq_iff.mp hs with ⟨-, hs⟩ | ⟨-, hs⟩
      · exact nomatch hs
      rw [if_pos hc, if_neg ha'', if_pos (freeEntry_success hs)] at h
      exact nomatch h
    · exact nomatch hs
  · exact nomatch hs

end Target

/-! ## Giving one block back -/

/-- The block at position `y` has been given back. If nothing was in use below
it, the pointer there is null now and no other has changed. -/
structure Unlinked (p : Nat) (f : File) (y : Pos) (f' : File) : Prop where
  run : BitRun [f.at y] false (own p f) f.fs f'.fs
  no : f'.no = f.no
  head : SameHead f.ino f'.ino
  relinked : ((tree p).Table y → ∀ i < p, f.at (y.child i) = 0) → Relinked p f y 0 f'
  home : ∀ i < f.fs.blockSz, blk f'.fs (Ext2.home f.fs f.no) i = blk f.fs (Ext2.home f.fs f.no) i

section Unlink

variable {p off : Nat} {f f' : File} {x y : Pos}

theorem Owned.free (O : Owned p f) (hy : (tree p).Valid y) (h0 : f.at y ≠ 0) :
    BitRun [f.at y] false ∅ f.fs (f.free (f.at y)).fs :=
  have hb := O.block y hy h0
  freeBlock_run O.volume h0 hb.lt hb.used

theorem freeRoot_unlinked (O : Owned p f) {r : Nat} (hr : r < 15) (h0 : f.at ⟨r, []⟩ ≠ 0) :
    Unlinked p f ⟨r, []⟩ (freeRoot f r) := by
  have hrun : BitRun [f.at ⟨r, []⟩] false ∅ f.fs (freeRoot f r).fs :=
    O.free (Shape.valid_root hr) h0
  refine ⟨hrun.mono (Set.empty_subset _), rfl, SameHead.setIBlock _ hr 0, fun hbare => ?_,
    fun _ hi => hrun.blk_eq O.homed.notBook (Set.notMem_empty _) hi⟩
  refine updated_of_root (fun r' _ => iBlock_setIBlock f.ino (by decide)) ?_ ?_ ?_
  · intro z hz hz0 i hi
    exact hrun.entry (O.block z hz.toValid hz0).notBook (Set.notMem_empty _) (by rwa [O.ptrs])
  · intro ht i hi
    have hchild : f.at (Pos.child ⟨r, []⟩ i) = 0 := hbare ht i hi
    rwa [File.at, node_child] at hchild
  · exact fun _ i _ => step_zero i

/-- `free_inode_block` clears one entry of a table and leaves the others. -/
theorem freeEntry_clears (O : Owned p f) (hx : (tree p).Table x) (hlive : f.at x ≠ 0) {i : Nat}
    (hi : i < p) (h0 : f.at (x.child i) ≠ 0) (buf : Mem) :
    ∃ f', freeEntry f (f.at x) (readBlock f.fs (f.at x) buf).2 i = some (.success, f')
      ∧ BitRun [f.at (x.child i)] false {f.at x} f.fs f'.fs ∧ f'.no = f.no ∧ f'.ino = f.ino
      ∧ ∀ z, (tree p).Table z → f.at z ≠ 0 → ∀ j < p, entry f'.fs (f.at z) j
        = if f.at z = f.at x ∧ j = i then 0 else entry f.fs (f.at z) j := by
  have T := O.tables
  have hread := T.entry_read hx hlive hi buf
  have hb := O.block x hx.toValid hlive
  have hvalid : (tree p).Valid (x.child i) := Shape.valid_child.mpr ⟨hx, hi⟩
  have hm := readBlock_agree T.volume.dev hb.inVol buf
  obtain ⟨m, hmdef⟩ : ∃ m, m = (readBlock f.fs (f.at x) buf).2 := ⟨_, rfl⟩
  rw [← hmdef] at hread hm ⊢
  have hfree := O.free hvalid h0
  have V₁ : Volume (f.free (f.at (x.child i))).fs := T.volume.of_given hfree fun b hmem => by
    rw [List.mem_singleton.mp hmem]
    exact ⟨(O.block _ hvalid h0).inVol, (O.block _ hvalid h0).notBook⟩
  have hin : InVol (f.free (f.at (x.child i))).fs (f.at x) := (hfree.format.inVol _).mpr hb.inVol
  have hbook : f.at x ∉ bookBlocks (f.free (f.at (x.child i))).fs := by
    rw [hfree.format.bookBlocks]
    exact hb.notBook
  have hptrs : Ext2.ptrs (f.free (f.at (x.child i))).fs = p := hfree.ptrs.trans O.ptrs
  have hwrite := @writeBlock_run false _ V₁ _ hin hbook (wr32 m (4 * i) 0)
  have hrun := hfree.trans hwrite
  rw [List.append_nil, Set.empty_union] at hrun
  have heq := @freeEntry_eq f (f.at x) i m (by rwa [O.ptrs])
  rw [hread] at heq
  refine ⟨_, heq, hrun, rfl, rfl, fun z hz hz0 j hj => ?_⟩
  have hagree : Agree m (blk (f.free (f.at (x.child i))).fs (f.at x)) 0
      (f.free (f.at (x.child i))).fs.blockSz := by
    intro k hk hk'
    rw [hfree.format.blockSz] at hk'
    rw [hm k hk hk']
    exact (hfree.blk_eq hb.notBook (Set.notMem_empty _) (by omega)).symm
  have hsame := hfree.entry (O.block z hz.toValid hz0).notBook (Set.notMem_empty _)
    (show j < Ext2.ptrs f.fs by rwa [O.ptrs])
  have hset := @entry_writeBlock _ (f.at z) j V₁.dev (f.at x) i 0 hin m hagree (by decide)
    (by rwa [hptrs])
  exact hset.trans (if_congr Iff.rfl rfl hsame)

theorem freeEntry_unlinked (O : Owned p f) (hx : (tree p).Table x) (hlive : f.at x ≠ 0) {i : Nat}
    (hi : i < p) (h0 : f.at (x.child i) ≠ 0) (buf : Mem) :
    ∃ f', freeEntry f (f.at x) (readBlock f.fs (f.at x) buf).2 i = some (.success, f')
      ∧ Unlinked p f (x.child i) f' := by
  have hb := O.block x hx.toValid hlive
  obtain ⟨f', heq, hrun, hno, hino, hentry⟩ := freeEntry_clears O hx hlive hi h0 buf
  refine ⟨f', heq, hrun.mono ?_, hno, hino ▸ SameHead.refl _, fun hbare => ?_,
    fun _ hi => hrun.blk_eq O.homed.notBook (fun heq => hb.notHome heq.symm) hi⟩
  · rintro b rfl
    exact Or.inr ⟨x, hx, hlive, rfl⟩
  · refine updated_of_entry O.tables.distinct hx hlive (fun r _ => by rw [hino]) hentry ?_
      fun _ j _ => step_zero j
    intro ht j hj
    have hchild : f.at ((x.child i).child j) = 0 := hbare ht j hj
    rwa [File.at, node_child] at hchild

/-- What is left of the file after a block of it has been given back. -/
theorem Unlinked.owned (h : Unlinked p f y f') (O : Owned p f) (hy : (tree p).Valid y)
    (h0 : f.at y ≠ 0) (hbare : (tree p).Table y → ∀ i < p, f.at (y.child i) = 0) :
    Owned p f' := by
  have hlink := h.relinked hbare
  have hb := O.block y hy h0
  have hformat := h.run.format
  have hkeep : ∀ b, b ≠ f.at y → b < capacity .block f.fs → usedBit .block f.fs b = true →
      usedBit .block f'.fs b = true := by
    intro b hne hlt hused
    rw [h.run.bits b hlt, if_neg fun hm => hne (List.mem_singleton.mp hm), hused]
  refine ⟨h.run.ptrs.trans O.ptrs, ?_, ?_, ?_, ?_, ?_⟩
  · refine O.volume.of_given h.run fun b hmem => ?_
    rw [List.mem_singleton.mp hmem]
    exact ⟨hb.inVol, hb.notBook⟩
  · rw [h.no]
    exact O.homed.of_sameFormat hformat
  · rw [h.no, hformat.home]
    intro hlt
    rw [hformat.capacity] at hlt
    exact hkeep _ (fun heq => hb.notHome heq.symm) hlt (O.homeTaken hlt)
  · intro z hz hz0
    have heq : f'.at z = if z = y then 0 else f.at z := hlink z hz
    rw [heq] at hz0 ⊢
    by_cases hzy : z = y
    · rw [if_pos hzy] at hz0
      exact absurd rfl hz0
    rw [if_neg hzy] at hz0 ⊢
    have hbz := O.block z hz hz0
    refine ⟨(hformat.inVol _).mpr hbz.inVol, ?_, ?_, ?_, ?_⟩
    · rw [hformat.bookBlocks]
      exact hbz.notBook
    · rw [h.no, hformat.home]
      exact hbz.notHome
    · rw [hformat.capacity]
      exact hbz.lt
    · exact hkeep _ (fun heq => hzy (O.separate z y hz hy hz0 heq)) hbz.lt hbz.used
  · exact O.separate.updated hlink fun hne => absurd rfl hne

/-- What `free_inode_block` does when it looks at position `y`. -/
inductive Frees (p : Nat) (f : File) : Pos → Option (Status × File) → Prop
  | root {r : Nat} (hr : r < 15) : Frees p f ⟨r, []⟩ (some (.success, freeRoot f r))
  | entry {x : Pos} {i : Nat} (hx : (tree p).Table x) (hlive : f.at x ≠ 0) (hi : i < p) (buf : Mem) :
      Frees p f (x.child i) (freeEntry f (f.at x) (readBlock f.fs (f.at x) buf).2 i)

/-- Where the place is in use, `free_inode_block` frees a root, or an entry of a
table in use. -/
theorem freeInodeBlock_eq (O : Owned p f) (ht : target p off = some y) (h0 : f.at y ≠ 0) :
    Frees p f y (freeInodeBlock f off) := by
  have hroot : ∀ r, iBlock f.ino r = f.at ⟨r, []⟩ := fun r => rfl
  have habove : ∀ {x : Pos} {i : Nat}, f.at (x.child i) ≠ 0 → f.at x ≠ 0 := node_ne_zero_of_child
  have hread := fun {x} (hx : (tree p).Table x) (h0 : f.at x ≠ 0) {i} (hi : i < p) buf =>
    O.tables.entry_read hx h0 hi buf
  simp only [target] at ht
  simp only [freeInodeBlock, O.ptrs, hroot]
  rcases ite_eq_iff.mp ht with ⟨h, ht⟩ | ⟨h, ht⟩
  · obtain rfl := Option.some.inj ht
    rw [if_pos h]
    exact .root (by omega)
  rw [if_neg h]
  rcases ite_eq_iff.mp ht with ⟨h', ht⟩ | ⟨h', ht⟩
  · rw [if_pos h']
    rcases ite_eq_iff.mp ht with ⟨ha, ht⟩ | ⟨ha, ht⟩
    · obtain rfl := Option.some.inj ht
      rw [if_neg h0, if_pos ha]
      exact .root (by decide)
    rcases ite_eq_iff.mp ht with ⟨hi, ht⟩ | ⟨-, ht⟩
    · obtain rfl := Option.some.inj ht
      have h1 : f.at ⟨12, []⟩ ≠ 0 := @habove ⟨12, []⟩ _ h0
      rw [if_neg h1, if_neg ha]
      exact .entry (table_top (by decide) (by decide)) h1 hi _
    · exact nomatch ht
  rw [if_neg h']
  rcases ite_eq_iff.mp ht with ⟨h'', ht⟩ | ⟨h'', ht⟩
  · rw [if_pos h'']
    rcases ite_eq_iff.mp ht with ⟨ha, ht⟩ | ⟨ha, ht⟩
    · obtain rfl := Option.some.inj ht
      rw [if_neg h0, if_pos ha]
      exact .root (by decide)
    generalize (off - 12 - p - 1 - 1) / (p * p + p) = b at *
    generalize (off - 12 - p - 1 - 1) % (p * p + p) = a at *
    rcases ite_eq_iff.mp ht with ⟨hb, ht⟩ | ⟨-, ht⟩
    · have htop : (tree p).Table ⟨13, []⟩ := table_top (by decide) (by decide)
      rcases ite_eq_iff.mp ht with ⟨ha', ht⟩ | ⟨ha', ht⟩
      · obtain rfl := Option.some.inj ht
        have h1 : f.at ⟨13, []⟩ ≠ 0 := @habove ⟨13, []⟩ _ h0
        rw [if_neg h1, if_neg ha, if_pos ha']
        exact .entry htop h1 hb _
      rcases ite_eq_iff.mp ht with ⟨hi, ht⟩ | ⟨-, ht⟩
      · obtain rfl := Option.some.inj ht
        have h2 : f.at ⟨13, [b]⟩ ≠ 0 := @habove ⟨13, [b]⟩ _ h0
        have h1 : f.at ⟨13, []⟩ ≠ 0 := @habove ⟨13, []⟩ _ h2
        have hr : _ = f.at ⟨13, [b]⟩ := hread htop h1 hb f.fs.fresh
        rw [if_neg h1, if_neg ha, if_neg ha', if_pos hb, hr, if_neg h2]
        exact .entry (table_double hb) h2 hi _
      · exact nomatch ht
    · exact nomatch ht
  rw [if_neg h'']
  rcases ite_eq_iff.mp ht with ⟨ha, ht⟩ | ⟨ha, ht⟩
  · obtain rfl := Option.some.inj ht
    rw [if_neg h0, if_pos ha]
    exact .root (by decide)
  generalize (off - 12 - p - p * p - 1 - 1 - p - 1) / (p * p * p + p * p + p) = b at *
  generalize (off - 12 - p - p * p - 1 - 1 - p - 1) % (p * p * p + p * p + p) = a at *
  rcases ite_eq_iff.mp ht with ⟨hb, ht⟩ | ⟨-, ht⟩
  · have htop : (tree p).Table ⟨14, []⟩ := table_top (by decide) (by decide)
    rcases ite_eq_iff.mp ht with ⟨ha', ht⟩ | ⟨ha', ht⟩
    · obtain rfl := Option.some.inj ht
      have h1 : f.at ⟨14, []⟩ ≠ 0 := @habove ⟨14, []⟩ _ h0
      rw [if_neg h1, if_neg ha, if_pos ha']
      exact .entry htop h1 hb _
    generalize (a - 1) / (p * p + p) = c at *
    generalize (a - 1) % (p * p + p) = a' at *
    rcases ite_eq_iff.mp ht with ⟨hc, ht⟩ | ⟨-, ht⟩
    · rcases ite_eq_iff.mp ht with ⟨ha'', ht⟩ | ⟨ha'', ht⟩
      · obtain rfl := Option.some.inj ht
        have h2 : f.at ⟨14, [b]⟩ ≠ 0 := @habove ⟨14, [b]⟩ _ h0
        have h1 : f.at ⟨14, []⟩ ≠ 0 := @habove ⟨14, []⟩ _ h2
        have hr : _ = f.at ⟨14, [b]⟩ := hread htop h1 hb f.fs.fresh
        rw [if_neg h1, if_neg ha, if_neg ha', if_pos hb, hr, if_neg h2, if_pos ha'']
        exact .entry (table_triple hb) h2 hc _
      rcases ite_eq_iff.mp ht with ⟨hi, ht⟩ | ⟨-, ht⟩
      · obtain rfl := Option.some.inj ht
        have h3 : f.at ⟨14, [b, c]⟩ ≠ 0 := @habove ⟨14, [b, c]⟩ _ h0
        have h2 : f.at ⟨14, [b]⟩ ≠ 0 := @habove ⟨14, [b]⟩ _ h3
        have h1 : f.at ⟨14, []⟩ ≠ 0 := @habove ⟨14, []⟩ _ h2
        have hr : _ = f.at ⟨14, [b]⟩ := hread htop h1 hb f.fs.fresh
        have hr' : ∀ buf, _ = f.at ⟨14, [b, c]⟩ := hread (table_triple hb) h2 hc
        rw [if_neg h1, if_neg ha, if_neg ha', if_pos hb, hr, if_neg h2, if_neg ha'', if_pos hc, hr',
          if_neg h3]
        exact .entry (table_triple₂ hb hc) h3 hi _
      · exact nomatch ht
    · exact nomatch ht
  · exact nomatch ht

/-- Where the place is in use, `free_inode_block` gives its block back. -/
theorem freeInodeBlock_unlinks (O : Owned p f) (ht : target p off = some y) (h0 : f.at y ≠ 0) :
    ∃ f', freeInodeBlock f off = some (.success, f') ∧ Unlinked p f y f' := by
  have h := freeInodeBlock_eq O ht h0
  generalize freeInodeBlock f off = res at h
  cases h with
  | root hr => exact ⟨_, rfl, freeRoot_unlinked O hr h0⟩
  | entry hx hlive hi buf => exact freeEntry_unlinked O hx hlive hi h0 buf

end Unlink

end Ext2

end Shitos
