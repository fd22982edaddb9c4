import Shitos.Ext2Blocks

/-!
# Sector counts that no file of the driver has

`get_content_blocks` takes the tables off a count of blocks. The counts that
`get_block_count` produces all come back (`content_of_count`), but `i_blocks`
is read from the disk and can be anything. `getContentBlocks?` is the same
function stopped at the first subtraction that underflows, and
`content_bounded_iff` names the counts where that happens: those that end
right behind the block of a new doubly or triply indirect table, before its
first data block. A file without holes has no such count; a sparse one may.
-/

namespace Shitos

namespace Ext2

/-- `a - b`, which underflows unless `b ≤ a`. -/
def checkedSub (a b : Nat) : Option Nat := if b ≤ a then some (a - b) else none

@[simp] theorem checkedSub_isSome {a b : Nat} : (checkedSub a b).isSome = true ↔ b ≤ a := by
  unfold checkedSub
  split <;> simp_all

theorem checkedSub_of_le {a b : Nat} (h : b ≤ a) : checkedSub a b = some (a - b) := if_pos h

theorem checkedSub_of_lt {a b : Nat} (h : a < b) : checkedSub a b = none :=
  if_neg (Nat.not_le_of_lt h)

/-- A subtraction that does not underflow does not wrap. -/
theorem sub32_of_checkedSub {a b c : Nat} (h : checkedSub a b = some c) : sub32 a b = c := by
  rcases Nat.lt_or_ge a b with hlt | hle
  · rw [checkedSub_of_lt hlt] at h
    cases h
  · rw [checkedSub_of_le hle] at h
    rw [sub32_of_le hle]
    exact Option.some.inj h

/-- The tables `get_content_blocks` takes off `blocks`, stopped at the first
subtraction that underflows. -/
def indBlocks? (p blocks : Nat) : Option Nat :=
  if blocks ≤ 12 then some 0
  else if blocks ≤ 12 + p + 1 then some 1
  else if blocks ≤ 12 + p + p * p + 1 + 1 + p then do
    let a ← checkedSub blocks (12 + p + 1 + 1 + 1)
    some (1 + 1 + 1 + a / (p + 1))
  else do
    let a ← checkedSub blocks (12 + p + p * p + 1 + 1 + p + 1 + 1)
    let ind := 1 + 1 + p + 1 + 1 + 1
    let ind := add32 ind (mul32 (p + 1) (a / (p * p + p + 1)))
    -- a--
    let a ← checkedSub (a % (p * p + p + 1)) 1
    some (add32 ind (a / (p + 1)))

/-- `get_content_blocks`, stopped at the first subtraction that underflows. -/
def getContentBlocks? (fs : Fs) (sectors : Nat) : Option Nat := do
  let blocks := sectors / (fs.blockSz / 512)
  let indBlocks ← indBlocks? (ptrs fs) blocks
  checkedSub blocks indBlocks

/-- Where nothing underflows the two are the same. -/
theorem getContentBlocks_of_some {fs : Fs} {s n : Nat} (h : getContentBlocks? fs s = some n) :
    getContentBlocks fs s = n := by
  obtain ⟨ind, hind, hsub⟩ := Option.bind_eq_some_iff.mp h
  rw [← sub32_of_checkedSub hsub]
  simp only [getContentBlocks]
  congr 1
  unfold indBlocks? at hind
  split at hind
  · rename_i h12
    rw [if_pos h12]
    exact Option.some.inj hind
  rename_i h12
  rw [if_neg h12]
  split at hind
  · rename_i hs
    rw [if_pos hs]
    exact Option.some.inj hind
  rename_i hs
  rw [if_neg hs]
  split at hind
  · rename_i hd
    obtain ⟨a, ha, hind⟩ := Option.bind_eq_some_iff.mp hind
    rw [if_pos hd, sub32_of_checkedSub ha]
    exact Option.some.inj hind
  · rename_i hd
    obtain ⟨a, ha, hind⟩ := Option.bind_eq_some_iff.mp hind
    obtain ⟨r, hr, hind⟩ := Option.bind_eq_some_iff.mp hind
    rw [if_neg hd, sub32_of_checkedSub ha, sub32_of_checkedSub hr]
    exact Option.some.inj hind

/-- Counts that end right behind a new table: the doubly indirect one, the
triply indirect one, or a doubly indirect one under the triply indirect one. -/
def BehindTable (p blocks : Nat) : Prop :=
  blocks = 12 + (p + 1) + 1
    ∨ blocks = 12 + (p + 1) + (p * p + p + 1) + 1
    ∨ ∃ k, blocks = 12 + (p + 1) + (p * p + p + 1) + 1 + 1 + k * (p * p + p + 1)

section Bounds

variable {p blocks : Nat}

/-- Behind a new table a subtraction underflows. -/
theorem indBlocks?_behind (hp : 0 < p) (h : BehindTable p blocks) : indBlocks? p blocks = none := by
  have hpp : p ≤ p * p := Nat.le_mul_of_pos_left p hp
  unfold indBlocks?
  rcases h with rfl | rfl | ⟨k, rfl⟩
  · rw [if_neg (by omega), if_neg (by omega), if_pos (by omega), checkedSub_of_lt (by omega)]
    rfl
  · rw [if_neg (by omega), if_neg (by omega), if_neg (by omega), checkedSub_of_lt (by omega)]
    rfl
  · have ha : 12 + (p + 1) + (p * p + p + 1) + 1 + 1 + k * (p * p + p + 1)
        - (12 + p + p * p + 1 + 1 + p + 1 + 1) = k * (p * p + p + 1) := by omega
    rw [if_neg (by omega), if_neg (by omega), if_neg (by omega), checkedSub_of_le (by omega), ha,
      Option.bind_eq_bind, Option.bind_some, Nat.mul_mod_left]
    rfl

/-- Everywhere else nothing underflows and the tables are no more than the
blocks. -/
theorem indBlocks?_of_not_behind (hp : 0 < p) (hlt : blocks < 2 ^ 31)
    (h : ¬BehindTable p blocks) : ∃ ind, indBlocks? p blocks = some ind ∧ ind ≤ blocks := by
  unfold indBlocks?
  by_cases h12 : blocks ≤ 12
  · exact ⟨0, by rw [if_pos h12], Nat.zero_le _⟩
  rw [if_neg h12]
  by_cases hs : blocks ≤ 12 + p + 1
  · exact ⟨1, by rw [if_pos hs], by omega⟩
  rw [if_neg hs]
  by_cases hd : blocks ≤ 12 + p + p * p + 1 + 1 + p
  · have hfirst : blocks ≠ 12 + (p + 1) + 1 := fun heq => h (Or.inl heq)
    have hquot := Nat.div_le_self (blocks - (12 + p + 1 + 1 + 1)) (p + 1)
    refine ⟨_, by rw [if_pos hd, checkedSub_of_le (by omega)]; rfl, ?_⟩
    omega
  rw [if_neg hd]
  have hfirst : blocks ≠ 12 + (p + 1) + (p * p + p + 1) + 1 := fun heq => h (Or.inr (Or.inl heq))
  obtain ⟨a, rfl⟩ := Nat.exists_eq_add_of_le
    (show 12 + p + p * p + 1 + 1 + p + 1 + 1 ≤ blocks by omega)
  have hsub : 12 + p + p * p + 1 + 1 + p + 1 + 1 + a - (12 + p + p * p + 1 + 1 + p + 1 + 1) = a := by
    omega
  -- `q` full doubly indirect tables, and what is left of the last one
  have hdm := Nat.div_add_mod a (p * p + p + 1)
  generalize hq : a / (p * p + p + 1) = q at *
  generalize hr : a % (p * p + p + 1) = r at *
  have hleft : 1 ≤ r := by
    rcases Nat.eq_zero_or_pos r with hr0 | hpos
    · refine absurd (Or.inr (Or.inr ⟨q, ?_⟩)) h
      rw [Nat.mul_comm q]
      omega
    · exact hpos
  have hfull : (p + 1) * q ≤ (p * p + p + 1) * q := Nat.mul_le_mul_right q (by
    have := Nat.le_mul_of_pos_left p hp
    omega)
  have hquot := Nat.div_le_self (r - 1) (p + 1)
  have hmul : mul32 (p + 1) q = (p + 1) * q := mul32_of_lt (by omega)
  have hadd : add32 (1 + 1 + p + 1 + 1 + 1) ((p + 1) * q) = 1 + 1 + p + 1 + 1 + 1 + (p + 1) * q :=
    add32_of_lt (by omega)
  have hall : add32 (1 + 1 + p + 1 + 1 + 1 + (p + 1) * q) ((r - 1) / (p + 1))
      = 1 + 1 + p + 1 + 1 + 1 + (p + 1) * q + (r - 1) / (p + 1) := add32_of_lt (by omega)
  refine ⟨1 + 1 + p + 1 + 1 + 1 + (p + 1) * q + (r - 1) / (p + 1), ?_, by omega⟩
  simp only [checkedSub_of_le (show 12 + p + p * p + 1 + 1 + p + 1 + 1
    ≤ 12 + p + p * p + 1 + 1 + p + 1 + 1 + a by omega), hsub, Option.bind_eq_bind, Option.bind_some,
    hq, hr, checkedSub_of_le hleft, hmul, hadd, hall]

end Bounds

/-- **Content block counts never exceed total blocks**, and no subtraction
underflows, exactly when the count does not end right behind a new table. -/
theorem content_bounded_iff {fs : Fs} (h : Sized fs) {sectors : Nat} (hs : sectors < 2 ^ 32) :
    ((getContentBlocks? fs sectors).isSome
        ∧ getContentBlocks fs sectors ≤ sectors / (fs.blockSz / 512))
      ↔ ¬BehindTable (ptrs fs) (sectors / (fs.blockSz / 512)) := by
  obtain ⟨hge, -, -, hspb⟩ := h.geometry
  have hlt : sectors / (fs.blockSz / 512) < 2 ^ 31 :=
    Nat.lt_of_le_of_lt (Nat.div_le_div_left hspb (by decide)) (by omega)
  constructor
  · rintro ⟨hsome, -⟩ hbehind
    have hnone : getContentBlocks? fs sectors = none := by
      unfold getContentBlocks?
      simp only [indBlocks?_behind (by omega) hbehind]
      rfl
    rw [hnone] at hsome
    cases hsome
  · intro hbehind
    obtain ⟨ind, hind, hle⟩ := indBlocks?_of_not_behind (by omega) hlt hbehind
    have hsome : getContentBlocks? fs sectors = some (sectors / (fs.blockSz / 512) - ind) := by
      unfold getContentBlocks?
      simp only [hind]
      exact checkedSub_of_le hle
    exact ⟨by rw [hsome]; rfl, (getContentBlocks_of_some hsome).le.trans (Nat.sub_le _ _)⟩

/-- A file of 600 blocks is not behind a table. -/
theorem content_bounded_iff_600 :
    (getContentBlocks? ⟨0, 0, 0, 0, 1024, 0, 0, 128, 0, 0, true, 0, 0⟩ 1200).isSome
      ∧ getContentBlocks ⟨0, 0, 0, 0, 1024, 0, 0, 128, 0, 0, true, 0, 0⟩ 1200 ≤ 600 :=
  (content_bounded_iff ⟨0, by decide, rfl⟩ (by decide)).mpr (by
    rintro (h | h | ⟨k, h⟩)
    · exact absurd h (by decide)
    · exact absurd h (by decide)
    · change 600 = 12 + 257 + (256 * 256 + 257) + 2 + k * (256 * 256 + 257) at h
      omega)

/-- A sparse file of ten direct blocks and the first doubly indirect one, in
blocks of 1024 bytes: 270 blocks. The count of content blocks wraps. -/
theorem content_wraps_sparse :
    getContentBlocks? ⟨0, 0, 0, 0, 1024, 0, 0, 128, 0, 0, true, 0, 0⟩ 540 = none
      ∧ 540 / (1024 / 512) < getContentBlocks ⟨0, 0, 0, 0, 1024, 0, 0, 128, 0, 0, true, 0, 0⟩ 540 := by
  decide

end Ext2

end Shitos
