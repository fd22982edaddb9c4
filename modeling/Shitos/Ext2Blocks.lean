import Mathlib.Data.UInt
import Shitos.Ext2Disk

/-!
# Counting blocks

`get_block_count` and `get_content_blocks`. The first counts the sectors of
an inode with a given number of content blocks, the second goes back. Both
compute in 32 bits; `tables p n` is the number of indirect blocks without
wrapping, from which everything else follows (`getBlockCount_eq`,
`getContentBlocks_eq`). `newTables p n` is the number of indirect blocks that
the content block with index `n` is the first to need.
-/

namespace Shitos

namespace Ext2

/-- `a + b` on 32-bit words. -/
def add32 (a b : Nat) : Nat := (a + b) % 2 ^ 32

/-- `a * b` on 32-bit words. -/
def mul32 (a b : Nat) : Nat := a * b % 2 ^ 32

theorem add32_of_lt {a b : Nat} (h : a + b < 2 ^ 32) : add32 a b = a + b := Nat.mod_eq_of_lt h

theorem mul32_of_lt {a b : Nat} (h : a * b < 2 ^ 32) : mul32 a b = a * b := Nat.mod_eq_of_lt h

/-- Pointers per block. -/
def ptrs (fs : Fs) : Nat := fs.blockSz / 4

/-- `get_block_count`. -/
def getBlockCount (fs : Fs) (blocks : Nat) : Nat :=
  let p := ptrs fs
  let indBlocks :=
    if blocks ≤ 12 then 0
    else if blocks ≤ 12 + p then 1
    else if blocks ≤ 12 + p + p * p then
      -- amount of blocks stored as doubly indirect
      let a := blocks - 12 - p
      -- max sind + dind + amount of sind in dind
      1 + 1 + sub32 (add32 a p) 1 / p
    else
      -- amount of blocks stored as triply indirect
      let a := blocks - 12 - p - p * p
      -- amount of dind blocks in the tind
      let b := sub32 (add32 a (p * p)) 1 / (p * p)
      -- amount of blocks stored in the last dind
      let c := 1 + (a - 1) % (p * p)
      1 + 1 + p + 1 + b + mul32 (sub32 b 1) p + sub32 (add32 c p) 1 / p
  mul32 (add32 blocks indBlocks) (fs.blockSz / 512)

/-- `get_content_blocks`. -/
def getContentBlocks (fs : Fs) (sectors : Nat) : Nat :=
  let blocks := sectors / (fs.blockSz / 512)
  let p := ptrs fs
  let indBlocks :=
    if blocks ≤ 12 then 0
    else if blocks ≤ 12 + p + 1 then 1
    else if blocks ≤ 12 + p + p * p + 1 + 1 + p then
      -- "index" in the blocks stored as doubly indirect
      let a := sub32 blocks (12 + p + 1 + 1 + 1)
      1 + 1 + 1 + a / (p + 1)
    else
      -- "index" in the blocks stored as triply indirect
      let a := sub32 blocks (12 + p + p * p + 1 + 1 + p + 1 + 1)
      let ind := 1 + 1 + p + 1 + 1 + 1
      -- one dind includes p*p blocks, p sind blocks and itself
      let ind := add32 ind (mul32 (p + 1) (a / (p * p + p + 1)))
      let a := sub32 (a % (p * p + p + 1)) 1
      add32 ind (a / (p + 1))
  sub32 blocks indBlocks

/-! ## The exact count -/

/-- The indirect blocks of an inode with `n` content blocks. -/
def tables (p n : Nat) : Nat :=
  if n ≤ 12 then 0
  else if n ≤ 12 + p then 1
  else if n ≤ 12 + p + p * p then 3 + (n - 12 - p - 1) / p
  else 5 + p + (n - 12 - p - p * p - 1) / (p * p) + (n - 12 - p - p * p - 1) / p

/-- The indirect blocks that content block `n` is the first to need. -/
def newTables (p n : Nat) : Nat :=
  if n < 12 then 0
  else if n < 12 + p then if n = 12 then 1 else 0
  else if n < 12 + p + p * p then
    (if n - 12 - p = 0 then 1 else 0) + if (n - 12 - p) % p = 0 then 1 else 0
  else
    (if n - 12 - p - p * p = 0 then 1 else 0)
      + (if (n - 12 - p - p * p) % (p * p) = 0 then 1 else 0)
      + if (n - 12 - p - p * p) % p = 0 then 1 else 0

section Tables

variable {p n : Nat}

theorem tables_direct (h : n ≤ 12) : tables p n = 0 := if_pos h

theorem tables_single (h : 12 < n) (h' : n ≤ 12 + p) : tables p n = 1 := by
  rw [tables, if_neg (by omega), if_pos h']

theorem tables_double {a : Nat} (h : a < p * p) : tables p (12 + p + (a + 1)) = 3 + a / p := by
  rw [tables, if_neg (by omega), if_neg (by omega), if_pos (by omega)]
  congr 2
  omega

theorem tables_triple (a : Nat) :
    tables p (12 + p + p * p + (a + 1)) = 5 + p + a / (p * p) + a / p := by
  have ha : 12 + p + p * p + (a + 1) - 12 - p - p * p - 1 = a := by omega
  rw [tables, if_neg (by omega), if_neg (by omega), if_neg (by omega), ha]

/-- The quotient by `p` goes through the one by `p * p`. -/
theorem div_split (hp : 0 < p) (a : Nat) : a / p = a / (p * p) * p + a % (p * p) / p := by
  have hdiv := Nat.div_add_mod a (p * p)
  calc a / p = (p * (a / (p * p) * p) + a % (p * p)) / p := by
        congr 1
        rw [← Nat.mul_assoc, Nat.mul_right_comm, hdiv]
    _ = a / (p * p) * p + a % (p * p) / p := Nat.mul_add_div hp _ _

theorem succ_div_eq (a : Nat) :
    (a + 1) / p = a / p + if (a + 1) % p = 0 then 1 else 0 := by
  rw [Nat.succ_div]
  exact congrArg _ (if_congr (Nat.dvd_iff_mod_eq_zero) rfl rfl)

/-- One more content block needs its new tables. -/
theorem tables_succ (hp : 0 < p) (n : Nat) : tables p (n + 1) = tables p n + newTables p n := by
  rcases Nat.lt_or_ge n 12 with h | h
  · rw [tables_direct (by omega), tables_direct (by omega), newTables, if_pos h]
  rcases Nat.lt_or_ge n (12 + p) with h' | h'
  · rw [tables_single (by omega) (by omega), newTables, if_neg (by omega), if_pos h']
    by_cases hn : n = 12
    · rw [if_pos hn, tables_direct (by omega)]
    · rw [if_neg hn, tables_single (by omega) (by omega)]
  rcases Nat.lt_or_ge n (12 + p + p * p) with h'' | h''
  · obtain ⟨a, rfl⟩ := Nat.exists_eq_add_of_le h'
    have hsub : 12 + p + a - 12 - p = a := by omega
    rw [newTables, if_neg (by omega), if_neg (by omega), if_pos h'', hsub, Nat.add_assoc _ a 1,
      tables_double (by omega)]
    cases a with
    | zero =>
        rw [Nat.add_zero, tables_single (by omega) (by omega), if_pos rfl, Nat.zero_mod, if_pos rfl,
          Nat.zero_div]
    | succ a =>
        rw [tables_double (by omega), if_neg (Nat.succ_ne_zero a), succ_div_eq]
        omega
  · obtain ⟨a, rfl⟩ := Nat.exists_eq_add_of_le h''
    have hsub : 12 + p + p * p + a - 12 - p - p * p = a := by omega
    rw [newTables, if_neg (by omega), if_neg (by omega), if_neg (by omega), hsub,
      Nat.add_assoc _ a 1, tables_triple]
    cases a with
    | zero =>
        have hpp : 0 < p * p := Nat.mul_pos hp hp
        obtain ⟨b, hb⟩ := Nat.exists_eq_succ_of_ne_zero (Nat.ne_of_gt hpp)
        have hlast : b / p = p - 1 := by
          refine Nat.div_eq_of_lt_le ?_ ?_
          · rw [Nat.sub_mul, Nat.one_mul]
            omega
          · rw [Nat.sub_add_cancel hp]
            omega
        have hprev : tables p (12 + p + (b + 1)) = 3 + (p - 1) := by
          rw [tables_double (by omega), hlast]
        rw [Nat.add_zero, hb, hprev, if_pos rfl, Nat.zero_mod, Nat.zero_mod, if_pos rfl, Nat.zero_div,
          Nat.zero_div]
        omega
    | succ a =>
        rw [tables_triple, if_neg (Nat.succ_ne_zero a), succ_div_eq, succ_div_eq]
        omega

theorem tables_mono (hp : 0 < p) {m : Nat} (h : m ≤ n) : tables p m ≤ tables p n := by
  induction h with
  | refl => exact Nat.le_refl _
  | step _ ih =>
      rw [Nat.succ_eq_add_one, tables_succ hp]
      exact ih.trans (Nat.le_add_right _ _)

end Tables

/-! ## The two functions are exact -/

/-- A block size of `1024 * 2^k`. -/
def Sized (fs : Fs) : Prop := ∃ k ≤ 6, fs.blockSz = 1024 * 2 ^ k

theorem Sized.bounds {fs : Fs} (h : Sized fs) : 1024 ≤ fs.blockSz ∧ fs.blockSz ≤ 2 ^ 16 := by
  obtain ⟨k, hk, hsz⟩ := h
  have hpow : 2 ^ k ≤ 2 ^ 6 := Nat.pow_le_pow_right (by decide) hk
  have hpos : 0 < 2 ^ k := Nat.pow_pos (by decide)
  omega

/-- What the block size says about pointers and sectors per block. -/
structure Geometry (p spb : Nat) : Prop where
  ge : 256 ≤ p
  le : p ≤ 2 ^ 14
  sq : p * p ≤ 2 ^ 28
  spb : 2 ≤ spb

theorem Sized.geometry {fs : Fs} (h : Sized fs) : Geometry (ptrs fs) (fs.blockSz / 512) := by
  obtain ⟨k, hk, hsz⟩ := h
  have hpow : 2 ^ k ≤ 2 ^ 6 := Nat.pow_le_pow_right (by decide) hk
  have hpos : 0 < 2 ^ k := Nat.pow_pos (by decide)
  have hp : ptrs fs = 256 * 2 ^ k := by
    rw [ptrs, hsz]
    omega
  have hle : ptrs fs ≤ 2 ^ 14 := by omega
  refine ⟨by omega, hle, (Nat.mul_le_mul hle hle).trans (by decide), ?_⟩
  rw [hsz]
  omega

section Exact

variable {fs : Fs} {n : Nat}

/-- Without wrapping, `get_block_count` is content plus tables, in sectors. -/
theorem getBlockCount_eq (h : Sized fs)
    (hfits : (n + tables (ptrs fs) n) * (fs.blockSz / 512) < 2 ^ 32) :
    getBlockCount fs n = (n + tables (ptrs fs) n) * (fs.blockSz / 512) := by
  obtain ⟨hge, hle, hsq, hspb⟩ := h.geometry
  simp only [getBlockCount]
  generalize ptrs fs = p at *
  generalize fs.blockSz / 512 = spb at *
  have hhalf : n + tables p n < 2 ^ 31 := by
    have hmul := Nat.mul_le_mul_left (n + tables p n) hspb
    omega
  have hind : ∀ ind, ind = tables p n →
      mul32 (add32 n ind) spb = (n + tables p n) * spb := fun ind hind => by
    rw [hind, add32_of_lt (by omega), mul32_of_lt hfits]
  refine hind _ ?_
  rcases Nat.lt_or_ge 12 n with h12 | h12
  · rw [if_neg (by omega)]
    rcases Nat.lt_or_ge (12 + p) n with hs | hs
    · rw [if_neg (by omega)]
      rcases Nat.lt_or_ge (12 + p + p * p) n with hd | hd
      · obtain ⟨a, rfl⟩ := Nat.exists_eq_add_of_lt hd
        have ha : 12 + p + p * p + a + 1 - 12 - p - p * p = a + 1 := by omega
        have hpp : 0 < p * p := Nat.mul_pos (by omega) (by omega)
        have hb : sub32 (add32 (a + 1) (p * p)) 1 / (p * p) = a / (p * p) + 1 := by
          rw [add32_of_lt (by omega), sub32_of_le (by omega),
            show a + 1 + p * p - 1 = a + p * p by omega, Nat.add_div_right _ hpp]
        have hc : sub32 (add32 (1 + (a + 1 - 1) % (p * p)) p) 1 / p = a % (p * p) / p + 1 := by
          have hmod := Nat.mod_lt a hpp
          rw [Nat.add_sub_cancel, add32_of_lt (by omega), sub32_of_le (by omega),
            show 1 + a % (p * p) + p - 1 = a % (p * p) + p by omega,
            Nat.add_div_right _ (by omega)]
        have hsplit := div_split (show 0 < p by omega) a
        have hquot : a / p ≤ a := Nat.div_le_self a p
        rw [if_neg (by omega), ha, hb, hc, Nat.add_assoc _ a 1, tables_triple]
        generalize a / (p * p) = b at *
        generalize a % (p * p) / p = c at *
        have hmul : mul32 (sub32 (b + 1) 1) p = b * p := by
          rw [sub32_of_le (by omega), Nat.add_sub_cancel, mul32_of_lt (by omega)]
        rw [hmul, hsplit]
        omega
      · obtain ⟨a, rfl⟩ := Nat.exists_eq_add_of_lt hs
        have ha : 12 + p + a + 1 - 12 - p = a + 1 := by omega
        rw [if_pos hd, ha, add32_of_lt (by omega), sub32_of_le (by omega),
          show a + 1 + p - 1 = a + p by omega, Nat.add_div_right _ (by omega), Nat.add_assoc _ a 1,
          tables_double (by omega)]
        omega
    · rw [if_pos hs, tables_single h12 hs]
  · rw [if_pos h12, tables_direct h12]

/-- `get_content_blocks` takes the tables off again. -/
theorem getContentBlocks_eq (h : Sized fs) (hhalf : n + tables (ptrs fs) n < 2 ^ 31) :
    getContentBlocks fs ((n + tables (ptrs fs) n) * (fs.blockSz / 512)) = n := by
  obtain ⟨hge, hle, hsq, hspb⟩ := h.geometry
  simp only [getContentBlocks]
  generalize ptrs fs = p at *
  generalize fs.blockSz / 512 = spb at *
  rw [Nat.mul_div_cancel _ (show 0 < spb by omega)]
  have hind : ∀ ind, ind = tables p n → sub32 (n + tables p n) ind = n := fun ind hind => by
    rw [hind, sub32_of_le (by omega), Nat.add_sub_cancel]
  refine hind _ ?_
  rcases Nat.lt_or_ge 12 n with h12 | h12
  · rcases Nat.lt_or_ge (12 + p) n with hs | hs
    · rcases Nat.lt_or_ge (12 + p + p * p) n with hd | hd
      · obtain ⟨a, rfl⟩ := Nat.exists_eq_add_of_lt hd
        rw [Nat.add_assoc _ a 1] at hhalf ⊢
        rw [tables_triple] at hhalf ⊢
        have hpp : 0 < p * p := Nat.mul_pos (by omega) (by omega)
        have hsplit := div_split (show 0 < p by omega) a
        have hmod := Nat.div_add_mod a (p * p)
        have hlt := Nat.mod_lt a hpp
        have hdm := Nat.div_add_mod (a % (p * p)) p
        have hltm := Nat.mod_lt (a % (p * p)) (show 0 < p by omega)
        generalize hb : a / (p * p) = b at *
        generalize hc : a % (p * p) = c at *
        have hcp : c / p < p := Nat.div_lt_of_lt_mul hlt
        generalize hs' : c / p = s at *
        generalize hr : c % p = r at *
        -- the position among the triply indirect blocks, tables included
        have hsub : sub32 (12 + p + p * p + (a + 1) + (5 + p + b + a / p))
            (12 + p + p * p + 1 + 1 + p + 1 + 1) = b * (p * p + p + 1) + (s * (p + 1) + r + 2) := by
          rw [sub32_of_le (by omega)]
          have h1 : b * (p * p + p + 1) = p * p * b + b * p + b := by ring
          have h2 : s * (p + 1) = p * s + s := by ring
          omega
        have hin : s * (p + 1) + r + 2 < p * p + p + 1 := by
          have h1 : (s + 1) * (p + 1) ≤ p * (p + 1) := Nat.mul_le_mul_right _ hcp
          have h2 : (s + 1) * (p + 1) = s * (p + 1) + p + 1 := by ring
          have h3 : p * (p + 1) = p * p + p := by ring
          omega
        have hquot : (s * (p + 1) + r + 2 - 1) / (p + 1) = s := by
          rw [show s * (p + 1) + r + 2 - 1 = s * (p + 1) + (r + 1) by omega]
          exact div_block (by omega)
        have hadd : add32 (add32 (1 + 1 + p + 1 + 1 + 1) (mul32 (p + 1) b)) s
            = 5 + p + b + a / p := by
          have hbp : (p + 1) * b = b * p + b := by ring
          have h1 : add32 (1 + 1 + p + 1 + 1 + 1) (b * p + b)
              = 1 + 1 + p + 1 + 1 + 1 + (b * p + b) := add32_of_lt (by omega)
          have hmul : mul32 (p + 1) b = b * p + b :=
            (mul32_of_lt (by rw [hbp]; omega)).trans hbp
          rw [hmul, h1, add32_of_lt (by omega)]
          omega
        rw [if_neg (by omega), if_neg (by omega), if_neg (by omega), hsub, div_block hin,
          mod_block hin, sub32_of_le (by omega), hquot, hadd]
      · obtain ⟨a, rfl⟩ := Nat.exists_eq_add_of_lt hs
        rw [Nat.add_assoc _ a 1] at hhalf hd ⊢
        rw [tables_double (by omega)] at hhalf ⊢
        have hdm := Nat.div_add_mod a p
        have hlt := Nat.mod_lt a (show 0 < p by omega)
        have hap : a / p < p := Nat.div_lt_of_lt_mul (by omega)
        generalize hs' : a / p = s at *
        generalize hr : a % p = r at *
        have hsub : sub32 (12 + p + (a + 1) + (3 + s)) (12 + p + 1 + 1 + 1)
            = s * (p + 1) + (r + 1) := by
          rw [sub32_of_le (by omega)]
          have h1 : s * (p + 1) = p * s + s := by ring
          omega
        rw [if_neg (by omega), if_neg (by omega), if_pos (by omega), hsub, div_block (by omega)]
    · rw [tables_single h12 hs, if_neg (by omega), if_pos (by omega)]
  · rw [tables_direct h12, if_pos (by omega)]

/-- The sector count of a count of content blocks that fits 32 bits. -/
theorem sectors_half (h : Sized fs)
    (hfits : (n + tables (ptrs fs) n) * (fs.blockSz / 512) < 2 ^ 32) :
    n + tables (ptrs fs) n < 2 ^ 31 := by
  have hspb := h.geometry.spb
  have hmul := Nat.mul_le_mul_left (n + tables (ptrs fs) n) hspb
  omega

/-- The sectors of `n` content blocks and their tables. -/
def sectors (fs : Fs) (n : Nat) : Nat := (n + tables (ptrs fs) n) * (fs.blockSz / 512)

theorem sectors_lt (h : Sized fs) {m : Nat} (hmn : m < n) : sectors fs m < sectors fs n := by
  obtain ⟨hge, -, -, hspb⟩ := h.geometry
  have hmono := @tables_mono (ptrs fs) n (by omega) m (Nat.le_of_lt hmn)
  exact Nat.mul_lt_mul_of_pos_right (by omega) (by omega)

/-- As long as the sectors fit 32 bits, `get_content_blocks` undoes
`get_block_count`, which is strictly increasing. -/
theorem content_of_count (h : Sized fs) (hfits : sectors fs n < 2 ^ 32) :
    getContentBlocks fs (getBlockCount fs n) = n
      ∧ ∀ m < n, getBlockCount fs m < getBlockCount fs n := by
  rw [getBlockCount_eq h hfits]
  refine ⟨getContentBlocks_eq h (sectors_half h hfits), fun m hm => ?_⟩
  have hlt := sectors_lt h hm
  rw [getBlockCount_eq h (hlt.trans hfits)]
  exact hlt

end Exact

/-- Doubly indirect blocks of 1024 bytes. -/
theorem content_of_count_double :
    getContentBlocks ⟨0, 0, 0, 0, 1024, 0, 0, 128, 0, 0, true, 0, 0⟩
      (getBlockCount ⟨0, 0, 0, 0, 1024, 0, 0, 128, 0, 0, true, 0, 0⟩ 600) = 600 :=
  (content_of_count ⟨0, by decide, rfl⟩ (by decide)).1

end Ext2

end Shitos
