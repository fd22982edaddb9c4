import Shitos.Mem

/-!
# Page tables

`page_t` with its bit fields, the walk of `vmem_get_page_other`, and
`vmem_validate_user_ptr`, which asks of every page of a range whether user
mode may access it. The range's last address is computed in 32 bits: a range
that runs past the end of the address space has no page to check
(`validateUserPtr_wrapped`), unless it wraps around to its own first page
(`validateUserPtr_exact_iff`).
-/

namespace Shitos

namespace Paging

/-- `page_t`, also used for directory entries. -/
structure Page where
  present : Bool
  write : Bool
  user : Bool
  writethrough : Bool
  nocache : Bool
  accessed : Bool
  dirty : Bool
  pat : Bool
  global : Bool
  reserved : Nat
  frame : Nat
deriving DecidableEq, Repr

/-- `raw = 0`. -/
def Page.zero : Page :=
  ⟨false, false, false, false, false, false, false, false, false, 0, 0⟩

/-- `PAGE_SIZE`. -/
def pageSize : Nat := 4096

/-- `(page_addr >> 10) & 0x3ff`. -/
def pdi (vaddr : Nat) : Nat := vaddr / 4096 / 1024 % 1024

/-- `page_addr & 0x3ff`. -/
def pti (vaddr : Nat) : Nat := vaddr / 4096 % 1024

/-- `VMEM_MAP_PAGES_MEMORY`, where the mapping window starts. -/
def mapPagesMemory : Nat := 0xf0000000

/-- What the tables of one address space hold: the directory, the tables by
their frame, and the shared tables of the mapping window. -/
structure Space where
  pd : Nat → Page
  pt : Nat → Nat → Page
  mapPt : Nat → Nat → Page

/-- `vmem_get_page_other(dir, vaddr, 0)`, with NULL as `none`. -/
def Space.lookup (sp : Space) (vaddr : Nat) : Option Page :=
  if vaddr ≥ mapPagesMemory then
    some (sp.mapPt (pdi (vaddr - mapPagesMemory)) (pti (vaddr - mapPagesMemory)))
  else if (sp.pd (pdi vaddr)).present then
    some (sp.pt (sp.pd (pdi vaddr)).frame (pti vaddr))
  else none

/-- The tests made on one page. -/
def pageOk (sp : Space) (write : Bool) (page : Nat) : Bool :=
  match sp.lookup (page * 4096) with
  | none => false
  | some p => p.present && p.user && (p.write || !write)

/-- `vmem_validate_user_ptr`; the flags are `VMEM_PTR_FLAG_NULL` and
`VMEM_PTR_FLAG_WRITE`. -/
def validateUserPtr (sp : Space) (vaddr sz : Nat) (null write : Bool) : Bool :=
  if vaddr = 0 ∧ null = false then false
  else
    let stop := if sz ≠ 0 then (vaddr + sz - 1) % 2 ^ 32 else vaddr
    (List.range' (vaddr / 4096) (stop / 4096 + 1 - vaddr / 4096)).all (pageOk sp write)

/-- The page of address `a` was present, user accessible and writable. -/
def Writable (sp : Space) (a : Nat) : Prop :=
  ∃ p ∈ sp.lookup a, p.present = true ∧ p.user = true ∧ p.write = true

instance (sp : Space) (a : Nat) : Decidable (Writable sp a) :=
  decidable_of_iff ((sp.lookup a).any (fun p => p.present && p.user && p.write) = true) (by
    rw [Option.any_eq_true, Writable]
    simp only [Bool.and_eq_true, and_assoc, Option.mem_def])

/-! ## Addresses of one page -/

theorem lookup_page (sp : Space) (a : Nat) : sp.lookup (a / 4096 * 4096) = sp.lookup a := by
  have hge : a / 4096 * 4096 ≥ mapPagesMemory ↔ a ≥ mapPagesMemory := by
    unfold mapPagesMemory; omega
  have hpdi : pdi (a / 4096 * 4096) = pdi a := by unfold pdi; omega
  have hpti : pti (a / 4096 * 4096) = pti a := by unfold pti; omega
  unfold Space.lookup
  by_cases h : a ≥ mapPagesMemory
  · have hpdi' : pdi (a / 4096 * 4096 - mapPagesMemory) = pdi (a - mapPagesMemory) := by
      unfold pdi mapPagesMemory at *; omega
    have hpti' : pti (a / 4096 * 4096 - mapPagesMemory) = pti (a - mapPagesMemory) := by
      unfold pti mapPagesMemory at *; omega
    rw [if_pos (hge.mpr h), if_pos h, hpdi', hpti']
  · rw [if_neg fun hh => h (hge.mp hh), if_neg h, hpdi, hpti]

theorem pageOk_true {sp : Space} {page : Nat} (h : pageOk sp true page = true) {a : Nat}
    (ha : a / 4096 = page) : Writable sp a := by
  unfold pageOk at h
  rw [← ha, lookup_page] at h
  split at h
  · cases h
  · rename_i p hp
    simp only [Bool.not_true, Bool.or_false, Bool.and_eq_true] at h
    exact ⟨p, hp, h.1.1, h.1.2, h.2⟩

/-- A range that passes the check with the write flag and does not wrap is
writable throughout. -/
theorem validateUserPtr_writable {sp : Space} {base sz : Nat} {null : Bool}
    (h : validateUserPtr sp base sz null true = true) (hwrap : base + sz ≤ 2 ^ 32) {i : Nat}
    (hi : i < sz) : Writable sp (base + i) := by
  unfold validateUserPtr at h
  split at h
  · cases h
  · simp only at h
    rw [if_pos (by omega), Nat.mod_eq_of_lt (by omega), List.all_eq_true] at h
    refine pageOk_true (h ((base + i) / 4096) ?_) rfl
    rw [List.mem_range'_1]
    omega

/-- A range that wraps to a lower page is accepted without a look at any page. -/
theorem validateUserPtr_wrapped {sp : Space} {base sz : Nat} {write : Bool} (hbase : base ≠ 0)
    (hlt : base < 2 ^ 32) (hsz : sz < 2 ^ 32) (hwrap : 2 ^ 32 < base + sz)
    (hpage : (base + sz - 1 - 2 ^ 32) / 4096 < base / 4096) :
    validateUserPtr sp base sz false write = true := by
  unfold validateUserPtr
  have hstop : (base + sz - 1) % 2 ^ 32 = base + sz - 1 - 2 ^ 32 := by omega
  rw [if_neg fun hh => hbase hh.1]
  simp only
  rw [if_pos (by omega), hstop, show (base + sz - 1 - 2 ^ 32) / 4096 + 1 - base / 4096 = 0 by omega]
  rfl

/-! ## The check and what it stands for -/

/-- User mode may read the byte at `a`, and write it if asked to. -/
def Accessible (sp : Space) (write : Bool) (a : Nat) : Prop :=
  ∃ p ∈ sp.lookup a, p.present = true ∧ p.user = true ∧ (write = true → p.write = true)

/-- The range ends within the address space, and user mode may access all of
its bytes. -/
def RangeAccessible (sp : Space) (write : Bool) (base sz : Nat) : Prop :=
  base + sz ≤ 2 ^ 32 ∧ ∀ i < sz, Accessible sp write (base + i)

theorem pageOk_iff {sp : Space} {write : Bool} (a : Nat) :
    pageOk sp write (a / 4096) = true ↔ Accessible sp write a := by
  unfold pageOk Accessible
  rw [lookup_page]
  cases sp.lookup a with
  | none => simp
  | some p => cases write <;> simp [and_assoc]

section Check

variable {sp : Space} {base sz : Nat} {null write : Bool}

/-- The pages the loop looks at, with the last address as the code computes it. -/
theorem validateUserPtr_iff (hbase : base ≠ 0) (hsz : 1 ≤ sz) :
    validateUserPtr sp base sz null write = true
      ↔ ∀ page, base / 4096 ≤ page → page ≤ (base + sz - 1) % 2 ^ 32 / 4096 →
        pageOk sp write page = true := by
  unfold validateUserPtr
  rw [if_neg fun h => hbase h.1]
  dsimp only
  rw [if_pos (Nat.ne_of_gt hsz), List.all_eq_true]
  constructor
  · intro h page hlo hhi
    exact h page (List.mem_range'_1.mpr (by omega))
  · intro h page hpage
    rw [List.mem_range'_1] at hpage
    exact h page hpage.1 (by omega)

/-- Within the address space the pages are those of the bytes. -/
theorem validateUserPtr_inside (hbase : base ≠ 0) (hsz : 1 ≤ sz) (hfit : base + sz ≤ 2 ^ 32) :
    validateUserPtr sp base sz null write = true ↔ RangeAccessible sp write base sz := by
  rw [validateUserPtr_iff hbase hsz, Nat.mod_eq_of_lt (by omega)]
  constructor
  · intro h
    refine ⟨hfit, fun i hi => (pageOk_iff _).mp ?_⟩
    exact h _ (by omega) (by omega)
  · rintro ⟨-, h⟩ page hlo hhi
    -- the page's first address may lie below the range, so take a byte of both
    by_cases hfirst : page = base / 4096
    · rw [hfirst]
      exact (pageOk_iff base).mpr (h 0 hsz)
    · have hbyte := h (page * 4096 - base) (by omega)
      rw [Nat.add_sub_cancel' (by omega)] at hbyte
      have hpage := (pageOk_iff (page * 4096)).mpr hbyte
      rwa [Nat.mul_div_cancel _ (by decide)] at hpage

/-- A range that wraps around to its own first page is judged by that page. -/
theorem validateUserPtr_around (hbase : base ≠ 0) (hlt : base < 2 ^ 32) (hsz : sz < 2 ^ 32)
    (hwrap : 2 ^ 32 < base + sz) (hpage : base / 4096 ≤ (base + sz - 1 - 2 ^ 32) / 4096) :
    validateUserPtr sp base sz null write = true ↔ Accessible sp write base := by
  have hstop : (base + sz - 1) % 2 ^ 32 = base + sz - 1 - 2 ^ 32 := by omega
  rw [validateUserPtr_iff hbase (by omega), hstop, ← pageOk_iff]
  constructor
  · exact fun h => h _ (Nat.le_refl _) hpage
  · intro h page hlo hhi
    rwa [show page = base / 4096 by omega]

end Check

/-- The check means what it says exactly for the ranges within the address
space. Of those past its end it refuses only the ones that wrap around to
their own first page, and these if that page is not accessible. -/
theorem validateUserPtr_exact_iff (sp : Space) (base sz : Nat) (null write : Bool) (hbase : base ≠ 0)
    (hlt : base < 2 ^ 32) (hpos : 1 ≤ sz) (hsz : sz < 2 ^ 32) :
    (validateUserPtr sp base sz null write = true ↔ RangeAccessible sp write base sz)
      ↔ (base + sz ≤ 2 ^ 32 ∨ base / 4096 ≤ (base + sz - 1) % 2 ^ 32 / 4096
        ∧ ¬Accessible sp write base) := by
  by_cases hfit : base + sz ≤ 2 ^ 32
  · exact iff_of_true (validateUserPtr_inside hbase hpos hfit) (Or.inl hfit)
  have hwrap : 2 ^ 32 < base + sz := Nat.lt_of_not_le hfit
  have hnot : ¬RangeAccessible sp write base sz := fun h => hfit h.1
  have hstop : (base + sz - 1) % 2 ^ 32 = base + sz - 1 - 2 ^ 32 := by omega
  rw [iff_false_right hnot, or_iff_right hfit, hstop]
  by_cases hpage : base / 4096 ≤ (base + sz - 1 - 2 ^ 32) / 4096
  · rw [validateUserPtr_around hbase hlt hsz hwrap hpage]
    exact (and_iff_right hpage).symm
  · refine iff_of_false (fun h => h ?_) fun h => hpage h.1
    rw [validateUserPtr_iff hbase hpos, hstop]
    intro page hlo hhi
    omega

/-- No page is mapped. -/
def emptySpace : Space := ⟨fun _ => Page.zero, fun _ _ => Page.zero, fun _ _ => Page.zero⟩

theorem validateUserPtr_exact_iff_code :
    (validateUserPtr emptySpace 0x8048000 0x2000 false true = true
        ↔ RangeAccessible emptySpace true 0x8048000 0x2000)
      ↔ (0x8048000 + 0x2000 ≤ 2 ^ 32
        ∨ 0x8048000 / 4096 ≤ (0x8048000 + 0x2000 - 1) % 2 ^ 32 / 4096
          ∧ ¬Accessible emptySpace true 0x8048000) :=
  validateUserPtr_exact_iff emptySpace 0x8048000 0x2000 false true (by decide) (by decide)
    (by decide) (by decide)

/-- A buffer from `0xc0000000` on that ends at `0x1000` passes with no page mapped. -/
theorem validateUserPtr_unchecked :
    validateUserPtr emptySpace 0xc0000000 0x40001000 false true = true
      ∧ ¬RangeAccessible emptySpace true 0xc0000000 0x40001000 :=
  ⟨by decide, fun h => absurd h.1 (by decide)⟩

end Paging

end Shitos
