import Mathlib.Order.Bounds.Defs
import Shitos.RunScan
import Shitos.VmemFrames

/-!
# Searches of the bitmaps

`vmem_frame_find_first_n` and the two searches for mapping pages, on the
bitmaps with whatever lies behind them. The first only bounds where a run
starts, so a run may end behind the last frame. The other two take
`map_pages_count` from a product of two sizes, which is four times the number
of bits in `map_pages`: once no run is left in the array, the search looks at
the words behind it.
-/

namespace Shitos

namespace Vmem

open Paging RunScan

/-! ## The functions -/

/-- `vmem_frame_test`. -/
def frameTest (bits : Mem) (addr : Nat) : Bool := testBit bits (addr / 4096)

/-- `vmem_frame_test(PAGE_SIZE * k)`. -/
def frameTaken (bits : Mem) (k : Nat) : Bool := frameTest bits (4096 * k % 2 ^ 32)

/-- `vmem_frame_find_first_n`, with `none` where it calls `arch_fatal`. -/
def frameFindFirstN (bits : Mem) (frameCount n : Nat) : Option Nat :=
  (findRun (frameTaken bits) n 0x100 frameCount).1

namespace MapPages

/-- `map_pages_count`, that is `sizeof map_pages * 8*sizeof *map_pages`. -/
def count : Nat := 8192 * 8 * 4

/-- `vmem_map_page_test`. -/
def test (bits : Mem) (addr : Nat) : Bool := testBit bits (sub32 addr mapPagesMemory / 4096)

/-- `VMEM_MAP_PAGES_MEMORY + (idx << PAGE_BITS)`. -/
def addr (idx : Nat) : Nat := (mapPagesMemory + idx * 4096) % 2 ^ 32

def taken (bits : Mem) (k : Nat) : Bool := test bits (addr k)

/-- `vmem_map_page_find_first`, with `none` where it calls `arch_fatal`. -/
def findFirst (bits : Mem) : Option Nat := (Vmem.findFirst bits 0 count).map addr

/-- `vmem_map_page_find_first_n`. -/
def findFirstN (bits : Mem) (n : Nat) : Option Nat := (findRun (taken bits) n 0 count).1.map addr

end MapPages

/-- The words `vmem_frame_find_first_internal` reads: it goes on as long as
they have no clear bit. -/
def wordsRead (bits : Mem) (lo hi : Nat) : List Nat :=
  (List.range' (lo / 32) (hi / 32 - lo / 32)).filter fun w =>
    (List.range' (lo / 32) (w - lo / 32)).all fun v => ffsl (not32 (wordAt bits v)) = 0

/-- The bits `vmem_map_page_find_first_n` tests. -/
def MapPages.bitsTested (bits : Mem) (n : Nat) : List Nat :=
  (findRun (MapPages.taken bits) n 0 MapPages.count).2.map fun k =>
    sub32 (MapPages.addr k) mapPagesMemory / 4096

/-! ## What the searches should find -/

/-- `n` clear bits in a row, all of them between `lo` and `hi`. -/
def ClearRun (bits : Mem) (lo hi n i : Nat) : Prop :=
  lo ≤ i ∧ i + n ≤ hi ∧ ∀ j < n, testBit bits (i + j) = false

/-- A frame that is returned starts a run of free frames. -/
def FramesFound (bits : Mem) (frameCount n : Nat) : Prop :=
  ∀ i, frameFindFirstN bits frameCount n = some i → ClearRun bits 0x100 frameCount n i

/-- An address that is returned is a page of the mapping region, and only
words of the array are read. -/
def PageFound (bits : Mem) : Prop :=
  (∀ a, MapPages.findFirst bits = some a → ∃ w < mapPagesBits, a = mapPagesMemory + w * 4096)
    ∧ ∀ w ∈ wordsRead bits 0 MapPages.count, w < 2048

def PagesFound (bits : Mem) (n : Nat) : Prop :=
  (∀ a, MapPages.findFirstN bits n = some a →
      ∃ w, w + n ≤ mapPagesBits ∧ a = mapPagesMemory + w * 4096)
    ∧ ∀ k ∈ MapPages.bitsTested bits n, k < mapPagesBits

/-! ## Runs of frames -/

theorem frameTaken_eq {bits : Mem} {k : Nat} (hk : k < 2 ^ 20) :
    frameTaken bits k = testBit bits k := by
  rw [frameTaken, frameTest, Nat.mod_eq_of_lt (by omega), Nat.mul_div_cancel_left k (by decide)]

theorem ClearRun.free {bits : Mem} {lo hi n i : Nat} (h : ClearRun bits lo hi n i)
    (hhi : hi ≤ 2 ^ 20) : Free (frameTaken bits) n i := by
  obtain ⟨-, hend, hclear⟩ := h
  intro j hj
  rw [frameTaken_eq (by omega)]
  exact hclear j hj

theorem framesFound_iff {bits : Mem} {frameCount n : Nat} (hcount : frameCount ≤ 2 ^ 20)
    (hn : 1 ≤ n) : FramesFound bits frameCount n ↔
      (∃ i, ClearRun bits 0x100 frameCount n i)
        ∨ ∀ i, 0x100 ≤ i → i < frameCount → ¬Free (frameTaken bits) n i := by
  constructor
  · intro h
    cases hfind : frameFindFirstN bits frameCount n with
    | some i => exact Or.inl ⟨i, h i hfind⟩
    | none => exact Or.inr (findRun_none hfind)
  · rintro (⟨i, hrun⟩ | hnone) c hfind
    · -- the run that is found comes no later than the one inside
      have hend := hrun.2.1
      have hlt : i < frameCount := by omega
      obtain ⟨c', hle, hc'⟩ := findRun_of_free hrun.1 hlt (hrun.free hcount)
      rw [frameFindFirstN, hc'] at hfind
      obtain rfl := Option.some.inj hfind
      obtain ⟨hlo, -, hfree, -⟩ := findRun_some hc'
      refine ⟨hlo, by omega, fun j hj => ?_⟩
      rw [← frameTaken_eq (by omega)]
      exact hfree j hj
    · obtain ⟨hlo, hhi, hfree, -⟩ := findRun_some hfind
      exact absurd hfree (hnone c hlo hhi)

/-! ## Mapping pages -/

namespace MapPages

theorem sub32_addr (k : Nat) : sub32 (addr k) mapPagesMemory / 4096 = k % 2 ^ 20 := by
  unfold sub32 addr mapPagesMemory
  split <;> omega

theorem taken_eq {bits : Mem} {k : Nat} (hk : k < mapPagesBits) :
    taken bits k = testBit bits k := by
  unfold mapPagesBits at hk
  rw [taken, test, sub32_addr, Nat.mod_eq_of_lt (by omega)]

theorem addr_eq {w : Nat} (hw : w < mapPagesBits) : addr w = mapPagesMemory + w * 4096 := by
  unfold mapPagesBits at hw
  unfold addr mapPagesMemory
  omega

end MapPages

/-- Word `w` has no clear bit. -/
def Full (bits : Mem) (w : Nat) : Prop := ∀ i < 32, testBit bits (32 * w + i) = true

theorem full_iff {bits : Mem} {w : Nat} : ffsl (not32 (wordAt bits w)) = 0 ↔ Full bits w := by
  rw [ffsl_not32_eq_zero]
  refine forall_congr' fun i => forall_congr' fun hi => ?_
  rw [testBit, bitAt, Nat.mul_add_div (by decide), Nat.div_eq_of_lt hi, Nat.mul_add_mod,
    Nat.mod_eq_of_lt hi, Nat.add_zero]

theorem mem_wordsRead {bits : Mem} {lo hi w : Nat} : w ∈ wordsRead bits lo hi ↔
    (lo / 32 ≤ w ∧ w < hi / 32) ∧ ∀ v, lo / 32 ≤ v → v < w → Full bits v := by
  rw [wordsRead, List.mem_filter, List.mem_range'_1, List.all_eq_true]
  refine and_congr ⟨fun h => by omega, fun h => by omega⟩ ⟨fun h v h1 h2 => ?_, fun h v hv => ?_⟩
  · exact full_iff.mp (of_decide_eq_true (h v (List.mem_range'_1.mpr (by omega))))
  · rw [List.mem_range'_1] at hv
    exact decide_eq_true (full_iff.mpr (h v hv.1 (by omega)))

/-- The bit found is in a word that is read. -/
theorem findFirst_read {bits : Mem} {lo hi n : Nat} (h : findFirst bits lo hi = some n) :
    n / 32 ∈ wordsRead bits lo hi := by
  obtain ⟨l₁, w, l₂, hl, hw, hfull⟩ := List.findSome?_eq_some_iff.mp h
  dsimp only at hw hfull
  have hmem : w ∈ List.range' (lo / 32) (hi / 32 - lo / 32) := by
    rw [hl]
    exact List.mem_append_right _ List.mem_cons_self
  rw [List.mem_range'_1] at hmem
  have hword : n / 32 = w := by
    split at hw
    · cases hw
    · rename_i hne
      obtain ⟨i, hi⟩ := Nat.exists_eq_succ_of_ne_zero hne
      have hlt := (ffsl_not32_eq_succ hi).1
      have hn := Option.some.inj hw
      omega
  rw [hword, mem_wordsRead]
  refine ⟨by omega, fun v h1 h2 => ?_⟩
  -- the words of the range before `w` are those of `l₁`
  have hv : v ∈ l₁ := by
    have hsorted : (List.range' (lo / 32) (hi / 32 - lo / 32)).Pairwise (· < ·) :=
      List.pairwise_lt_range'
    have hv : v ∈ List.range' (lo / 32) (hi / 32 - lo / 32) := List.mem_range'_1.mpr (by omega)
    rw [hl] at hsorted hv
    rcases List.mem_append.mp hv with hv | hv
    · exact hv
    · have htail := (List.pairwise_append.mp hsorted).2.1
      rcases List.mem_cons.mp hv with rfl | hv
      · exact absurd h2 (Nat.lt_irrefl v)
      · exact absurd (List.rel_of_pairwise_cons htail hv) (Nat.lt_asymm h2)
  have hnone := hfull v hv
  split at hnone
  · exact full_iff.mp ‹_›
  · cases hnone

theorem pageFound_iff {bits : Mem} :
    PageFound bits ↔ ∃ k < mapPagesBits, testBit bits k = false := by
  constructor
  · rintro ⟨-, hread⟩
    by_contra hnone
    have hfull : ∀ v < 2048, Full bits v := by
      intro v hv i hi
      by_contra hbit
      refine hnone ⟨32 * v + i, ?_, Bool.eq_false_iff.mpr hbit⟩
      unfold mapPagesBits
      omega
    exact Nat.lt_irrefl 2048 (hread 2048 (mem_wordsRead.mpr ⟨by decide, fun v _ => hfull v⟩))
  · rintro ⟨k, hk, hclear⟩
    unfold mapPagesBits at hk
    have hread : ∀ w ∈ wordsRead bits 0 MapPages.count, w < 2048 := by
      intro w hw
      by_contra hlarge
      have hset := (mem_wordsRead.mp hw).2 (k / 32) (by omega) (by omega) (k % 32)
        (Nat.mod_lt _ (by decide))
      rw [Nat.div_add_mod, hclear] at hset
      cases hset
    refine ⟨fun a ha => ?_, hread⟩
    obtain ⟨n, hn, rfl⟩ := Option.map_eq_some_iff.mp ha
    have hword := hread _ (findFirst_read hn)
    have hlt : n < mapPagesBits := by
      unfold mapPagesBits
      omega
    exact ⟨n, hlt, MapPages.addr_eq hlt⟩

theorem pagesFound_iff {bits : Mem} {n : Nat} (hn : 1 ≤ n) :
    PagesFound bits n ↔ ∃ i, ClearRun bits 0 mapPagesBits n i := by
  have htested : ∀ {k : Nat}, k ∈ (findRun (MapPages.taken bits) n 0 MapPages.count).2 →
      k % 2 ^ 20 ∈ MapPages.bitsTested bits n := fun {k} hk =>
    List.mem_map.mpr ⟨k, hk, MapPages.sub32_addr k⟩
  constructor
  · rintro ⟨hfound, hin⟩
    -- the first bit behind the array is not tested, so the scan ends before it
    have hnot : mapPagesBits ∉ (findRun (MapPages.taken bits) n 0 MapPages.count).2 :=
      fun h => absurd (hin _ (htested h)) (by decide)
    cases hfind : (findRun (MapPages.taken bits) n 0 MapPages.count).1 with
    | none =>
        have hlong := findRun_exhausted hfind
        refine absurd ((findRun_looked _).mpr ⟨Nat.zero_le _, ?_⟩) hnot
        rw [hfind]
        dsimp only
        unfold MapPages.count at hlong ⊢
        unfold mapPagesBits
        omega
    | some i =>
        obtain ⟨-, -, hfree, -⟩ := findRun_some hfind
        have hend : i + n ≤ mapPagesBits := by
          by_contra hlarge
          refine hnot ((findRun_looked _).mpr ⟨Nat.zero_le _, ?_⟩)
          rw [hfind]
          exact Nat.lt_of_not_le hlarge
        refine ⟨i, Nat.zero_le i, hend, fun j hj => ?_⟩
        rw [← MapPages.taken_eq (by omega)]
        exact hfree j hj
  · rintro ⟨i, -, hend, hclear⟩
    have hfree : Free (MapPages.taken bits) n i := by
      intro j hj
      rw [MapPages.taken_eq (by omega)]
      exact hclear j hj
    have hcount : mapPagesBits ≤ MapPages.count := by decide
    have hlt : i < MapPages.count := by omega
    obtain ⟨c, hle, hc⟩ := findRun_of_free (Nat.zero_le i) hlt hfree
    refine ⟨fun a ha => ?_, fun k hk => ?_⟩
    · rw [MapPages.findFirstN, hc] at ha
      cases ha
      exact ⟨c, by omega, MapPages.addr_eq (by omega)⟩
    · obtain ⟨x, hx, rfl⟩ := List.mem_map.mp hk
      have hlt := ((findRun_looked x).mp hx).2
      rw [hc] at hlt
      dsimp only at hlt
      rw [MapPages.sub32_addr]
      unfold mapPagesBits at *
      omega

/-- As long as the search for one page stays in the array, it is the one of the
state-passing model. -/
theorem mapPageFindFirst_eq {s : Vm} (h : PageFound s.mapPages) :
    ∃ a, MapPages.findFirst s.mapPages = some a ∧ mapPageFindFirst s = .done a s := by
  have hsplit : findFirst s.mapPages 0 MapPages.count
      = (findFirst s.mapPages 0 mapPagesBits).or
        ((List.range' 2048 6144).findSome? fun i =>
          let x := ffsl (not32 (wordAt s.mapPages i))
          if x = 0 then none else some (i * 32 + x - 1)) := by
    have hrange : List.range' (0 / 32) (MapPages.count / 32 - 0 / 32)
        = List.range' (0 / 32) (mapPagesBits / 32 - 0 / 32) ++ List.range' 2048 6144 :=
      (@List.range'_append_1 0 2048 6144).symm
    rw [findFirst, findFirst, ← List.findSome?_append, hrange]
  cases hfind : findFirst s.mapPages 0 mapPagesBits with
  | some idx =>
      rw [hfind, Option.some_or] at hsplit
      obtain ⟨-, hlt, -⟩ := findFirst_spec hfind
      refine ⟨MapPages.addr idx, ?_, ?_⟩
      · rw [MapPages.findFirst, hsplit]
        rfl
      · rw [mapPageFindFirst, hfind, MapPages.addr_eq hlt]
  | none =>
      obtain ⟨k, hk, hclear⟩ := pageFound_iff.mp h
      obtain ⟨idx, hidx⟩ : ∃ idx, findFirst s.mapPages 0 mapPagesBits = some idx :=
        findFirst_isSome (Nat.zero_le _) hk hclear
      rw [hfind] at hidx
      cases hidx

/-! ## All three -/

/-- The searches keep within their bitmaps exactly as long as there is
something to find in it. That of frames also does where no frame below
`frame_count` starts a run, however far the run would reach. -/
theorem searches_in_range_iff (frames : Mem) (frameCount : Nat) (pages : Mem) (n : Nat)
    (hcount : frameCount ≤ 2 ^ 20) (hn : 1 ≤ n) :
    (FramesFound frames frameCount n ↔
        (∃ i, ClearRun frames 0x100 frameCount n i)
          ∨ ∀ i, 0x100 ≤ i → i < frameCount → ¬Free (frameTaken frames) n i)
      ∧ (PageFound pages ↔ ∃ k < mapPagesBits, testBit pages k = false)
      ∧ (PagesFound pages n ↔ ∃ i, ClearRun pages 0 mapPagesBits n i) :=
  ⟨framesFound_iff hcount hn, pageFound_iff, pagesFound_iff hn⟩

/-- A bitmap with all bits of its first `n` words set. -/
def fullWords (n : Nat) : Mem := fun x => if x < 4 * n then 0xff else 0

theorem testBit_fullWords (n k : Nat) : testBit (fullWords n) k = decide (k < 32 * n) := by
  have hbyte : ∀ x, fullWords n x = if x < 4 * n then 0xff else 0 := fun _ => rfl
  rw [testBit, bitAt, wordAt, rd32, rd16, rd16]
  simp only [rd8, hbyte]
  by_cases hk : k < 32 * n
  · rw [decide_eq_true hk, if_pos (by omega), if_pos (by omega), if_pos (by omega),
      if_pos (by omega)]
    exact (Nat.testBit_two_pow_sub_one 32 _).trans (decide_eq_true (Nat.mod_lt _ (by decide)))
  · rw [decide_eq_false hk, if_neg (by omega), if_neg (by omega), if_neg (by omega),
      if_neg (by omega)]
    exact Nat.zero_testBit _

theorem searches_in_range_iff_free :
    (FramesFound (fullWords 16) 0x1000 3 ↔
        (∃ i, ClearRun (fullWords 16) 0x100 0x1000 3 i)
          ∨ ∀ i, 0x100 ≤ i → i < 0x1000 → ¬Free (frameTaken (fullWords 16)) 3 i)
      ∧ (PageFound (fullWords 16) ↔ ∃ k < mapPagesBits, testBit (fullWords 16) k = false)
      ∧ (PagesFound (fullWords 16) 3 ↔ ∃ i, ClearRun (fullWords 16) 0 mapPagesBits 3 i) :=
  searches_in_range_iff (fullWords 16) 0x1000 (fullWords 16) 3 (by decide) (by decide)

/-- With only the last 32 of `0x1000` frames free, a run of 33 frames is
found. With all mapping pages used, the searches for more read on. -/
theorem searches_out_of_range : ¬FramesFound (fullWords 127) 0x1000 33
    ∧ ¬PageFound (fullWords 2048) ∧ ¬PagesFound (fullWords 2048) 1 := by
  refine ⟨fun h => ?_, fun h => ?_, fun h => ?_⟩
  · rcases (framesFound_iff (by decide) (by decide)).mp h with ⟨i, hlo, hend, hclear⟩ | hnone
    · have hbit := hclear 0 (by decide)
      rw [testBit_fullWords, decide_eq_false_iff_not] at hbit
      omega
    · refine hnone 0xfe0 (by decide) (by decide) fun j hj => ?_
      rw [frameTaken_eq (by omega), testBit_fullWords, decide_eq_false_iff_not]
      omega
  · obtain ⟨k, hk, hbit⟩ := pageFound_iff.mp h
    rw [testBit_fullWords, decide_eq_false_iff_not] at hbit
    exact hbit hk
  · obtain ⟨i, -, hend, hclear⟩ := (pagesFound_iff (by decide)).mp h
    have hbit := hclear 0 (by decide)
    rw [testBit_fullWords, decide_eq_false_iff_not] at hbit
    unfold mapPagesBits at hend
    omega

/-! ## The run that is found -/

/-- `n` frames in a row that `vmem_frame_test` sees as free, all of them below
`frame_count`. -/
def FrameRun (bits : Mem) (frameCount n i : Nat) : Prop :=
  0x100 ≤ i ∧ i + n ≤ frameCount ∧ Free (frameTaken bits) n i

/-- As long as frames have addresses of 32 bits, these are the runs of clear bits. -/
theorem frameRun_iff {bits : Mem} {frameCount n i : Nat} (hcount : frameCount ≤ 2 ^ 20) :
    FrameRun bits frameCount n i ↔ ClearRun bits 0x100 frameCount n i := by
  constructor
  · rintro ⟨hlo, hend, hfree⟩
    refine ⟨hlo, hend, fun j hj => ?_⟩
    rw [← frameTaken_eq (by omega)]
    exact hfree j hj
  · intro h
    exact ⟨h.1, h.2.1, h.free hcount⟩

/-- If there is a run, the search returns the first one: every start that it
skips has the used frame inside. -/
theorem frameFindFirstN_least {bits : Mem} {frameCount n : Nat} (hn : 1 ≤ n)
    (h : ∃ i, FrameRun bits frameCount n i) :
    ∃ i, frameFindFirstN bits frameCount n = some i
      ∧ IsLeast {i | FrameRun bits frameCount n i} i
      ∧ (frameCount ≤ 2 ^ 20 → IsLeast {i | ClearRun bits 0x100 frameCount n i} i) := by
  obtain ⟨i, hlo, hend, hfree⟩ := h
  have hlt : i < frameCount := by omega
  obtain ⟨c, hle, hc⟩ := findRun_of_free hlo hlt hfree
  obtain ⟨hclo, -, hcfree, hfirst⟩ := findRun_some hc
  have hleast : IsLeast {i | FrameRun bits frameCount n i} c := by
    refine ⟨⟨hclo, by omega, hcfree⟩, ?_⟩
    rintro i' ⟨hlo', -, hfree'⟩
    by_contra hbefore
    exact hfirst i' hlo' (Nat.lt_of_not_le hbefore) hfree'
  refine ⟨c, hc, hleast, fun hcount => ?_⟩
  have hsets : {i | FrameRun bits frameCount n i} = {i | ClearRun bits 0x100 frameCount n i} :=
    Set.ext fun i => frameRun_iff hcount
  rw [← hsets]
  exact hleast

/-- After 512 used frames, the first of 3 free ones is the next. -/
theorem frameFindFirstN_least_after :
    ∃ i, frameFindFirstN (fullWords 16) 0x1000 3 = some i
      ∧ IsLeast {i | FrameRun (fullWords 16) 0x1000 3 i} i
      ∧ (0x1000 ≤ 2 ^ 20 → IsLeast {i | ClearRun (fullWords 16) 0x100 0x1000 3 i} i) := by
  refine frameFindFirstN_least (by decide) ⟨512, by decide, by decide, fun j hj => ?_⟩
  rw [frameTaken_eq (by omega), testBit_fullWords, decide_eq_false_iff_not]
  omega

end Vmem

end Shitos
