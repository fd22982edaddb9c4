import Shitos.HeapAlign

/-!
# How often an allocation expands the heap

`vmem_heap_alloc` calls itself with the same arguments once it has expanded the
heap. Each expansion adds the same number of pages, which hold the request, to
the hole with the highest address, so after one of them that hole serves a
request without alignment, and after three of them one that starts a page,
whatever the front takes (`Top.stops`).

A call may also end in `vmem_heap_expand`: by its two assertions, or as there is
no frame left. The second assertion compares `heap->start + new_sz` after it
may have wrapped; what becomes of such a heap is left open.
-/

namespace Shitos

namespace Heap

/-! ## The function -/

/-- Mapping the pages that extend a heap to a new size, as long as there are
frames. The heap and its index are left alone. -/
structure Mapper where
  map : VmemHeap → Nat → Mem → Option Mem
  keeps : ∀ h newSz m m', map h newSz m = some m' →
    ∀ x, h.index.array ≤ x → x < h.stop → m' x = m x

/-- How a call of `vmem_heap_alloc` ends: it returns, an assertion fails in
`vmem_heap_expand` or in the index, there is no frame, or it goes on below the
depth that is looked at. -/
inductive AllocEnd
  | returned (p : Nat) (s : St)
  | noGrowth
  | pastMax
  | noFrame
  | badIndex
  | deeper

/-- The heap behind its expansion to `newSz`, before the new room belongs to a hole. -/
def widened (s : St) (m : Mem) (newSz : Nat) : St :=
  ⟨m, { s.heap with stop := (s.heap.start + newSz) % 2 ^ 32 }⟩

/-- `vmem_heap_alloc` to a depth of `n` calls, with the sizes to which it expands
the heap. -/
def allocRun (M : Mapper) : Nat → St → Nat → Nat → AllocEnd × List Nat
  | 0, _, _, _ => (.deeper, [])
  | n + 1, s, size, align =>
      match holeFind s (realSize size) align with
      | some hole =>
          match allocHole s hole (realSize size) align with
          | some (p, s') => (.returned p s', [])
          | none => (.badIndex, [])
      | none =>
          let oldSz := sub32 s.heap.stop s.heap.start
          let newSz := pageUp ((oldSz + realSize size) % 2 ^ 32)
          if newSz ≤ oldSz then (.noGrowth, [])
          else if s.heap.max < (s.heap.start + newSz) % 2 ^ 32 then (.pastMax, [])
          else
            match M.map s.heap newSz s.mem with
            | none => (.noFrame, [])
            | some m =>
                match allocRun M n (growHole (widened s m newSz) oldSz s.heap.stop) size align with
                | (e, sizes) => (e, newSz :: sizes)

/-- Where frames do not run out, this is `alloc`. -/
def Pages.mapper (P : Pages) : Mapper where
  map := fun h newSz m => some (P.map h newSz m)
  keeps := fun h newSz m m' hm x h1 h2 => by
    rw [← Option.some.inj hm]
    exact P.keeps h newSz m x h1 h2

theorem alloc_eq_allocRun (P : Pages) (n : Nat) (s : St) (size align : Nat) :
    alloc P n s size align = match (allocRun P.mapper n s size align).1 with
      | .returned p s' => some (p, s')
      | _ => none := by
  induction n generalizing s with
  | zero => rfl
  | succ n ih =>
      rw [alloc, allocRun]
      cases holeFind s (realSize size) align with
      | some hole =>
          dsimp only
          cases allocHole s hole (realSize size) align with
          | none => rfl
          | some r => rfl
      | none =>
          dsimp only
          rw [expand]
          dsimp only
          generalize pageUp ((sub32 s.heap.stop s.heap.start + realSize size) % 2 ^ 32) = newSz
          by_cases hgrow : newSz ≤ sub32 s.heap.stop s.heap.start
          · rw [if_pos hgrow, if_neg (fun h => absurd h.1 (Nat.not_lt.mpr hgrow))]
            rfl
          by_cases hmax : s.heap.max < (s.heap.start + newSz) % 2 ^ 32
          · rw [if_neg hgrow, if_pos hmax, if_neg (fun h => absurd hmax (Nat.not_lt.mpr h.2))]
            rfl
          rw [if_neg hgrow, if_neg hmax, if_pos ⟨Nat.lt_of_not_le hgrow, Nat.le_of_not_lt hmax⟩]
          exact ih _

/-! ## Process heaps -/

/-- The index lies below the heap, which is made of whole pages. -/
structure Sized (s : St) : Prop where
  index : s.heap.index.size ≤ s.heap.index.maxSize
  slots : 0 < s.heap.index.maxSize
  below : s.heap.index.array + 4 * s.heap.index.maxSize ≤ s.heap.start
  order : s.heap.start ≤ s.heap.stop
  stop : s.heap.stop < 2 ^ 32
  pages : (s.heap.stop - s.heap.start) % 4096 = 0

/-- The heap of a process, with any holes inside it in its index. -/
structure ProcessHeap (s : St) : Prop extends Sized s where
  user : s.heap.kernel = false
  holes : ∀ h ∈ s.holes,
    s.heap.start ≤ h ∧ h + headerSz ≤ s.heap.stop ∧ h + hdrSize s.mem h ≤ s.heap.stop

/-- How many expansions a request may take. -/
def rounds (align : Nat) : Nat := if align = 0 then 1 else 3

/-- A call ends in `vmem_heap_expand` or returns, after at most `k` expansions. -/
def Stops (r : AllocEnd × List Nat) (k : Nat) : Prop :=
  (r.1 = .noGrowth ∨ r.1 = .pastMax ∨ r.1 = .noFrame ∨ ∃ p s, r.1 = .returned p s)
    ∧ r.2.length ≤ k

/-- How much a request expands a heap. -/
def growth (size : Nat) : Nat := (size + 20 + 4095) / 4096 * 4096

/-- What a hole at `h` must hold for `n` bytes. -/
def need (align h n : Nat) : Nat := (if align = 0 then 0 else frontSz h) + n

theorem growth_spec (size : Nat) : size + 20 ≤ growth size ∧ 4096 ≤ growth size := by
  unfold growth
  omega

theorem frontSz_le (h : Nat) : frontSz h ≤ 4107 := by
  unfold frontSz leadSz headerSz
  split <;> split at * <;> omega

/-- The pages of `rounds align` expansions hold the request, wherever it begins. -/
theorem need_le (align h size : Nat) : need align h (size + 20) ≤ rounds align * growth size := by
  have hfront := frontSz_le h
  have hgrowth := growth_spec size
  unfold need rounds
  split <;> omega

/-! ## Serving a request -/

variable {M : Mapper} {s : St} {size align h z n : Nat}

theorem holeFits_need (halign : align = 0 ∨ align = pageBits) {m : Mem} :
    holeFits m h n align = true ↔ need align h n ≤ hdrSize m h := by
  rcases halign with rfl | rfl
  · rw [holeFits, if_pos rfl, decide_eq_true_iff, need, if_pos rfl, Nat.zero_add]
  · exact holeFits_page

theorem get_eq {i : Nat} (hi : i < s.heap.index.size) :
    s.get i = some (s.heap.index.elem s.mem i) := if_pos hi

/-- A hole that has been found serves the request. -/
theorem allocHole_some (halign : align = 0 ∨ align = pageBits) {i : Nat}
    (hfind : holeFind s n align = some i) : ∃ p s', allocHole s i n align = some (p, s') := by
  have hi : i < s.heap.index.size := List.mem_range.mp (List.mem_of_find?_eq_some hfind)
  rcases halign with rfl | rfl
  · obtain ⟨s₁, hrem, -⟩ := remove_spec hi
    simp only [allocHole, get_eq hi, hrem, Option.bind_eq_bind, Option.bind_some, Option.pure_def,
      ne_eq, not_true_eq_false, if_false]
    generalize s.heap.index.elem s.mem i = a
    generalize (if sub32 (hdrSize s.mem a) n < headerSz + footerSz then hdrSize s.mem a else n) = r
    by_cases hrest : sub32 (hdrSize s.mem a) r > 0
    · exact ⟨_, _, if_pos hrest⟩
    · exact ⟨_, _, if_neg hrest⟩
  · obtain ⟨s', hs'⟩ := @allocHole_pointer s i _ n (get_eq hi)
    exact ⟨_, s', hs'⟩

/-- What a call comes to: it returns or ends, or has expanded the heap by `growth`. -/
theorem allocRun_cases (Z : Sized s) (hsize : size + 20 < 2 ^ 32)
    (halign : align = 0 ∨ align = pageBits) (n : Nat) :
    Stops (allocRun M (n + 1) s size align) 0 ∨
      holeFind s (size + 20) align = none ∧ ∃ newSz m,
        newSz = s.heap.stop - s.heap.start + growth size
        ∧ (∀ x, s.heap.index.array ≤ x → x < s.heap.stop → m x = s.mem x)
        ∧ allocRun M (n + 1) s size align
          = match allocRun M n (growHole (widened s m newSz) (s.heap.stop - s.heap.start)
              s.heap.stop) size align with
            | (e, sizes) => (e, newSz :: sizes) := by
  have hreal : realSize size = size + 20 := Nat.mod_eq_of_lt hsize
  have hold : sub32 s.heap.stop s.heap.start = s.heap.stop - s.heap.start := sub32_of_le Z.order
  rw [allocRun, hreal, hold]
  cases hfind : holeFind s (size + 20) align with
  | some i =>
      left
      obtain ⟨p, s', hserve⟩ := allocHole_some halign hfind
      simp only [hserve]
      exact ⟨Or.inr (Or.inr (Or.inr ⟨p, s', rfl⟩)), Nat.le_refl 0⟩
  | none =>
      dsimp only
      by_cases hgrow : pageUp ((s.heap.stop - s.heap.start + (size + 20)) % 2 ^ 32)
          ≤ s.heap.stop - s.heap.start
      · rw [if_pos hgrow]
        exact Or.inl ⟨Or.inl rfl, Nat.le_refl 0⟩
      rw [if_neg hgrow]
      -- a size that has wrapped is no larger than the old one
      have hnew : pageUp ((s.heap.stop - s.heap.start + (size + 20)) % 2 ^ 32)
          = s.heap.stop - s.heap.start + growth size := by
        have hpages := Z.pages
        have hstop := Z.stop
        unfold pageUp growth at *
        omega
      rw [hnew]
      split
      · exact Or.inl ⟨Or.inr (Or.inl rfl), Nat.le_refl 0⟩
      · cases hmap : M.map s.heap (s.heap.stop - s.heap.start + growth size) s.mem with
        | none => exact Or.inl ⟨Or.inr (Or.inr (Or.inl rfl)), Nat.le_refl 0⟩
        | some m => exact Or.inr ⟨rfl, _, m, rfl, M.keeps _ _ _ _ hmap, rfl⟩

/-! ## The highest hole -/

/-- The hole with the highest address is at `h` and holds `z` bytes. -/
structure Top (s : St) (h z : Nat) : Prop extends Sized s where
  listed : h ∈ s.holes
  highest : ∀ b ∈ s.holes, b ≤ h
  above : s.heap.start ≤ h
  header : h + 12 ≤ s.heap.stop
  size : hdrSize s.mem h = z
  inside : h + z ≤ s.heap.stop

theorem Top.find (T : Top s h z) (halign : align = 0 ∨ align = pageBits)
    (hneed : need align h n ≤ z) : holeFind s n align ≠ none := by
  obtain ⟨i, hi, rfl⟩ := OrdArr.mem_elems.mp T.listed
  intro hnone
  have hfits := List.find?_eq_none.mp hnone i (List.mem_range.mpr hi)
  rw [holeFits_need halign, T.size] at hfits
  exact hfits hneed

/-- The holes of a process heap have a highest one. -/
theorem ProcessHeap.top (H : ProcessHeap s) (hne : s.holes ≠ []) : ∃ h z, Top s h z := by
  obtain ⟨a, ha⟩ := List.exists_mem_of_ne_nil _ hne
  obtain ⟨-, hall, hres⟩ := highest_foldl (s.heap.index.elem s.mem)
    (List.range s.heap.index.size) (none, 0)
  obtain ⟨j, hj, rfl⟩ := OrdArr.mem_elems.mp ha
  have hpos : 0 < s.heap.index.elem s.mem j := by
    have hlow := (H.holes _ ha).1
    have hbelow := H.below
    have hslots := H.slots
    omega
  rcases hres with hres | ⟨i, hi, hres⟩
  · have hge := hall j (List.mem_range.mpr hj)
    rw [hres] at hge
    exact absurd hpos (Nat.not_lt.mpr hge)
  · have hmem := OrdArr.elem_mem (m := s.mem) (List.mem_range.mp hi)
    obtain ⟨habove, hheader, hinside⟩ := H.holes _ hmem
    refine ⟨_, _, H.toSized, hmem, fun b hb => ?_, habove, hheader, rfl, hinside⟩
    obtain ⟨k, hk, rfl⟩ := OrdArr.mem_elems.mp hb
    have hle := hall k (List.mem_range.mpr hk)
    rwa [hres] at hle

section Grow

variable {m : Mem} {newSz : Nat}

theorem widened_stop (hlt : s.heap.start + newSz < 2 ^ 32) :
    (widened s m newSz).heap.stop = s.heap.start + newSz := Nat.mod_eq_of_lt hlt

/-- The new room, as `growHole` computes it. -/
theorem widened_sub (hlt : s.heap.start + newSz < 2 ^ 32)
    (hnew : newSz = s.heap.stop - s.heap.start + growth size) :
    sub32 (sub32 (widened s m newSz).heap.stop (widened s m newSz).heap.start)
      (s.heap.stop - s.heap.start) = growth size := by
  have hstart : (widened s m newSz).heap.start = s.heap.start := rfl
  rw [widened_stop hlt, hstart, sub32_of_le (Nat.le_add_right _ _), Nat.add_sub_cancel_left,
    sub32_of_le (by omega), hnew, Nat.add_sub_cancel_left]

theorem widened_holes (Z : Sized s)
    (hkeep : ∀ x, s.heap.index.array ≤ x → x < s.heap.stop → m x = s.mem x) :
    (widened s m newSz).holes = s.holes := by
  have hindex := Z.index
  have hbelow := Z.below
  have horder := Z.order
  exact OrdArr.elems_congr fun x h1 h2 => hkeep x h1 (by
    have h2' : x < s.heap.index.array + 4 * s.heap.index.size := h2
    omega)

theorem Sized.widened (Z : Sized s) (hlt : s.heap.start + newSz < 2 ^ 32)
    (hnew : newSz = s.heap.stop - s.heap.start + growth size) : Sized (widened s m newSz) where
  index := Z.index
  slots := Z.slots
  below := Z.below
  order := by
    rw [widened_stop hlt]
    exact Nat.le_add_right _ _
  stop := by
    rw [widened_stop hlt]
    exact hlt
  pages := by
    have hpages := Z.pages
    have hstart : (Heap.widened s m newSz).heap.start = s.heap.start := rfl
    rw [widened_stop hlt, hstart, Nat.add_sub_cancel_left, hnew]
    unfold growth
    omega

/-- Only the record of the heap matters. -/
theorem Sized.congr {t : St} (Z : Sized s) (h : t.heap = s.heap) : Sized t where
  index := h ▸ Z.index
  slots := h ▸ Z.slots
  below := h ▸ Z.below
  order := h ▸ Z.order
  stop := h ▸ Z.stop
  pages := h ▸ Z.pages

/-- One more hole in the index, where there is a slot for it. -/
theorem Sized.insert (Z : Sized s) (hslot : s.heap.index.size < s.heap.index.maxSize) (b : Nat) :
    Sized (s.insert b) := by
  have hsame := insert_same s b
  exact {
    index := by
      rw [insert_index_size, hsame.maxSize]
      exact hslot
    slots := by
      rw [hsame.maxSize]
      exact Z.slots
    below := by
      rw [hsame.array, hsame.maxSize, hsame.start]
      exact Z.below
    order := by
      rw [hsame.start, hsame.stop]
      exact Z.order
    stop := by
      rw [hsame.stop]
      exact Z.stop
    pages := by
      rw [hsame.start, hsame.stop]
      exact Z.pages }

/-- The highest hole gets the new room. -/
theorem Top.grow (T : Top s h z) (hlt : s.heap.start + newSz < 2 ^ 32)
    (hnew : newSz = s.heap.stop - s.heap.start + growth size)
    (hkeep : ∀ x, s.heap.index.array ≤ x → x < s.heap.stop → m x = s.mem x) :
    Top (growHole (widened s m newSz) (s.heap.stop - s.heap.start) s.heap.stop) h
      (z + growth size) := by
  have hindex := T.index
  have hslots := T.slots
  have hbelow := T.below
  have horder := T.order
  have habove := T.above
  have hheader := T.header
  have hinside := T.inside
  have hgrowth := growth_spec size
  have hholes := @widened_holes s m newSz T.toSized hkeep
  obtain ⟨i, hhigh⟩ := @highestHole_some (widened s m newSz) h
    (by rw [hholes]; exact T.listed) (by omega) (by rw [hholes]; exact T.highest)
  rw [growHole_of_highest hhigh, widened_sub hlt hnew]
  have hmem : (widened s m newSz).mem = m := rfl
  rw [hmem]
  have hz : hdrSize m h = z :=
    (hdrSize_congr fun x h1 h2 => hkeep x (by omega) (by omega)).trans T.size
  have hmod : (hdrSize m h + growth size) % 2 ^ 32 = z + growth size := by
    rw [hz]
    exact Nat.mod_eq_of_lt (by omega)
  -- below the hole nothing changes, so the index is what it was
  have hsame : St.holes ⟨stretch m h (growth size), (widened s m newSz).heap⟩ = s.holes := by
    refine Eq.trans (OrdArr.elems_congr fun x _ h2 => ?_) hholes
    have h2' : x < s.heap.index.array + 4 * s.heap.index.size := h2
    exact stretch_apply (Or.inl (by omega)) (Or.inl (by omega)) (by omega)
  have hwidened := @Sized.widened s size m newSz T.toSized hlt hnew
  refine ⟨hwidened.congr rfl, ?_, ?_, habove, ?_, ?_, ?_⟩
  · rw [hsame]
    exact T.listed
  · rw [hsame]
    exact T.highest
  · show h + 12 ≤ (widened s m newSz).heap.stop
    rw [widened_stop hlt]
    omega
  · have htag : hdrSize (stretch m h (growth size)) h
        = hdrSize (setSize (setMagic m h) h (z + growth size)) h := by
      rw [stretch, hmod]
      exact rd32_congr fun x h1 h2 => putFooter_apply (by omega)
    exact htag.trans (hdrSize_setSize (by omega))
  · show h + (z + growth size) ≤ (widened s m newSz).heap.stop
    rw [widened_stop hlt]
    omega

/-- Without a hole the new room becomes one. -/
theorem Sized.grow (Z : Sized s) (hnone : s.holes = []) (hlt : s.heap.start + newSz < 2 ^ 32)
    (hnew : newSz = s.heap.stop - s.heap.start + growth size)
    (hkeep : ∀ x, s.heap.index.array ≤ x → x < s.heap.stop → m x = s.mem x) :
    Top (growHole (Heap.widened s m newSz) (s.heap.stop - s.heap.start) s.heap.stop) s.heap.stop
      (growth size) := by
  have hslots := Z.slots
  have hbelow := Z.below
  have horder := Z.order
  have hgrowth := growth_spec size
  have hholes := @widened_holes s m newSz Z hkeep
  have hindex : s.heap.index.size = 0 := by
    rw [← OrdArr.length_elems s.mem s.heap.index]
    exact List.length_eq_zero_iff.mpr hnone
  rw [growHole, highestHole_none (hholes.trans hnone)]
  simp only [widened_sub hlt hnew]
  rw [hdrSize_putHeader (by omega), footerSz]
  obtain ⟨m', hm'⟩ : ∃ m', m' = putFooter (putHeader (Heap.widened s m newSz).mem s.heap.stop
    (growth size) 1 0) (s.heap.stop + growth size - 8) s.heap.stop := ⟨_, rfl⟩
  rw [← hm']
  have hroom : Room ⟨m', (Heap.widened s m newSz).heap⟩ 1 := by
    show s.heap.index.array + 4 * (s.heap.index.size + 1) ≤ s.heap.start
    omega
  have hempty : St.holes ⟨m', (Heap.widened s m newSz).heap⟩ = [] := by
    have hlen : (St.holes ⟨m', (Heap.widened s m newSz).heap⟩).length = s.heap.index.size :=
      OrdArr.length_elems ..
    exact List.eq_nil_of_length_eq_zero (hlen.trans hindex)
  have hstop : (Heap.widened s m newSz).heap.stop = s.heap.start + newSz := widened_stop hlt
  have hlisted := @insert_holes ⟨m', (Heap.widened s m newSz).heap⟩ s.heap.stop Z.stop
  rw [hempty] at hlisted
  have hsame := insert_same ⟨m', (Heap.widened s m newSz).heap⟩ s.heap.stop
  have hwidened : Sized ⟨m', (Heap.widened s m newSz).heap⟩ :=
    (@Sized.widened s size m newSz Z hlt hnew).congr rfl
  have hstart' : (St.insert ⟨m', (Heap.widened s m newSz).heap⟩ s.heap.stop).heap.start
      = s.heap.start := hsame.start
  have hstop' : (St.insert ⟨m', (Heap.widened s m newSz).heap⟩ s.heap.stop).heap.stop
      = s.heap.start + newSz := hsame.stop.trans hstop
  refine ⟨hwidened.insert ?_ s.heap.stop, ?_, ?_, ?_, ?_, ?_, ?_⟩
  · show s.heap.index.size < s.heap.index.maxSize
    omega
  · exact hlisted.symm.subset List.mem_cons_self
  · intro b hb
    exact Nat.le_of_eq (List.mem_singleton.mp (hlisted.subset hb))
  · rw [hstart']
    exact horder
  · rw [hstop']
    omega
  · have hkept : hdrSize (St.insert ⟨m', (Heap.widened s m newSz).heap⟩ s.heap.stop).mem s.heap.stop
        = hdrSize m' s.heap.stop := hdrSize_congr fun x h1 _ =>
      insert_mem hroom (show s.heap.start ≤ x by omega)
    have htag : hdrSize m' s.heap.stop = hdrSize (putHeader (Heap.widened s m newSz).mem s.heap.stop
        (growth size) 1 0) s.heap.stop := by
      rw [hm']
      exact hdrSize_congr fun x h1 h2 => putFooter_apply (by omega)
    exact hkept.trans (htag.trans (hdrSize_putHeader (by omega)))
  · rw [hstop']
    omega

end Grow

/-! ## Whole calls -/

theorem Stops.mono {r : AllocEnd × List Nat} {k l : Nat} (h : Stops r k) (hle : k ≤ l) :
    Stops r l := ⟨h.1, Nat.le_trans h.2 hle⟩

theorem Stops.succ {r : AllocEnd × List Nat} {k newSz : Nat} (h : Stops r k) :
    Stops (match r with | (e, sizes) => (e, newSz :: sizes)) (k + 1) := by
  obtain ⟨e, sizes⟩ := r
  exact ⟨h.1, Nat.succ_le_succ h.2⟩

/-- With the highest hole `k` expansions away from holding the request, the call
stops after as many. -/
theorem Top.stops (T : Top s h z) (hsize : size + 20 < 2 ^ 32)
    (halign : align = 0 ∨ align = pageBits) {k : Nat}
    (hneed : need align h (size + 20) ≤ z + k * growth size) (hk : k < n)
    (hwrap : ∀ newSz ∈ (allocRun M n s size align).2, s.heap.start + newSz < 2 ^ 32) :
    Stops (allocRun M n s size align) k := by
  induction k generalizing s z n with
  | zero =>
      obtain ⟨n, rfl⟩ := Nat.exists_eq_succ_of_ne_zero (Nat.ne_of_gt hk)
      rcases allocRun_cases T.toSized hsize halign n with hstop | ⟨hnone, -⟩
      · exact hstop
      · rw [Nat.zero_mul, Nat.add_zero] at hneed
        exact absurd hnone (T.find halign hneed)
  | succ k ih =>
      obtain ⟨n, rfl⟩ := Nat.exists_eq_succ_of_ne_zero (Nat.ne_of_gt (Nat.zero_lt_of_lt hk))
      rcases allocRun_cases T.toSized hsize halign n with
        hstop | ⟨-, newSz, m, hnew, hkeep, heq⟩
      · exact hstop.mono (Nat.zero_le _)
      rw [heq] at hwrap ⊢
      have T' := T.grow (hwrap newSz List.mem_cons_self) hnew hkeep
      refine (ih T' ?_ (Nat.lt_of_succ_lt_succ hk) fun x hx => ?_).succ
      · rw [Nat.succ_mul] at hneed
        omega
      · rw [(growHole_same _ _ _).start]
        exact hwrap x (List.mem_cons_of_mem _ hx)

/-- On the heap of a process, a call of `vmem_heap_alloc` ends in
`vmem_heap_expand`, or it returns after one expansion, or three for a page. -/
theorem allocRun_stops (M : Mapper) {s : St} (H : ProcessHeap s) {size align n : Nat}
    (hsize : size + 20 < 2 ^ 32) (halign : align = 0 ∨ align = pageBits) (hn : rounds align < n)
    (hwrap : ∀ newSz ∈ (allocRun M n s size align).2, s.heap.start + newSz < 2 ^ 32) :
    Stops (allocRun M n s size align) (rounds align) := by
  by_cases hholes : s.holes = []
  · obtain ⟨k, hk⟩ : ∃ k, rounds align = k + 1 := by
      unfold rounds
      split
      · exact ⟨0, rfl⟩
      · exact ⟨2, rfl⟩
    obtain ⟨n, rfl⟩ := Nat.exists_eq_succ_of_ne_zero (Nat.ne_of_gt (Nat.zero_lt_of_lt hn))
    rcases allocRun_cases H.toSized hsize halign n with
      hstop | ⟨-, newSz, m, hnew, hkeep, heq⟩
    · exact hstop.mono (Nat.zero_le _)
    have hneed := need_le align s.heap.stop size
    rw [heq] at hwrap ⊢
    rw [hk, Nat.succ_mul] at hneed
    rw [hk] at hn ⊢
    have T := H.toSized.grow hholes (hwrap newSz List.mem_cons_self) hnew hkeep
    refine (T.stops hsize halign (by omega) (Nat.lt_of_succ_lt_succ hn) fun x hx => ?_).succ
    rw [(growHole_same _ _ _).start]
    exact hwrap x (List.mem_cons_of_mem _ hx)
  · obtain ⟨h, z, T⟩ := H.top hholes
    exact T.stops hsize halign (Nat.le_trans (need_le align h size) (Nat.le_add_left _ _)) hn hwrap

theorem processHeap_pageHeap : ProcessHeap pageHeap where
  index := by decide
  slots := by decide
  below := by decide
  order := by decide
  stop := by decide
  pages := by decide
  user := rfl
  holes := by
    have hholes : pageHeap.holes = [0x2000] := by decide +kernel
    have hsize : hdrSize pageHeap.mem 0x2000 = 0x1000 := by decide +kernel
    intro h hh
    rw [hholes, List.mem_singleton] at hh
    rw [hh, hsize]
    decide

theorem allocRun_stops_pageHeap :
    Stops (allocRun samePages.mapper 4 pageHeap 5000 pageBits) (rounds pageBits) :=
  allocRun_stops samePages.mapper processHeap_pageHeap (by decide) (Or.inr rfl) (by decide)
    (by decide +kernel)

/-- The size of the heap wraps with this request, and the first assertion of
`vmem_heap_expand` fails. -/
theorem allocRun_noGrowth : ProcessHeap pageHeap ∧ 0xffffffeb + 20 < 2 ^ 32
    ∧ ∀ n p s, (allocRun samePages.mapper n pageHeap 0xffffffeb 0).1 ≠ .pastMax
      ∧ (allocRun samePages.mapper n pageHeap 0xffffffeb 0).1 ≠ .returned p s := by
  refine ⟨processHeap_pageHeap, by decide, fun n p s => ?_⟩
  cases n with
  | zero => exact ⟨nofun, nofun⟩
  | succ n =>
      have hnone : holeFind pageHeap (realSize 0xffffffeb) 0 = none := by decide +kernel
      have hgrow : pageUp ((sub32 pageHeap.heap.stop pageHeap.heap.start + realSize 0xffffffeb)
          % 2 ^ 32) ≤ sub32 pageHeap.heap.stop pageHeap.heap.start := by decide
      rw [allocRun, hnone]
      dsimp only
      rw [if_pos hgrow]
      exact ⟨nofun, nofun⟩

end Heap

end Shitos
