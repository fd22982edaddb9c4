import Shitos.HeapInv

/-!
# Freeing a segment

`vmem_heap_free` in its three phases: the segment becomes a hole, it is
joined with a hole on its left, and with one on its right. Between the
phases the heap is `Segmented` but two neighbours may both be holes; the
specification of each phase says which segments are left and what the index
lists. `free_spec` puts them together: the result is well formed again,
provided that a segment freed between two allocated ones finds a free slot
in the index.
-/

namespace Shitos

namespace Heap

/-- The allocated segments. -/
def liveSegs (segs : List Seg) : List Seg := segs.filter fun g => !g.hole

theorem liveSegs_append (l₁ l₂ : List Seg) :
    liveSegs (l₁ ++ l₂) = liveSegs l₁ ++ liveSegs l₂ := List.filter_append ..

theorem liveSegs_cons (g : Seg) (l : List Seg) :
    liveSegs (g :: l) = if g.hole then liveSegs l else g :: liveSegs l := by
  rw [liveSegs, List.filter_cons]
  cases g.hole <;> rfl

theorem mem_liveSegs {segs : List Seg} {g : Seg} :
    g ∈ liveSegs segs ↔ g ∈ segs ∧ g.hole = false := by
  rw [liveSegs, List.mem_filter, Bool.not_eq_true']

/-- The words around the heap that `free` takes for tags of neighbours do
not look like tags. -/
structure Quiet (s : St) : Prop where
  low : 8 ≤ s.heap.start
  below : tagMagic s.mem (sub32 s.heap.start footerSz) ≠ magic
  atEnd : tagMagic s.mem s.heap.stop ≠ magic

theorem toNat_ne_zero {b : Bool} : b.toNat ≠ 0 ↔ b = true := by cases b <;> decide

/-! ## The segment becomes a hole -/

theorem Tagged.setHole {m : Mem} {g : Seg} (h : Tagged m g) (hg : 20 ≤ g.size) :
    Tagged (setAlign (Heap.setHole m g.addr 1) g.addr 0) ⟨g.addr, g.size, true⟩ where
  magic := by
    simp only [tagMagic, setAlign, Heap.setHole]
    rw [rd32_wr8_of_disjoint (by omega), rd32_wr8_of_disjoint (by omega)]
    exact h.magic
  hole := by
    simp only [hdrHole, setAlign, Heap.setHole]
    rw [rd8_wr8_of_ne (by omega)]
    exact rd8_wr8_same _ (by decide)
  size := by
    simp only [hdrSize, setAlign, Heap.setHole]
    rw [rd32_wr8_of_disjoint (by omega), rd32_wr8_of_disjoint (by omega)]
    exact h.size
  ftrMagic := by
    simp only [tagMagic, setAlign, Heap.setHole]
    rw [rd32_wr8_of_disjoint (by omega), rd32_wr8_of_disjoint (by omega)]
    exact h.ftrMagic
  ftrHdr := by
    simp only [Heap.ftrHdr, setAlign, Heap.setHole]
    rw [rd32_wr8_of_disjoint (by omega), rd32_wr8_of_disjoint (by omega)]
    exact h.ftrHdr

theorem setHole_apply {m : Mem} {p x : Nat} (hx : x < p ∨ p + 12 ≤ x) :
    setAlign (setHole m p 1) p 0 x = m x := by
  simp only [setAlign, setHole]
  rw [wr8_apply_of_ne (by omega), wr8_apply_of_ne (by omega)]

/-! ## Two holes become one -/

/-- The memory after the header of `h` and the footer of its right neighbour
`g` have been made the tags of one segment. -/
def mergeMem (m : Mem) (h g : Seg) : Mem :=
  setFtrHdr (setSize m h.addr (h.size + g.size)) (g.addr + g.size - 8) h.addr

theorem mergeMem_apply {m : Mem} {h g : Seg} (h20 : 20 ≤ h.size) (g20 : 20 ≤ g.size)
    (hnext : h.addr + h.size = g.addr) {x : Nat} (hx : x < h.addr ∨ g.addr + g.size ≤ x) :
    mergeMem m h g x = m x := by
  simp only [mergeMem, setFtrHdr, setSize]
  rw [wr32_apply_of_ne (by omega), wr32_apply_of_ne (by omega)]

/-- The first of two neighbours keeps its kind and gets the room of both. -/
theorem Tagged.join {m : Mem} {h g : Seg} (hh : Tagged m h) (hg : Tagged m g)
    (h20 : 20 ≤ h.size) (g20 : 20 ≤ g.size) (hnext : h.addr + h.size = g.addr)
    (hend : g.addr + g.size < 2 ^ 32) :
    Tagged (mergeMem m h g) ⟨h.addr, h.size + g.size, h.hole⟩ where
  magic := by
    simp only [tagMagic, mergeMem, setFtrHdr, setSize]
    rw [rd32_wr32_of_disjoint (by omega), rd32_wr32_of_disjoint (by omega)]
    exact hh.magic
  hole := by
    simp only [hdrHole, mergeMem, setFtrHdr, setSize]
    rw [rd8_wr32_of_disjoint (by omega), rd8_wr32_of_disjoint (by omega)]
    exact hh.hole
  size := by
    simp only [hdrSize, mergeMem, setFtrHdr, setSize]
    rw [rd32_wr32_of_disjoint (by omega), rd32_wr32_same _ (by omega)]
  ftrMagic := by
    simp only [tagMagic, mergeMem, setFtrHdr, setSize]
    rw [show h.addr + (h.size + g.size) - 8 = g.addr + g.size - 8 by omega,
      rd32_wr32_of_disjoint (by omega), rd32_wr32_of_disjoint (by omega)]
    exact hg.ftrMagic
  ftrHdr := by
    simp only [Heap.ftrHdr, mergeMem, setFtrHdr, setSize]
    rw [show h.addr + (h.size + g.size) - 8 = g.addr + g.size - 8 by omega,
      rd32_wr32_same _ (by omega)]

/-- Neighbours in a segmented heap, joined. -/
theorem Segmented.join {s : St} {l₁ l₂ : List Seg} {h g : Seg}
    (S : Segmented s (l₁ ++ h :: g :: l₂)) (hstop : s.heap.stop < 2 ^ 32) :
    h.addr + h.size = g.addr ∧ Segmented ⟨mergeMem s.mem h g, s.heap⟩
      (l₁ ++ ⟨h.addr, h.size + g.size, h.hole⟩ :: l₂) := by
  obtain ⟨h₁, hpos, hrest⟩ := tiles_split.mp S.tiles
  obtain ⟨hnext, hgpos, h₂⟩ := hrest
  have hmemh : h ∈ l₁ ++ h :: g :: l₂ := List.mem_append_right _ List.mem_cons_self
  have hmemg : g ∈ l₁ ++ h :: g :: l₂ :=
    List.mem_append_right _ (List.mem_cons_of_mem _ List.mem_cons_self)
  have h20 := S.min h hmemh
  have g20 := S.min g hmemg
  have hb := S.tiles.bounds hmemg
  refine ⟨hnext.symm, ?_⟩
  refine @Segmented.splice s _ l₁ [h, g] [_] l₂ h.addr (h.addr + h.size + g.size) S
    (SameHeap.of_mem s _) ⟨rfl, hpos, hnext, hgpos, rfl⟩ (List.cons_ne_nil _ _)
    ⟨rfl, by simp only; omega, ?_⟩ (fun x hx => ?_) (fun x hx => ?_) fun x _ hx => ?_
  · simp only [Tiles]; omega
  · rw [List.mem_singleton.mp hx]
    simp only; omega
  · rw [List.mem_singleton.mp hx]
    exact (S.tagged h hmemh).join (S.tagged g hmemg) h20 g20 hnext.symm (by omega)
  · exact mergeMem_apply h20 g20 hnext.symm (by omega)

theorem Segmented.merge {s : St} {l₁ l₂ : List Seg} {h g : Seg}
    (S : Segmented s (l₁ ++ h :: g :: l₂)) (hhole : h.hole = true)
    (hstop : s.heap.stop < 2 ^ 32) : h.addr + h.size = g.addr
      ∧ Segmented ⟨mergeMem s.mem h g, s.heap⟩ (l₁ ++ ⟨h.addr, h.size + g.size, true⟩ :: l₂) := by
  rw [← hhole]
  exact S.join hstop

/-! ## The left neighbour -/

theorem leftHole_iff {s : St} {l : List Seg} {h g : Seg} {l₂ : List Seg}
    (S : Segmented s (l ++ h :: g :: l₂)) : sub32 g.addr footerSz = h.addr + h.size - 8
      ∧ (LeftHole s.mem g.addr ↔ h.hole = true) := by
  obtain ⟨-, hpos, hrest⟩ := tiles_split.mp S.tiles
  have hmemh : h ∈ l ++ h :: g :: l₂ := List.mem_append_right _ List.mem_cons_self
  have hmemg : g ∈ l ++ h :: g :: l₂ :=
    List.mem_append_right _ (List.mem_cons_of_mem _ List.mem_cons_self)
  have h20 := S.min h hmemh
  have hb := S.tiles.bounds hmemg
  have hnext := hrest.1
  have htag := S.tagged h hmemh
  have haddr : sub32 g.addr footerSz = h.addr + h.size - 8 := by
    rw [footerSz, sub32_of_le (by omega), hnext]
  refine ⟨haddr, ?_⟩
  rw [LeftHole, haddr, htag.ftrMagic, htag.ftrHdr, htag.hole, toNat_ne_zero]
  exact and_iff_right rfl

/-- The left test only looks at the segment before. -/
theorem leftHole_congr {s s' : St} {l₁ l₂ : List Seg} {g g' : Seg}
    (S : Segmented s (l₁ ++ g :: l₂)) (S' : Segmented s' (l₁ ++ g' :: l₂)) (hq : Quiet s)
    (hq' : Quiet s') : LeftHole s.mem g.addr ↔ LeftHole s'.mem g'.addr := by
  rcases List.eq_nil_or_concat l₁ with rfl | ⟨l, h, rfl⟩
  · have haddr : g.addr = s.heap.start := S.tiles.1
    have haddr' : g'.addr = s'.heap.start := S'.tiles.1
    rw [haddr, haddr']
    exact iff_of_false (fun hl => hq.below hl.1) fun hl => hq'.below hl.1
  · rw [List.concat_eq_append, List.append_assoc, List.singleton_append] at S S'
    rw [(leftHole_iff S).2, (leftHole_iff S').2]

/-- The outcome of the left phase: `g'` ends where `g` did, and is listed
exactly if it did not have to be added. -/
structure LeftDone (s : St) (l₁ : List Seg) (g : Seg) (l₂ : List Seg) (m : Mem)
    (l₁' : List Seg) (g' : Seg) (add : Bool) : Prop where
  segmented : Segmented ⟨m, s.heap⟩ (l₁' ++ g' :: l₂)
  hole : g'.hole = true
  stop : g'.addr + g'.size = g.addr + g.size
  le : g'.addr ≤ g.addr
  apart : (l₁' ++ [g']).IsChain Apart
  listed : (holeAddrs l₁).Perm (holeAddrs l₁' ++ if add then [] else [g'.addr])
  live : liveSegs l₁' = liveSegs l₁
  frame : ∀ x, x < g'.addr ∨ g.addr + g.size ≤ x → m x = s.mem x

theorem unifyLeft_spec {s : St} {l₁ l₂ : List Seg} {g : Seg}
    (S : Segmented s (l₁ ++ g :: l₂)) (hhole : g.hole = true) (hchain : l₁.IsChain Apart)
    (hstop : s.heap.stop < 2 ^ 32) (hfirst : l₁ = [] → ¬LeftHole s.mem g.addr) :
    ∃ m l₁' g' add, unifyLeft s.mem g.addr (g.addr + g.size - 8) = (m, g'.addr, add)
      ∧ add = decide (¬LeftHole s.mem g.addr) ∧ LeftDone s l₁ g l₂ m l₁' g' add := by
  -- no merge: everything stays as it is
  have hstay : ¬LeftHole s.mem g.addr → (l₁ ++ [g]).IsChain Apart →
      ∃ m l₁' g' add, unifyLeft s.mem g.addr (g.addr + g.size - 8) = (m, g'.addr, add)
        ∧ add = decide (¬LeftHole s.mem g.addr) ∧ LeftDone s l₁ g l₂ m l₁' g' add := by
    intro hno hc
    refine ⟨s.mem, l₁, g, true, ?_, by simp only [hno, not_false_eq_true, decide_true], S, hhole,
      rfl, Nat.le_refl _, hc, ?_, rfl, fun _ _ => rfl⟩
    · rw [unifyLeft, if_neg hno]
    · simp only [if_true, List.append_nil]
      exact List.Perm.refl _
  rcases List.eq_nil_or_concat l₁ with rfl | ⟨l, h, rfl⟩
  · exact hstay (hfirst rfl) (List.isChain_singleton _)
  · rw [List.concat_eq_append, List.append_assoc, List.singleton_append] at S
    rw [List.concat_eq_append] at hchain hstay
    obtain ⟨haddr, hiff⟩ := leftHole_iff S
    have hmemh : h ∈ l ++ h :: g :: l₂ := List.mem_append_right _ List.mem_cons_self
    have hmemg : g ∈ l ++ h :: g :: l₂ :=
      List.mem_append_right _ (List.mem_cons_of_mem _ List.mem_cons_self)
    by_cases hh : h.hole = true
    · have hleft := hiff.mpr hh
      obtain ⟨hnext, hS⟩ := S.merge hh hstop
      have htag := S.tagged h hmemh
      have hb := S.tiles.bounds hmemg
      have h20 := S.min h hmemh
      have g20 := S.min g hmemg
      refine ⟨mergeMem s.mem h g, l, ⟨h.addr, h.size + g.size, true⟩, false, ?_,
        by simp only [hleft, not_true_eq_false, decide_false], hS, rfl, by simp only; omega,
        by simp only; omega, ?_, ?_, ?_, fun x hx => mergeMem_apply h20 g20 hnext hx⟩
      · rw [unifyLeft, if_pos hleft, haddr, htag.ftrHdr]
        simp only
        rw [htag.size, (S.tagged g hmemg).size, Nat.mod_eq_of_lt (by omega)]
        rfl
      · rw [List.isChain_append] at hchain ⊢
        refine ⟨hchain.1, List.isChain_singleton _, fun x hx y hy hap => ?_⟩
        cases hy
        exact hchain.2.2 x hx h rfl ⟨hap.1, hh⟩
      · rw [List.concat_eq_append, holeAddrs_append, holeAddrs_cons, if_pos hh]
        exact List.Perm.refl _
      · rw [List.concat_eq_append, liveSegs_append, liveSegs_cons, if_pos hh]
        exact (List.append_nil _).symm
    · rw [List.concat_eq_append]
      refine hstay (fun hl => hh (hiff.mp hl)) ?_
      rw [List.isChain_append]
      refine ⟨hchain, List.isChain_singleton _, fun x hx y _ => Apart.of_not_left ?_⟩
      rw [List.getLast?_concat] at hx
      cases hx
      exact Bool.eq_false_iff.mpr hh

/-! ## The right neighbour -/

theorem rightHole_iff {s : St} {l₁ t : List Seg} {g r : Seg}
    (S : Segmented s (l₁ ++ g :: r :: t)) :
    RightHole s.mem (g.addr + g.size) ↔ r.hole = true := by
  obtain ⟨-, -, hrest⟩ := tiles_split.mp S.tiles
  have hmem : r ∈ l₁ ++ g :: r :: t :=
    List.mem_append_right _ (List.mem_cons_of_mem _ List.mem_cons_self)
  have htag := S.tagged r hmem
  rw [RightHole, ← hrest.1, htag.magic, htag.hole, toNat_ne_zero]
  exact and_iff_right rfl

/-- The outcome of the right phase: `g'` starts where `g` does, and the
headers in `gone` are no longer listed. -/
structure RightDone (s : St) (l₁ : List Seg) (g : Seg) (l₂ : List Seg) (s' : St) (g' : Seg)
    (l₂' : List Seg) (gone : List Nat) : Prop where
  segmented : Segmented s' (l₁ ++ g' :: l₂')
  hole : g'.hole = true
  addr : g'.addr = g.addr
  le : g.addr + g.size ≤ g'.addr + g'.size
  apart : (g' :: l₂').IsChain Apart
  same : SameHeap s s'
  holes : (gone ++ s'.holes).Perm s.holes
  listed : holeAddrs l₂ = gone ++ holeAddrs l₂'
  size : s'.heap.index.size + gone.length = s.heap.index.size
  merged : RightHole s.mem (g.addr + g.size) → gone.length = 1
  live : liveSegs l₂' = liveSegs l₂
  frame : ∀ x, s.heap.start ≤ x → x < g.addr ∨ g'.addr + g'.size ≤ x → s'.mem x = s.mem x

theorem unifyRight_spec {s : St} {l₁ l₂ : List Seg} {g : Seg}
    (S : Segmented s (l₁ ++ g :: l₂)) (hhole : g.hole = true) (hchain : l₂.IsChain Apart)
    (hstop : s.heap.stop < 2 ^ 32) (hlast : l₂ = [] → ¬RightHole s.mem (g.addr + g.size))
    (hroom : Room s 0) (hlisted : ∀ a ∈ holeAddrs l₂, a ∈ s.holes) :
    ∃ s' g' l₂' gone, unifyRight s g.addr (g.addr + g.size - 8) = some s'
      ∧ RightDone s l₁ g l₂ s' g' l₂' gone := by
  have hmemg : g ∈ l₁ ++ g :: l₂ := List.mem_append_right _ List.mem_cons_self
  have g20 := S.min g hmemg
  have hrhdr : g.addr + g.size - 8 + footerSz = g.addr + g.size := by rw [footerSz]; omega
  have hstay : ¬RightHole s.mem (g.addr + g.size) → (g :: l₂).IsChain Apart →
      ∃ s' g' l₂' gone, unifyRight s g.addr (g.addr + g.size - 8) = some s'
        ∧ RightDone s l₁ g l₂ s' g' l₂' gone := by
    intro hno hc
    refine ⟨s, g, l₂, [], ?_, S, hhole, rfl, Nat.le_refl _, hc, SameHeap.refl s,
      List.Perm.refl _, rfl, rfl, fun h => absurd h hno, rfl, fun _ _ _ => rfl⟩
    rw [unifyRight, hrhdr]
    exact if_neg hno
  cases l₂ with
  | nil =>
      exact hstay (hlast rfl) (List.isChain_singleton _)
  | cons r t =>
      have hiff := rightHole_iff S
      have hmemr : r ∈ l₁ ++ g :: r :: t :=
        List.mem_append_right _ (List.mem_cons_of_mem _ List.mem_cons_self)
      rw [List.isChain_cons] at hchain
      by_cases hr : r.hole = true
      · have hright := hiff.mpr hr
        obtain ⟨hnext, hS⟩ := S.merge hhole hstop
        have r20 := S.min r hmemr
        have hbg := S.tiles.bounds hmemg
        have hbr := S.tiles.bounds hmemr
        -- the merged state, in which the index still lists `r`
        have hlow : ∀ x < s.heap.start, mergeMem s.mem g r x = s.mem x := fun x hx =>
          mergeMem_apply g20 r20 hnext (Or.inl (by omega))
        have hholes : St.holes ⟨mergeMem s.mem g r, s.heap⟩ = s.holes :=
          holes_of_low rfl hroom hlow
        have hin : r.addr ∈ St.holes ⟨mergeMem s.mem g r, s.heap⟩ := by
          rw [hholes]
          refine hlisted _ ?_
          rw [holeAddrs_cons, if_pos hr]
          exact List.mem_cons_self
        obtain ⟨i, hi, hindex, helem⟩ := OrdArr.index_of_mem hin
        obtain ⟨s', hrem, hsame, hsize, hperm, hkeep⟩ :=
          @remove_spec ⟨mergeMem s.mem g r, s.heap⟩ i hi
        have hkeep' : ∀ x, s.heap.start ≤ x → s'.mem x = mergeMem s.mem g r x := fun x hx =>
          hkeep x (by unfold Room at hroom; simp only; omega)
        have hrsize : hdrSize (setSize s.mem g.addr (g.size + r.size)) r.addr = r.size := by
          rw [← (S.tagged r hmemr).size]
          exact rd32_wr32_of_disjoint (by omega)
        refine ⟨s', ⟨g.addr, g.size + r.size, true⟩, t, [r.addr], ?_, ?_, rfl, rfl,
          by simp only; omega, ?_, (SameHeap.of_mem s _).trans hsame, ?_, ?_, hsize,
          fun _ => rfl, ?_, fun x h1 h2 => ?_⟩
        · rw [unifyRight, hrhdr, if_pos hright, hnext]
          simp only [(S.tagged g hmemg).size, (S.tagged r hmemr).size]
          rw [Nat.mod_eq_of_lt (by omega), hrsize]
          show ((s.heap.index.index (mergeMem s.mem g r) r.addr).bind fun idx =>
            St.remove ⟨mergeMem s.mem g r, s.heap⟩ idx) = some s'
          rw [hindex, Option.bind_some, hrem]
        · exact hS.of_low hsame hkeep'
        · rw [List.isChain_cons]
          refine ⟨fun y hy hap => hchain.1 y hy ⟨hr, hap.2⟩, hchain.2⟩
        · rw [← hholes, ← helem]
          exact hperm
        · rw [holeAddrs_cons, if_pos hr, List.singleton_append]
        · rw [liveSegs_cons, if_pos hr]
        · rw [hkeep' x h1]
          refine mergeMem_apply g20 r20 hnext ?_
          simp only at h2
          omega
      · refine hstay (fun h => hr (hiff.mp h)) ?_
        rw [List.isChain_cons, List.isChain_cons]
        refine ⟨fun y hy => Apart.of_not_right ?_, hchain⟩
        cases hy
        exact Bool.eq_false_iff.mpr hr

/-! ## The whole operation -/

/-- The outcome of freeing `g`: one hole in its place, reaching over the
holes that were beside it. -/
structure Freed (s : St) (l₁ : List Seg) (g : Seg) (l₂ : List Seg) (s' : St)
    (l₁' : List Seg) (g' : Seg) (l₂' : List Seg) : Prop where
  wellFormed : WellFormed s' (l₁' ++ g' :: l₂')
  hole : g'.hole = true
  left : liveSegs l₁' = liveSegs l₁
  right : liveSegs l₂' = liveSegs l₂
  same : SameHeap s s'
  room : Room s' 0
  frame : ∀ x, s.heap.start ≤ x → x < g'.addr ∨ g'.addr + g'.size ≤ x → s'.mem x = s.mem x

/-- A free that leaves one more hole in the index than there was. -/
def AddsHole (s : St) (p : Nat) : Prop :=
  ¬LeftHole s.mem (p - 12) ∧ ¬RightHole s.mem (p - 12 + hdrSize s.mem (p - 12))

instance (s : St) (p : Nat) : Decidable (AddsHole s p) := inferInstanceAs (Decidable (_ ∧ _))

/-- The state in which `g` has become a hole that the index does not list. -/
def markHole (s : St) (g : Seg) : St := ⟨setAlign (setHole s.mem g.addr 1) g.addr 0, s.heap⟩

theorem markHole_mem {s : St} {g : Seg} {x : Nat} (hx : x < g.addr ∨ g.addr + 12 ≤ x) :
    (markHole s g).mem x = s.mem x := setHole_apply hx

theorem markHole_segmented {s : St} {l₁ l₂ : List Seg} {g : Seg}
    (S : Segmented s (l₁ ++ g :: l₂)) :
    Segmented (markHole s g) (l₁ ++ ⟨g.addr, g.size, true⟩ :: l₂) := by
  have hmem : g ∈ l₁ ++ g :: l₂ := List.mem_append_right _ List.mem_cons_self
  have g20 := S.min g hmem
  refine @Segmented.splice s _ l₁ [g] [_] l₂ g.addr (g.addr + g.size) S
    (SameHeap.of_mem s _) ⟨rfl, by omega, rfl⟩ (List.cons_ne_nil _ _)
    ⟨rfl, by simp only; omega, rfl⟩ (fun x hx => ?_) (fun x hx => ?_)
    fun x _ hx => markHole_mem (by omega)
  · rw [List.mem_singleton.mp hx]
    exact g20
  · rw [List.mem_singleton.mp hx]
    exact (S.tagged g hmem).setHole g20

/-- The words around the heap are not inside a segment. -/
theorem Quiet.of_frame {s s' : St} (hq : Quiet s) (hsame : SameHeap s s') {a b : Nat}
    (ha : s.heap.start ≤ a) (hb : b ≤ s.heap.stop)
    (hmem : ∀ x, x < a ∨ b ≤ x → s'.mem x = s.mem x) : Quiet s' := by
  refine ⟨by rw [hsame.start]; exact hq.low, ?_, ?_⟩
  · rw [hsame.start]
    have heq : tagMagic s'.mem (sub32 s.heap.start footerSz)
        = tagMagic s.mem (sub32 s.heap.start footerSz) := by
      refine rd32_congr fun x h1 h2 => hmem x ?_
      have hlow := hq.low
      rw [footerSz, sub32_of_le hlow] at h1 h2
      omega
    rw [heq]
    exact hq.below
  · rw [hsame.stop]
    have heq : tagMagic s'.mem s.heap.stop = tagMagic s.mem s.heap.stop :=
      rd32_congr fun x h1 _ => hmem x (by omega)
    rw [heq]
    exact hq.atEnd

/-- `vmem_heap_free` on an allocated segment passes its assertions. -/
theorem free_live {s : St} {g : Seg} (htag : Tagged s.mem g) (hlive : g.hole = false)
    (hend : g.addr + 12 < 2 ^ 32) {m : Mem} {hdr : Nat} {add : Bool}
    (hleft : unifyLeft (markHole s g).mem g.addr (g.addr + g.size - 8) = (m, hdr, add)) :
    free s (g.addr + 12) = (unifyRight ⟨m, s.heap⟩ hdr (g.addr + g.size - 8)).map fun s' =>
      if add then s'.insert hdr else s' := by
  have hhdr : sub32 (g.addr + 12) headerSz = g.addr := by
    rw [headerSz, sub32_of_le (Nat.le_add_left ..), Nat.add_sub_cancel]
  have hpass : tagMagic s.mem g.addr = magic ∧ tagMagic s.mem (g.addr + g.size - 8) = magic
      ∧ hdrHole s.mem g.addr = 0 := ⟨htag.magic, htag.ftrMagic, by rw [htag.hole, hlive]; rfl⟩
  simp only [free, hhdr, htag.size, footerSz]
  rw [if_neg (by omega), if_pos hpass]
  rw [markHole] at hleft
  simp only [hleft, Option.map_eq_bind]
  rfl

theorem free_eq {s : St} {g : Seg} (htag : Tagged s.mem g) (hlive : g.hole = false)
    (hend : g.addr + 12 < 2 ^ 32) {m : Mem} {hdr : Nat} {add : Bool} {s' : St}
    (hleft : unifyLeft (markHole s g).mem g.addr (g.addr + g.size - 8) = (m, hdr, add))
    (hright : unifyRight ⟨m, s.heap⟩ hdr (g.addr + g.size - 8) = some s') :
    free s (g.addr + 12) = some (if add then s'.insert hdr else s') := by
  rw [free_live htag hlive hend hleft, hright, Option.map_some]

/-- What `free` makes of the segment `g` before the index is told: `g₂` reaches over a
hole on the left, `g₃` also over one on the right, and `add` says whether `g₃` is
still to be listed. -/
structure Phases (s : St) (l₁ : List Seg) (g : Seg) (l₂ : List Seg) (m₂ : Mem) (l₁' : List Seg)
    (g₂ : Seg) (add : Bool) (s₃ : St) (g₃ : Seg) (l₂' : List Seg) (gone : List Nat) : Prop where
  left : unifyLeft (markHole s g).mem g.addr (g.addr + g.size - 8) = (m₂, g₂.addr, add)
  adds : add = decide (¬LeftHole (markHole s g).mem g.addr)
  leftDone : LeftDone (markHole s g) l₁ ⟨g.addr, g.size, true⟩ l₂ m₂ l₁' g₂ add
  right : unifyRight ⟨m₂, s.heap⟩ g₂.addr (g.addr + g.size - 8) = some s₃
  rightDone : RightDone ⟨m₂, s.heap⟩ l₁' g₂ l₂ s₃ g₃ l₂' gone

section Phases

variable {s : St} {l₁ l₂ : List Seg} {g : Seg}

theorem markHole_quiet (S : Segmented s (l₁ ++ g :: l₂)) (hquiet : Quiet s) :
    Quiet (markHole s g) := by
  have hmem : g ∈ l₁ ++ g :: l₂ := List.mem_append_right _ List.mem_cons_self
  have hb := S.tiles.bounds hmem
  have g20 := S.min g hmem
  exact hquiet.of_frame (SameHeap.of_mem s _) hb.1 hb.2 fun x hx => markHole_mem (by omega)

/-- The holes of a heap in which `g` is allocated. -/
theorem WellFormed.listed_around (W : WellFormed s (l₁ ++ g :: l₂)) (hlive : g.hole = false) :
    s.holes.Perm (holeAddrs l₁ ++ holeAddrs l₂) := by
  have hlist := W.listed
  rw [holeAddrs_append, holeAddrs_cons, if_neg (by rw [hlive]; decide)] at hlist
  exact hlist

/-- Where `free` looks outside of the heap, for a neighbour of the first or of the last
segment, it finds no hole. -/
structure Calm (s : St) (l₁ : List Seg) (g : Seg) (l₂ : List Seg) : Prop where
  first : l₁ = [] → ¬LeftHole (markHole s g).mem g.addr
  last : l₂ = [] → ¬RightHole s.mem (g.addr + g.size)

theorem Quiet.calm (hquiet : Quiet s) (S : Segmented s (l₁ ++ g :: l₂)) : Calm s l₁ g l₂ where
  first := by
    rintro rfl hl
    have hstart : g.addr = s.heap.start := S.tiles.1
    refine (markHole_quiet S hquiet).below ?_
    show tagMagic (markHole s g).mem (sub32 s.heap.start footerSz) = magic
    rw [← hstart]
    exact hl.1
  last := by
    rintro rfl hr
    obtain ⟨-, -, hlast⟩ := tiles_split.mp S.tiles
    refine hquiet.atEnd ?_
    rw [← show g.addr + g.size = s.heap.stop from hlast]
    exact hr.1

/-- A block that becomes one more hole finds a slot for it. -/
def FreeSlot (s : St) (g : Seg) : Prop :=
  ¬LeftHole (markHole s g).mem g.addr → ¬RightHole s.mem (g.addr + g.size) → Room s 1

theorem Quiet.freeSlot (hquiet : Quiet s) (S : Segmented s (l₁ ++ g :: l₂))
    (hslot : AddsHole s (g.addr + 12) → Room s 1) : FreeSlot s g := by
  intro hl hr
  have hmem : g ∈ l₁ ++ g :: l₂ := List.mem_append_right _ List.mem_cons_self
  refine hslot ⟨?_, ?_⟩
  · rw [Nat.add_sub_cancel, leftHole_congr S (markHole_segmented S) hquiet (markHole_quiet S hquiet)]
    exact hl
  · rw [Nat.add_sub_cancel, (S.tagged g hmem).size]
    exact hr

theorem free_phases (W : WellFormed s (l₁ ++ g :: l₂)) (hroom : Room s 0)
    (hstop : s.heap.stop < 2 ^ 32) (hcalm : Calm s l₁ g l₂) (hlive : g.hole = false) :
    ∃ m₂ l₁' g₂ add s₃ g₃ l₂' gone, Phases s l₁ g l₂ m₂ l₁' g₂ add s₃ g₃ l₂' gone := by
  have hmem : g ∈ l₁ ++ g :: l₂ := List.mem_append_right _ List.mem_cons_self
  have g20 := W.min g hmem
  have hb := W.tiles.bounds hmem
  obtain ⟨hchain₁, hchain₂, -⟩ := List.isChain_append.mp W.apart
  rw [List.isChain_cons] at hchain₂
  have S₁ := markHole_segmented W.toSegmented
  obtain ⟨m₂, l₁', g₂, add, hleft, hadd, hL⟩ :=
    unifyLeft_spec S₁ rfl hchain₁ hstop hcalm.first
  have hstop₂ : g₂.addr + g₂.size = g.addr + g.size := hL.stop
  have hkeep₂ : ∀ x, x < g₂.addr ∨ g.addr + g.size ≤ x → m₂ x = s.mem x := fun x hx => by
    have hle : g₂.addr ≤ g.addr := hL.le
    rw [hL.frame x hx, markHole_mem (by omega)]
  have hlow₂ : s.heap.start ≤ g₂.addr := by
    have hmem₂ : g₂ ∈ l₁' ++ g₂ :: l₂ := List.mem_append_right _ List.mem_cons_self
    exact (hL.segmented.tiles.bounds hmem₂).1
  have hholes₂ : St.holes ⟨m₂, s.heap⟩ = s.holes :=
    holes_of_low rfl hroom fun x hx => hkeep₂ x (Or.inl (by omega))
  have hlast : l₂ = [] → ¬RightHole m₂ (g₂.addr + g₂.size) := by
    rw [hstop₂]
    rintro hnil ⟨hmagic, hhole⟩
    refine hcalm.last hnil ⟨?_, ?_⟩
    · exact Eq.trans (rd32_congr fun x h1 _ => (hkeep₂ x (Or.inr h1)).symm) hmagic
    · have heq : hdrHole s.mem (g.addr + g.size) = hdrHole m₂ (g.addr + g.size) := by
        rw [hdrHole, hdrHole, rd8, rd8, hkeep₂ _ (by omega)]
      rw [heq]
      exact hhole
  obtain ⟨s₃, g₃, l₂', gone, hright, hR⟩ :=
    @unifyRight_spec ⟨m₂, s.heap⟩ l₁' l₂ g₂ hL.segmented hL.hole hchain₂.2 hstop hlast hroom
      (fun a ha => by
        rw [hholes₂]
        exact (W.listed_around hlive).symm.subset (List.mem_append_right _ ha))
  rw [hstop₂] at hright
  exact ⟨m₂, l₁', g₂, add, s₃, g₃, l₂', gone, hleft, hadd, hL, hright, hR⟩

variable {m₂ : Mem} {l₁' l₂' : List Seg} {g₂ g₃ : Seg} {add : Bool} {s₃ : St} {gone : List Nat}

theorem Phases.same (h : Phases s l₁ g l₂ m₂ l₁' g₂ add s₃ g₃ l₂' gone) : SameHeap s s₃ :=
  (SameHeap.of_mem s m₂).trans h.rightDone.same

theorem Phases.stop (h : Phases s l₁ g l₂ m₂ l₁' g₂ add s₃ g₃ l₂' gone) :
    g₂.addr ≤ g.addr ∧ g₂.addr + g₂.size = g.addr + g.size := ⟨h.leftDone.le, h.leftDone.stop⟩

/-- The left phase writes nothing in front of `g₂` and nothing behind `g`. -/
theorem Phases.mem_left (h : Phases s l₁ g l₂ m₂ l₁' g₂ add s₃ g₃ l₂' gone) (g20 : 20 ≤ g.size)
    {x : Nat} (hx : x < g₂.addr ∨ g.addr + g.size ≤ x) : m₂ x = s.mem x := by
  obtain ⟨hle, -⟩ := h.stop
  rw [h.leftDone.frame x hx, markHole_mem (by omega)]

theorem Phases.mem (h : Phases s l₁ g l₂ m₂ l₁' g₂ add s₃ g₃ l₂' gone) (g20 : 20 ≤ g.size)
    {x : Nat} (hlow : s.heap.start ≤ x) (hx : x < g₃.addr ∨ g₃.addr + g₃.size ≤ x) :
    s₃.mem x = s.mem x := by
  obtain ⟨-, hstop⟩ := h.stop
  have haddr := h.rightDone.addr
  have hreach := h.rightDone.le
  rw [h.rightDone.frame x hlow (by omega)]
  exact h.mem_left g20 (by omega)

theorem Phases.low (h : Phases s l₁ g l₂ m₂ l₁' g₂ add s₃ g₃ l₂' gone) :
    s.heap.start ≤ g₂.addr := by
  have hmem : g₂ ∈ l₁' ++ g₂ :: l₂ := List.mem_append_right _ List.mem_cons_self
  exact (h.leftDone.segmented.tiles.bounds hmem).1

theorem Phases.holes_left (h : Phases s l₁ g l₂ m₂ l₁' g₂ add s₃ g₃ l₂' gone) (hroom : Room s 0)
    (g20 : 20 ≤ g.size) : St.holes ⟨m₂, s.heap⟩ = s.holes :=
  holes_of_low rfl hroom fun x hx => h.mem_left g20 (Or.inl (by have := h.low; omega))

/-- What the index lists between the phases and the end. -/
theorem Phases.listed (h : Phases s l₁ g l₂ m₂ l₁' g₂ add s₃ g₃ l₂' gone)
    (W : WellFormed s (l₁ ++ g :: l₂)) (hroom : Room s 0) (hlive : g.hole = false) :
    s₃.holes.Perm (holeAddrs l₁ ++ holeAddrs l₂') := by
  have g20 := W.min g (List.mem_append_right _ List.mem_cons_self)
  have hperm := h.rightDone.holes.trans (by rw [h.holes_left hroom g20])
  have htarget : (gone ++ s₃.holes).Perm (gone ++ (holeAddrs l₁ ++ holeAddrs l₂')) := by
    refine (hperm.trans (W.listed_around hlive)).trans ?_
    rw [h.rightDone.listed, ← List.append_assoc, ← List.append_assoc]
    exact (List.perm_append_comm).append_right _
  exact (List.perm_append_left_iff gone).mp htarget

theorem Phases.apart (h : Phases s l₁ g l₂ m₂ l₁' g₂ add s₃ g₃ l₂' gone) :
    (l₁' ++ g₃ :: l₂').IsChain Apart := by
  obtain ⟨hc₁, -, hlast⟩ := List.isChain_append.mp h.leftDone.apart
  refine List.isChain_append.mpr ⟨hc₁, h.rightDone.apart, fun x hx y hy hap => ?_⟩
  cases hy
  exact hlast x hx g₂ rfl ⟨hap.1, h.leftDone.hole⟩

theorem Phases.call (h : Phases s l₁ g l₂ m₂ l₁' g₂ add s₃ g₃ l₂' gone)
    (W : WellFormed s (l₁ ++ g :: l₂)) (hstop : s.heap.stop < 2 ^ 32) (hlive : g.hole = false) :
    free s (g.addr + 12) = some (if add then s₃.insert g₂.addr else s₃) := by
  have hmem : g ∈ l₁ ++ g :: l₂ := List.mem_append_right _ List.mem_cons_self
  have hb := W.tiles.bounds hmem
  have g20 := W.min g hmem
  exact free_eq (W.tagged g hmem) hlive (by omega) h.left h.right

theorem Phases.room (h : Phases s l₁ g l₂ m₂ l₁' g₂ add s₃ g₃ l₂' gone) {n : Nat}
    (hroom : Room s n) : Room s₃ (n + gone.length) := by
  have hsize : s₃.heap.index.size + gone.length = s.heap.index.size := h.rightDone.size
  unfold Room at hroom ⊢
  rw [h.same.array, h.same.start]
  omega

/-- The test on the right reads what was there before. -/
theorem Phases.rightHole_iff (h : Phases s l₁ g l₂ m₂ l₁' g₂ add s₃ g₃ l₂' gone)
    (g20 : 20 ≤ g.size) :
    RightHole m₂ (g.addr + g.size) ↔ RightHole s.mem (g.addr + g.size) := by
  have hmagic : tagMagic m₂ (g.addr + g.size) = tagMagic s.mem (g.addr + g.size) :=
    rd32_congr fun x h1 _ => h.mem_left g20 (Or.inr h1)
  have hhole : hdrHole m₂ (g.addr + g.size) = hdrHole s.mem (g.addr + g.size) := by
    rw [hdrHole, hdrHole, rd8, rd8, h.mem_left g20 (by omega)]
  rw [RightHole, RightHole, hmagic, hhole]

/-- The slot for a hole that is still to be listed: that of the hole on the right, or
a free one. -/
theorem Phases.room_insert (h : Phases s l₁ g l₂ m₂ l₁' g₂ add s₃ g₃ l₂' gone)
    (hroom : Room s 0) (g20 : 20 ≤ g.size) (hadd : add = true) (hslot : FreeSlot s g) :
    Room s₃ 1 := by
  by_cases hr : RightHole s.mem (g.addr + g.size)
  · have hone := h.rightDone.merged (by rw [h.stop.2]; exact (h.rightHole_iff g20).mpr hr)
    have hroom₃ := h.room hroom
    rw [hone] at hroom₃
    exact hroom₃
  · have hroom₃ := h.room (hslot (of_decide_eq_true (h.adds.symm.trans hadd)) hr)
    unfold Room at hroom₃ ⊢
    omega

theorem Phases.freed (h : Phases s l₁ g l₂ m₂ l₁' g₂ add s₃ g₃ l₂' gone)
    (W : WellFormed s (l₁ ++ g :: l₂)) (hroom : Room s 0) (hstop : s.heap.stop < 2 ^ 32)
    (hlive : g.hole = false) (hslot : FreeSlot s g) :
    Freed s l₁ g l₂ (if add then s₃.insert g₂.addr else s₃) l₁' g₃ l₂' := by
  have hmem : g ∈ l₁ ++ g :: l₂ := List.mem_append_right _ List.mem_cons_self
  have g20 := W.min g hmem
  have hb := W.tiles.bounds hmem
  have hlisted := h.listed W hroom hlive
  have hroom₃ := h.room hroom
  have hnew : holeAddrs (l₁' ++ g₃ :: l₂') = holeAddrs l₁' ++ g₂.addr :: holeAddrs l₂' := by
    rw [holeAddrs_append, holeAddrs_cons, if_pos h.rightDone.hole, h.rightDone.addr]
  have hl := h.leftDone.listed
  cases hadd : add with
  | false =>
      rw [hadd] at hl
      refine ⟨⟨h.rightDone.segmented, h.apart, ?_⟩, h.rightDone.hole, h.leftDone.live,
        h.rightDone.live, h.same, ?_, fun x h1 h2 => h.mem g20 h1 h2⟩
      · rw [hnew]
        simp only [Bool.false_eq_true, if_false] at hl ⊢
        refine (hlisted.trans (hl.append_right _)).trans ?_
        rw [List.append_assoc, List.singleton_append]
      · unfold Room at hroom₃ ⊢
        simp only [Bool.false_eq_true, if_false]
        omega
  | true =>
      have hroom₁ : Room s₃ 1 := h.room_insert hroom g20 hadd hslot
      rw [hadd] at hl
      have hlt : g₂.addr < 2 ^ 32 := by
        have := h.stop
        omega
      have hins := insert_same s₃ g₂.addr
      have hmem₃ : ∀ x, s.heap.start ≤ x → (s₃.insert g₂.addr).mem x = s₃.mem x := fun x hx =>
        insert_mem hroom₁ (by rw [h.same.start]; exact hx)
      refine ⟨⟨h.rightDone.segmented.of_low hins fun x hx => ?_, h.apart, ?_⟩, h.rightDone.hole,
        h.leftDone.live, h.rightDone.live, h.same.trans hins, ?_, fun x h1 h2 => ?_⟩
      · exact hmem₃ x (by rw [h.same.start] at hx; exact hx)
      · rw [hnew]
        simp only [if_true, List.append_nil] at hl
        refine (insert_holes hlt).trans (((hlisted.trans (hl.append_right _)).cons _).trans ?_)
        exact List.perm_middle.symm
      · unfold Room at hroom₁ ⊢
        simp only [if_true]
        rw [hins.array, hins.start, insert_index_size]
        omega
      · simp only [if_true]
        rw [hmem₃ x h1, h.mem g20 h1 h2]

end Phases

theorem free_spec {s : St} {l₁ l₂ : List Seg} {g : Seg} (W : WellFormed s (l₁ ++ g :: l₂))
    (hroom : Room s 0) (hstop : s.heap.stop < 2 ^ 32) (hquiet : Quiet s)
    (hlive : g.hole = false) (hslot : AddsHole s (g.addr + 12) → Room s 1) :
    ∃ s' l₁' g' l₂', free s (g.addr + 12) = some s' ∧ Freed s l₁ g l₂ s' l₁' g' l₂' := by
  obtain ⟨m₂, l₁', g₂, add, s₃, g₃, l₂', gone, h⟩ :=
    free_phases W hroom hstop (hquiet.calm W.toSegmented) hlive
  exact ⟨_, l₁', g₃, l₂', h.call W hstop hlive,
    h.freed W hroom hstop hlive (hquiet.freeSlot W.toSegmented hslot)⟩

end Heap

end Shitos
