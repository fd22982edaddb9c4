import Shitos.HeapRealloc

/-!
# Moving a block

The last resort of `vmem_heap_realloc`: a new block, a copy of the old payload in it,
and a free of the old block. `Moved` is the heap between the two, in which both blocks
are allocated. The free then needs what any free needs: a slot in the index for a hole
that is not joined to another one, and for the first block no word in front of the heap
that is taken for the footer of a hole (`MoveFits`).
-/

namespace Shitos

namespace Heap

/-! ## Around a hole that is carved -/

/-- The last segment is a hole. -/
def HoleLast (l : List Seg) : Prop := ∃ h ∈ l.getLast?, h.hole = true

instance (l : List Seg) : Decidable (HoleLast l) :=
  match h : l.getLast? with
  | none => isFalse fun ⟨x, hx, _⟩ => by rw [h] at hx; exact nomatch hx
  | some x => decidable_of_iff (x.hole = true)
      ⟨fun hx => ⟨x, h, hx⟩, fun ⟨y, hy, hhole⟩ => by rw [h] at hy; cases hy; exact hhole⟩

theorem not_holeLast_nil : ¬HoleLast [] := fun ⟨_, h, _⟩ => nomatch h

theorem holeLast_append_cons {l₁ l₂ : List Seg} {x : Seg} :
    HoleLast (l₁ ++ x :: l₂) ↔ HoleLast (x :: l₂) := by
  have hlast : (l₁ ++ x :: l₂).getLast? = (x :: l₂).getLast? := by
    rw [List.getLast?_append, List.getLast?_cons, Option.some_or]
  rw [HoleLast, HoleLast, hlast]

theorem holeLast_carve {h : Seg} {n : Nat} : HoleLast (carve h n) ↔ 20 ≤ h.size - n := by
  unfold carve
  split
  · refine iff_of_false ?_ (by omega)
    rintro ⟨x, hx, hhole⟩
    cases hx
    exact nomatch hhole
  · exact iff_of_true ⟨_, rfl, rfl⟩ (by omega)

/-- A block in a list in which another segment, a hole, is carved. -/
theorem carve_around {l₁ l₂ l₃ l₄ : List Seg} {g r h : Seg} {n : Nat}
    (hsegs : l₁ ++ g :: r :: l₃ = l₂ ++ h :: l₄) (hg : g.hole = false) (hr : r.hole = false)
    (hh : h.hole = true) (hn : n ≤ h.size) : ∃ l₁' l₃' k,
      l₂ ++ (carve h n ++ l₄) = l₁' ++ g :: r :: l₃' ∧ (l₁' = [] ↔ l₁ = [])
      ∧ k ∈ carve h n ∧ k.hole = false ∧ k.addr = h.addr ∧ n ≤ k.size
      ∧ (liveSegs l₁' ++ liveSegs (r :: l₃')).Perm (k :: (liveSegs l₁ ++ liveSegs (r :: l₃)))
      ∧ (20 ≤ h.size - n → (HoleLast l₁' ↔ HoleLast l₁)) := by
  obtain ⟨k, hk, haddr, hsize⟩ := liveSegs_carve hn
  have hmem : k ∈ liveSegs (carve h n) := by rw [hk]; exact List.mem_singleton.mpr rfl
  obtain ⟨hkmem, hlive⟩ := mem_liveSegs.mp hmem
  have hgh : g ≠ h := fun heq => by rw [heq, hh] at hg; exact nomatch hg
  have hrh : r ≠ h := fun heq => by rw [heq, hh] at hr; exact nomatch hr
  have hcarve : ∃ x t, carve h n = x :: t := by
    unfold carve
    split
    · exact ⟨_, _, rfl⟩
    · exact ⟨_, _, rfl⟩
  rcases List.append_eq_append_iff.mp hsegs with ⟨u, rfl, hu⟩ | ⟨u, rfl, hu⟩
  · -- the hole lies behind the block
    rcases u with _ | ⟨x, _ | ⟨y, u⟩⟩ <;>
      simp only [List.nil_append, List.cons_append, List.cons.injEq] at hu
    · exact absurd hu.1 hgh
    · exact absurd hu.2.1 hrh
    · obtain ⟨rfl, rfl, rfl⟩ := hu
      refine ⟨l₁, u ++ (carve h n ++ l₄), k, ?_, Iff.rfl, hkmem, hlive, haddr, hsize, ?_,
        fun _ => Iff.rfl⟩
      · simp only [List.append_assoc, List.cons_append]
      · simp only [liveSegs_cons, hr, liveSegs_append, hk, hh, if_true, Bool.false_eq_true,
          if_false]
        have hassoc : liveSegs l₁ ++ r :: (liveSegs u ++ liveSegs l₄)
            = (liveSegs l₁ ++ r :: liveSegs u) ++ liveSegs l₄ := by
          rw [← List.cons_append, List.append_assoc]
        rw [hassoc, List.singleton_append, ← List.cons_append, ← List.append_assoc]
        exact List.perm_middle
  · -- the hole lies in front of it
    rcases u with _ | ⟨x, u⟩ <;>
      simp only [List.nil_append, List.cons_append, List.cons.injEq] at hu
    · exact absurd hu.1.symm hgh
    · obtain ⟨rfl, rfl⟩ := hu
      refine ⟨l₂ ++ (carve h n ++ u), l₃, k, ?_, ?_, hkmem, hlive, haddr, hsize, ?_,
        fun hrest => ?_⟩
      · simp only [List.append_assoc]
      · obtain ⟨x, t, hx⟩ := hcarve
        rw [hx]
        simp
      · simp only [liveSegs_cons, liveSegs_append, hk, hh, if_true, List.append_assoc]
        exact List.perm_middle
      · cases u with
        | nil =>
            obtain ⟨x, t, hx⟩ := hcarve
            rw [List.append_nil, hx, holeLast_append_cons, ← hx, holeLast_carve,
              holeLast_append_cons]
            exact iff_of_true hrest ⟨h, rfl, hh⟩
        | cons y u =>
            rw [← List.append_assoc, holeLast_append_cons, List.append_cons,
              holeLast_append_cons]

/-! ## The heap with both blocks -/

section Payload

variable {s : St} {segs : List Seg} {k : Seg}

/-- A change inside a payload leaves the heap as it is. -/
theorem WellFormed.payload (W : WellFormed s segs) (hroom : Room s 0) (hk : k ∈ segs) {m : Mem}
    (hm : ∀ x, x < k.addr + 12 ∨ k.addr + k.size ≤ x + 8 → m x = s.mem x) :
    WellFormed ⟨m, s.heap⟩ segs := by
  have hlow := (W.tiles.bounds hk).1
  refine ⟨⟨W.tiles, W.min, fun b hb => ?_⟩, W.apart, ?_⟩
  · have b20 := W.min b hb
    refine (W.tagged b hb).congr_tags (fun x hx => hm x ?_) b20
    rcases Decidable.em (k = b) with rfl | hne
    · omega
    · have hd := W.tiles.disjoint hk hb hne
      omega
  · have hholes : St.holes ⟨m, s.heap⟩ = s.holes :=
      holes_of_low rfl hroom fun x hx => hm x (Or.inl (by omega))
    rw [hholes]
    exact W.listed

/-- How many holes the index lists. -/
theorem WellFormed.length_holes (W : WellFormed s segs) :
    s.heap.index.size = (holeAddrs segs).length := by
  rw [← W.listed.length_eq]
  exact (OrdArr.length_elems _ _).symm

end Payload

/-- The hole that serves `n` bytes is used up. -/
def UsesUp (s : St) (n : Nat) : Prop :=
  ∃ i, holeFind s n 0 = some i ∧ hdrSize s.mem (s.heap.index.elem s.mem i) < n + 20

/-- Where the block is cut from. -/
theorem allocHole_addr {s t : St} {segs : List Seg} (W : WellFormed s segs) {i n q : Nat}
    (h20 : 20 ≤ n) (hfind : holeFind s n 0 = some i) (h : allocHole s i n 0 = some (q, t)) :
    q = s.heap.index.elem s.mem i + 12 := by
  obtain ⟨hi, hfit⟩ := holeFind_spec hfind
  obtain ⟨g, hg, -, haddr⟩ := mem_holeAddrs.mp (W.listed.subset (OrdArr.elem_mem hi))
  obtain ⟨s₁, hrem, hsame, -⟩ := remove_spec hi
  have hb := (W.tiles.bounds hg).2
  have hstop : s.heap.index.elem s.mem i + hdrSize s.mem (s.heap.index.elem s.mem i)
      ≤ s₁.heap.stop := by
    rw [hsame.stop, ← haddr, (W.tagged g hg).size]
    exact hb
  have hget : s.get i = some (s.heap.index.elem s.mem i) := if_pos hi
  rw [allocHole_eq hget hrem rfl hfit h20 hstop] at h
  exact (congrArg Prod.fst (Option.some.inj h)).symm

/-- Only the hole and the index are written. -/
theorem allocHole_beside {s t : St} {segs : List Seg} (W : WellFormed s segs) (hP : Placed s)
    {i n q x : Nat} (h20 : 20 ≤ n) (hfind : holeFind s n 0 = some i)
    (h : allocHole s i n 0 = some (q, t)) (hx : Beside s x) : t.mem x = s.mem x := by
  obtain ⟨hi, hfit⟩ := holeFind_spec hfind
  obtain ⟨g, hg, -, haddr⟩ := mem_holeAddrs.mp (W.listed.subset (OrdArr.elem_mem hi))
  obtain ⟨s₁, hrem, hsame, hsize, -⟩ := remove_spec hi
  have hoff := hx.off W hP hg
  have hb := (W.tiles.bounds hg).2
  have hmax := hP.size
  have hget : s.get i = some g.addr := by
    rw [haddr]
    exact if_pos hi
  rw [← haddr, (W.tagged g hg).size] at hfit
  have hcarve : carveMem s₁.mem g.addr g.size n x = s.mem x := by
    rw [carveMem_apply h20 hfit hoff]
    exact hx.remove hP hrem
  rw [allocHole_eq hget hrem (W.tagged g hg).size hfit h20 (by rw [hsame.stop]; exact hb)] at h
  obtain ⟨-, rfl⟩ := Prod.mk.inj (Option.some.inj h)
  split
  · exact hcarve
  · have hx' : Beside ⟨carveMem s₁.mem g.addr g.size n, s₁.heap⟩ x := hsame.beside.mpr hx
    rw [hx'.insert (by dsimp only; rw [hsame.maxSize]; omega)]
    exact hcarve

/-- The heap after the new block `k` has been allocated and filled, with the old block
`g` still in place. -/
structure Moved (s : St) (l₁ : List Seg) (g r : Seg) (l₃ : List Seg) (n q : Nat) (t : St)
    (l₁' l₃' : List Seg) (k : Seg) : Prop where
  wellFormed : WellFormed t (l₁' ++ g :: r :: l₃')
  same : SameHeap s t
  size : t.heap.index.size ≤ s.heap.index.size
  first : l₁' = [] ↔ l₁ = []
  hole : k.hole = false
  pointer : q = k.addr + 12
  enough : n ≤ k.size
  live : (liveSegs l₁' ++ liveSegs (r :: l₃')).Perm (k :: (liveSegs l₁ ++ liveSegs (r :: l₃)))
  data : ∀ x < g.size - 20, t.mem (q + x) = s.mem (g.addr + 12 + x)
  frame : ∀ b ∈ liveSegs l₁ ++ liveSegs (r :: l₃), ∀ x, b.addr ≤ x → x < b.addr + b.size →
    t.mem x = s.mem x
  beside : ∀ x, Beside s x → t.mem x = s.mem x
  slot : HoleLast l₁' ∨ t.heap.index.size < t.heap.index.maxSize ↔
    HoleLast l₁ ∨ UsesUp s n ∨ s.heap.index.size < s.heap.index.maxSize

section Move

variable {P : Pages} {s s' t : St} {l₁ l₃ l₁' l₃' : List Seg} {g r k : Seg} {n q : Nat}

theorem moveOut_spec (W : WellFormed s (l₁ ++ g :: r :: l₃)) (hP : Placed s)
    (hlive : g.hole = false) (hr : r.hole = false) (halign : hdrAlign s.mem g.addr = 0)
    (hn : g.size < n) (hlt : n < 2 ^ 32)
    (hmove : moveOut P 1 s (g.addr + 12) g.addr n = some (q, t)) :
    ∃ l₁' l₃' k, Moved s l₁ g r l₃ n q t l₁' l₃' k := by
  have hgmem : g ∈ l₁ ++ g :: r :: l₃ := List.mem_append_right _ List.mem_cons_self
  have g20 := W.min g hgmem
  have hgb := W.tiles.bounds hgmem
  have hstop := hP.stop
  have hreq : sub32 (sub32 n headerSz) footerSz = n - 20 := by
    have hinner : sub32 n headerSz = n - 12 := sub32_of_le (by unfold headerSz; omega)
    rw [hinner, footerSz, sub32_of_le (by omega)]
    omega
  have hreal : realSize (n - 20) = n := by
    unfold realSize headerSz footerSz
    rw [Nat.mod_eq_of_lt (by omega)]
    omega
  unfold moveOut at hmove
  rw [hreq, halign] at hmove
  obtain ⟨⟨q', s₁⟩, halloc, hcopy⟩ := Option.bind_eq_some_iff.mp hmove
  rw [alloc, hreal] at halloc
  split at halloc
  case h_2 =>
    -- the call does not expand the heap
    obtain ⟨s₂, -, hnone⟩ := Option.bind_eq_some_iff.mp halloc
    cases hnone
  case h_1 i hfind =>
  obtain ⟨l₂, h, l₄, s₁', hsegs, hh, hfit, hserve, C⟩ :=
    allocHole_spec W hP.room hstop (by omega) hfind
  have haddr := allocHole_addr W (by omega) hfind hserve
  have hbeside := fun x hx => allocHole_beside (x := x) W hP (by omega) hfind hserve hx
  rw [halloc] at hserve
  obtain ⟨rfl, rfl⟩ := Prod.mk.inj (Option.some.inj hserve)
  obtain ⟨l₁', l₃', k, hsegs', hfirst, hkmem, hk, hkaddr, hksize, hperm, hlast⟩ :=
    carve_around hsegs hlive hr hh hfit
  have W₁ := C.wellFormed
  have hlen := W.length_holes
  have hlen₁ := W₁.length_holes
  rw [hsegs, holeAddrs_append, holeAddrs_cons, if_pos hh] at hlen
  rw [holeAddrs_append, holeAddrs_append, holeAddrs_carve] at hlen₁
  simp only [List.length_append, List.length_cons] at hlen hlen₁
  have hhmem : h ∈ l₁ ++ g :: r :: l₃ := by
    rw [hsegs]
    exact List.mem_append_right _ List.mem_cons_self
  have hhsize : hdrSize s.mem h.addr = h.size := (W.tagged h hhmem).size
  have hhb := W.tiles.bounds hhmem
  -- a block is outside of the hole
  have hoff : ∀ b ∈ l₁ ++ g :: r :: l₃, b.hole = false → s.heap.start ≤ b.addr
      ∧ (b.addr + b.size ≤ h.addr ∨ h.addr + h.size ≤ b.addr) := fun b hb hbl =>
    ⟨(W.tiles.bounds hb).1, W.tiles.disjoint hb hhmem fun heq => by
      rw [heq, hh] at hbl
      cases hbl⟩
  have hkeep : ∀ b ∈ l₁ ++ g :: r :: l₃, b.hole = false → ∀ x, b.addr ≤ x →
      x < b.addr + b.size → s₁.mem x = s.mem x := fun b hb hbl x h1 h2 => by
    obtain ⟨hlow, hd⟩ := hoff b hb hbl
    exact C.frame x (by omega) (by omega)
  have hgsize : hdrSize s₁.mem g.addr = g.size :=
    ((W.tagged g hgmem).congr g20 fun x h1 h2 => hkeep g hgmem hlive x h1 h2).size
  have hcount : sub32 (sub32 (hdrSize s₁.mem g.addr) headerSz) footerSz = g.size - 20 := by
    have hinner : sub32 g.size headerSz = g.size - 12 := sub32_of_le (by unfold headerSz; omega)
    rw [hgsize, hinner, footerSz, sub32_of_le (by omega)]
    omega
  dsimp only at hcopy
  rw [hcount] at hcopy
  obtain ⟨rfl, rfl⟩ := Prod.mk.inj (Option.some.inj hcopy)
  have hkmem₁ : k ∈ l₂ ++ (carve h n ++ l₄) :=
    List.mem_append_right _ (List.mem_append_left _ hkmem)
  have hroom₁ : Room s₁ 0 := by
    have hroom := hP.room
    have hle := C.size_le
    unfold Room at hroom ⊢
    rw [C.same.array, C.same.start]
    omega
  -- the copy stays inside the new payload
  have hcopied : ∀ b ∈ l₁ ++ g :: r :: l₃, b.hole = false → ∀ x, b.addr ≤ x →
      x < b.addr + b.size →
      copy s₁.mem (h.addr + 12) s₁.mem (g.addr + 12) (g.size - 20) x = s.mem x :=
    fun b hb hbl x h1 h2 => by
      obtain ⟨-, hd⟩ := hoff b hb hbl
      rw [copy_apply_of_not (by omega), hkeep b hb hbl x h1 h2]
  refine ⟨l₁', l₃', k, ?_, C.same.trans (SameHeap.of_mem s₁ _), C.size_le, hfirst, hk, by rw [hkaddr],
    hksize, hperm, ?_, ?_, fun x hx => ?_, ?_⟩
  · rw [← hsegs']
    exact W₁.payload hroom₁ hkmem₁ fun x hx => copy_apply_of_not (by omega)
  · intro x hx
    dsimp only
    rw [copy_apply (by omega) (by omega), Nat.add_sub_cancel_left]
    exact hkeep g hgmem hlive _ (by omega) (by omega)
  · intro b hb
    rw [← liveSegs_append] at hb
    obtain ⟨hb, hbl⟩ := mem_liveSegs.mp hb
    refine hcopied b ?_ hbl
    rcases List.mem_append.mp hb with hb | hb
    · exact List.mem_append_left _ hb
    · exact List.mem_append_right _ (List.mem_cons_of_mem _ hb)
  · have hoffh := hx.off W hP hhmem
    dsimp only
    rw [copy_apply_of_not (by omega), hbeside x hx]
  · have hmax := hP.size
    dsimp only
    rw [C.same.maxSize]
    by_cases hrest : h.size - n < 20
    · -- the hole is used up: its slot is free
      rw [if_pos hrest, List.length_nil] at hlen₁
      refine iff_of_true (Or.inr (by omega)) (Or.inr (Or.inl ⟨i, hfind, ?_⟩))
      rw [← Nat.add_right_cancel haddr, hhsize]
      omega
    · rw [if_neg hrest, List.length_singleton] at hlen₁
      have hnot : ¬UsesUp s n := by
        rintro ⟨j, hj, hless⟩
        obtain rfl := Option.some.inj (hfind.symm.trans hj)
        rw [← Nat.add_right_cancel haddr, hhsize] at hless
        omega
      rw [hlast (by omega), or_iff_right hnot, show s₁.heap.index.size = s.heap.index.size by omega]

/-! ## The free of the old block -/

/-- What `free` takes for a hole in front of a block that is not the first one. -/
theorem leftHole_last {l₂ : List Seg} (S : Segmented t (l₁ ++ g :: l₂)) (hne : l₁ ≠ []) :
    LeftHole (markHole t g).mem g.addr ↔ HoleLast l₁ := by
  rcases List.eq_nil_or_concat' l₁ with hnil | ⟨l, h, rfl⟩
  · exact absurd hnil hne
  have S₁ := markHole_segmented S
  rw [List.append_assoc, List.singleton_append] at S₁
  rw [(leftHole_iff S₁).2, holeLast_append_cons]
  refine ⟨fun hh => ⟨h, rfl, hh⟩, fun ⟨x, hx, hh⟩ => ?_⟩
  cases hx
  exact hh

theorem joinsLeft_iff (t : St) (g : Seg) :
    JoinsLeft t (g.addr + 12) ↔ LeftHole (markHole t g).mem g.addr := by
  have hhdr : sub32 (g.addr + 12) headerSz = g.addr := by
    rw [headerSz, sub32_of_le (Nat.le_add_left ..), Nat.add_sub_cancel]
  rw [JoinsLeft, hhdr]
  rfl

theorem joinsRight_iff {l₂ : List Seg} (W : WellFormed t (l₁ ++ g :: l₂))
    (hleft : ¬JoinsLeft t (g.addr + 12)) :
    JoinsRight t (g.addr + 12) ↔ RightHole t.mem (g.addr + g.size) := by
  have hgmem : g ∈ l₁ ++ g :: l₂ := List.mem_append_right _ List.mem_cons_self
  have g20 := W.min g hgmem
  have hhdr : sub32 (g.addr + 12) headerSz = g.addr := by
    rw [headerSz, sub32_of_le (Nat.le_add_left ..), Nat.add_sub_cancel]
  have hno : ¬LeftHole (markMem t g.addr) g.addr := (joinsLeft_iff t g).not.mp hleft
  have hunify : ∀ f, (unifyLeft (markMem t g.addr) g.addr f).1 = (markHole t g).mem := fun f => by
    rw [unifyLeft, if_neg hno]
    rfl
  have hnext : g.addr + g.size - 8 + 8 = g.addr + g.size := by omega
  have hmagic : tagMagic (markHole t g).mem (g.addr + g.size) = tagMagic t.mem (g.addr + g.size) :=
    rd32_congr fun x h1 _ => markHole_mem (by omega)
  have hhole : hdrHole (markHole t g).mem (g.addr + g.size) = hdrHole t.mem (g.addr + g.size) := by
    rw [hdrHole, hdrHole, rd8, rd8, markHole_mem (by omega)]
  rw [JoinsRight, hhdr, hunify, (W.tagged g hgmem).size, footerSz, hnext, RightHole, RightHole,
    hmagic, hhole]

/-- Only the index and segments of the heap are written before the hole is listed. -/
theorem Phases.beside {l₂ l₂' a : List Seg} {m₂ : Mem} {g₂ g₃ : Seg} {add : Bool} {s₃ : St}
    {gone : List Nat} (h : Phases t l₁ g l₂ m₂ a g₂ add s₃ g₃ l₂' gone)
    (W : WellFormed t (l₁ ++ g :: l₂)) (hP : Placed t) (hcalm : Calm t l₁ g l₂) {x : Nat}
    (hx : Beside t x) : s₃.mem x = t.mem x := by
  have hgmem : g ∈ l₁ ++ g :: l₂ := List.mem_append_right _ List.mem_cons_self
  have g20 := W.min g hgmem
  have hlow := h.low
  have hgoff := hx.off W hP hgmem
  obtain ⟨hle, -⟩ := h.stop
  have hoff₂ : x < g₂.addr ∨ g.addr + g.size ≤ x := by
    have hbelow := hP.below
    have hgb := (W.tiles.bounds hgmem).2
    unfold Beside at hx
    omega
  have hm₂ : m₂ x = t.mem x := h.mem_left g20 hoff₂
  have hright := h.right
  have hrhdr : g.addr + g.size - 8 + 8 = g.addr + g.size := by omega
  unfold unifyRight at hright
  simp only [footerSz, hrhdr] at hright
  split at hright
  case isFalse =>
    rw [← Option.some.inj hright]
    exact hm₂
  case isTrue hhole =>
    rw [h.rightHole_iff g20] at hhole
    cases l₂ with
    | nil => exact absurd hhole (hcalm.last rfl)
    | cons r l₃ =>
        have hrmem : r ∈ l₁ ++ g :: r :: l₃ :=
          List.mem_append_right _ (List.mem_cons_of_mem _ List.mem_cons_self)
        have r20 := W.min r hrmem
        have hroff := hx.off W hP hrmem
        have hnext := (next_hole W).1
        have hrtag : Tagged m₂ r := h.leftDone.segmented.tagged r
          (List.mem_append_right _ (List.mem_cons_of_mem _ List.mem_cons_self))
        obtain ⟨i, -, hrem⟩ := Option.bind_eq_some_iff.mp hright
        rw [← hnext] at hrem
        have hsize : hdrSize (setSize m₂ g₂.addr ((hdrSize m₂ g₂.addr + hdrSize m₂ r.addr) % 2 ^ 32))
            r.addr = r.size :=
          (hdrSize_congr fun y h1 h2 => setSize_apply (by omega)).trans hrtag.size
        rw [hsize] at hrem
        have hx' : ∀ m : Mem, Beside ⟨m, t.heap⟩ x := fun _ => hx
        have hP' : ∀ m : Mem, Placed ⟨m, t.heap⟩ := fun m =>
          hP.of_same (SameHeap.of_mem t m) hP.size
        rw [(hx' _).remove (hP' _) hrem]
        dsimp only
        rw [setFtrHdr_apply (by omega), setSize_apply (by omega), hm₂]

/-- A free in a heap that keeps to its slots. -/
theorem free_sound {l₂ : List Seg} (W : WellFormed t (l₁ ++ g :: l₂)) (hP : Placed t)
    (hlive : g.hole = false) (hcalm : Calm t l₁ g l₂)
    (hslot : ¬JoinsLeft t (g.addr + 12) → ¬RightHole t.mem (g.addr + g.size) →
      t.heap.index.size < t.heap.index.maxSize) (hfree : free t (g.addr + 12) = some s') :
    ∃ segs', WellFormed s' segs' ∧ Placed s' ∧ liveSegs segs' = liveSegs l₁ ++ liveSegs l₂
      ∧ (∀ k ∈ liveSegs segs', ∀ y, k.addr ≤ y → y < k.addr + k.size → s'.mem y = t.mem y)
      ∧ (∀ x, Beside t x → s'.mem x = t.mem x) ∧ SameHeap t s' := by
  have hfreeSlot : FreeSlot t g := fun hl hr =>
    hP.room_one (hslot ((joinsLeft_iff t g).not.mpr hl) hr)
  obtain ⟨m₂, a, g₂, add, s₃, g₃, b, gone, h⟩ := free_phases W hP.room hP.stop hcalm hlive
  have F := h.freed W hP.room hP.stop hlive hfreeSlot
  have hs' := Option.some.inj (hfree.symm.trans (h.call W hP.stop hlive))
  have hslots := (counted_free (P := samePages) hfree).slots_iff hP.size
  have hsize : s'.heap.index.size ≤ s'.heap.index.maxSize := hslots.mpr fun hadds =>
    hslot hadds.2.1 ((joinsRight_iff W hadds.2.1).not.mp hadds.2.2)
  rw [← hs'] at F
  refine ⟨a ++ g₃ :: b, F.wellFormed, hP.of_same F.same hsize, ?_, fun k hk y h1 h2 => ?_,
    fun x hx => ?_, F.same⟩
  · rw [liveSegs_append, liveSegs_cons, if_pos F.hole, F.left, F.right]
  · -- what is allocated lies outside of the new hole
    obtain ⟨hmem, hkl⟩ := mem_liveSegs.mp hk
    have hlow := (F.wellFormed.tiles.bounds hmem).1
    rw [F.same.start] at hlow
    have hne : k ≠ g₃ := fun heq => by
      rw [heq, F.hole] at hkl
      exact nomatch hkl
    have hd := F.wellFormed.tiles.disjoint hmem
      (List.mem_append_right _ List.mem_cons_self) hne
    exact F.frame y (by omega) (by omega)
  · have hx₃ := h.beside W hP hcalm hx
    rw [F.same.maxSize] at hsize
    rw [hs'] at hsize ⊢
    cases add with
    | false => exact hx₃
    | true =>
        simp only [if_true] at hsize ⊢
        rw [insert_index_size] at hsize
        rw [(h.same.beside.mpr hx).insert (by rw [h.same.maxSize]; omega), hx₃]

theorem extendMove_eq_some : extendMove P 1 s (g.addr + 12) g.addr n = some (q, s')
    ↔ ∃ t, moveOut P 1 s (g.addr + 12) g.addr n = some (q, t) ∧ free t (g.addr + 12) = some s' := by
  unfold extendMove
  simp only [Option.bind_eq_bind, Option.bind_eq_some_iff, Option.pure_def, Option.some.injEq,
    Prod.mk.injEq, Prod.exists]
  constructor
  · rintro ⟨_, t, hmove, _, hfree, rfl, rfl⟩
    exact ⟨t, hmove, hfree⟩
  · rintro ⟨t, hmove, hfree⟩
    exact ⟨q, t, hmove, s', hfree, rfl, rfl⟩

theorem Moved.placed (M : Moved s l₁ g r l₃ n q t l₁' l₃' k) (hP : Placed s) : Placed t := by
  refine hP.of_same M.same ?_
  rw [M.same.maxSize]
  exact M.size.trans hP.size

/-- Once `free` finds what it needs, the heap is as the caller expects it. -/
theorem Moved.resized (M : Moved s l₁ g r l₃ n q t l₁' l₃' k) (hP : Placed s)
    (hlive : g.hole = false) (hn : g.size < n) (hfirst : l₁ = [] → ¬JoinsLeft t (g.addr + 12))
    (hslot : HoleLast l₁ ∨ UsesUp s n ∨ s.heap.index.size < s.heap.index.maxSize)
    (hfree : free t (g.addr + 12) = some s') :
    Resized s l₁ g (r :: l₃) (n - 20) (g.size - 20) q s'
      ∧ SameHeap s s' ∧ ∀ x, Beside s x → s'.mem x = s.mem x := by
  have W := M.wellFormed
  have hPt := M.placed hP
  have g20 := W.min g (List.mem_append_right _ List.mem_cons_self)
  have henough := M.enough
  have hleft : HoleLast l₁' → JoinsLeft t (g.addr + 12) := fun hl => (joinsLeft_iff t g).mpr
    ((leftHole_last W.toSegmented fun hnil => not_holeLast_nil (hnil ▸ hl)).mpr hl)
  have hcalm : Calm t l₁' g (r :: l₃') :=
    ⟨fun hnil => by
      rw [← joinsLeft_iff]
      exact hfirst (M.first.mp hnil), fun h => absurd h (List.cons_ne_nil _ _)⟩
  obtain ⟨segs', W', hP', hsegs, hkeep, hbeside, hsame⟩ := free_sound W hPt hlive hcalm
    (fun hno _ => (M.slot.mpr hslot).resolve_left fun hl => hno (hleft hl)) hfree
  have hperm : (liveSegs segs').Perm (k :: (liveSegs l₁ ++ liveSegs (r :: l₃))) := by
    rw [hsegs]
    exact M.live
  refine ⟨⟨segs', k, W', hP', M.hole, M.pointer, by omega, hperm, fun x hx => ?_,
    fun x hx y h1 h2 => ?_⟩, M.same.trans hsame, fun x hx => ?_⟩
  · rw [← M.data x hx, M.pointer]
    exact hkeep k (hperm.symm.subset List.mem_cons_self) _ (by omega) (by omega)
  · rw [hkeep x (hperm.symm.subset (List.mem_cons_of_mem _ hx)) y h1 h2, M.frame x hx y h1 h2]
  · rw [hbeside x (M.same.beside.mpr hx), M.beside x hx]

/-- A hole that finds no slot leaves the index beyond its capacity. -/
theorem Moved.not_resized_slot (M : Moved s l₁ g r l₃ n q t l₁' l₃' k) (hP : Placed s)
    (hr : r.hole = false) (hfirst : l₁ = [] → ¬JoinsLeft t (g.addr + 12))
    (hslot : ¬(HoleLast l₁ ∨ UsesUp s n ∨ s.heap.index.size < s.heap.index.maxSize))
    (hfree : free t (g.addr + 12) = some s') : ¬Placed s' := by
  have W := M.wellFormed
  have hPt := M.placed hP
  have hgmem : g ∈ l₁' ++ g :: r :: l₃' := List.mem_append_right _ List.mem_cons_self
  have g20 := W.min g hgmem
  have hno := not_or.mp (mt M.slot.mp hslot)
  have hleft : ¬JoinsLeft t (g.addr + 12) := by
    by_cases hnil : l₁' = []
    · exact hfirst (M.first.mp hnil)
    · rw [joinsLeft_iff, leftHole_last W.toSegmented hnil]
      exact hno.1
  have hright : ¬JoinsRight t (g.addr + 12) := by
    rw [joinsRight_iff W hleft, rightHole_iff W.toSegmented, hr]
    decide
  intro hP'
  have hadds : AddsEntry t (.free (g.addr + 12)) := ⟨by omega, hleft, hright⟩
  exact hno.2 (((counted_free (P := samePages) hfree).slots_iff hPt.size).mp hP'.size hadds)

/-- The memory in which `g`, a hole now, has been joined to the header `l`. -/
def joinedMem (t : St) (g : Seg) (l : Nat) : Mem :=
  setFtrHdr (setSize (markHole t g).mem l ((hdrSize (markHole t g).mem l + g.size) % 2 ^ 32))
    (g.addr + g.size - 8) l

theorem joinedMem_apply {l x : Nat} (hx : x < g.addr ∨ g.addr + 12 ≤ x)
    (hl : x < l + 8 ∨ l + 12 ≤ x) (hftr : x < g.addr + g.size - 8 + 4 ∨ g.addr + g.size - 8 + 8 ≤ x) :
    joinedMem t g l x = t.mem x := by
  unfold joinedMem
  rw [setFtrHdr_apply hftr, setSize_apply hl, markHole_mem hx]

theorem hdrSize_markHole (htag : Tagged t.mem g) (g20 : 20 ≤ g.size) :
    hdrSize (markHole t g).mem g.addr = g.size := (htag.setHole g20).size

/-- A free that takes a footer in front of the block for that of a hole. -/
theorem free_joined (htag : Tagged t.mem g) (g20 : 20 ≤ g.size) (hlive : g.hole = false)
    (hend : g.addr + 12 < 2 ^ 32) (hleft : LeftHole (markHole t g).mem g.addr)
    (hfree : free t (g.addr + 12) = some s') : ∃ l < 2 ^ 32,
      unifyRight ⟨joinedMem t g l, t.heap⟩ l (g.addr + g.size - 8) = some s' := by
  refine ⟨ftrHdr (markHole t g).mem (sub32 g.addr footerSz), rd32_lt _ _, ?_⟩
  have hunify : unifyLeft (markHole t g).mem g.addr (g.addr + g.size - 8)
      = (joinedMem t g (ftrHdr (markHole t g).mem (sub32 g.addr footerSz)),
        ftrHdr (markHole t g).mem (sub32 g.addr footerSz), false) := by
    rw [unifyLeft, if_pos hleft, joinedMem, hdrSize_markHole htag g20]
  rw [free_live htag hlive hend hunify, Option.map_eq_some_iff] at hfree
  obtain ⟨u, hright, rfl⟩ := hfree
  exact hright

/-- The footer names the header that the block has been joined to, and if that is its own
one, the size has been doubled. -/
theorem joinedMem_not_tagged {l : Nat} (htag : Tagged t.mem g) (g20 : 20 ≤ g.size)
    (hl : l < 2 ^ 32) : ¬Tagged (joinedMem t g l) ⟨g.addr, g.size, true⟩ := by
  intro h
  have hftr : ftrHdr (joinedMem t g l) (g.addr + g.size - 8) = l := rd32_wr32_same _ hl
  have hlg : l = g.addr := hftr.symm.trans h.ftrHdr
  have hsize : hdrSize (joinedMem t g l) g.addr = (g.size + g.size) % 2 ^ 32 := by
    rw [hlg, joinedMem, hdrSize_markHole htag g20]
    refine Eq.trans (hdrSize_congr fun x h1 h2 => setFtrHdr_apply (by omega)) ?_
    exact hdrSize_setSize (Nat.mod_lt _ (by decide))
  have hdouble : (g.size + g.size) % 2 ^ 32 = g.size := hsize.symm.trans h.size
  have hlt := htag.size_lt
  omega

/-- A footer in front of the heap that `free` takes for that of a hole: the block, the
first one, does not become a hole of its own. -/
theorem free_first (W : WellFormed t (g :: r :: l₃')) (hP : Placed t) (hr : r.hole = false)
    (hlive : g.hole = false) (hleft : LeftHole (markHole t g).mem g.addr)
    (hfree : free t (g.addr + 12) = some s') : ¬Tagged s'.mem ⟨g.addr, g.size, true⟩ := by
  have hgmem : g ∈ g :: r :: l₃' := List.mem_cons_self
  have hrmem : r ∈ g :: r :: l₃' := List.mem_cons_of_mem _ List.mem_cons_self
  have g20 := W.min g hgmem
  have r20 := W.min r hrmem
  have hnext : r.addr = g.addr + g.size := (@next_hole _ [] _ _ _ W).1
  have hstart : g.addr = t.heap.start := W.tiles.1
  have hrb := W.tiles.bounds hrmem
  have hstop := hP.stop
  have hroom := hP.room
  unfold Room at hroom
  obtain ⟨l, hl, hright⟩ := free_joined (W.tagged g hgmem) g20 hlive (by omega) hleft hfree
  have hrhdr : g.addr + g.size - 8 + 8 = r.addr := by omega
  unfold unifyRight at hright
  simp only [footerSz, hrhdr] at hright
  split at hright
  case isTrue hhole =>
    -- the block behind would have to be listed as a hole
    obtain ⟨i, hindex, -⟩ := Option.bind_eq_some_iff.mp hright
    have hinside : r.addr < l + 8 ∧ l < r.addr + 12 := by
      by_contra hout
      have hbyte : joinedMem t g l (r.addr + 5) = t.mem (r.addr + 5) :=
        joinedMem_apply (by omega) (by omega) (by omega)
      have hzero : hdrHole (joinedMem t g l) r.addr = 0 := by
        have hrhole := (W.tagged r hrmem).hole
        rw [hr] at hrhole
        rw [hdrHole, rd8, hbyte]
        exact hrhole
      exact hhole.2 hzero
    have helem : r.addr ∈ t.holes := by
      have hmem := OrdArr.mem_of_index hindex
      rw [OrdArr.elems_congr fun x h1 h2 => ?_] at hmem
      · exact hmem
      rw [setFtrHdr_apply (by omega), setSize_apply (by omega),
        joinedMem_apply (by omega) (by omega) (by omega)]
    obtain ⟨k, hk, hkh, hka⟩ := mem_holeAddrs.mp (W.listed.subset helem)
    rw [W.tiles.eq_of_addr hk hrmem hka, hr] at hkh
    cases hkh
  case isFalse =>
    rw [← Option.some.inj hright]
    exact joinedMem_not_tagged (W.tagged g hgmem) g20 hl

/-- If the first block has moved to the right, what it leaves is one hole. -/
theorem Resized.first_hole {size keep : Nat} (h : Resized s [] g (r :: l₃) size keep q s')
    (W : WellFormed s (g :: r :: l₃)) (hr : r.hole = false)
    (hstart : s'.heap.start = s.heap.start) (hq : r.addr + 12 ≤ q) :
    Tagged s'.mem ⟨g.addr, g.size, true⟩ := by
  obtain ⟨segs', k, W', -, -, hk, -, hperm, -⟩ := h
  have hnext : r.addr = g.addr + g.size := (@next_hole _ [] _ _ _ W).1
  have hgaddr : g.addr = s.heap.start := W.tiles.1
  have g20 := W.min g List.mem_cons_self
  -- the blocks all start at `r` or behind it, and `r` is one of them
  have hlow : ∀ b ∈ liveSegs segs', r.addr ≤ b.addr := fun b hb => by
    rcases List.mem_cons.mp (hperm.subset hb) with rfl | hb
    · omega
    · have hb := (mem_liveSegs.mp hb).1
      obtain ⟨-, -, hrest⟩ := W.tiles
      have hbound := (hrest.bounds hb).1
      omega
  have hrlive : r ∈ liveSegs segs' := by
    refine hperm.symm.subset (List.mem_cons_of_mem _ ?_)
    exact mem_liveSegs.mpr ⟨List.mem_cons_self, hr⟩
  have hrmem := (mem_liveSegs.mp hrlive).1
  obtain ⟨x, tl, rfl⟩ := List.exists_cons_of_ne_nil (List.ne_nil_of_mem hrmem)
  have hxaddr : x.addr = g.addr := W'.tiles.1.trans (hstart.trans hgaddr.symm)
  have hxhole : x.hole = true := by
    by_contra hx
    have hx := hlow x (mem_liveSegs.mpr ⟨List.mem_cons_self, Bool.eq_false_iff.mpr hx⟩)
    omega
  have hsize : x.size = g.size := by
    rcases head_live W'.apart hxhole with rfl | ⟨y, u, rfl, hy⟩
    · have hrx := List.mem_singleton.mp hrmem
      rw [hrx, hxhole] at hr
      exact nomatch hr
    · obtain ⟨-, hpos, hyaddr, hypos, hrest⟩ := W'.tiles
      have hfirst := hlow y (mem_liveSegs.mpr ⟨List.mem_cons_of_mem _ List.mem_cons_self, hy⟩)
      rcases List.mem_cons.mp hrmem with rfl | hrmem
      · rw [hxhole] at hr
        exact nomatch hr
      · rcases List.mem_cons.mp hrmem with rfl | hrmem
        · omega
        · have hbound := (hrest.bounds hrmem).1
          omega
  have hx : x = ⟨g.addr, g.size, true⟩ := by
    cases x
    simp only at hxaddr hsize hxhole
    rw [hxaddr, hsize, hxhole]
  rw [← hx]
  exact W'.tagged x List.mem_cons_self

/-- What a move takes besides the new block: no word in front of the heap makes `free`
join the first block to the left, and a hole that is not joined to the one in front of
it finds a slot. -/
structure MoveFits (P : Pages) (s : St) (l₁ : List Seg) (g : Seg) (n : Nat) : Prop where
  first : l₁ = [] → ∀ q t, moveOut P 1 s (g.addr + 12) g.addr n = some (q, t) →
    ¬JoinsLeft t (g.addr + 12)
  slot : HoleLast l₁ ∨ UsesUp s n ∨ s.heap.index.size < s.heap.index.maxSize

theorem move_resized (W : WellFormed s (l₁ ++ g :: r :: l₃)) (hP : Placed s)
    (hlive : g.hole = false) (hr : r.hole = false) (halign : hdrAlign s.mem g.addr = 0)
    (hn : g.size < n) (hlt : n < 2 ^ 32)
    (hcall : extendMove P 1 s (g.addr + 12) g.addr n = some (q, s')) (hfits : MoveFits P s l₁ g n) :
    Resized s l₁ g (r :: l₃) (n - 20) (g.size - 20) q s'
      ∧ SameHeap s s' ∧ ∀ x, Beside s x → s'.mem x = s.mem x := by
  obtain ⟨t, hmove, hfree⟩ := extendMove_eq_some.mp hcall
  obtain ⟨l₁', l₃', k, M⟩ := moveOut_spec W hP hlive hr halign hn hlt hmove
  exact M.resized hP hlive hn (fun h => hfits.first h q t hmove) hfits.slot hfree

theorem MoveFits.of_resized (W : WellFormed s (l₁ ++ g :: r :: l₃)) (hP : Placed s)
    (hlive : g.hole = false) (hr : r.hole = false) (halign : hdrAlign s.mem g.addr = 0)
    (hn : g.size < n) (hlt : n < 2 ^ 32)
    (hcall : extendMove P 1 s (g.addr + 12) g.addr n = some (q, s')) {size keep : Nat}
    (hres : Resized s l₁ g (r :: l₃) size keep q s') : MoveFits P s l₁ g n := by
  obtain ⟨t, hmove, hfree⟩ := extendMove_eq_some.mp hcall
  obtain ⟨l₁', l₃', k, M⟩ := moveOut_spec W hP hlive hr halign hn hlt hmove
  have hfirst : l₁ = [] → ¬JoinsLeft t (g.addr + 12) := by
    rintro rfl hleft
    obtain rfl := M.first.mpr rfl
    rw [joinsLeft_iff] at hleft
    have hstart : s'.heap.start = s.heap.start :=
      ((counted_free (P := samePages) hfree).same.start).trans M.same.start
    have hq : r.addr + 12 ≤ q := by
      have hmem := (mem_liveSegs.mp (M.live.symm.subset List.mem_cons_self)).1
      obtain ⟨hgaddr, -, hrest⟩ := M.wellFormed.tiles
      have hbound := (hrest.bounds hmem).1
      have hnext : r.addr = g.addr + g.size := (@next_hole _ [] _ _ _ W).1
      rw [M.pointer]
      omega
    exact free_first M.wellFormed (M.placed hP) hr hlive hleft hfree
      (hres.first_hole W hr hstart hq)
  refine ⟨fun h q' t' hmove' => ?_, ?_⟩
  · rw [hmove] at hmove'
    obtain ⟨rfl, rfl⟩ := Prod.mk.inj (Option.some.inj hmove')
    exact hfirst h
  · by_contra hslot
    obtain ⟨_, _, -, hP', -⟩ := hres
    exact M.not_resized_slot hP hr hfirst hslot hfree hP'

end Move

end Heap

end Shitos
