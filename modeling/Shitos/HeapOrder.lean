import Mathlib.Data.List.Pairwise
import Shitos.HeapSlots

/-!
# The order of the index

`vmem_heap_hole_find` takes the first hole that is large enough, so the smallest
one, as long as the index is in the order of the sizes (`Sorted.best_fit`).
`ord_arr_insert` puts a hole where it belongs, but two functions enlarge a hole
that stays where it is in the index: `vmem_heap_free` the hole on the left of the
freed block, and `vmem_heap_alloc` the one that gets new pages. `best_fit_run` says
that the order holds in every run in which such a hole does not outgrow the next
ones.
-/

namespace Shitos

namespace Heap

/-- The index lists the holes in the order of their sizes. -/
def Sorted (s : St) : Prop := s.holes.Pairwise fun a b => hdrSize s.mem a ≤ hdrSize s.mem b

section Order

variable {s t : St}

/-- Holes that go leave the others in order. -/
theorem Sorted.of_sublist (h : Sorted s) (hsub : t.holes.Sublist s.holes)
    (hsize : ∀ b ∈ t.holes, hdrSize t.mem b = hdrSize s.mem b) : Sorted t := by
  refine List.pairwise_iff_forall_sublist.mpr fun {a b} hab => ?_
  rw [hsize a (hab.subset (by simp)), hsize b (hab.subset (by simp))]
  exact List.pairwise_iff_forall_sublist.mp h (hab.trans hsub)

/-- A hole that stays in its place may grow up to the size of the holes behind it. -/
theorem Sorted.enlarge (h : Sorted s) (hsub : t.holes.Sublist s.holes) {l : Nat}
    (hsize : ∀ b ∈ t.holes, b ≠ l → hdrSize t.mem b = hdrSize s.mem b)
    (hmore : hdrSize s.mem l ≤ hdrSize t.mem l)
    (hbehind : ∀ b, [l, b].Sublist t.holes → b ≠ l → hdrSize t.mem l ≤ hdrSize s.mem b) :
    Sorted t := by
  refine List.pairwise_iff_forall_sublist.mpr fun {a b} hab => ?_
  have ha : a ∈ t.holes := hab.subset (by simp)
  have hb : b ∈ t.holes := hab.subset (by simp)
  have hold := List.pairwise_iff_forall_sublist.mp h (hab.trans hsub)
  by_cases hbl : b = l
  · subst hbl
    by_cases hal : a = b
    · rw [hal]
    · rw [hsize a ha hal]
      exact hold.trans hmore
  · rw [hsize b hb hbl]
    by_cases hal : a = l
    · subst hal
      exact hbehind b hab hbl
    · rw [hsize a ha hal]
      exact hold

/-- A hole that is listed gets its place. -/
theorem Sorted.insert (h : Sorted s) {el : Nat} (hel : el < 2 ^ 32) (hroom : Room s 1)
    (hlow : ∀ b ∈ el :: s.holes, s.heap.start ≤ b) : Sorted (s.insert el) := by
  have horder : ((s.insert el).holes).Pairwise fun a b => hdrSize s.mem a ≤ hdrSize s.mem b :=
    OrdArr.insert_pairwise (fun x y => rfl) hel h
  have hsize : ∀ b ∈ (s.insert el).holes, hdrSize (s.insert el).mem b = hdrSize s.mem b := by
    intro b hb
    have hb' := hlow b ((insert_holes hel).subset hb)
    exact rd32_congr fun x h1 _ => insert_mem hroom (by omega)
  refine List.pairwise_iff_forall_sublist.mpr fun {a b} hab => ?_
  rw [hsize a (hab.subset (by simp)), hsize b (hab.subset (by simp))]
  exact List.pairwise_iff_forall_sublist.mp horder hab

/-- **Best fit.** In a sorted index the first hole that is large enough is a smallest
one, and if none is found, none is large enough. -/
theorem Sorted.best_fit (h : Sorted s) (n : Nat) :
    (∀ i, holeFind s n 0 = some i → ∃ a ∈ s.holes, s.get i = some a ∧ n ≤ hdrSize s.mem a
        ∧ ∀ b ∈ s.holes, n ≤ hdrSize s.mem b → hdrSize s.mem a ≤ hdrSize s.mem b)
      ∧ (holeFind s n 0 = none ↔ ∀ b ∈ s.holes, hdrSize s.mem b < n) := by
  have hfits : ∀ a, holeFits s.mem a n 0 = decide (n ≤ hdrSize s.mem a) := fun a => if_pos rfl
  constructor
  · intro i hi
    obtain ⟨hlt, hn⟩ := holeFind_spec hi
    refine ⟨_, OrdArr.elem_mem hlt, if_pos hlt, hn, fun b hb hnb => ?_⟩
    obtain ⟨j, hj, rfl⟩ := OrdArr.mem_elems.mp hb
    -- an earlier hole would have been found
    have hle : i ≤ j := by
      by_contra hji
      have hfirst := (List.find?_range_eq_some.mp hi).2.2 j (Nat.lt_of_not_le hji)
      rw [hfits] at hfirst
      simp only [Bool.not_eq_true', decide_eq_false_iff_not] at hfirst
      exact hfirst hnb
    rcases Nat.eq_or_lt_of_le hle with rfl | hij
    · exact Nat.le_refl _
    · have hpair := List.pairwise_iff_getElem.mp h i j
        (by rw [St.holes, OrdArr.length_elems]; exact hlt)
        (by rw [St.holes, OrdArr.length_elems]; exact hj) hij
      simp only [St.holes, OrdArr.getElem_elems] at hpair
      exact hpair
  · rw [holeFind, List.find?_eq_none]
    constructor
    · intro hnone b hb
      obtain ⟨j, hj, rfl⟩ := OrdArr.mem_elems.mp hb
      have := hnone j (List.mem_range.mpr hj)
      rw [hfits] at this
      simpa using this
    · intro hall j hj
      rw [hfits]
      have := hall _ (OrdArr.elem_mem (List.mem_range.mp hj))
      simpa using this

end Order

/-! ## Each step -/

section Steps

variable {s t : St} {segs : List Seg}

/-- Serving a request leaves the holes in order, if all but the one that serves it
are. -/
theorem serve_sorted (W : WellFormed s segs) (hroom : Room s 0) (hstop : s.heap.stop < 2 ^ 32)
    {n i p : Nat} (h20 : 20 ≤ n) (hfind : holeFind s n 0 = some i)
    (h : (s.holes.eraseIdx i).Pairwise fun a b => hdrSize s.mem a ≤ hdrSize s.mem b)
    (halloc : allocHole s i n 0 = some (p, t)) : Sorted t := by
  obtain ⟨hi, hfit⟩ := holeFind_spec hfind
  obtain ⟨g, hg, hhole, haddr⟩ := mem_holeAddrs.mp (W.listed.subset (OrdArr.elem_mem hi))
  have htag := W.tagged g hg
  have hb := W.tiles.bounds hg
  rw [← haddr, htag.size] at hfit
  obtain ⟨s₁, hrem, hsame, hsize, hperm, hkeep⟩ := remove_spec hi
  have hget : s.get i = some g.addr := by rw [haddr]; exact if_pos hi
  have heq := allocHole_eq hget hrem htag.size hfit h20 (by rw [hsame.stop]; omega)
  have hkeep' : ∀ x, s.heap.start ≤ x → s₁.mem x = s.mem x := fun x hx =>
    hkeep x (by unfold Room at hroom; omega)
  have hroom₁ : Room s₁ 1 := by
    unfold Room at hroom ⊢
    rw [hsame.array, hsame.start]
    omega
  have hholes : St.holes ⟨carveMem s₁.mem g.addr g.size n, s₁.heap⟩ = s₁.holes :=
    holes_of_low rfl (by unfold Room at hroom₁ ⊢; omega) fun x hx => by
      rw [hsame.start] at hx
      exact carveMem_apply h20 hfit (Or.inl (by omega))
  -- the hole that serves the request is not listed any more
  have hgone : g.addr ∉ s₁.holes := by
    have hnodup := (hperm.nodup_iff).mpr W.nodup_holes
    rw [← haddr] at hnodup
    exact (List.nodup_cons.mp hnodup).1
  have herase : s₁.holes = s.holes.eraseIdx i := remove_holes_eq hrem
  have hrest : Sorted ⟨carveMem s₁.mem g.addr g.size n, s₁.heap⟩ := by
    rw [← herase] at h
    refine List.pairwise_iff_forall_sublist.mpr fun {a b} hab => ?_
    rw [hholes] at hab
    have hkept : ∀ b ∈ s₁.holes, hdrSize (carveMem s₁.mem g.addr g.size n) b
        = hdrSize s.mem b := by
      intro b hb'
      have hlisted := (remove_holes hrem).subset hb'
      have hoff := W.hole_off hg hlisted fun heq => hgone (heq ▸ hb')
      obtain ⟨-, -, -, -, hlow, -⟩ := W.hole_bounds hlisted
      refine hdrSize_congr fun x h1 h2 => ?_
      exact (carveMem_apply h20 hfit (by omega)).trans (hkeep' x (by omega))
    dsimp only
    rw [hkept a (hab.subset (by simp)), hkept b (hab.subset (by simp))]
    exact List.pairwise_iff_forall_sublist.mp h hab
  rw [halloc] at heq
  obtain rfl := (Prod.mk.inj (Option.some.inj heq)).2
  split
  · exact hrest
  · refine hrest.insert (by omega) hroom₁ fun b hb' => ?_
    rw [hholes] at hb'
    dsimp only
    rw [hsame.start]
    rcases List.mem_cons.mp hb' with rfl | hb'
    · omega
    · obtain ⟨-, -, -, -, hlow, -⟩ := W.hole_bounds ((remove_holes hrem).subset hb')
      exact hlow

end Steps

/-! ## Freeing -/

/-- The hole in front of `hdr`, with the segment and with a hole behind it. -/
def joinedSz (s : St) (hdr : Nat) : Nat :=
  hdrSize s.mem (ftrHdr s.mem (hdr - 8)) + hdrSize s.mem hdr
    + if RightHole s.mem (hdr + hdrSize s.mem hdr) then hdrSize s.mem (hdr + hdrSize s.mem hdr) else 0

/-- If there is a hole in front of the block, the hole that `free` makes of it is not
larger than the holes that the index lists after it. -/
def KeepsOrder (s : St) (p : Nat) : Prop :=
  LeftHole s.mem (p - 12) → ∀ b ∈ s.holes, [ftrHdr s.mem (p - 12 - 8), b].Sublist s.holes →
    b ≠ p - 12 + hdrSize s.mem (p - 12) → joinedSz s (p - 12) ≤ hdrSize s.mem b

instance (s : St) (p : Nat) : Decidable (KeepsOrder s p) := inferInstanceAs (Decidable (_ → _))

section Free

variable {s : St} {l₁ l₂ : List Seg} {g : Seg} {m₂ : Mem} {l₁' l₂' : List Seg} {g₂ g₃ : Seg}
  {add : Bool} {s₃ : St} {gone : List Nat}

/-- The memory in which the right phase has joined `rhdr` to the segment `hdr`. -/
def joinRightMem (m : Mem) (hdr rhdr : Nat) : Mem :=
  let m := setSize m hdr ((hdrSize m hdr + hdrSize m rhdr) % 2 ^ 32)
  setFtrHdr m (rhdr + hdrSize m rhdr - footerSz) hdr

theorem unifyRight_cases {s t : St} {hdr ftr : Nat} (h : unifyRight s hdr ftr = some t) :
    (¬RightHole s.mem (ftr + 8) ∧ t = s) ∨ (RightHole s.mem (ftr + 8)
      ∧ ∃ i, s.heap.index.index (joinRightMem s.mem hdr (ftr + 8)) (ftr + 8) = some i
        ∧ St.remove ⟨joinRightMem s.mem hdr (ftr + 8), s.heap⟩ i = some t) := by
  unfold unifyRight footerSz at h
  dsimp only at h
  split at h
  · rename_i hjoin
    obtain ⟨i, hindex, hrem⟩ := Option.bind_eq_some_iff.mp h
    exact Or.inr ⟨hjoin, i, hindex, hrem⟩
  · rename_i hno
    exact Or.inl ⟨hno, (Option.some.inj h).symm⟩

theorem hdrSize_joinRightMem {m : Mem} {hdr rhdr : Nat} (hle : hdr + 20 ≤ rhdr) :
    hdrSize (joinRightMem m hdr rhdr) hdr = (hdrSize m hdr + hdrSize m rhdr) % 2 ^ 32 := by
  have hlt : (hdrSize m hdr + hdrSize m rhdr) % 2 ^ 32 < 2 ^ 32 := Nat.mod_lt _ (by decide)
  refine Eq.trans (hdrSize_congr fun x h1 h2 => ?_) (hdrSize_setSize (m := m) hlt)
  simp only [joinRightMem, setFtrHdr, footerSz]
  rw [wr32_apply_of_ne (by omega)]

theorem Phases.holes_joined (h : Phases s l₁ g l₂ m₂ l₁' g₂ add s₃ g₃ l₂' gone)
    (hroom : Room s 0) (g20 : 20 ≤ g.size) :
    St.holes ⟨joinRightMem m₂ g₂.addr (g.addr + g.size - 8 + 8), s.heap⟩ = s.holes := by
  have hlow := h.low
  obtain ⟨hle, hstop⟩ := h.stop
  rw [← h.holes_left hroom g20]
  refine holes_of_low rfl hroom fun x hx => ?_
  dsimp only at hx
  simp only [joinRightMem, setFtrHdr, setSize, footerSz]
  rw [wr32_apply_of_ne (by omega), wr32_apply_of_ne (by omega)]

/-- The holes that are listed before the new one is. -/
theorem Phases.sublist (h : Phases s l₁ g l₂ m₂ l₁' g₂ add s₃ g₃ l₂' gone) (hroom : Room s 0)
    (g20 : 20 ≤ g.size) : s₃.holes.Sublist s.holes := by
  have hholes := h.holes_left hroom g20
  rcases unifyRight_cases h.right with ⟨-, rfl⟩ | ⟨-, i, -, hrem⟩
  · rw [hholes]
  · have hsub := remove_holes hrem
    rw [h.holes_joined hroom g20] at hsub
    exact hsub

/-- The hole reaches over what the right phase has joined to it. -/
theorem Phases.size_le (h : Phases s l₁ g l₂ m₂ l₁' g₂ add s₃ g₃ l₂' gone) (hroom : Room s 0)
    (g20 : 20 ≤ g.size) (h20 : 20 ≤ g₂.size) : g₃.size ≤ g₂.size
      + if RightHole s.mem (g.addr + g.size) then hdrSize s.mem (g.addr + g.size) else 0 := by
  have hlow := h.low
  obtain ⟨hle, hstop⟩ := h.stop
  have hmem : g₂ ∈ l₁' ++ g₂ :: l₂ := List.mem_append_right _ List.mem_cons_self
  have hsize₂ : hdrSize m₂ g₂.addr = g₂.size := (h.leftDone.segmented.tagged g₂ hmem).size
  have hsize₃ : hdrSize s₃.mem g₂.addr = g₃.size := by
    rw [← h.rightDone.addr]
    exact (h.rightDone.segmented.tagged g₃ (List.mem_append_right _ List.mem_cons_self)).size
  have hrsize : hdrSize m₂ (g.addr + g.size) = hdrSize s.mem (g.addr + g.size) :=
    hdrSize_congr fun x h1 _ => h.mem_left g20 (Or.inr h1)
  have hrhdr : g.addr + g.size - 8 + 8 = g.addr + g.size := by omega
  have hcases := unifyRight_cases h.right
  rw [hrhdr] at hcases
  rcases hcases with ⟨hno, rfl⟩ | ⟨hjoin, i, -, hrem⟩
  · rw [if_neg fun hr => hno ((h.rightHole_iff g20).mpr hr), ← hsize₃, ← hsize₂]
    exact Nat.le_add_right _ _
  · have hkeep : hdrSize s₃.mem g₂.addr
        = hdrSize (joinRightMem m₂ g₂.addr (g.addr + g.size)) g₂.addr := by
      unfold Room at hroom
      refine hdrSize_congr fun x h1 _ => remove_mem hrem (Or.inr ?_)
      dsimp only
      omega
    rw [if_pos ((h.rightHole_iff g20).mp hjoin), ← hsize₃, hkeep,
      hdrSize_joinRightMem (by omega), hrsize, hsize₂]
    exact Nat.mod_le _ _

/-- A listed hole other than the new one is not touched. -/
theorem Phases.off (h : Phases s l₁ g l₂ m₂ l₁' g₂ add s₃ g₃ l₂' gone)
    (W : WellFormed s (l₁ ++ g :: l₂)) (hroom : Room s 0) (hlive : g.hole = false) {b : Nat}
    (hb : b ∈ s₃.holes) (hne : b ≠ g₂.addr) : b + 12 ≤ g₃.addr ∨ g₃.addr + g₃.size ≤ b := by
  have S := h.rightDone.segmented
  obtain ⟨htiles₁, -, htiles₂⟩ := tiles_split.mp S.tiles
  rcases List.mem_append.mp ((h.listed W hroom hlive).subset hb) with hb | hb
  · rcases List.mem_append.mp (h.leftDone.listed.subset hb) with hb | hb
    · obtain ⟨k, hk, -, rfl⟩ := mem_holeAddrs.mp hb
      have hbounds := htiles₁.bounds hk
      have h20 := S.min k (List.mem_append_left _ hk)
      exact Or.inl (by omega)
    · split at hb
      · exact absurd hb List.not_mem_nil
      · exact absurd (List.mem_singleton.mp hb) hne
  · obtain ⟨k, hk, -, rfl⟩ := mem_holeAddrs.mp hb
    exact Or.inr (htiles₂.bounds hk).1

theorem Phases.kept (h : Phases s l₁ g l₂ m₂ l₁' g₂ add s₃ g₃ l₂' gone)
    (W : WellFormed s (l₁ ++ g :: l₂)) (hroom : Room s 0) (hlive : g.hole = false) {b : Nat}
    (hb : b ∈ s₃.holes) (hne : b ≠ g₂.addr) : hdrSize s₃.mem b = hdrSize s.mem b := by
  have g20 := W.min g (List.mem_append_right _ List.mem_cons_self)
  have hoff := h.off W hroom hlive hb hne
  obtain ⟨-, -, -, -, hlow, -⟩ := W.hole_bounds ((h.sublist hroom g20).subset hb)
  exact hdrSize_congr fun x h1 h2 => h.mem g20 (by omega) (by omega)

/-- A hole behind the segment is not listed any more. -/
theorem Phases.right_gone (h : Phases s l₁ g l₂ m₂ l₁' g₂ add s₃ g₃ l₂' gone)
    (W : WellFormed s (l₁ ++ g :: l₂)) (hroom : Room s 0) {b : Nat} (hb : b ∈ s₃.holes) :
    b ≠ g.addr + g.size := by
  have g20 := W.min g (List.mem_append_right _ List.mem_cons_self)
  have hrhdr : g.addr + g.size - 8 + 8 = g.addr + g.size := by omega
  have hjoined := h.holes_joined hroom g20
  have hcases := unifyRight_cases h.right
  rw [hrhdr] at hcases hjoined
  rintro rfl
  rcases hcases with ⟨hno, rfl⟩ | ⟨-, i, hindex, hrem⟩
  · obtain ⟨k, hk, hhole, haddr, -⟩ := W.hole_bounds ((h.sublist hroom g20).subset hb)
    have htag := W.tagged k hk
    refine hno ((h.rightHole_iff g20).mpr ?_)
    rw [← haddr, RightHole, htag.magic, htag.hole, hhole]
    exact ⟨rfl, by decide⟩
  · have helem := List.find?_some hindex
    have hi : i < s.heap.index.size := List.mem_range.mp (List.mem_of_find?_eq_some hindex)
    obtain ⟨t, ht, -, -, hperm, -⟩ := @remove_spec
      ⟨joinRightMem m₂ g₂.addr (g.addr + g.size), s.heap⟩ i hi
    rw [hrem] at ht
    obtain rfl := Option.some.inj ht
    have hnodup := hperm.nodup_iff.mpr (by rw [hjoined]; exact W.nodup_holes)
    rw [of_decide_eq_true helem] at hnodup
    exact (List.nodup_cons.mp hnodup).1 hb

/-- Where the hole on the left is. -/
theorem Phases.left_addr (h : Phases s l₁ g l₂ m₂ l₁' g₂ add s₃ g₃ l₂' gone)
    (h8 : 8 ≤ g.addr) : g₂.addr = if add then g.addr else ftrHdr s.mem (g.addr - 8) := by
  have hleft := h.left
  have hftr : ftrHdr (markHole s g).mem (sub32 g.addr footerSz) = ftrHdr s.mem (g.addr - 8) := by
    unfold footerSz
    rw [sub32_of_le h8]
    exact rd32_congr fun x h1 h2 => markHole_mem (by omega)
  unfold unifyLeft at hleft
  split at hleft
  · obtain ⟨-, hrest⟩ := Prod.mk.inj hleft
    obtain ⟨haddr, hadd⟩ := Prod.mk.inj hrest
    rw [← haddr, ← hadd, hftr]
    rfl
  · obtain ⟨-, hrest⟩ := Prod.mk.inj hleft
    obtain ⟨haddr, hadd⟩ := Prod.mk.inj hrest
    rw [← haddr, ← hadd]
    rfl

theorem Phases.left_neighbour (h : Phases s l₁ g l₂ m₂ l₁' g₂ add s₃ g₃ l₂' gone)
    (W : WellFormed s (l₁ ++ g :: l₂)) (hquiet : Quiet s) (hadd : add = false) :
    ∃ k ∈ l₁, k.addr = g₂.addr ∧ k.addr + k.size = g.addr := by
  have hb := W.tiles.bounds (List.mem_append_right l₁ (List.mem_cons_self (l := l₂)))
  have haddr := h.left_addr (by have := hquiet.low; omega)
  have hlisted := h.leftDone.listed
  rw [hadd, if_neg (by decide)] at haddr hlisted
  rcases List.eq_nil_or_concat l₁ with rfl | ⟨l, k, rfl⟩
  · exact absurd (hlisted.symm.subset (List.mem_append_right _ List.mem_cons_self)) List.not_mem_nil
  · rw [List.concat_eq_append, List.append_assoc, List.singleton_append] at W
    obtain ⟨-, -, hnext, -⟩ := tiles_split.mp W.tiles
    have htag := W.tagged k (List.mem_append_right _ List.mem_cons_self)
    refine ⟨k, by simp, ?_, hnext.symm⟩
    rw [haddr, hnext]
    exact htag.ftrHdr.symm

/-- **Freeing** keeps the order under its condition. -/
theorem Sorted.free (hs : Sorted s) (h : Phases s l₁ g l₂ m₂ l₁' g₂ add s₃ g₃ l₂' gone)
    (W : WellFormed s (l₁ ++ g :: l₂)) (hroom : Room s 0) (hstop : s.heap.stop < 2 ^ 32)
    (hquiet : Quiet s) (hlive : g.hole = false) (hslot : AddsHole s (g.addr + 12) → Room s 1)
    (hkeeps : KeepsOrder s (g.addr + 12)) :
    Sorted (if add then s₃.insert g₂.addr else s₃) := by
  have hmem : g ∈ l₁ ++ g :: l₂ := List.mem_append_right _ List.mem_cons_self
  have g20 := W.min g hmem
  have hb := W.tiles.bounds hmem
  have hsub := h.sublist hroom g20
  have hkept := fun b hb hne => h.kept W hroom hlive (b := b) hb hne
  obtain ⟨hle, hend⟩ := h.stop
  have haddr := h.left_addr (by have := hquiet.low; omega)
  cases hadd : add with
  | true =>
      rw [hadd, if_pos rfl] at haddr
      rw [if_pos rfl]
      -- the freed segment is not listed
      have hnew : ∀ b ∈ s₃.holes, b ≠ g₂.addr := by
        rintro b hb' rfl
        obtain ⟨k, hk, hhole, hkaddr, -⟩ := W.hole_bounds (hsub.subset hb')
        rw [W.tiles.eq_of_addr hk hmem (hkaddr.trans haddr), hlive] at hhole
        cases hhole
      refine (hs.of_sublist hsub fun b hb' => hkept b hb' (hnew b hb')).insert (by omega)
        (h.room_insert hroom g20 hadd (hquiet.freeSlot W.toSegmented hslot)) fun b hb' => ?_
      rw [h.same.start]
      rcases List.mem_cons.mp hb' with rfl | hb'
      · omega
      · obtain ⟨-, -, -, -, hlow, -⟩ := W.hole_bounds (hsub.subset hb')
        exact hlow
  | false =>
      rw [hadd, if_neg (by decide)] at haddr
      rw [if_neg (by decide)]
      have S₃ := h.rightDone.segmented
      have hsize₃ : hdrSize s₃.mem g₂.addr = g₃.size := by
        rw [← h.rightDone.addr]
        exact (S₃.tagged g₃ (List.mem_append_right _ List.mem_cons_self)).size
      obtain ⟨k, hk, hkaddr, hkend⟩ := h.left_neighbour W hquiet hadd
      have hksize : hdrSize s.mem g₂.addr = k.size := by
        rw [← hkaddr]
        exact (W.tagged k (List.mem_append_left _ hk)).size
      have hreach := h.rightDone.le
      have haddr₃ := h.rightDone.addr
      refine hs.enlarge hsub hkept (by omega) fun b hb' hne => ?_
      have hbmem : b ∈ s₃.holes := hb'.subset (by simp)
      have hoff := h.off W hroom hlive hbmem hne
      have hhdr : g.addr + 12 - 12 = g.addr := Nat.add_sub_cancel ..
      have hgsize := (W.tagged g hmem).size
      unfold KeepsOrder at hkeeps
      rw [hhdr, hgsize, ← haddr] at hkeeps
      have hleft : LeftHole s.mem g.addr := by
        rw [leftHole_congr W.toSegmented (markHole_segmented W.toSegmented) hquiet
          (markHole_quiet W.toSegmented hquiet)]
        exact Decidable.not_not.mp (of_decide_eq_false (h.adds.symm.trans hadd))
      have hjoined := hkeeps hleft b (hsub.subset hbmem) (hb'.trans hsub)
        (h.right_gone W hroom hbmem)
      have hsize := h.size_le hroom g20 (by omega)
      rw [joinedSz, hgsize, ← haddr] at hjoined
      omega

end Free

/-! ## Expansion -/

section Grow

variable {P : Pages} {s : St} {segs : List Seg} {size newSz : Nat}

theorem grown_same (s : St) (newSz : Nat) :
    let s₁ := growHole (extended P s newSz) (s.heap.stop - s.heap.start) s.heap.stop
    s₁.heap.start = s.heap.start ∧ s₁.heap.index.array = s.heap.index.array
      ∧ s₁.heap.max = s.heap.max := by
  have hsame := growHole_same (extended P s newSz) (s.heap.stop - s.heap.start) s.heap.stop
  exact ⟨hsame.start, hsame.array, hsame.max⟩

theorem erase_gone {n i : Nat} (W : WellFormed s segs) (hfind : holeFind s n 0 = some i) {a : Nat}
    (ha : s.heap.index.elem s.mem i = a) : a ∉ s.holes.eraseIdx i := by
  obtain ⟨t, hrem, -, -, hperm, -⟩ := remove_spec (holeFind_spec hfind).1
  rw [← remove_holes_eq hrem]
  have hnodup := hperm.nodup_iff.mpr W.nodup_holes
  rw [ha] at hnodup
  exact (List.nodup_cons.mp hnodup).1

/-- The hole that gets the new room is the only one that serves the request; the
others stay in order. -/
theorem grown_sorted_last {l : List Seg} {g : Seg} (W : WellFormed s (l ++ [g]))
    (hhole : g.hole = true) (hroom : Room s 0) (hslot : s.heap.index.array + 4 ≤ s.heap.start)
    (hmore : s.heap.stop - s.heap.start + (size + 20) ≤ newSz)
    (hlt : s.heap.start + newSz < 2 ^ 32) (hnone : holeFind s (size + 20) 0 = none)
    (hs : Sorted s) {i : Nat}
    (hfind : holeFind (growHole (extended P s newSz) (s.heap.stop - s.heap.start) s.heap.stop)
      (size + 20) 0 = some i) :
    let s₁ := growHole (extended P s newSz) (s.heap.stop - s.heap.start) s.heap.stop
    (s₁.holes.eraseIdx i).Pairwise fun a b => hdrSize s₁.mem a ≤ hdrSize s₁.mem b := by
  intro s₁
  have X := Extended.of_last (P := P) W hhole hroom hslot hmore hlt
  obtain ⟨hgrow, -, hkeep⟩ := growHole_eq (P := P) W hhole
    (fun k hk => absurd hk List.not_mem_nil) hroom hslot hmore hlt
  have hs₁ : s₁ = ⟨stretch (extended P s newSz).mem g.addr
    (newSz - (s.heap.stop - s.heap.start)), (extended P s newSz).heap⟩ := hgrow
  obtain ⟨htiles, hgpos, hgend⟩ := tiles_split.mp W.tiles
  have hgend' : g.addr + g.size = s.heap.stop := hgend
  have hlow := htiles.le
  have hholes : s₁.holes = s.holes := by
    rw [← @extended_holes P _ newSz hroom W.tiles.le, hs₁]
    exact holes_of_low rfl hroom fun x hx => hkeep x (Nat.lt_of_lt_of_le hx hlow)
  have hkept : ∀ b ∈ s.holes, b ≠ g.addr → hdrSize s₁.mem b = hdrSize s.mem b := by
    intro b hb hne
    have hoff := W.hole_off (List.mem_append_right _ List.mem_cons_self) hb hne
    obtain ⟨k, hk, -, rfl, hb1, hb2⟩ := W.hole_bounds hb
    unfold Room at hroom
    refine hdrSize_congr fun x h1 h2 => ?_
    rw [hs₁]
    exact (hkeep x (by omega)).trans (extended_mem (by omega) (by omega))
  obtain ⟨hi, hfit⟩ := holeFind_spec hfind
  have helem : s₁.heap.index.elem s₁.mem i = g.addr := by
    by_contra hne
    have hin : s₁.heap.index.elem s₁.mem i ∈ s.holes := by
      rw [← hholes]
      exact OrdArr.elem_mem hi
    have hsize : size + 20 ≤ hdrSize s.mem (s₁.heap.index.elem s₁.mem i) := by
      rw [← hkept _ hin hne]
      exact hfit
    obtain ⟨k, hk, hkhole, hkaddr⟩ := mem_holeAddrs.mp (W.listed.subset hin)
    rw [← hkaddr, (W.tagged k hk).size] at hsize
    have := size_lt_of_none W hnone hk hkhole
    omega
  have hgone := erase_gone X.wellFormed hfind helem
  refine List.pairwise_iff_forall_sublist.mpr fun {a b} hab => ?_
  have hsub : (s₁.holes.eraseIdx i).Sublist s.holes := by
    rw [hholes]
    exact List.eraseIdx_sublist _ _
  have hne : ∀ x ∈ [a, b], x ∈ s.holes ∧ x ≠ g.addr := fun x hx =>
    ⟨(hab.trans hsub).subset hx, fun heq => hgone (heq ▸ hab.subset hx)⟩
  obtain ⟨ha, hane⟩ := hne a (by simp)
  obtain ⟨hb, hbne⟩ := hne b (by simp)
  rw [hkept a ha hane, hkept b hb hbne]
  exact List.pairwise_iff_forall_sublist.mp hs (hab.trans hsub)

/-- In a heap that had no hole the new room is the only one. -/
theorem grown_sorted_none {s₁ : St} (W : WellFormed s₁ segs) {a : Nat}
    (hone : holeAddrs segs = [a]) {n i : Nat} (hfind : holeFind s₁ n 0 = some i) :
    (s₁.holes.eraseIdx i).Pairwise fun a b => hdrSize s₁.mem a ≤ hdrSize s₁.mem b := by
  have hholes : s₁.holes = [a] := by
    have hlist := W.listed
    rw [hone] at hlist
    exact List.perm_singleton.mp hlist
  have hi := (holeFind_spec hfind).1
  have hlen : s₁.heap.index.size = 1 := by
    rw [← OrdArr.length_elems s₁.mem s₁.heap.index]
    exact congrArg List.length hholes
  obtain rfl : i = 0 := by omega
  rw [hholes]
  exact List.Pairwise.nil

end Grow

/-! ## Runs -/

/-- One call on a heap that may grow, or one store by a user. -/
def Run.call (P : Pages) (d : Nat) (r : Run) : Op → Option Run
  | .alloc size => (Heap.alloc P (d + 2) r.st size 0).map fun x => ⟨x.2, (x.1, size) :: r.live⟩
  | .free p => r.exec (.free p)
  | .store a v => r.exec (.store a v)

def Run.calls (P : Pages) (d : Nat) (r : Run) : List Op → Option Run
  | [] => some r
  | op :: ops => (r.call P d op).bind fun r => r.calls P d ops

/-- The assertions of `vmem_heap_expand` stop the request, or the new pages are added
behind the highest hole, or behind a heap that has none. -/
def GrowsBehind (P : Pages) (s : St) (size : Nat) : Prop :=
  (expand P s ((sub32 s.heap.stop s.heap.start + realSize size) % 2 ^ 32)).isNone = true
    ∨ s.heap.start + grownSz s size ≤ s.heap.max ∧
      match highestHole s with
      | (none, _) => True
      | (some _, hdr) => hdr + hdrSize s.mem hdr = s.heap.stop

/-- What keeps the order in one call. -/
def Orderly (P : Pages) (r : Run) : Op → Prop
  | .alloc size => size + 20 < 2 ^ 32 ∧ (holeFind r.st (size + 20) 0 = none → GrowsBehind P r.st size)
  | .free p => p = 0 ∨ Enabled r (.free p) ∧ NoTags r.st ∧ SlotFree r (.free p) ∧ KeepsOrder r.st p
  | .store a v => Enabled r (.store a v)

/-- Each call of the run keeps the order. -/
def OrderlyRun (P : Pages) (d : Nat) (r : Run) : List Op → Prop
  | [] => True
  | op :: ops => Orderly P r op
      ∧ match r.call P d op with
        | none => True
        | some r => OrderlyRun P d r ops

instance (P : Pages) (s : St) (size : Nat) : Decidable (GrowsBehind P s size) :=
  have : Decidable (match highestHole s with
      | (none, _) => True
      | (some _, hdr) => hdr + hdrSize s.mem hdr = s.heap.stop) :=
    match highestHole s with
    | (none, _) => isTrue trivial
    | (some _, hdr) => inferInstanceAs (Decidable (hdr + hdrSize s.mem hdr = s.heap.stop))
  inferInstanceAs (Decidable (_ ∨ _ ∧ _))

instance (P : Pages) (r : Run) (op : Op) : Decidable (Orderly P r op) :=
  match op with
  | .alloc _ => inferInstanceAs (Decidable (_ ∧ (_ → _)))
  | .free _ => inferInstanceAs (Decidable (_ ∨ _ ∧ _ ∧ _ ∧ _))
  | .store a v => inferInstanceAs (Decidable (Enabled r (.store a v)))

def decidableOrderlyRun (P : Pages) (d : Nat) :
    ∀ (ops : List Op) (r : Run), Decidable (OrderlyRun P d r ops)
  | [], _ => isTrue trivial
  | op :: ops, r =>
      have : Decidable (match r.call P d op with
          | none => True
          | some r => OrderlyRun P d r ops) :=
        match r.call P d op with
        | none => isTrue trivial
        | some r => decidableOrderlyRun P d ops r
      inferInstanceAs (Decidable (_ ∧ _))

instance (P : Pages) (d : Nat) (r : Run) (ops : List Op) : Decidable (OrderlyRun P d r ops) :=
  decidableOrderlyRun P d ops r

/-- The invariant of these runs. -/
structure Ordered (r : Run) (segs : List Seg) : Prop extends Intact r segs where
  slot : r.st.heap.index.array + 4 ≤ r.st.heap.start
  max : r.st.heap.max < 2 ^ 32
  sorted : Sorted r.st

section Runs

variable {P : Pages} {d : Nat} {r r' : Run} {segs : List Seg}

/-- The blocks stay where they are. -/
theorem Intact.of_live (I : Intact r segs) {s' : St} {segs' : List Seg} (W : WellFormed s' segs')
    (hroom : Room s' 0) (hstart : s'.heap.start = r.st.heap.start) (hstop : s'.heap.stop < 2 ^ 32)
    (hlive : liveSegs segs' = liveSegs segs) : Intact ⟨s', r.live⟩ segs' where
  wellFormed := W
  room := hroom
  low := by rw [hstart]; exact I.low
  stop := hstop
  seg := by rw [hlive]; exact I.seg
  block := by rw [hlive]; exact I.block
  nodup := I.nodup

/-- A request that a hole serves, with the other holes in order. -/
theorem Intact.served (I : Intact r segs) (hslot : r.st.heap.index.array + 4 ≤ r.st.heap.start)
    (hmax : r.st.heap.max < 2 ^ 32) {size i : Nat} (hsize : size + 20 < 2 ^ 32)
    (hfind : holeFind r.st (size + 20) 0 = some i)
    (hrest : (r.st.holes.eraseIdx i).Pairwise fun a b => hdrSize r.st.mem a ≤ hdrSize r.st.mem b)
    {p : Nat} {t : St} (halloc : allocHole r.st i (size + 20) 0 = some (p, t)) :
    ∃ segs', Ordered ⟨t, (p, size) :: r.live⟩ segs' := by
  have hreal : realSize size = size + 20 := Nat.mod_eq_of_lt hsize
  obtain ⟨r', segs', hexec, I'⟩ := I.alloc ⟨hsize, by rw [hfind]; exact fun h => nomatch h⟩
  rw [Run.exec, allocServed, hreal, hfind, Option.bind_eq_bind, Option.bind_some, halloc,
    Option.map_some] at hexec
  obtain rfl := Option.some.inj hexec
  obtain ⟨l₁, g, l₂, t', -, -, -, halloc', hC⟩ :=
    allocHole_spec I.wellFormed I.room I.stop (by omega) hfind
  rw [halloc] at halloc'
  obtain ⟨-, rfl⟩ := Prod.mk.inj (Option.some.inj halloc')
  refine ⟨segs', I', ?_, ?_, ?_⟩
  · rw [hC.same.array, hC.same.start]
    exact hslot
  · rw [hC.same.max]
    exact hmax
  · exact serve_sorted I.wellFormed I.room I.stop (by omega) hfind hrest halloc

theorem Ordered.served (O : Ordered r segs) {size i : Nat} (hsize : size + 20 < 2 ^ 32)
    (hfind : holeFind r.st (size + 20) 0 = some i) (h : r.call P d (.alloc size) = some r') :
    ∃ segs', Ordered r' segs' := by
  have hreal : realSize size = size + 20 := Nat.mod_eq_of_lt hsize
  rw [Run.call, alloc, hreal, hfind] at h
  obtain ⟨⟨p, t⟩, halloc, rfl⟩ := Option.map_eq_some_iff.mp h
  exact O.toIntact.served O.slot O.max hsize hfind
    (O.sorted.sublist (List.eraseIdx_sublist _ _)) halloc

theorem ends_in_hole {s : St} (W : WellFormed s segs) (hlow : 8 ≤ s.heap.start)
    (h : match highestHole s with
      | (none, _) => True
      | (some _, hdr) => hdr + hdrSize s.mem hdr = s.heap.stop) : EndsInHole segs := by
  rcases last_hole segs with hnone | ⟨l₁, g, l₂, rfl, hhole, hlive⟩
  · exact Or.inl hnone
  obtain ⟨htiles, -, hrest⟩ := tiles_split.mp W.tiles
  have hmem : g ∈ l₁ ++ g :: l₂ := List.mem_append_right _ List.mem_cons_self
  obtain ⟨i, hhigh⟩ := @highestHole_some s g.addr
    (W.listed.symm.subset (mem_holeAddrs.mpr ⟨g, hmem, hhole, rfl⟩))
    (by have := htiles.le; omega)
    (fun b hb => by
      obtain ⟨k, hk, hkhole, rfl⟩ := mem_holeAddrs.mp (W.listed.subset hb)
      rcases List.mem_append.mp hk with hk | hk
      · have := htiles.bounds hk
        omega
      · rcases List.mem_cons.mp hk with rfl | hk
        · exact Nat.le_refl _
        · rw [hlive k hk] at hkhole
          cases hkhole)
  rw [hhigh] at h
  dsimp only at h
  rw [(W.tagged g hmem).size] at h
  cases l₂ with
  | nil => exact Or.inr ⟨l₁, g, rfl, hhole⟩
  | cons k l₃ =>
      obtain ⟨hk, hpos, hlast⟩ := hrest
      have := hlast.le
      omega

/-- The heap after an expansion behind its last hole, or behind its last block. -/
theorem Ordered.extend (O : Ordered r segs) {size : Nat} (G : Outgrown r.st size)
    (hends : EndsInHole segs) : ∃ s₁ segs₁,
    growHole (extended P r.st (grownSz r.st size)) (r.st.heap.stop - r.st.heap.start)
        r.st.heap.stop = s₁
      ∧ Extended r.st segs size s₁ segs₁ ∧ liveSegs segs₁ = liveSegs segs
      ∧ ∀ i, holeFind s₁ (size + 20) 0 = some i →
        (s₁.holes.eraseIdx i).Pairwise fun a b => hdrSize s₁.mem a ≤ hdrSize s₁.mem b := by
  have W := O.wellFormed
  obtain ⟨hmore, hlt⟩ := G.extra
  rcases hends with hnone | ⟨l, g, rfl, hhole⟩
  · have X := Extended.of_none (P := P) W hnone G.room G.slot hmore hlt
    refine ⟨_, _, rfl, X, ?_, fun i hi =>
      @grown_sorted_none _ _ X.wellFormed r.st.heap.stop ?_ _ i hi⟩
    · rw [liveSegs_append, liveSegs_cons, if_pos rfl]
      exact List.append_nil _
    · rw [holeAddrs_append, holeAddrs_nil hnone]
      rfl
  · have X := Extended.of_last (P := P) W hhole G.room G.slot hmore hlt
    refine ⟨_, _, rfl, X, ?_, fun i hi => ?_⟩
    · rw [liveSegs_append, liveSegs_append, liveSegs_cons, liveSegs_cons, if_pos rfl, if_pos hhole]
    · exact grown_sorted_last W hhole G.room G.slot hmore hlt G.noHole O.sorted hi

theorem Ordered.grown (O : Ordered r segs) {size : Nat} (hsize : size + 20 < 2 ^ 32)
    (hnone : holeFind r.st (size + 20) 0 = none) (hgrow : GrowsBehind P r.st size)
    (h : r.call P d (.alloc size) = some r') : ∃ segs', Ordered r' segs' := by
  have hreal : realSize size = size + 20 := Nat.mod_eq_of_lt hsize
  have hle := O.wellFormed.tiles.le
  obtain ⟨⟨p, t⟩, halloc, rfl⟩ := Option.map_eq_some_iff.mp h
  rcases hgrow with hfail | ⟨hbelow, hhigh⟩
  · rw [alloc, hreal, hnone] at halloc
    rw [hreal] at hfail
    obtain ⟨u, hu, -⟩ := Option.bind_eq_some_iff.mp halloc
    rw [Option.isNone_iff_eq_none.mp hfail] at hu
    cases hu
  have G : Outgrown r.st size := ⟨O.room, O.slot, O.max, hbelow, hnone⟩
  obtain ⟨s₁, segs₁, hs₁, X, hlive, hrest⟩ :=
    O.extend (P := P) G (ends_in_hole O.wellFormed O.low hhigh)
  rw [G.alloc_eq hle (d + 1), hs₁] at halloc
  have hsame := grown_same (P := P) r.st (grownSz r.st size)
  rw [hs₁] at hsame
  obtain ⟨hstart, harray, hmax⟩ := hsame
  have I₁ := O.toIntact.of_live X.wellFormed X.room hstart X.stop hlive
  obtain ⟨g, hg, hhole, hfit⟩ := X.fits
  obtain ⟨i, hfind⟩ := holeFind_of_fits (n := size + 20)
    (X.wellFormed.listed.symm.subset (mem_holeAddrs.mpr ⟨g, hg, hhole, rfl⟩))
    (by rw [(X.wellFormed.tagged g hg).size]; exact hfit)
  rw [alloc, hreal, hfind] at halloc
  refine @Intact.served ⟨s₁, r.live⟩ segs₁ I₁ ?_ ?_ size i hsize hfind (hrest i hfind) p t halloc
  · dsimp only
    rw [harray, hstart]
    exact O.slot
  · dsimp only
    rw [hmax]
    exact O.max

theorem Ordered.free (O : Ordered r segs) {p : Nat} (h : Orderly P r (.free p))
    (hcall : r.call P d (.free p) = some r') : ∃ segs', Ordered r' segs' := by
  have hexec : r.exec (.free p) = some r' := hcall
  rcases h with rfl | ⟨hlive, htags, hslot, hkeeps⟩
  · -- `free(NULL)`
    have hfree : (Heap.free r.st 0).map (fun s => (⟨s, r.live.filter fun b => b.1 ≠ 0⟩ : Run))
      = some r' := hexec
    obtain rfl := Option.some.inj hfree
    have hfilter : r.live.filter (fun b => b.1 ≠ 0) = r.live := by
      refine List.filter_eq_self.mpr fun b hb => decide_eq_true ?_
      obtain ⟨g, -, haddr, -⟩ := O.seg b hb
      omega
    rw [hfilter]
    exact ⟨segs, O⟩
  obtain ⟨r'', segs', hexec', I'⟩ := O.toIntact.free hlive htags hslot
  rw [hexec] at hexec'
  obtain rfl := Option.some.inj hexec'
  obtain ⟨l₁, g, l₂, rfl, hg, rfl⟩ := O.toIntact.find hlive
  have hquiet := Quiet.of_noTags htags O.low
  obtain ⟨m₂, l₁', g₂, add, s₃, g₃, l₂', gone, ph⟩ :=
    free_phases O.wellFormed O.room O.stop (hquiet.calm O.wellFormed.toSegmented) hg
  have hF := ph.freed O.wellFormed O.room O.stop hg (hquiet.freeSlot O.wellFormed.toSegmented hslot)
  have hsorted := O.sorted.free ph O.wellFormed O.room O.stop hquiet hg hslot hkeeps
  obtain ⟨t, hfree, rfl⟩ := Option.map_eq_some_iff.mp hexec
  rw [ph.call O.wellFormed O.stop hg] at hfree
  obtain rfl := Option.some.inj hfree
  refine ⟨segs', I', ?_, ?_, hsorted⟩
  · dsimp only
    rw [hF.same.array, hF.same.start]
    exact O.slot
  · dsimp only
    rw [hF.same.max]
    exact O.max

theorem Ordered.store (O : Ordered r segs) {a : Nat} {v : UInt8} (h : Enabled r (.store a v))
    (hcall : r.call P d (.store a v) = some r') : ∃ segs', Ordered r' segs' := by
  have hexec : r.exec (.store a v) = some r' := hcall
  obtain ⟨r'', segs', hexec', I'⟩ := O.toIntact.store h
  rw [hexec] at hexec'
  obtain rfl := Option.some.inj hexec'
  obtain rfl := Option.some.inj hexec
  have hholes := O.toIntact.store_holes h
  refine ⟨segs', I', O.slot, O.max, O.sorted.of_sublist (hholes ▸ List.Sublist.refl _) ?_⟩
  intro b hb
  have hb' : b ∈ r.st.holes := hholes ▸ hb
  obtain ⟨k, hk, -, rfl, -⟩ := O.wellFormed.hole_bounds hb'
  exact (O.toIntact.store_tagged h k hk).size.trans (O.wellFormed.tagged k hk).size.symm

/-- One call keeps the order under its condition. -/
theorem Ordered.step (O : Ordered r segs) {op : Op} (h : Orderly P r op)
    (hcall : r.call P d op = some r') : ∃ segs', Ordered r' segs' := by
  cases op with
  | alloc size =>
      obtain ⟨hsize, hgrow⟩ := h
      cases hfind : holeFind r.st (size + 20) 0 with
      | some i => exact O.served hsize hfind hcall
      | none => exact O.grown hsize hfind (hgrow hfind) hcall
  | free p => exact O.free h hcall
  | store a v => exact O.store h hcall

theorem Ordered.run {ops : List Op} (O : Ordered r segs) (h : OrderlyRun P d r ops)
    (hcalls : r.calls P d ops = some r') : ∃ segs', Ordered r' segs' := by
  induction ops generalizing r segs with
  | nil => exact ⟨segs, Option.some.inj hcalls ▸ O⟩
  | cons op ops ih =>
      obtain ⟨r₁, hcall, hrest⟩ := Option.bind_eq_some_iff.mp hcalls
      obtain ⟨hop, hops⟩ := h
      rw [hcall] at hops
      obtain ⟨segs₁, O₁⟩ := O.step hop hcall
      exact ih O₁ hops hrest

theorem create_max {m : Mem} {start stop max indexSz : Nat} {kernel : Bool} {s : St}
    (h : create m start stop max indexSz kernel = some s) : s.heap.max = max := by
  unfold create at h
  split at h
  · obtain rfl := Option.some.inj h
    exact (insert_same _ _).max
  · exact nomatch h

end Runs

/-- **Allocation is best fit** in every run in which no hole that `free` enlarges
outgrows the holes listed after it: the index lists the holes of the heap in the order
of their sizes, and `vmem_heap_hole_find` returns a smallest one that is large enough,
or nothing exactly if there is none. -/
theorem best_fit_run {m : Mem} {start stop max indexSz : Nat} {kernel : Bool} {s : St} {P : Pages}
    {d : Nat} {ops : List Op} {r : Run} (hcreate : create m start stop max indexSz kernel = some s)
    (hslot : 0 < indexSz) (hwrap : start + 4 * indexSz ≤ s.heap.start)
    (hroom : s.heap.start + 20 ≤ stop) (hstop : stop < 2 ^ 32) (hmax : max < 2 ^ 32)
    (hops : OrderlyRun P d ⟨s, []⟩ ops) (hrun : Run.calls P d ⟨s, []⟩ ops = some r) :
    ∃ segs, WellFormed r.st segs ∧ Sorted r.st ∧ ∀ n,
      (∀ i, holeFind r.st n 0 = some i → ∃ g ∈ segs, g.hole = true ∧ r.st.get i = some g.addr
        ∧ n ≤ g.size ∧ ∀ k ∈ segs, k.hole = true → n ≤ k.size → g.size ≤ k.size)
      ∧ (holeFind r.st n 0 = none ↔ ∀ k ∈ segs, k.hole = true → k.size < n) := by
  have hindex := create_index hcreate
  have O₀ : Ordered ⟨s, []⟩ [⟨s.heap.start, stop - s.heap.start, true⟩] := by
    have I := create_spec hcreate hslot hwrap hroom hstop
    refine ⟨I, ?_, ?_, ?_⟩
    · dsimp only
      rw [hindex]
      dsimp only
      omega
    · dsimp only
      rw [create_max hcreate]
      exact hmax
    · have hone : s.holes = [s.heap.start] := List.perm_singleton.mp I.wellFormed.listed
      show List.Pairwise _ s.holes
      rw [hone]
      exact List.pairwise_singleton _ _
  obtain ⟨segs, O⟩ := O₀.run hops hrun
  have W := O.wellFormed
  have hhole : ∀ k ∈ segs, k.hole = true → k.addr ∈ r.st.holes := fun k hk h =>
    W.listed.symm.subset (mem_holeAddrs.mpr ⟨k, hk, h, rfl⟩)
  refine ⟨segs, W, O.sorted, fun n => ?_⟩
  obtain ⟨hbest, hnone⟩ := O.sorted.best_fit n
  refine ⟨fun i hi => ?_, hnone.trans ?_⟩
  · obtain ⟨a, ha, hget, hn, hmin⟩ := hbest i hi
    obtain ⟨g, hg, hghole, rfl, -⟩ := W.hole_bounds ha
    rw [(W.tagged g hg).size] at hn hmin
    refine ⟨g, hg, hghole, hget, hn, fun k hk hk' hnk => ?_⟩
    have := hmin k.addr (hhole k hk hk')
    rw [(W.tagged k hk).size] at this
    exact this hnk
  · constructor
    · intro h k hk hk'
      have := h k.addr (hhole k hk hk')
      rwa [(W.tagged k hk).size] at this
    · intro h b hb
      obtain ⟨k, hk, hk', rfl, -⟩ := W.hole_bounds hb
      rw [(W.tagged k hk).size]
      exact h k hk hk'

/-- A heap of two pages with eight index slots. -/
def slotHeap : St := (create (fun _ => 0) 0x1000 0x4000 0x4000 8 false).get rfl

/-- Two blocks are freed, the second one next to the first. -/
def orderlyOps : List Op := [.alloc 8, .alloc 8, .alloc 8, .free 0x200c, .free 0x2028]

theorem best_fit_run_slotHeap : OrderlyRun samePages 0 ⟨slotHeap, []⟩ orderlyOps
    ∧ ∃ r, Run.calls samePages 0 ⟨slotHeap, []⟩ orderlyOps = some r
      ∧ ∃ segs, WellFormed r.st segs ∧ Sorted r.st ∧ ∀ n,
        (∀ i, holeFind r.st n 0 = some i → ∃ g ∈ segs, g.hole = true ∧ r.st.get i = some g.addr
          ∧ n ≤ g.size ∧ ∀ k ∈ segs, k.hole = true → n ≤ k.size → g.size ≤ k.size)
        ∧ (holeFind r.st n 0 = none ↔ ∀ k ∈ segs, k.hole = true → k.size < n) := by
  have horderly : OrderlyRun samePages 0 ⟨slotHeap, []⟩ orderlyOps := by decide +kernel
  have hcreate : create (fun _ => 0) 0x1000 0x4000 0x4000 8 false = some slotHeap := rfl
  have hsome : (Run.calls samePages 0 ⟨slotHeap, []⟩ orderlyOps).isSome = true := by
    decide +kernel
  obtain ⟨r, hrun⟩ := Option.isSome_iff_exists.mp hsome
  exact ⟨horderly, r, hrun, best_fit_run hcreate (by decide) (by decide) (by decide) (by decide)
    (by decide) horderly hrun⟩

/-- The hole of the first block is joined with the second block; a smaller one is
listed after it. -/
def outgrownOps : List Op :=
  [.alloc 8, .alloc 8, .alloc 8, .alloc 10, .alloc 8, .free 0x200c, .free 0x2060, .free 0x2028]

/-- A request of 30 bytes is served from a hole of 56, although one of 30 is there. -/
theorem best_fit_fails : ∃ r, Run.calls samePages 0 ⟨slotHeap, []⟩ outgrownOps = some r
    ∧ ¬Sorted r.st ∧ holeFind r.st 30 0 = some 0 ∧ r.st.get 0 = some 0x2000
    ∧ hdrSize r.st.mem 0x2000 = 56 ∧ 0x2054 ∈ r.st.holes ∧ hdrSize r.st.mem 0x2054 = 30 := by
  refine ⟨(Run.calls samePages 0 ⟨slotHeap, []⟩ outgrownOps).get (by decide +kernel),
    (Option.some_get _).symm, ?_⟩
  unfold Sorted
  decide +kernel

end Heap

end Shitos
