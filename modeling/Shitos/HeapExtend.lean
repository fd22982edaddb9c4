import Shitos.HeapShrink
import Shitos.HeapMove

/-!
# Growing a block

The ways in which `vmem_heap_realloc` makes a block larger: into new pages, into a hole
behind it that is large enough, into one that is not, with a second call for the rest,
and by a move. Each step is shown to leave the heap well formed; a step that lists one
more hole than before needs a free slot for it, and a move frees the old block, with
what that takes (`MoveFits`). `extend_iff` puts the steps together.
-/

namespace Shitos

namespace Heap

/-! ## Into the hole behind the block -/

/-- The memory in which `g` has `n` bytes and the rest of `r` is a hole again. -/
def splitMem (m : Mem) (g r : Seg) (n : Nat) : Mem :=
  setFtrHdr (putHole (resize m g.addr n) (g.addr + n) (r.addr + r.size - (g.addr + n)))
    (r.addr + r.size - 8) (g.addr + n)

section Into

variable {s s₁ : St} {l₁ l₃ : List Seg} {g r : Seg} {n : Nat}

/-- Where a block and the hole behind it lie. -/
theorem pair_bounds (W : WellFormed s (l₁ ++ g :: r :: l₃)) : s.heap.start ≤ g.addr
    ∧ r.addr = g.addr + g.size ∧ r.addr + r.size ≤ s.heap.stop ∧ 20 ≤ g.size ∧ 20 ≤ r.size
    ∧ Tagged s.mem g ∧ Tagged s.mem r := by
  have hgmem : g ∈ l₁ ++ g :: r :: l₃ := List.mem_append_right _ List.mem_cons_self
  have hrmem : r ∈ l₁ ++ g :: r :: l₃ :=
    List.mem_append_right _ (List.mem_cons_of_mem _ List.mem_cons_self)
  exact ⟨(W.tiles.bounds hgmem).1, (next_hole W).1, (W.tiles.bounds hrmem).2, W.min g hgmem,
    W.min r hrmem, W.tagged g hgmem, W.tagged r hrmem⟩

theorem extendHole_eq (W : WellFormed s (l₁ ++ g :: r :: l₃)) (hP : Paged s)
    (hr : r.hole = true) (hn : g.size < n) (hlt : n < 2 ^ 32) : ∃ s₁, Unlisted s r.addr s₁
      ∧ extendHole s g.addr r.addr n = some (
        if r.size < n - g.size then (⟨mergeMem s₁.mem g r, s₁.heap⟩, true)
        else if 20 ≤ r.size - (n - g.size) then
          (St.insert ⟨splitMem s₁.mem g r n, s₁.heap⟩ (g.addr + n), false)
        else (⟨mergeMem s₁.mem g r, s₁.heap⟩, false)) := by
  have hrmem : r ∈ l₁ ++ g :: r :: l₃ :=
    List.mem_append_right _ (List.mem_cons_of_mem _ List.mem_cons_self)
  obtain ⟨hlow, hnext, hend, g20, r20, hgtag, hrtag⟩ := pair_bounds W
  have hstop := hP.stop
  obtain ⟨i, s₁, hindex, hrem, U⟩ := W.unlist hP.toPlaced hrmem hr
  refine ⟨s₁, U, ?_⟩
  have hrftr : ftrOf s.mem r.addr = r.addr + r.size - 8 := ftrOf_eq hrtag r20 (by omega)
  have hgsize : hdrSize s₁.mem g.addr = g.size :=
    (hgtag.congr g20 fun x h1 _ => U.mem x (by omega)).size
  have hrsize : hdrSize s₁.mem r.addr = r.size :=
    (hrtag.congr r20 fun x h1 _ => U.mem x (by omega)).size
  have hextra : sub32 n (hdrSize s.mem g.addr) = n - g.size := by
    rw [hgtag.size, sub32_of_le (by omega)]
  have hclaim : setFtrHdr (setSize s₁.mem g.addr (add32 g.size r.size)) (r.addr + r.size - 8) g.addr
      = mergeMem s₁.mem g r := by
    rw [add32_of_lt (by omega)]
    rfl
  unfold extendHole
  simp only [hindex, hrem, Option.bind_eq_bind, Option.bind_some, Option.pure_def, hrftr, hextra,
    hgsize, hrsize, hclaim]
  by_cases hless : r.size < n - g.size
  · rw [if_pos hless, if_pos hless]
  rw [if_neg hless, if_neg hless]
  by_cases hsplit : 20 ≤ r.size - (n - g.size)
  · have hsize : hdrSize (setSize s₁.mem g.addr n) g.addr = n := hdrSize_setSize hlt
    have hftr : ftrOf (setSize s₁.mem g.addr n) g.addr = g.addr + n - 8 := by
      rw [ftrOf, hsize, add32_of_lt (by omega), footerSz, sub32_of_le (by omega)]
    have hhole : add32 (g.addr + n - 8) footerSz = g.addr + n := by
      unfold footerSz
      rw [add32_of_lt (by omega)]
      omega
    have hrest : sub32 (add32 (r.addr + r.size - 8) footerSz) (g.addr + n)
        = r.addr + r.size - (g.addr + n) := by
      unfold footerSz
      rw [add32_of_lt (by omega), sub32_of_le (by omega)]
      omega
    have hcmp : r.size - (n - g.size) ≥ headerSz + footerSz := hsplit
    rw [if_pos hcmp, if_pos hsplit]
    simp only [hftr, hhole, hrest]
    unfold splitMem resize
    simp only [hftr]
  · have hcmp : ¬r.size - (n - g.size) ≥ headerSz + footerSz := hsplit
    rw [if_neg hcmp, if_neg hsplit]

/-- The block with all of the hole. -/
theorem claim_wellFormed (W : WellFormed s (l₁ ++ g :: r :: l₃)) (hP : Paged s)
    (hlive : g.hole = false) (hr : r.hole = true) (U : Unlisted s r.addr s₁) :
    WellFormed ⟨mergeMem s₁.mem g r, s₁.heap⟩ (l₁ ++ ⟨g.addr, g.size + r.size, false⟩ :: l₃)
      ∧ Paged ⟨mergeMem s₁.mem g r, s₁.heap⟩ := by
  obtain ⟨hlow, hnext, hend, g20, r20, -, -⟩ := pair_bounds W
  have hstop := hP.stop
  have S₁ : Segmented s₁ (l₁ ++ g :: r :: l₃) := W.toSegmented.of_low U.same U.mem
  obtain ⟨-, S⟩ := S₁.join (by rw [U.same.stop]; exact hstop)
  rw [hlive] at S
  obtain ⟨hP₁, -⟩ := U.placed hP.toPlaced (mergeMem s₁.mem g r)
  refine ⟨⟨S, ?_, ?_⟩, hP₁, ?_⟩
  · have hbehind : Behind (r :: l₃) r.size l₃ := Or.inl ⟨r, rfl, hr, rfl⟩
    obtain ⟨h₃, hhead⟩ := hbehind.apart W
    obtain ⟨h₁, -, -⟩ := List.isChain_append.mp W.apart
    refine List.isChain_append.mpr ⟨h₁, ?_, fun x hx y hy => ?_⟩
    · rw [List.isChain_cons]
      exact ⟨fun y _ => Apart.of_not_left rfl, h₃⟩
    · cases hy
      exact Apart.of_not_right rfl
  · have hholes : St.holes ⟨mergeMem s₁.mem g r, s₁.heap⟩ = s₁.holes := by
      refine holes_of_low rfl hP₁.room fun x hx => ?_
      rw [U.same.start] at hx
      exact mergeMem_apply g20 r20 hnext.symm (Or.inl (by omega))
    rw [hholes, holeAddrs_append, holeAddrs_cons, if_neg Bool.false_ne_true]
    exact U.listed W hlive hr
  · dsimp only
    rw [U.same.stop]
    exact hP.ends

theorem mergeMem_frame {m : Mem} (r20 : 20 ≤ r.size) {x : Nat}
    (hx : x < g.addr + 8 ∨ g.addr + 12 ≤ x) (hx' : x < r.addr ∨ r.addr + r.size ≤ x) :
    mergeMem m g r x = m x := by
  simp only [mergeMem, setFtrHdr, setSize]
  rw [wr32_apply_of_ne (by omega), wr32_apply_of_ne (by omega)]

theorem claim_align (W : WellFormed s (l₁ ++ g :: r :: l₃)) (U : Unlisted s r.addr s₁) :
    hdrAlign (mergeMem s₁.mem g r) g.addr = hdrAlign s.mem g.addr := by
  obtain ⟨hlow, hnext, -, g20, r20, -, -⟩ := pair_bounds W
  rw [hdrAlign, hdrAlign, rd8, rd8, mergeMem_frame r20 (by omega) (by omega), U.mem _ (by omega)]

theorem splitMem_apply {m : Mem} (g20 : 20 ≤ g.size) (hnext : r.addr = g.addr + g.size)
    (hn : g.size < n) (hrest : 20 ≤ r.size - (n - g.size)) (hend : r.addr + r.size < 2 ^ 32)
    {x : Nat} (hx : x < g.addr + 8 ∨ g.addr + 12 ≤ x)
    (hx' : x < g.addr + n - 8 ∨ r.addr + r.size ≤ x) : splitMem m g r n x = m x := by
  rw [splitMem, setFtrHdr_apply (by omega), putHole_apply (by omega),
    resize_apply (by omega) (by omega) hx (by omega)]

theorem splitMem_tagged {m : Mem} (hgtag : Tagged m g) (hrtag : Tagged m r) (g20 : 20 ≤ g.size)
    (hnext : r.addr = g.addr + g.size) (hn : g.size < n) (hrest : 20 ≤ r.size - (n - g.size))
    (hend : r.addr + r.size < 2 ^ 32) :
    Tagged (splitMem m g r n) ⟨g.addr, n, g.hole⟩ ∧ Tagged (splitMem m g r n)
      ⟨g.addr + n, r.addr + r.size - (g.addr + n), true⟩ := by
  have hstop : g.addr + n + (r.addr + r.size - (g.addr + n)) - 8 = r.addr + r.size - 8 := by omega
  constructor
  · refine (resize_tagged hgtag.magic hgtag.hole (by omega) (by omega)).congr
      (by dsimp only; omega) fun x h1 h2 => ?_
    dsimp only at h1 h2
    rw [splitMem, setFtrHdr_apply (by omega), putHole_apply (by omega)]
  · have hhdr : ∀ x, g.addr + n ≤ x → x < g.addr + n + 12 → splitMem m g r n x
        = putHeader (resize m g.addr n) (g.addr + n) (r.addr + r.size - (g.addr + n)) 1 0 x :=
      fun x h1 h2 => by rw [splitMem, setFtrHdr_apply (by omega), putHole_eq]
    have hput := @tagged_put (resize m g.addr n) (g.addr + n) (r.addr + r.size - (g.addr + n)) 0 true
      (by omega) (by omega) (by omega)
    have hkeep : ∀ x, g.addr + n ≤ x → x < g.addr + n + 12 → splitMem m g r n x
        = putFooter (putHeader (resize m g.addr n) (g.addr + n) (r.addr + r.size - (g.addr + n))
          true.toNat 0) (g.addr + n + (r.addr + r.size - (g.addr + n)) - 8) (g.addr + n) x :=
      fun x h1 h2 => by
        rw [hhdr x h1 h2, putFooter_apply (by omega)]
        rfl
    refine ⟨?_, ?_, ?_, ?_, ?_⟩
    · exact Eq.trans (rd32_congr fun x h1 h2 => hkeep x h1 (by dsimp only at h2; omega)) hput.magic
    · rw [← hput.hole]
      dsimp only
      rw [hdrHole, hdrHole, rd8, rd8, hkeep _ (by omega) (by omega)]
    · exact Eq.trans (rd32_congr fun x h1 h2 =>
        hkeep x (by dsimp only at h1; omega) (by dsimp only at h2; omega)) hput.size
    · dsimp only
      rw [hstop]
      refine Eq.trans (rd32_congr fun x h1 h2 => ?_) hrtag.ftrMagic
      rw [splitMem, setFtrHdr_apply (by omega), putHole_apply (by omega),
        resize_apply (by omega) (by omega) (by omega) (by omega)]
    · dsimp only
      rw [hstop]
      exact rd32_wr32_same _ (by omega)

end Into

/-! ## What the steps come to -/

section Outcome

variable {s s' : St} {l₁ l₂ l₃ : List Seg} {g r k : Seg} {size keep n : Nat}

/-- The last hole of a segmented heap gets its place in the index. -/
theorem Segmented.list_hole {segs : List Seg} (S : Segmented s segs) (hchain : segs.IsChain Apart)
    (hroom : Room s 1) {el : Nat} (hel : el < 2 ^ 32)
    (hlist : (el :: s.holes).Perm (holeAddrs segs)) : WellFormed (s.insert el) segs :=
  ⟨S.of_low (insert_same s el) fun _ hx => insert_mem hroom hx, hchain,
    (insert_holes hel).trans hlist⟩

/-- The block is where it was, with what was in it. -/
theorem resized_inPlace {t : List Seg} (W' : WellFormed s' (l₁ ++ k :: t)) (hP' : Placed s')
    (hk : k.hole = false) (haddr : k.addr = g.addr) (hsize : size + 20 ≤ k.size)
    (hlive : liveSegs t = liveSegs l₂)
    (hkeep : ∀ x, g.addr + 12 ≤ x → x < g.addr + 12 + keep → s'.mem x = s.mem x)
    (hframe : ∀ b ∈ l₁ ++ l₂, b.hole = false → ∀ x, b.addr ≤ x → x < b.addr + b.size →
      s'.mem x = s.mem x) : Resized s l₁ g l₂ size keep (g.addr + 12) s' := by
  refine ⟨_, k, W', hP', hk, by rw [haddr], hsize, ?_, fun x hx => hkeep _ (by omega) (by omega),
    fun b hb => ?_⟩
  · rw [liveSegs_append, liveSegs_cons, if_neg (by rw [hk]; decide), hlive]
    exact List.perm_middle
  · rw [← liveSegs_append] at hb
    obtain ⟨hmem, hlive⟩ := mem_liveSegs.mp hb
    exact hframe b hmem hlive

/-- Other blocks are outside of the block and of the hole behind it. -/
theorem off_pair (W : WellFormed s (l₁ ++ g :: r :: l₃)) (hr : r.hole = true) {b : Seg}
    (hb : b ∈ l₁ ++ r :: l₃) (hlive : b.hole = false) :
    s.heap.start ≤ b.addr ∧ (b.addr + b.size ≤ g.addr ∨ r.addr + r.size ≤ b.addr) := by
  have hmem : b ∈ l₁ ++ g :: r :: l₃ := by
    rcases List.mem_append.mp hb with hb | hb
    · exact List.mem_append_left _ hb
    · exact List.mem_append_right _ (List.mem_cons_of_mem _ hb)
  refine ⟨(W.tiles.bounds hmem).1, ?_⟩
  rcases List.mem_append.mp hb with hb | hb
  · exact Or.inl ((tiles_split.mp W.tiles).1.bounds hb).2
  · rcases List.mem_cons.mp hb with rfl | hb
    · rw [hr] at hlive
      cases hlive
    · have hbehind : Behind (r :: l₃) r.size l₃ := Or.inl ⟨r, rfl, hr, rfl⟩
      have := ((hbehind.tiles W).bounds hb).1
      have := (next_hole W).1
      omega

/-- All of the hole goes to the block. -/
theorem claim_resized (W : WellFormed s (l₁ ++ g :: r :: l₃)) (hP : Paged s)
    (hlive : g.hole = false) (hr : r.hole = true) {s₁ : St} (U : Unlisted s r.addr s₁)
    (hsize : size + 20 ≤ g.size + r.size) :
    Resized s l₁ g (r :: l₃) size (g.size - 20) (g.addr + 12) ⟨mergeMem s₁.mem g r, s₁.heap⟩ := by
  obtain ⟨hlow, hnext, hend, g20, r20, -, -⟩ := pair_bounds W
  obtain ⟨W', hP'⟩ := claim_wellFormed W hP hlive hr U
  refine resized_inPlace W' hP'.toPlaced rfl rfl hsize ?_ (fun x h1 h2 => ?_)
    fun b hb hblive x h1 h2 => ?_
  · rw [liveSegs_cons, if_pos hr]
  · exact (mergeMem_frame r20 (by omega) (by omega)).trans (U.mem x (by omega))
  · obtain ⟨hb1, hb2⟩ := off_pair W hr hb hblive
    exact (mergeMem_frame r20 (by omega) (by omega)).trans (U.mem x (by omega))

/-- A part of the hole goes to the block, and the rest is a hole again. -/
theorem split_resized (W : WellFormed s (l₁ ++ g :: r :: l₃)) (hP : Paged s)
    (hlive : g.hole = false) (hr : r.hole = true) {s₁ : St} (U : Unlisted s r.addr s₁)
    (hn : g.size < size + 20) (hrest : 20 ≤ r.size - (size + 20 - g.size)) :
    Resized s l₁ g (r :: l₃) size (g.size - 20) (g.addr + 12)
      (St.insert ⟨splitMem s₁.mem g r (size + 20), s₁.heap⟩ (g.addr + (size + 20))) := by
  obtain ⟨hlow, hnext, hend, g20, r20, hgtag, hrtag⟩ := pair_bounds W
  have hstop := hP.stop
  obtain ⟨hP₁, hslot⟩ := U.placed hP.toPlaced (splitMem s₁.mem g r (size + 20))
  have hroom := hP₁.room_one hslot
  have S₁ : Segmented s₁ (l₁ ++ g :: r :: l₃) := W.toSegmented.of_low U.same U.mem
  have happly : ∀ x, x < g.addr + 8 ∨ g.addr + 12 ≤ x →
      x < g.addr + (size + 20) - 8 ∨ r.addr + r.size ≤ x →
      splitMem s₁.mem g r (size + 20) x = s₁.mem x := fun x h1 h2 =>
    splitMem_apply g20 hnext hn hrest (by omega) h1 h2
  have hmem : ∀ x, s.heap.start ≤ x →
      (St.insert ⟨splitMem s₁.mem g r (size + 20), s₁.heap⟩ (g.addr + (size + 20))).mem x
        = splitMem s₁.mem g r (size + 20) x := fun x hx =>
    insert_mem hroom (by dsimp only; rw [U.same.start]; exact hx)
  obtain ⟨hblock, hhole⟩ := splitMem_tagged (n := size + 20)
    (hgtag.congr g20 fun x h1 _ => U.mem x (by omega))
    (hrtag.congr r20 fun x h1 _ => U.mem x (by omega)) g20 hnext hn hrest (by omega)
  rw [hlive] at hblock
  have hbehind : Behind (r :: l₃) r.size l₃ := Or.inl ⟨r, rfl, hr, rfl⟩
  obtain ⟨h₃, hhead⟩ := hbehind.apart W
  have S : Segmented ⟨splitMem s₁.mem g r (size + 20), s₁.heap⟩
      (l₁ ++ ([⟨g.addr, size + 20, false⟩, ⟨g.addr + (size + 20),
        r.addr + r.size - (g.addr + (size + 20)), true⟩] ++ l₃)) := by
    refine @Segmented.splice s₁ _ l₁ [g, r] _ l₃ g.addr (r.addr + r.size) S₁
      (SameHeap.of_mem s₁ _) ⟨rfl, by omega, hnext, by omega, by dsimp only [Tiles]; omega⟩
      (List.cons_ne_nil _ _) ⟨rfl, by dsimp only; omega, rfl, by dsimp only; omega, ?_⟩
      (fun k hk => ?_) (fun k hk => ?_) fun x _ hx => happly x (by omega) (by omega)
    · dsimp only [Tiles]
      omega
    · rcases List.mem_cons.mp hk with rfl | hk
      · dsimp only
        omega
      · rw [List.mem_singleton.mp hk]
        dsimp only
        omega
    · rcases List.mem_cons.mp hk with rfl | hk
      · exact hblock
      · rw [List.mem_singleton.mp hk]
        exact hhole
  have hchain : (l₁ ++ ([(⟨g.addr, size + 20, false⟩ : Seg), ⟨g.addr + (size + 20),
        r.addr + r.size - (g.addr + (size + 20)), true⟩] ++ l₃)).IsChain Apart := by
    obtain ⟨h₁, -, -⟩ := List.isChain_append.mp W.apart
    refine List.isChain_append.mpr ⟨h₁, ?_, fun x hx y hy => ?_⟩
    · rw [List.cons_append, List.singleton_append, List.isChain_cons, List.isChain_cons]
      exact ⟨fun y _ => Apart.of_not_left rfl, fun y hy => Apart.of_not_right (hhead y hy), h₃⟩
    · cases hy
      exact Apart.of_not_right rfl
  have hlist : ((g.addr + (size + 20))
      :: St.holes ⟨splitMem s₁.mem g r (size + 20), s₁.heap⟩).Perm
      (holeAddrs (l₁ ++ ([⟨g.addr, size + 20, false⟩, ⟨g.addr + (size + 20),
        r.addr + r.size - (g.addr + (size + 20)), true⟩] ++ l₃))) := by
    have hholes : St.holes ⟨splitMem s₁.mem g r (size + 20), s₁.heap⟩ = s₁.holes := by
      refine holes_of_low rfl hP₁.room fun x hx => ?_
      rw [U.same.start] at hx
      exact happly x (by omega) (by omega)
    rw [hholes, holeAddrs_append]
    exact ((U.listed W hlive hr).cons _).trans List.perm_middle.symm
  have W' := S.list_hole hchain hroom (by omega) hlist
  have hsame := insert_same ⟨splitMem s₁.mem g r (size + 20), s₁.heap⟩ (g.addr + (size + 20))
  refine resized_inPlace (k := ⟨g.addr, size + 20, false⟩) W' ?_ rfl rfl (Nat.le_refl _) ?_
    (fun x h1 h2 => ?_) fun b hb hblive x h1 h2 => ?_
  · refine hP₁.of_same hsame ?_
    rw [insert_index_size, hsame.maxSize]
    exact hslot
  · exact (liveSegs_cons _ _).trans ((if_pos rfl).trans
      ((liveSegs_cons _ _).trans (if_pos hr)).symm)
  · rw [hmem x (by omega), happly x (by omega) (by omega), U.mem x (by omega)]
  · obtain ⟨hb1, hb2⟩ := off_pair W hr hb hblive
    rw [hmem x (by omega), happly x (by omega) (by omega), U.mem x (by omega)]

end Outcome

/-! ## Into new pages -/

/-- The heap with its last block grown to `n` bytes into the pages that extend it to `Z`
bytes, and what is left of them tagged as a hole. -/
def ended (P : Pages) (s : St) (g : Seg) (n Z : Nat) : St :=
  ⟨holeMem (resize (extended P s Z).mem g.addr n) (g.addr + n) (s.heap.start + Z - (g.addr + n)),
    (extended P s Z).heap⟩

section End

variable {P : Pages} {s : St} {l₁ : List Seg} {g : Seg} {size n Z : Nat}

/-- An expansion that goes through: the sum of the sizes has not wrapped, the end of the
heap may have. -/
theorem expand_some {t : St} (hP : Paged s) (hle : s.heap.start ≤ s.heap.stop) (hn : n < 2 ^ 32)
    (h : expand P s (add32 (sub32 s.heap.stop s.heap.start) n) = some t) :
    ∃ Z, Z = (s.heap.stop - s.heap.start + n + 4095) / 4096 * 4096 ∧ Z < 2 ^ 32
      ∧ (s.heap.start + Z) % 2 ^ 32 ≤ s.heap.max
      ∧ t = ⟨P.map s.heap Z s.mem, { s.heap with stop := (s.heap.start + Z) % 2 ^ 32 }⟩ := by
  have hstart := hP.aligned
  have hends := hP.ends
  have hstop := hP.stop
  unfold expand at h
  dsimp only at h
  split at h
  · rename_i hpass
    refine ⟨_, ?_, ?_, hpass.2, (Option.some.inj h).symm⟩
    · have hmore := hpass.1
      unfold pageUp add32 at hmore ⊢
      rw [sub32_of_le hle] at hmore ⊢
      omega
    · unfold pageUp
      omega
  · exact nomatch h

theorem extendEnd_eq (hexpand : expand P s (add32 (sub32 s.heap.stop s.heap.start) n)
      = some (extended P s Z)) (h20 : 20 ≤ n) (hend : g.addr + n + 20 ≤ s.heap.start + Z)
    (hlt : s.heap.start + Z < 2 ^ 32) :
    extendEnd P s g.addr n = some ((ended P s g n Z).insert (g.addr + n)) := by
  generalize hm : (extended P s Z).mem = m
  have hsize : hdrSize (setSize m g.addr n) g.addr = n := hdrSize_setSize (by omega)
  have hftr : ftrOf (setSize m g.addr n) g.addr = g.addr + n - 8 := by
    rw [ftrOf, hsize, add32_of_lt (by omega), footerSz, sub32_of_le (by omega)]
  have hhole : add32 (g.addr + n - 8) footerSz = g.addr + n := by
    unfold footerSz
    rw [add32_of_lt (by omega)]
    omega
  have hrest : sub32 (extended P s Z).heap.stop (g.addr + n) = s.heap.start + Z - (g.addr + n) :=
    sub32_of_le (by dsimp only [extended]; omega)
  have hresize : putFooter (setSize m g.addr n) (g.addr + n - 8) g.addr = resize m g.addr n := by
    rw [resize, hftr]
  generalize hz : s.heap.start + Z - (g.addr + n) = z at hrest
  have hholeFtr : ftrOf (putHole (resize m g.addr n) (g.addr + n) z) (g.addr + n)
      = g.addr + n + z - 8 := by
    rw [ftrOf, hdrSize_putHole (by omega), add32_of_lt (by omega), footerSz,
      sub32_of_le (by omega)]
  unfold extendEnd
  simp only [hexpand, Option.bind_eq_bind, Option.bind_some, Option.pure_def, hm, hftr, hhole,
    hrest, hresize, hholeFtr]
  rw [putHole_eq, ended, holeMem, hm, hz]

/-- Up to the new footer only the size of the block is written. -/
theorem ended_mem (W : WellFormed s (l₁ ++ [g])) (hn : g.size ≤ n)
    (hend : g.addr + n + 20 ≤ s.heap.start + Z) (hlt : s.heap.start + Z < 2 ^ 32) {x : Nat}
    (hlow : s.heap.index.array ≤ x) (hx : x < g.addr + 8 ∨ g.addr + 12 ≤ x)
    (hx' : x + 8 < g.addr + g.size) : (ended P s g n Z).mem x = s.mem x := by
  have hgmem : g ∈ l₁ ++ [g] := List.mem_append_right _ List.mem_cons_self
  have g20 := W.min g hgmem
  have hstop : g.addr + g.size = s.heap.stop := (tiles_split.mp W.tiles).2.2
  unfold ended
  dsimp only
  rw [holeMem_apply (by omega) (Or.inl (by omega)),
    resize_apply (by omega) (by omega) hx (Or.inl (by omega)), extended_mem hlow (by omega)]

theorem extendEnd_resized (W : WellFormed s (l₁ ++ [g])) (hP : Paged s) (hlive : g.hole = false)
    (hslot : s.heap.index.size < s.heap.index.maxSize) (hn : g.size < size + 20)
    (hmore : s.heap.stop - s.heap.start + (size + 20) ≤ Z) (hlt : s.heap.start + Z < 2 ^ 32) :
    Resized s l₁ g [] size (g.size - 20) (g.addr + 12)
      ((ended P s g (size + 20) Z).insert (g.addr + (size + 20))) := by
  have hgmem : g ∈ l₁ ++ [g] := List.mem_append_right _ List.mem_cons_self
  have g20 := W.min g hgmem
  have hlow := (W.tiles.bounds hgmem).1
  obtain ⟨ht₁, -, hstop⟩ := tiles_split.mp W.tiles
  have hstop : g.addr + g.size = s.heap.stop := hstop
  have hend : g.addr + (size + 20) + 20 ≤ s.heap.start + Z := by omega
  have harray : s.heap.index.array + 4 ≤ s.heap.start := by
    have := hP.below
    omega
  have hroom : Room s 1 := hP.toPlaced.room_one hslot
  have hroom' : Room (ended P s g (size + 20) Z) 1 := hroom
  have hheap : (ended P s g (size + 20) Z).heap = (extended P s Z).heap := rfl
  generalize hz : s.heap.start + Z - (g.addr + (size + 20)) = z
  have htagged : ∀ b ∈ l₁ ++ [(⟨g.addr, size + 20, false⟩ : Seg), ⟨g.addr + (size + 20), z, true⟩],
      Tagged (ended P s g (size + 20) Z).mem b := by
    intro b hb
    rcases List.mem_append.mp hb with hb | hb
    · have hbmem : b ∈ l₁ ++ [g] := List.mem_append_left _ hb
      have hbb := ht₁.bounds hb
      refine (W.tagged b hbmem).congr (W.min b hbmem) fun x h1 h2 => ?_
      exact ended_mem W (by omega) hend hlt (by omega) (by omega) (by omega)
    · have hz20 : 20 ≤ z := by omega
      have hgtag : Tagged (extended P s Z).mem g := extended_tagged hP.toPlaced.room
        (W.tagged g hgmem) g20 hlow (by omega)
      unfold ended
      dsimp only
      rw [hz]
      rcases List.mem_cons.mp hb with rfl | hb
      · have htag := resize_tagged (n := size + 20) hgtag.magic hgtag.hole (by omega) (by omega)
        rw [hlive] at htag
        exact htag.congr (by dsimp only; omega) fun x h1 h2 =>
          holeMem_apply hz20 (Or.inl h2)
      · rw [List.mem_singleton.mp hb]
        exact holeMem_tagged hz20 (by omega)
  have S : Segmented (ended P s g (size + 20) Z)
      (l₁ ++ [⟨g.addr, size + 20, false⟩, ⟨g.addr + (size + 20), z, true⟩]) := by
    refine ⟨tiles_split.mpr ⟨ht₁, ?_⟩, fun b hb => ?_, htagged⟩
    · have hlast : g.addr + (size + 20) + z = s.heap.start + Z := by omega
      exact ⟨by dsimp only; omega, rfl, by dsimp only; omega, hlast⟩
    · rcases List.mem_append.mp hb with hb | hb
      · exact W.min b (List.mem_append_left _ hb)
      · rcases List.mem_cons.mp hb with rfl | hb
        · dsimp only
          omega
        · rw [List.mem_singleton.mp hb]
          dsimp only
          omega
  have hchain : (l₁ ++ [(⟨g.addr, size + 20, false⟩ : Seg), ⟨g.addr + (size + 20), z, true⟩]).IsChain
      Apart := by
    obtain ⟨h₁, -, -⟩ := List.isChain_append.mp W.apart
    refine List.isChain_append.mpr ⟨h₁, ?_, fun x hx y hy => ?_⟩
    · exact List.isChain_pair.mpr (Apart.of_not_left rfl)
    · cases hy
      exact Apart.of_not_right rfl
  have hlist : ((g.addr + (size + 20)) :: (ended P s g (size + 20) Z).holes).Perm
      (holeAddrs (l₁ ++ [⟨g.addr, size + 20, false⟩, ⟨g.addr + (size + 20), z, true⟩])) := by
    have hholes : (ended P s g (size + 20) Z).holes = s.holes := by
      unfold Room at hroom
      refine OrdArr.elems_congr fun x h1 h2 => ?_
      have h1 : s.heap.index.array ≤ x := h1
      have h2 : x < s.heap.index.array + 4 * s.heap.index.size := h2
      exact ended_mem W (by omega) hend hlt h1 (by omega) (by omega)
    rw [hholes, holeAddrs_append]
    refine ((W.listed_around hlive).cons _).trans ?_
    exact (@List.perm_middle _ (g.addr + (size + 20)) (holeAddrs l₁) []).symm
  have W' := S.list_hole hchain hroom' (by omega) hlist
  have hmem : ∀ x, s.heap.start ≤ x →
      ((ended P s g (size + 20) Z).insert (g.addr + (size + 20))).mem x
        = (ended P s g (size + 20) Z).mem x := fun x hx => insert_mem hroom' hx
  refine resized_inPlace (k := ⟨g.addr, size + 20, false⟩) W' ?_ rfl rfl (Nat.le_refl _) rfl
    (fun x h1 h2 => ?_) fun b hb _ x h1 h2 => ?_
  · have hsame := insert_same (ended P s g (size + 20) Z) (g.addr + (size + 20))
    refine ⟨?_, ?_, ?_, ?_⟩
    · rw [hsame.start]
      exact hP.aligned
    · rw [insert_index_size, hsame.maxSize]
      exact hslot
    · rw [hsame.array, hsame.maxSize, hsame.start]
      exact hP.below
    · rw [hsame.stop]
      exact hlt
  · rw [hmem x (by omega)]
    exact ended_mem W (by omega) hend hlt (by omega) (by omega) (by omega)
  · rw [List.append_nil] at hb
    have hbb := ht₁.bounds hb
    rw [hmem x (by omega)]
    exact ended_mem W (by omega) hend hlt (by omega) (by omega) (by omega)

end End

/-! ## Which blocks can be grown -/

/-- Where the heap has to grow for the block, its limit is not reached. -/
structure BelowMax (s : St) (g : Seg) (l₂ : List Seg) (size : Nat) : Prop where
  last : l₂ = [] → s.heap.start + grownSz s size ≤ s.heap.max
  hole : ∀ r, l₂ = [r] → r.hole = true → g.size + r.size < size + 20 →
    s.heap.start + grownSz s (size + 20) ≤ s.heap.max

/-- What a block with no hole behind it needs to grow to `n` bytes: the last one a slot
for the hole in the new pages, any other one what a move takes. -/
def GrowFits (P : Pages) (s : St) (l₁ : List Seg) (g : Seg) (l₂ : List Seg) (n : Nat) : Prop :=
  match l₂ with
  | [] => s.heap.index.size < s.heap.index.maxSize
  | _ :: _ => MoveFits P s l₁ g n

/-- A hole behind the block is enough if it is large enough; one that is not is claimed,
and the block then has no hole behind it. -/
def ExtendFits (P : Pages) (s : St) (l₁ : List Seg) (g : Seg) (l₂ : List Seg) (size : Nat) : Prop :=
  match l₂ with
  | [] => GrowFits P s l₁ g [] (size + 20)
  | r :: l₃ =>
      if r.hole then g.size + r.size < size + 20 →
        ∀ t, extendHole s g.addr r.addr (size + 20) = some (t, true) →
          GrowFits P t l₁ ⟨g.addr, g.size + r.size, false⟩ l₃ (size + 40)
      else GrowFits P s l₁ g (r :: l₃) (size + 20)

section Extend

variable {P : Pages} {s s' t : St} {l₁ l₂ l₃ : List Seg} {g r : Seg} {size q : Nat}

theorem extendEnd_of_expand {Z : Nat} (W : WellFormed s (l₁ ++ [g])) (hP : Paged s)
    (hlive : g.hole = false) (hn : g.size < size + 20)
    (hexpand : expand P s (add32 (sub32 s.heap.stop s.heap.start) (size + 20))
      = some (extended P s Z))
    (hmore : s.heap.stop - s.heap.start + (size + 20) ≤ Z) (hlt : s.heap.start + Z < 2 ^ 32)
    (hcall : extendEnd P s g.addr (size + 20) = some s') :
    (s.heap.index.size < s.heap.index.maxSize →
        Resized s l₁ g [] size (g.size - 20) (g.addr + 12) s')
      ∧ (Placed s' → s.heap.index.size < s.heap.index.maxSize) := by
  have hgmem : g ∈ l₁ ++ [g] := List.mem_append_right _ List.mem_cons_self
  have hlow := (W.tiles.bounds hgmem).1
  have g20 := W.min g hgmem
  have hstop : g.addr + g.size = s.heap.stop := (tiles_split.mp W.tiles).2.2
  rw [extendEnd_eq hexpand (by omega) (by omega) hlt] at hcall
  obtain rfl := Option.some.inj hcall
  refine ⟨fun hslot => extendEnd_resized W hP hlive hslot hn hmore hlt, fun hP' => ?_⟩
  have hsize := hP'.size
  rw [insert_index_size, (insert_same _ _).maxSize] at hsize
  exact hsize

/-- The last block. -/
theorem extendEnd_iff (W : WellFormed s (l₁ ++ [g])) (hP : Paged s) (hmax : s.heap.max < 2 ^ 32)
    (hlive : g.hole = false) (hn : g.size < size + 20)
    (hbelow : s.heap.start + grownSz s size ≤ s.heap.max)
    (hcall : extendEnd P s g.addr (size + 20) = some s') :
    (s.heap.index.size < s.heap.index.maxSize →
        Resized s l₁ g [] size (g.size - 20) (g.addr + 12) s')
      ∧ (Placed s' → s.heap.index.size < s.heap.index.maxSize) :=
  extendEnd_of_expand W hP hlive hn (expand_grown hmax hbelow W.tiles.le)
    (grownSz_spec hmax hbelow).1 (grownSz_spec hmax hbelow).2 hcall

/-- `vmem_heap_realloc` to a larger size, by what is behind the block. -/
theorem realloc_extend (W : WellFormed s (l₁ ++ g :: l₂)) (hP : Paged s) (hlive : g.hole = false)
    (hless : g.size < size + 20) (hwrap : size + 20 < 2 ^ 32) (n k : Nat) :
    realloc P n (k + 1) s (g.addr + 12) size = match l₂ with
      | [] => (extendEnd P s g.addr (size + 20)).map fun s => (g.addr + 12, s)
      | r :: _ =>
          if r.hole then
            match extendHole s g.addr r.addr (size + 20) with
            | none => none
            | some (s, true) => realloc P n k s (g.addr + 12) (size + 20)
            | some (s, false) => some (g.addr + 12, s)
          else extendMove P n s (g.addr + 12) g.addr (size + 20) := by
  have g20 := W.min g (List.mem_append_right _ List.mem_cons_self)
  have hinside := next_inside W hP
  rw [realloc_live W hP.stop hlive (by omega) hwrap k, if_neg (by omega), if_neg (by omega)]
  cases l₂ with
  | nil =>
      have hend : add32 (g.addr + g.size) headerSz > s.heap.stop :=
        Nat.lt_of_not_le fun h => hinside.mp h rfl
      rw [if_pos hend]
  | cons r l₃ =>
      have hend := hinside.mpr (List.cons_ne_nil r l₃)
      obtain ⟨haddr, hhole⟩ := next_hole W
      rw [if_neg (Nat.not_lt.mpr hend)]
      dsimp only
      rw [← haddr] at hhole ⊢
      by_cases hr : r.hole = true
      · exact (if_pos (hhole.mpr hr)).trans (if_pos hr).symm
      · rw [if_neg (hhole.not.mpr hr), if_neg hr]

/-- The expectation only depends on the payload and on the other blocks. -/
theorem Resized.congr {g' : Seg} {l₂' : List Seg} {size keep : Nat}
    (h : Resized s l₁ g l₂ size keep q s') (haddr : g'.addr = g.addr)
    (hlive : liveSegs l₂' = liveSegs l₂)
    (hkeep : ∀ x < keep, t.mem (g.addr + 12 + x) = s.mem (g.addr + 12 + x))
    (hframe : ∀ b ∈ liveSegs l₁ ++ liveSegs l₂, ∀ x, b.addr ≤ x → x < b.addr + b.size →
      t.mem x = s.mem x) : Resized t l₁ g' l₂' size keep q s' := by
  obtain ⟨segs', k, W', hP', hk, hq, hsize, hperm, hdata, hblocks⟩ := h
  refine ⟨segs', k, W', hP', hk, hq, hsize, by rw [hlive]; exact hperm, fun x hx => ?_, ?_⟩
  · rw [hdata x hx, haddr, hkeep x hx]
  · rw [hlive]
    intro b hb x h1 h2
    rw [hblocks b hb x h1 h2, hframe b hb x h1 h2]

theorem Resized.mono {size size₀ keep keep₀ : Nat} (h : Resized s l₁ g l₂ size keep q s')
    (hsize : size₀ ≤ size) (hkeep : keep₀ ≤ keep) : Resized s l₁ g l₂ size₀ keep₀ q s' := by
  obtain ⟨segs', k, W', hP', hk, hq, henough, hperm, hdata, hblocks⟩ := h
  exact ⟨segs', k, W', hP', hk, hq, by omega, hperm, fun x hx => hdata x (by omega), hblocks⟩

/-- Seen from the caller it makes no difference that the hole has been claimed. -/
theorem claimed_iff (W : WellFormed s (l₁ ++ g :: r :: l₃)) (hr : r.hole = true) {s₁ : St}
    (U : Unlisted s r.addr s₁) {size keep : Nat} (hkeep : keep ≤ g.size - 20) :
    Resized ⟨mergeMem s₁.mem g r, s₁.heap⟩ l₁ ⟨g.addr, g.size + r.size, false⟩ l₃ size keep q s'
      ↔ Resized s l₁ g (r :: l₃) size keep q s' := by
  obtain ⟨hlow, hnext, hend, g20, r20, -, -⟩ := pair_bounds W
  have hlive : liveSegs (r :: l₃) = liveSegs l₃ := by rw [liveSegs_cons, if_pos hr]
  have hdata : ∀ x < keep, mergeMem s₁.mem g r (g.addr + 12 + x) = s.mem (g.addr + 12 + x) :=
    fun x hx => (mergeMem_frame r20 (by omega) (by omega)).trans (U.mem _ (by omega))
  have hblocks : ∀ b ∈ liveSegs l₁ ++ liveSegs (r :: l₃), ∀ x, b.addr ≤ x → x < b.addr + b.size →
      mergeMem s₁.mem g r x = s.mem x := fun b hb x h1 h2 => by
    rw [← liveSegs_append] at hb
    obtain ⟨hb, hbl⟩ := mem_liveSegs.mp hb
    obtain ⟨hb1, hb2⟩ := off_pair W hr hb hbl
    exact (mergeMem_frame r20 (by omega) (by omega)).trans (U.mem x (by omega))
  constructor
  · intro h
    refine h.congr rfl hlive (fun x hx => (hdata x hx).symm) fun b hb x h1 h2 => ?_
    rw [← hlive] at hb
    exact (hblocks b hb x h1 h2).symm
  · exact fun h => h.congr rfl hlive.symm hdata hblocks

/-- With no hole behind the block. -/
theorem grow_resized (W : WellFormed s (l₁ ++ g :: l₂)) (hP : Paged s) (hmax : s.heap.max < 2 ^ 32)
    (hlive : g.hole = false) (hno : ∀ r l₃, l₂ = r :: l₃ → r.hole = false)
    (halign : hdrAlign s.mem g.addr = 0) (hless : g.size < size + 20) (hwrap : size + 20 < 2 ^ 32)
    (hbelow : l₂ = [] → s.heap.start + grownSz s size ≤ s.heap.max) {k : Nat}
    (hcall : realloc P 1 (k + 1) s (g.addr + 12) size = some (q, s')) :
    (GrowFits P s l₁ g l₂ (size + 20) → Resized s l₁ g l₂ size (g.size - 20) q s')
      ∧ ∀ size₀ keep, Resized s l₁ g l₂ size₀ keep q s' → GrowFits P s l₁ g l₂ (size + 20) := by
  rw [realloc_extend W hP hlive hless hwrap 1 k] at hcall
  cases l₂ with
  | nil =>
      obtain ⟨s'', hend, heq⟩ := Option.map_eq_some_iff.mp hcall
      obtain ⟨rfl, rfl⟩ := Prod.mk.inj heq
      obtain ⟨hslot, hplaced⟩ := extendEnd_iff W hP hmax hlive hless (hbelow rfl) hend
      refine ⟨hslot, fun size₀ keep hres => ?_⟩
      obtain ⟨_, _, -, hP', -⟩ := hres
      exact hplaced hP'
  | cons r l₃ =>
      have hr := hno r l₃ rfl
      have hcall : extendMove P 1 s (g.addr + 12) g.addr (size + 20) = some (q, s') := by
        rw [← hcall]
        dsimp only
        rw [hr, if_neg Bool.false_ne_true]
      refine ⟨fun hfits => ?_, fun size₀ keep hres => ?_⟩
      · exact (move_resized W hP.toPlaced hlive hr halign hless hwrap hcall hfits).1
      · exact MoveFits.of_resized W hP.toPlaced hlive hr halign hless hwrap hcall hres

/-- The hole behind the block is too small: it is claimed, and the call made again. -/
theorem claim_grow_iff (W : WellFormed s (l₁ ++ g :: r :: l₃)) (hP : Paged s)
    (hmax : s.heap.max < 2 ^ 32) (hlive : g.hole = false) (hr : r.hole = true)
    (halign : hdrAlign s.mem g.addr = 0) (hshort : g.size + r.size < size + 20)
    (hwrap : size + 40 < 2 ^ 32)
    (hbelow : l₃ = [] → s.heap.start + grownSz s (size + 20) ≤ s.heap.max) {s₁ : St}
    (U : Unlisted s r.addr s₁) {k : Nat}
    (hcall : realloc P 1 (k + 1) ⟨mergeMem s₁.mem g r, s₁.heap⟩ (g.addr + 12) (size + 20)
      = some (q, s')) :
    Resized s l₁ g (r :: l₃) size (g.size - 20) q s' ↔ GrowFits P
      ⟨mergeMem s₁.mem g r, s₁.heap⟩ l₁ ⟨g.addr, g.size + r.size, false⟩ l₃ (size + 40) := by
  obtain ⟨hlow, hnext, hend, g20, r20, -, -⟩ := pair_bounds W
  obtain ⟨W', hP'⟩ := claim_wellFormed W hP hlive hr U
  have hbehind : Behind (r :: l₃) r.size l₃ := Or.inl ⟨r, rfl, hr, rfl⟩
  obtain ⟨-, hhead⟩ := hbehind.apart W
  have halign' : hdrAlign (mergeMem s₁.mem g r) g.addr = 0 := (claim_align W U).trans halign
  have hgrown : grownSz ⟨mergeMem s₁.mem g r, s₁.heap⟩ (size + 20) = grownSz s (size + 20) := by
    unfold grownSz
    rw [U.same.stop, U.same.start]
  have hbelow' : l₃ = [] → s₁.heap.start
      + grownSz ⟨mergeMem s₁.mem g r, s₁.heap⟩ (size + 20) ≤ s₁.heap.max := by
    rw [hgrown, U.same.start, U.same.max]
    exact hbelow
  obtain ⟨hfits, hres⟩ := grow_resized W' hP' (by rw [U.same.max]; exact hmax) rfl
    (fun y l₄ heq => hhead y (by rw [heq]; rfl)) halign' (by dsimp only; omega) (by omega)
    hbelow' hcall
  rw [← claimed_iff W hr U (Nat.le_refl _)]
  exact ⟨fun h => hres _ _ h, fun h => (hfits h).mono (by omega) (by dsimp only; omega)⟩

/-- With a hole behind the block. -/
theorem extend_hole_iff (W : WellFormed s (l₁ ++ g :: r :: l₃)) (hP : Paged s)
    (hmax : s.heap.max < 2 ^ 32) (hlive : g.hole = false) (hr : r.hole = true)
    (halign : hdrAlign s.mem g.addr = 0) (hless : g.size < size + 20) (hwrap : size + 40 < 2 ^ 32)
    (hbelow : BelowMax s g (r :: l₃) size) {k : Nat}
    (hcall : realloc P 1 (k + 2) s (g.addr + 12) size = some (q, s')) :
    Resized s l₁ g (r :: l₃) size (g.size - 20) q s' ↔ ExtendFits P s l₁ g (r :: l₃) size := by
  obtain ⟨s₁, U, hextend⟩ := extendHole_eq (n := size + 20) W hP hr hless (by omega)
  rw [realloc_extend W hP hlive hless (by omega) 1 (k + 1)] at hcall
  dsimp only at hcall
  rw [if_pos hr, hextend] at hcall
  simp only [ExtendFits, if_pos hr, hextend]
  by_cases hshort : g.size + r.size < size + 20
  · have hcmp : r.size < size + 20 - g.size := by omega
    rw [if_pos hcmp] at hcall ⊢
    have hbelow' : l₃ = [] → s.heap.start + grownSz s (size + 20) ≤ s.heap.max := fun hnil =>
      hbelow.hole r (by rw [hnil]) hr hshort
    rw [claim_grow_iff W hP hmax hlive hr halign hshort hwrap hbelow' U hcall]
    refine ⟨fun h _ t ht => ?_, fun h => h hshort _ rfl⟩
    rw [← (Prod.mk.inj (Option.some.inj ht)).1]
    exact h
  · have hcmp : ¬r.size < size + 20 - g.size := by omega
    rw [if_neg hcmp] at hcall
    refine iff_of_true ?_ fun h => absurd h hshort
    by_cases hrest : 20 ≤ r.size - (size + 20 - g.size)
    · rw [if_pos hrest] at hcall
      obtain ⟨rfl, rfl⟩ := Prod.mk.inj (Option.some.inj hcall)
      exact split_resized W hP hlive hr U hless hrest
    · rw [if_neg hrest] at hcall
      obtain ⟨rfl, rfl⟩ := Prod.mk.inj (Option.some.inj hcall)
      exact claim_resized W hP hlive hr U (by omega)

end Extend

/-- **A block is grown soundly** exactly if `ExtendFits`. No allocation expands the heap:
`vmem_heap_alloc` has only one call to serve the request. -/
theorem extend_iff {P : Pages} {s s' : St} {l₁ l₂ : List Seg} {g : Seg} {size q : Nat}
    (W : WellFormed s (l₁ ++ g :: l₂)) (hP : Paged s) (hmax : s.heap.max < 2 ^ 32)
    (hlive : g.hole = false) (halign : hdrAlign s.mem g.addr = 0) (hless : g.size < size + 20)
    (hwrap : size + 40 < 2 ^ 32) (hbelow : BelowMax s g l₂ size) {k : Nat}
    (hcall : realloc P 1 (k + 2) s (g.addr + 12) size = some (q, s')) :
    Resized s l₁ g l₂ size (g.size - 20) q s' ↔ ExtendFits P s l₁ g l₂ size := by
  cases l₂ with
  | nil =>
      obtain ⟨hfits, hres⟩ := grow_resized W hP hmax hlive (fun _ _ h => nomatch h) halign hless
        (by omega) hbelow.last hcall
      exact ⟨hres _ _, hfits⟩
  | cons r l₃ =>
      cases hr : r.hole with
      | true => exact extend_hole_iff W hP hmax hlive hr halign hless hwrap hbelow hcall
      | false =>
          have hno : ∀ y t, r :: l₃ = y :: t → y.hole = false := fun y t h => by
            rw [← (List.cons.inj h).1]
            exact hr
          obtain ⟨hfits, hres⟩ := grow_resized W hP hmax hlive hno halign hless (by omega)
            hbelow.last hcall
          simp only [ExtendFits, hr, if_neg Bool.false_ne_true]
          exact ⟨hres _ _, hfits⟩

/-- Three blocks of eight bytes in front of a hole. -/
def threeRun : Run := (Run.run ⟨hugeHeap, []⟩ [.alloc 8, .alloc 8, .alloc 8]).get (by decide +kernel)

/-- The second of them gets a new place. -/
theorem extend_iff_threeRun : ∃ s', realloc samePages 1 2 threeRun.st 0x2028 100 = some (0x2060, s')
    ∧ Resized threeRun.st [⟨0x2000, 28, false⟩] ⟨0x201c, 28, false⟩
      [⟨0x2038, 28, false⟩, ⟨0x2054, 0xEFFFDFAC, true⟩] 100 8 0x2060 s' := by
  have W : WellFormed threeRun.st ([⟨0x2000, 28, false⟩] ++ ⟨0x201c, 28, false⟩ ::
      [⟨0x2038, 28, false⟩, ⟨0x2054, 0xEFFFDFAC, true⟩]) := by decide +kernel
  have hcall : (realloc samePages 1 2 threeRun.st 0x2028 100).map Prod.fst = some 0x2060 := by
    decide +kernel
  obtain ⟨⟨q, s'⟩, hcall, rfl⟩ := Option.map_eq_some_iff.mp hcall
  have hbelow : BelowMax threeRun.st ⟨0x201c, 28, false⟩
      [⟨0x2038, 28, false⟩, ⟨0x2054, 0xEFFFDFAC, true⟩] 100 :=
    ⟨fun h => absurd h (by decide), fun _ h => absurd (List.cons.inj h).2 (by decide)⟩
  exact ⟨s', hcall, (@extend_iff samePages threeRun.st s' _ _ _ 100 _ W (by decide +kernel)
    (by decide +kernel) rfl (by decide +kernel) (by decide) (by decide) hbelow 0 hcall).mpr
    ⟨fun h => absurd h (by decide), Or.inr (Or.inr (by decide +kernel))⟩⟩

/-- A heap with what looks like a footer in front of it, and two blocks on it. -/
def staleRun : Run :=
  (Run.run ⟨(create (putFooter (fun _ => 0) 0x1ff8 0x1ff8) 0x1000 0x4000 0x4000 8 false).get rfl, []⟩
    [.alloc 8, .alloc 8]).get (by decide +kernel)

/-- Once the first block has been moved, the footer of what it leaves names a header in
front of the heap. -/
theorem extend_breaks : WellFormed staleRun.st ([] ++ ⟨0x2000, 28, false⟩ ::
      [⟨0x201c, 28, false⟩, ⟨0x2038, 0x1fc8, true⟩])
    ∧ Paged staleRun.st ∧ hdrAlign staleRun.st.mem 0x2000 = 0
    ∧ ∃ s', realloc samePages 1 2 staleRun.st 0x200c 100 = some (0x2044, s')
      ∧ ∀ segs, ¬WellFormed s' segs := by
  have hcall : (realloc samePages 1 2 staleRun.st 0x200c 100).map (fun r =>
      (r.1, r.2.heap.start, r.2.heap.stop, hdrSize r.2.mem 0x2000, ftrHdr r.2.mem 0x2014))
      = some (0x2044, 0x2000, 0x4000, 28, 0x1ff8) := by decide +kernel
  obtain ⟨⟨q, s'⟩, hcall, heq⟩ := Option.map_eq_some_iff.mp hcall
  obtain ⟨rfl, hstart, hstop, hsize, hftr⟩ : q = 0x2044 ∧ s'.heap.start = 0x2000
      ∧ s'.heap.stop = 0x4000 ∧ hdrSize s'.mem 0x2000 = 28 ∧ ftrHdr s'.mem 0x2014 = 0x1ff8 := by
    simpa only [Prod.mk.injEq] using heq
  refine ⟨by decide +kernel, by decide +kernel, by decide +kernel, s', hcall, fun segs W => ?_⟩
  cases segs with
  | nil =>
      have hempty : s'.heap.start = s'.heap.stop := W.tiles
      omega
  | cons x tl =>
      have haddr : x.addr = 0x2000 := W.tiles.1.trans hstart
      have htag := W.tagged x List.mem_cons_self
      have hx : x.size = 28 := by rw [← htag.size, haddr, hsize]
      have hbad := htag.ftrHdr
      rw [haddr, hx] at hbad
      exact absurd (hftr.symm.trans hbad) (by decide)

end Heap

end Shitos
