import Shitos.Vmem

/-!
# Frames are handed out once

Marking a frame is spread over the functions that use it: most mark it at
once, `vmem_clone_dir` leaves it to `vmem_map_vaddr`, and that function only
marks what its cache does not have yet. What makes this safe is an invariant
over the cache and the bitset: a cached frame is marked, so a frame that has
just been found clear is not cached.

`FramesOk` is the state between operations, `Pending f` the state in which
`f` has been chosen and is not marked yet. Each function keeps the first, and
`vmem_map_vaddr` turns the second into the first.
-/

namespace Shitos

namespace Vmem

/-! ## The bitset -/

theorem testBit_setBit (bits : Mem) (n k : Nat) :
    testBit (setBit bits n) k = (decide (k = n) || testBit bits k) := by
  rw [testBit, setBit, bitAt_orBit (Nat.mod_lt _ (by decide)), Nat.div_add_mod]
  rfl

theorem findFirst_spec {bits : Mem} {lo hi n : Nat} (h : findFirst bits lo hi = some n) :
    lo / 32 * 32 ≤ n ∧ n < hi / 32 * 32 ∧ testBit bits n = false := by
  obtain ⟨i, hi, hsome⟩ := List.exists_of_findSome?_eq_some h
  rw [List.mem_range'_1] at hi
  simp only at hsome
  split at hsome
  · cases hsome
  · rename_i hne
    have hn := Option.some.inj hsome
    obtain ⟨j, hj⟩ := Nat.exists_eq_succ_of_ne_zero hne
    obtain ⟨hlt, hbit⟩ := ffsl_not32_eq_succ hj
    rw [hj] at hn
    refine ⟨by omega, by omega, ?_⟩
    rw [testBit, bitAt, ← hn, show (i * 32 + (j + 1) - 1) / 32 = i by omega,
      show (i * 32 + (j + 1) - 1) % 32 = j by omega]
    exact hbit

/-- A clear bit in the range is enough for one to be found. -/
theorem findFirst_isSome {bits : Mem} {lo hi k : Nat} (hlo : lo / 32 * 32 ≤ k)
    (hhi : k < hi / 32 * 32) (hclear : testBit bits k = false) :
    ∃ n, findFirst bits lo hi = some n := by
  cases hfind : findFirst bits lo hi with
  | some n => exact ⟨n, rfl⟩
  | none =>
      have hfull := List.findSome?_eq_none_iff.mp hfind (k / 32)
        (List.mem_range'_1.mpr (by omega))
      dsimp only at hfull
      split at hfull
      · have hset := ffsl_not32_eq_zero.mp ‹_› (k % 32) (Nat.mod_lt _ (by decide))
        rw [testBit, bitAt, hset] at hclear
        cases hclear
      · cases hfull

/-! ## Fields the table writes leave alone -/

section Fields

variable (t : Table) (f : Nat → Paging.Page → Paging.Page) (p : PagePtr) (v : Paging.Page) (s : Vm)

@[simp] theorem mapTable_frames : (mapTable t f s).frames = s.frames := by cases t <;> rfl

@[simp] theorem mapTable_cache : (mapTable t f s).cache = s.cache := by cases t <;> rfl

@[simp] theorem mapTable_chosen : (mapTable t f s).chosen = s.chosen := by cases t <;> rfl

@[simp] theorem writePage_frames : (writePage p v s).frames = s.frames := by
  cases p with
  | entry t i => exact mapTable_frames ..
  | mapEntry i => rfl

@[simp] theorem writePage_cache : (writePage p v s).cache = s.cache := by
  cases p with
  | entry t i => exact mapTable_cache ..
  | mapEntry i => rfl

@[simp] theorem writePage_chosen : (writePage p v s).chosen = s.chosen := by
  cases p with
  | entry t i => exact mapTable_chosen ..
  | mapEntry i => rfl

@[simp] theorem putChain_cache (b : Nat) (l : List (Nat × Nat)) :
    (putChain b l s).cache = Function.update s.cache b l := rfl

end Fields

/-! ## The invariant -/

/-- Frame `f` is marked as used. -/
def Marked (s : Vm) (f : Nat) : Prop := testBit s.frames f = true

/-- Every choice was of a clear frame above the first MiB, and came after
all earlier ones had been marked. The latest choice is at the head. -/
def LogOk (l : List (Nat × Mem)) : Prop :=
  (∀ c ∈ l, 0x100 ≤ c.1 ∧ testBit c.2 c.1 = false) ∧
    l.Pairwise fun later earlier => testBit later.2 earlier.1 = true

/-- Between operations: what is cached, what has been chosen and the frames
of `S` are marked. -/
structure FramesOk (S : Set Nat) (s : Vm) : Prop where
  log : LogOk s.chosen
  cached : ∀ b, ∀ e ∈ s.cache b, Marked s (e.1 / 4096)
  chosen : ∀ e ∈ s.chosen, Marked s e.1
  kept : ∀ f ∈ S, Marked s f

/-- Frame `f` has been chosen and is still clear. -/
structure Pending (S : Set Nat) (f : Nat) (s : Vm) : Prop where
  log : LogOk s.chosen
  cached : ∀ b, ∀ e ∈ s.cache b, Marked s (e.1 / 4096)
  chosen : ∀ e ∈ s.chosen, Marked s e.1 ∨ e.1 = f
  kept : ∀ g ∈ S, Marked s g
  clear : ¬Marked s f
  high : 0x100 ≤ f

def Logged (s : Vm) : Prop := LogOk s.chosen

/-- A computation that keeps the invariant, whatever else is marked. -/
def Keeps {α : Type} (m : Prog Vm α) : Prop :=
  ∀ S, Prog.Triple (FramesOk S) m (fun _ => FramesOk S) Logged Logged

theorem LogOk.cons {l : List (Nat × Mem)} {f : Nat} {bits : Mem} (h : LogOk l) (hf : 0x100 ≤ f)
    (hclear : testBit bits f = false) (hl : ∀ e ∈ l, testBit bits e.1 = true) :
    LogOk ((f, bits) :: l) := by
  refine ⟨fun c hc => ?_, List.pairwise_cons.mpr ⟨hl, h.2⟩⟩
  rcases List.mem_cons.mp hc with rfl | hc
  · exact ⟨hf, hclear⟩
  · exact h.1 c hc

/-- A frame chosen later was clear then, a frame chosen earlier was not. -/
theorem LogOk.nodup {l : List (Nat × Mem)} (h : LogOk l) : (l.map Prod.fst).Nodup := by
  rw [List.Nodup, List.pairwise_map]
  refine h.2.imp_of_mem fun {later earlier} hmem _ hmarked heq => ?_
  rw [← heq, (h.1 later hmem).2] at hmarked
  cases hmarked

theorem FramesOk.mono {S T : Set Nat} {s : Vm} (h : FramesOk T s) (hST : S ⊆ T) : FramesOk S s :=
  ⟨h.log, h.cached, h.chosen, fun f hf => h.kept f (hST hf)⟩

theorem FramesOk.of_eq {S : Set Nat} {s s' : Vm} (h : FramesOk S s) (hf : s'.frames = s.frames)
    (hc : s'.cache = s.cache) (hl : s'.chosen = s.chosen) : FramesOk S s' := by
  refine ⟨by rw [hl]; exact h.log, fun b e he => ?_, fun e he => ?_, fun f hS => ?_⟩
  · rw [Marked, hf]
    exact h.cached b e (by rw [← hc]; exact he)
  · rw [Marked, hf]
    exact h.chosen e (by rw [← hl]; exact he)
  · rw [Marked, hf]
    exact h.kept f hS

theorem marked_frameSet {s : Vm} {addr f : Nat} :
    Marked (frameSet addr s) f ↔ f = addr / 4096 ∨ Marked s f := by
  rw [Marked, frameSet, testBit_setBit, Bool.or_eq_true, decide_eq_true_eq, Marked]

/-- Marking never takes anything away. -/
theorem FramesOk.frameSet {S : Set Nat} {s : Vm} (h : FramesOk S s) (addr : Nat) :
    FramesOk (insert (addr / 4096) S) (Vmem.frameSet addr s) := by
  refine ⟨h.log, fun b e he => ?_, fun e he => ?_, fun f hf => ?_⟩
  · exact marked_frameSet.mpr (Or.inr (h.cached b e he))
  · exact marked_frameSet.mpr (Or.inr (h.chosen e he))
  · rcases hf with rfl | hf
    · exact marked_frameSet.mpr (Or.inl rfl)
    · exact marked_frameSet.mpr (Or.inr (h.kept f hf))

/-- Marking the pending frame ends its pendency. -/
theorem Pending.frameSet {S : Set Nat} {f : Nat} {s : Vm} (h : Pending S f s) :
    FramesOk (insert f S) (Vmem.frameSet (f * 4096) s) := by
  have hf : f * 4096 / 4096 = f := Nat.mul_div_cancel _ (by decide)
  refine ⟨h.log, fun b e he => ?_, fun e he => ?_, fun g hg => ?_⟩
  · exact marked_frameSet.mpr (Or.inr (h.cached b e he))
  · rw [marked_frameSet, hf]
    exact (h.chosen e he).symm
  · rw [marked_frameSet, hf]
    rcases hg with rfl | hg
    · exact Or.inl rfl
    · exact Or.inr (h.kept g hg)

/-! ## The functions -/

theorem frameFindFirst_pending (S : Set Nat) :
    Prog.Triple (FramesOk S) frameFindFirst (fun f => Pending S f) Logged Logged := by
  refine ⟨fun s h => ?_⟩
  unfold frameFindFirst
  cases hfind : findFirst s.frames 0x100 s.frameCount with
  | none => exact h.log
  | some f =>
      obtain ⟨hlo, -, hclear⟩ := findFirst_spec hfind
      refine ⟨h.log.cons hlo hclear h.chosen, h.cached, fun e he => ?_, h.kept, ?_, hlo⟩
      · rcases List.mem_cons.mp he with rfl | he
        · exact Or.inr rfl
        · exact Or.inl (h.chosen e he)
      · rw [Marked]
        simp only [hclear, Bool.false_eq_true, not_false_eq_true]

/-- A change of tables, window or heap. -/
theorem keeps_modify {g : Vm → Vm} (hf : ∀ s, (g s).frames = s.frames)
    (hc : ∀ s, (g s).cache = s.cache) (hl : ∀ s, (g s).chosen = s.chosen) :
    Keeps (Prog.modify g) := fun _ =>
  Prog.Triple.modify fun s h => h.of_eq (hf s) (hc s) (hl s)

theorem keeps_writePage {p : PagePtr} {v : Vm → Paging.Page} :
    Keeps (Prog.modify fun s => writePage p (v s) s) :=
  keeps_modify (fun _ => writePage_frames ..) (fun _ => writePage_cache ..)
    fun _ => writePage_chosen ..

theorem keeps_mapTable {t : Table} {f : Vm → Nat → Paging.Page → Paging.Page} :
    Keeps (Prog.modify fun s => mapTable t (f s) s) :=
  keeps_modify (fun _ => mapTable_frames ..) (fun _ => mapTable_cache ..)
    fun _ => mapTable_chosen ..

theorem Keeps.bind {α β : Type} {m : Prog Vm α} {f : α → Prog Vm β} (h : Keeps m)
    (h' : ∀ a, Keeps (f a)) : Keeps (m >>= f) := fun S => (h S).bind fun a => h' a S

theorem keeps_gets {α : Type} (g : Vm → α) : Keeps (Prog.gets g) := fun _ =>
  Prog.Triple.gets fun _ => id

theorem keeps_pure {α : Type} (a : α) : Keeps (pure a) := fun _ => Prog.Triple.pure fun _ => id

theorem keeps_ite {α : Type} {c : Prop} [Decidable c] {m m' : Prog Vm α} (h : Keeps m)
    (h' : Keeps m') : Keeps (if c then m else m') := fun S =>
  Prog.Triple.ite (fun _ => h S) fun _ => h' S

theorem keeps_assert (b : Vm → Bool) : Keeps (Prog.assert b) := fun _ =>
  Prog.Triple.assert (fun _ h _ => h) fun _ h _ => h.log

theorem keeps_halt {α : Type} : Keeps (Prog.halt : Prog Vm α) := fun _ =>
  Prog.Triple.halt fun _ h => h.log

theorem keeps_each {ι : Type} {l : List ι} {g : ι → Prog Vm Unit} (h : ∀ i, Keeps (g i)) :
    Keeps (Prog.each l g) := fun S => by
  refine @Prog.Triple.each _ _ _ _ l g (fun _ => FramesOk S) fun _ i _ _ => h i S

/-- A frame that is chosen and marked at once. -/
theorem keeps_chooseFrame {β : Type} {f : Nat → Prog Vm β} (h : ∀ a, Keeps (f a)) :
    Keeps (do
      let frame ← frameFindFirst
      Prog.modify (frameSet (frame * 4096))
      f frame) := fun S => by
  refine (frameFindFirst_pending S).bind fun a => ?_
  refine @Prog.Triple.bind _ _ _ _ (fun _ => FramesOk S) _ _ _ _ _ ?_ fun _ => h a S
  exact Prog.Triple.modify fun s hs => hs.frameSet.mono (Set.subset_insert ..)

theorem keeps_fillFrame (p : PagePtr) : Keeps (fillFrame p) := by
  refine (keeps_gets _).bind fun page => ?_
  exact keeps_ite (keeps_pure _) (keeps_chooseFrame fun _ => keeps_writePage)

theorem keeps_frameAlloc (p : PagePtr) (flags : Flags) : Keeps (frameAlloc p flags) :=
  (keeps_fillFrame p).bind fun _ => keeps_writePage

/-- Mapping a frame marks it. -/
theorem frameMapAddr_keeps (S : Set Nat) (p : PagePtr) (flags : Flags) (paddr : Nat) :
    Prog.Triple (FramesOk S) (frameMapAddr p flags paddr)
      (fun _ => FramesOk (insert (paddr / 4096) S)) Logged Logged := by
  refine @Prog.Triple.bind _ _ _ _ (fun _ => FramesOk (insert (paddr / 4096) S)) _ _ _ _ _
    (Prog.Triple.modify fun s hs => hs.frameSet paddr) fun _ => ?_
  exact (keeps_writePage _).bind fun _ => keeps_frameAlloc p flags _

theorem frameMapAddr_pending (S : Set Nat) (f : Nat) (p : PagePtr) (flags : Flags) :
    Prog.Triple (Pending S f) (frameMapAddr p flags (f * 4096))
      (fun _ => FramesOk (insert f S)) Logged Logged := by
  refine @Prog.Triple.bind _ _ _ _ (fun _ => FramesOk (insert f S)) _ _ _ _ _
    (Prog.Triple.modify fun s hs => hs.frameSet) fun _ => ?_
  exact (keeps_writePage _).bind fun _ => keeps_frameAlloc p flags _

theorem Pending.of_eq {S : Set Nat} {f : Nat} {s s' : Vm} (h : Pending S f s)
    (hf : s'.frames = s.frames) (hc : s'.cache = s.cache) (hl : s'.chosen = s.chosen) :
    Pending S f s' := by
  refine ⟨by rw [hl]; exact h.log, fun b e he => ?_, fun e he => ?_, fun g hS => ?_, ?_, h.high⟩
  · rw [Marked, hf]
    exact h.cached b e (by rw [← hc]; exact he)
  · rw [Marked, hf]
    exact h.chosen e (by rw [← hl]; exact he)
  · rw [Marked, hf]
    exact h.kept g hS
  · rw [Marked, hf]
    exact h.clear

theorem keeps_mapPageFindFirst : Keeps mapPageFindFirst := by
  refine fun S => ⟨fun s h => ?_⟩
  unfold mapPageFindFirst
  cases findFirst s.mapPages 0 mapPagesBits with
  | none => exact h.log
  | some _ => exact h

theorem mapPageFindFirst_pending (S : Set Nat) (f : Nat) :
    Prog.Triple (Pending S f) mapPageFindFirst (fun _ => Pending S f) Logged Logged := by
  refine ⟨fun s h => ?_⟩
  unfold mapPageFindFirst
  cases findFirst s.mapPages 0 mapPagesBits with
  | none => exact h.log
  | some _ => exact h

theorem mapWindow_keeps (S : Set Nat) (paddr : Nat) :
    Prog.Triple (FramesOk S) (mapWindow paddr) (fun _ => FramesOk (insert (paddr / 4096) S))
      Logged Logged := by
  refine (keeps_mapPageFindFirst S).bind fun vaddr => ?_
  refine Prog.Triple.bind (Q := fun _ => FramesOk S)
    (Prog.Triple.modify fun s hs => hs.of_eq rfl rfl rfl) fun _ => ?_
  exact (frameMapAddr_keeps S _ _ _).bind fun _ => Prog.Triple.pure fun _ => id

theorem mapWindow_pending (S : Set Nat) (f : Nat) :
    Prog.Triple (Pending S f) (mapWindow (f * 4096)) (fun _ => FramesOk (insert f S))
      Logged Logged := by
  refine (mapPageFindFirst_pending S f).bind fun vaddr => ?_
  refine Prog.Triple.bind (Q := fun _ => Pending S f)
    (Prog.Triple.modify fun s hs => hs.of_eq rfl rfl rfl) fun _ => ?_
  exact (frameMapAddr_pending S f _ _).bind fun _ => Prog.Triple.pure fun _ => id

/-! ## The cache -/

theorem mem_chainSet {key val : Nat} {l l' : List (Nat × Nat)} (h : chainSet key val l = some l')
    {e : Nat × Nat} (he : e ∈ l') : e ∈ l ∨ e = (key, val) := by
  induction l generalizing l' with
  | nil => cases h
  | cons a l ih =>
      rw [chainSet] at h
      split at h
      · rename_i hkey
        cases h
        rcases List.mem_cons.mp he with rfl | he
        · exact Or.inr (by rw [hkey])
        · exact Or.inl (List.mem_cons_of_mem _ he)
      · obtain ⟨l'', hl'', rfl⟩ := Option.map_eq_some_iff.mp h
        rcases List.mem_cons.mp he with rfl | he
        · exact Or.inl List.mem_cons_self
        · exact (ih hl'' he).imp_left (List.mem_cons_of_mem _)

/-- A hit is an entry of the cache. -/
theorem mem_of_hashmapGet {s : Vm} {key : Nat} (h : hashmapGet s key ≠ 0) :
    ∃ e ∈ s.cache (key % cacheSz), e.1 = key := by
  unfold hashmapGet at h
  split at h
  · rename_i e he
    exact ⟨e, List.mem_of_find?_eq_some he, by simpa using List.find?_some he⟩
  · exact absurd rfl h

theorem FramesOk.putChain {S : Set Nat} {s : Vm} (h : FramesOk S s) {b : Nat}
    {l : List (Nat × Nat)} (hl : ∀ e ∈ l, Marked s (e.1 / 4096)) :
    FramesOk S (Vmem.putChain b l s) := by
  refine ⟨h.log, fun b' e he => ?_, h.chosen, h.kept⟩
  rw [putChain_cache] at he
  by_cases hb : b' = b
  · subst hb
    rw [Function.update_self] at he
    exact hl e he
  · rw [Function.update_of_ne hb] at he
    exact h.cached b' e he

/-! ## The functions that call the heap -/

section Recursion

variable {malloc : Nat → Nat → Prog Vm Nat} (hmalloc : ∀ size align, Keeps (malloc size align))

include hmalloc

/-- Only a marked frame may enter the cache. -/
theorem hashmapSet_keeps {S : Set Nat} {key : Nat} (val : Nat) (hkey : key / 4096 ∈ S) :
    Prog.Triple (FramesOk S) (hashmapSet malloc key val) (fun _ => FramesOk S) Logged Logged := by
  refine Prog.Triple.bind (Q := fun (chain : List (Nat × Nat)) s =>
    FramesOk S s ∧ ∀ e ∈ chain, Marked s (e.1 / 4096)) ?_ fun chain => ?_
  · exact Prog.Triple.gets fun s h => ⟨h, h.cached (key % cacheSz)⟩
  split
  · rename_i chain' hchain
    refine Prog.Triple.modify fun s hs => hs.1.putChain fun e he => ?_
    rcases mem_chainSet hchain he with he | rfl
    · exact hs.2 e he
    · exact hs.1.kept _ hkey
  · refine Prog.Triple.bind ((hmalloc 12 0 S).pre fun _ => And.left) fun _ => ?_
    refine Prog.Triple.modify fun s hs => hs.putChain fun e he => ?_
    rcases List.mem_append.mp he with he | he
    · exact hs.cached _ e (List.mem_of_mem_take he)
    · rw [List.mem_singleton.mp he]
      exact hs.kept _ hkey

/-- A frame that is not cached is marked when it is mapped. -/
theorem keeps_mapVaddr (paddr : Nat) : Keeps (mapVaddr malloc paddr) := by
  refine (keeps_gets _).bind fun cached => ?_
  refine keeps_ite (keeps_pure _) fun S => ?_
  refine (mapWindow_keeps S _).bind fun vaddr => ?_
  refine (hashmapSet_keeps hmalloc vaddr (Set.mem_insert ..)).bind fun _ => ?_
  exact Prog.Triple.pure fun s hs => hs.mono (Set.subset_insert ..)

/-- The pending frame is not cached, as what is cached is marked. -/
theorem mapVaddr_pending (S : Set Nat) (f : Nat) :
    Prog.Triple (Pending S f) (mapVaddr malloc (f * 4096)) (fun _ => FramesOk S)
      Logged Logged := by
  have hf : f * 4096 / 4096 = f := Nat.mul_div_cancel _ (by decide)
  unfold mapVaddr
  rw [hf]
  refine Prog.Triple.bind (Q := fun cached s => cached = 0 ∧ Pending S f s)
    (Prog.Triple.gets fun s h => ⟨?_, h⟩) fun cached => Prog.Triple.assume fun hcached => ?_
  · by_contra hne
    obtain ⟨e, he, hkey⟩ := mem_of_hashmapGet hne
    have hmarked := h.cached _ e he
    rw [hkey, hf] at hmarked
    exact h.clear hmarked
  · refine Prog.Triple.ite (fun hne => absurd hcached hne) fun _ => ?_
    refine (mapWindow_pending S f).bind fun vaddr => ?_
    refine (hashmapSet_keeps hmalloc vaddr ?_).bind fun _ => ?_
    · rw [hf]
      exact Set.mem_insert ..
    · exact Prog.Triple.pure fun s hs => hs.mono (Set.subset_insert ..)

theorem keeps_newTable (dir : Dir) (i : Nat) (kernel : Bool) :
    Keeps (newTable malloc dir i kernel) := by
  refine keeps_chooseFrame fun frame => ?_
  refine (keeps_mapVaddr hmalloc _).bind fun table => ?_
  refine Keeps.bind keeps_mapTable fun _ => ?_
  exact Keeps.bind keeps_writePage fun _ => keeps_pure _

theorem keeps_createTable (dir : Dir) (i : Nat) (kernel : Bool) :
    Keeps (createTable malloc dir i kernel) := by
  refine (keeps_gets _).bind fun pde => ?_
  refine keeps_ite (keeps_pure _) ?_
  exact (keeps_newTable hmalloc dir i kernel).bind fun _ => keeps_pure _

theorem keeps_getPageOther (dir : Dir) (vaddr : Nat) (create kernel : Bool) :
    Keeps (getPageOther malloc dir vaddr create kernel) := by
  refine keeps_ite (keeps_pure _) ?_
  refine (keeps_gets _).bind fun pde => ?_
  refine keeps_ite (keeps_pure _) ?_
  refine (keeps_createTable hmalloc _ _ _).bind fun _ => ?_
  refine (keeps_gets _).bind fun pde => ?_
  exact (keeps_mapVaddr hmalloc _).bind fun _ => keeps_pure _

theorem keeps_expandPage (start : Nat) (kernel : Bool) (oldSz : Nat) :
    Keeps (expandPage malloc start kernel oldSz) := by
  refine Keeps.bind ((keeps_gets _).bind fun dir => keeps_getPageOther hmalloc _ _ _ _) fun page => ?_
  cases page with
  | none => exact keeps_halt
  | some p => exact keeps_frameAlloc p _

theorem keeps_heapExpand (newSz : Nat) : Keeps (heapExpand malloc newSz) := by
  refine (keeps_assert _).bind fun _ => (keeps_assert _).bind fun _ => ?_
  refine (keeps_gets _).bind fun start => (keeps_gets _).bind fun kernel => ?_
  refine (keeps_gets _).bind fun oldSz => ?_
  refine (keeps_each fun j => keeps_expandPage hmalloc _ _ _).bind fun _ => ?_
  exact keeps_modify (fun _ => rfl) (fun _ => rfl) fun _ => rfl

omit hmalloc in
theorem keeps_serve (hole realSize align : Nat) : Keeps (serve hole realSize align) := by
  refine fun S => ⟨fun s h => ?_⟩
  unfold serve
  cases Heap.allocHole s.heap hole realSize align with
  | none => exact h.log
  | some r => exact h.of_eq rfl rfl rfl

theorem keeps_heapAlloc (size align : Nat) : Keeps (heapAlloc malloc size align) := by
  refine (keeps_gets _).bind fun hole => ?_
  cases hole with
  | some hole => exact keeps_serve _ _ _
  | none =>
      refine (keeps_gets _).bind fun oldSz => (keeps_gets _).bind fun oldEnd => ?_
      refine (keeps_heapExpand hmalloc _).bind fun _ => ?_
      refine Keeps.bind (keeps_modify (fun _ => rfl) (fun _ => rfl) fun _ => rfl) fun _ => ?_
      exact hmalloc size align

theorem keeps_clonePage (src dst : Dir) (i : Nat) : Keeps (clonePage malloc src dst i) := by
  refine (keeps_gets _).bind fun pde => ?_
  refine keeps_ite (keeps_pure _) ?_
  refine (keeps_mapVaddr hmalloc _).bind fun srcPt => ?_
  exact (keeps_newTable hmalloc _ _ _).bind fun dstPt => keeps_mapTable

theorem keeps_fillDir (src dst : Dir) : Keeps (fillDir malloc src dst) := by
  unfold fillDir
  refine Keeps.bind keeps_mapTable fun _ => ?_
  refine Keeps.bind keeps_mapTable fun _ => ?_
  refine (keeps_each fun i => keeps_clonePage hmalloc _ _ _).bind fun _ => ?_
  refine Keeps.bind ?_ fun _ => keeps_pure _
  exact keeps_modify (fun _ => rfl) (fun _ => rfl) fun _ => rfl

/-- The frame of the new directory is marked by `vmem_map_vaddr` only. -/
theorem keeps_cloneDir (src : Option Dir) : Keeps (cloneDir malloc src) := by
  refine (keeps_gets _).bind fun kernelPd => (hmalloc 8 0).bind fun _ S => ?_
  refine (frameFindFirst_pending S).bind fun frame => ?_
  refine (mapVaddr_pending hmalloc S frame).bind fun pts => ?_
  exact keeps_fillDir hmalloc _ _ S

end Recursion

theorem keeps_kmalloc (n size align : Nat) : Keeps (kmalloc n size align) := by
  induction n generalizing size align with
  | zero => exact fun _ => Prog.Triple.tooDeep fun _ h => h.log
  | succ n ih => exact keeps_heapAlloc ih size align

/-! ## Runs -/

/-- The operations, with `VMEM_GET_CREATE` set. -/
inductive Op where
  | frameAlloc (p : PagePtr) (flags : Flags)
  | getPageOther (dir : Dir) (vaddr : Nat) (kernel : Bool)
  | mapVaddr (paddr : Nat)
  | cloneDir (src : Option Dir)

/-- One operation, its heap calls nested at most `n` deep. -/
def exec (n : Nat) : Op → Prog Vm Unit
  | .frameAlloc p flags => Vmem.frameAlloc p flags
  | .getPageOther dir vaddr kernel => do
      let _ ← Vmem.getPageOther (kmalloc n) dir vaddr true kernel
      pure ()
  | .mapVaddr paddr => do
      let _ ← Vmem.mapVaddr (kmalloc n) paddr
      pure ()
  | .cloneDir src => do
      let _ ← Vmem.cloneDir (kmalloc n) src
      pure ()

/-- `vmem_frame_alloc` is called on empty entries, `vmem_map_vaddr` for frames
the bitset has a bit for. -/
def Enabled (s : Vm) : Op → Prop
  | .frameAlloc p _ => (readPage s p).frame = 0
  | .mapVaddr paddr => paddr / 4096 < s.frameCount
  | _ => True

/-- The states of the runs from `s₀`; the flag tells whether the last
operation has returned. One that has not is fatal, or still nesting. -/
inductive Run (s₀ : Vm) : Bool → Vm → Prop where
  | start : Run s₀ true s₀
  | returns {n : Nat} {op : Op} {s s' : Vm} : Run s₀ true s → Enabled s op →
      exec n op s = .done () s' → Run s₀ true s'
  | halts {n : Nat} {op : Op} {s s' : Vm} : Run s₀ true s → Enabled s op →
      exec n op s = .halted s' → Run s₀ false s'
  | nests {n : Nat} {op : Op} {s s' : Vm} : Run s₀ true s → Enabled s op →
      exec n op s = .deep s' → Run s₀ false s'

theorem keeps_exec (n : Nat) (op : Op) : Keeps (exec n op) := by
  cases op with
  | frameAlloc p flags => exact keeps_frameAlloc p flags
  | getPageOther dir vaddr kernel =>
      exact (keeps_getPageOther (keeps_kmalloc n) _ _ _ _).bind fun _ => keeps_pure _
  | mapVaddr paddr => exact (keeps_mapVaddr (keeps_kmalloc n) _).bind fun _ => keeps_pure _
  | cloneDir src => exact (keeps_cloneDir (keeps_kmalloc n) _).bind fun _ => keeps_pure _

theorem Run.ok {s₀ s : Vm} {returned : Bool} (hs₀ : FramesOk ∅ s₀) (h : Run s₀ returned s) :
    LogOk s.chosen ∧ (returned = true → FramesOk ∅ s) := by
  induction h with
  | start => exact ⟨hs₀.log, fun _ => hs₀⟩
  | @returns n op s s' _ _ hexec ih =>
      have hstep := (keeps_exec n op ∅).apply s (ih.2 rfl)
      rw [hexec] at hstep
      exact ⟨hstep.log, fun _ => hstep⟩
  | @halts n op s s' _ _ hexec ih =>
      have hstep := (keeps_exec n op ∅).apply s (ih.2 rfl)
      rw [hexec] at hstep
      exact ⟨hstep, fun h => absurd h (by decide)⟩
  | @nests n op s s' _ _ hexec ih =>
      have hstep := (keeps_exec n op ∅).apply s (ih.2 rfl)
      rw [hexec] at hstep
      exact ⟨hstep, fun h => absurd h (by decide)⟩

/-- A kernel directory with one user table, in frame 5. -/
def smallVm : Vm where
  frames := setBit (fun _ => 0) 5
  frameCount := 0x200
  mapPages := fun _ => 0
  mapPt := fun _ => Paging.Page.zero
  kernelPts := fun i => if i = 0x10 then pdEntry 0x5000 false else Paging.Page.zero
  phys := fun _ _ => Paging.Page.zero
  cache := fun _ => []
  heap := (Heap.create (fun _ => 0) 0xc0200000 0xc0204000 0xcffff000 1 true).get rfl
  kernelPd := ⟨0, .kernelPts⟩
  current := ⟨0, .kernelPts⟩
  dirs := [⟨0, .kernelPts⟩]
  chosen := []

end Vmem

end Shitos
