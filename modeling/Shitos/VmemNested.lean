import Shitos.HeapSlots
import Shitos.VmemMapAddr

/-!
# Mapping from within the heap

`hashmap_set` allocates an entry while a page is being mapped, and the heap
may have to grow for it, which maps pages again. If a page table that the
growth needs is not mapped yet, mapping it allocates an entry in turn, from
the same heap, which has to grow by the same pages: such a call never returns
(`kmalloc_stuck`). So an allocation that does return has mapped nothing
(`kmalloc_kept`).
-/

namespace Shitos

namespace Vmem

open Paging

/-! ## What a step leaves alone -/

/-- Neither the cache nor the kernel's directory has changed, and no frame has
been freed. -/
structure Stays (s t : Vm) : Prop where
  cache : t.cache = s.cache
  kernelPts : t.kernelPts = s.kernelPts
  current : t.current = s.current
  frameCount : t.frameCount = s.frameCount
  max : t.heap.heap.max = s.heap.heap.max
  marked : ∀ f, Marked s f → Marked t f

/-- Nor have the windows. -/
structure Kept (s t : Vm) : Prop extends Stays s t where
  mapPages : t.mapPages = s.mapPages
  mapPt : t.mapPt = s.mapPt

theorem Stays.refl (s : Vm) : Stays s s := ⟨rfl, rfl, rfl, rfl, rfl, fun _ => id⟩

theorem Stays.trans {s t u : Vm} (h : Stays s t) (h' : Stays t u) : Stays s u where
  cache := h'.cache.trans h.cache
  kernelPts := h'.kernelPts.trans h.kernelPts
  current := h'.current.trans h.current
  frameCount := h'.frameCount.trans h.frameCount
  max := h'.max.trans h.max
  marked f hf := h'.marked f (h.marked f hf)

theorem Kept.refl (s : Vm) : Kept s s := ⟨Stays.refl s, rfl, rfl⟩

theorem Kept.trans {s t u : Vm} (h : Kept s t) (h' : Kept t u) : Kept s u :=
  ⟨h.toStays.trans h'.toStays, h'.mapPages.trans h.mapPages, h'.mapPt.trans h.mapPt⟩

theorem Kept.of_heap (s : Vm) {h : Heap.St} (hmax : h.heap.max = s.heap.heap.max) :
    Kept s { s with heap := h } := ⟨⟨rfl, rfl, rfl, rfl, hmax, fun _ => id⟩, rfl, rfl⟩

/-! ## Entries and frames -/

section Fields

variable (p : PagePtr) (v : Page) (w i : Nat) (s : Vm)

@[simp] theorem writePage_heap : (writePage p v s).heap = s.heap := by
  rcases p with ⟨_ | _, i⟩ | i <;> rfl

@[simp] theorem writePage_mapPages : (writePage p v s).mapPages = s.mapPages := by
  rcases p with ⟨_ | _, i⟩ | i <;> rfl

@[simp] theorem writePage_current : (writePage p v s).current = s.current := by
  rcases p with ⟨_ | _, i⟩ | i <;> rfl

@[simp] theorem writePage_frameCount : (writePage p v s).frameCount = s.frameCount := by
  rcases p with ⟨_ | _, i⟩ | i <;> rfl

end Fields

/-- A pointer into a page table, or into the tables of the mapping region. -/
def PagePtr.OffDirectory : PagePtr → Prop
  | .entry .kernelPts _ => False
  | _ => True

/-- Only the entry at `p` has been written, and frames marked. -/
structure Entered (p : PagePtr) (s t : Vm) : Prop extends Stays s t where
  heap : t.heap = s.heap
  mapPages : t.mapPages = s.mapPages
  mapPt : ∀ w, p ≠ .mapEntry w → t.mapPt w = s.mapPt w

theorem Entered.trans {p : PagePtr} {s t u : Vm} (h : Entered p s t) (h' : Entered p t u) :
    Entered p s u where
  toStays := h.toStays.trans h'.toStays
  heap := h'.heap.trans h.heap
  mapPages := h'.mapPages.trans h.mapPages
  mapPt w hw := (h'.mapPt w hw).trans (h.mapPt w hw)

theorem entered_writePage {p : PagePtr} (hp : p.OffDirectory) (v : Page) (s : Vm) :
    Entered p s (writePage p v s) := by
  refine ⟨⟨writePage_cache .., ?_, writePage_current .., writePage_frameCount .., ?_,
    fun f hf => ?_⟩, writePage_heap .., writePage_mapPages .., fun w hw => ?_⟩
  · rcases p with ⟨_ | _, i⟩ | i
    · exact hp.elim
    · rfl
    · rfl
  · rw [writePage_heap]
  · rw [Marked, writePage_frames]
    exact hf
  · rcases p with ⟨_ | _, i⟩ | i
    · rfl
    · rfl
    · exact Function.update_of_ne (fun h => hw (by rw [h])) _ _

/-- A change of the frame bitmap that frees nothing. -/
theorem entered_frames (p : PagePtr) (s : Vm) {frames : Mem} (chosen : List (Nat × Mem))
    (h : ∀ f, Marked s f → testBit frames f = true) :
    Entered p s { s with frames := frames, chosen := chosen } :=
  ⟨⟨rfl, rfl, rfl, rfl, rfl, h⟩, rfl, rfl, fun _ _ => rfl⟩

theorem entered_frameSet (p : PagePtr) (addr : Nat) (s : Vm) : Entered p s (frameSet addr s) :=
  entered_frames p s s.chosen fun _ hf => marked_frameSet.mpr (Or.inr hf)

/-- The entry is present afterwards, with the frame it had. -/
theorem frameAlloc_entered {p : PagePtr} {flags : Flags} {s t : Vm} {u : Unit}
    (hp : p.OffDirectory) (h : frameAlloc p flags s = .done u t) :
    Entered p s t ∧ (readPage t p).present = true
      ∧ ((readPage s p).frame ≠ 0 → (readPage t p).frame = (readPage s p).frame) := by
  by_cases hframe : (readPage s p).frame = 0
  · obtain ⟨u₁, s₁, hfill, hrest⟩ := Prog.bind_eq_done.mp h
    obtain rfl := Prog.modify_eq_done.mp hrest
    obtain ⟨page, s₂, hpage, hfill⟩ := Prog.bind_eq_done.mp hfill
    obtain ⟨rfl, rfl⟩ := Prog.gets_eq_done.mp hpage
    rw [if_neg fun hne => hne hframe] at hfill
    obtain ⟨frame, s₃, hfind, hfill⟩ := Prog.bind_eq_done.mp hfill
    obtain ⟨u₂, s₄, hset, hfill⟩ := Prog.bind_eq_done.mp hfill
    obtain rfl := Prog.modify_eq_done.mp hset
    obtain rfl := Prog.modify_eq_done.mp hfill
    have hfound : Entered p s s₃ := by
      unfold frameFindFirst at hfind
      split at hfind
      · cases hfind
        exact entered_frames p s _ fun _ => id
      · cases hfind
    refine ⟨?_, ?_, fun hne => absurd hframe hne⟩
    · exact ((hfound.trans (entered_frameSet p _ _)).trans (entered_writePage hp _ _)).trans
        (entered_writePage hp _ _)
    · rw [readPage_writePage]
      rfl
  · rw [frameAlloc_of_frame hframe] at h
    cases h
    refine ⟨entered_writePage hp _ _, ?_, fun _ => ?_⟩
    · rw [readPage_writePage]
      rfl
    · rw [readPage_writePage]
      rfl

/-! ## A new window -/

/-- Window `w` has been taken, and maps frame `f` unless that is frame 0. -/
structure Taken (w f : Nat) (s t : Vm) : Prop extends Stays s t where
  heap : t.heap = s.heap
  mapPages : t.mapPages = setBit s.mapPages w
  mapPt : ∀ w', w' ≠ w → t.mapPt w' = s.mapPt w'
  present : (t.mapPt w).present = true
  frame : f ≠ 0 → (t.mapPt w).frame = f
  mark : Marked t f

/-- The address of window `w`. -/
def windowAddr (w : Nat) : Nat := mapPagesMemory + w * 4096

theorem windowAddr_sub (w : Nat) : (windowAddr w - mapPagesMemory) / 4096 = w := by
  unfold windowAddr
  omega

theorem frameMapAddr_entered {w : Nat} {flags : Flags} {paddr : Nat} {s t : Vm} {u : Unit}
    (h : frameMapAddr (.mapEntry w) flags paddr s = .done u t) :
    Entered (.mapEntry w) s t ∧ (t.mapPt w).present = true
      ∧ (paddr / 4096 ≠ 0 → (t.mapPt w).frame = paddr / 4096) ∧ Marked t (paddr / 4096) := by
  rw [frameMapAddr_eq] at h
  obtain ⟨hentered, hpresent, hframe⟩ := frameAlloc_entered (p := .mapEntry w) trivial h
  rw [readPage_writePage] at hframe
  have hset := entered_frameSet (.mapEntry w) paddr s
  have hwrite := entered_writePage (p := .mapEntry w) trivial
    { readPage (frameSet paddr s) (.mapEntry w) with frame := paddr / 4096 } (frameSet paddr s)
  refine ⟨(hset.trans hwrite).trans hentered, hpresent, hframe, ?_⟩
  exact hentered.marked _ (hwrite.marked _ (marked_frameSet.mpr (Or.inl rfl)))

theorem stays_mapPageSet (addr : Nat) (s : Vm) : Stays s (mapPageSet addr s) :=
  ⟨rfl, rfl, rfl, rfl, rfl, fun _ => id⟩

theorem mapPageFindFirst_done {s t : Vm} {v : Nat} (h : mapPageFindFirst s = .done v t) :
    t = s ∧ ∃ w < mapPagesBits, testBit s.mapPages w = false ∧ v = windowAddr w := by
  unfold mapPageFindFirst at h
  split at h
  · cases h
    obtain ⟨-, hlt, hclear⟩ := findFirst_spec ‹_›
    exact ⟨rfl, _, hlt, hclear, rfl⟩
  · cases h

/-- `vmem_map_vaddr` takes a clear window for a page that is not cached. -/
theorem mapWindow_taken {s t : Vm} {paddr v : Nat} (h : mapWindow paddr s = .done v t) :
    ∃ w < mapPagesBits, testBit s.mapPages w = false ∧ v = windowAddr w
      ∧ Taken w (paddr / 4096) s t := by
  obtain ⟨v', s₁, hfind, h⟩ := Prog.bind_eq_done.mp h
  obtain ⟨rfl, w, hw, hclear, rfl⟩ := mapPageFindFirst_done hfind
  obtain ⟨u, s₂, hset, h⟩ := Prog.bind_eq_done.mp h
  obtain rfl := Prog.modify_eq_done.mp hset
  obtain ⟨u, s₃, hmap, h⟩ := Prog.bind_eq_done.mp h
  obtain ⟨rfl, rfl⟩ := Prog.pure_eq_done.mp h
  rw [windowPage, windowAddr_sub] at hmap
  obtain ⟨hentered, hpresent, hframe, hmark⟩ := frameMapAddr_entered hmap
  refine ⟨w, hw, hclear, rfl, (stays_mapPageSet _ _).trans hentered.toStays, hentered.heap, ?_,
    fun w' hne => ?_, hpresent, hframe, hmark⟩
  · rw [hentered.mapPages, mapPageSet, windowAddr_sub]
  · exact hentered.mapPt w' fun heq => hne (PagePtr.mapEntry.inj heq).symm

/-! ## The cache -/

/-- Between calls: the kernel's directory is in use, the heap lies below the
windows, and what is cached is marked and has a window. -/
structure Ready (s : Vm) : Prop where
  current : s.current.pts = .kernelPts
  max : s.heap.heap.max ≤ mapPagesMemory
  cached : ∀ b, ∀ e ∈ s.cache b, Marked s (e.1 / 4096) ∧ e.2 ≠ 0

theorem Ready.of_stays {s t : Vm} (R : Ready s) (h : Stays s t) : Ready t where
  current := by rw [h.current]; exact R.current
  max := by rw [h.max]; exact R.max
  cached b e he := by
    rw [h.cache] at he
    exact ⟨h.marked _ (R.cached b e he).1, (R.cached b e he).2⟩

theorem chainSet_eq_none {key val : Nat} {l : List (Nat × Nat)} :
    chainSet key val l = none ↔ ∀ e ∈ l, e.1 ≠ key := by
  induction l with
  | nil => exact iff_of_true rfl fun _ he => absurd he List.not_mem_nil
  | cons a l ih =>
      rw [chainSet, List.forall_mem_cons]
      by_cases ha : a.1 = key
      · rw [if_pos ha]
        exact iff_of_false (Option.some_ne_none _) fun h => h.1 ha
      · rw [if_neg ha, Option.map_eq_none_iff, ih]
        exact (and_iff_right ha).symm

theorem Ready.miss_iff {s : Vm} (R : Ready s) {key : Nat} :
    hashmapGet s key = 0 ↔ ∀ e ∈ s.cache (key % cacheSz), e.1 ≠ key := by
  unfold hashmapGet
  cases hfind : (s.cache (key % cacheSz)).find? fun e => e.1 = key with
  | none =>
      refine iff_of_true rfl fun e he hkey => ?_
      exact absurd (decide_eq_true hkey) (List.find?_eq_none.mp hfind e he)
  | some e =>
      have hmem := List.mem_of_find?_eq_some hfind
      have hkey : e.1 = key := by simpa using List.find?_some hfind
      exact iff_of_false (R.cached _ e hmem).2 fun h => h e hmem hkey

/-- A frame that is clear is not cached. -/
theorem Ready.miss_of_clear {s : Vm} (R : Ready s) {f : Nat} (hf : ¬Marked s f) :
    hashmapGet s (f * 4096) = 0 := by
  rw [R.miss_iff]
  intro e he hkey
  have hmark := (R.cached _ e he).1
  rw [hkey, Nat.mul_div_cancel f (by decide)] at hmark
  exact hf hmark

section Calls

variable {malloc : Nat → Nat → Prog Vm Nat} {s t : Vm} {paddr r : Nat}

theorem mapVaddr_hit (h : hashmapGet s (paddr / 4096 * 4096) ≠ 0) :
    mapVaddr malloc paddr s
      = .done (hashmapGet s (paddr / 4096 * 4096) + paddr % 4096) s := by
  show (if hashmapGet s (paddr / 4096 * 4096) ≠ 0 then _ else _ : Prog Vm Nat) s = _
  rw [if_pos h]
  rfl

/-- A page that is not cached gets a window. -/
theorem mapVaddr_miss (hmiss : hashmapGet s (paddr / 4096 * 4096) = 0)
    (h : mapVaddr malloc paddr s = .done r t) :
    ∃ w < mapPagesBits, testBit s.mapPages w = false ∧ r = windowAddr w + paddr % 4096
      ∧ ∃ s₁ u, Taken w (paddr / 4096) s s₁
        ∧ hashmapSet malloc (paddr / 4096 * 4096) (windowAddr w) s₁ = .done u t := by
  obtain ⟨cached, s₀, hget, h⟩ := Prog.bind_eq_done.mp h
  obtain ⟨rfl, rfl⟩ := Prog.gets_eq_done.mp hget
  rw [if_neg fun hne => hne hmiss] at h
  obtain ⟨v, s₁, hwindow, h⟩ := Prog.bind_eq_done.mp h
  obtain ⟨w, hw, hclear, rfl, htaken⟩ := mapWindow_taken hwindow
  rw [Nat.mul_div_cancel _ (by decide)] at htaken
  obtain ⟨u, s₂, hset, h⟩ := Prog.bind_eq_done.mp h
  obtain ⟨rfl, rfl⟩ := Prog.pure_eq_done.mp h
  exact ⟨w, hw, hclear, rfl, s₁, u, htaken, hset⟩

/-- A new key needs an entry, which goes behind the chain as it was before. -/
theorem hashmapSet_miss (R : Ready s) {key val : Nat} {u : Unit} (hmiss : hashmapGet s key = 0)
    (h : hashmapSet malloc key val s = .done u t) : ∃ q s₁, malloc 12 0 s = .done q s₁
      ∧ t = putChain (key % cacheSz) ((s₁.cache (key % cacheSz)).take
        (s.cache (key % cacheSz)).length ++ [(key, val)]) s₁ := by
  obtain ⟨chain, s₁, hchain, h⟩ := Prog.bind_eq_done.mp h
  obtain ⟨rfl, rfl⟩ := Prog.gets_eq_done.mp hchain
  rw [chainSet_eq_none.mpr (R.miss_iff.mp hmiss)] at h
  obtain ⟨q, s₂, hmalloc, h⟩ := Prog.bind_eq_done.mp h
  obtain rfl := Prog.modify_eq_done.mp h
  exact ⟨q, s₂, hmalloc, rfl⟩

end Calls

/-! ## Growing the heap for an entry -/

/-- The page table of address `a` is there, and has a window. -/
def Mapped (s : Vm) (a : Nat) : Prop :=
  (s.kernelPts (pdi a)).present = true
    ∧ hashmapGet s ((s.kernelPts (pdi a)).frame * 4096) ≠ 0

/-- The size the heap gets for an entry, and the number of its new pages. -/
def grownSz (s : Vm) : Nat := Heap.pageUp ((heapSz s + Heap.realSize 12) % 2 ^ 32)

def newPages (s : Vm) : Nat := (grownSz s - heapSz s + 4095) / 4096

/-- The address of new page `j`. -/
def newPage (s : Vm) (j : Nat) : Nat := s.heap.heap.start + (heapSz s + 4096 * j)

/-- No hole can serve an entry, and for some page the heap would get there is
no mapped page table. -/
def Blocked (s : Vm) : Prop :=
  Heap.holeFind s.heap (Heap.realSize 12) 0 = none ∧ ∃ j < newPages s, ¬Mapped s (newPage s j)

theorem Blocked.congr {s t : Vm} (h : Blocked s) (hheap : t.heap = s.heap)
    (hcache : t.cache = s.cache) (hpts : t.kernelPts = s.kernelPts) : Blocked t := by
  unfold Blocked newPages newPage Mapped grownSz heapSz hashmapGet at *
  rw [hheap, hcache, hpts]
  exact h

section Expand

variable {malloc : Nat → Nat → Prog Vm Nat} {s t : Vm} {kernel : Bool} {start sz : Nat} {u : Unit}

theorem createTable_done {i : Nat} (R : Ready s)
    (h : createTable malloc s.current i kernel s = .done u t) :
    (s.kernelPts i).present = true ∧ t = s
      ∨ ¬(s.kernelPts i).present = true
        ∧ ∃ table, newTable malloc s.current i kernel s = .done table t := by
  obtain ⟨pde, s₁, hpde, h⟩ := Prog.bind_eq_done.mp h
  obtain ⟨rfl, rfl⟩ := Prog.gets_eq_done.mp hpde
  have hread : readPage s (.entry s.current.pts i) = s.kernelPts i := by
    rw [R.current]
    rfl
  rcases Prog.ite_eq_done.mp h with ⟨hpresent, h⟩ | ⟨hpresent, h⟩
  · obtain ⟨-, rfl⟩ := Prog.pure_eq_done.mp h
    exact Or.inl ⟨hread ▸ hpresent, rfl⟩
  · obtain ⟨table, s₂, hnew, h⟩ := Prog.bind_eq_done.mp h
    obtain ⟨-, rfl⟩ := Prog.pure_eq_done.mp h
    exact Or.inr ⟨hread ▸ hpresent, table, hnew⟩

/-- What one step of the growth does before it sets the entry. -/
theorem expandPage_done (R : Ready s) (hlow : start + sz < mapPagesMemory)
    (h : expandPage malloc start kernel sz s = .done u t) :
    ∃ s₁ u₁, createTable malloc s.current (pdi (start + sz)) kernel s = .done u₁ s₁
      ∧ ∃ pt s₂, mapVaddr malloc ((s₁.kernelPts (pdi (start + sz))).frame * 4096) s₁ = .done pt s₂
        ∧ frameAlloc (.entry (tableAt pt) (pti (start + sz))) (Flags.rw kernel) s₂ = .done u t := by
  obtain ⟨page, s₂, hget, halloc⟩ := Prog.bind_eq_done.mp h
  obtain ⟨dir, s₀, hdir, hget⟩ := Prog.bind_eq_done.mp hget
  obtain ⟨rfl, rfl⟩ := Prog.gets_eq_done.mp hdir
  rw [getPageOther, if_neg (Nat.not_le.mpr hlow)] at hget
  obtain ⟨pde, s₁, hpde, hget⟩ := Prog.bind_eq_done.mp hget
  obtain ⟨rfl, rfl⟩ := Prog.gets_eq_done.mp hpde
  rw [if_neg (by rw [Bool.not_true, Bool.and_false]; exact Bool.false_ne_true)] at hget
  obtain ⟨u₁, s₃, hcreate, hget⟩ := Prog.bind_eq_done.mp hget
  obtain ⟨pde, s₄, hpde, hget⟩ := Prog.bind_eq_done.mp hget
  obtain ⟨rfl, rfl⟩ := Prog.gets_eq_done.mp hpde
  obtain ⟨pt, s₅, hmap, hget⟩ := Prog.bind_eq_done.mp hget
  obtain ⟨rfl, rfl⟩ := Prog.pure_eq_done.mp hget
  rw [R.current] at hmap
  exact ⟨s₃, u₁, hcreate, pt, s₅, hmap, halloc⟩

/-- With the page table mapped, a step only sets the page's entry. -/
theorem expandPage_mapped (R : Ready s) (hlow : start + sz < mapPagesMemory)
    (hmapped : Mapped s (start + sz)) (h : expandPage malloc start kernel sz s = .done u t) :
    Kept s t ∧ t.heap = s.heap := by
  obtain ⟨s₁, u₁, hcreate, pt, s₂, hmap, halloc⟩ := expandPage_done R hlow h
  rcases createTable_done R hcreate with ⟨-, rfl⟩ | ⟨hnew, -⟩
  swap
  · exact absurd hmapped.1 hnew
  have hkey := hmapped.2
  rw [mapVaddr_hit (by rwa [Nat.mul_div_cancel _ (by decide)])] at hmap
  cases hmap
  have hentered := (frameAlloc_entered (p := .entry (tableAt _) _) trivial halloc).1
  refine ⟨⟨hentered.toStays, hentered.mapPages, ?_⟩, hentered.heap⟩
  exact funext fun w => hentered.mapPt w (nomatch ·)

/-- A page that is not cached cannot be mapped while an entry cannot be
allocated. -/
theorem mapVaddr_stuck {paddr r : Nat} (R : Ready s) (B : Blocked s)
    (hmalloc : ∀ s₁, Ready s₁ → Blocked s₁ → ∀ q s₂, malloc 12 0 s₁ ≠ .done q s₂)
    (hmiss : hashmapGet s (paddr / 4096 * 4096) = 0) : mapVaddr malloc paddr s ≠ .done r t := by
  intro h
  obtain ⟨w, -, -, -, s₁, u, htaken, hset⟩ := mapVaddr_miss hmiss h
  have R' := R.of_stays htaken.toStays
  have hmiss' : hashmapGet s₁ (paddr / 4096 * 4096) = 0 := by
    rw [hashmapGet, htaken.cache]
    exact hmiss
  obtain ⟨q, s₂, hcall, -⟩ := hashmapSet_miss R' hmiss' hset
  exact hmalloc s₁ R' (B.congr htaken.heap htaken.cache htaken.kernelPts) q s₂ hcall

theorem expandPage_stuck (R : Ready s) (B : Blocked s)
    (hmalloc : ∀ s₁, Ready s₁ → Blocked s₁ → ∀ q s₂, malloc 12 0 s₁ ≠ .done q s₂)
    (hlow : start + sz < mapPagesMemory) (hmapped : ¬Mapped s (start + sz)) :
    expandPage malloc start kernel sz s ≠ .done u t := by
  intro h
  obtain ⟨s₁, u₁, hcreate, pt, s₂, hmap, -⟩ := expandPage_done R hlow h
  rcases createTable_done R hcreate with ⟨hpresent, rfl⟩ | ⟨-, table, hnew⟩
  · have hmiss : hashmapGet s₁ ((s₁.kernelPts (pdi (start + sz))).frame * 4096) = 0 := by
      by_contra hne
      exact hmapped ⟨hpresent, hne⟩
    exact mapVaddr_stuck R B hmalloc (by rwa [Nat.mul_div_cancel _ (by decide)]) hmap
  · -- the frame chosen for a new table is clear, so it is not cached either
    obtain ⟨frame, s₄, hfind, hnew⟩ := Prog.bind_eq_done.mp hnew
    obtain ⟨u₂, s₅, hset, hnew⟩ := Prog.bind_eq_done.mp hnew
    obtain rfl := Prog.modify_eq_done.mp hset
    obtain ⟨table, s₆, hmap', -⟩ := Prog.bind_eq_done.mp hnew
    unfold frameFindFirst at hfind
    split at hfind
    · cases hfind
      have hclear : ¬Marked s frame := by
        rw [Marked, (findFirst_spec ‹_›).2.2]
        exact Bool.false_ne_true
      have hmiss := R.miss_of_clear hclear
      have hstays : Stays s (frameSet (frame * 4096)
          { s with chosen := (frame, s.frames) :: s.chosen }) :=
        ⟨rfl, rfl, rfl, rfl, rfl, fun f hf => marked_frameSet.mpr (Or.inr hf)⟩
      refine mapVaddr_stuck (R.of_stays hstays) (B.congr rfl rfl rfl) hmalloc ?_ hmap'
      rw [Nat.mul_div_cancel _ (by decide)]
      exact hmiss
    · cases hfind

/-! ## The growth as a whole -/

/-- New pages lie below the windows, as the heap's bound does. -/
theorem newPage_lt (R : Ready s) (hmax : s.heap.heap.start + grownSz s ≤ s.heap.heap.max) {j : Nat}
    (hj : j < newPages s) : newPage s j < mapPagesMemory := by
  have hbound := R.max
  unfold newPages at hj
  unfold newPage
  omega

/-- The loop over the new pages, in a growth for an entry. -/
theorem heapExpand_done
    (h : heapExpand malloc ((heapSz s + Heap.realSize 12) % 2 ^ 32) s = .done u t) :
    s.heap.heap.start + grownSz s ≤ s.heap.heap.max
      ∧ ∃ s₁ u₁, Prog.each (List.range (newPages s)) (fun j =>
          expandPage malloc s.heap.heap.start s.heap.heap.kernel (heapSz s + 4096 * j)) s
            = .done u₁ s₁
        ∧ t = { s₁ with heap :=
          { s₁.heap with heap := { s₁.heap.heap with stop := s.heap.heap.start + grownSz s } } } := by
  obtain ⟨u₁, s₁, hgrows, h⟩ := Prog.bind_eq_done.mp h
  obtain ⟨-, rfl⟩ := Prog.assert_eq_done.mp hgrows
  obtain ⟨u₂, s₂, hfits, h⟩ := Prog.bind_eq_done.mp h
  obtain ⟨hmax, rfl⟩ := Prog.assert_eq_done.mp hfits
  obtain ⟨start, s₃, hstart, h⟩ := Prog.bind_eq_done.mp h
  obtain ⟨rfl, rfl⟩ := Prog.gets_eq_done.mp hstart
  obtain ⟨kernel, s₄, hkernel, h⟩ := Prog.bind_eq_done.mp h
  obtain ⟨rfl, rfl⟩ := Prog.gets_eq_done.mp hkernel
  obtain ⟨oldSz, s₅, hold, h⟩ := Prog.bind_eq_done.mp h
  obtain ⟨rfl, rfl⟩ := Prog.gets_eq_done.mp hold
  obtain ⟨u₃, s₆, hloop, h⟩ := Prog.bind_eq_done.mp h
  obtain rfl := Prog.modify_eq_done.mp h
  exact ⟨of_decide_eq_true hmax, s₆, u₃, hloop, rfl⟩

/-- An allocation for an entry that finds no hole lets the heap grow, and is made
again. -/
theorem heapAlloc_done {q : Nat} (hhole : Heap.holeFind s.heap (Heap.realSize 12) 0 = none)
    (h : heapAlloc malloc 12 0 s = .done q t) :
    s.heap.heap.start + grownSz s ≤ s.heap.heap.max
      ∧ ∃ s₁ u₁, Prog.each (List.range (newPages s)) (fun j =>
          expandPage malloc s.heap.heap.start s.heap.heap.kernel (heapSz s + 4096 * j)) s
            = .done u₁ s₁
        ∧ ∃ s₂, Kept s₁ s₂ ∧ malloc 12 0 s₂ = .done q t := by
  obtain ⟨hole, s₁, hfind, h⟩ := Prog.bind_eq_done.mp h
  obtain ⟨rfl, rfl⟩ := Prog.gets_eq_done.mp hfind
  rw [hhole] at h
  obtain ⟨oldSz, s₂, hsz, h⟩ := Prog.bind_eq_done.mp h
  obtain ⟨rfl, rfl⟩ := Prog.gets_eq_done.mp hsz
  obtain ⟨oldEnd, s₃, hend, h⟩ := Prog.bind_eq_done.mp h
  obtain ⟨rfl, rfl⟩ := Prog.gets_eq_done.mp hend
  obtain ⟨u, s₄, hexpand, h⟩ := Prog.bind_eq_done.mp h
  obtain ⟨hmax, s₅, u₁, hloop, rfl⟩ := heapExpand_done hexpand
  obtain ⟨u₂, s₆, hgrow, h⟩ := Prog.bind_eq_done.mp h
  refine ⟨hmax, s₅, u₁, hloop, s₆, ?_, h⟩
  rw [← Prog.modify_eq_done.mp hgrow]
  exact Kept.of_heap s₅ (Heap.growHole_same _ _ _).max

/-- One step of the growth, at the state the steps before it have left. -/
theorem expandPage_kept (R : Ready s) {s₁ : Vm} (hkept : Kept s s₁ ∧ s₁.heap = s.heap) {j : Nat}
    (hlow : newPage s j < mapPagesMemory) (hmapped : Mapped s (newPage s j))
    (h : expandPage malloc s.heap.heap.start kernel (heapSz s + 4096 * j) s₁ = .done u t) :
    Kept s t ∧ t.heap = s.heap := by
  have hmapped' : Mapped s₁ (newPage s j) := by
    unfold Mapped hashmapGet at *
    rw [hkept.1.kernelPts, hkept.1.cache]
    exact hmapped
  obtain ⟨hstep, hheap⟩ := expandPage_mapped (R.of_stays hkept.1.toStays) hlow hmapped' h
  exact ⟨hkept.1.trans hstep, hheap.trans hkept.2⟩

end Expand

/-- No depth is enough for an allocation that has to map a page table first. -/
theorem kmalloc_stuck (n : Nat) {s : Vm} (R : Ready s) (B : Blocked s) (q : Nat) (t : Vm) :
    kmalloc n 12 0 s ≠ .done q t := by
  induction n generalizing s q t with
  | zero => exact (nomatch ·)
  | succ n ih =>
      intro h
      obtain ⟨hmax, s₅, u₁, hloop, -⟩ := heapAlloc_done B.1 h
      have hlow : ∀ j ∈ List.range (newPages s), newPage s j < mapPagesMemory := fun j hj =>
        newPage_lt R hmax (List.mem_range.mp hj)
      refine Prog.each_stuck (I := fun s₁ => Kept s s₁ ∧ s₁.heap = s.heap)
        (G := fun j => Mapped s (newPage s j)) (fun j hj hgood s₁ s₂ u hkept hstep => ?_)
        (fun j hj hbad s₁ hkept u s₂ hstep => ?_) ?_ ⟨Kept.refl s, rfl⟩ u₁ hloop
      · exact expandPage_kept R hkept (hlow j hj) hgood hstep
      · have hbad' : ¬Mapped s₁ (newPage s j) := by
          unfold Mapped hashmapGet at *
          rw [hkept.1.kernelPts, hkept.1.cache]
          exact hbad
        exact expandPage_stuck (R.of_stays hkept.1.toStays)
          (B.congr hkept.2 hkept.1.cache hkept.1.kernelPts) (fun _ R' B' => ih R' B') (hlow j hj)
          hbad' hstep
      · obtain ⟨j, hj, hne⟩ := B.2
        exact ⟨j, List.mem_range.mpr hj, hne⟩

/-- An allocation that returns has neither mapped a page nor touched the
cache. -/
theorem kmalloc_kept (n : Nat) {s t : Vm} (R : Ready s) {q : Nat}
    (h : kmalloc n 12 0 s = .done q t) : Kept s t := by
  have hnot : ¬Blocked s := fun B => kmalloc_stuck n R B q t h
  induction n generalizing s with
  | zero => cases h
  | succ n ih =>
      cases hhole : Heap.holeFind s.heap (Heap.realSize 12) 0 with
      | some hole =>
          obtain ⟨found, s₁, hfind, h⟩ := Prog.bind_eq_done.mp h
          obtain ⟨rfl, rfl⟩ := Prog.gets_eq_done.mp hfind
          rw [hhole] at h
          dsimp only [serve] at h
          split at h
          · cases h
            exact Kept.of_heap s (Heap.allocHole_same ‹_›).max
          · cases h
      | none =>
          obtain ⟨hmax, s₅, u₁, hloop, s₆, hgrow, h⟩ := heapAlloc_done hhole h
          have hmapped : ∀ j < newPages s, Mapped s (newPage s j) := by
            intro j hj
            by_contra hne
            exact hnot ⟨hhole, j, hj, hne⟩
          have hkept : Kept s s₅ ∧ s₅.heap = s.heap := by
            refine Prog.each_done (I := fun s₁ => Kept s s₁ ∧ s₁.heap = s.heap)
              (fun j hj s₁ s₂ u hkept hstep => ?_) ⟨Kept.refl s, rfl⟩ hloop
            have hj := List.mem_range.mp hj
            exact expandPage_kept R hkept (newPage_lt R hmax hj) (hmapped j hj) hstep
          have hgrown : Kept s s₆ := hkept.1.trans hgrow
          have R' := R.of_stays hgrown.toStays
          exact hgrown.trans (ih R' h fun B => kmalloc_stuck n R' B q t h)

end Vmem

end Shitos
