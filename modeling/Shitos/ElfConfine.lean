import Shitos.ElfStack

/-!
# What a file can make the loader touch

`elf_exec` maps pages, stores the bytes that it reads from the file, and clears
memory, all at addresses that it computes from the headers of the file in 32
bits. Up to the pushes it is a list of such accesses, one after the other
(`accesses`, `loadProgram_eq`).

It does not compare any of the addresses with anything. Where the accesses stay
below the kernel and inside the segments, the heap and the stack, and these
three are apart (`Confined`), is a matter of the headers alone (`Fits`).
-/

namespace Shitos

namespace Elf

open AddrSpace

/-! ## Accesses -/

/-- A page is mapped, a byte is stored, or a loop has not ended in its turns. -/
inductive Access where
  | map (a : Nat)
  | store (a : Nat) (b : UInt8)
  | deep

namespace Access

def run : Access → Prog As Unit
  | .map a => mapPage a
  | .store a b => storeByte a b
  | .deep => Prog.tooDeep

def addr : Access → Option Nat
  | .map a => some a
  | .store a _ => some a
  | .deep => none

end Access

def mapAccesses (stop : Nat) : Nat → Nat → List Access
  | 0, _ => [.deep]
  | n + 1, addr =>
      if addr < stop then .map addr :: mapAccesses stop n ((addr + 4096) % 2 ^ 32) else []

def storeAccesses : Nat → List UInt8 → List Access
  | _, [] => []
  | a, b :: l => .store a b :: storeAccesses ((a + 1) % 2 ^ 32) l

/-- What `fs_read` reads of a segment. -/
def readBytes (file : File) (phdr : Phdr) : List UInt8 :=
  (List.range (min phdr.filesz (file.size - phdr.offset))).map fun i => file.data (phdr.offset + i)

def segmentAccesses (turns : Nat) (file : File) (phdr : Phdr) : List Access :=
  mapAccesses ((phdr.vaddr + phdr.memsz) % 2 ^ 32) turns phdr.vaddr
    ++ (storeAccesses phdr.vaddr (readBytes file phdr)
      ++ storeAccesses ((phdr.vaddr + phdr.filesz) % 2 ^ 32)
          (List.replicate (sub32 phdr.memsz phdr.filesz) 0))

/-- `heap_base` after the loop over the headers. -/
def topOf : Nat → List Phdr → Nat
  | heapBase, [] => heapBase
  | heapBase, phdr :: l =>
      let stop := (phdr.vaddr + phdr.memsz) % 2 ^ 32
      topOf (if stop > heapBase then stop else heapBase) l

/-- Where the heap begins. -/
def heapOf (file : File) : Nat := Heap.pageUp (topOf 0 (loads file.phdrs))

def heapAccesses (turns base : Nat) : List Access :=
  mapAccesses ((base + userHeapSz) % 2 ^ 32) turns base
    ++ (heapStores base).flatMap fun e => storeAccesses e.1 e.2

/-- The accesses of `elf_exec` up to the pushes. -/
def accesses (turns : Nat) (file : File) : List Access :=
  (loads file.phdrs).flatMap (segmentAccesses turns file)
    ++ (heapAccesses turns (heapOf file) ++ mapAccesses 0x80000000 turns userStack)

/-- `elf_exec` up to the pushes. -/
def loadProgram (turns : Nat) (file : File) : Prog As (Option Nat) := do
  let loaded ← elfExec turns file
  match loaded with
  | none => pure none
  | some heapBase => do
      mapLoop 0x80000000 turns userStack
      pure (some heapBase)

/-! ### `elf_exec` is its accesses -/

theorem mapLoop_eq (stop n addr : Nat) :
    mapLoop stop n addr = Prog.each (mapAccesses stop n addr) Access.run := by
  induction n generalizing addr with
  | zero => rfl
  | succ n ih =>
      rw [mapLoop, mapAccesses]
      split_ifs with hlt
      · rw [ih]
        rfl
      · rfl

theorem store_eq (a : Nat) (l : List UInt8) :
    store a l = Prog.each (storeAccesses a l) Access.run := by
  induction l generalizing a with
  | nil => rfl
  | cons b l ih =>
      rw [store, storeAccesses, ih]
      rfl

theorem loadSegment_eq (turns : Nat) (file : File) (phdr : Phdr) :
    loadSegment turns file phdr = Prog.each (segmentAccesses turns file phdr) Access.run := by
  rw [segmentAccesses, Prog.each_append, Prog.each_append, ← mapLoop_eq, ← store_eq, ← store_eq]
  rfl

theorem loadLoop_eq (turns : Nat) (file : File) (l : List Phdr) (heapBase : Nat) :
    loadLoop turns file l heapBase = (do
      Prog.each ((loads l).flatMap (segmentAccesses turns file)) Access.run
      pure (topOf heapBase (loads l))) := by
  induction l generalizing heapBase with
  | nil => rfl
  | cons phdr l ih =>
      rw [loadLoop]
      split_ifs with htype
      · rw [loads_cons_of_load htype, List.flatMap_cons, Prog.each_append, bind_assoc, topOf,
          loadSegment_eq]
        simp only [ih]
      · rw [loads_cons_of_ne htype]
        exact ih heapBase

theorem heapStores_eq (base : Nat) : Prog.each (heapStores base) (fun e => store e.1 e.2)
    = Prog.each ((heapStores base).flatMap fun e => storeAccesses e.1 e.2) Access.run := by
  rw [← Prog.each_flatMap]
  congr 1
  funext e
  exact store_eq e.1 e.2

/-- On a file that it accepts, `elf_exec` does what its accesses do; on others it
returns an error. -/
theorem loadProgram_eq (turns : Nat) (file : File) :
    loadProgram turns file =
      if file.Valid then do
        Prog.each (accesses turns file) Access.run
        pure (some (heapOf file))
      else pure none := by
  rw [loadProgram, elfExec]
  split_ifs with hvalid
  · rw [accesses, Prog.each_append, Prog.each_append, heapAccesses, Prog.each_append,
      ← mapLoop_eq, ← mapLoop_eq, ← heapStores_eq, loadLoop_eq]
    simp only [bind_assoc]
    rfl
  · rfl

/-! ## Confinement -/

def InSegment (file : File) (a : Nat) : Prop := ∃ phdr ∈ loads file.phdrs, phdr.Has a

def InHeap (file : File) (a : Nat) : Prop := heapOf file ≤ a ∧ a < heapOf file + userHeapSz

def InStack (a : Nat) : Prop := userStack ≤ a ∧ a < 0x80000000

def Inside (file : File) (a : Nat) : Prop := InSegment file a ∨ InHeap file a ∨ InStack a

/-- Each access is below the kernel and in a segment, the heap or the stack, and these
three do not overlap. -/
structure Confined (file : File) : Prop where
  accesses : ∀ turns, ∀ x ∈ accesses turns file, ∀ a, x.addr = some a →
    a < kernelBase ∧ Inside file a
  apart : ∀ a, ¬ (InSegment file a ∧ InHeap file a) ∧ ¬ (InSegment file a ∧ InStack a)
    ∧ ¬ (InHeap file a ∧ InStack a)

/-- `n` bytes from `a` on are below the kernel and in a segment, the heap or the stack. -/
def Within (file : File) (a n : Nat) : Prop :=
  n = 0 ∨ (a + n ≤ kernelBase ∧ ∀ i < n, Inside file (a + i))

/-- The last address that the loop for a segment maps. -/
def Phdr.lastMapped (phdr : Phdr) : Nat := phdr.vaddr + (phdr.memsz - 1) / 4096 * 4096

/-- What the headers of a file have to be like. -/
structure Fits (file : File) : Prop where
  heap : heapOf file + userHeapSz ≤ kernelBase
    ∧ (heapOf file + userHeapSz ≤ userStack ∨ 0x80000000 ≤ heapOf file)
  stack : ∀ phdr ∈ loads file.phdrs, phdr.memsz = 0
    ∨ phdr.vaddr + phdr.memsz ≤ userStack ∨ 0x80000000 ≤ phdr.vaddr
  apart : ∀ phdr ∈ loads file.phdrs, phdr.memsz = 0
    ∨ phdr.vaddr + phdr.memsz ≤ heapOf file ∨ heapOf file + userHeapSz ≤ phdr.vaddr
  mapped : ∀ phdr ∈ loads file.phdrs, phdr.memsz = 0 ∨ 2 ^ 32 ≤ phdr.vaddr + phdr.memsz
    ∨ phdr.lastMapped < kernelBase
  read : ∀ phdr ∈ loads file.phdrs,
    Within file phdr.vaddr (min phdr.filesz (file.size - phdr.offset))
  cleared : ∀ phdr ∈ loads file.phdrs,
    Within file ((phdr.vaddr + phdr.filesz) % 2 ^ 32) (sub32 phdr.memsz phdr.filesz)

/-- The fields of a header are words. -/
theorem phdr_lt {file : File} {phdr : Phdr} (h : phdr ∈ loads file.phdrs) :
    phdr.vaddr < 2 ^ 32 ∧ phdr.memsz < 2 ^ 32 := by
  obtain ⟨hmem, -⟩ := List.mem_filter.mp h
  obtain ⟨i, -, rfl⟩ := List.mem_map.mp hmem
  exact ⟨rd32_lt _ _, rd32_lt _ _⟩

theorem heapOf_aligned (file : File) : heapOf file % 4096 = 0 := Nat.mul_mod_left _ _

/-! ### Which accesses there are -/

/-- All addresses of stores. -/
theorem mem_storeAccesses {l : List UInt8} {a : Nat} {x : Access} (ha : a < 2 ^ 32)
    (h : x ∈ storeAccesses a l) : ∃ i < l.length, x.addr = some ((a + i) % 2 ^ 32) := by
  induction l generalizing a with
  | nil => exact absurd h List.not_mem_nil
  | cons b l ih =>
      rcases List.mem_cons.mp h with rfl | hrest
      · exact ⟨0, Nat.succ_pos _, congrArg some (Nat.mod_eq_of_lt ha).symm⟩
      · obtain ⟨i, hi, hx⟩ := ih (Nat.mod_lt _ (Nat.two_pow_pos 32)) hrest
        refine ⟨i + 1, Nat.succ_lt_succ hi, ?_⟩
        rw [hx, Nat.mod_add_mod, Nat.add_assoc, Nat.add_comm 1 i]

theorem storeAccesses_at {l : List UInt8} {a i : Nat} (ha : a < 2 ^ 32) (hi : i < l.length) :
    ∃ x ∈ storeAccesses a l, x.addr = some ((a + i) % 2 ^ 32) := by
  induction l generalizing a i with
  | nil => exact absurd hi (Nat.not_lt_zero i)
  | cons b l ih =>
      cases i with
      | zero =>
          exact ⟨_, List.mem_cons_self, congrArg some (Nat.mod_eq_of_lt ha).symm⟩
      | succ i =>
          obtain ⟨x, hmem, hx⟩ := @ih ((a + 1) % 2 ^ 32) i (Nat.mod_lt _ (Nat.two_pow_pos 32))
            (Nat.lt_of_succ_lt_succ hi)
          refine ⟨x, List.mem_cons_of_mem _ hmem, ?_⟩
          rw [hx, Nat.mod_add_mod, Nat.add_assoc, Nat.add_comm 1 i]

/-- Stores are within, if all their addresses are below the kernel and inside. -/
theorem within_iff {file : File} {a n : Nat} (ha : a < 2 ^ 32) :
    (∀ i < n, (a + i) % 2 ^ 32 < kernelBase ∧ Inside file ((a + i) % 2 ^ 32))
      ↔ Within file a n := by
  have hkernel : kernelBase < 2 ^ 32 := by decide
  constructor
  · intro h
    refine (Nat.eq_zero_or_pos n).imp id fun hn => ?_
    have hfirst := (h 0 hn).1
    rw [Nat.add_zero, Nat.mod_eq_of_lt ha] at hfirst
    have hend : a + n ≤ kernelBase := by
      by_contra hover
      have hlast := (h (kernelBase - a) (by omega)).1
      rw [Nat.add_sub_cancel' (Nat.le_of_lt hfirst), Nat.mod_eq_of_lt hkernel] at hlast
      exact Nat.lt_irrefl _ hlast
    refine ⟨hend, fun i hi => ?_⟩
    have hin := (h i hi).2
    rwa [Nat.mod_eq_of_lt (by omega)] at hin
  · rintro (rfl | ⟨hend, hin⟩) i hi
    · exact absurd hi (Nat.not_lt_zero i)
    · rw [Nat.mod_eq_of_lt (by omega)]
      exact ⟨by omega, hin i hi⟩

theorem stores_iff {file : File} {a : Nat} {l : List UInt8} (ha : a < 2 ^ 32) :
    (∀ x ∈ storeAccesses a l, ∀ a', x.addr = some a' → a' < kernelBase ∧ Inside file a')
      ↔ Within file a l.length := by
  rw [← within_iff ha]
  constructor
  · intro h i hi
    obtain ⟨x, hmem, hx⟩ := storeAccesses_at ha hi
    exact h x hmem _ hx
  · intro h x hmem a' hx
    obtain ⟨i, hi, hx'⟩ := mem_storeAccesses ha hmem
    obtain rfl := Option.some.inj (hx.symm.trans hx')
    exact h i hi

/-- A loop that does not get to the end of the address space maps the addresses from its
first on, a page apart, up to its stop. -/
theorem mapAccesses_addr {stop n addr a : Nat} {x : Access}
    (hstop : stop + 4096 ≤ 2 ^ 32 ∨ stop ≤ addr) (h : x ∈ mapAccesses stop n addr)
    (hx : x.addr = some a) : ∃ k, a = addr + 4096 * k ∧ a < stop := by
  induction n generalizing addr with
  | zero =>
      obtain rfl := List.mem_singleton.mp h
      cases hx
  | succ n ih =>
      rw [mapAccesses] at h
      split_ifs at h with hlt
      · rcases List.mem_cons.mp h with rfl | hrest
        · obtain rfl := Option.some.inj hx
          exact ⟨0, rfl, hlt⟩
        · rw [Nat.mod_eq_of_lt (by omega)] at hrest
          obtain ⟨k, hk, hkstop⟩ := ih (by omega) hrest
          exact ⟨k + 1, by omega, hkstop⟩
      · exact absurd h List.not_mem_nil

theorem mapAccesses_at {stop n addr k : Nat} (hlt : addr + 4096 * k < stop) (hstop : stop < 2 ^ 32)
    (hn : k < n) : ∃ x ∈ mapAccesses stop n addr, x.addr = some (addr + 4096 * k) := by
  induction n generalizing addr k with
  | zero => exact absurd hn (Nat.not_lt_zero k)
  | succ n ih =>
      rw [mapAccesses, if_pos (by omega)]
      cases k with
      | zero => exact ⟨_, List.mem_cons_self, rfl⟩
      | succ k =>
          have hpos : addr + 4096 * (k + 1) = addr + 4096 + 4096 * k := by
            rw [Nat.mul_succ, Nat.add_comm (4096 * k), Nat.add_assoc]
          rw [hpos] at hlt ⊢
          have hle : addr + 4096 ≤ addr + 4096 + 4096 * k := Nat.le_add_right _ _
          have hnext : (addr + 4096) % 2 ^ 32 = addr + 4096 :=
            Nat.mod_eq_of_lt (Nat.lt_of_le_of_lt hle (Nat.lt_trans hlt hstop))
          obtain ⟨x, hmem, hx⟩ := @ih (addr + 4096) k hlt (Nat.lt_of_succ_lt_succ hn)
          rw [hnext]
          exact ⟨x, List.mem_cons_of_mem _ hmem, hx⟩

section Segment

variable {file : File} {phdr : Phdr} {turns : Nat} {x : Access}

theorem mem_accesses_segment (hphdr : phdr ∈ loads file.phdrs)
    (h : x ∈ segmentAccesses turns file phdr) : x ∈ accesses turns file :=
  List.mem_append_left _ (List.mem_flatMap.mpr ⟨phdr, hphdr, h⟩)

theorem mem_accesses_heap (h : x ∈ heapAccesses turns (heapOf file)) : x ∈ accesses turns file :=
  List.mem_append_right _ (List.mem_append_left _ h)

/-- What a segment's loop maps is in the segment. -/
theorem map_inside (hphdr : phdr ∈ loads file.phdrs) (hfits : Fits file)
    (h : x ∈ mapAccesses ((phdr.vaddr + phdr.memsz) % 2 ^ 32) turns phdr.vaddr) {a : Nat}
    (hx : x.addr = some a) : a < kernelBase ∧ Inside file a := by
  obtain ⟨hvaddr, hmemsz⟩ := phdr_lt hphdr
  have hmapped := hfits.mapped phdr hphdr
  unfold Phdr.lastMapped kernelBase at hmapped
  obtain ⟨k, hk, hlt⟩ := mapAccesses_addr (by omega) h hx
  have hhas : phdr.Has a := ⟨by omega, by omega⟩
  refine ⟨?_, Or.inl ⟨phdr, hphdr, hhas⟩⟩
  unfold kernelBase
  omega

end Segment

theorem confined_of_fits {file : File} (h : Fits file) : Confined file := by
  refine ⟨fun turns x hmem a hx => ?_, fun a => ⟨?_, ?_, ?_⟩⟩
  · rcases List.mem_append.mp hmem with hseg | hmem
    · obtain ⟨phdr, hphdr, hmem⟩ := List.mem_flatMap.mp hseg
      have hvaddr := (phdr_lt hphdr).1
      rcases List.mem_append.mp hmem with hmap | hmem
      · exact map_inside hphdr h hmap hx
      rcases List.mem_append.mp hmem with hread | hclear
      · have hwithin := h.read phdr hphdr
        rw [← length_read file phdr] at hwithin
        exact (stores_iff hvaddr).mpr hwithin x hread a hx
      · have hwithin := h.cleared phdr hphdr
        rw [← @List.length_replicate UInt8 (sub32 phdr.memsz phdr.filesz) 0] at hwithin
        exact (stores_iff (Nat.mod_lt _ (Nat.two_pow_pos 32))).mpr hwithin x hclear a hx
    rcases List.mem_append.mp hmem with hheap | hstack
    · have hbase := h.heap.1
      rcases List.mem_append.mp hheap with hmap | hcreate
      · rw [Nat.mod_eq_of_lt (by unfold kernelBase at hbase; omega)] at hmap
        obtain ⟨k, hk, hlt⟩ :=
          mapAccesses_addr (Or.inl (by unfold kernelBase at hbase; omega)) hmap hx
        exact ⟨by omega, Or.inr (Or.inl ⟨by omega, hlt⟩)⟩
      · obtain ⟨e, he, hmem⟩ := List.mem_flatMap.mp hcreate
        obtain ⟨hlow, hend⟩ := heapStores_inside e he
        refine (stores_iff (by unfold kernelBase at hbase; omega)).mpr
          (Or.inr ⟨by omega, fun i hi => ?_⟩) x hmem a hx
        exact Or.inr (Or.inl ⟨by omega, by omega⟩)
    · obtain ⟨k, hk, hlt⟩ := mapAccesses_addr (Or.inl (by decide)) hstack hx
      exact ⟨by unfold kernelBase; omega, Or.inr (Or.inr ⟨by omega, hlt⟩)⟩
  · rintro ⟨⟨phdr, hphdr, hlo, hhi⟩, hlo', hhi'⟩
    have hapart := h.apart phdr hphdr
    omega
  · rintro ⟨⟨phdr, hphdr, hlo, hhi⟩, hlo', hhi'⟩
    have hapart := h.stack phdr hphdr
    omega
  · rintro ⟨⟨hlo, hhi⟩, hlo', hhi'⟩
    have hapart := h.heap.2
    omega

/-- The first thing that is stored of the heap is cleared at its base. -/
theorem heap_first {turns : Nat} (file : File) :
    ∃ x ∈ accesses turns file, x.addr = some (heapOf file) := by
  have hlt : heapOf file < 2 ^ 32 := by
    unfold heapOf Heap.pageUp
    omega
  obtain ⟨x, hmem, hx⟩ := @storeAccesses_at (List.replicate 0x1000 0) (heapOf file) 0 hlt
    (by rw [List.length_replicate]; decide)
  rw [Nat.add_zero, Nat.mod_eq_of_lt hlt] at hx
  exact ⟨x, mem_accesses_heap (List.mem_append_right _ (List.mem_flatMap.mpr
    ⟨_, List.mem_cons_self, hmem⟩)), hx⟩

theorem heap_below {file : File} (h : Confined file) :
    heapOf file + userHeapSz ≤ kernelBase := by
  obtain ⟨x, hmem, hx⟩ := @heap_first 0 file
  have hbase := (h.accesses 0 x hmem _ hx).1
  have halign := heapOf_aligned file
  have hsz : userHeapSz = 4096 * 64 := rfl
  have hkernel : kernelBase = 4096 * 0xc0000 := rfl
  have hstop : (heapOf file + userHeapSz) % 2 ^ 32 = heapOf file + userHeapSz :=
    Nat.mod_eq_of_lt (by omega)
  obtain ⟨y, hmem', hy⟩ := @mapAccesses_at (heapOf file + userHeapSz) 64 (heapOf file) 63
    (by omega) (by omega) (by decide)
  have hlast := (h.accesses 64 y (mem_accesses_heap (List.mem_append_left _
    (by rw [hstop]; exact hmem'))) _ hy).1
  omega

theorem fits_of_confined {file : File} (h : Confined file) : Fits file := by
  have hheap := heap_below h
  have hbase : userStack = 0x80000000 - 0x20000 := rfl
  have hsz : userHeapSz = 0x40000 := rfl
  refine ⟨⟨hheap, ?_⟩, fun phdr hphdr => ?_, fun phdr hphdr => ?_, fun phdr hphdr => ?_,
    fun phdr hphdr => ?_, fun phdr hphdr => ?_⟩
  · by_contra hboth
    exact (h.apart (max (heapOf file) userStack)).2.2
      ⟨⟨by omega, by omega⟩, by omega, by omega⟩
  · by_contra hboth
    exact (h.apart (max phdr.vaddr userStack)).2.1
      ⟨⟨phdr, hphdr, by omega, by omega⟩, by omega, by omega⟩
  · by_contra hboth
    exact (h.apart (max phdr.vaddr (heapOf file))).1
      ⟨⟨phdr, hphdr, by omega, by omega⟩, by omega, by omega⟩
  · by_contra hnot
    have hstop : (phdr.vaddr + phdr.memsz) % 2 ^ 32 = phdr.vaddr + phdr.memsz :=
      Nat.mod_eq_of_lt (by omega)
    obtain ⟨x, hmem, hx⟩ := @mapAccesses_at (phdr.vaddr + phdr.memsz) ((phdr.memsz - 1) / 4096 + 1)
      phdr.vaddr ((phdr.memsz - 1) / 4096) (by omega) (by omega) (Nat.lt_succ_self _)
    have hlast := (h.accesses _ x (mem_accesses_segment hphdr (List.mem_append_left _
      (by rw [hstop]; exact hmem))) _ hx).1
    unfold Phdr.lastMapped at hnot
    omega
  · rw [← length_read file phdr]
    exact (stores_iff (phdr_lt hphdr).1).mp fun x hmem => h.accesses 0 x
      (mem_accesses_segment hphdr (List.mem_append_right _ (List.mem_append_left _ hmem)))
  · rw [← @List.length_replicate UInt8 (sub32 phdr.memsz phdr.filesz) 0]
    exact (stores_iff (Nat.mod_lt _ (Nat.two_pow_pos 32))).mp fun x hmem => h.accesses 0 x
      (mem_accesses_segment hphdr (List.mem_append_right _ (List.mem_append_right _ hmem)))

/-! ## Files that are confined -/

/-- An error is returned. -/
def Refused (file : File) : Prop := ∀ turns s, ∃ t, loadProgram turns file s = .done none t

theorem refused_iff (file : File) : Refused file ↔ ¬ file.Valid := by
  constructor
  · intro h hvalid
    obtain ⟨t, hrun⟩ := h 0 fresh
    rw [loadProgram_eq, if_pos hvalid] at hrun
    obtain ⟨u, s, -, hret⟩ := Prog.bind_eq_done.mp hrun
    obtain ⟨hne, -⟩ := Prog.pure_eq_done.mp hret
    cases hne
  · intro hvalid turns s
    rw [loadProgram_eq, if_neg hvalid]
    exact ⟨s, Prog.pure_eq_done.mpr ⟨rfl, rfl⟩⟩

theorem topOf_le {l : List Phdr} {heapBase top : Nat} (hbase : heapBase ≤ top)
    (h : ∀ phdr ∈ l, phdr.vaddr + phdr.memsz ≤ top) (htop : top < 2 ^ 32) :
    heapBase ≤ topOf heapBase l ∧ topOf heapBase l ≤ top
      ∧ ∀ phdr ∈ l, phdr.vaddr + phdr.memsz ≤ topOf heapBase l := by
  induction l generalizing heapBase with
  | nil => exact ⟨Nat.le_refl _, hbase, fun phdr hmem => absurd hmem List.not_mem_nil⟩
  | cons phdr l ih =>
      have hend := h phdr List.mem_cons_self
      rw [topOf, Nat.mod_eq_of_lt (Nat.lt_of_le_of_lt hend htop)]
      have hstep : (if phdr.vaddr + phdr.memsz > heapBase then phdr.vaddr + phdr.memsz
          else heapBase) ≤ top := by
        split_ifs <;> omega
      obtain ⟨hle, hhigh, hall⟩ := ih hstep fun phdr' hmem => h phdr' (List.mem_cons_of_mem _ hmem)
      have hmax : heapBase ≤ (if phdr.vaddr + phdr.memsz > heapBase then phdr.vaddr + phdr.memsz
          else heapBase) ∧ phdr.vaddr + phdr.memsz ≤ (if phdr.vaddr + phdr.memsz > heapBase
          then phdr.vaddr + phdr.memsz else heapBase) := by
        split_ifs <;> omega
      refine ⟨hmax.1.trans hle, hhigh, fun phdr' hmem => ?_⟩
      rcases List.mem_cons.mp hmem with rfl | hmem
      · exact hmax.2.trans hle
      · exact hall phdr' hmem

/-- A file with ordinary segments is confined: in none more bytes of the file than of
memory, and all far enough below the stack to leave room for the heap. -/
theorem fits_of_ordinary {file : File} (h : ∀ phdr ∈ loads file.phdrs,
    phdr.filesz ≤ phdr.memsz ∧ phdr.vaddr + phdr.memsz + userHeapSz ≤ userStack) : Fits file := by
  have hbase : userStack = 0x80000000 - 0x20000 := rfl
  have hsz : userHeapSz = 0x40000 := rfl
  have hkernel : kernelBase = 0xc0000000 := rfl
  obtain ⟨-, hhigh, htop⟩ := @topOf_le (loads file.phdrs) 0 (userStack - userHeapSz)
    (Nat.zero_le _) (fun phdr hmem => by have hend := (h phdr hmem).2; omega) (by omega)
  have hheap : topOf 0 (loads file.phdrs) ≤ heapOf file
      ∧ heapOf file + userHeapSz ≤ userStack := by
    unfold heapOf Heap.pageUp
    omega
  have hown : ∀ phdr ∈ loads file.phdrs, ∀ a n, phdr.vaddr ≤ a →
      a + n ≤ phdr.vaddr + phdr.memsz → Within file a n := fun phdr hmem a n hlo hhi => by
    have hend := (h phdr hmem).2
    refine Or.inr ⟨by omega, fun i hi => Or.inl ⟨phdr, hmem, by omega, by omega⟩⟩
  refine ⟨⟨by omega, Or.inl hheap.2⟩, fun phdr hmem => ?_, fun phdr hmem => ?_,
    fun phdr hmem => ?_, fun phdr hmem => ?_, fun phdr hmem => ?_⟩
  · have hend := (h phdr hmem).2
    omega
  · have hend := htop phdr hmem
    omega
  · have hend := (h phdr hmem).2
    unfold Phdr.lastMapped
    omega
  · have hfits := (h phdr hmem).1
    exact hown phdr hmem _ _ (Nat.le_refl _) (by omega)
  · obtain ⟨hfits, hend⟩ := h phdr hmem
    rw [Nat.mod_eq_of_lt (by omega), sub32_of_le hfits]
    exact hown phdr hmem _ _ (by omega) (by omega)

/-! ### A segment in the kernel -/

/-- An executable with a segment of `0x20` bytes at `0xc0000000`. -/
def intoKernel : File where
  size := 0x80
  data i := ([0x7f, 69, 76, 70, 1, 1, 1, 0, 0, 0, 0, 0, 0, 0, 0, 0,
    2, 0, 3, 0, 1, 0, 0, 0, 0, 0, 0, 0xc0, 0x34, 0, 0, 0,
    0, 0, 0, 0, 0, 0, 0, 0, 0x34, 0, 0x20, 0, 1, 0, 0, 0, 0, 0, 0, 0,
    1, 0, 0, 0, 0x60, 0, 0, 0, 0, 0, 0, 0xc0, 0, 0, 0, 0xc0,
    0x20, 0, 0, 0, 0x20, 0, 0, 0, 7, 0, 0, 0, 1, 0, 0, 0][i]?).getD 0x90

/-- The header of its segment. -/
def kernelHdr : Phdr where
  type := ptLoad
  offset := 0x60
  vaddr := 0xc0000000
  filesz := 0x20
  memsz := 0x20

theorem loads_intoKernel : loads intoKernel.phdrs = [kernelHdr] := by
  have hnum : rd16 intoKernel.data 44 = 1 := rfl
  have hoff : (rd32 intoKernel.data 28 + rd16 intoKernel.data 42 * 0) % 2 ^ 32 = 52 := rfl
  have hphdr : intoKernel.phdr 0 = kernelHdr := by
    unfold File.phdr
    rw [hoff]
    rfl
  rw [File.phdrs, hnum, List.range_one, List.map_singleton, hphdr]
  rfl

end Elf

end Shitos
