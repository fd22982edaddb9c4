import Mathlib.Order.Interval.Finset.Nat
import Shitos.AddrSpace

/-!
# Loading a program

`elf_exec` up to the point where it sets up the stack. For each header of a
segment it maps pages, reads the segment's bytes from the file into them and
clears the rest; behind the last segment it maps and creates the heap.

The loop that maps the pages starts from the address of the segment, not from
that of its page: where the segment's end lies further into its page than its
start, the last page is left out (`Visits`). The copy then faults on it, and
`elf_exec` gets no further, unless the page has been there before or the file
ends early. What is loaded when the stack is set up is `elfExec_loaded_iff`.
-/

namespace Shitos

namespace Elf

open AddrSpace

/-! ## The file -/

/-- `Elf32_Phdr`. -/
structure Phdr where
  type : Nat
  offset : Nat
  vaddr : Nat
  filesz : Nat
  memsz : Nat

/-- A file. Behind its end, `data` is what the buffer held that is read into. -/
structure File where
  size : Nat
  data : Mem

/-- `PT_LOAD`. -/
def ptLoad : Nat := 1

/-- The tests of `e_ident` and `e_type`. -/
def File.Valid (file : File) : Prop :=
  file.data 0 = 0x7f ∧ file.data 1 = 69 ∧ file.data 2 = 76 ∧ file.data 3 = 70
    ∧ rd8 file.data 4 = 1 ∧ rd16 file.data 16 = 2

instance (file : File) : Decidable file.Valid := inferInstanceAs (Decidable (_ ∧ _))

/-- The program header at `hdr.e_phoff + hdr.e_phentsize*i`. -/
def File.phdr (file : File) (i : Nat) : Phdr :=
  let off := (rd32 file.data 28 + rd16 file.data 42 * i) % 2 ^ 32
  { type := rd32 file.data off
    offset := rd32 file.data (off + 4)
    vaddr := rd32 file.data (off + 8)
    filesz := rd32 file.data (off + 16)
    memsz := rd32 file.data (off + 20) }

/-- The program headers. -/
def File.phdrs (file : File) : List Phdr := (List.range (rd16 file.data 44)).map file.phdr

/-! ## `elf_exec` -/

/-- `USER_STACK_SZ`. -/
def userStackSz : Nat := 0x20000

/-- `USER_HEAP_SZ`. -/
def userHeapSz : Nat := 0x40000

/-- Where the user stack begins. -/
def userStack : Nat := 0x80000000 - userStackSz

/-- `fs_read`, from a file system that reads to the end of the file. -/
def fsRead (file : File) (off sz buf : Nat) : Prog As Unit :=
  store buf ((List.range (min sz (file.size - off))).map fun i => file.data (off + i))

/-- A loop that maps pages up to `stop`, for at most `n` turns. -/
def mapLoop (stop : Nat) : Nat → Nat → Prog As Unit
  | 0, _ => Prog.tooDeep
  | n + 1, addr =>
      if addr < stop then do
        mapPage addr
        mapLoop stop n ((addr + 4096) % 2 ^ 32)
      else pure ()

/-- The block for a header with the type `PT_LOAD`. -/
def loadSegment (turns : Nat) (file : File) (phdr : Phdr) : Prog As Unit := do
  mapLoop ((phdr.vaddr + phdr.memsz) % 2 ^ 32) turns phdr.vaddr
  fsRead file phdr.offset phdr.filesz phdr.vaddr
  store ((phdr.vaddr + phdr.filesz) % 2 ^ 32)
    (List.replicate (sub32 phdr.memsz phdr.filesz) 0)

/-- The loop over the program headers, with `heap_base`. -/
def loadLoop (turns : Nat) (file : File) : List Phdr → Nat → Prog As Nat
  | [], heapBase => pure heapBase
  | phdr :: l, heapBase =>
      if phdr.type = ptLoad then do
        loadSegment turns file phdr
        let stop := (phdr.vaddr + phdr.memsz) % 2 ^ 32
        loadLoop turns file l (if stop > heapBase then stop else heapBase)
      else loadLoop turns file l heapBase

/-- A word, the lowest byte first. -/
def le32 (v : Nat) : List UInt8 := [v, v / 256, v / 65536, v / 16777216].map UInt8.ofNat

/-- What `vmem_heap_create` stores for the user heap: the cleared index, the header
and the footer of the hole, and the hole in the index. -/
def heapStores (base : Nat) : List (Nat × List UInt8) :=
  let first := base + 0x1000
  let stop := base + userHeapSz
  [(base, List.replicate 0x1000 0), (first + 8, le32 (stop - first)), (first, le32 0x0dedbeef),
    (first + 4, [0]), (first + 5, [1]), (stop - 8, le32 0x0dedbeef), (stop - 4, le32 first),
    (base, le32 first)]

/-- `elf_exec`, up to the stack: `heap_base`, or none where the file is refused. -/
def elfExec (turns : Nat) (file : File) : Prog As (Option Nat) :=
  if file.Valid then do
    let top ← loadLoop turns file file.phdrs 0
    let heapBase := Heap.pageUp top
    mapLoop ((heapBase + userHeapSz) % 2 ^ 32) turns heapBase
    Prog.each (heapStores heapBase) fun e => store e.1 e.2
    pure (some heapBase)
  else pure none

/-! ## Segments -/

/-- The headers that are loaded. -/
def loads (l : List Phdr) : List Phdr := l.filter fun phdr => phdr.type = ptLoad

/-- An address of the segment. -/
def Phdr.Has (phdr : Phdr) (a : Nat) : Prop :=
  phdr.vaddr ≤ a ∧ a < phdr.vaddr + phdr.memsz

/-- A page that the loop for the segment maps: as many from the first on as the
size alone asks for. -/
def Phdr.Visits (phdr : Phdr) (p : Nat) : Prop :=
  phdr.vaddr / 4096 ≤ p ∧ p < phdr.vaddr / 4096 + (phdr.memsz + 4095) / 4096

/-- The file has all bytes of the segment. -/
def Phdr.InFile (phdr : Phdr) (file : File) : Prop :=
  phdr.filesz = 0 ∨ phdr.offset + phdr.filesz ≤ file.size

/-- Segments below the stack that do not overlap. -/
structure Placed (l : List Phdr) : Prop where
  below : ∀ phdr ∈ l, phdr.vaddr + phdr.memsz ≤ userStack
  fits : ∀ phdr ∈ l, phdr.filesz ≤ phdr.memsz
  apart : l.Pairwise fun phdr phdr' => ∀ a, ¬ (phdr.Has a ∧ phdr'.Has a)

/-- The bytes of a segment are those of the file, and zeros behind them. -/
def Filled (file : File) (phdr : Phdr) (s : As) : Prop :=
  ∀ i < phdr.memsz,
    (i < phdr.filesz → phdr.offset + i < file.size
      ∧ byteAt s (phdr.vaddr + i) = some (file.data (phdr.offset + i)))
    ∧ (phdr.filesz ≤ i → byteAt s (phdr.vaddr + i) = some 0)

/-- The segments are mapped for user mode and filled, and the heap begins with a page
behind them. -/
structure Loaded (file : File) (l : List Phdr) (s : As) (heapBase : Nat) : Prop where
  pages : ∀ phdr ∈ l, ∀ a, phdr.Has a → UserWritable s (a / 4096)
  bytes : ∀ phdr ∈ l, Filled file phdr s
  heap : heapBase % 4096 = 0 ∧ ∀ phdr ∈ l, phdr.vaddr + phdr.memsz ≤ heapBase

/-- Where a segment visits all of its own pages. -/
theorem visits_all_iff (phdr : Phdr) :
    (∀ a, phdr.Has a → phdr.Visits (a / 4096))
      ↔ phdr.vaddr % 4096 + phdr.memsz ≤ (phdr.memsz + 4095) / 4096 * 4096
        ∨ phdr.memsz = 0 := by
  unfold Phdr.Has Phdr.Visits
  constructor
  · intro h
    by_cases hzero : phdr.memsz = 0
    · exact Or.inr hzero
    · have hlast := (h (phdr.vaddr + phdr.memsz - 1) (by omega)).2
      exact Or.inl (by omega)
  · rintro (h | h) a ⟨hlo, hhi⟩
    · omega
    · omega

theorem loads_cons_of_load {phdr : Phdr} (h : phdr.type = ptLoad) (l : List Phdr) :
    loads (phdr :: l) = phdr :: loads l := List.filter_cons_of_pos (decide_eq_true h)

theorem loads_cons_of_ne {phdr : Phdr} (h : phdr.type ≠ ptLoad) (l : List Phdr) :
    loads (phdr :: l) = loads l := List.filter_cons_of_neg (by simpa using h)

theorem Placed.tail {phdr : Phdr} {l : List Phdr} (h : Placed (phdr :: l)) : Placed l :=
  ⟨fun phdr' hmem => h.below phdr' (List.mem_cons_of_mem _ hmem),
    fun phdr' hmem => h.fits phdr' (List.mem_cons_of_mem _ hmem), (List.pairwise_cons.mp h.apart).2⟩

/-- The read of a segment ends with the file. -/
theorem length_read (file : File) (phdr : Phdr) :
    ((List.range (min phdr.filesz (file.size - phdr.offset))).map
      fun i => file.data (phdr.offset + i)).length = min phdr.filesz (file.size - phdr.offset) := by
  rw [List.length_map, List.length_range]

theorem userStack_le : userStack ≤ kernelBase := by decide

/-- The heap begins with a page, and ends below the kernel's part. -/
theorem heapBase_fits {top : Nat} (h : top ≤ userStack) : Heap.pageUp top % 4096 = 0
    ∧ top ≤ Heap.pageUp top ∧ Heap.pageUp top + userHeapSz ≤ kernelBase := by
  unfold Heap.pageUp userHeapSz kernelBase
  unfold userStack userStackSz at h
  omega

section Run

variable {s t : As} {file : File} {turns : Nat}

/-- The pages of `V` are mapped, and nothing else is changed. -/
structure MapsAll (V : Nat → Prop) (s t : As) : Prop where
  good : Good t
  present : ∀ q, Present t q ↔ V q ∨ Present s q
  user : ∀ q, UserWritable t q ↔ V q ∨ UserWritable s q
  keep : ∀ a < kernelBase, ∀ v, byteAt s a = some v → byteAt t a = some v

theorem mapLoop_done {stop addr : Nat} {u : Unit} (hgood : Good s) (hstop : stop ≤ kernelBase)
    (h : mapLoop stop turns addr s = .done u t) :
    MapsAll (fun q => addr / 4096 ≤ q ∧ q < addr / 4096 + (stop - addr + 4095) / 4096) s t := by
  induction turns generalizing addr s with
  | zero => cases h
  | succ n ih =>
      rcases Prog.ite_eq_done.mp h with ⟨hlt, hturn⟩ | ⟨hge, hret⟩
      · obtain ⟨u', s₁, hmap, hrest⟩ := Prog.bind_eq_done.mp hturn
        have hmaps := mapPage_maps hmap
        have hnext : (addr + 4096) % 2 ^ 32 = addr + 4096 :=
          Nat.mod_eq_of_lt (by unfold kernelBase at hstop; omega)
        rw [hnext] at hrest
        obtain ⟨hgood', hpresent, huser, hkeep⟩ := ih (hmaps.good hgood) hrest
        -- The first page, and those of the turns that are left.
        have hsplit : ∀ q, (addr / 4096 ≤ q ∧ q < addr / 4096 + (stop - addr + 4095) / 4096)
            ↔ ((addr + 4096) / 4096 ≤ q
                ∧ q < (addr + 4096) / 4096 + (stop - (addr + 4096) + 4095) / 4096)
              ∨ q = addr / 4096 := fun q => by omega
        refine ⟨hgood', fun q => ?_, fun q => ?_, fun a ha v hv =>
          hkeep a ha v (hmaps.keep hgood a ha v hv)⟩
        · rw [hpresent, hmaps.present, hsplit, or_assoc]
        · rw [huser, hmaps.user, hsplit, or_assoc]
      · obtain ⟨-, rfl⟩ := Prog.pure_eq_done.mp hret
        have hnone : ∀ q, ¬ (addr / 4096 ≤ q ∧ q < addr / 4096 + (stop - addr + 4095) / 4096) :=
          fun q => by omega
        exact ⟨hgood, fun q => ⟨Or.inr, fun hq => hq.resolve_left (hnone q)⟩,
          fun q => ⟨Or.inr, fun hq => hq.resolve_left (hnone q)⟩, fun _ _ _ hv => hv⟩

/-- What loading segments does: their pages are mapped that the loops visit, their
bytes are stored as far as the file has them, and no other byte changes. -/
structure Loads (file : File) (l : List Phdr) (s t : As) : Prop where
  good : Good t
  present : ∀ q, Present t q ↔ (∃ phdr ∈ l, phdr.Visits q) ∨ Present s q
  user : ∀ q, UserWritable t q ↔ (∃ phdr ∈ l, phdr.Visits q) ∨ UserWritable s q
  read : ∀ phdr ∈ l, ∀ i < phdr.filesz, phdr.offset + i < file.size →
    byteAt t (phdr.vaddr + i) = some (file.data (phdr.offset + i))
  cleared : ∀ phdr ∈ l, ∀ i < phdr.memsz, phdr.filesz ≤ i → byteAt t (phdr.vaddr + i) = some 0
  keep : ∀ a < kernelBase, (∀ phdr ∈ l, ¬ phdr.Has a) → ∀ v, byteAt s a = some v →
    byteAt t a = some v

theorem loadSegment_done {phdr : Phdr} {u : Unit} (hgood : Good s)
    (hbelow : phdr.vaddr + phdr.memsz ≤ userStack) (hfits : phdr.filesz ≤ phdr.memsz)
    (h : loadSegment turns file phdr s = .done u t) : Loads file [phdr] s t := by
  have hkernel := hbelow.trans userStack_le
  have hword : phdr.vaddr + phdr.memsz < 2 ^ 32 := by
    unfold kernelBase at hkernel
    omega
  obtain ⟨u₁, s₁, hmap, hrest⟩ := Prog.bind_eq_done.mp h
  obtain ⟨u₂, s₂, hread, hzero⟩ := Prog.bind_eq_done.mp hrest
  rw [Nat.mod_eq_of_lt hword] at hmap
  rw [Nat.mod_eq_of_lt (by omega), sub32_of_le hfits] at hzero
  obtain ⟨hgood₁, hpresent, huser, hkeep⟩ := mapLoop_done hgood hkernel hmap
  have hlen := length_read file phdr
  obtain ⟨hsame₂, hbytes₂, hother₂⟩ := store_done hgood₁ (by rw [hlen]; omega) hread
  rw [hlen] at hbytes₂ hother₂
  obtain ⟨hsame₃, hbytes₃, hother₃⟩ :=
    store_done (hsame₂.good hgood₁) (by rw [List.length_replicate]; omega) hzero
  rw [List.length_replicate] at hbytes₃ hother₃
  have hsame := hsame₂.trans hsame₃
  have hvisits : ∀ q, (phdr.vaddr / 4096 ≤ q
      ∧ q < phdr.vaddr / 4096 + (phdr.vaddr + phdr.memsz - phdr.vaddr + 4095) / 4096)
        ↔ ∃ phdr' ∈ [phdr], phdr'.Visits q := fun q => by
    rw [Nat.add_sub_cancel_left]
    constructor
    · exact fun hq => ⟨phdr, List.mem_singleton.mpr rfl, hq⟩
    · rintro ⟨phdr', hmem, hq⟩
      obtain rfl := List.mem_singleton.mp hmem
      exact hq
  refine ⟨hsame.good hgood₁, fun q => ?_, fun q => ?_, fun phdr' hmem i hi hfile => ?_,
    fun phdr' hmem i hi hfilesz => ?_, fun a ha hout v hv => ?_⟩
  · rw [hsame.present, hpresent, hvisits]
  · rw [hsame.user, huser, hvisits]
  · obtain rfl := List.mem_singleton.mp hmem
    have hmin : i < min phdr'.filesz (file.size - phdr'.offset) := by omega
    rw [hother₃ _ (by omega) (Or.inl (by omega)), hbytes₂ i hmin, List.getElem?_map,
      List.getElem?_range hmin]
    rfl
  · obtain rfl := List.mem_singleton.mp hmem
    have hpos : phdr'.vaddr + i = phdr'.vaddr + phdr'.filesz + (i - phdr'.filesz) := by omega
    rw [hpos, hbytes₃ _ (by omega), List.getElem?_replicate, if_pos (by omega)]
  · have hnot := hout phdr (List.mem_singleton.mpr rfl)
    unfold Phdr.Has at hnot
    rw [hother₃ a ha (by omega), hother₂ a ha (by omega)]
    exact hkeep a ha v hv

theorem Loads.nil (hgood : Good s) : Loads file [] s s := by
  refine ⟨hgood, fun q => ⟨Or.inr, ?_⟩, fun q => ⟨Or.inr, ?_⟩, ?_, ?_, fun _ _ _ _ hv => hv⟩
  · rintro (⟨phdr, hmem, -⟩ | hq)
    · exact absurd hmem List.not_mem_nil
    · exact hq
  · rintro (⟨phdr, hmem, -⟩ | hq)
    · exact absurd hmem List.not_mem_nil
    · exact hq
  · exact fun phdr hmem => absurd hmem List.not_mem_nil
  · exact fun phdr hmem => absurd hmem List.not_mem_nil

/-- A segment, and then others that leave its bytes alone. -/
theorem Loads.cons {phdr : Phdr} {l : List Phdr} {s₁ : As} (h : Loads file [phdr] s s₁)
    (h' : Loads file l s₁ t) (hbelow : phdr.vaddr + phdr.memsz ≤ kernelBase)
    (hfits : phdr.filesz ≤ phdr.memsz)
    (hapart : ∀ phdr' ∈ l, ∀ a, ¬ (phdr.Has a ∧ phdr'.Has a)) : Loads file (phdr :: l) s t := by
  have hvisits : ∀ q, (∃ phdr' ∈ phdr :: l, phdr'.Visits q)
      ↔ (∃ phdr' ∈ l, phdr'.Visits q) ∨ ∃ phdr' ∈ [phdr], phdr'.Visits q := fun q => by
    constructor
    · rintro ⟨phdr', hmem, hq⟩
      rcases List.mem_cons.mp hmem with rfl | hmem
      · exact Or.inr ⟨phdr', List.mem_singleton.mpr rfl, hq⟩
      · exact Or.inl ⟨phdr', hmem, hq⟩
    · rintro (⟨phdr', hmem, hq⟩ | ⟨phdr', hmem, hq⟩)
      · exact ⟨phdr', List.mem_cons_of_mem _ hmem, hq⟩
      · exact ⟨phdr', List.mem_cons.mpr (Or.inl (List.mem_singleton.mp hmem)), hq⟩
  have hself : phdr ∈ [phdr] := List.mem_singleton.mpr rfl
  have hstays : ∀ i < phdr.memsz, ∀ v, byteAt s₁ (phdr.vaddr + i) = some v →
      byteAt t (phdr.vaddr + i) = some v := fun i hi v hv =>
    h'.keep _ (by omega) (fun phdr' hmem hhas =>
      hapart phdr' hmem _ ⟨⟨Nat.le_add_right _ _, by omega⟩, hhas⟩) v hv
  refine ⟨h'.good, fun q => ?_, fun q => ?_, fun phdr' hmem i hi hfile => ?_,
    fun phdr' hmem i hi hfilesz => ?_, fun a ha hout v hv => ?_⟩
  · rw [h'.present, h.present, hvisits, or_assoc]
  · rw [h'.user, h.user, hvisits, or_assoc]
  · rcases List.mem_cons.mp hmem with rfl | hmem
    · exact hstays i (by omega) _ (h.read _ hself i hi hfile)
    · exact h'.read phdr' hmem i hi hfile
  · rcases List.mem_cons.mp hmem with rfl | hmem
    · exact hstays i hi _ (h.cleared _ hself i hi hfilesz)
    · exact h'.cleared phdr' hmem i hi hfilesz
  · refine h'.keep a ha (fun phdr' hmem => hout phdr' (List.mem_cons_of_mem _ hmem)) v
      (h.keep a ha (fun phdr' hmem => ?_) v hv)
    exact hout phdr' (List.mem_cons.mpr (Or.inl (List.mem_singleton.mp hmem)))

/-- The loop over the headers loads the segments, and `heap_base` is the highest of
their ends. -/
theorem loadLoop_done {l : List Phdr} {heapBase top : Nat} (hgood : Good s)
    (hplaced : Placed (loads l)) (hbase : heapBase ≤ userStack)
    (h : loadLoop turns file l heapBase s = .done top t) :
    Loads file (loads l) s t ∧ heapBase ≤ top ∧ top ≤ userStack
      ∧ ∀ phdr ∈ loads l, phdr.vaddr + phdr.memsz ≤ top := by
  induction l generalizing s heapBase with
  | nil =>
      obtain ⟨rfl, rfl⟩ := Prog.pure_eq_done.mp h
      exact ⟨Loads.nil hgood, Nat.le_refl _, hbase, fun phdr hmem => absurd hmem List.not_mem_nil⟩
  | cons phdr l ih =>
      rcases Prog.ite_eq_done.mp h with ⟨htype, hload⟩ | ⟨htype, hskip⟩
      · rw [loads_cons_of_load htype] at hplaced ⊢
        have hmem : phdr ∈ phdr :: loads l := List.mem_cons_self
        have hbelow := hplaced.below phdr hmem
        have hkernel := hbelow.trans userStack_le
        have hword : (phdr.vaddr + phdr.memsz) % 2 ^ 32 = phdr.vaddr + phdr.memsz :=
          Nat.mod_eq_of_lt (by unfold kernelBase at hkernel; omega)
        obtain ⟨u, s₁, hseg, hrest⟩ := Prog.bind_eq_done.mp hload
        have hfirst := loadSegment_done hgood hbelow (hplaced.fits phdr hmem) hseg
        rw [hword] at hrest
        obtain ⟨hloop, hlow, hhigh, htop⟩ := ih hfirst.good hplaced.tail (by split <;> omega) hrest
        refine ⟨hfirst.cons hloop hkernel (hplaced.fits phdr hmem)
          (List.pairwise_cons.mp hplaced.apart).1, ?_, hhigh, fun phdr' hmem' => ?_⟩
        · split at hlow
          · omega
          · exact hlow
        · rcases List.mem_cons.mp hmem' with rfl | hmem'
          · split at hlow
            · exact hlow
            · omega
          · exact htop phdr' hmem'
      · rw [loads_cons_of_ne htype] at hplaced ⊢
        exact ih hgood hplaced hbase hskip

/-- The stores that create the heap stay in its pages. -/
theorem heapStores_inside {base : Nat} :
    ∀ e ∈ heapStores base, base ≤ e.1 ∧ e.1 + e.2.length ≤ base + userHeapSz := by
  have hlen : ∀ v, (le32 v).length = 4 := fun v => rfl
  have hzeros : (List.replicate 0x1000 (0 : UInt8)).length = 0x1000 := List.length_replicate
  unfold heapStores
  simp only [List.forall_mem_cons, hlen, hzeros, List.length_singleton]
  unfold userHeapSz
  refine ⟨by omega, by omega, by omega, by omega, by omega, by omega, by omega, by omega, ?_⟩
  exact fun e he => absurd he List.not_mem_nil

/-- Creating the heap changes nothing in front of it. -/
theorem heapStores_done {base : Nat} {u : Unit} (hgood : Good s)
    (hbase : base + userHeapSz ≤ kernelBase)
    (h : Prog.each (heapStores base) (fun e => store e.1 e.2) s = .done u t) :
    SamePages s t ∧ ∀ a < base, byteAt t a = byteAt s a := by
  have hkeeps := Prog.each_done (I := fun r => SamePages s r ∧ ∀ a < base, byteAt r a = byteAt s a)
    (fun e he r r' u hr hstore => by
      obtain ⟨hlow, hhigh⟩ := heapStores_inside e he
      obtain ⟨hsame, -, hother⟩ := store_done (hr.1.good hgood) (by omega) hstore
      refine ⟨hr.1.trans hsame, fun a ha => ?_⟩
      have hkernel : a < kernelBase := by omega
      rw [hother a hkernel (Or.inl (by omega)), hr.2 a ha])
    ⟨SamePages.refl s, fun _ _ => rfl⟩ h
  exact hkeeps

theorem present_of_byteAt {a : Nat} {v : UInt8} (h : byteAt s a = some v) :
    Present s (a / 4096) := by
  unfold byteAt at h
  split at h
  · rename_i hpresent
    exact hpresent
  · cases h

/-- What `elf_exec` has done when it sets up the stack: the segments are loaded, and
what follows leaves everything in front of the heap alone. -/
structure Reached (file : File) (s t : As) (heapBase : Nat) : Prop where
  loads : ∃ s₁, Loads file (loads file.phdrs) s s₁
    ∧ (∀ a < heapBase, ∀ v, byteAt s₁ a = some v → byteAt t a = some v)
    ∧ ∀ a < heapBase, UserWritable t (a / 4096) ↔ UserWritable s₁ (a / 4096)
  aligned : heapBase % 4096 = 0
  behind : ∀ phdr ∈ Elf.loads file.phdrs, phdr.vaddr + phdr.memsz ≤ heapBase

theorem elfExec_done {heapBase : Nat} (hgood : Good s) (hplaced : Placed (loads file.phdrs))
    (h : elfExec turns file s = .done (some heapBase) t) : Reached file s t heapBase := by
  rcases Prog.ite_eq_done.mp h with ⟨-, hexec⟩ | ⟨-, hnone⟩
  · obtain ⟨top, s₁, hload, hrest⟩ := Prog.bind_eq_done.mp hexec
    obtain ⟨u₂, s₂, hmap, hheap⟩ := Prog.bind_eq_done.mp hrest
    obtain ⟨u₃, s₃, hcreate, hret⟩ := Prog.bind_eq_done.mp hheap
    obtain ⟨hsome, rfl⟩ := Prog.pure_eq_done.mp hret
    obtain rfl := Option.some.inj hsome
    obtain ⟨hloads, -, hhigh, htop⟩ := loadLoop_done hgood hplaced (Nat.zero_le _) hload
    obtain ⟨halign, hle, hfit⟩ := heapBase_fits hhigh
    generalize Heap.pageUp top = base at halign hle hfit hmap hcreate
    rw [Nat.mod_eq_of_lt (by unfold kernelBase at hfit; omega)] at hmap
    obtain ⟨hgood₂, hpresent, huser, hkeep⟩ := mapLoop_done hloads.good hfit hmap
    obtain ⟨hsame, hbytes⟩ := heapStores_done hgood₂ hfit hcreate
    refine ⟨⟨s₁, hloads, fun a ha v hv => ?_, fun a ha => ?_⟩, halign,
      fun phdr hmem => (htop phdr hmem).trans hle⟩
    · rw [hbytes a ha]
      exact hkeep a (by omega) v hv
    · rw [hsame.user, huser]
      exact ⟨fun hq => hq.resolve_left fun hheap => by omega, Or.inr⟩
  · obtain ⟨hne, -⟩ := Prog.pure_eq_done.mp hnone
    cases hne

/-! ### Runs that get to the stack -/

theorem mapLoop_returns {stop addr k : Nat}
    (hroom : Room (k + 2 * ((stop - addr + 4095) / 4096)) s) (hstop : stop ≤ kernelBase)
    (hturns : (stop - addr + 4095) / 4096 < turns) :
    ∃ t, mapLoop stop turns addr s = .done () t ∧ Room k t := by
  induction turns generalizing addr s with
  | zero => exact absurd hturns (Nat.not_lt_zero _)
  | succ n ih =>
      by_cases hlt : addr < stop
      · have hsplit : k + 2 * ((stop - addr + 4095) / 4096)
            = k + 2 * ((stop - (addr + 4096) + 4095) / 4096) + 2 := by omega
        rw [hsplit] at hroom
        obtain ⟨s₁, hmap, hs₁⟩ := mapPage_returns hroom
        have hnext : (addr + 4096) % 2 ^ 32 = addr + 4096 :=
          Nat.mod_eq_of_lt (by unfold kernelBase at hstop; omega)
        obtain ⟨t, hrest, ht⟩ := ih hs₁ (by omega)
        refine ⟨t, Prog.ite_eq_done.mpr (Or.inl ⟨hlt, ?_⟩), ht⟩
        exact Prog.bind_eq_done.mpr ⟨(), s₁, hmap, by rw [hnext]; exact hrest⟩
      · exact ⟨s, Prog.ite_eq_done.mpr (Or.inr ⟨hlt, Prog.pure_eq_done.mpr ⟨rfl, rfl⟩⟩),
          hroom.mono (by omega)⟩

/-- How many pages the loop for a segment maps. -/
def Phdr.pages (phdr : Phdr) : Nat := (phdr.memsz + 4095) / 4096

/-- The bytes of a segment are stored to pages that its loop maps, or that are there. -/
def Covered (file : File) (phdr : Phdr) (s : As) : Prop :=
  ∀ i < phdr.memsz, (i < phdr.filesz → phdr.offset + i < file.size) →
    phdr.Visits ((phdr.vaddr + i) / 4096) ∨ Present s ((phdr.vaddr + i) / 4096)

theorem loadSegment_returns {phdr : Phdr} {k : Nat} (hgood : Good s)
    (hroom : Room (k + 2 * phdr.pages) s) (hcovered : Covered file phdr s)
    (hbelow : phdr.vaddr + phdr.memsz ≤ userStack) (hfits : phdr.filesz ≤ phdr.memsz)
    (hturns : 0x80000 ≤ turns) :
    ∃ t, loadSegment turns file phdr s = .done () t ∧ Room k t := by
  have hkernel := hbelow.trans userStack_le
  unfold userStack userStackSz at hbelow
  have hpages : (phdr.vaddr + phdr.memsz - phdr.vaddr + 4095) / 4096 = phdr.pages := by
    rw [Nat.add_sub_cancel_left, Phdr.pages]
  have hlen := length_read file phdr
  obtain ⟨s₁, hmap, hs₁⟩ : ∃ s₁,
      mapLoop (phdr.vaddr + phdr.memsz) turns phdr.vaddr s = .done () s₁ ∧ Room k s₁ :=
    mapLoop_returns (by rw [hpages]; exact hroom) hkernel (by omega)
  have hthere : ∀ i < phdr.memsz, (i < phdr.filesz → phdr.offset + i < file.size) →
      Present s₁ ((phdr.vaddr + i) / 4096) := fun i hi hifile => by
    refine ((mapLoop_done hgood hkernel hmap).present _).mpr ?_
    rw [hpages]
    exact hcovered i hi hifile
  obtain ⟨s₂, hread, hs₂⟩ : ∃ s₂,
      fsRead file phdr.offset phdr.filesz phdr.vaddr s₁ = .done () s₂ ∧ SamePages s₁ s₂ :=
    store_returns (by rw [hlen]; omega) fun i hi => by
      rw [hlen] at hi
      exact hthere i (by omega) (fun _ => by omega)
  obtain ⟨t, hzero, ht⟩ : ∃ t, store (phdr.vaddr + phdr.filesz)
      (List.replicate (phdr.memsz - phdr.filesz) 0) s₂ = .done () t ∧ SamePages s₂ t :=
    store_returns (by rw [List.length_replicate]; omega) fun i hi => by
      rw [List.length_replicate] at hi
      rw [hs₂.present, Nat.add_assoc]
      exact hthere (phdr.filesz + i) (by omega) (fun hlt => absurd hlt (by omega))
  refine ⟨t, Prog.bind_eq_done.mpr ⟨(), s₁, ?_, Prog.bind_eq_done.mpr ⟨(), s₂, hread, ?_⟩⟩,
    (hs₂.trans ht).room hs₁⟩
  · rw [Nat.mod_eq_of_lt (by omega)]
    exact hmap
  · rw [Nat.mod_eq_of_lt (by omega), sub32_of_le hfits]
    exact hzero

theorem loadLoop_returns {l : List Phdr} {heapBase k : Nat} (hgood : Good s)
    (hroom : Room (k + 2 * ((loads l).map Phdr.pages).sum) s)
    (hcovered : ∀ phdr ∈ loads l, Covered file phdr s) (hplaced : Placed (loads l))
    (hturns : 0x80000 ≤ turns) :
    ∃ top t, loadLoop turns file l heapBase s = .done top t ∧ Room k t := by
  induction l generalizing s heapBase with
  | nil => exact ⟨heapBase, s, Prog.pure_eq_done.mpr ⟨rfl, rfl⟩, hroom⟩
  | cons phdr l ih =>
      by_cases htype : phdr.type = ptLoad
      · rw [loads_cons_of_load htype] at hplaced hcovered hroom
        rw [List.map_cons, List.sum_cons, Nat.mul_add, Nat.add_comm (2 * _), ← Nat.add_assoc]
          at hroom
        have hmem : phdr ∈ phdr :: loads l := List.mem_cons_self
        obtain ⟨s₁, hseg, hs₁⟩ := loadSegment_returns hgood hroom (hcovered phdr hmem)
          (hplaced.below phdr hmem) (hplaced.fits phdr hmem) hturns
        have hfirst := loadSegment_done hgood (hplaced.below phdr hmem)
          (hplaced.fits phdr hmem) hseg
        obtain ⟨top, t, hrest, ht⟩ := ih hfirst.good hs₁
          (fun phdr' hmem' i hi hifile => (hcovered phdr' (List.mem_cons_of_mem _ hmem') i hi
            hifile).imp_right fun hq => (hfirst.present _).mpr (Or.inr hq)) hplaced.tail
        exact ⟨top, t, Prog.ite_eq_done.mpr (Or.inl ⟨htype,
          Prog.bind_eq_done.mpr ⟨(), s₁, hseg, hrest⟩⟩), ht⟩
      · rw [loads_cons_of_ne htype] at hplaced hcovered hroom
        obtain ⟨top, t, hrest, ht⟩ := ih hgood hroom hcovered hplaced
        exact ⟨top, t, Prog.ite_eq_done.mpr (Or.inr ⟨htype, hrest⟩), ht⟩

/-- A run gets to the stack if there are frames for all pages and tables, and every
byte is stored to a page that its segment's own loop maps. -/
theorem elfExec_returns (hgood : Good s) (hvalid : file.Valid)
    (hplaced : Placed (loads file.phdrs))
    (hroom : Room (0x80 + 2 * ((loads file.phdrs).map Phdr.pages).sum) s)
    (hcovered : ∀ phdr ∈ loads file.phdrs, Covered file phdr s) (hturns : 0x80000 ≤ turns) :
    ∃ heapBase t, elfExec turns file s = .done (some heapBase) t := by
  obtain ⟨top, s₁, hload, hs₁⟩ : ∃ top s₁,
      loadLoop turns file file.phdrs 0 s = .done top s₁ ∧ Room 0x80 s₁ :=
    loadLoop_returns hgood hroom hcovered hplaced hturns
  obtain ⟨hloads, -, hhigh, -⟩ := loadLoop_done hgood hplaced (Nat.zero_le _) hload
  obtain ⟨halign, -, hfit⟩ := heapBase_fits hhigh
  have hpages : (Heap.pageUp top + userHeapSz - Heap.pageUp top + 4095) / 4096 = 0x40 := by
    rw [Nat.add_sub_cancel_left]
    rfl
  obtain ⟨s₂, hmap, -⟩ : ∃ s₂, mapLoop (Heap.pageUp top + userHeapSz) turns
      (Heap.pageUp top) s₁ = .done () s₂ ∧ Room 0 s₂ :=
    mapLoop_returns (by rw [hpages]; exact hs₁) hfit (by omega)
  have hthere : ∀ a, Heap.pageUp top ≤ a → a < Heap.pageUp top + userHeapSz →
      Present s₂ (a / 4096) := fun a hlow hlt =>
    ((mapLoop_done hloads.good hfit hmap).present _).mpr (Or.inl (by
      rw [hpages]
      unfold userHeapSz at hlt
      omega))
  obtain ⟨s₃, hcreate, -⟩ : ∃ s₃, Prog.each (heapStores (Heap.pageUp top))
      (fun e => store e.1 e.2) s₂ = .done ⟨⟩ s₃ ∧ SamePages s₂ s₃ :=
    Prog.each_returns (fun e he r hr => by
      obtain ⟨hlow, hin⟩ := heapStores_inside e he
      obtain ⟨r', hstore, hr'⟩ : ∃ r', store e.1 e.2 r = .done () r' ∧ SamePages r r' :=
        store_returns (by omega) fun i hi =>
          (hr.present _).mpr (hthere (e.1 + i) (by omega) (by omega))
      exact ⟨r', hstore, hr.trans hr'⟩) (SamePages.refl s₂)
  refine ⟨Heap.pageUp top, s₃, Prog.ite_eq_done.mpr (Or.inl ⟨hvalid, ?_⟩)⟩
  refine Prog.bind_eq_done.mpr ⟨top, s₁, hload, Prog.bind_eq_done.mpr ⟨(), s₂, ?_,
    Prog.bind_eq_done.mpr ⟨(), s₃, hcreate, Prog.pure_eq_done.mpr ⟨rfl, rfl⟩⟩⟩⟩
  rw [Nat.mod_eq_of_lt (by unfold kernelBase at hfit; omega)]
  exact hmap

/-- **What is loaded when the stack is set up.** In a run that gets there, the segments
are mapped for user mode and filled, with the heap behind them, exactly where the
file has all their bytes and each of their pages is visited by the loop of some
segment, or was there for user mode before. And a run gets there only where each
page of a segment that the file has is visited by some loop or was there before: on
any other page the copy faults. -/
theorem elfExec_loaded_iff {heapBase : Nat} (hgood : Good s) (hplaced : Placed (loads file.phdrs))
    (h : elfExec turns file s = .done (some heapBase) t) :
    (Loaded file (loads file.phdrs) t heapBase
        ↔ (∀ phdr ∈ loads file.phdrs, phdr.InFile file)
          ∧ ∀ phdr ∈ loads file.phdrs, ∀ a, phdr.Has a →
            (∃ phdr' ∈ loads file.phdrs, phdr'.Visits (a / 4096)) ∨ UserWritable s (a / 4096))
      ∧ (∀ phdr ∈ loads file.phdrs, phdr.InFile file → ∀ a, phdr.Has a →
        (∃ phdr' ∈ loads file.phdrs, phdr'.Visits (a / 4096)) ∨ Present s (a / 4096))
      ∧ heapBase % 4096 = 0 ∧ ∀ phdr ∈ loads file.phdrs, phdr.vaddr + phdr.memsz ≤ heapBase := by
  obtain ⟨⟨s₁, hloads, hkeep, huser⟩, haligned, hbehind⟩ := elfExec_done hgood hplaced h
  have hbelow : ∀ phdr ∈ loads file.phdrs, ∀ a, phdr.Has a → a < heapBase :=
    fun phdr hmem a ha => Nat.lt_of_lt_of_le ha.2 (hbehind phdr hmem)
  have hpages : ∀ phdr ∈ loads file.phdrs, ∀ a, phdr.Has a → (UserWritable t (a / 4096)
      ↔ (∃ phdr' ∈ loads file.phdrs, phdr'.Visits (a / 4096)) ∨ UserWritable s (a / 4096)) :=
    fun phdr hmem a ha => by rw [huser a (hbelow phdr hmem a ha), hloads.user]
  refine ⟨⟨fun hloaded => ⟨fun phdr hmem => ?_, fun phdr hmem a ha => ?_⟩, ?_⟩,
    fun phdr hmem hfile a ha => ?_, haligned, hbehind⟩
  · by_cases hzero : phdr.filesz = 0
    · exact Or.inl hzero
    · have hfits := hplaced.fits phdr hmem
      have hlast := ((hloaded.bytes phdr hmem (phdr.filesz - 1) (by omega)).1 (by omega)).1
      exact Or.inr (by omega)
  · exact (hpages phdr hmem a ha).mp (hloaded.pages phdr hmem a ha)
  · rintro ⟨hfile, hvisited⟩
    refine ⟨fun phdr hmem a ha => (hpages phdr hmem a ha).mpr (hvisited phdr hmem a ha),
      fun phdr hmem i hi => ⟨fun hifile => ?_, fun hifile => ?_⟩, haligned, hbehind⟩
    · have hin : phdr.offset + i < file.size := by
        rcases hfile phdr hmem with hzero | hle
        · omega
        · omega
      have hlt := hbelow phdr hmem (phdr.vaddr + i) ⟨Nat.le_add_right _ _, by omega⟩
      exact ⟨hin, hkeep _ hlt _ (hloads.read phdr hmem i hifile hin)⟩
    · have hlt := hbelow phdr hmem (phdr.vaddr + i) ⟨Nat.le_add_right _ _, by omega⟩
      exact hkeep _ hlt _ (hloads.cleared phdr hmem i hi hifile)
  · obtain ⟨hlo, hhi⟩ := ha
    obtain ⟨i, rfl⟩ := Nat.exists_eq_add_of_le hlo
    refine (hloads.present _).mp ?_
    by_cases hifile : i < phdr.filesz
    · have hin : phdr.offset + i < file.size := by
        rcases hfile with hzero | hle
        · omega
        · omega
      exact present_of_byteAt (hloads.read phdr hmem i hifile hin)
    · exact present_of_byteAt (hloads.cleared phdr hmem i (by omega) (by omega))

end Run

/-! ### A segment across a page boundary -/

/-- An address space with nothing in it, and `0xff00` frames to be had. -/
def fresh : As where
  frames := fun _ => 0
  frameCount := 0x10000
  tables := fun _ => false
  pages := fun _ => Paging.Page.zero
  bytes := fun _ _ => 0

theorem present_fresh (p : Nat) : ¬ Present fresh p := fun h => Bool.false_ne_true h.1

theorem good_fresh : Good fresh := by
  have hnone : ∀ p f, ¬ Holds fresh p f := fun p f hp => Bool.false_ne_true hp.2.1
  exact ⟨fun p _ hp => absurd hp (present_fresh p), fun p _ f hp => absurd hp (hnone p f),
    fun p f hp => absurd hp (hnone p f)⟩

theorem room_fresh : Room 0xff00 fresh := by
  have hclear : ∀ f, Vmem.testBit fresh.frames f = false := fun f => Nat.zero_testBit _
  have hall : Finset.Ico 0x100 0x10000 ⊆ freeFrames fresh := fun f hf => by
    obtain ⟨hlow, hhigh⟩ := Finset.mem_Ico.mp hf
    exact Finset.mem_filter.mpr ⟨Finset.mem_range.mpr hhigh, hlow, hclear f⟩
  have hcard := Finset.card_le_card hall
  rw [Nat.card_Ico] at hcard
  exact hcard

/-- A file of `size` bytes with a segment of `0x20` bytes, which starts at offset `0x60`
and is loaded to `0x8000000 + 0x100 * hi + lo`. -/
def sample (lo hi : UInt8) (size : Nat) : File where
  size := size
  data i := ([0x7f, 69, 76, 70, 1, 1, 1, 0, 0, 0, 0, 0, 0, 0, 0, 0,
    2, 0, 3, 0, 1, 0, 0, 0, lo, hi, 0, 8, 0x34, 0, 0, 0,
    0, 0, 0, 0, 0, 0, 0, 0, 0x34, 0, 0x20, 0, 1, 0, 0, 0, 0, 0, 0, 0,
    1, 0, 0, 0, 0x60, 0, 0, 0, lo, hi, 0, 8, lo, hi, 0, 8,
    0x20, 0, 0, 0, 0x20, 0, 0, 0, 7, 0, 0, 0, 1, 0, 0, 0][i]?).getD 0x90

theorem sample_valid (lo hi : UInt8) (size : Nat) : (sample lo hi size).Valid :=
  ⟨rfl, rfl, rfl, rfl, rfl, rfl⟩

/-- The header of a sample's segment. -/
def sampleHdr (lo hi : UInt8) : Phdr where
  type := ptLoad
  offset := 0x60
  vaddr := lo.toNat + 256 * hi.toNat + 65536 * 0x800
  filesz := 0x20
  memsz := 0x20

theorem loads_sample (lo hi : UInt8) (size : Nat) :
    loads (sample lo hi size).phdrs = [sampleHdr lo hi] := by
  have hnum : rd16 (sample lo hi size).data 44 = 1 := rfl
  have hoff : (rd32 (sample lo hi size).data 28 + rd16 (sample lo hi size).data 42 * 0) % 2 ^ 32
      = 52 := rfl
  have hphdr : (sample lo hi size).phdr 0 = sampleHdr lo hi := by
    unfold File.phdr
    rw [hoff]
    rfl
  rw [File.phdrs, hnum, List.range_one, List.map_singleton, hphdr]
  rfl

theorem placed_sample (lo hi : UInt8) (size : Nat) : Placed (loads (sample lo hi size).phdrs) := by
  have hlo := lo.toNat_lt
  have hhi := hi.toNat_lt
  rw [loads_sample]
  refine ⟨fun phdr hmem => ?_, fun phdr hmem => ?_, List.pairwise_singleton ..⟩
  · obtain rfl := List.mem_singleton.mp hmem
    show lo.toNat + 256 * hi.toNat + 65536 * 0x800 + 0x20 ≤ userStack
    unfold userStack userStackSz
    omega
  · obtain rfl := List.mem_singleton.mp hmem
    exact Nat.le_refl _

theorem sample_returns {lo hi : UInt8} {size : Nat}
    (hcovered : Covered (sample lo hi size) (sampleHdr lo hi) fresh) :
    ∃ heapBase t, elfExec 0x80000 (sample lo hi size) fresh = .done (some heapBase) t := by
  refine elfExec_returns good_fresh (sample_valid ..) (placed_sample ..) ?_ ?_ (Nat.le_refl _)
  · rw [loads_sample]
    have hone : (sampleHdr lo hi).pages = 1 := by
      show (0x20 + 4095) / 4096 = 1
      rfl
    rw [List.map_singleton, List.sum_singleton, hone]
    exact room_fresh.mono (by decide)
  · rw [loads_sample]
    intro phdr hmem
    obtain rfl := List.mem_singleton.mp hmem
    exact hcovered

/-- A segment that starts with its page is loaded. -/
theorem elfExec_loaded_iff_aligned :
    ∃ heapBase t, elfExec 0x80000 (sample 0 0 0x80) fresh = .done (some heapBase) t
      ∧ Loaded (sample 0 0 0x80) (loads (sample 0 0 0x80).phdrs) t heapBase := by
  have hvisits : ∀ a, (sampleHdr 0 0).Has a → (sampleHdr 0 0).Visits (a / 4096) :=
    (visits_all_iff _).mpr (Or.inl (by decide))
  obtain ⟨heapBase, t, hrun⟩ : ∃ heapBase t,
      elfExec 0x80000 (sample 0 0 0x80) fresh = .done (some heapBase) t :=
    sample_returns fun i hi _ => Or.inl (hvisits _ ⟨Nat.le_add_right _ _, by omega⟩)
  refine ⟨heapBase, t, hrun, ((elfExec_loaded_iff good_fresh (placed_sample ..) hrun).1).mpr
    ⟨fun phdr hmem => ?_, fun phdr hmem a ha => Or.inl ⟨phdr, hmem, ?_⟩⟩⟩
  · rw [loads_sample] at hmem
    obtain rfl := List.mem_singleton.mp hmem
    exact Or.inr (Nat.le_refl _)
  · rw [loads_sample] at hmem
    obtain rfl := List.mem_singleton.mp hmem
    exact hvisits a ha

theorem not_visits_sample : ¬ ∃ phdr ∈ [sampleHdr 0xf0 0x0f], phdr.Visits 0x8001 := by
  rintro ⟨phdr, hmem, hvisits⟩
  obtain rfl := List.mem_singleton.mp hmem
  exact absurd hvisits.2 (by decide)

/-- A segment that starts `0x10` bytes in front of a page boundary and has `0x20` bytes.
From a file that ends after the first `0x10` of them the stack is reached, and the
second page is not there. From a file with all of them it is never reached. -/
theorem elfExec_misses_page :
    (∃ heapBase t, elfExec 0x80000 (sample 0xf0 0x0f 0x70) fresh = .done (some heapBase) t
        ∧ ¬ UserWritable t 0x8001
        ∧ ¬ Loaded (sample 0xf0 0x0f 0x70) (loads (sample 0xf0 0x0f 0x70).phdrs) t heapBase)
      ∧ ∀ turns heapBase t,
        elfExec turns (sample 0xf0 0x0f 0x80) fresh ≠ .done (some heapBase) t := by
  refine ⟨?_, fun turns heapBase t hrun => ?_⟩
  · obtain ⟨heapBase, t, hrun⟩ : ∃ heapBase t,
        elfExec 0x80000 (sample 0xf0 0x0f 0x70) fresh = .done (some heapBase) t :=
      sample_returns fun i hi hifile => Or.inl (by
        have hlt : 0x60 + i < 0x70 := hifile hi
        show 0x8000ff0 / 4096 ≤ (0x8000ff0 + i) / 4096
          ∧ (0x8000ff0 + i) / 4096 < 0x8000ff0 / 4096 + (0x20 + 4095) / 4096
        omega)
    have hreached := elfExec_done good_fresh (placed_sample ..) hrun
    obtain ⟨⟨s₁, hloads, -, huser⟩, -, hbehind⟩ := hreached
    rw [loads_sample] at hloads hbehind
    have hmissing : ¬ UserWritable t 0x8001 := fun h => by
      have hend := hbehind _ (List.mem_singleton.mpr rfl)
      have hold := (huser 0x8001000 (Nat.lt_of_lt_of_le (by decide) hend)).mp h
      exact ((hloads.user 0x8001).mp hold).elim not_visits_sample fun hu => present_fresh _ hu.1
    refine ⟨heapBase, t, hrun, hmissing, fun hloaded => hmissing ?_⟩
    rw [loads_sample] at hloaded
    exact hloaded.pages _ (List.mem_singleton.mpr rfl) 0x8001000 ⟨by decide, by decide⟩
  · have hreached := elfExec_done good_fresh (placed_sample ..) hrun
    obtain ⟨⟨s₁, hloads, -, -⟩, -, -⟩ := hreached
    rw [loads_sample] at hloads
    have hread := hloads.read _ (List.mem_singleton.mpr rfl) 0x10 (by decide) (by decide)
    exact ((hloads.present 0x8001).mp (present_of_byteAt hread)).elim not_visits_sample
      (present_fresh _)

end Elf

end Shitos
