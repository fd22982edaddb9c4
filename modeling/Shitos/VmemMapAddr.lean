import Shitos.VmemSearch

/-!
# Mapping a physical address

`vmem_frame_map_addr` marks the frame of the address, enters it and leaves
the rest to `vmem_frame_alloc`. That function takes the entry of frame 0 for
an empty one and chooses a frame itself, and the mark is set without a look
at `frame_count`. For all other frames the call does what it is for
(`maps_addr_iff`).
-/

namespace Shitos

namespace Vmem

open Paging

variable {s : Vm} {p : PagePtr} {flags : Flags} {paddr : Nat}

/-- The words of the frame bitmap that `vmem_frame_map_addr` reads or writes:
one to mark the frame, and those of the search and the mark in
`vmem_frame_alloc` if the entry looks empty. -/
def accessedWords (s : Vm) (paddr : Nat) : List Nat :=
  let frame := paddr / 4096
  let bits := setBit s.frames frame
  frame / 32 :: if frame ≠ 0 then [] else
    wordsRead bits 0x100 s.frameCount
      ++ ((findFirst bits 0x100 s.frameCount).map (· / 32)).toList

/-- The call returns with exactly the given address mapped. The bitmap
reserved at the start has `frame_count >> 3` bytes. -/
def MapsAddr (s : Vm) (p : PagePtr) (flags : Flags) (paddr : Nat) : Prop :=
  ∃ s', frameMapAddr p flags paddr s = .done () s' ∧ (readPage s' p).present = true
    ∧ (readPage s' p).frame = paddr / 4096
    ∧ (∀ k, k ≠ paddr / 4096 → testBit s'.frames k = testBit s.frames k)
    ∧ ∀ w ∈ accessedWords s paddr, 4 * w + 4 ≤ s.frameCount / 8

@[simp] theorem readPage_writePage (p : PagePtr) (v : Page) (s : Vm) :
    readPage (writePage p v s) p = v := by
  cases p with
  | mapEntry i => exact Function.update_self ..
  | entry t i =>
      cases t with
      | kernelPts => exact if_pos rfl
      | window w =>
          show Function.update s.phys (s.mapPt w).frame _ (s.mapPt w).frame i = v
          rw [Function.update_self]
          exact if_pos rfl

/-- An entry with a frame keeps it. -/
theorem frameAlloc_of_frame (h : (readPage s p).frame ≠ 0) :
    frameAlloc p flags s = .done () (writePage p (Page.withFlags (readPage s p) flags) s) := by
  have hfill : fillFrame p s = .done () s := by
    show (if (readPage s p).frame ≠ 0 then Prog.pure () else _) s = _
    rw [if_pos h]
    rfl
  show Prog.bind (fillFrame p) _ s = _
  rw [Prog.bind, hfill]
  rfl

/-- An entry without one gets a frame from the search, if it finds any. -/
theorem frameAlloc_of_empty {s' : Vm} (h : (readPage s p).frame = 0)
    (hdone : frameAlloc p flags s = .done () s') : 0x100 ≤ (readPage s' p).frame := by
  obtain ⟨u, s₁, hfill, hrest⟩ := Prog.bind_eq_done.mp hdone
  obtain ⟨page, s₂, hpage, hfill⟩ := Prog.bind_eq_done.mp hfill
  obtain ⟨rfl, rfl⟩ := Prog.gets_eq_done.mp hpage
  rw [if_neg fun hne => hne h] at hfill
  obtain ⟨frame, s₃, hfind, hfill⟩ := Prog.bind_eq_done.mp hfill
  obtain ⟨u₁, s₄, hset, hfill⟩ := Prog.bind_eq_done.mp hfill
  obtain rfl := Prog.modify_eq_done.mp hfill
  obtain rfl := Prog.modify_eq_done.mp hrest
  have hlo : 0x100 ≤ frame := by
    unfold frameFindFirst at hfind
    split at hfind
    · cases hfind
      exact (findFirst_spec ‹_›).1
    · cases hfind
  rw [readPage_writePage, readPage_writePage]
  exact hlo

/-- The entry as `vmem_frame_alloc` finds it. -/
theorem frameMapAddr_eq : frameMapAddr p flags paddr s =
    frameAlloc p flags
      (writePage p { readPage (frameSet paddr s) p with frame := paddr / 4096 }
        (frameSet paddr s)) := rfl

theorem mapsAddr_inside (hcount : s.frameCount % 32 = 0) (hpos : 0 < paddr / 4096)
    (hlt : paddr / 4096 < s.frameCount) : MapsAddr s p flags paddr := by
  have hne : paddr / 4096 ≠ 0 := Nat.ne_of_gt hpos
  refine ⟨_, frameMapAddr_eq.trans (frameAlloc_of_frame ?_), ?_, ?_, fun k hk => ?_, fun w hw => ?_⟩
  · rw [readPage_writePage]
    exact hne
  · rw [readPage_writePage]
    rfl
  · rw [readPage_writePage, readPage_writePage]
    rfl
  · rw [writePage_frames, writePage_frames, frameSet, testBit_setBit, decide_eq_false hk,
      Bool.false_or]
  · unfold accessedWords at hw
    dsimp only at hw
    rw [if_pos hne, List.mem_singleton] at hw
    omega

theorem MapsAddr.bounds (h : MapsAddr s p flags paddr) (hcount : s.frameCount % 32 = 0) :
    0 < paddr / 4096 ∧ paddr / 4096 < s.frameCount := by
  obtain ⟨s', hdone, -, hframe, -, hwords⟩ := h
  refine ⟨Nat.pos_of_ne_zero fun hzero => ?_, ?_⟩
  · rw [frameMapAddr_eq] at hdone
    have hlarge := frameAlloc_of_empty (by rw [readPage_writePage]; exact hzero) hdone
    omega
  · have hword := hwords _ List.mem_cons_self
    omega

/-- Mapping an address does what it is for exactly on the frames of the bitmap
other than the first one. -/
theorem mapsAddr_iff (s : Vm) (p : PagePtr) (flags : Flags) (paddr : Nat)
    (hcount : s.frameCount % 32 = 0) :
    MapsAddr s p flags paddr ↔ 0 < paddr / 4096 ∧ paddr / 4096 < s.frameCount :=
  ⟨fun h => h.bounds hcount, fun h => mapsAddr_inside hcount h.1 h.2⟩

/-- The bitmap as large as `entry.asm` makes it. -/
def bootVm : Vm := { smallVm with frameCount := 0x1000 }

theorem mapsAddr_iff_text :
    MapsAddr bootVm (.mapEntry 0) (Flags.rw true) 0xb8000
      ↔ 0 < 0xb8000 / 4096 ∧ 0xb8000 / 4096 < bootVm.frameCount :=
  mapsAddr_iff bootVm (.mapEntry 0) (Flags.rw true) 0xb8000 (by decide)

/-- Neither frame 0 nor a framebuffer above the RAM can be mapped. -/
theorem not_mapsAddr : ¬MapsAddr bootVm (.mapEntry 0) (Flags.rw true) 0
    ∧ ¬MapsAddr bootVm (.mapEntry 0) (Flags.rw true) 0xfd000000 := by
  have hcount : bootVm.frameCount % 32 = 0 := by decide
  exact ⟨fun h => absurd (h.bounds hcount).1 (by decide),
    fun h => absurd (h.bounds hcount).2 (by decide)⟩

end Vmem

end Shitos
