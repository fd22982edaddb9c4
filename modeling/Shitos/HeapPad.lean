import Mathlib.Order.Bounds.Defs
import Shitos.HeapAlign

/-!
# Padding of aligned allocations

`vmem_heap_hole_find` leaves room in front of a segment by one formula, and
`vmem_heap_alloc` places the segment by another. The first counts from behind
the header of the hole and takes a residue of zero as no distance at all, the
second counts from the header itself and never gives zero; both go on to the
next boundary where less than a header is left.

Placing is to the least distance of at least a header that is aligned
(`placePad_least`), and what the search leaves room for is such a distance, so
the segment is within the hole that has been found (`allocHole_within`).
-/

namespace Shitos

namespace Heap

/-- `off` in `vmem_heap_hole_find`, for an alignment to `b`. -/
def searchPad (b header : Nat) : Nat :=
  let loc := header + headerSz
  let off := if loc % b ≠ 0 then b - loc % b else 0
  if off < headerSz then off + b else off

/-- `off` in `vmem_heap_alloc`. -/
def placePad (b header : Nat) : Nat :=
  let off := b - header % b
  if off < headerSz then off + b else off

variable {b header : Nat}

/-- A distance to the next boundary. -/
theorem dvd_add_sub_mod (hb : 0 < b) (x : Nat) : b ∣ x + (b - x % b) := by
  have hlt := Nat.mod_lt x hb
  have hdiv := Nat.div_add_mod x b
  refine ⟨x / b + 1, ?_⟩
  rw [Nat.mul_succ]
  omega

theorem dvd_searchPad (hb : 0 < b) (header : Nat) : b ∣ header + headerSz + searchPad b header := by
  have hnext := dvd_add_sub_mod hb (header + headerSz)
  have hoff : b ∣ header + headerSz
      + if (header + headerSz) % b ≠ 0 then b - (header + headerSz) % b else 0 := by
    split
    · exact hnext
    · rename_i h
      rw [Nat.add_zero]
      exact Nat.dvd_of_mod_eq_zero (not_not.mp h)
  unfold searchPad
  dsimp only
  generalize (if (header + headerSz) % b ≠ 0 then b - (header + headerSz) % b else 0) = off
    at hoff ⊢
  split
  · rw [← Nat.add_assoc]
    exact Nat.dvd_add hoff (Nat.dvd_refl b)
  · exact hoff

/-- A segment is placed as close to the start of the hole as its header and the
alignment allow. -/
theorem placePad_least (hb : headerSz ≤ b) (header : Nat) :
    IsLeast {off | headerSz ≤ off ∧ b ∣ header + off} (placePad b header) := by
  have hpos : 0 < b := Nat.lt_of_lt_of_le (by decide) hb
  have hnext := dvd_add_sub_mod hpos header
  have hle : b - header % b ≤ b := Nat.sub_le b _
  unfold placePad
  dsimp only
  generalize b - header % b = near at hnext hle ⊢
  split
  · rename_i hsmall
    refine ⟨⟨by omega, ?_⟩, ?_⟩
    · rw [← Nat.add_assoc]
      exact Nat.dvd_add hnext (Nat.dvd_refl b)
    · -- a distance behind the boundary that is too near
      rintro off ⟨hoff, hdvd⟩
      have hgap : b ∣ off - near := by
        have hsub := Nat.dvd_sub hdvd hnext
        rwa [Nat.add_sub_add_left] at hsub
      have hfar := Nat.le_of_dvd (by omega) hgap
      omega
  · rename_i hfits
    refine ⟨⟨Nat.le_of_not_lt hfits, hnext⟩, ?_⟩
    rintro off ⟨hoff, hdvd⟩
    by_contra hless
    have hgap : b ∣ near - off := by
      have hsub := Nat.dvd_sub hnext hdvd
      rwa [Nat.add_sub_add_left] at hsub
    have hfar := Nat.le_of_dvd (by omega) hgap
    unfold headerSz at hoff
    omega

/-- The search leaves room for where the segment is placed. -/
theorem placePad_le (hb : headerSz ≤ b) (header : Nat) :
    placePad b header ≤ searchPad b header + headerSz := by
  have hpos : 0 < b := Nat.lt_of_lt_of_le (by decide) hb
  have hdvd := dvd_searchPad hpos header
  refine (placePad_least hb header).2 ⟨Nat.le_add_left _ _, ?_⟩
  rwa [Nat.add_comm (searchPad b header), ← Nat.add_assoc]

/-! ## The functions -/

variable {m : Mem} {s : St} {i h n align size : Nat}

theorem holeFits_iff (halign : align ≠ 0) :
    holeFits m h n align = true ↔ searchPad (2 ^ align) h + n ≤ hdrSize m h := by
  have hfits : holeFits m h n align
      = if searchPad (2 ^ align) h > hdrSize m h then false
        else decide (n ≤ hdrSize m h - searchPad (2 ^ align) h) := if_neg halign
  rw [hfits]
  split
  · exact ⟨fun h => (nomatch h), fun h => by omega⟩
  · rw [decide_eq_true_iff]
    omega

/-- The payload is `placePad` behind the hole's header. -/
theorem allocHole_place (hget : s.get i = some h) (halign : align ≠ 0)
    (hb : headerSz ≤ 2 ^ align) :
    ∃ s', allocHole s i n align = some (h + placePad (2 ^ align) h, s') := by
  have hpad := (placePad_least hb h).1.1
  have hloc : (alignHole s.mem h align).2.2 + headerSz = h + placePad (2 ^ align) h := by
    show h + placePad (2 ^ align) h - headerSz + headerSz = h + placePad (2 ^ align) h
    omega
  generalize hhole : alignHole s.mem h align = r at hloc
  obtain ⟨m, holeSize, loc⟩ := r
  simp only [allocHole, hget, hhole, if_pos halign, Option.bind_eq_bind, Option.bind_some,
    Option.pure_def, ← hloc]
  generalize (if sub32 (hdrSize s.mem h) n < headerSz + footerSz then hdrSize s.mem h else n) = r
  by_cases hrest : sub32 holeSize r > 0
  · exact ⟨_, if_pos hrest⟩
  · exact ⟨_, if_neg hrest⟩

/-- A segment that is placed in a hole the search accepts is aligned, and lies in
the hole with its header and its footer. -/
theorem allocHole_within (hget : s.get i = some h) (hsize : size + 20 < 2 ^ 32)
    (halign : 16 ≤ 2 ^ align) (hfits : holeFits s.mem h (realSize size) align = true) :
    ∃ p s', allocHole s i (realSize size) align = some (p, s') ∧ p % 2 ^ align = 0
      ∧ h + headerSz ≤ p ∧ p + size + footerSz ≤ h + hdrSize s.mem h := by
  have hb : headerSz ≤ 2 ^ align := Nat.le_trans (by decide) halign
  have hne : align ≠ 0 := by
    rintro rfl
    exact absurd halign (by decide)
  obtain ⟨s', hs'⟩ := @allocHole_place s i h (realSize size) align hget hne hb
  obtain ⟨⟨hpad, hdvd⟩, -⟩ := placePad_least hb h
  have hle := placePad_le hb h
  have hreal : realSize size = size + 20 := Nat.mod_eq_of_lt hsize
  have hroom := (holeFits_iff hne).mp hfits
  unfold headerSz at *
  unfold footerSz
  exact ⟨_, s', hs', Nat.mod_eq_zero_of_dvd hdvd, by omega, by omega⟩

theorem allocHole_within_small : ∃ p s',
    allocHole smallHeap 0 (realSize 100) 4 = some (p, s') ∧ p % 2 ^ 4 = 0
      ∧ 0x2000 + headerSz ≤ p ∧ p + 100 + footerSz ≤ 0x2000 + hdrSize smallHeap.mem 0x2000 :=
  @allocHole_within smallHeap 0 0x2000 4 100 (by decide +kernel) (by decide) (by decide)
    (by decide +kernel)

end Heap

end Shitos
