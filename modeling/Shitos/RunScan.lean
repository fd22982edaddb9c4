import Mathlib.Data.List.Range

/-!
# A scan for consecutive free places

The first-fit search for `n` places in a row, over any predicate `taken`. The
places from a candidate on are looked at in order, up to the first taken one,
and the search goes on behind that one. Only the candidates are bounded by
`hi`: the places of a run may lie behind it.

The scan looks at consecutive places, at each once, so what it has looked at
is a range (`findRun_looked`).
-/

namespace Shitos

namespace RunScan

variable (taken : Nat → Bool)

/-- The `n` places from `i` on are free. -/
def Free (n i : Nat) : Prop := ∀ j < n, taken (i + j) = false

/-- The first taken one of the `n` places from `i` on, as an offset. -/
def firstTaken (n i : Nat) : Option Nat := (List.range n).find? fun j => taken (i + j)

/-- The scan from candidate `i`, and the places it looks at. The first number
bounds the candidates. -/
def scan (n hi : Nat) : Nat → Nat → Option Nat × List Nat
  | 0, _ => (none, [])
  | k + 1, i =>
      if i < hi then
        match firstTaken taken n i with
        | none => (some i, List.range' i n)
        | some j =>
            match scan n hi k (i + j + 1) with
            | (c, looked) => (c, List.range' i (j + 1) ++ looked)
      else (none, [])

/-- The scan over the candidates from `lo` to `hi`. -/
def findRun (n lo hi : Nat) : Option Nat × List Nat := scan taken n hi (hi - lo) lo

variable {taken}

theorem firstTaken_none {n i : Nat} : firstTaken taken n i = none ↔ Free taken n i := by
  rw [firstTaken, List.find?_eq_none]
  constructor
  · intro h j hj
    exact Bool.eq_false_iff.mpr (h j (List.mem_range.mpr hj))
  · intro h j hj
    rw [h j (List.mem_range.mp hj)]
    exact Bool.false_ne_true

theorem firstTaken_some {n i j : Nat} (h : firstTaken taken n i = some j) :
    j < n ∧ taken (i + j) = true := by
  refine ⟨List.mem_range.mp (List.mem_of_find?_eq_some h), ?_⟩
  exact List.find?_some (p := fun j => taken (i + j)) h

/-- A taken place rules out the candidates up to it, as far as they reach it. -/
theorem not_free {n i j : Nat} (h : taken (i + j) = true) (hj : j < n) {c : Nat} (hlo : i ≤ c)
    (hhi : c ≤ i + j) : ¬Free taken n c := by
  intro hfree
  have hplace := hfree (i + j - c) (by omega)
  rw [Nat.add_sub_cancel' hhi, h] at hplace
  cases hplace

/-- What the scan from `i` finds is the first candidate with a free run, and
the places it has looked at end with that run. -/
theorem scan_some {n hi k i c : Nat} {l : List Nat} (hk : hi ≤ i + k)
    (h : scan taken n hi k i = (some c, l)) :
    i ≤ c ∧ c < hi ∧ Free taken n c ∧ (∀ c', i ≤ c' → c' < c → ¬Free taken n c')
      ∧ l = List.range' i (c + n - i) := by
  induction k generalizing i l with
  | zero => cases h
  | succ k ih =>
      rw [scan] at h
      split at h
      · rename_i hlt
        split at h
        · rename_i hnone
          obtain ⟨hc, rfl⟩ := Prod.mk.inj h
          cases hc
          refine ⟨Nat.le_refl _, hlt, firstTaken_none.mp hnone, fun c' h1 h2 => ?_, ?_⟩
          · omega
          · rw [Nat.add_sub_cancel_left]
        · rename_i j hsome
          obtain ⟨hj, htaken⟩ := firstTaken_some hsome
          obtain ⟨o, rest, hrest⟩ : ∃ o rest, scan taken n hi k (i + j + 1) = (o, rest) :=
            ⟨_, _, rfl⟩
          rw [hrest] at h
          obtain ⟨rfl, rfl⟩ := Prod.mk.inj h
          obtain ⟨hle, hhi, hfree, hfirst, hl⟩ := ih (by omega) hrest
          refine ⟨by omega, hhi, hfree, fun c' h1 h2 => ?_, ?_⟩
          · by_cases hc' : c' ≤ i + j
            · exact not_free htaken hj h1 hc'
            · exact hfirst c' (by omega) h2
          · rw [hl, show i + j + 1 = i + (j + 1) from rfl, List.range'_append_1]
            congr 1
            omega
      · cases h

/-- A scan that finds nothing has ruled out every candidate, and has looked
at least up to the last one. -/
theorem scan_none {n hi k i : Nat} {l : List Nat} (hk : hi ≤ i + k)
    (h : scan taken n hi k i = (none, l)) :
    (∀ c, i ≤ c → c < hi → ¬Free taken n c) ∧ ∃ m, hi ≤ i + m ∧ l = List.range' i m := by
  induction k generalizing i l with
  | zero =>
      cases h
      exact ⟨fun c h1 h2 => by omega, 0, by omega, rfl⟩
  | succ k ih =>
      rw [scan] at h
      split at h
      · split at h
        · cases h
        · rename_i j hsome
          obtain ⟨hj, htaken⟩ := firstTaken_some hsome
          obtain ⟨o, rest, hrest⟩ : ∃ o rest, scan taken n hi k (i + j + 1) = (o, rest) :=
            ⟨_, _, rfl⟩
          rw [hrest] at h
          obtain ⟨rfl, rfl⟩ := Prod.mk.inj h
          obtain ⟨hnone, m, hm, hl⟩ := ih (by omega) hrest
          refine ⟨fun c h1 h2 => ?_, j + 1 + m, by omega, ?_⟩
          · by_cases hc' : c ≤ i + j
            · exact not_free htaken hj h1 hc'
            · exact hnone c (by omega) h2
          · rw [hl, show i + j + 1 = i + (j + 1) from rfl, List.range'_append_1]
      · cases h
        exact ⟨fun c h1 h2 => by omega, 0, by omega, rfl⟩

/-! ## The whole search -/

section Search

variable {n lo hi c : Nat}

theorem findRun_some (h : (findRun taken n lo hi).1 = some c) :
    lo ≤ c ∧ c < hi ∧ Free taken n c ∧ ∀ c', lo ≤ c' → c' < c → ¬Free taken n c' := by
  obtain ⟨h1, h2, h3, h4, -⟩ := scan_some (by omega) (Prod.ext h rfl : _ = (some c, _))
  exact ⟨h1, h2, h3, h4⟩

theorem findRun_none (h : (findRun taken n lo hi).1 = none) :
    ∀ c, lo ≤ c → c < hi → ¬Free taken n c :=
  (scan_none (by omega) (Prod.ext h rfl : _ = (none, _))).1

/-- A free run at a candidate is found, unless there is one before it. -/
theorem findRun_of_free (hlo : lo ≤ c) (hhi : c < hi) (hfree : Free taken n c) :
    ∃ c' ≤ c, (findRun taken n lo hi).1 = some c' := by
  cases hfind : (findRun taken n lo hi).1 with
  | none => exact absurd hfree (findRun_none hfind c hlo hhi)
  | some c' =>
      refine ⟨c', Nat.le_of_not_lt fun hlt => ?_, rfl⟩
      exact (findRun_some hfind).2.2.2 c hlo hlt hfree

/-- The places looked at are those from `lo` to the end of the run, or to some
place behind the last candidate if there is no run. -/
theorem findRun_looked (x : Nat) : x ∈ (findRun taken n lo hi).2 ↔
    lo ≤ x ∧ match (findRun taken n lo hi).1 with
      | some c => x < c + n
      | none => x < lo + (findRun taken n lo hi).2.length := by
  cases hfind : (findRun taken n lo hi).1 with
  | some c =>
      obtain ⟨hle, -, -, -, hl⟩ := scan_some (by omega) (Prod.ext hfind rfl : _ = (some c, _))
      have hl' : (findRun taken n lo hi).2 = List.range' lo (c + n - lo) := hl
      rw [hl', List.mem_range'_1]
      dsimp only
      omega
  | none =>
      obtain ⟨-, m, -, hl⟩ := scan_none (by omega) (Prod.ext hfind rfl : _ = (none, _))
      have hl' : (findRun taken n lo hi).2 = List.range' lo m := hl
      rw [hl', List.mem_range'_1, List.length_range']

theorem findRun_exhausted (h : (findRun taken n lo hi).1 = none) :
    hi ≤ lo + (findRun taken n lo hi).2.length := by
  obtain ⟨-, m, hm, hl⟩ := scan_none (by omega) (Prod.ext h rfl : _ = (none, _))
  have hl' : (findRun taken n lo hi).2 = List.range' lo m := hl
  rw [hl', List.length_range']
  exact hm

end Search

end RunScan

end Shitos
