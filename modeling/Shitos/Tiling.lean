import Mathlib.Data.List.Nodup

/-!
# Tilings of an interval

A list of pieces, each with an address and a length, that lie one after the
other and cover an interval exactly. Boundary-tag heaps and record chains
are both of this shape: the invariant of either is `Tiles`, and splitting,
merging or relabelling a piece replaces a sublist by another one over the
same part of the interval (`tiles_middle`).
-/

namespace Shitos

section Tiling

variable {α : Type*} {addr size : α → Nat}

/-- The pieces of `l` cover `[a, b)` in order. -/
def Tiles (addr size : α → Nat) : Nat → List α → Nat → Prop
  | a, [], b => a = b
  | a, x :: l, b => addr x = a ∧ 0 < size x ∧ Tiles addr size (a + size x) l b

/-- Whether a list covers an interval can be computed. -/
def decidableTiles (addr size : α → Nat) :
    ∀ (l : List α) (a b : Nat), Decidable (Tiles addr size a l b)
  | [], a, b => inferInstanceAs (Decidable (a = b))
  | x :: l, a, b =>
      have := decidableTiles addr size l (a + size x) b
      inferInstanceAs (Decidable (addr x = a ∧ 0 < size x ∧ Tiles addr size (a + size x) l b))

instance (a b : Nat) (l : List α) : Decidable (Tiles addr size a l b) :=
  decidableTiles addr size l a b

theorem Tiles.le {l : List α} : ∀ {a b : Nat}, Tiles addr size a l b → a ≤ b := by
  induction l with
  | nil => intro a b h; exact Nat.le_of_eq h
  | cons x l ih =>
      intro a b h
      obtain ⟨-, hpos, htail⟩ := h
      have := ih htail
      omega

theorem tiles_append {l₁ l₂ : List α} : ∀ {a b : Nat},
    Tiles addr size a (l₁ ++ l₂) b ↔ ∃ c, Tiles addr size a l₁ c ∧ Tiles addr size c l₂ b := by
  induction l₁ with
  | nil =>
      intro a b
      constructor
      · intro h; exact ⟨a, rfl, h⟩
      · rintro ⟨c, rfl, h⟩; exact h
  | cons x l₁ ih =>
      intro a b
      simp only [List.cons_append, Tiles, ih]
      constructor
      · rintro ⟨hx, hpos, c, h₁, h₂⟩; exact ⟨c, ⟨hx, hpos, h₁⟩, h₂⟩
      · rintro ⟨c, ⟨hx, hpos, h₁⟩, h₂⟩; exact ⟨hx, hpos, c, h₁, h₂⟩

/-- The part of a tiling up to a piece, the piece, and the part after it. -/
theorem tiles_split {l₁ l₂ : List α} {x : α} {a b : Nat} :
    Tiles addr size a (l₁ ++ x :: l₂) b ↔ Tiles addr size a l₁ (addr x) ∧ 0 < size x
      ∧ Tiles addr size (addr x + size x) l₂ b := by
  rw [tiles_append]
  constructor
  · rintro ⟨c, h₁, rfl, hpos, h₂⟩; exact ⟨h₁, hpos, h₂⟩
  · rintro ⟨h₁, hpos, h₂⟩; exact ⟨addr x, h₁, rfl, hpos, h₂⟩

theorem Tiles.stop_unique {l : List α} : ∀ {a b b' : Nat}, Tiles addr size a l b →
    Tiles addr size a l b' → b = b' := by
  induction l with
  | nil => intro a b b' h h'; exact h.symm.trans h'
  | cons x l ih => intro a b b' h h'; exact ih h.2.2 h'.2.2

/-- A sublist may be replaced by any tiling of its part of the interval. -/
theorem tiles_middle {l₁ m m' l₂ : List α} {a b c d : Nat}
    (h : Tiles addr size a (l₁ ++ (m ++ l₂)) b) (hm : Tiles addr size c m d) (hne : m ≠ [])
    (hm' : Tiles addr size c m' d) : Tiles addr size a (l₁ ++ (m' ++ l₂)) b := by
  rw [tiles_append] at h ⊢
  obtain ⟨c', h₁, h⟩ := h
  rw [tiles_append] at h
  obtain ⟨d', hm₂, h₂⟩ := h
  obtain ⟨x, t, rfl⟩ := List.exists_cons_of_ne_nil hne
  obtain rfl : c' = c := hm₂.1.symm.trans hm.1
  obtain rfl := hm₂.stop_unique hm
  exact ⟨c', h₁, tiles_append.mpr ⟨d', hm', h₂⟩⟩

theorem Tiles.bounds {l : List α} : ∀ {a b : Nat}, Tiles addr size a l b → ∀ {x : α}, x ∈ l →
    a ≤ addr x ∧ addr x + size x ≤ b := by
  intro a b h x hx
  obtain ⟨l₁, l₂, rfl⟩ := List.append_of_mem hx
  obtain ⟨h₁, -, h₂⟩ := tiles_split.mp h
  exact ⟨h₁.le, h₂.le⟩

theorem Tiles.pos {l : List α} {a b : Nat} (h : Tiles addr size a l b) {x : α} (hx : x ∈ l) :
    0 < size x := by
  obtain ⟨l₁, l₂, rfl⟩ := List.append_of_mem hx
  exact (tiles_split.mp h).2.1

/-- Pieces of a tiling do not overlap. -/
theorem Tiles.pairwise {l : List α} : ∀ {a b : Nat}, Tiles addr size a l b →
    l.Pairwise fun x y => addr x + size x ≤ addr y := by
  induction l with
  | nil => intro a b _; exact List.Pairwise.nil
  | cons x l ih =>
      intro a b h
      obtain ⟨hx, -, htail⟩ := h
      refine List.Pairwise.cons (fun y hy => ?_) (ih htail)
      rw [hx]
      exact (htail.bounds hy).1

theorem Tiles.disjoint {l : List α} {a b : Nat} (h : Tiles addr size a l b) {x y : α}
    (hx : x ∈ l) (hy : y ∈ l) (hne : x ≠ y) :
    addr x + size x ≤ addr y ∨ addr y + size y ≤ addr x := by
  obtain ⟨l₁, l₂, rfl⟩ := List.append_of_mem hx
  obtain ⟨h₁, -, h₂⟩ := tiles_split.mp h
  rcases List.mem_append.mp hy with hy | hy
  · exact Or.inr (h₁.bounds hy).2
  · rcases List.mem_cons.mp hy with rfl | hy
    · exact absurd rfl hne
    · exact Or.inl (h₂.bounds hy).1

/-- A piece is determined by its address. -/
theorem Tiles.eq_of_addr {l : List α} {a b : Nat} (h : Tiles addr size a l b) {x y : α}
    (hx : x ∈ l) (hy : y ∈ l) (heq : addr x = addr y) : x = y := by
  by_contra hne
  have hpx := h.pos hx
  have hpy := h.pos hy
  rcases h.disjoint hx hy hne with hd | hd <;> omega

theorem Tiles.nodup_addr {l : List α} {a b : Nat} (h : Tiles addr size a l b) :
    (l.map addr).Nodup := by
  rw [List.Nodup, List.pairwise_map]
  refine (List.pairwise_iff_forall_sublist.mpr fun {x y} hxy => ?_)
  have hle := List.pairwise_iff_forall_sublist.mp h.pairwise hxy
  have hpos := h.pos (hxy.subset List.mem_cons_self)
  omega

end Tiling

end Shitos
