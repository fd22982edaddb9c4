import Mathlib.Data.List.Induction
import Mathlib.Order.Monotone.Basic

/-!
# Trees of pointers

A row of roots, each the top of a tree of fixed height: a table of `width`
pointers at every level, and data at the bottom. The null pointer is zero,
and nothing can be reached through it. `node R E x` follows the indices of
the position `x` down from its root.

Two tables at one address would make a write to one of them visible at two
positions. Under `Distinct` that does not happen, and one write changes one
node: `updated_of_root` and `updated_of_entry`.

`seq` numbers the positions in the order in which a traversal meets them, a
table before what is below it. `Filled q` says that exactly the first `q`
positions are in use.
-/

namespace Shitos

namespace PtrTree

/-- A position: a root and the indices taken from it, from the top down. -/
structure Pos where
  root : Nat
  path : List Nat
deriving DecidableEq, Repr

def Pos.child (x : Pos) (i : Nat) : Pos := ⟨x.root, x.path ++ [i]⟩

theorem Pos.child_inj {x y : Pos} {i j : Nat} : x.child i = y.child j ↔ x = y ∧ i = j := by
  obtain ⟨r, is⟩ := x
  obtain ⟨r', is'⟩ := y
  simp only [Pos.child, Pos.mk.injEq, List.append_singleton_inj]
  exact and_assoc.symm

theorem Pos.child_ne_root (x : Pos) (i r : Nat) : x.child i ≠ ⟨r, []⟩ := by
  intro h
  have := congrArg Pos.path h
  exact absurd this (List.append_ne_nil_of_right_ne_nil _ (List.cons_ne_nil _ _))

/-- How wide the tables are, how many roots there are, and how many levels
of tables lie below each. -/
structure Shape where
  width : Nat
  roots : Nat
  height : Nat → Nat

namespace Shape

structure Valid (s : Shape) (x : Pos) : Prop where
  root : x.root < s.roots
  depth : x.path.length ≤ s.height x.root
  index : ∀ i ∈ x.path, i < s.width

/-- The positions that hold a pointer to a table. -/
structure Table (s : Shape) (x : Pos) : Prop extends s.Valid x where
  above : x.path.length < s.height x.root

variable {s : Shape}

theorem valid_root {r : Nat} (h : r < s.roots) : s.Valid ⟨r, []⟩ :=
  ⟨h, Nat.zero_le _, fun _ hi => nomatch hi⟩

theorem valid_child {x : Pos} {i : Nat} : s.Valid (x.child i) ↔ s.Table x ∧ i < s.width := by
  constructor
  · intro h
    have hlen := h.depth
    rw [Pos.child, List.length_append, List.length_singleton] at hlen
    exact ⟨⟨⟨h.root, Nat.le_of_succ_le hlen, fun j hj => h.index j (List.mem_append_left _ hj)⟩,
      hlen⟩, h.index i (List.mem_append_right _ (List.mem_singleton_self i))⟩
  · rintro ⟨h, hi⟩
    refine ⟨h.root, ?_, ?_⟩
    · rw [Pos.child, List.length_append, List.length_singleton]
      exact h.above
    · intro j hj
      rcases List.mem_append.mp hj with hj | hj
      · exact h.index j hj
      · rwa [List.mem_singleton.mp hj]

/-- Induction from the roots down. -/
theorem Valid.induct {P : Pos → Prop} (root : ∀ r < s.roots, P ⟨r, []⟩)
    (child : ∀ x, s.Table x → ∀ i < s.width, P x → P (x.child i)) :
    ∀ x, s.Valid x → P x := by
  rintro ⟨r, is⟩
  induction is using List.reverseRecOn with
  | nil => exact fun h => root r h.root
  | append_singleton is i ih =>
      intro h
      obtain ⟨ht, hi⟩ := valid_child.mp (show s.Valid (Pos.child ⟨r, is⟩ i) from h)
      exact child ⟨r, is⟩ ht i hi (ih ht.toValid)

end Shape

/-! ## The order of a traversal -/

namespace Shape

/-- The positions of a tree of height `h`, its top included. -/
def size (w : Nat) : Nat → Nat
  | 0 => 1
  | h + 1 => 1 + w * size w h

/-- How many positions of a tree of height `h` a traversal meets before the
one that a path leads to. -/
def before (w : Nat) : Nat → List Nat → Nat
  | _, [] => 0
  | 0, _ :: _ => 0
  | h + 1, i :: is => 1 + i * size w h + before w h is

/-- The positions of the trees of the roots below `r`. -/
def start (s : Shape) : Nat → Nat
  | 0 => 0
  | r + 1 => s.start r + size s.width (s.height r)

/-- The number of `x` in a traversal from the first root on. -/
def seq (s : Shape) (x : Pos) : Nat := s.start x.root + before s.width (s.height x.root) x.path

theorem size_pos (w h : Nat) : 0 < size w h := by
  cases h with
  | zero => exact Nat.one_pos
  | succ h => rw [size]; omega

@[simp] theorem before_nil (w h : Nat) : before w h [] = 0 := by
  cases h <;> rfl

theorem before_lt {w : Nat} {is : List Nat} {h : Nat} (hlen : is.length ≤ h)
    (hi : ∀ i ∈ is, i < w) : before w h is < size w h := by
  induction is generalizing h with
  | nil => cases h <;> exact size_pos w _
  | cons i is ih =>
      cases h with
      | zero => exact absurd hlen (by simp)
      | succ h =>
          have hlt := ih (Nat.le_of_succ_le_succ hlen) fun j hj => hi j (List.mem_cons_of_mem _ hj)
          have hmul := Nat.mul_le_mul_right (size w h) (hi i List.mem_cons_self)
          rw [Nat.succ_mul] at hmul
          rw [before, size]
          omega

/-- A traversal meets no position twice. -/
theorem before_inj {w : Nat} {is js : List Nat} {h : Nat} (hlen : is.length ≤ h)
    (hlen' : js.length ≤ h) (hi : ∀ i ∈ is, i < w) (hj : ∀ j ∈ js, j < w)
    (heq : before w h is = before w h js) : is = js := by
  induction is generalizing h js with
  | nil =>
      cases js with
      | nil => rfl
      | cons j js =>
          cases h with
          | zero => exact absurd hlen' (by simp)
          | succ h => rw [before, before] at heq; omega
  | cons i is ih =>
      cases h with
      | zero => exact absurd hlen (by simp)
      | succ h =>
          cases js with
          | nil => rw [before, before] at heq; omega
          | cons j js =>
              rw [before, before] at heq
              have his : ∀ k ∈ is, k < w := fun k hk => hi k (List.mem_cons_of_mem _ hk)
              have hjs : ∀ k ∈ js, k < w := fun k hk => hj k (List.mem_cons_of_mem _ hk)
              have h1 := before_lt (Nat.le_of_succ_le_succ hlen) his
              have h2 := before_lt (Nat.le_of_succ_le_succ hlen') hjs
              have hij : i = j := by
                have hdiv := congrArg (· / size w h) (show
                  i * size w h + before w h is = j * size w h + before w h js by omega)
                simpa [Nat.mul_comm _ (size w h), Nat.mul_add_div (size_pos w h),
                  Nat.div_eq_of_lt h1, Nat.div_eq_of_lt h2] using hdiv
              subst hij
              rw [ih (Nat.le_of_succ_le_succ hlen) (Nat.le_of_succ_le_succ hlen') his hjs (by omega)]

theorem before_append {w : Nat} {is : List Nat} {h : Nat} (hlen : is.length < h) (i : Nat) :
    before w h (is ++ [i]) = before w h is + 1 + i * size w (h - is.length - 1) := by
  induction is generalizing h with
  | nil =>
      obtain ⟨h, rfl⟩ := Nat.exists_eq_succ_of_ne_zero (Nat.ne_of_gt hlen)
      rw [List.nil_append, before, before, before]
      simp
  | cons j is ih =>
      obtain ⟨h, rfl⟩ := Nat.exists_eq_succ_of_ne_zero (Nat.ne_of_gt (Nat.zero_lt_of_lt hlen))
      have := ih (Nat.lt_of_succ_lt_succ hlen)
      rw [List.cons_append, before, before, this, List.length_cons]
      rw [show h + 1 - (is.length + 1) - 1 = h - is.length - 1 by omega]
      omega

theorem start_mono (s : Shape) {r r' : Nat} (h : r ≤ r') : s.start r ≤ s.start r' := by
  induction h with
  | refl => exact Nat.le_refl _
  | step _ ih => exact ih.trans (Nat.le_add_right _ _)

variable {s : Shape}

theorem seq_lt_start_succ {x : Pos} (h : s.Valid x) : s.seq x < s.start (x.root + 1) :=
  Nat.add_lt_add_left (before_lt h.depth h.index) _

theorem start_le_seq (s : Shape) (x : Pos) : s.start x.root ≤ s.seq x := Nat.le_add_right _ _

theorem seq_inj {x y : Pos} (hx : s.Valid x) (hy : s.Valid y) (h : s.seq x = s.seq y) : x = y := by
  have hroot : x.root = y.root := by
    have h1 := seq_lt_start_succ hx
    have h2 := seq_lt_start_succ hy
    have h3 := start_le_seq s x
    have h4 := start_le_seq s y
    rcases Nat.lt_trichotomy x.root y.root with hlt | heq | hlt
    · have := s.start_mono (show x.root + 1 ≤ y.root from hlt)
      omega
    · exact heq
    · have := s.start_mono (show y.root + 1 ≤ x.root from hlt)
      omega
  obtain ⟨r, is⟩ := x
  obtain ⟨r', js⟩ := y
  subst hroot
  have hpath : is = js := before_inj hx.depth hy.depth hx.index hy.index (Nat.add_left_cancel h)
  rw [hpath]

theorem Table.seq_child {x : Pos} (hx : s.Table x) (i : Nat) : s.seq (x.child i)
    = s.seq x + 1 + i * size s.width (s.height x.root - x.path.length - 1) := by
  show s.start x.root + before s.width (s.height x.root) (x.path ++ [i]) = _
  rw [before_append hx.above, seq]
  omega

theorem Table.seq_lt_child {x : Pos} (hx : s.Table x) (i : Nat) : s.seq x < s.seq (x.child i) := by
  rw [hx.seq_child]
  omega

end Shape

/-! ## Following pointers -/

section Nodes

variable {α : Type*} [Zero α] [DecidableEq α]

/-- Entry `i` of the table at `b`; nothing lies below the null pointer. -/
def step (E : α → Nat → α) (b : α) (i : Nat) : α := if b = 0 then 0 else E b i

/-- The pointer at position `x`: `R` holds the roots, `E b i` is entry `i` of
the table at `b`. -/
def node (R : Nat → α) (E : α → Nat → α) (x : Pos) : α := x.path.foldl (step E) (R x.root)

variable {s : Shape} {R R' : Nat → α} {E E' : α → Nat → α}

@[simp] theorem node_root (r : Nat) : node R E ⟨r, []⟩ = R r := rfl

theorem node_child (x : Pos) (i : Nat) : node R E (x.child i) = step E (node R E x) i := by
  rw [node, Pos.child, List.foldl_append]
  rfl

theorem step_of_ne {b : α} (h : b ≠ 0) (i : Nat) : step E b i = E b i := if_neg h

theorem step_zero (i : Nat) : step E 0 i = 0 := if_pos rfl

/-- Nothing is in use below a null root. -/
theorem node_of_root {x : Pos} (h : R x.root = 0) : node R E x = 0 := by
  have hfold : ∀ is : List Nat, is.foldl (step E) 0 = 0 := fun is => by
    induction is with
    | nil => rfl
    | cons i is ih => rw [List.foldl_cons, step_zero, ih]
  rw [node, h, hfold]

/-- What is in use below a position is in use at it. -/
theorem node_ne_zero_of_child {x : Pos} {i : Nat} (h : node R E (x.child i) ≠ 0) :
    node R E x ≠ 0 := fun h0 => h (by rw [node_child, h0, step_zero])

/-- Nodes depend on the roots and on the tables in use. -/
theorem node_congr (hroot : ∀ r < s.roots, R' r = R r)
    (hentry : ∀ y, s.Table y → node R E y ≠ 0 → ∀ i < s.width,
      E' (node R E y) i = E (node R E y) i) :
    ∀ x, s.Valid x → node R' E' x = node R E x := by
  refine Shape.Valid.induct hroot fun y hy i hi ih => ?_
  rw [node_child, node_child, ih]
  by_cases h0 : node R E y = 0
  · rw [h0, step_zero, step_zero]
  · rw [step_of_ne h0, step_of_ne h0, hentry y hy h0 i hi]

/-- Only the pointer at `x` has changed, and it is `v` now. -/
def Updated (s : Shape) (R : Nat → α) (E : α → Nat → α) (R' : Nat → α) (E' : α → Nat → α)
    (x : Pos) (v : α) : Prop :=
  ∀ y, s.Valid y → node R' E' y = if y = x then v else node R E y

/-- No two positions hold a pointer to the same table. -/
def Distinct (s : Shape) (R : Nat → α) (E : α → Nat → α) : Prop :=
  ∀ x y, s.Table x → s.Table y → node R E x ≠ 0 → node R E x = node R E y → x = y

/-- Roots and entries that differ at one position only give nodes that do, as
long as nothing is in use below the old pointer or the new one. -/
theorem updated_of_local {x : Pos} {v : α}
    (hroot : ∀ r < s.roots, R' r = if Pos.mk r [] = x then v else R r)
    (hentry : ∀ y, s.Table y → node R E y ≠ 0 → ∀ i < s.width,
      E' (node R E y) i = if y.child i = x then v else E (node R E y) i)
    (hlive : ∀ y i, y.child i = x → node R E y ≠ 0)
    (hold : s.Table x → ∀ i < s.width, step E (node R E x) i = 0)
    (hnew : s.Table x → ∀ i < s.width, step E' v i = 0) : Updated s R E R' E' x v := by
  refine Shape.Valid.induct hroot fun y hy i hi ih => ?_
  rw [node_child, ih]
  by_cases hyx : y = x
  · -- below the position itself: empty before and after
    subst hyx
    rw [if_pos rfl, hnew hy i hi, if_neg, node_child, hold hy i hi]
    exact fun h => absurd (congrArg (fun z => z.path.length) h) (by simp [Pos.child])
  · rw [if_neg hyx, node_child]
    by_cases h0 : node R E y = 0
    · rw [h0, step_zero, step_zero, if_neg fun hx => hlive y i hx h0]
    · rw [step_of_ne h0, step_of_ne h0, hentry y hy h0 i hi]

/-- Storing `v` in root `r`. -/
theorem updated_of_root {r : Nat} {v : α} (hroot : ∀ r' < s.roots, R' r' = if r' = r then v else R r')
    (hentry : ∀ y, s.Table y → node R E y ≠ 0 → ∀ i < s.width,
      E' (node R E y) i = E (node R E y) i)
    (hold : s.Table ⟨r, []⟩ → ∀ i < s.width, step E (R r) i = 0)
    (hnew : s.Table ⟨r, []⟩ → ∀ i < s.width, step E' v i = 0) :
    Updated s R E R' E' ⟨r, []⟩ v := by
  refine updated_of_local ?_ ?_ (fun y i h => absurd h (y.child_ne_root i r)) hold hnew
  · intro r' hr'
    rw [hroot r' hr']
    exact if_congr (by simp) rfl rfl
  · intro y hy h0 i hi
    rw [hentry y hy h0 i hi, if_neg (y.child_ne_root i r)]

/-- Storing `v` in entry `i` of the table at position `x`. -/
theorem updated_of_entry {x : Pos} {i : Nat} {v : α} (hd : Distinct s R E) (hx : s.Table x)
    (hlive : node R E x ≠ 0) (hroot : ∀ r < s.roots, R' r = R r)
    (hentry : ∀ y, s.Table y → node R E y ≠ 0 → ∀ j < s.width,
      E' (node R E y) j = if node R E y = node R E x ∧ j = i then v else E (node R E y) j)
    (hold : s.Table (x.child i) → ∀ j < s.width, step E (node R E (x.child i)) j = 0)
    (hnew : s.Table (x.child i) → ∀ j < s.width, step E' v j = 0) :
    Updated s R E R' E' (x.child i) v := by
  refine updated_of_local ?_ ?_ ?_ hold hnew
  · intro r hr
    rw [hroot r hr, if_neg fun h => x.child_ne_root i r h.symm]
  · intro y hy h0 j hj
    rw [hentry y hy h0 j hj]
    refine if_congr ?_ rfl rfl
    rw [Pos.child_inj]
    exact and_congr_left' ⟨fun h => hd y x hy hx h0 h, fun h => by rw [h]⟩
  · intro y j h
    rw [(Pos.child_inj.mp h).1]
    exact hlive

/-- Distinct tables stay distinct when the new pointer is null, is the address
of no table, or is not a pointer to a table. -/
theorem Distinct.updated {x : Pos} {v : α} (hd : Distinct s R E) (h : Updated s R E R' E' x v)
    (hv : s.Table x → v ≠ 0 → ∀ y, s.Table y → node R E y ≠ v) : Distinct s R' E' := by
  intro y z hy hz h0 heq
  rw [h y hy.toValid] at h0 heq
  rw [h z hz.toValid] at heq
  by_cases hyx : y = x
  · subst hyx
    rw [if_pos rfl] at h0 heq
    by_cases hzy : z = y
    · exact hzy.symm
    · rw [if_neg hzy] at heq
      exact absurd heq.symm (hv hy h0 z hz)
  · rw [if_neg hyx] at h0 heq
    by_cases hzx : z = x
    · subst hzx
      rw [if_pos rfl] at heq
      exact absurd heq (hv hz (heq ▸ h0) y hy)
    · rw [if_neg hzx] at heq
      exact hd y z hy hz h0 heq

/-- The pointers in use are pairwise different. -/
def Separate (s : Shape) (R : Nat → α) (E : α → Nat → α) : Prop :=
  ∀ x y, s.Valid x → s.Valid y → node R E x ≠ 0 → node R E x = node R E y → x = y

theorem Separate.distinct (h : Separate s R E) : Distinct s R E :=
  fun x y hx hy => h x y hx.toValid hy.toValid

theorem Separate.updated {x : Pos} {v : α} (hs : Separate s R E) (h : Updated s R E R' E' x v)
    (hv : v ≠ 0 → ∀ y, s.Valid y → node R E y ≠ v) : Separate s R' E' := by
  intro y z hy hz h0 heq
  rw [h y hy] at h0 heq
  rw [h z hz] at heq
  by_cases hyx : y = x
  · rw [if_pos hyx] at h0 heq
    by_cases hzx : z = x
    · rw [hyx, hzx]
    · rw [if_neg hzx] at heq
      exact absurd heq.symm (hv h0 z hz)
  · rw [if_neg hyx] at h0 heq
    by_cases hzx : z = x
    · rw [if_pos hzx] at heq
      exact absurd heq (hv (heq ▸ h0) y hy)
    · rw [if_neg hzx] at heq
      exact hs y z hy hz h0 heq

/-- The first `q` positions are in use, and no others. -/
def Filled (s : Shape) (R : Nat → α) (E : α → Nat → α) (q : Nat) : Prop :=
  ∀ x, s.Valid x → (node R E x ≠ 0 ↔ s.seq x < q)

theorem Filled.set {q : Nat} {x : Pos} {v : α} (hf : Filled s R E q) (hx : s.Valid x)
    (hq : s.seq x ≤ q) (h : Updated s R E R' E' x v) (hv : v ≠ 0) :
    Filled s R' E' (max q (s.seq x + 1)) := by
  intro y hy
  rw [h y hy]
  by_cases hyx : y = x
  · rw [if_pos hyx, hyx]
    exact ⟨fun _ => Nat.lt_of_lt_of_le (Nat.lt_succ_self _) (Nat.le_max_right ..), fun _ => hv⟩
  · rw [if_neg hyx, hf y hy]
    have hne : s.seq y ≠ s.seq x := fun h => hyx (Shape.seq_inj hy hx h)
    omega

theorem Filled.remove {q : Nat} {x : Pos} (hf : Filled s R E (q + 1)) (hx : s.Valid x)
    (hq : s.seq x = q) (h : Updated s R E R' E' x 0) : Filled s R' E' q := by
  intro y hy
  rw [h y hy]
  by_cases hyx : y = x
  · rw [if_pos hyx, hyx, hq]
    exact ⟨fun h => absurd rfl h, fun h => absurd h (Nat.lt_irrefl q)⟩
  · rw [if_neg hyx, hf y hy]
    have hne : s.seq y ≠ q := fun h => hyx (Shape.seq_inj hy hx (h.trans hq.symm))
    omega

/-- Nothing is in use below the last position that is. -/
theorem Filled.nothing_below {q : Nat} {x : Pos} (hf : Filled s R E q) (hx : s.Table x)
    (hq : q ≤ s.seq x + 1) {i : Nat} (hi : i < s.width) : step E (node R E x) i = 0 := by
  have hchild := hf (x.child i) (Shape.valid_child.mpr ⟨hx, hi⟩)
  have hlt := hx.seq_lt_child i
  rw [node_child] at hchild
  by_contra h
  have := hchild.mp h
  omega

end Nodes

end PtrTree

end Shitos
