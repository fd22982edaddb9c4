import Shitos.Ext2Grow

/-!
# Dense inodes

An inode is dense when its content blocks are the first `n` and it has
exactly the tables these need: in the order of a traversal, its first
`n + tables p n` positions are in use. Growing it by `alloc_inode_block`
fills the positions in that order, one block for each, so the blocks taken
from the volume are counted by the position reached.

`Owned` is what the blocks of any inode must satisfy for that: they are its
own, no two positions share one, and the bitmap marks them.
-/

namespace Shitos

namespace Ext2

open PtrTree

/-- A block of the file: a block of the volume that is marked in the bitmap
and holds neither bookkeeping nor the inode. -/
structure FileBlock (f : File) (b : Nat) : Prop where
  inVol : InVol f.fs b
  notBook : b ∉ bookBlocks f.fs
  notHome : b ≠ home f.fs f.no
  lt : b < capacity .block f.fs
  used : usedBit .block f.fs b = true

/-- Everything in the map of the file is a block of its own. -/
structure Owned (p : Nat) (f : File) : Prop where
  ptrs : ptrs f.fs = p
  volume : Volume f.fs
  homed : Homed f.fs f.no
  homeTaken : Taken f.fs (home f.fs f.no)
  block : ∀ x, (tree p).Valid x → f.at x ≠ 0 → FileBlock f (f.at x)
  separate : Separate (tree p) (iBlock f.ino) (entry f.fs)

/-- The first `n` content blocks are there, with the tables they need, and no
others; `i_blocks` counts them. -/
structure Dense (p n : Nat) (f : File) : Prop extends Owned p f where
  filled : Filled (tree p) (iBlock f.ino) (entry f.fs) (n + tables p n)
  count : iBlocks f.ino = sectors f.fs n
  small : sectors f.fs n < 2 ^ 32
  limit : n ≤ maxBlocks p

section Keep

variable {p : Nat} {P : Set Nat} {f f₁ f' : File} {x : Pos} {b r : Nat} {bs : List Nat} {S : Set Nat}

theorem FileBlock.taken (h : FileBlock f b) : Taken f.fs b := fun _ => h.used

theorem FileBlock.run (h : FileBlock f b) (hr : BitRun bs true S f.fs f'.fs)
    (hno : f'.no = f.no) : FileBlock f' b where
  inVol := (hr.format.inVol b).mpr h.inVol
  notBook := by rw [hr.format.bookBlocks]; exact h.notBook
  notHome := by rw [hno, hr.format.home]; exact h.notHome
  lt := by rw [hr.format.capacity]; exact h.lt
  used := hr.used h.lt h.used

theorem Owned.tables (O : Owned p f) : Tables p ∅ f where
  ptrs := O.ptrs
  volume := O.volume
  homed := O.homed
  homeTaken := O.homeTaken
  table := fun x hx h0 =>
    have h := O.block x hx.toValid h0
    ⟨h.inVol, h.notBook, h.notHome, Or.inr h.taken⟩
  distinct := O.separate.distinct

/-- A run that leaves the pointers and the tables alone leaves the map alone. -/
theorem Owned.at_run (O : Owned p f) (hr : BitRun bs true S f.fs f'.fs)
    (hroot : ∀ r < 15, iBlock f'.ino r = iBlock f.ino r)
    (hS : ∀ x, (tree p).Table x → f.at x ≠ 0 → f.at x ∉ S) :
    ∀ x, (tree p).Valid x → f'.at x = f.at x :=
  node_congr hroot fun y hy h0 _ hi =>
    hr.entry (O.block y hy.toValid h0).notBook (hS y hy h0) (by rw [O.ptrs]; exact hi)

theorem Owned.run (O : Owned p f) (hr : BitRun bs true S f.fs f'.fs) (hno : f'.no = f.no)
    (hat : ∀ x, (tree p).Valid x → f'.at x = f.at x) : Owned p f' where
  ptrs := hr.ptrs.trans O.ptrs
  volume := O.volume.of_taken hr
  homed := by rw [hno]; exact O.homed.of_sameFormat hr.format
  homeTaken := by rw [hno, hr.format.home]; exact O.homeTaken.run hr
  block := by
    intro x hx h0
    rw [hat x hx] at h0 ⊢
    exact (O.block x hx h0).run hr hno
  separate := by
    intro x y hx hy h0 heq
    have hxe : node (iBlock f'.ino) (entry f'.fs) x = f.at x := hat x hx
    have hye : node (iBlock f'.ino) (entry f'.fs) y = f.at y := hat y hy
    rw [hxe] at h0 heq
    rw [hye] at heq
    exact O.separate x y hx hy h0 heq

theorem filled_congr {q : Nat} (hf : Filled (tree p) (iBlock f.ino) (entry f.fs) q)
    (hat : ∀ x, (tree p).Valid x → f'.at x = f.at x) :
    Filled (tree p) (iBlock f'.ino) (entry f'.fs) q := by
  intro x hx
  have hxe : node (iBlock f'.ino) (entry f'.fs) x = f.at x := hat x hx
  rw [hxe]
  exact hf x hx

/-- Setting one pointer, to a block of the file that has no other place in
it. -/
theorem Owned.relinked (O : Owned p f) {v : Nat} (h : Relinked p f x v f')
    (hr : BitRun bs true S f.fs f'.fs) (hno : f'.no = f.no)
    (hv : FileBlock f' v) (hfree : ∀ y, (tree p).Valid y → f.at y ≠ v) : Owned p f' where
  ptrs := hr.ptrs.trans O.ptrs
  volume := O.volume.of_taken hr
  homed := by rw [hno]; exact O.homed.of_sameFormat hr.format
  homeTaken := by rw [hno, hr.format.home]; exact O.homeTaken.run hr
  block := by
    intro y hy h0
    have heq : f'.at y = if y = x then v else f.at y := h y hy
    rw [heq] at h0 ⊢
    by_cases hyx : y = x
    · rw [if_pos hyx]
      exact hv
    · rw [if_neg hyx] at h0 ⊢
      exact (O.block y hy h0).run hr hno
  separate := O.separate.updated h fun _ => hfree

/-- What is taken by a run was no block of the file before. -/
theorem Owned.not_mem (O : Owned p f) (hr : BitRun bs true S f.fs f'.fs) (hb : b ∈ bs)
    (hb0 : b ≠ 0) : ∀ y, (tree p).Valid y → f.at y ≠ b := by
  intro y hy heq
  exact (O.block y hy (heq ▸ hb0)).taken.not_mem hr (heq ▸ hb)

end Keep

/-! ## Filling positions -/

/-- The file has taken the blocks of `new`. Pointers have changed to these
only, and besides them nothing has been written but the home of the file and
its tables. -/
structure Took (p : Nat) (new : List Nat) (f f' : File) : Prop where
  no : f'.no = f.no
  got : f'.got = f.got ++ new
  pointer : ∀ x, (tree p).Valid x → f'.at x = f.at x ∨ f'.at x ∈ new
  run : BitRun new true ({b | b ∈ new} ∪ own p f) f.fs f'.fs
  home : HomeKept f f'

/-- Pointers in use have not changed. -/
def Keeps (p : Nat) (f f' : File) : Prop :=
  ∀ x, (tree p).Valid x → f.at x ≠ 0 → f'.at x = f.at x

section Fill

variable {p : Nat} {f f₁ f' : File} {x : Pos} {q q' r : Nat} {xs : List Pos} {new new' : List Nat}

theorem Keeps.trans (h : Keeps p f f₁) (h' : Keeps p f₁ f') : Keeps p f f' := by
  intro x hx h0
  have hk := h x hx h0
  rw [← hk] at h0 ⊢
  exact h' x hx h0

theorem Took.refl (p : Nat) (f : File) : Took p [] f f :=
  ⟨rfl, (List.append_nil _).symm, fun _ _ => Or.inl rfl,
    (BitRun.refl f.fs).mono (Set.empty_subset _), HomeKept.refl f⟩

/-- The tables are the old ones, or new blocks. -/
theorem own_subset {bs : List Nat} {S : Set Nat} (hr : BitRun bs true S f.fs f'.fs)
    (hno : f'.no = f.no) (hptr : ∀ x, (tree p).Table x → f'.at x = f.at x ∨ f'.at x ∈ new) :
    own p f' ⊆ {b | b ∈ new} ∪ own p f := by
  rintro b (hb | ⟨x, hx, h0, hb⟩)
  · exact Or.inr (Or.inl (by rw [hb, hno, hr.format.home]))
  · rcases hptr x hx with h | h
    · exact Or.inr (Or.inr ⟨x, hx, h ▸ h0, h.symm.trans hb⟩)
    · exact Or.inl (hb ▸ h)

theorem Took.own_subset (h : Took p new f f') : own p f' ⊆ {b | b ∈ new} ∪ own p f :=
  Ext2.own_subset h.run h.no fun x hx => h.pointer x hx.toValid

theorem Took.trans (h : Took p new f f₁) (h' : Took p new' f₁ f') :
    Took p (new ++ new') f f' := by
  refine ⟨h'.no.trans h.no, ?_, fun x hx => ?_, (h.run.trans h'.run).mono ?_,
    h.home.trans h.run.format h.no h'.home⟩
  · rw [h'.got, h.got, List.append_assoc]
  · rcases h'.pointer x hx with he | hm
    · rw [he]
      exact (h.pointer x hx).imp_right (List.mem_append_left _)
    · exact Or.inr (List.mem_append_right _ hm)
  · rintro b (hb | hb | hb)
    · exact hb.imp_left (List.mem_append_left _)
    · exact Or.inl (List.mem_append_right _ hb)
    · exact (h.own_subset hb).imp_left (List.mem_append_left _)

theorem Linked.keeps {P : Set Nat} (h : Linked p P f x f') : Keeps p f f' := by
  intro y hy h0
  have heq : f'.at y = if y = x then f'.at x else f.at y := h.relinked y hy
  rw [heq]
  split
  · rename_i hyx
    rw [h.found (hyx ▸ h0), hyx]
  · rfl

theorem Linked.took {P : Set Nat} (h : Linked p P f x f') : ∃ new, Took p new f f' := by
  have hptr : ∀ y, (tree p).Valid y →
      f'.at y = f.at y ∨ f'.at y ∈ if f.at x = 0 then [f'.at x] else [] := by
    intro y hy
    have heq : f'.at y = if y = x then f'.at x else f.at y := h.relinked y hy
    by_cases hyx : y = x
    · by_cases h0 : f.at x = 0
      · rw [if_pos h0, hyx]
        exact Or.inr (List.mem_singleton_self _)
      · rw [h.found h0]
        exact Or.inl rfl
    · rw [heq, if_neg hyx]
      exact Or.inl rfl
  exact ⟨_, h.no, h.got, hptr, h.run.mono (own_subset h.run h.no fun y hy => hptr y hy.toValid),
    h.home⟩

theorem Linked.owned (h : Linked p ∅ f x f') (hx : (tree p).Table x) (O : Owned p f) :
    Owned p f' := by
  by_cases h0 : f.at x = 0
  · have hr := h.run
    rw [if_pos h0] at hr
    have hmem := List.mem_singleton_self (f'.at x)
    have hb := h.tables.table x hx h.live
    refine O.relinked h.relinked hr h.no ⟨hb.inVol, hb.notBook, hb.notHome, ?_, ?_⟩
      (O.not_mem hr hmem h.live)
    · rw [hr.format.capacity]
      exact (hr.flipped _ hmem).1
    · rw [hr.bits _ (hr.flipped _ hmem).1, if_pos hmem]
  · rw [h.found h0]
    exact O

/-- A block that is taken and not in the map stays out of it. -/
theorem Linked.avoids {P : Set Nat} (h : Linked p P f x f') {r : Nat} (ht : Taken f.fs r)
    (hfree : ∀ y, (tree p).Valid y → f.at y ≠ r) :
    Taken f'.fs r ∧ ∀ y, (tree p).Valid y → f'.at y ≠ r := by
  refine ⟨ht.run h.run, fun y hy => ?_⟩
  have heq : f'.at y = if y = x then f'.at x else f.at y := h.relinked y hy
  rw [heq]
  split
  · rename_i hyx
    by_cases h0 : f.at x = 0
    · have hr := h.run
      rw [if_pos h0] at hr
      exact fun hh => ht.not_mem hr (List.mem_singleton.mpr hh.symm)
    · rw [h.found h0, ← hyx]
      exact hfree y hy
  · exact hfree y hy

/-- Putting the pointer at `x` in use fills the next position, or none. -/
theorem Linked.filled {P : Set Nat} (h : Linked p P f x f') (hx : (tree p).Valid x)
    (hf : Filled (tree p) (iBlock f.ino) (entry f.fs) q) (hq : (tree p).seq x ≤ q) :
    Filled (tree p) (iBlock f'.ino) (entry f'.fs) (max q ((tree p).seq x + 1))
      ∧ f'.got.length + q = f.got.length + max q ((tree p).seq x + 1) := by
  refine ⟨hf.set hx hq h.relinked h.live, ?_⟩
  have hlt := hf x hx
  by_cases h0 : f.at x = 0
  · have hseq : (tree p).seq x = q := by
      have := mt hlt.mpr (not_not.mpr h0)
      omega
    rw [h.got, if_pos h0, List.length_append, List.length_singleton]
    omega
  · have := hlt.mp h0
    rw [h.found h0]
    omega

/-- Putting the positions of `xs` in use one after the other, from `q` filled
positions on, leaves `q'` of them filled. -/
def Reaches (s : Shape) : Nat → List Pos → Nat → Prop
  | q, [], q' => q = q'
  | q, x :: xs, q' => s.seq x ≤ q ∧ Reaches s (max q (s.seq x + 1)) xs q'

theorem Reaches.append {s : Shape} {ys : List Pos} : ∀ {xs : List Pos} {q : Nat},
    Reaches s q (xs ++ ys) q' → ∃ q₁, Reaches s q xs q₁ ∧ Reaches s q₁ ys q'
  | [], q, h => ⟨q, rfl, h⟩
  | _ :: _, _, h =>
      have ⟨q₁, h₁, h₂⟩ := h.2.append
      ⟨q₁, ⟨h.1, h₁⟩, h₂⟩

theorem Reaches.le {s : Shape} : ∀ {xs : List Pos} {q : Nat}, Reaches s q xs q' → q ≤ q'
  | [], _, h => Nat.le_of_eq h
  | _ :: _, _, h => (Nat.le_max_left _ _).trans h.2.le

theorem Chain.keeps {P : Set Nat} (h : Chain p P f xs f') : Keeps p f f' := by
  induction h with
  | nil f => exact fun _ _ _ => rfl
  | cons h _ ih => exact h.keeps.trans ih

theorem Chain.head {P : Set Nat} (h : Chain p P f xs f') : SameHead f.ino f'.ino := by
  induction h with
  | nil f => exact SameHead.refl _
  | cons h _ ih => exact h.head.trans ih

theorem Chain.took {P : Set Nat} (h : Chain p P f xs f') : ∃ new, Took p new f f' := by
  induction h with
  | nil f => exact ⟨[], Took.refl p f⟩
  | cons h _ ih =>
      obtain ⟨new, hn⟩ := h.took
      obtain ⟨new', hn'⟩ := ih
      exact ⟨_, hn.trans hn'⟩

theorem Chain.owned (h : Chain p ∅ f xs f') (hxs : ∀ x ∈ xs, (tree p).Table x)
    (O : Owned p f) : Owned p f' := by
  induction h with
  | nil => exact O
  | cons h _ ih =>
      exact ih (fun x hx => hxs x (List.mem_cons_of_mem _ hx))
        (h.owned (hxs _ List.mem_cons_self) O)

theorem Chain.avoids {P : Set Nat} (h : Chain p P f xs f') {r : Nat} (ht : Taken f.fs r)
    (hfree : ∀ y, (tree p).Valid y → f.at y ≠ r) :
    Taken f'.fs r ∧ ∀ y, (tree p).Valid y → f'.at y ≠ r := by
  induction h with
  | nil => exact ⟨ht, hfree⟩
  | cons h _ ih =>
      obtain ⟨h1, h2⟩ := h.avoids ht hfree
      exact ih h1 h2

theorem Chain.filled {P : Set Nat} (h : Chain p P f xs f') (hxs : ∀ x ∈ xs, (tree p).Table x)
    (hf : Filled (tree p) (iBlock f.ino) (entry f.fs) q) (hq : Reaches (tree p) q xs q') :
    Filled (tree p) (iBlock f'.ino) (entry f'.fs) q'
      ∧ f'.got.length + q = f.got.length + q' := by
  induction h generalizing q with
  | nil => exact ⟨hq ▸ hf, by rw [show q = q' from hq]⟩
  | cons h _ ih =>
      obtain ⟨hle, hrest⟩ := hq
      obtain ⟨hf₁, hg₁⟩ := h.filled (hxs _ List.mem_cons_self).toValid hf hle
      obtain ⟨hf₂, hg₂⟩ := ih (fun x hx => hxs x (List.mem_cons_of_mem _ hx)) hf₁ hrest
      exact ⟨hf₂, by omega⟩

end Fill

theorem seq_top {p r : Nat} : (tree p).seq ⟨r, []⟩ = (tree p).start r := by
  show (tree p).start r + Shape.before p (r - 11) [] = _
  rw [Shape.before_nil, Nat.add_zero]

theorem seq_double {p i : Nat} : (tree p).seq ⟨13, [i]⟩ = 14 + p + i * (1 + p) := by
  show (tree p).start 13 + (1 + i * (1 + p * 1) + 0) = _
  rw [start_single, Nat.mul_one]
  omega

theorem seq_triple {p i : Nat} :
    (tree p).seq ⟨14, [i]⟩ = 15 + 2 * p + p * p + i * (1 + p + p * p) := by
  show (tree p).start 14 + (1 + i * (1 + p * (1 + p * 1)) + 0) = _
  rw [start_double, Nat.mul_one, show 1 + p * (1 + p) = 1 + p + p * p by ring]
  omega

theorem seq_triple₂ {p i j : Nat} : (tree p).seq ⟨14, [i, j]⟩
    = 16 + 2 * p + p * p + i * (1 + p + p * p) + j * (1 + p) := by
  show (tree p).start 14 + (1 + i * (1 + p * (1 + p * 1)) + (1 + j * (1 + p * 1) + 0)) = _
  rw [start_double, Nat.mul_one, show 1 + p * (1 + p) = 1 + p + p * p by ring]
  omega

theorem mul_cases (i m : Nat) : i = 0 ∧ i * m = 0 ∨ 1 ≤ i ∧ m ≤ i * m := by
  rcases Nat.eq_zero_or_pos i with h | h
  · exact Or.inl ⟨h, by rw [h, Nat.zero_mul]⟩
  · exact Or.inr ⟨h, Nat.le_mul_of_pos_left m h⟩

/-- How many of the three tables above a block are new, with what has been
passed of the tree by then. -/
theorem newTables_cases {p : Nat} (hp : 0 < p) (i j l : Nat) :
    ∃ z, (if i * (p * p) + (j * p + l) = 0 then 1 else 0) + (if j * p + l = 0 then 1 else 0)
        + (if l = 0 then 1 else 0) = z
      ∧ (l ≠ 0 ∧ z = 0 ∨ l = 0 ∧ 2 ≤ j * (1 + p) ∧ z = 1
        ∨ l = 0 ∧ j * (1 + p) = 0 ∧ 3 ≤ i * (1 + p + p * p) ∧ z = 2
        ∨ l = 0 ∧ j * (1 + p) = 0 ∧ i * (1 + p + p * p) = 0 ∧ z = 3) := by
  refine ⟨_, rfl, ?_⟩
  rcases Nat.eq_zero_or_pos l with rfl | hl
  · rcases Nat.eq_zero_or_pos j with rfl | hj
    · rcases Nat.eq_zero_or_pos i with rfl | hi
      · simp
      · have hpp := Nat.mul_pos hp hp
        have hle := Nat.le_mul_of_pos_left (1 + p + p * p) hi
        have hne : i * (p * p) ≠ 0 := (Nat.mul_pos hi hpp).ne'
        refine Or.inr (Or.inr (Or.inl ⟨rfl, Nat.zero_mul _, by omega, ?_⟩))
        simp [hne]
    · have hle := Nat.le_mul_of_pos_left (1 + p) hj
      have hne : j * p ≠ 0 := (Nat.mul_pos hj hp).ne'
      refine Or.inr (Or.inl ⟨rfl, by omega, ?_⟩)
      simp [hne]
  · refine Or.inl ⟨hl.ne', ?_⟩
    simp [hl.ne']

/-- The tables on the way to content block `n` are filled before it, and the
ones that are missing come just before it. -/
theorem tablePath_reaches {p : Nat} (hp : 0 < p) (n : Nat) :
    Reaches (tree p) (n + tables p n) (tablePath p n) (n + tables p (n + 1)) := by
  have hsucc := tables_succ hp n
  rcases Nat.lt_or_ge n 12 with h | h
  · rw [tablePath_direct h, @tables_direct p n (by omega), @tables_direct p (n + 1) (by omega)]
    rfl
  rcases Nat.lt_or_ge n (12 + p) with h' | h'
  · rw [tablePath_single h h', @tables_single p (n + 1) (by omega) (by omega)] at *
    rw [newTables, if_neg (by omega), if_pos h'] at hsucc
    refine ⟨?_, ?_⟩
    · rw [seq_top, start_tree (by omega)]
      omega
    · show max _ _ = _
      rw [seq_top, start_tree (by omega)]
      split at hsucc <;> omega
  rcases Nat.lt_or_ge n (12 + p + p * p) with h'' | h''
  · obtain ⟨a, rfl⟩ := Nat.exists_eq_add_of_le h'
    have ha : 12 + p + a - 12 - p = a := by omega
    have hnext : tables p (12 + p + a + 1) = 3 + a / p := tables_double (by omega)
    rw [newTables, if_neg (by omega), if_neg (by omega), if_pos h'', ha, hnext] at hsucc
    rw [tablePath_double h' h'', ha, hnext]
    have hdm := Nat.div_add_mod a p
    rw [Nat.mul_comm] at hdm
    have hmul : a / p * (1 + p) = a / p + a / p * p := by ring
    have hcases := mul_cases (a / p) p
    refine ⟨?_, ?_, ?_⟩
    · rw [seq_top, start_single]
      split at hsucc <;> split at hsucc <;> omega
    · rw [seq_top, start_single, seq_double, hmul]
      split at hsucc <;> split at hsucc <;> omega
    · show max _ _ = _
      rw [seq_top, start_single, seq_double, hmul]
      split at hsucc <;> split at hsucc <;> omega
  · obtain ⟨a, rfl⟩ := Nat.exists_eq_add_of_le h''
    have ha : 12 + p + p * p + a - 12 - p - p * p = a := by omega
    have hnext : tables p (12 + p + p * p + a + 1) = 5 + p + a / (p * p) + a / p := tables_triple a
    rw [newTables, if_neg (by omega), if_neg (by omega), if_neg (by omega), ha, hnext] at hsucc
    rw [tablePath_triple h'', ha, hnext]
    have hdm := Nat.div_add_mod a (p * p)
    have hdm' := Nat.div_add_mod (a % (p * p)) p
    have hl : a % p = a % (p * p) % p := (Nat.mod_mod_of_dvd a ⟨p, rfl⟩).symm
    rw [div_split hp a] at hsucc
    rw [div_split hp a]
    rw [hl] at hsucc
    generalize a / (p * p) = i at *
    generalize a % (p * p) = b at *
    generalize b / p = j at *
    generalize b % p = l at *
    rw [Nat.mul_comm] at hdm hdm'
    subst hdm'
    obtain ⟨z, hz, hlast⟩ := newTables_cases hp i j l
    rw [hdm] at hz
    rw [hz] at hsucc
    have e1 : i * (1 + p + p * p) = i + i * p + i * (p * p) := by ring
    have e2 : j * (1 + p) = j + j * p := by ring
    generalize he : i * (1 + p + p * p) = e at *
    generalize hg : j * (1 + p) = g at *
    have hsum : 12 + p + p * p + a + tables p (12 + p + p * p + a) + z
        = 17 + 2 * p + p * p + e + g + l := by omega
    have hend : 12 + p + p * p + a + (5 + p + i + (i * p + j))
        = 17 + 2 * p + p * p + e + g + l := by omega
    generalize 12 + p + p * p + a + tables p (12 + p + p * p + a) = q at *
    rw [hend]
    -- the goals are linear in these sums
    clear hdm hsucc e1 e2 hend hz h h' h'' ha hnext
    refine ⟨?_, ?_, ?_, ?_⟩
    · rw [seq_top, start_double]
      omega
    · rw [seq_top, start_double, seq_triple, he]
      omega
    · rw [seq_top, start_double, seq_triple, seq_triple₂, he, hg]
      omega
    · show max _ _ = _
      rw [seq_top, start_double, seq_triple, seq_triple₂, he, hg]
      omega

/-! ## `alloc_inode_block` -/

/-- The inode is the same but for its block pointers and its block count. -/
def SameFields (ino ino' : Mem) : Prop :=
  ∀ i, i < 28 ∨ 32 ≤ i ∧ i < 40 ∨ 100 ≤ i → ino' i = ino i

/-- Content block `k` has been put in place. It is a new block, which is empty,
and the inode has been saved with its block count raised. -/
structure Placed (p k : Nat) (f f' : File) : Prop where
  owned : Owned p f'
  took : ∃ new, Took p new f f'
  fields : SameFields f.ino f'.ino
  blocks : iBlocks f'.ino = max (iBlocks f.ino) (getBlockCount f.fs (add32 k 1))
  live : f'.at (leafPos p k) ≠ 0
  kept : ∀ x, (tree p).Valid x → x ≠ leafPos p k → f.at x ≠ 0 → f'.at x = f.at x
  leaf : ∀ x, (tree p).Valid x → ¬(tree p).Table x → x ≠ leafPos p k → f'.at x = f.at x
  filled : ∀ q q', Filled (tree p) (iBlock f.ino) (entry f.fs) q →
    Reaches (tree p) q (tablePath p k) q' → (tree p).seq (leafPos p k) ≤ q' →
      Filled (tree p) (iBlock f'.ino) (entry f'.fs) (max q' ((tree p).seq (leafPos p k) + 1))
        ∧ f'.got.length + q = f.got.length + q' + 1
  zero : ∀ i < f.fs.blockSz, blk f'.fs (f'.at (leafPos p k)) i = 0
  saved : Saved f'

/-- The volume is full now, which has been reported. Some blocks may have been
taken on the way, but no content block has been put in place. -/
structure OutOfSpace (p : Nat) (f f' : File) : Prop where
  owned : Owned p f'
  took : ∃ new, Took p new f f'
  head : SameHead f.ino f'.ino
  kept : Keeps p f f'
  leaf : ∀ x, (tree p).Valid x → ¬(tree p).Table x → f'.at x = f.at x
  full : Full f'.fs
  critical : f.fs.critical < f'.fs.critical

/-- Content block `n` has been added to the file. -/
structure Appended (p n : Nat) (f f' : File) : Prop where
  placed : Placed p n f f'
  dense : Dense p (n + 1) f'
  kept : Keeps p f f'
  length : f'.got.length + (n + tables p n) = f.got.length + (n + 1 + tables p (n + 1))

/-- The inode has been saved, with the block pointers it had. -/
structure Put (p : Nat) (f f' : File) : Prop where
  no : f'.no = f.no
  got : f'.got = f.got
  run : BitRun [] true {Ext2.home f.fs f.no} f.fs f'.fs
  pointers : ∀ x, (tree p).Valid x → f'.at x = f.at x
  owned : Owned p f'
  home : HomeKept f f'
  saved : Saved f'

section Append

variable {p n k q q' : Nat} {f f₁ f₂ f' : File} {r : Nat} {x : Pos} {new : List Nat}

/-- The block that `alloc_block` hands out belongs to nobody yet. -/
theorem Owned.handed (O : Owned p f) (ha : Handed f r f₁) :
    Owned p f₁ ∧ (∀ x, (tree p).Valid x → f₁.at x = f.at x) ∧ FileBlock f₁ r
      ∧ ∀ x, (tree p).Valid x → f₁.at x ≠ r := by
  have hmem := List.mem_singleton_self r
  have hfree := O.not_mem ha.run hmem ha.pos
  have hhome := (O.tables.handed_ne ha (Set.notMem_empty r)).1
  have hat : ∀ x, (tree p).Valid x → f₁.at x = f.at x :=
    O.at_run ha.run (fun _ _ => by rw [ha.ino]) fun x hx _ => hfree x hx.toValid
  refine ⟨O.run ha.run ha.no hat, hat, ⟨?_, ?_, ?_, ?_, ?_⟩, fun x hx => ?_⟩
  · exact (ha.run.format.inVol r).mpr ha.inVol
  · rw [ha.run.format.bookBlocks]
    exact ha.notBook
  · rw [ha.no, ha.run.format.home]
    exact fun h => hhome h.symm
  · rw [ha.run.format.capacity]
    exact (ha.run.flipped r hmem).1
  · rw [ha.run.bits r (ha.run.flipped r hmem).1, if_pos hmem]
  · rw [hat x hx]
    exact hfree x hx

theorem Handed.took (ha : Handed f r f₁) (O : Owned p f) : Took p [r] f f₁ := by
  obtain ⟨-, hat, -, -⟩ := O.handed ha
  have hhome := (O.tables.handed_ne ha (Set.notMem_empty r)).1
  exact ⟨ha.no, ha.got, fun x hx => Or.inl (hat x hx),
    ha.run.mono fun b hb => Or.inl (List.mem_singleton.mpr hb),
    HomeKept.of_run ha.run O.homed hhome ha.ino ha.no⟩

/-- Setting a pointer to one of the new blocks. -/
theorem Took.wire {P : Set Nat} (h : Took p new f f₁) (hw : Wired p P f₁ x r f') (hr : r ∈ new) :
    Took p new f f' := by
  have hrun := h.run.trans hw.run
  rw [List.append_nil] at hrun
  refine ⟨hw.no.trans h.no, hw.got.trans h.got, fun y hy => ?_, hrun.mono ?_,
    h.home.trans h.run.format h.no hw.home⟩
  · have heq : f'.at y = if y = x then r else f₁.at y := hw.relinked y hy
    rw [heq]
    split
    · exact Or.inr hr
    · exact h.pointer y hy
  · exact Set.union_subset Set.Subset.rfl h.own_subset

theorem Took.put (h : Took p new f f₁) (hp : Put p f₁ f') : Took p new f f' := by
  have hrun := h.run.trans hp.run
  rw [List.append_nil] at hrun
  refine ⟨hp.no.trans h.no, hp.got.trans h.got, fun y hy => ?_, hrun.mono ?_,
    h.home.trans h.run.format h.no hp.home⟩
  · rw [hp.pointers y hy]
    exact h.pointer y hy
  · rintro b (hb | hb)
    · exact hb
    · exact h.own_subset (Or.inl hb)

theorem iBlock_setIBlocks (ino : Mem) (v k : Nat) : iBlock (setIBlocks ino v) k = iBlock ino k :=
  rd32_wr32_of_disjoint (by omega)

theorem File.iBlock_raise (f : File) (v k : Nat) : iBlock (f.raise v).ino k = iBlock f.ino k := by
  unfold File.raise
  split
  · exact iBlock_setIBlocks ..
  · rfl

theorem File.raise_fields (f : File) (v : Nat) {i : Nat} (h : i < 28 ∨ 32 ≤ i) :
    (f.raise v).ino i = f.ino i := by
  unfold File.raise
  split
  · exact wr32_apply_of_ne (by omega)
  · rfl

theorem File.raise_eq (f : File) (v : Nat) : f.raise v = { f with ino := (f.raise v).ino } := by
  unfold File.raise
  split <;> rfl

/-- Saving the inode with other fields than its block pointers changed. -/
theorem Owned.put (O : Owned p f) {ino : Mem} (hsame : ∀ k < 15, iBlock ino k = iBlock f.ino k) :
    Put p f (File.save { f with ino := ino }).2 := by
  have hrun : BitRun [] true {home f.fs f.no} f.fs (File.save { f with ino := ino }).2.fs :=
    writeInode_run O.volume O.homed ino
  have hat : ∀ x, (tree p).Valid x → (File.save { f with ino := ino }).2.at x = f.at x :=
    O.at_run hrun hsame fun x hx h0 => (O.block x hx.toValid h0).notHome
  obtain ⟨hhome, hsaved⟩ := HomeKept.save O.volume O.homed ino
  exact ⟨rfl, rfl, hrun, hat, O.run hrun rfl hat, hhome, hsaved⟩

/-- Setting the pointer of a content block to a new block. -/
theorem Wired.owned (h : Wired p ∅ f (leafPos p n) r f') (O : Owned p f) (hb : FileBlock f r)
    (hfree : ∀ x, (tree p).Valid x → f.at x ≠ r) : Owned p f' ∧ FileBlock f' r :=
  have hb' := hb.run h.run h.no
  ⟨O.relinked h.relinked h.run h.no hb' hfree, hb'⟩

theorem RanOut.owned (h : RanOut f f') (O : Owned p f) : Owned p f' := by
  rw [h.2.2]
  exact O.run (BitRun.reportFull f.fs) rfl fun x hx => rfl

theorem RanOut.full (h : RanOut f f') : Full f'.fs := by
  rw [h.2.2]
  exact h.2.1.run (v := true) (BitRun.reportFull f.fs)

theorem RanOut.took (h : RanOut f f') : Took p [] f f' := by
  rw [h.2.2]
  exact ⟨rfl, (List.append_nil _).symm, fun _ _ => Or.inl rfl,
    (BitRun.reportFull f.fs).mono (Set.empty_subset _), ⟨fun hs => hs, fun _ _ _ => rfl⟩⟩

theorem RanOut.critical (h : RanOut f f') : f.fs.critical < f'.fs.critical := by
  rw [h.2.2]
  exact Nat.lt_succ_self _

theorem RanOut.outOfSpace (h : RanOut f f') (O : Owned p f) : OutOfSpace p f f' := by
  refine ⟨h.owned O, ⟨[], h.took⟩, ?_, ?_, ?_, h.full, h.critical⟩
  · rw [h.2.2]
    exact SameHead.refl _
  · rw [h.2.2]
    exact fun _ _ _ => rfl
  · rw [h.2.2]
    exact fun _ _ _ => rfl

theorem SameHead.fields {ino ino' : Mem} (h : SameHead ino ino') : SameFields ino ino' :=
  fun i hi => h i (by omega)

/-- The block of new content is none of those that hold the inode and its
tables. -/
theorem FileBlock.not_own (h : FileBlock f r) (hfree : ∀ x, (tree p).Valid x → f.at x ≠ r) :
    r ∉ own p f := by
  rintro (hr | ⟨x, hx, -, hr⟩)
  · exact h.notHome hr
  · exact hfree x hx.toValid hr

/-- A block that is in use keeps its bytes, unless it is a table or holds the
inode. -/
theorem Took.blk_eq (h : Took p new f f') (hbook : r ∉ bookBlocks f.fs) (ht : Taken f.fs r)
    (hown : r ∉ own p f) {i : Nat} (hi : i < f.fs.blockSz) : blk f'.fs r i = blk f.fs r i :=
  h.run.blk_eq hbook (fun hm => hm.elim (ht.not_mem h.run) hown) hi

/-- The end of a successful `alloc_inode_block`: the map has been updated, and
the inode is saved with its new block count. -/
theorem placed_of_wired (O : Owned p f) (hk : k < maxBlocks p) (ha : Handed f r f₁)
    (hchain : Chain p ∅ f₁ (tablePath p k) f₂) (hw : Wired p ∅ f₂ (leafPos p k) r f') :
    Placed p k f (f'.raise (getBlockCount f'.fs (add32 k 1))).save.2 := by
  have hp := O.tables.pos
  have hleaf := leafPos_valid hp hk
  have hpath := tablePath_table hp hk
  obtain ⟨O₁, hat₁, hb₁, hfree₁⟩ := O.handed ha
  have O₂ := hchain.owned hpath O₁
  obtain ⟨new, htook⟩ := hchain.took
  have hb₂ := hb₁.run htook.run htook.no
  obtain ⟨-, hfree₂⟩ := hchain.avoids hb₁.taken hfree₁
  obtain ⟨O₃, hb₃⟩ := hw.owned O₂ hb₂ hfree₂
  have hput : Put p f' (f'.raise (getBlockCount f'.fs (add32 k 1))).save.2 := by
    rw [f'.raise_eq]
    exact O₃.put fun j _ => f'.iBlock_raise _ j
  have hat₃ : ∀ y, (tree p).Valid y → f'.at y = if y = leafPos p k then r else f₂.at y :=
    hw.relinked
  have hT₃ := ((ha.took O).trans htook).wire hw (List.mem_append_left _ (List.mem_singleton_self r))
  have hT := hT₃.put hput
  have hhead : SameHead f.ino f'.ino := (ha.ino ▸ hchain.head).trans hw.head
  have hlive : (f'.raise (getBlockCount f'.fs (add32 k 1))).save.2.at (leafPos p k) = r := by
    rw [hput.pointers _ hleaf.1, hat₃ _ hleaf.1, if_pos rfl]
  refine ⟨hput.owned, ⟨_, hT⟩, fun i hi => ?_, ?_, hlive ▸ ha.pos, fun x hx hne h0 => ?_,
    fun x hx hnt hne => ?_, fun q q' hf hq hle => ?_, fun i hi => ?_, hput.saved⟩
  · exact (f'.raise_fields _ (by omega)).trans (hhead i (by omega))
  · show iBlocks (f'.raise _).ino = _
    rw [File.iBlocks_raise _ (getBlockCount_lt _ _), hhead.iBlocks,
      getBlockCount_congr hT₃.run.format.blockSz]
  · have h1 := hat₁ x hx
    rw [hput.pointers x hx, hat₃ x hx, if_neg hne, hchain.keeps x hx (by rwa [h1]), h1]
  · rw [hput.pointers x hx, hat₃ x hx, if_neg hne, hchain.leaf hpath hx hnt, hat₁ x hx]
  · obtain ⟨hF₂, hlen⟩ := hchain.filled hpath (filled_congr hf hat₁) hq
    refine ⟨filled_congr (hF₂.set hleaf.1 hle hw.relinked ha.pos) hput.pointers, ?_⟩
    rw [hput.got, hw.got]
    rw [ha.got, List.length_append, List.length_singleton] at hlen
    omega
  · -- only tables and the inode have been written since
    have hsz₁ := ha.run.format.blockSz
    have hsz₂ := htook.run.format.blockSz
    rw [hlive, hput.run.blk_eq hb₃.notBook (fun h => hb₃.notHome h)
        (by rwa [hw.run.format.blockSz, hsz₂, hsz₁]),
      hw.run.blk_eq hb₂.notBook (hb₂.not_own hfree₂) (by rwa [hsz₂, hsz₁]),
      htook.blk_eq hb₁.notBook hb₁.taken (hb₁.not_own hfree₁) (by rwa [hsz₁])]
    exact ha.zero i hi

/-- `alloc_inode_block` on an inode whose blocks are its own. -/
theorem allocInodeBlock_owned (O : Owned p f) (hk : k < maxBlocks p) :
    ((allocInodeBlock f k).1 = .success ∧ Placed p k f (allocInodeBlock f k).2)
      ∨ ((allocInodeBlock f k).1 = .noSpace ∧ OutOfSpace p f (allocInodeBlock f k).2
        ∧ ∀ q q', Filled (tree p) (iBlock f.ino) (entry f.fs) q →
          Reaches (tree p) q (tablePath p k) q' →
            (allocInodeBlock f k).2.got.length + q < f.got.length + q' + 1) := by
  have hp := O.tables.pos
  have hpath := tablePath_table hp hk
  rcases f.alloc_cases O.volume with hout | ha
  · -- there is no block for the content
    have heq : allocInodeBlock f k = (.noSpace, f.alloc.2) := if_pos hout.1
    have htook : Took p [] f f.alloc.2 := hout.took
    rw [heq]
    refine Or.inr ⟨rfl, hout.outOfSpace O, fun q q' _ hq => ?_⟩
    have hle := hq.le
    have hgot := congrArg List.length htook.got
    rw [List.append_nil] at hgot
    simp only [hgot]
    omega
  rw [allocInodeBlock_of_alloc ha.pos]
  generalize f.alloc.1 = r at *
  generalize f.alloc.2 = f₁ at *
  obtain ⟨O₁, hat₁, hb₁, hfree₁⟩ := O.handed ha
  have hcases := setRealBlock_cases O₁.tables hk ha.lt fun b _ => Set.notMem_empty b
  generalize setRealBlock f₁ k r = res at *
  obtain ⟨st, f₃⟩ := res
  rcases hcases with ⟨hst, f₂, hchain, hw⟩ | ⟨hst, xs, y, f₂, hxs, hchain, hy0, hout⟩
  · simp only at hst hw
    subst hst
    refine Or.inl ⟨?_, placed_of_wired O hk ha hchain hw⟩
    have hnum : Numbered f₃.fs f₃.no := hw.tables.homed.numbered
    exact writeInode_fst (by rwa [File.raise_fs, File.raise_no])
  · -- a table could not be allocated; the content block is lost
    simp only at hst hout
    subst hst
    have hpath' : ∀ x ∈ xs, (tree p).Table x := fun x hx =>
      hpath x (hxs.subset (List.mem_append_left _ hx))
    have O₂ := hchain.owned hpath' O₁
    obtain ⟨new, htook⟩ := hchain.took
    have hlast : ∀ x, f₃.at x = f₂.at x := fun x => by
      rw [hout.2.2]
      rfl
    have htook' := (ha.took O).trans htook
    refine Or.inr ⟨rfl, ⟨hout.owned O₂, ⟨_, htook'.trans hout.took⟩, ?_, ?_, ?_, hout.full,
      htook'.run.critical.trans_lt hout.critical⟩, fun q q' hf hq => ?_⟩
    · rw [hout.2.2, ← ha.ino]
      exact hchain.head
    · intro x hx h0
      have h1 := hat₁ x hx
      rw [hlast, hchain.keeps x hx (by rwa [h1]), h1]
    · intro x hx hnt
      rw [hlast, hchain.leaf hpath' hx hnt, hat₁ x hx]
    · -- the table at `y` has not been paid for
      obtain ⟨ys, hys⟩ := hxs
      rw [← hys, List.append_assoc] at hq
      obtain ⟨q₁, hq₁, hle, hrest⟩ := hq.append
      obtain ⟨hF₂, hlen⟩ := hchain.filled hpath' (filled_congr hf hat₁) hq₁
      have hy : (tree p).Valid y := (hpath y (hys ▸ by simp)).toValid
      have hnot := mt (hF₂ y hy).mpr (not_not.mpr hy0)
      have hq' := hrest.le
      have hgot : f₃.got.length = f₂.got.length := by
        rw [hout.2.2]
      rw [ha.got, List.length_append, List.length_singleton] at hlen
      simp only [hgot]
      omega

/-- `alloc_inode_block` at the end of a dense inode. -/
theorem allocInodeBlock_cases (D : Dense p n f) (hn : n < maxBlocks p)
    (hfit : sectors f.fs (n + 1) < 2 ^ 32) :
    ((allocInodeBlock f n).1 = .success ∧ Appended p n f (allocInodeBlock f n).2)
      ∨ ((allocInodeBlock f n).1 = .noSpace ∧ OutOfSpace p f (allocInodeBlock f n).2
        ∧ (allocInodeBlock f n).2.got.length + (n + tables p n)
          < f.got.length + (n + 1 + tables p (n + 1))) := by
  have hp := D.tables.pos
  have hsz : Sized f.fs := D.volume.blockSz
  have hleaf := leafPos_valid hp hn
  have hseq := seq_leafPos hp n
  have hreach := tablePath_reaches hp n
  rcases allocInodeBlock_owned D.toOwned hn with ⟨hs, P⟩ | ⟨hs, hout, hlen⟩
  · refine Or.inl ⟨hs, P, ⟨P.owned, ?_, ?_, ?_, hn⟩, fun x hx h0 => P.kept x hx ?_ h0, ?_⟩
    · have hF := (P.filled _ _ D.filled hreach (Nat.le_of_eq hseq)).1
      rwa [hseq, Nat.max_eq_right (by omega), show n + tables p (n + 1) + 1
        = n + 1 + tables p (n + 1) by omega] at hF
    · obtain ⟨new, htook⟩ := P.took
      have hadd : add32 n 1 = n + 1 :=
        add32_of_lt (Nat.lt_trans (Nat.lt_of_le_of_lt (Nat.le_add_right _ _)
          (sectors_half hsz hfit)) (by decide))
      rw [P.blocks, hadd, D.count, getBlockCount_eq hsz hfit,
        sectors_congr htook.run.format.blockSz]
      exact Nat.max_eq_right (Nat.le_of_lt (sectors_lt hsz (Nat.lt_succ_self n)))
    · obtain ⟨new, htook⟩ := P.took
      rw [sectors_congr htook.run.format.blockSz]
      exact hfit
    · rintro rfl
      have hmono := @tables_mono p (n + 1) hp n (Nat.le_succ n)
      have := (D.filled _ hleaf.1).mp h0
      omega
    · have := (P.filled _ _ D.filled hreach (Nat.le_of_eq hseq)).2
      omega
  · have := hlen _ _ D.filled hreach
    exact Or.inr ⟨hs, hout, by omega⟩

end Append

/-! ## Inodes without tables -/

section Direct

variable {p n : Nat} {f : File}

/-- An inode without tables has the blocks that it points to itself. -/
theorem at_direct (htab : ∀ r, 12 ≤ r → r < 15 → iBlock f.ino r = 0) :
    ∀ x, (tree p).Valid x → f.at x ≠ 0 → x = ⟨x.root, []⟩ ∧ x.root < 12 := by
  intro x hx h0
  have hroot : x.root < 12 := by
    by_contra hge
    exact h0 (node_of_root (htab _ (by omega) hx.root))
  have hdepth : x.path.length ≤ x.root - 11 := hx.depth
  have hpath : x.path = [] := List.eq_nil_of_length_eq_zero (by omega)
  exact ⟨by rw [← hpath], hroot⟩

theorem Owned.direct (hp : Ext2.ptrs f.fs = p) (V : Volume f.fs) (H : Homed f.fs f.no)
    (ht : Taken f.fs (home f.fs f.no)) (htab : ∀ r, 12 ≤ r → r < 15 → iBlock f.ino r = 0)
    (hblock : ∀ r < 12, iBlock f.ino r ≠ 0 → FileBlock f (iBlock f.ino r))
    (hinj : ∀ r < 12, ∀ q < 12, iBlock f.ino r ≠ 0 → iBlock f.ino r = iBlock f.ino q → r = q) :
    Owned p f := by
  refine ⟨hp, V, H, ht, fun x hx h0 => ?_, fun x y hx hy h0 heq => ?_⟩
  · obtain ⟨hxe, hlt⟩ := at_direct htab x hx h0
    rw [hxe] at h0 ⊢
    exact hblock _ hlt h0
  · change f.at x ≠ 0 at h0
    change f.at x = f.at y at heq
    obtain ⟨hxe, hxlt⟩ := at_direct htab x hx h0
    obtain ⟨hye, hylt⟩ := at_direct htab y hy (heq ▸ h0)
    rw [hxe] at h0
    rw [hxe, hye] at heq
    rw [hxe, hye, hinj _ hxlt _ hylt h0 heq]

/-- An inode whose first `n` pointers are in use, and no others, is dense. -/
theorem dense_direct (O : Owned p f) (hn : n ≤ 12)
    (hmap : ∀ r < 15, iBlock f.ino r ≠ 0 ↔ r < n) (hcount : iBlocks f.ino = sectors f.fs n) :
    Dense p n f := by
  have htab : ∀ r, 12 ≤ r → r < 15 → iBlock f.ino r = 0 := fun r hr hlt => by
    by_contra h0
    have := (hmap r hlt).mp h0
    omega
  refine ⟨O, fun x hx => ?_, hcount, ?_, hn.trans ?_⟩
  · have hstart := Shape.start_le_seq (tree p) x
    rw [tables_direct hn, Nat.add_zero]
    constructor
    · intro h0
      obtain ⟨hxe, hlt⟩ := at_direct htab x hx h0
      rw [hxe] at h0 ⊢
      have hseq : (tree p).seq ⟨x.root, []⟩ = x.root := by
        rw [Shape.seq, Shape.before_nil, start_tree (Nat.le_of_lt hlt)]
        rfl
      rw [hseq]
      exact (hmap _ hx.root).mp h0
    · intro hlt
      -- what comes before position `n` are roots
      have hroot : x.root < 12 := by
        by_contra hge
        have hmono := Shape.start_mono (tree p) (Nat.not_lt.mp hge)
        rw [start_tree (Nat.le_refl 12)] at hmono
        omega
      rw [start_tree (Nat.le_of_lt hroot)] at hstart
      have hdepth : x.path.length ≤ x.root - 11 := hx.depth
      have hpath : x.path = [] := List.eq_nil_of_length_eq_zero (by omega)
      rw [show x = ⟨x.root, []⟩ by rw [← hpath]]
      exact (hmap _ hx.root).mpr (by omega)
  · have hspb : f.fs.blockSz / 512 ≤ 128 :=
      Nat.div_le_of_le_mul O.volume.blockSz_le
    rw [sectors, tables_direct hn, Nat.add_zero]
    calc n * (f.fs.blockSz / 512) ≤ 12 * 128 := Nat.mul_le_mul hn hspb
      _ < 2 ^ 32 := by decide
  · unfold maxBlocks
    omega

/-- An inode without blocks is dense. -/
theorem dense_empty (hp : ptrs f.fs = p) (V : Volume f.fs) (H : Homed f.fs f.no)
    (ht : Taken f.fs (home f.fs f.no)) (h0 : iBlocks f.ino = 0)
    (hmap : ∀ k < 15, iBlock f.ino k = 0) : Dense p 0 f := by
  refine dense_direct (Owned.direct hp V H ht (fun r _ hr => hmap r hr)
    (fun r hr h => absurd (hmap r (by omega)) h) fun r hr _ _ h => absurd (hmap r (by omega)) h)
    (Nat.zero_le _) (fun r hr => iff_of_false (not_not.mpr (hmap r hr)) (Nat.not_lt_zero r)) ?_
  rw [h0, sectors, tables_direct (by omega), Nat.zero_mul]

end Direct

/-! ## Growing from nothing -/

/-- What holds after each call of a run that has reached index `m`. -/
structure GrownTo (p : Nat) (f : File) (m : Nat) (g : File) : Prop where
  dense : Dense p m g
  no : g.no = f.no
  blockSz : g.fs.blockSz = f.fs.blockSz
  got : g.got.length = f.got.length + (m + tables p m)
  total : (g.fs.total .block + (m + tables p m)) % 2 ^ 32 = f.fs.total .block
  disk : iBlocks (diskInode g.fs g.no) = iBlocks g.ino

theorem GrownTo.step {p m : Nat} {f g : File} (h : GrownTo p f m g) (hm : m < maxBlocks p)
    (hfit : sectors f.fs (m + 1) < 2 ^ 32) (hs : (allocInodeBlock g m).1 = .success) :
    GrownTo p f (m + 1) (allocInodeBlock g m).2 := by
  have happ : Appended p m g (allocInodeBlock g m).2 := by
    refine ((allocInodeBlock_cases h.dense hm ?_).resolve_right fun hh => ?_).2
    · rw [sectors_congr h.blockSz]
      exact hfit
    · rw [hs] at hh
      exact nomatch hh.1
  obtain ⟨new, htook⟩ := happ.placed.took
  have hgot := htook.got
  have hrun := htook.run
  have hlen := happ.length
  have hg := h.got
  have ht := h.total
  have ht' := hrun.total
  rw [if_pos rfl] at ht'
  rw [hgot, List.length_append] at hlen
  refine ⟨happ.dense, htook.no.trans h.no, hrun.format.blockSz.trans h.blockSz, ?_, ?_, ?_⟩
  · rw [hgot, List.length_append]
    omega
  · omega
  · have hsize := h.dense.homed.size
    rw [← hrun.format.inodeSz] at hsize
    exact rd32_congr (happ.placed.saved.mono (Nat.zero_le _) (by omega))

/-- **Block accounting is exact.** An inode that is grown from nothing by `n`
successful calls of `alloc_inode_block` has taken as many blocks as
`get_block_count` says; that count is in `i_blocks` on the device, and the free
block counter of the superblock has gone down by it. -/
theorem allocRun_count {f g : File} {n : Nat} (V : Volume f.fs) (H : Homed f.fs f.no)
    (ht : Taken f.fs (home f.fs f.no)) (h0 : iBlocks f.ino = 0)
    (hdisk : iBlocks (diskInode f.fs f.no) = 0) (hmap : ∀ k < 15, iBlock f.ino k = 0)
    (hn : n ≤ maxBlocks (ptrs f.fs)) (hfit : sectors f.fs n < 2 ^ 32) (hrun : AllocRun f 0 g n) :
    g.got.length = f.got.length + getBlockCount f.fs n / (f.fs.blockSz / 512)
      ∧ iBlocks (diskInode g.fs g.no) = getBlockCount f.fs n
      ∧ g.fs.total .block
        = sub32 (f.fs.total .block) (getBlockCount f.fs n / (f.fs.blockSz / 512)) := by
  have hsz : Sized f.fs := V.blockSz
  have hspb := hsz.geometry.spb
  have hinv : ∀ m g, AllocRun f 0 g m → m ≤ n → GrownTo (ptrs f.fs) f m g := by
    intro m g hr
    induction hr with
    | refl =>
        intro _
        have htotal := rd32_lt f.fs.sb (Kind.totalOff .block)
        refine ⟨dense_empty rfl V H ht h0 hmap, rfl, rfl, ?_, ?_, hdisk.trans h0.symm⟩
        · rw [tables_direct (by omega)]
          rfl
        · rw [tables_direct (by omega), Nat.add_zero]
          exact Nat.mod_eq_of_lt htotal
    | @step g m _ hs ih =>
        intro hle
        refine (ih (Nat.le_of_succ_le hle)).step (Nat.lt_of_lt_of_le hle hn) ?_ hs
        rcases Nat.eq_or_lt_of_le hle with heq | hlt
        · rwa [heq]
        · exact (sectors_lt hsz hlt).trans hfit
  have h := hinv n g hrun (Nat.le_refl n)
  have hcount : getBlockCount f.fs n = sectors f.fs n := getBlockCount_eq hsz hfit
  have hquot : getBlockCount f.fs n / (f.fs.blockSz / 512) = n + tables (ptrs f.fs) n := by
    rw [hcount, sectors]
    exact Nat.mul_div_cancel _ (by omega)
  have hhalf := sectors_half hsz hfit
  refine ⟨?_, ?_, ?_⟩
  · rw [hquot]
    exact h.got
  · rw [h.disk, h.dense.count, hcount]
    exact sectors_congr h.blockSz n
  · have htot := h.total
    have hlt := rd32_lt g.fs.sb (Kind.totalOff .block)
    change g.fs.total .block < _ at hlt
    rw [hquot, sub32]
    split <;> omega

/-- The first thirteen blocks of an empty inode take fourteen: the thirteenth
needs a table. -/
theorem allocRun_count_thirteen : ∃ g, AllocRun emptyFile 0 g 13 ∧ g.got.length = 14 := by
  have h4 : AllocRun emptyFile 0 _ 4 :=
    .step (.step (.step (.step .refl (by decide +kernel)) (by decide +kernel))
      (by decide +kernel)) (by decide +kernel)
  have h8 : AllocRun emptyFile 0 _ 8 :=
    .step (.step (.step (.step h4 (by decide +kernel)) (by decide +kernel))
      (by decide +kernel)) (by decide +kernel)
  have hrun : AllocRun emptyFile 0 _ 13 :=
    .step (.step (.step (.step (.step h8 (by decide +kernel)) (by decide +kernel))
      (by decide +kernel)) (by decide +kernel)) (by decide +kernel)
  have h := (allocRun_count freshFs_volume freshFs_homed (fun _ => by decide +kernel) rfl
    (by decide +kernel) (fun k _ => rfl) (by decide) (by decide +kernel) hrun).1
  have hcount : getBlockCount emptyFile.fs 13 / (emptyFile.fs.blockSz / 512) = 14 := by decide
  rw [hcount] at h
  exact ⟨_, hrun, h⟩

end Ext2

end Shitos
