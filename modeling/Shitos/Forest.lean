import Mathlib.Data.List.Nodup
import Mathlib.Data.List.Perm.Basic

/-!
# Forests

Ordered forests in first-child next-sibling form, with distinct labels. The
children of a label (`children`) describe a forest completely; the operations
are stated by what they do to them: a new last child (`children_insert`), and
the replacement of a node by a forest at the end of its siblings
(`children_pluck`), which removes a branch if the forest is empty and a single
node if it is the node's own children (`kidsOf`).

`Below next a b` says that `b` is reached from `a` by going to children.
-/

namespace Shitos

inductive Forest (α : Type) where
  | nil
  | cons (a : α) (kids rest : Forest α)

namespace Forest

variable {α : Type}

def labels : Forest α → List α
  | nil => []
  | cons a c r => a :: (labels c ++ labels r)

def roots : Forest α → List α
  | nil => []
  | cons a _ r => a :: roots r

def append : Forest α → Forest α → Forest α
  | nil, g => g
  | cons a c r, g => cons a c (append r g)

theorem left_subset_cons (a : α) (c r : Forest α) : labels c ⊆ labels (cons a c r) := fun _ hb =>
  List.mem_cons_of_mem _ (List.mem_append_left _ hb)

theorem right_subset_cons (a : α) (c r : Forest α) : labels r ⊆ labels (cons a c r) := fun _ hb =>
  List.mem_cons_of_mem _ (List.mem_append_right _ hb)

theorem roots_subset (f : Forest α) : roots f ⊆ labels f := by
  induction f with
  | nil => exact List.Subset.refl _
  | cons a c r _ ihr =>
      exact List.cons_subset_cons _ (List.Subset.trans ihr (List.subset_append_right _ _))

@[simp] theorem roots_append (f g : Forest α) : roots (append f g) = roots f ++ roots g := by
  induction f with
  | nil => rfl
  | cons a c r _ ihr => exact congrArg (a :: ·) ihr

@[simp] theorem labels_append (f g : Forest α) : labels (append f g) = labels f ++ labels g := by
  induction f with
  | nil => rfl
  | cons a c r _ ihr =>
      rw [append, labels, ihr, labels, List.cons_append, List.append_assoc]

/-- The labels of the parts of a forest with distinct labels. -/
theorem nodup_cons {a : α} {c r : Forest α} : (labels (cons a c r)).Nodup ↔
    (a ∉ labels c ∧ a ∉ labels r) ∧ (labels c).Nodup ∧ (labels r).Nodup
      ∧ ∀ b ∈ labels c, b ∉ labels r := by
  rw [labels, List.nodup_cons, List.mem_append, not_or, List.nodup_append']
  exact Iff.rfl

theorem append_nil_right (f : Forest α) : append f nil = f := by
  induction f with
  | nil => rfl
  | cons a c r _ ihr => rw [append, ihr]

theorem roots_nodup {f : Forest α} (hnodup : (labels f).Nodup) : (roots f).Nodup := by
  induction f with
  | nil => exact List.nodup_nil
  | cons x c r _ ihr =>
      obtain ⟨⟨-, hxr⟩, -, hr, -⟩ := nodup_cons.mp hnodup
      exact List.nodup_cons.mpr ⟨mt (@roots_subset _ r x) hxr, ihr hr⟩

section DecidableEq

variable [DecidableEq α]

/-- The children of `a`. -/
def children (a : α) : Forest α → List α
  | nil => []
  | cons b c r => if b = a then roots c else children a c ++ children a r

/-- What is below `a`. -/
def kidsOf (a : α) : Forest α → Forest α
  | nil => nil
  | cons b c r => if b = a then c else append (kidsOf a c) (kidsOf a r)

/-- The new leaf `n` as last child of `p`. -/
def insert (p n : α) : Forest α → Forest α
  | nil => nil
  | cons a c r =>
      cons a (if a = p then append c (cons n nil nil) else insert p n c) (insert p n r)

/-- The forest without its root `n`, and what is below it. -/
def eraseRoot (n : α) : Forest α → Forest α
  | nil => nil
  | cons a c r => if a = n then r else cons a c (eraseRoot n r)

/-- The node `n`, which is not a root, is taken out with all that is below it,
and `g` comes behind its siblings. -/
def pluck (n : α) (g : Forest α) : Forest α → Forest α
  | nil => nil
  | cons a c r =>
      if n ∈ roots c then cons a (append (eraseRoot n c) g) r
      else cons a (pluck n g c) (pluck n g r)

/-! ## Children -/

theorem children_of_notMem {a : α} {f : Forest α} (h : a ∉ labels f) : children a f = [] := by
  induction f with
  | nil => rfl
  | cons b c r ihc ihr =>
      rw [labels, List.mem_cons, List.mem_append, not_or, not_or] at h
      rw [children, if_neg (Ne.symm h.1), ihc h.2.1, ihr h.2.2, List.append_nil]

theorem kidsOf_of_notMem {a : α} {f : Forest α} (h : a ∉ labels f) : kidsOf a f = nil := by
  induction f with
  | nil => rfl
  | cons b c r ihc ihr =>
      rw [labels, List.mem_cons, List.mem_append, not_or, not_or] at h
      rw [kidsOf, if_neg (Ne.symm h.1), ihc h.2.1, ihr h.2.2, append]

theorem mem_children {a b : α} {f : Forest α} (h : b ∈ children a f) : a ∈ labels f := by
  by_contra ha
  rw [children_of_notMem ha] at h
  exact List.not_mem_nil h

theorem children_subset (a : α) (f : Forest α) : children a f ⊆ labels f := by
  induction f with
  | nil => exact List.Subset.refl _
  | cons b c r ihc ihr =>
      rw [children]
      by_cases hba : b = a
      · rw [if_pos hba]
        exact List.Subset.trans (roots_subset c) (left_subset_cons b c r)
      · rw [if_neg hba]
        refine List.append_subset.mpr ⟨?_, ?_⟩
        · exact List.Subset.trans ihc (left_subset_cons b c r)
        · exact List.Subset.trans ihr (right_subset_cons b c r)

/-- The children are the roots of what is below. -/
theorem roots_kidsOf {f : Forest α} (hnodup : (labels f).Nodup) (a : α) :
    roots (kidsOf a f) = children a f := by
  induction f with
  | nil => rfl
  | cons b c r ihc ihr =>
      obtain ⟨-, hc, hr, -⟩ := nodup_cons.mp hnodup
      rw [kidsOf, children]
      by_cases hba : b = a
      · rw [if_pos hba, if_pos hba]
      · rw [if_neg hba, if_neg hba, roots_append, ihc hc, ihr hr]

theorem kidsOf_subset (a : α) (f : Forest α) : labels (kidsOf a f) ⊆ labels f := by
  induction f with
  | nil => exact List.Subset.refl _
  | cons b c r ihc ihr =>
      rw [kidsOf]
      by_cases hba : b = a
      · rw [if_pos hba]
        exact left_subset_cons b c r
      · rw [if_neg hba, labels_append]
        refine List.append_subset.mpr ⟨?_, ?_⟩
        · exact List.Subset.trans ihc (left_subset_cons b c r)
        · exact List.Subset.trans ihr (right_subset_cons b c r)

/-- In the parts of a forest with distinct labels, a label has its children in
one part only. -/
theorem children_append_comm {c r : Forest α} (h : ∀ b ∈ labels c, b ∉ labels r) (a : α) :
    children a c ++ children a r = children a r ++ children a c := by
  by_cases ha : a ∈ labels c
  · rw [children_of_notMem (h a ha), List.append_nil, List.nil_append]
  · rw [children_of_notMem ha, List.append_nil, List.nil_append]

theorem children_append {f g : Forest α} (h : ∀ b ∈ labels f, b ∉ labels g) (a : α) :
    children a (append f g) = children a f ++ children a g := by
  induction f with
  | nil => rfl
  | cons b c r _ ihr =>
      have hr : ∀ x ∈ labels r, x ∉ labels g := fun x hx =>
        h x (List.mem_cons_of_mem _ (List.mem_append_right _ hx))
      rw [append, children, children]
      by_cases hba : b = a
      · rw [if_pos hba, if_pos hba,
          children_of_notMem (hba ▸ h b List.mem_cons_self), List.append_nil]
      · rw [if_neg hba, if_neg hba, ihr hr, List.append_assoc]

/-- Every label that is not a root is a child. -/
theorem exists_parent {f : Forest α} (hnodup : (labels f).Nodup) {b : α} (hb : b ∈ labels f)
    (hroot : b ∉ roots f) : ∃ a ∈ labels f, b ∈ children a f := by
  induction f with
  | nil => exact (List.not_mem_nil hb).elim
  | cons x c r ihc ihr =>
      obtain ⟨⟨hxc, hxr⟩, hc, hr, hcr⟩ := nodup_cons.mp hnodup
      rw [roots, List.mem_cons, not_or] at hroot
      have hb' : b ∈ labels c ++ labels r := (List.mem_cons.mp hb).resolve_left hroot.1
      rcases List.mem_append.mp hb' with hb' | hb'
      · by_cases hrc : b ∈ roots c
        · refine ⟨x, List.mem_cons_self, ?_⟩
          rw [children, if_pos rfl]
          exact hrc
        · obtain ⟨a, ha, hba⟩ := ihc hc hb' hrc
          refine ⟨a, List.mem_cons_of_mem _ (List.mem_append_left _ ha), ?_⟩
          rw [children, if_neg fun h : x = a => hxc (h ▸ ha)]
          exact List.mem_append_left _ hba
      · obtain ⟨a, ha, hba⟩ := ihr hr hb' hroot.2
        refine ⟨a, List.mem_cons_of_mem _ (List.mem_append_right _ ha), ?_⟩
        rw [children, if_neg fun h : x = a => hxr (h ▸ ha)]
        exact List.mem_append_right _ hba

/-- A child is not a root. -/
theorem children_not_root {f : Forest α} (hnodup : (labels f).Nodup) {a b : α}
    (h : b ∈ children a f) : b ∉ roots f := by
  induction f with
  | nil => exact (List.not_mem_nil h).elim
  | cons x c r ihc ihr =>
      obtain ⟨⟨hxc, hxr⟩, hc, hr, hcr⟩ := nodup_cons.mp hnodup
      rw [roots, List.mem_cons, not_or]
      have hbelow : b ∈ labels c ∧ b ∉ labels r ∨ b ∈ children a r := by
        rw [children] at h
        by_cases hxa : x = a
        · rw [if_pos hxa] at h
          have hbc := roots_subset c h
          exact .inl ⟨hbc, hcr b hbc⟩
        · rw [if_neg hxa] at h
          rcases List.mem_append.mp h with h | h
          · have hbc := children_subset a c h
            exact .inl ⟨hbc, hcr b hbc⟩
          · exact .inr h
      rcases hbelow with ⟨hbc, hbr⟩ | hbr
      · exact ⟨fun heq => hxc (heq ▸ hbc), mt (@roots_subset _ r b) hbr⟩
      · exact ⟨fun heq => hxr (heq ▸ children_subset a r hbr), ihr hr hbr⟩

/-- No label is the child of two. -/
theorem children_unique {f : Forest α} (hnodup : (labels f).Nodup) {a a' b : α}
    (h : b ∈ children a f) (h' : b ∈ children a' f) : a = a' := by
  induction f with
  | nil => exact (List.not_mem_nil h).elim
  | cons x c r ihc ihr =>
      obtain ⟨-, hc, hr, hcr⟩ := nodup_cons.mp hnodup
      rw [children] at h h'
      by_cases hxa : x = a
      · by_cases hxa' : x = a'
        · exact hxa.symm.trans hxa'
        · rw [if_pos hxa] at h
          rw [if_neg hxa'] at h'
          rcases List.mem_append.mp h' with h' | h'
          · exact absurd h (children_not_root hc h')
          · exact absurd (children_subset a' r h') (hcr b (roots_subset c h))
      · rw [if_neg hxa] at h
        by_cases hxa' : x = a'
        · rw [if_pos hxa'] at h'
          rcases List.mem_append.mp h with h | h
          · exact absurd h' (children_not_root hc h)
          · exact absurd (children_subset a r h) (hcr b (roots_subset c h'))
        · rw [if_neg hxa'] at h'
          rcases List.mem_append.mp h with h | h <;> rcases List.mem_append.mp h' with h' | h'
          · exact ihc hc h h'
          · exact absurd (children_subset a' r h') (hcr b (children_subset a c h))
          · exact absurd (children_subset a r h) (hcr b (children_subset a' c h'))
          · exact ihr hr h h'

theorem children_nodup {f : Forest α} (hnodup : (labels f).Nodup) (a : α) :
    (children a f).Nodup := by
  induction f with
  | nil => exact List.nodup_nil
  | cons x c r ihc ihr =>
      obtain ⟨-, hc, hr, hcr⟩ := nodup_cons.mp hnodup
      rw [children]
      by_cases hxa : x = a
      · rw [if_pos hxa]
        exact roots_nodup hc
      · rw [if_neg hxa]
        refine List.nodup_append'.mpr ⟨ihc hc, ihr hr, fun b hb hb' => ?_⟩
        exact hcr b (children_subset a c hb) (children_subset a r hb')

/-! ## The part below a label -/

theorem kidsOf_cons_left {x n : α} {c r : Forest α} (hnodup : (labels (cons x c r)).Nodup)
    (hn : n ∈ labels c) : kidsOf n (cons x c r) = kidsOf n c := by
  obtain ⟨⟨hxc, -⟩, -, -, hcr⟩ := nodup_cons.mp hnodup
  rw [kidsOf, if_neg fun h : x = n => hxc (h ▸ hn), kidsOf_of_notMem (hcr n hn), append_nil_right]

theorem kidsOf_cons_right {x n : α} {c r : Forest α} (hnodup : (labels (cons x c r)).Nodup)
    (hn : n ∈ labels r) : kidsOf n (cons x c r) = kidsOf n r := by
  obtain ⟨⟨-, hxr⟩, -, -, hcr⟩ := nodup_cons.mp hnodup
  rw [kidsOf, if_neg fun h : x = n => hxr (h ▸ hn), kidsOf_of_notMem fun h => hcr n h hn, append]

theorem children_cons_left {x a : α} {c r : Forest α} (hnodup : (labels (cons x c r)).Nodup)
    (ha : a ∈ labels c) : children a (cons x c r) = children a c := by
  obtain ⟨⟨hxc, -⟩, -, -, hcr⟩ := nodup_cons.mp hnodup
  rw [children, if_neg fun h : x = a => hxc (h ▸ ha), children_of_notMem (hcr a ha),
    List.append_nil]

theorem children_cons_right {x a : α} {c r : Forest α} (hnodup : (labels (cons x c r)).Nodup)
    (ha : a ∈ labels r) : children a (cons x c r) = children a r := by
  obtain ⟨⟨-, hxr⟩, -, -, hcr⟩ := nodup_cons.mp hnodup
  rw [children, if_neg fun h : x = a => hxr (h ▸ ha), children_of_notMem fun h => hcr a h ha,
    List.nil_append]

theorem kidsOf_nodup {f : Forest α} (hnodup : (labels f).Nodup) (a : α) :
    (labels (kidsOf a f)).Nodup := by
  induction f with
  | nil => exact List.nodup_nil
  | cons x c r ihc ihr =>
      obtain ⟨-, hc, hr, hcr⟩ := nodup_cons.mp hnodup
      rw [kidsOf]
      by_cases hxa : x = a
      · rw [if_pos hxa]
        exact hc
      · rw [if_neg hxa, labels_append]
        exact List.nodup_append'.mpr ⟨ihc hc, ihr hr, fun b hb hb' =>
          hcr b (kidsOf_subset a c hb) (kidsOf_subset a r hb')⟩

theorem notMem_kidsOf {f : Forest α} (hnodup : (labels f).Nodup) (a : α) :
    a ∉ labels (kidsOf a f) := by
  induction f with
  | nil => exact List.not_mem_nil
  | cons x c r ihc ihr =>
      obtain ⟨⟨hxc, -⟩, hc, hr, -⟩ := nodup_cons.mp hnodup
      rw [kidsOf]
      by_cases hxa : x = a
      · rw [if_pos hxa]
        exact hxa ▸ hxc
      · rw [if_neg hxa, labels_append]
        exact fun h => (List.mem_append.mp h).elim (ihc hc) (ihr hr)

theorem children_irrefl {f : Forest α} (hnodup : (labels f).Nodup) (a : α) :
    a ∉ children a f := by
  rw [← roots_kidsOf hnodup]
  exact mt (@roots_subset _ _ a) (notMem_kidsOf hnodup a)

theorem children_kidsOf {f : Forest α} (hnodup : (labels f).Nodup) {a b : α}
    (hb : b ∈ labels (kidsOf a f)) : children b f = children b (kidsOf a f) := by
  induction f with
  | nil => exact (List.not_mem_nil hb).elim
  | cons x c r ihc ihr =>
      obtain ⟨⟨hxc, hxr⟩, hc, hr, hcr⟩ := nodup_cons.mp hnodup
      by_cases hxa : x = a
      · rw [kidsOf, if_pos hxa] at hb ⊢
        exact children_cons_left hnodup hb
      · rw [kidsOf, if_neg hxa, labels_append] at hb
        have hparts : ∀ y ∈ labels (kidsOf a c), y ∉ labels (kidsOf a r) := fun y hy hy' =>
          hcr y (kidsOf_subset a c hy) (kidsOf_subset a r hy')
        rw [kidsOf, if_neg hxa, children_append hparts]
        rcases List.mem_append.mp hb with hb | hb
        · rw [children_cons_left hnodup (kidsOf_subset a c hb), ihc hc hb,
            children_of_notMem (hparts b hb), List.append_nil]
        · rw [children_cons_right hnodup (kidsOf_subset a r hb), ihr hr hb,
            children_of_notMem fun h => hparts b h hb, List.nil_append]

/-- `b` is `a` or is reached from it by going to children. -/
inductive Below (next : α → List α) (a : α) : α → Prop where
  | refl : Below next a a
  | step {b c : α} : Below next a b → c ∈ next b → Below next a c

theorem below_of_roots {f : Forest α} {a : α} : ∀ {g : Forest α}, (labels g).Nodup →
    (∀ b ∈ labels g, children b f = children b g) →
    (∀ b ∈ roots g, Below (children · f) a b) → ∀ b ∈ labels g, Below (children · f) a b := by
  intro g
  induction g with
  | nil => exact fun _ _ _ b hb => (List.not_mem_nil hb).elim
  | cons x c r ihc ihr =>
      intro hnodup hsub hroots b hb
      obtain ⟨-, hc, hr, -⟩ := nodup_cons.mp hnodup
      have hx := hroots x List.mem_cons_self
      have hchildren : children x f = roots c := by
        rw [hsub x List.mem_cons_self, children, if_pos rfl]
      have hmemc : ∀ y ∈ labels c, y ∈ labels (cons x c r) := fun y hy =>
        List.mem_cons_of_mem _ (List.mem_append_left _ hy)
      have hmemr : ∀ y ∈ labels r, y ∈ labels (cons x c r) := fun y hy =>
        List.mem_cons_of_mem _ (List.mem_append_right _ hy)
      rcases List.mem_cons.mp hb with rfl | hb
      · exact hx
      rcases List.mem_append.mp hb with hb | hb
      · refine ihc hc (fun y hy => ?_) (fun y hy => ?_) b hb
        · rw [hsub y (hmemc y hy), children_cons_left hnodup hy]
        · exact hx.step (hchildren ▸ hy)
      · refine ihr hr (fun y hy => ?_) (fun y hy => ?_) b hb
        · rw [hsub y (hmemr y hy), children_cons_right hnodup hy]
        · exact hroots y (List.mem_cons_of_mem _ hy)

/-- What is reached from a label. -/
theorem below_iff {f : Forest α} (hnodup : (labels f).Nodup) {a b : α} :
    Below (children · f) a b ↔ b = a ∨ b ∈ labels (kidsOf a f) := by
  constructor
  · intro h
    induction h with
    | refl => exact .inl rfl
    | @step b c _ hc ih =>
        refine .inr ?_
        rcases ih with rfl | hb
        · rw [← roots_kidsOf hnodup] at hc
          exact roots_subset _ hc
        · have hc' : c ∈ children b f := hc
          rw [children_kidsOf hnodup hb] at hc'
          exact children_subset _ _ hc'
  · rintro (rfl | hb)
    · exact .refl
    · refine below_of_roots (kidsOf_nodup hnodup a) (fun y hy => children_kidsOf hnodup hy)
        (fun y hy => ?_) b hb
      rw [roots_kidsOf hnodup] at hy
      exact Below.refl.step hy

/-! ## A new leaf -/

theorem roots_insert (p n : α) (f : Forest α) : roots (insert p n f) = roots f := by
  induction f with
  | nil => rfl
  | cons a c r _ ihr => exact congrArg (a :: ·) ihr

theorem insert_of_notMem {p n : α} {f : Forest α} (h : p ∉ labels f) : insert p n f = f := by
  induction f with
  | nil => rfl
  | cons a c r ihc ihr =>
      rw [labels, List.mem_cons, List.mem_append, not_or, not_or] at h
      rw [insert, if_neg (Ne.symm h.1), ihc h.2.1, ihr h.2.2]

theorem children_leaf (a n : α) : children a (cons n nil nil) = [] := by
  rw [children]
  by_cases h : n = a
  · rw [if_pos h, roots]
  · rw [if_neg h]
    rfl

theorem labels_insert {p n : α} {f : Forest α} (hnodup : (labels f).Nodup) (hp : p ∈ labels f) :
    (labels (insert p n f)).Perm (n :: labels f) := by
  induction f with
  | nil => exact (List.not_mem_nil hp).elim
  | cons a c r ihc ihr =>
      obtain ⟨⟨hac, har⟩, hc, hr, hcr⟩ := nodup_cons.mp hnodup
      rw [insert, labels, labels]
      refine List.Perm.trans ?_ (List.Perm.swap n a _)
      refine List.Perm.cons a ?_
      by_cases hap : a = p
      · rw [if_pos hap, insert_of_notMem (hap ▸ har), labels_append, labels, labels,
          List.append_nil, List.append_assoc, List.singleton_append]
        exact List.perm_middle
      · rw [if_neg hap]
        rcases List.mem_append.mp ((List.mem_cons.mp hp).resolve_left (Ne.symm hap)) with hp | hp
        · rw [insert_of_notMem (hcr p hp), ← List.cons_append]
          exact (ihc hc hp).append_right _
        · rw [insert_of_notMem fun h => hcr p h hp]
          exact ((ihr hr hp).append_left _).trans List.perm_middle

/-- Only the children of `p` change. -/
theorem children_insert {p n : α} {f : Forest α} (hnodup : (labels f).Nodup) (hn : n ∉ labels f)
    (a : α) : children a (insert p n f)
      = if a = p ∧ p ∈ labels f then children p f ++ [n] else children a f := by
  induction f with
  | nil => exact (if_neg fun h => List.not_mem_nil h.2).symm
  | cons x c r ihc ihr =>
      obtain ⟨⟨hxc, hxr⟩, hc, hr, hcr⟩ := nodup_cons.mp hnodup
      rw [labels, List.mem_cons, List.mem_append, not_or, not_or] at hn
      by_cases hxp : x = p
      · have hpc : p ∉ labels c := hxp ▸ hxc
        have hpr : p ∉ labels r := hxp ▸ hxr
        have hleaf : ∀ y ∈ labels c, y ∉ labels (cons n nil nil) := by
          intro y hy hyn
          rw [labels, labels, List.append_nil, List.mem_singleton] at hyn
          exact hn.2.1 (hyn ▸ hy)
        rw [insert, if_pos hxp, insert_of_notMem hpr, children]
        by_cases hxa : x = a
        · rw [if_pos hxa, if_pos ⟨hxa.symm.trans hxp, hxp ▸ List.mem_cons_self⟩, children,
            if_pos hxp, roots_append]
          rfl
        · rw [if_neg hxa, if_neg fun h => hxa (hxp.trans h.1.symm), children, if_neg hxa,
            children_append hleaf, children_leaf, List.append_nil]
      · have hmem : p ∈ labels (cons x c r) ↔ p ∈ labels c ∨ p ∈ labels r := by
          rw [labels, List.mem_cons, List.mem_append, or_iff_right (Ne.symm hxp)]
        rw [insert, if_neg hxp, children]
        by_cases hxa : x = a
        · rw [if_pos hxa, roots_insert, if_neg fun h => hxp (hxa.trans h.1), children, if_pos hxa]
        · rw [if_neg hxa, ihc hc hn.2.1, ihr hr hn.2.2, children, if_neg hxp, children, if_neg hxa]
          by_cases hap : a = p
          · subst hap
            by_cases hac : a ∈ labels c
            · rw [if_pos ⟨rfl, hac⟩, if_neg fun h => hcr a hac h.2, if_pos ⟨rfl, hmem.mpr (.inl hac)⟩,
                children_of_notMem (hcr a hac), List.append_nil, List.append_nil]
            · by_cases har : a ∈ labels r
              · rw [if_neg fun h => hac h.2, if_pos ⟨rfl, har⟩, if_pos ⟨rfl, hmem.mpr (.inr har)⟩,
                  List.append_assoc]
              · rw [if_neg fun h => hac h.2, if_neg fun h => har h.2,
                  if_neg fun h => (hmem.mp h.2).elim hac har]
          · rw [if_neg fun h => hap h.1, if_neg fun h => hap h.1, if_neg fun h => hap h.1]

/-! ## Taking a node out -/

theorem roots_eraseRoot (n : α) (f : Forest α) : roots (eraseRoot n f) = (roots f).erase n := by
  induction f with
  | nil => rfl
  | cons a c r _ ihr =>
      rw [eraseRoot, roots]
      by_cases han : a = n
      · rw [if_pos han, han, List.erase_cons_head]
      · rw [if_neg han, roots, ihr, List.erase_cons_tail (by simpa using han)]

theorem labels_eraseRoot {n : α} {f : Forest α} (hnodup : (labels f).Nodup) (hn : n ∈ roots f) :
    (labels f).Perm (n :: (labels (kidsOf n f) ++ labels (eraseRoot n f))) := by
  induction f with
  | nil => exact (List.not_mem_nil hn).elim
  | cons a c r _ ihr =>
      by_cases han : a = n
      · rw [kidsOf, if_pos han, eraseRoot, if_pos han, labels, han]
      · obtain ⟨-, hc, hr, hcr⟩ := nodup_cons.mp hnodup
        have hnr : n ∈ roots r := (List.mem_cons.mp hn).resolve_left (Ne.symm han)
        rw [kidsOf_cons_right hnodup (roots_subset r hnr), eraseRoot, if_neg han, labels, labels]
        have hrest := (ihr hr hnr).append_left (labels c)
        calc a :: (labels c ++ labels r)
            |>.Perm (a :: (labels c ++ n :: (labels (kidsOf n r) ++ labels (eraseRoot n r)))) :=
              hrest.cons a
          _ |>.Perm (a :: n :: (labels c ++ (labels (kidsOf n r) ++ labels (eraseRoot n r)))) :=
              (List.perm_middle).cons a
          _ |>.Perm (n :: a :: (labels c ++ (labels (kidsOf n r) ++ labels (eraseRoot n r)))) :=
              List.Perm.swap _ _ _
          _ |>.Perm (n :: (labels (kidsOf n r) ++ a :: (labels c ++ labels (eraseRoot n r)))) := by
              refine List.Perm.cons n ?_
              refine List.Perm.trans (List.Perm.cons a ?_) List.perm_middle.symm
              rw [← List.append_assoc, ← List.append_assoc]
              exact List.perm_append_comm.append_right _

theorem children_eraseRoot {n : α} {f : Forest α} (hnodup : (labels f).Nodup) (hn : n ∈ roots f)
    {a : α} (ha : a ≠ n) :
    children a f = children a (eraseRoot n f) ++ children a (kidsOf n f) := by
  induction f with
  | nil => exact (List.not_mem_nil hn).elim
  | cons x c r _ ihr =>
      obtain ⟨⟨hxc, hxr⟩, hc, hr, hcr⟩ := nodup_cons.mp hnodup
      by_cases hxn : x = n
      · rw [kidsOf, if_pos hxn, eraseRoot, if_pos hxn, children, if_neg (hxn ▸ ha.symm)]
        exact children_append_comm hcr a
      · have hnr : n ∈ roots r := (List.mem_cons.mp hn).resolve_left (Ne.symm hxn)
        rw [kidsOf_cons_right hnodup (roots_subset r hnr), eraseRoot, if_neg hxn, children,
          children]
        by_cases hxa : x = a
        · have hnot : a ∉ labels (kidsOf n r) := fun h => hxr (hxa ▸ kidsOf_subset n r h)
          rw [if_pos hxa, if_pos hxa, children_of_notMem hnot, List.append_nil]
        · rw [if_neg hxa, if_neg hxa, ihr hr hnr, List.append_assoc]

theorem roots_pluck (n : α) (g f : Forest α) : roots (pluck n g f) = roots f := by
  induction f with
  | nil => rfl
  | cons a c r _ ihr =>
      rw [pluck]
      by_cases hn : n ∈ roots c
      · rw [if_pos hn]
        rfl
      · rw [if_neg hn]
        exact congrArg (a :: ·) ihr

theorem pluck_of_notMem {n : α} {g f : Forest α} (h : n ∉ labels f) : pluck n g f = f := by
  induction f with
  | nil => rfl
  | cons a c r ihc ihr =>
      rw [labels, List.mem_cons, List.mem_append, not_or, not_or] at h
      rw [pluck, if_neg (mt (@roots_subset _ c n) h.2.1), ihc h.2.1, ihr h.2.2]

theorem labels_pluck {n : α} {g f : Forest α} (hnodup : (labels f).Nodup) (hn : n ∈ labels f)
    (hroot : n ∉ roots f) :
    (n :: (labels (kidsOf n f) ++ labels (pluck n g f))).Perm (labels f ++ labels g) := by
  induction f with
  | nil => exact (List.not_mem_nil hn).elim
  | cons a c r ihc ihr =>
      obtain ⟨⟨hac, har⟩, hc, hr, hcr⟩ := nodup_cons.mp hnodup
      rw [roots, List.mem_cons, not_or] at hroot
      -- the node `a` goes to the front on both sides
      have hfront : ∀ k l : List α, (n :: (k ++ a :: l)).Perm (a :: n :: (k ++ l)) := fun k l =>
        (List.perm_middle.cons n).trans (List.Perm.swap _ _ _)
      rcases List.mem_append.mp ((List.mem_cons.mp hn).resolve_left hroot.1) with hn | hn
      · rw [kidsOf_cons_left hnodup hn, pluck]
        by_cases hnc : n ∈ roots c
        · rw [if_pos hnc, labels, labels, labels_append, List.cons_append]
          refine (hfront _ _).trans (List.Perm.cons a ?_)
          have hsplit := labels_eraseRoot hc hnc
          calc n :: (labels (kidsOf n c) ++ (labels (eraseRoot n c) ++ labels g ++ labels r))
              |>.Perm
                (n :: (labels (kidsOf n c) ++ labels (eraseRoot n c)) ++ (labels g ++ labels r)) := by
                rw [List.cons_append, List.append_assoc, List.append_assoc]
            _ |>.Perm (labels c ++ (labels g ++ labels r)) := hsplit.symm.append_right _
            _ |>.Perm (labels c ++ labels r ++ labels g) := by
                rw [List.append_assoc]
                exact List.perm_append_comm.append_left _
        · rw [if_neg hnc, labels, labels, pluck_of_notMem (hcr n hn), List.cons_append]
          refine (hfront _ _).trans (List.Perm.cons a ?_)
          rw [← List.append_assoc, ← List.cons_append]
          refine ((ihc hc hn hnc).append_right _).trans ?_
          rw [List.append_assoc, List.append_assoc]
          exact List.perm_append_comm.append_left _
      · have hnc : n ∉ labels c := fun h => hcr n h hn
        rw [kidsOf_cons_right hnodup hn, pluck, if_neg (mt (@roots_subset _ c n) hnc), labels,
          labels, pluck_of_notMem hnc, List.cons_append]
        refine (hfront _ _).trans (List.Perm.cons a ?_)
        rw [List.append_assoc]
        refine List.Perm.trans ?_ ((ihr hr hn hroot.2).append_left _)
        refine List.Perm.trans (List.Perm.cons n ?_) List.perm_middle.symm
        rw [← List.append_assoc, ← List.append_assoc]
        exact List.perm_append_comm.append_right _

/-- A single node is taken out. -/
theorem labels_pluck_kids {n : α} {f : Forest α} (hnodup : (labels f).Nodup) (hn : n ∈ labels f)
    (hroot : n ∉ roots f) : (n :: labels (pluck n (kidsOf n f) f)).Perm (labels f) := by
  have hperm := labels_pluck (g := kidsOf n f) hnodup hn hroot
  refine (List.perm_append_left_iff (labels (kidsOf n f))).mp ?_
  exact List.perm_middle.trans (hperm.trans List.perm_append_comm)

/-- Only the children of the node above `n` change. -/
theorem children_pluck {n : α} {g f : Forest α} (hnodup : (labels f).Nodup) (hn : n ∈ labels f)
    (hroot : n ∉ roots f) (hg : labels g ⊆ labels (kidsOf n f)) {a : α} (ha : a ≠ n)
    (hsame : children a g = children a (kidsOf n f)) :
    children a (pluck n g f)
      = if n ∈ children a f then (children a f).erase n ++ roots g else children a f := by
  induction f with
  | nil => exact (List.not_mem_nil hn).elim
  | cons x c r ihc ihr =>
      obtain ⟨⟨hxc, hxr⟩, hc, hr, hcr⟩ := nodup_cons.mp hnodup
      rw [roots, List.mem_cons, not_or] at hroot
      rcases List.mem_append.mp ((List.mem_cons.mp hn).resolve_left hroot.1) with hn | hn
      · rw [kidsOf_cons_left hnodup hn] at hg hsame
        have hnr : n ∉ children a r := fun h => hcr n hn (children_subset a r h)
        rw [pluck]
        by_cases hnc : n ∈ roots c
        · have hnot : n ∉ children a c := fun h => children_not_root hc h hnc
          have hdisj : ∀ y ∈ labels (eraseRoot n c), y ∉ labels g := by
            intro y hy hyg
            have hperm := (labels_eraseRoot hc hnc).nodup_iff.mp hc
            rw [List.nodup_cons, List.nodup_append'] at hperm
            exact hperm.2.2.2 (hg hyg) hy
          rw [if_pos hnc, children, children]
          by_cases hxa : x = a
          · rw [if_pos hxa, if_pos hxa, if_pos hnc, roots_append, roots_eraseRoot]
          · rw [if_neg hxa, if_neg hxa, if_neg fun h => (List.mem_append.mp h).elim hnot hnr,
              children_append hdisj, hsame, ← children_eraseRoot hc hnc ha]
        · rw [if_neg hnc, pluck_of_notMem (hcr n hn), children, children]
          by_cases hxa : x = a
          · rw [if_pos hxa, if_pos hxa, if_neg hnc, roots_pluck]
          · rw [if_neg hxa, if_neg hxa, ihc hc hn hnc hg hsame]
            by_cases hnc' : n ∈ children a c
            · have har : a ∉ labels r := hcr a (mem_children hnc')
              rw [if_pos hnc', if_pos (List.mem_append_left _ hnc'), children_of_notMem har,
                List.append_nil, List.append_nil]
            · rw [if_neg hnc', if_neg fun h => (List.mem_append.mp h).elim hnc' hnr]
      · have hnc : n ∉ labels c := fun h => hcr n h hn
        rw [kidsOf_cons_right hnodup hn] at hg hsame
        have hncc : n ∉ children a c := fun h => hnc (children_subset a c h)
        rw [pluck, if_neg (mt (@roots_subset _ c n) hnc), pluck_of_notMem hnc, children, children]
        by_cases hxa : x = a
        · rw [if_pos hxa, if_pos hxa, if_neg (mt (@roots_subset _ c n) hnc)]
        · rw [if_neg hxa, if_neg hxa, ihr hr hn hroot.2 hg hsame]
          by_cases hnr : n ∈ children a r
          · have hac : a ∉ labels c := fun h => hcr a h (mem_children hnr)
            rw [if_pos hnr, if_pos (List.mem_append_right _ hnr), children_of_notMem hac,
              List.nil_append, List.nil_append]
          · rw [if_neg hnr, if_neg fun h => (List.mem_append.mp h).elim hncc hnr]

end DecidableEq

end Forest

end Shitos
