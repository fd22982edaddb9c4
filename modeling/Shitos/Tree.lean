import Shitos.DList
import Shitos.Forest

/-!
# Trees

`tree_t` and `tree_node_t`, whose children are lists of the kernel's own list
type. A tree in memory is a forest of at most one tree (`Inv`): the children
list of each node has the node's children as values, the parents point back,
and `sz` counts the nodes. Inserting, removing a node and removing a branch
are the operations of `Forest`; the list operations under them follow the
sequences of `DList.Spec`.
-/

namespace Shitos

namespace Trees

open DList (Store Spec Models)
open Forest (labels roots children kidsOf pluck Below)

/-! ## The operations -/

/-- A `tree_t` and the fields of all `tree_node_t`, with the lists. -/
structure Tree where
  lists : Store
  value : Nat → Nat
  children : Nat → Option Nat
  parent : Nat → Option Nat
  sz : Nat
  root : Option Nat

/-- The loop of `tree_node_count_children`. -/
def countLoop (count : Nat → Option Nat) : Nat → List Nat → Option Nat
  | out, [] => some out
  | out, child :: rest => (count child).bind fun c => countLoop count (out + c) rest

/-- The loop of `tree_node_find`; `some none` is its NULL. -/
def findLoop (find : Nat → Option (Option Nat)) : List Nat → Option (Option Nat)
  | [] => some none
  | child :: rest =>
      (find child).bind fun found =>
        match found with
        | none => findLoop find rest
        | some found => some (some found)

/-- The loop of `tree_node_free`. -/
def freeLoop (free : Nat → Option (List Nat)) : List Nat → Option (List Nat)
  | [] => some []
  | child :: rest => (free child).bind fun l => (freeLoop free rest).map (l ++ ·)

namespace Tree

variable (t : Tree)

/-- The values of `list_foreach(child, list)`. -/
def foreachChild (n list : Nat) : Option (List Nat) :=
  (t.lists.listForeach n list).map (List.map t.lists.value)

/-- `tree_create`. -/
def treeCreate : Tree := { t with sz := 0, root := none }

/-- `tree_node_create`, with the addresses it gets. -/
def treeNodeCreate (out list item : Nat) : Tree :=
  { t with
    lists := t.lists.listCreate list
    value := Function.update t.value out item
    children := Function.update t.children out (some list)
    parent := Function.update t.parent out none }

/-- `tree_set_root`; the assertion fails if there is a root. -/
def treeSetRoot (out list item : Nat) : Option Tree :=
  if t.root = none then some { t.treeNodeCreate out list item with root := some out, sz := 1 }
  else none

/-- `tree_insert_node`; `k` is the list node. -/
def treeInsertNode (parent node k : Nat) : Option Tree :=
  (t.children parent).bind fun list =>
    (t.lists.listPushItem list k node).map fun lists =>
      { t with lists := lists, parent := Function.update t.parent node (some parent), sz := t.sz + 1 }

def treeInsertItem (parent out list k item : Nat) : Option Tree :=
  (t.treeNodeCreate out list item).treeInsertNode parent out k

/-- `list_delete(parent->children, list_find_eq(parent->children, node))`. -/
def deleteChild (n parent node : Nat) : Option Tree :=
  (t.children parent).bind fun list =>
    (t.lists.listFindEq n list node).bind fun found =>
      found.map fun k => { t with lists := t.lists.listDeleteNode list k }

/-- The parents of the children are reassigned. -/
def adopt (n list parent : Nat) : Option Tree :=
  (t.foreachChild n list).map fun kids =>
    { t with parent := kids.foldl (fun f child => Function.update f child (some parent)) t.parent }

/-- `list_merge(parent->children, node->children)`. -/
def mergeChildren (n parent node : Nat) : Option Tree :=
  (t.children parent).bind fun dst =>
    (t.children node).bind fun src =>
      (t.lists.listMerge n dst src).map fun lists => { t with lists := lists }

/-- `tree_remove`: the node it returns, and the tree. -/
def treeRemove (n node : Nat) : Option (Option Nat × Tree) :=
  match t.parent node with
  -- cannot move children into a nonexistent node
  | none => some (none, t)
  | some parent =>
      let t := { t with sz := t.sz - 1 }
      (t.deleteChild n parent node).bind fun t =>
        (t.children node).bind fun list =>
          (t.adopt n list parent).bind fun t =>
            (t.mergeChildren n parent node).map fun t => (some parent, t)

/-- `tree_node_count_children`, for a depth of at most the first argument. -/
def treeNodeCountChildren : Nat → Nat → Option Nat
  | 0, _ => none
  | n + 1, node =>
      match t.children node with
      | none => some 0
      | some list =>
          (t.foreachChild n list).bind fun kids =>
            countLoop (treeNodeCountChildren n) (t.lists.sz list) kids

/-- `tree_node_free`: the nodes it frees, in order. -/
def treeNodeFree : Nat → Nat → Option (List Nat)
  | 0, _ => none
  | n + 1, node =>
      (t.children node).bind fun list =>
        (t.foreachChild n list).bind fun kids =>
          (freeLoop (treeNodeFree n) kids).map (· ++ [node])

/-- `tree_node_find`. -/
def treeNodeFind (item : Nat) (compar : Nat → Nat → Int) : Nat → Nat → Option (Option Nat)
  | 0, _ => none
  | n + 1, node =>
      if compar (t.value node) item = 0 then some (some node)
      else
        (t.children node).bind fun list =>
          (t.foreachChild n list).bind fun kids =>
            findLoop (treeNodeFind item compar n) kids

/-- `tree_find`; the root is not NULL. -/
def treeFind (n item : Nat) (compar : Nat → Nat → Int) : Option (Option Nat) :=
  t.root.bind fun root => t.treeNodeFind item compar n root

/-- `tree_remove_parent`: the nodes that are freed, and the tree. -/
def treeRemoveParent (n parent node : Nat) : Option (List Nat × Tree) :=
  (t.treeNodeCountChildren n node).bind fun count =>
    let t := { t with sz := t.sz - (count + 1) }
    (t.deleteChild n parent node).bind fun t =>
      (t.treeNodeFree n node).map fun freed => (freed, t)

def treeRemoveBranch (n node : Nat) : Option (List Nat × Tree) :=
  match t.parent node with
  | none =>
      if t.root = some node then
        let t := { t with sz := 0, root := none }
        (t.treeNodeFree n node).map fun freed => (freed, t)
      else some ([], t)
  | some parent => t.treeRemoveParent n parent node

end Tree

/-! ## What the memory holds -/

namespace Tree

/-- The children of a node, as its list has them. -/
def kids (t : Tree) (a : Nat) : List Nat :=
  match t.children a with
  | none => []
  | some l => (walk t.lists.next (t.lists.sz l) (t.lists.head l)).map t.lists.value

/-- The nodes of the tree. -/
def Has (t : Tree) (a : Nat) : Prop := ∃ r, t.root = some r ∧ Below t.kids r a

end Tree

/-- The nodes of the forest `f` have their children in their lists. -/
structure Holds (t : Tree) (s : Spec) (f : Forest Nat) : Prop where
  models : Models t.lists s
  nodup : (labels f).Nodup
  kids : ∀ a ∈ labels f, ∃ l xs, t.children a = some l ∧ s.lists l = some xs
    ∧ xs.map Prod.snd = children a f

/-- The tree is the forest `f`, and there are no other lists. -/
structure Inv (t : Tree) (s : Spec) (f : Forest Nat) : Prop extends Holds t s f where
  root : roots f = t.root.toList
  top : ∀ a ∈ roots f, t.parent a = none
  sz : t.sz = (labels f).length
  parent : ∀ a b, b ∈ children a f → t.parent b = some a
  distinct : ∀ a ∈ labels f, ∀ b ∈ labels f, t.children a = t.children b → a = b
  owned : ∀ l xs, s.lists l = some xs → ∃ a ∈ labels f, t.children a = some l

section Inv

variable {t : Tree} {s : Spec} {f : Forest Nat}

theorem Holds.kids_eq (H : Holds t s f) {a : Nat} (ha : a ∈ labels f) : t.kids a = children a f := by
  obtain ⟨l, xs, hl, hxs, hvalues⟩ := H.kids a ha
  have hwell := H.models.wellLinked hxs
  rw [Tree.kids, hl, ← hvalues, ← hwell.values]
  exact congrArg _ (hwell.forward _ (Nat.le_refl _))

theorem Holds.below_iff (H : Holds t s f) {a b : Nat} (ha : a ∈ labels f) :
    Below t.kids a b ↔ b = a ∨ b ∈ labels (kidsOf a f) := by
  rw [← Forest.below_iff H.nodup]
  constructor
  · intro h
    have hmem : Below (children · f) a b ∧ b ∈ labels f := by
      induction h with
      | refl => exact ⟨.refl, ha⟩
      | @step b c _ hc ih =>
          rw [H.kids_eq ih.2] at hc
          exact ⟨ih.1.step hc, Forest.children_subset b f hc⟩
    exact hmem.1
  · intro h
    have hmem : Below t.kids a b ∧ b ∈ labels f := by
      induction h with
      | refl => exact ⟨.refl, ha⟩
      | @step b c _ hc ih =>
          refine ⟨ih.1.step ?_, Forest.children_subset b f hc⟩
          rw [H.kids_eq ih.2]
          exact hc
    exact hmem.1

/-- A forest with at most one root. -/
theorem Inv.shape (I : Inv t s f) :
    f = .nil ∧ t.root = none ∨ ∃ r c, f = .cons r c .nil ∧ t.root = some r := by
  have hroot := I.root
  cases f with
  | nil =>
      cases h : t.root with
      | none => exact .inl ⟨rfl, rfl⟩
      | some r =>
          rw [h] at hroot
          cases hroot
  | cons r c rest =>
      cases h : t.root with
      | none =>
          rw [h] at hroot
          cases hroot
      | some r' =>
          rw [h] at hroot
          cases rest with
          | nil =>
              cases hroot
              exact .inr ⟨r, c, rfl, rfl⟩
          | cons x c' rest => cases hroot

theorem Inv.has_iff (I : Inv t s f) {b : Nat} : t.Has b ↔ b ∈ labels f := by
  rcases I.shape with ⟨rfl, hroot⟩ | ⟨r, c, rfl, hroot⟩
  · constructor
    · rintro ⟨r, hr, -⟩
      rw [hroot] at hr
      cases hr
    · exact fun h => (List.not_mem_nil h).elim
  · have hr : r ∈ labels (.cons r c .nil) := List.mem_cons_self
    have hlabels : b ∈ labels (.cons r c .nil) ↔ b = r ∨ b ∈ labels (kidsOf r (.cons r c .nil)) := by
      rw [kidsOf, if_pos rfl, labels, labels, List.append_nil, List.mem_cons]
    rw [hlabels, ← I.below_iff hr]
    constructor
    · rintro ⟨r', hr', hb⟩
      rw [hroot] at hr'
      cases hr'
      exact hb
    · exact fun hb => ⟨r, hroot, hb⟩

end Inv

/-! ## Walking the tree -/

section Walk

variable {t : Tree} {s : Spec} {f : Forest Nat}

/-- The children of a node, by the loop. -/
theorem Holds.foreachChild (H : Holds t s f) {a n : Nat} (ha : a ∈ labels f)
    (hn : (children a f).length ≤ n) : ∃ l, t.children a = some l
      ∧ t.foreachChild n l = some (children a f) ∧ t.lists.sz l = (children a f).length := by
  obtain ⟨l, xs, hl, hxs, hvalues⟩ := H.kids a ha
  have hwell := H.models.wellLinked hxs
  have hlen : (children a f).length = xs.length := by rw [← hvalues, List.length_map]
  have hnodes : (DList.nodes xs).length = xs.length := List.length_map _
  refine ⟨l, hl, ?_, hwell.sz.trans hlen.symm⟩
  rw [Tree.foreachChild, (H.models.shape l xs hxs).foreach (by rw [hnodes, ← hlen]; exact hn),
    Option.map_some, hwell.values, hvalues]

/-- A part of the forest. -/
structure Part (f g : Forest Nat) : Prop where
  nodup : (labels g).Nodup
  subset : labels g ⊆ labels f
  children : ∀ a ∈ labels g, children a f = children a g

theorem Part.kids {x : Nat} {c r : Forest Nat} (h : Part f (.cons x c r)) :
    Part f c ∧ Part f r ∧ x ∈ labels f ∧ Forest.children x f = roots c := by
  obtain ⟨-, hc, hr, -⟩ := Forest.nodup_cons.mp h.nodup
  have hmemc : ∀ y ∈ labels c, y ∈ labels (.cons x c r) := fun y hy =>
    List.mem_cons_of_mem _ (List.mem_append_left _ hy)
  have hmemr : ∀ y ∈ labels r, y ∈ labels (.cons x c r) := fun y hy =>
    List.mem_cons_of_mem _ (List.mem_append_right _ hy)
  refine ⟨⟨hc, fun y hy => h.subset (hmemc y hy), fun y hy => ?_⟩,
    ⟨hr, fun y hy => h.subset (hmemr y hy), fun y hy => ?_⟩, h.subset List.mem_cons_self, ?_⟩
  · rw [h.children y (hmemc y hy), Forest.children_cons_left h.nodup hy]
  · rw [h.children y (hmemr y hy), Forest.children_cons_right h.nodup hy]
  · rw [h.children x List.mem_cons_self, Forest.children, if_pos rfl]

theorem roots_length_le (g : Forest Nat) : (roots g).length ≤ (labels g).length := by
  induction g with
  | nil => exact Nat.le_refl _
  | cons x c r _ ihr =>
      rw [roots, labels, List.length_cons, List.length_cons, List.length_append]
      omega

/-- The children of a node are the roots of the part below it. -/
theorem Holds.foreachRoots (H : Holds t s f) {a n : Nat} {c : Forest Nat} (ha : a ∈ labels f)
    (hkids : children a f = roots c) (hn : (labels c).length ≤ n) :
    ∃ l, t.children a = some l ∧ t.foreachChild n l = some (roots c)
      ∧ t.lists.sz l = (roots c).length := by
  rw [← hkids]
  refine H.foreachChild ha ?_
  rw [hkids]
  exact Nat.le_trans (roots_length_le c) hn

/-- The part below a node, with the node. -/
theorem Holds.part (H : Holds t s f) (a : Nat) : Part f (kidsOf a f) :=
  ⟨Forest.kidsOf_nodup H.nodup a, Forest.kidsOf_subset a f,
    fun _ hb => Forest.children_kidsOf H.nodup hb⟩

/-- The loop of the count over the roots of a part. -/
theorem Holds.countLoop (H : Holds t s f) : ∀ (g : Forest Nat), Part f g → ∀ n out : Nat,
    (labels g).length ≤ n → countLoop (t.treeNodeCountChildren n) (out + (roots g).length) (roots g)
      = some (out + (labels g).length) := by
  intro g
  induction g with
  | nil => exact fun _ n out _ => rfl
  | cons x c r ihc ihr =>
      intro hpart n out hn
      obtain ⟨hc, hr, hx, hkids⟩ := hpart.kids
      have hlen : (labels (.cons x c r)).length = (labels c).length + (labels r).length + 1 := by
        rw [labels, List.length_cons, List.length_append]
      rw [hlen] at hn ⊢
      obtain ⟨n, rfl⟩ := Nat.exists_eq_succ_of_ne_zero (Nat.ne_of_gt (Nat.zero_lt_of_lt hn))
      obtain ⟨l, hl, hloop, hsz⟩ := H.foreachRoots (n := n) hx hkids (by omega)
      have hcount : t.treeNodeCountChildren (n + 1) x = some (labels c).length := by
        have hsub := ihc hc n 0 (by omega)
        rw [Nat.zero_add, Nat.zero_add] at hsub
        simp only [Tree.treeNodeCountChildren, hl, hloop, Option.bind_some, hsz, hsub]
      have hrest := ihr hr (n + 1) (out + (labels c).length + 1) (by omega)
      rw [roots, Trees.countLoop, hcount, Option.bind_some, List.length_cons]
      rw [show out + ((roots r).length + 1) + (labels c).length
        = out + (labels c).length + 1 + (roots r).length by omega, hrest]
      congr 1
      omega

/-- The count of a node of the tree. -/
theorem Holds.countChildren (H : Holds t s f) {a n : Nat} (ha : a ∈ labels f)
    (hn : (labels (kidsOf a f)).length < n) :
    t.treeNodeCountChildren n a = some (labels (kidsOf a f)).length := by
  obtain ⟨n, rfl⟩ := Nat.exists_eq_succ_of_ne_zero (Nat.ne_of_gt (Nat.zero_lt_of_lt hn))
  have hkids := Forest.roots_kidsOf H.nodup a
  obtain ⟨l, hl, hloop, hsz⟩ := H.foreachRoots (n := n) ha hkids.symm (by omega)
  have hsub := H.countLoop _ (H.part a) n 0 (by omega)
  rw [Nat.zero_add, Nat.zero_add] at hsub
  simp only [Tree.treeNodeCountChildren, hl, hloop, Option.bind_some, hsz, hsub]

/-- The loop of the search goes through the labels in order. -/
theorem Holds.findLoop (H : Holds t s f) (item : Nat) (compar : Nat → Nat → Int) :
    ∀ (g : Forest Nat), Part f g → ∀ n : Nat, (labels g).length ≤ n →
      findLoop (t.treeNodeFind item compar n) (roots g)
        = some ((labels g).find? fun a => compar (t.value a) item = 0) := by
  intro g
  induction g with
  | nil => exact fun _ n _ => rfl
  | cons x c r ihc ihr =>
      intro hpart n hn
      obtain ⟨hc, hr, hx, hkids⟩ := hpart.kids
      rw [labels, List.length_cons, List.length_append] at hn
      obtain ⟨n, rfl⟩ := Nat.exists_eq_succ_of_ne_zero (Nat.ne_of_gt (Nat.zero_lt_of_lt hn))
      obtain ⟨l, hl, hloop, -⟩ := H.foreachRoots (n := n) hx hkids (by omega)
      have hrest := ihr hr (n + 1) (by omega)
      rw [roots, Trees.findLoop, labels, List.find?_cons]
      by_cases hmatch : compar (t.value x) item = 0
      · rw [Tree.treeNodeFind, if_pos hmatch, decide_eq_true hmatch]
        rfl
      · rw [Tree.treeNodeFind, if_neg hmatch, decide_eq_false hmatch, hl, Option.bind_some, hloop,
          Option.bind_some, ihc hc n (by omega), Option.bind_some, List.find?_append, hrest]
        cases (labels c).find? fun a => compar (t.value a) item = 0 with
        | none => rfl
        | some b => rfl

/-- The loop of the deallocation frees each label once. -/
theorem Holds.freeLoop (H : Holds t s f) : ∀ (g : Forest Nat), Part f g → ∀ n : Nat,
    (labels g).length ≤ n →
    ∃ freed, freeLoop (t.treeNodeFree n) (roots g) = some freed ∧ freed.Perm (labels g) := by
  intro g
  induction g with
  | nil => exact fun _ n _ => ⟨[], rfl, .refl _⟩
  | cons x c r ihc ihr =>
      intro hpart n hn
      obtain ⟨hc, hr, hx, hkids⟩ := hpart.kids
      rw [labels, List.length_cons, List.length_append] at hn
      obtain ⟨n, rfl⟩ := Nat.exists_eq_succ_of_ne_zero (Nat.ne_of_gt (Nat.zero_lt_of_lt hn))
      obtain ⟨l, hl, hloop, -⟩ := H.foreachRoots (n := n) hx hkids (by omega)
      obtain ⟨freedc, hfreec, hpermc⟩ := ihc hc n (by omega)
      obtain ⟨freedr, hfreer, hpermr⟩ := ihr hr (n + 1) (by omega)
      refine ⟨freedc ++ [x] ++ freedr, ?_, ?_⟩
      · rw [roots, Trees.freeLoop, Tree.treeNodeFree, hl, Option.bind_some, hloop, Option.bind_some,
          hfreec, Option.map_some, Option.bind_some, hfreer, Option.map_some]
      · rw [labels, ← List.cons_append]
        refine List.Perm.append ?_ hpermr
        exact (List.perm_append_singleton x freedc).trans (hpermc.cons x)

theorem Holds.nodeFree (H : Holds t s f) {a n : Nat} (ha : a ∈ labels f)
    (hn : (labels (kidsOf a f)).length < n) :
    ∃ freed, t.treeNodeFree n a = some freed ∧ freed.Perm (a :: labels (kidsOf a f)) := by
  obtain ⟨n, rfl⟩ := Nat.exists_eq_succ_of_ne_zero (Nat.ne_of_gt (Nat.zero_lt_of_lt hn))
  have hkids := Forest.roots_kidsOf H.nodup a
  obtain ⟨l, hl, hloop, -⟩ := H.foreachRoots (n := n) ha hkids.symm (by omega)
  obtain ⟨freed, hfree, hperm⟩ := H.freeLoop _ (H.part a) n (by omega)
  refine ⟨freed ++ [a], ?_, (List.perm_append_singleton a freed).trans (hperm.cons a)⟩
  rw [Tree.treeNodeFree, hl, Option.bind_some, hloop, Option.bind_some, hfree, Option.map_some]

end Walk

/-! ## Inserting -/

section Insert

variable {t : Tree} {s : Spec} {f : Forest Nat}

/-- The list of a node of the tree is that of no other. -/
theorem Inv.list_ne (I : Inv t s f) {a b l m : Nat} (ha : a ∈ labels f) (hb : b ∈ labels f)
    (hab : a ≠ b) (hl : t.children a = some l) (hm : t.children b = some m) : l ≠ m := by
  rintro rfl
  exact hab (I.distinct a ha b hb (hl.trans hm.symm))

/-- A root in an empty tree. -/
theorem Inv.setRoot (I : Inv t s f) (hroot : t.root = none) (out list item : Nat) :
    ∃ t' s', t.treeSetRoot out list item = some t' ∧ Inv t' s' (.cons out .nil .nil) := by
  rcases I.shape with ⟨rfl, -⟩ | ⟨r, c, -, hr⟩
  · have hnone : ∀ l xs, s.lists l ≠ some xs := fun l xs hl => by
      obtain ⟨a, ha, -⟩ := I.owned l xs hl
      exact List.not_mem_nil ha
    have hself : ∀ a ∈ labels (.cons out .nil .nil), a = out := fun a ha => List.mem_singleton.mp ha
    refine ⟨_, s.setList list [], if_pos hroot, ⟨I.models.create list, List.nodup_singleton out,
      fun a ha => ?_⟩, rfl, fun a ha => ?_, rfl, fun a b hb => ?_, fun a ha b hb _ => ?_,
      fun l xs hl => ?_⟩
    · obtain rfl := hself a ha
      refine ⟨list, [], Function.update_self _ _ _, Function.update_self _ _ _, ?_⟩
      exact (Forest.children_leaf a a).symm
    · obtain rfl := hself a ha
      exact Function.update_self _ _ _
    · rw [Forest.children_leaf] at hb
      exact (List.not_mem_nil hb).elim
    · exact (hself a ha).trans (hself b hb).symm
    · refine ⟨out, List.mem_cons_self, ?_⟩
      rcases DList.lists_update hl with ⟨rfl, -⟩ | ⟨-, hl⟩
      · exact Function.update_self _ _ _
      · exact absurd hl (hnone l xs)
  · rw [hroot] at hr
    cases hr

/-- A new last child. -/
theorem Inv.insertItem (I : Inv t s f) {p out list k : Nat} (item : Nat) (hp : p ∈ labels f)
    (hout : out ∉ labels f) (hlist : s.lists list = none) (hk : s.Unused k) :
    ∃ t' s', t.treeInsertItem p out list k item = some t' ∧ Inv t' s' (Forest.insert p out f) := by
  obtain ⟨pl, xs, hpl, hxs, hvalues⟩ := I.kids p hp
  have hpout : p ≠ out := fun h => hout (h ▸ hp)
  have hne : list ≠ pl := by
    rintro rfl
    rw [hlist] at hxs
    cases hxs
  -- the list operations
  have M₁ := I.models.create list
  have hxs₁ : (s.setList list []).lists pl = some xs :=
    (Function.update_of_ne hne.symm _ _).trans hxs
  have hk₁ : (s.setList list []).Unused k := fun l ys hl => by
    rcases DList.lists_update hl with ⟨-, rfl⟩ | ⟨-, hl⟩
    · exact List.not_mem_nil
    · exact hk l ys hl
  have M₂ := M₁.nodeify out hk₁
  have hpush := (M₂.shape pl xs hxs₁).push k
  have hxs₂ : ((s.setList list []).detach k out).lists pl = some (xs ++ []) :=
    hxs₁.trans (congrArg some (List.append_nil xs).symm)
  have M₃ := M₂.putIn hxs₂ (Function.update_self _ _ _)
  have hmem : ∀ a, a ∈ labels (Forest.insert p out f) ↔ a = out ∨ a ∈ labels f := fun a => by
    rw [(Forest.labels_insert I.nodup hp).mem_iff, List.mem_cons]
  have hchildren : ∀ a, children a (Forest.insert p out f)
      = if a = p then children p f ++ [out] else children a f := fun a => by
    rw [Forest.children_insert I.nodup hout]
    by_cases ha : a = p
    · rw [if_pos ⟨ha, hp⟩, if_pos ha]
    · rw [if_neg fun h => ha h.1, if_neg ha]
  have hold : ∀ a ∈ labels f, Function.update t.children out (some list) a = t.children a :=
    fun a ha => Function.update_of_ne (fun h : a = out => hout (h ▸ ha)) _ _
  refine ⟨{ t.treeNodeCreate out list item with
      lists := ((t.lists.listCreate list).listNodeify k out).putIn pl (DList.nodes xs) k []
      parent := Function.update (Function.update t.parent out none) out (some p)
      sz := t.sz + 1 }, _, ?_, ⟨M₃, ?_, fun a ha => ?_⟩, ?_, fun a ha => ?_, ?_, fun a b hb => ?_,
    fun a ha b hb heq => ?_, fun l ys hl => ?_⟩
  · rw [Tree.treeInsertItem, Tree.treeInsertNode,
      show (t.treeNodeCreate out list item).children p = some pl from (hold p hp).trans hpl,
      Option.bind_some]
    exact congrArg (Option.map _) hpush
  · rw [(Forest.labels_insert I.nodup hp).nodup_iff]
    exact List.nodup_cons.mpr ⟨hout, I.nodup⟩
  · rw [hchildren]
    rcases (hmem a).mp ha with rfl | ha'
    · refine ⟨list, [], Function.update_self _ _ _, ?_, ?_⟩
      · exact (Function.update_of_ne hne _ _).trans (Function.update_self _ _ _)
      · rw [if_neg hpout.symm, Forest.children_of_notMem hout, List.map_nil]
    · by_cases hap : a = p
      · subst hap
        refine ⟨pl, xs ++ [(k, out)], (hold a ha').trans hpl, Function.update_self _ _ _, ?_⟩
        rw [if_pos rfl, List.map_append, hvalues, List.map_singleton]
      · obtain ⟨l, ys, hl, hys, hvals⟩ := I.kids a ha'
        have hlpl := I.list_ne ha' hp hap hl hpl
        have hll : l ≠ list := by
          rintro rfl
          rw [hlist] at hys
          cases hys
        refine ⟨l, ys, (hold a ha').trans hl, ?_, ?_⟩
        · exact (Function.update_of_ne hlpl _ _).trans ((Function.update_of_ne hll _ _).trans hys)
        · rw [if_neg hap, hvals]
  · rw [Forest.roots_insert]
    exact I.root
  · rw [Forest.roots_insert] at ha
    have hne : a ≠ out := fun h => hout (h ▸ Forest.roots_subset f ha)
    exact (Function.update_of_ne hne _ _).trans ((Function.update_of_ne hne _ _).trans (I.top a ha))
  · rw [(Forest.labels_insert I.nodup hp).length_eq, List.length_cons, ← I.sz]
  · rw [hchildren] at hb
    by_cases hbo : b = out
    · subst hbo
      refine (Function.update_self _ _ _).trans (congrArg some ?_)
      by_cases hap : a = p
      · exact hap.symm
      · rw [if_neg hap] at hb
        exact absurd (Forest.children_subset a f hb) hout
    · refine (Function.update_of_ne hbo _ _).trans ((Function.update_of_ne hbo _ _).trans ?_)
      refine I.parent a b ?_
      by_cases hap : a = p
      · rw [if_pos hap] at hb
        rcases List.mem_append.mp hb with hb | hb
        · exact hap ▸ hb
        · exact absurd (List.mem_singleton.mp hb) hbo
      · rw [if_neg hap] at hb
        exact hb
  · have hfresh : ∀ c ∈ labels f, t.children c ≠ some list := fun c hc h => by
      obtain ⟨l, ys, hl, hys, -⟩ := I.kids c hc
      rw [h] at hl
      cases hl
      rw [hlist] at hys
      cases hys
    have hnew : Function.update t.children out (some list) out = some list :=
      Function.update_self _ _ _
    replace heq : Function.update t.children out (some list) a
      = Function.update t.children out (some list) b := heq
    rcases (hmem a).mp ha with rfl | ha' <;> rcases (hmem b).mp hb with rfl | hb'
    · rfl
    · rw [hnew, hold b hb'] at heq
      exact absurd heq.symm (hfresh b hb')
    · rw [hnew, hold a ha'] at heq
      exact absurd heq (hfresh a ha')
    · rw [hold a ha', hold b hb'] at heq
      exact I.distinct a ha' b hb' heq
  · rcases DList.lists_update hl with ⟨rfl, -⟩ | ⟨-, hl⟩
    · exact ⟨p, (hmem p).mpr (.inr hp), (hold p hp).trans hpl⟩
    · rcases DList.lists_update hl with ⟨rfl, -⟩ | ⟨-, hl⟩
      · exact ⟨out, (hmem out).mpr (.inl rfl), Function.update_self _ _ _⟩
      · obtain ⟨a, ha, hal⟩ := I.owned l ys hl
        exact ⟨a, (hmem a).mpr (.inr ha), (hold a ha).trans hal⟩

end Insert

/-! ## Removing -/

section Remove

variable {t : Tree} {s : Spec} {f : Forest Nat}

theorem Holds.congr (H : Holds t s f) (t' : Tree) (hlists : t'.lists = t.lists)
    (hchildren : t'.children = t.children) : Holds t' s f :=
  ⟨hlists ▸ H.models, H.nodup, hchildren ▸ H.kids⟩

theorem children_length_le (hnodup : (labels f).Nodup) (a : Nat) :
    (children a f).length ≤ (labels f).length :=
  (Forest.children_nodup hnodup a).length_le_of_subset (Forest.children_subset a f)

/-- A child is found in the list of its parent and taken out. -/
theorem Holds.deleteChild (H : Holds t s f) {p x n : Nat} (hx : x ∈ children p f)
    (hn : (labels f).length ≤ n) :
    ∃ pl k ys zs w', t.children p = some pl ∧ s.lists pl = some (ys ++ (k, x) :: zs)
      ∧ t.deleteChild n p x = some { t with lists := w' }
      ∧ Models w' ((s.detach k x).setList pl (ys ++ zs))
      ∧ (ys ++ zs).map Prod.snd = (children p f).erase x := by
  obtain ⟨pl, xs, hpl, hxs, hvalues⟩ := H.kids p (Forest.mem_children hx)
  have hlen : xs.length ≤ n := by
    rw [← List.length_map (f := Prod.snd), hvalues]
    exact (children_length_le H.nodup p).trans hn
  obtain ⟨k, ys, zs, rfl, hfind⟩ := H.models.findEq hxs hlen (hvalues.symm ▸ hx)
  obtain ⟨hdelete, M⟩ := H.models.takeOut hxs
  refine ⟨pl, k, ys, zs, _, hpl, hxs, ?_, M, ?_⟩
  · rw [Tree.deleteChild, hpl, Option.bind_some, hfind, Option.bind_some, Option.map_some, hdelete]
  · have hnodup := Forest.children_nodup H.nodup p
    rw [← hvalues, List.map_append, List.map_cons] at hnodup
    rw [← hvalues, List.map_append, List.map_append, List.map_cons]
    have hnot : x ∉ ys.map Prod.snd := fun h =>
      List.disjoint_of_nodup_append hnodup h List.mem_cons_self
    rw [List.erase_append_right _ hnot, List.erase_cons_head]

/-- The parents after the loop over the children. -/
theorem foldl_update_apply (v : Option Nat) (b : Nat) : ∀ (kids : List Nat) (g : Nat → Option Nat),
    kids.foldl (fun f child => Function.update f child v) g b = if b ∈ kids then v else g b := by
  intro kids
  induction kids with
  | nil => exact fun g => (if_neg List.not_mem_nil).symm
  | cons c kids ih =>
      intro g
      rw [List.foldl_cons, ih]
      by_cases hb : b ∈ kids
      · rw [if_pos hb, if_pos (List.mem_cons_of_mem _ hb)]
      · rw [if_neg hb]
        by_cases hbc : b = c
        · rw [if_pos (hbc ▸ List.mem_cons_self), hbc, Function.update_self]
        · rw [Function.update_of_ne hbc,
            if_neg fun h => hb ((List.mem_cons.mp h).resolve_left hbc)]

/-- A node with a parent is in its list. -/
theorem Inv.mem_children (I : Inv t s f) {p x : Nat} (hx : x ∈ labels f)
    (hparent : t.parent x = some p) : x ∉ roots f ∧ x ∈ children p f := by
  have hroot : x ∉ roots f := fun h => by
    rw [I.top x h] at hparent
    cases hparent
  obtain ⟨a, -, ha⟩ := Forest.exists_parent I.nodup hx hroot
  have hap := I.parent a x ha
  rw [hparent] at hap
  cases hap
  exact ⟨hroot, ha⟩

/-- A node is removed, and its children go to the end of its siblings. -/
theorem Inv.remove (I : Inv t s f) {p x n : Nat} (hx : x ∈ labels f)
    (hparent : t.parent x = some p) (hn : t.sz ≤ n) :
    ∃ t' s', t.treeRemove n x = some (some p, t') ∧ Inv t' s' (pluck x (kidsOf x f) f) := by
  obtain ⟨hroot, hchild⟩ := I.mem_children hx hparent
  rw [I.sz] at hn
  have hp := Forest.mem_children hchild
  have hpx : p ≠ x := fun h => Forest.children_irrefl I.nodup x (h ▸ hchild)
  -- the list operations
  have H₁ := I.toHolds.congr { t with sz := t.sz - 1 } rfl rfl
  obtain ⟨pl, k, ys, zs, w₁, hpl, hxs, hdelete, M₁, hvalues⟩ := H₁.deleteChild hchild hn
  obtain ⟨xl, us, hxl, hus, hkids⟩ := I.kids x hx
  replace hpl : t.children p = some pl := hpl
  have hne : pl ≠ xl := I.list_ne hp hx hpx hpl hxl
  have hus₁ : ((s.detach k x).setList pl (ys ++ zs)).lists xl = some us :=
    (Function.update_of_ne hne.symm _ _).trans hus
  have hlen : us.length ≤ n := by
    rw [← List.length_map (f := Prod.snd), hkids]
    exact (children_length_le I.nodup x).trans hn
  have hforeach := M₁.foreach hus₁ hlen
  obtain ⟨w₂, hmerge, M₂⟩ := M₁.merge hne (Function.update_self _ _ _) hus₁ hlen
  -- the forest
  have hperm := Forest.labels_pluck_kids I.nodup hx hroot
  have hmem : ∀ a, a ∈ labels (pluck x (kidsOf x f) f) ↔ a ≠ x ∧ a ∈ labels f := fun a => by
    have hnodup := hperm.nodup_iff.mpr I.nodup
    rw [← hperm.mem_iff, List.mem_cons]
    constructor
    · rintro h
      have hax : a ≠ x := fun heq => (List.nodup_cons.mp hnodup).1 (heq ▸ h)
      exact ⟨hax, .inr h⟩
    · exact fun h => h.2.resolve_left h.1
  have hchildren : ∀ a, a ≠ x → children a (pluck x (kidsOf x f) f)
      = if a = p then (children p f).erase x ++ children x f else children a f := fun a ha => by
    rw [Forest.children_pluck I.nodup hx hroot (List.Subset.refl _) ha rfl,
      Forest.roots_kidsOf I.nodup]
    by_cases hap : a = p
    · rw [if_pos hap, hap, if_pos hchild]
    · rw [if_neg hap, if_neg fun h => hap (Forest.children_unique I.nodup h hchild)]
  have hlists : ∀ l, l ≠ pl → l ≠ xl → Function.update (Function.update
      ((s.detach k x).setList pl (ys ++ zs)).lists pl (some (ys ++ zs ++ us))) xl none l
      = s.lists l := fun l hlp hlx => by
    rw [Function.update_of_ne hlx, Function.update_of_ne hlp]
    exact Function.update_of_ne hlp _ _
  refine ⟨{ t with
      lists := w₂
      parent := (children x f).foldl (fun f child => Function.update f child (some p)) t.parent
      sz := t.sz - 1 }, _, ?_, ⟨M₂, ?_, fun a ha => ?_⟩, ?_, fun a ha => ?_, ?_, fun a b hb => ?_,
    fun a ha b hb => ?_, fun l ms hl => ?_⟩
  · rw [Tree.treeRemove, hparent]
    simp only [hdelete, Option.bind_some, hxl, Tree.adopt, Tree.foreachChild, hforeach,
      Option.map_some, hkids, Tree.mergeChildren, hpl, hmerge]
  · exact (List.nodup_cons.mp (hperm.nodup_iff.mpr I.nodup)).2
  · obtain ⟨hax, ha⟩ := (hmem a).mp ha
    rw [hchildren a hax]
    by_cases hap : a = p
    · subst hap
      refine ⟨pl, ys ++ zs ++ us, hpl, ?_, ?_⟩
      · exact (Function.update_of_ne hne _ _).trans (Function.update_self _ _ _)
      · rw [if_pos rfl, List.map_append, hvalues, hkids]
    · obtain ⟨l, ms, hl, hms, hvals⟩ := I.kids a ha
      refine ⟨l, ms, hl, ?_, ?_⟩
      · exact (hlists l (I.list_ne ha hp hap hl hpl) (I.list_ne ha hx hax hl hxl)).trans hms
      · rw [if_neg hap, hvals]
  · rw [Forest.roots_pluck]
    exact I.root
  · rw [Forest.roots_pluck] at ha
    have hnot : a ∉ children x f := fun h => Forest.children_not_root I.nodup h ha
    exact (foldl_update_apply _ _ _ _).trans ((if_neg hnot).trans (I.top a ha))
  · have hlen := hperm.length_eq
    rw [List.length_cons, ← I.sz] at hlen
    exact Nat.sub_eq_of_eq_add hlen.symm
  · obtain ⟨hax, -⟩ := (hmem a).mp (Forest.mem_children hb)
    rw [hchildren a hax] at hb
    refine (foldl_update_apply _ _ _ _).trans ?_
    by_cases hap : a = p
    · rw [if_pos hap] at hb
      by_cases hbx : b ∈ children x f
      · rw [if_pos hbx, hap]
      · rw [if_neg hbx, hap]
        exact I.parent p b (List.mem_of_mem_erase ((List.mem_append.mp hb).resolve_right hbx))
    · rw [if_neg hap] at hb
      rw [if_neg fun h => hax (Forest.children_unique I.nodup hb h)]
      exact I.parent a b hb
  · exact I.distinct a ((hmem a).mp ha).2 b ((hmem b).mp hb).2
  · by_cases hlx : l = xl
    · rw [hlx] at hl
      exact absurd ((Function.update_self _ _ _).symm.trans hl) nofun
    by_cases hlp : l = pl
    · exact ⟨p, (hmem p).mpr ⟨hpx, hp⟩, hlp ▸ hpl⟩
    · obtain ⟨a, ha, hal⟩ := I.owned l ms ((hlists l hlp hlx).symm.trans hl)
      refine ⟨a, (hmem a).mpr ⟨?_, ha⟩, hal⟩
      rintro rfl
      rw [hxl] at hal
      exact hlx (Option.some.inj hal).symm

/-- Of the spec after a branch is removed, the lists that are left. -/
def leftLists (t : Tree) (dead : List Nat) (lists : Nat → Option (List (Nat × Nat))) :
    Nat → Option (List (Nat × Nat)) :=
  fun l => if ∃ a ∈ dead, t.children a = some l then none else lists l

theorem leftLists_some {dead : List Nat} {lists : Nat → Option (List (Nat × Nat))} {l : Nat}
    {xs : List (Nat × Nat)} (h : leftLists t dead lists l = some xs) :
    (∀ a ∈ dead, t.children a ≠ some l) ∧ lists l = some xs := by
  rw [leftLists] at h
  by_cases hdead : ∃ a ∈ dead, t.children a = some l
  · rw [if_pos hdead] at h
    cases h
  · rw [if_neg hdead] at h
    exact ⟨fun a ha hal => hdead ⟨a, ha, hal⟩, h⟩

theorem Part.branch (hnodup : (labels f).Nodup) {x : Nat} (hx : x ∈ labels f) :
    Part f (.cons x (kidsOf x f) .nil) := by
  have hcons : (labels (.cons x (kidsOf x f) .nil)).Nodup := by
    refine Forest.nodup_cons.mpr ⟨⟨Forest.notMem_kidsOf hnodup x, List.not_mem_nil⟩,
      Forest.kidsOf_nodup hnodup x, List.nodup_nil, fun _ _ => List.not_mem_nil⟩
  have hcases : ∀ a ∈ labels (.cons x (kidsOf x f) .nil), a = x ∨ a ∈ labels (kidsOf x f) := by
    intro a ha
    rw [labels, labels, List.append_nil] at ha
    exact List.mem_cons.mp ha
  refine ⟨hcons, fun a ha => ?_, fun a ha => ?_⟩
  · rcases hcases a ha with rfl | ha
    · exact hx
    · exact Forest.kidsOf_subset x f ha
  · rcases hcases a ha with rfl | ha
    · rw [Forest.children, if_pos rfl, Forest.roots_kidsOf hnodup]
    · rw [Forest.children_cons_left hcons ha, Forest.children_kidsOf hnodup ha]

/-- A branch is removed, and its nodes are freed. -/
theorem Inv.removeParent (I : Inv t s f) {p x n : Nat} (hx : x ∈ labels f)
    (hparent : t.parent x = some p) (hn : t.sz ≤ n) :
    ∃ freed t' s', t.treeRemoveParent n p x = some (freed, t')
      ∧ freed.Perm (x :: labels (kidsOf x f)) ∧ Inv t' s' (pluck x .nil f) := by
  obtain ⟨hroot, hchild⟩ := I.mem_children hx hparent
  have hp := Forest.mem_children hchild
  -- the forest
  have hperm := Forest.labels_pluck (g := .nil) I.nodup hx hroot
  rw [labels, List.append_nil] at hperm
  have hsize := hperm.length_eq
  rw [List.length_cons, List.length_append, ← I.sz] at hsize
  have hbranch := Part.branch I.nodup hx
  have hsub : labels (.cons x (kidsOf x f) .nil) = x :: labels (kidsOf x f) := by
    rw [labels, labels, List.append_nil]
  have hpnot : p ∉ labels (.cons x (kidsOf x f) .nil) := by
    rw [hsub, List.mem_cons, not_or]
    refine ⟨fun h => Forest.children_irrefl I.nodup x (h ▸ hchild), fun h => ?_⟩
    rw [Forest.children_kidsOf I.nodup h] at hchild
    exact Forest.notMem_kidsOf I.nodup x (Forest.children_subset p _ hchild)
  have hmem : ∀ a, a ∈ labels (pluck x .nil f)
      ↔ a ∉ labels (.cons x (kidsOf x f) .nil) ∧ a ∈ labels f := fun a => by
    have hnodup := hperm.nodup_iff.mpr I.nodup
    rw [← List.cons_append] at hnodup
    rw [hsub, ← hperm.mem_iff, ← List.cons_append, List.mem_append]
    constructor
    · exact fun h => ⟨fun h' => List.disjoint_of_nodup_append hnodup h' h, .inr h⟩
    · exact fun h => h.2.resolve_left h.1
  have hchildren : ∀ a ∈ labels (pluck x .nil f), children a (pluck x .nil f)
      = if a = p then (children p f).erase x else children a f := fun a ha => by
    obtain ⟨hnot, -⟩ := (hmem a).mp ha
    rw [hsub, List.mem_cons, not_or] at hnot
    rw [Forest.children_pluck (g := .nil) I.nodup hx hroot (List.nil_subset _) hnot.1
      (Forest.children_of_notMem hnot.2).symm, roots, List.append_nil]
    by_cases hap : a = p
    · rw [if_pos hap, hap, if_pos hchild]
    · rw [if_neg hap, if_neg fun h => hap (Forest.children_unique I.nodup h hchild)]
  -- the operations
  have hcount := I.countChildren (n := n) hx (by omega)
  have H₁ := I.toHolds.congr { t with sz := t.sz - ((labels (kidsOf x f)).length + 1) } rfl rfl
  obtain ⟨pl, k, ys, zs, w₁, hpl, hxs, hdelete, M₁, hvalues⟩ := H₁.deleteChild hchild (I.sz ▸ hn)
  replace hpl : t.children p = some pl := hpl
  have hlists : ∀ l, l ≠ pl → ((s.detach k x).setList pl (ys ++ zs)).lists l = s.lists l :=
    fun l hl => Function.update_of_ne hl _ _
  have H₂ : Holds { t with sz := t.sz - ((labels (kidsOf x f)).length + 1), lists := w₁ }
      ((s.detach k x).setList pl (ys ++ zs)) (.cons x (kidsOf x f) .nil) := by
    refine ⟨M₁, hbranch.nodup, fun a ha => ?_⟩
    obtain ⟨l, ms, hl, hms, hvals⟩ := I.kids a (hbranch.subset ha)
    have hap : a ≠ p := fun h => hpnot (h ▸ ha)
    refine ⟨l, ms, hl, ?_, hvals.trans (hbranch.children a ha)⟩
    exact (hlists l (I.list_ne (hbranch.subset ha) hp hap hl hpl)).trans hms
  have hkids : kidsOf x (.cons x (kidsOf x f) .nil) = kidsOf x f := if_pos rfl
  obtain ⟨freed, hfree, hfreed⟩ := H₂.nodeFree (a := x) (n := n) List.mem_cons_self
    (by rw [hkids]; omega)
  rw [hkids] at hfreed
  refine ⟨freed, { t with sz := t.sz - ((labels (kidsOf x f)).length + 1), lists := w₁ },
    ⟨leftLists t (labels (.cons x (kidsOf x f) .nil))
    ((s.detach k x).setList pl (ys ++ zs)).lists, _⟩, ?_, hfreed,
    ⟨M₁.forget fun l ms hl => (leftLists_some hl).2, ?_, fun a ha => ?_⟩, ?_, fun a ha => ?_, ?_,
    fun a b hb => ?_, fun a ha b hb => ?_, fun l ms hl => ?_⟩
  · simp only [Tree.treeRemoveParent, hcount, Option.bind_some, hdelete, hfree, Option.map_some]
  · have hnodup := hperm.nodup_iff.mpr I.nodup
    rw [← List.cons_append] at hnodup
    exact List.Nodup.of_append_right hnodup
  · obtain ⟨hnot, haf⟩ := (hmem a).mp ha
    have hleft : ∀ l, t.children a = some l → leftLists t (labels (.cons x (kidsOf x f) .nil))
        ((s.detach k x).setList pl (ys ++ zs)).lists l
        = ((s.detach k x).setList pl (ys ++ zs)).lists l := fun l hl => by
      refine if_neg ?_
      rintro ⟨b, hb, hbl⟩
      exact hnot (I.distinct a haf b (hbranch.subset hb) (hl.trans hbl.symm) ▸ hb)
    rw [hchildren a ha]
    by_cases hap : a = p
    · subst hap
      refine ⟨pl, ys ++ zs, hpl, (hleft pl hpl).trans (Function.update_self _ _ _), ?_⟩
      rw [if_pos rfl, hvalues]
    · obtain ⟨l, ms, hl, hms, hvals⟩ := I.kids a haf
      refine ⟨l, ms, hl, ?_, ?_⟩
      · exact (hleft l hl).trans ((hlists l (I.list_ne haf hp hap hl hpl)).trans hms)
      · rw [if_neg hap, hvals]
  · rw [Forest.roots_pluck]
    exact I.root
  · rw [Forest.roots_pluck] at ha
    exact I.top a ha
  · exact Nat.sub_eq_of_eq_add (by omega)
  · have ha := Forest.mem_children hb
    rw [hchildren a ha] at hb
    by_cases hap : a = p
    · rw [if_pos hap] at hb
      rw [hap]
      exact I.parent p b (List.mem_of_mem_erase hb)
    · rw [if_neg hap] at hb
      exact I.parent a b hb
  · exact I.distinct a ((hmem a).mp ha).2 b ((hmem b).mp hb).2
  · obtain ⟨hnot, hl⟩ := leftLists_some hl
    by_cases hlp : l = pl
    · exact ⟨p, (hmem p).mpr ⟨hpnot, hp⟩, hlp ▸ hpl⟩
    · obtain ⟨a, ha, hal⟩ := I.owned l ms ((hlists l hlp).symm.trans hl)
      exact ⟨a, (hmem a).mpr ⟨fun h => hnot a h hal, ha⟩, hal⟩

/-- The whole tree is removed. -/
theorem Inv.removeRoot (I : Inv t s f) {x n : Nat} (hx : x ∈ labels f) (hparent : t.parent x = none)
    (hn : t.sz ≤ n) :
    ∃ freed t' s', t.treeRemoveBranch n x = some (freed, t')
      ∧ freed.Perm (x :: labels (kidsOf x f)) ∧ Inv t' s' .nil := by
  rcases I.shape with ⟨rfl, -⟩ | ⟨r, c, rfl, hr⟩
  · exact (List.not_mem_nil hx).elim
  · have hroot : x ∈ roots (.cons r c .nil) := by
      by_contra hroot
      obtain ⟨a, -, ha⟩ := Forest.exists_parent I.nodup hx hroot
      rw [I.parent a x ha] at hparent
      cases hparent
    obtain rfl : x = r := List.mem_singleton.mp hroot
    have hkids : kidsOf x (.cons x c .nil) = c := if_pos rfl
    have hsize := I.sz
    rw [labels, labels, List.append_nil, List.length_cons] at hsize
    have H₁ := I.toHolds.congr { t with sz := 0, root := none } rfl rfl
    obtain ⟨freed, hfree, hfreed⟩ := H₁.nodeFree (n := n) hx (by rw [hkids]; omega)
    have hnone : ∀ xs : List (Nat × Nat), none ≠ some xs := fun xs => (Option.some_ne_none xs).symm
    have hempty : ∀ a : Nat, a ∉ ([] : List Nat) := fun _ => List.not_mem_nil
    refine ⟨freed, { t with sz := 0, root := none }, ⟨fun _ => none, s.detached⟩, ?_, hfreed,
      { models := I.models.forget fun l xs h => absurd h (hnone xs)
        nodup := List.nodup_nil
        kids := fun a ha => absurd ha (hempty a)
        root := rfl
        top := fun a ha => absurd ha (hempty a)
        sz := rfl
        parent := fun a b hb => absurd hb (hempty b)
        distinct := fun a ha => absurd ha (hempty a)
        owned := fun l xs h => absurd h (hnone xs) }⟩
    rw [Tree.treeRemoveBranch, hparent]
    simp only [hr, if_true, hfree, Option.map_some]

end Remove

/-! ## Runs -/

inductive Op where
  | setRoot (out list item : Nat)
  | insertItem (parent out list k item : Nat)
  | remove (node : Nat)
  | removeBranch (node : Nat)
  | removeParent (parent node : Nat)

namespace Tree

def exec (t : Tree) (n : Nat) : Op → Option Tree
  | .setRoot out list item => t.treeSetRoot out list item
  | .insertItem parent out list k item => t.treeInsertItem parent out list k item
  | .remove node => (t.treeRemove n node).map Prod.snd
  | .removeBranch node => (t.treeRemoveBranch n node).map Prod.snd
  | .removeParent parent node => (t.treeRemoveParent n parent node).map Prod.snd

/-- The calls on nodes of the tree, with memory that it does not use. -/
def Allowed (t : Tree) : Op → Prop
  | .setRoot _ _ _ => t.root = none
  | .insertItem parent out list k _ =>
      t.Has parent ∧ ¬ t.Has out ∧ (∀ a, t.Has a → t.children a ≠ some list)
        ∧ ∀ a l, t.Has a → t.children a = some l → k ∉ walk t.lists.next (t.lists.sz l) (t.lists.head l)
  | .remove node => t.Has node
  | .removeBranch node => t.Has node
  | .removeParent parent node => t.Has node ∧ t.parent node = some parent

/-- The trees that come from `tree_create`. -/
inductive Reach : Tree → Prop
  | create (t : Tree) : Reach t.treeCreate
  | call {t t' : Tree} {n : Nat} {op : Op} :
      Reach t → t.Allowed op → t.sz ≤ n → t.exec n op = some t' → Reach t'

/-- What is kept of a tree. -/
structure WellKept (t : Tree) : Prop where
  size : ∃ ns : List Nat, ns.Nodup ∧ (∀ a, a ∈ ns ↔ t.Has a) ∧ t.sz = ns.length
  parents : ∀ b, t.Has b → t.root ≠ some b → ∃ a, t.Has a ∧ t.parent b = some a
    ∧ (t.kids a).count b = 1 ∧ ∀ a', t.Has a' → b ∈ t.kids a' → a' = a
  count : ∀ a n, t.Has a → t.sz ≤ n → ∃ (c : Nat) (ns : List Nat),
    t.treeNodeCountChildren n a = some c
    ∧ ns.Nodup ∧ (∀ b, b ∈ ns ↔ Below t.kids a b) ∧ c + 1 = ns.length
  find : ∀ item compar n, t.root ≠ none → t.sz ≤ n → ∃ found, t.treeFind n item compar = some found
    ∧ (∀ a, found = some a → t.Has a ∧ compar (t.value a) item = 0)
    ∧ (found ≠ none ↔ ∃ a, t.Has a ∧ compar (t.value a) item = 0)
  returns : ∀ n op, t.Allowed op → t.sz ≤ n → ∃ t', t.exec n op = some t'

end Tree

section Runs

variable {t : Tree} {s : Spec} {f : Forest Nat}

/-- An allowed call returns, and the tree after it is a forest again. -/
theorem Inv.exec (I : Inv t s f) {n : Nat} {op : Op} (hallowed : t.Allowed op) (hn : t.sz ≤ n) :
    ∃ t' s' f', t.exec n op = some t' ∧ Inv t' s' f' := by
  cases op with
  | setRoot out list item =>
      obtain ⟨t', s', hcall, I'⟩ := I.setRoot hallowed out list item
      exact ⟨t', s', _, hcall, I'⟩
  | insertItem parent out list k item =>
      obtain ⟨hparent, hout, hlist, hk⟩ := hallowed
      have hfresh : s.lists list = none := by
        cases h : s.lists list with
        | none => rfl
        | some xs =>
            obtain ⟨a, ha, hal⟩ := I.owned list xs h
            exact absurd hal (hlist a (I.has_iff.mpr ha))
      have hunused : s.Unused k := fun l xs hl => by
        obtain ⟨a, ha, hal⟩ := I.owned l xs hl
        rw [← (I.models.wellLinked hl).forward _ (Nat.le_refl _)]
        exact hk a l (I.has_iff.mpr ha) hal
      obtain ⟨t', s', hcall, I'⟩ := I.insertItem item (I.has_iff.mp hparent)
        (mt I.has_iff.mpr hout) hfresh hunused
      exact ⟨t', s', _, hcall, I'⟩
  | remove node =>
      cases hparent : t.parent node with
      | none =>
          refine ⟨t, s, f, ?_, I⟩
          rw [Tree.exec, Tree.treeRemove, hparent]
          rfl
      | some p =>
          obtain ⟨t', s', hcall, I'⟩ := I.remove (I.has_iff.mp hallowed) hparent hn
          exact ⟨t', s', _, congrArg (Option.map Prod.snd) hcall, I'⟩
  | removeBranch node =>
      cases hparent : t.parent node with
      | none =>
          obtain ⟨freed, t', s', hcall, -, I'⟩ := I.removeRoot (I.has_iff.mp hallowed) hparent hn
          exact ⟨t', s', _, congrArg (Option.map Prod.snd) hcall, I'⟩
      | some p =>
          obtain ⟨freed, t', s', hcall, -, I'⟩ := I.removeParent (I.has_iff.mp hallowed) hparent hn
          refine ⟨t', s', _, ?_, I'⟩
          rw [Tree.exec, Tree.treeRemoveBranch, hparent]
          exact congrArg (Option.map Prod.snd) hcall
  | removeParent parent node =>
      obtain ⟨hnode, hparent⟩ := hallowed
      obtain ⟨freed, t', s', hcall, -, I'⟩ := I.removeParent (I.has_iff.mp hnode) hparent hn
      exact ⟨t', s', _, congrArg (Option.map Prod.snd) hcall, I'⟩

theorem Tree.Reach.inv (h : t.Reach) : ∃ s f, Inv t s f := by
  induction h with
  | create t =>
      exact ⟨⟨fun _ => none, fun _ => none⟩, .nil, ⟨⟨nofun, nofun, nofun⟩, List.nodup_nil, nofun⟩,
        rfl, nofun, rfl, nofun, nofun, nofun⟩
  | call _ hallowed hn hcall ih =>
      obtain ⟨s, f, I⟩ := ih
      obtain ⟨t', s', f', hcall', I'⟩ := I.exec hallowed hn
      rw [hcall] at hcall'
      cases hcall'
      exact ⟨s', f', I'⟩

theorem Inv.parents (I : Inv t s f) {b : Nat} (hb : b ∈ labels f) (hroot : t.root ≠ some b) :
    ∃ a, t.Has a ∧ t.parent b = some a ∧ (t.kids a).count b = 1
      ∧ ∀ a', t.Has a' → b ∈ t.kids a' → a' = a := by
  have hnot : b ∉ roots f := fun h => hroot (Option.mem_toList.mp (I.root ▸ h))
  obtain ⟨a, ha, hab⟩ := Forest.exists_parent I.nodup hb hnot
  refine ⟨a, I.has_iff.mpr ha, I.parent a b hab, ?_, fun a' ha' hb' => ?_⟩
  · rw [I.kids_eq ha]
    exact List.count_eq_one_of_mem (Forest.children_nodup I.nodup a) hab
  · rw [I.kids_eq (I.has_iff.mp ha')] at hb'
    exact Forest.children_unique I.nodup hb' hab

theorem Inv.count (I : Inv t s f) {a n : Nat} (ha : a ∈ labels f) (hn : t.sz ≤ n) :
    ∃ (c : Nat) (ns : List Nat), t.treeNodeCountChildren n a = some c ∧ ns.Nodup
      ∧ (∀ b, b ∈ ns ↔ Below t.kids a b) ∧ c + 1 = ns.length := by
  have hbranch := Part.branch I.nodup ha
  have hlabels : labels (.cons a (kidsOf a f) .nil) = a :: labels (kidsOf a f) := by
    rw [labels, labels, List.append_nil]
  have hle := hbranch.nodup.length_le_of_subset hbranch.subset
  rw [hlabels, List.length_cons, ← I.sz] at hle
  refine ⟨_, a :: labels (kidsOf a f), I.countChildren ha (hle.trans hn), hlabels ▸ hbranch.nodup,
    fun b => ?_, rfl⟩
  rw [List.mem_cons, I.below_iff ha]

theorem Inv.find (I : Inv t s f) (item : Nat) (compar : Nat → Nat → Int) {n : Nat}
    (hroot : t.root ≠ none) (hn : t.sz ≤ n) :
    ∃ found, t.treeFind n item compar = some found
      ∧ (∀ a, found = some a → t.Has a ∧ compar (t.value a) item = 0)
      ∧ (found ≠ none ↔ ∃ a, t.Has a ∧ compar (t.value a) item = 0) := by
  rcases I.shape with ⟨-, hr⟩ | ⟨r, c, rfl, hr⟩
  · exact absurd hr hroot
  have hpart : Part (.cons r c .nil) (.cons r c .nil) := ⟨I.nodup, List.Subset.refl _, fun _ _ => rfl⟩
  have hloop := I.findLoop item compar _ hpart n (I.sz ▸ hn)
  have hmatches : ∀ a, ((labels (.cons r c .nil)).find? fun a => compar (t.value a) item = 0) = some a →
      t.Has a ∧ compar (t.value a) item = 0 := fun a ha => by
    have hmatch := List.find?_some ha
    exact ⟨I.has_iff.mpr (List.mem_of_find?_eq_some ha), of_decide_eq_true hmatch⟩
  refine ⟨(labels (.cons r c .nil)).find? fun a => compar (t.value a) item = 0, ?_, hmatches, ?_, ?_⟩
  · rw [Tree.treeFind, hr, Option.bind_some, ← hloop, roots, roots, findLoop]
    cases t.treeNodeFind item compar n r with
    | none => rfl
    | some found =>
        cases found with
        | none => rfl
        | some b => rfl
  · intro hfound
    obtain ⟨a, ha⟩ := Option.ne_none_iff_exists'.mp hfound
    exact ⟨a, hmatches a ha⟩
  · rintro ⟨a, ha, hmatch⟩ hnone
    exact List.find?_eq_none.mp hnone a (I.has_iff.mp ha) (decide_eq_true hmatch)

end Runs

/-- Every tree a run of calls comes to is well kept, and every further call on
its nodes returns. -/
theorem reach_wellKept {t : Tree} (h : t.Reach) : t.WellKept := by
  obtain ⟨s, f, I⟩ := h.inv
  refine ⟨⟨labels f, I.nodup, fun a => I.has_iff.symm, I.sz⟩, fun b hb => I.parents (I.has_iff.mp hb),
    fun a n ha => I.count (I.has_iff.mp ha), fun item compar n => I.find item compar,
    fun n op hallowed hn => ?_⟩
  obtain ⟨t', s', f', hcall, -⟩ := I.exec hallowed hn
  exact ⟨t', hcall⟩

/-- A root without children is the only node. -/
theorem Tree.Has.eq_root {t : Tree} {r b : Nat} (hroot : t.root = some r) (hkids : t.kids r = [])
    (h : t.Has b) : b = r := by
  obtain ⟨r', hr, hb⟩ := h
  rw [hroot] at hr
  cases hr
  induction hb with
  | refl => rfl
  | step _ hc ih =>
      rw [ih, hkids] at hc
      exact (List.not_mem_nil hc).elim

/-- A root with one child. -/
theorem reach_wellKept_small : ∃ t t' : Tree,
    (Tree.treeCreate ⟨⟨fun _ => none, fun _ => none, fun _ => none, fun _ => 0, fun _ => none,
      fun _ => none, fun _ => 0⟩, fun _ => 0, fun _ => none, fun _ => none, 9, some 3⟩).exec 0
        (.setRoot 1 10 7) = some t
    ∧ t.exec 1 (.insertItem 1 2 11 20 5) = some t' ∧ t'.sz = 2 ∧ t'.WellKept := by
  refine ⟨_, _, rfl, rfl, rfl, reach_wellKept (@Tree.Reach.call _ _ _ (.insertItem 1 2 11 20 5)
    (@Tree.Reach.call _ _ _ (.setRoot 1 10 7) (.create _) rfl (Nat.le_refl 0) rfl) ?_ (Nat.le_refl 1)
    rfl)⟩
  refine ⟨⟨1, rfl, .refl⟩, fun h => ?_, fun a ha => ?_, fun a l ha hl => ?_⟩
  · exact absurd (h.eq_root rfl rfl) (by decide)
  · rw [ha.eq_root rfl rfl]
    decide
  · rw [ha.eq_root rfl rfl] at hl
    cases hl
    exact List.not_mem_nil

end Trees

end Shitos
