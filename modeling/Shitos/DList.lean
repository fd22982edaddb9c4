import Mathlib.Data.List.Find
import Mathlib.Data.Set.Insert
import Mathlib.Logic.Function.Basic
import Shitos.Links

/-!
# Doubly linked lists

`list_t` and `list_node_t`, with one map from addresses for each field. A
list with the nodes `ns` is a pair of chains over `ns` and its reverse
(`Shape`). Every operation amounts to one of three changes of such a pair: a
node is put in, taken out, or a list is hung on another.

The lists stand for sequences of nodes with their values (`Spec`), on which
the operations are the mathematical ones (`SpecStep`). A run of calls on
detached nodes and lists that exist never faults and follows the run of the
sequences (`lists_refine`).
-/

namespace Shitos

namespace DList

/-! ## The operations -/

/-- The fields of all `list_node_t` and `list_t`. -/
structure Store where
  next : Nat → Option Nat
  prev : Nat → Option Nat
  owner : Nat → Option Nat
  value : Nat → Nat
  head : Nat → Option Nat
  tail : Nat → Option Nat
  sz : Nat → Nat

namespace Store

variable (w : Store)

/-- `p->next = v`; a store through NULL faults. -/
def setNext (p v : Option Nat) : Option Store :=
  if p = none then none else some { w with next := setOpt w.next p v }

/-- `p->prev = v`. -/
def setPrev (p v : Option Nat) : Option Store :=
  if p = none then none else some { w with prev := setOpt w.prev p v }

/-- `node->owner = list`. -/
def setOwner (node list : Nat) : Store :=
  { w with owner := setOpt w.owner (some node) (some list) }

/-- `list->sz++`. -/
def incSz (list : Nat) : Store := { w with sz := Function.update w.sz list (w.sz list + 1) }

/-- `list_nodeify`, with the address of the new node. -/
def listNodeify (node item : Nat) : Store :=
  { w with
    next := setOpt w.next (some node) none
    prev := setOpt w.prev (some node) none
    owner := setOpt w.owner (some node) none
    value := Function.update w.value node item }

/-- `list_create`, with the address of the new list. -/
def listCreate (list : Nat) : Store :=
  { w with
    head := Function.update w.head list none
    tail := Function.update w.tail list none
    sz := Function.update w.sz list 0 }

def listInsertFirst (list node : Nat) : Store :=
  { w with
    head := Function.update w.head list (some node)
    tail := Function.update w.tail list (some node)
    next := setOpt w.next (some node) none
    prev := setOpt w.prev (some node) none
    sz := Function.update w.sz list (w.sz list + 1) }

/-- The end of `list_insert_node_after`. -/
def linkAfter (list before node : Nat) : Store :=
  { w with
    prev := setOpt w.prev (some node) (some before)
    next := setOpt w.next (some before) (some node)
    sz := Function.update w.sz list (w.sz list + 1) }

def listInsertNodeAfter (list : Nat) (before : Option Nat) (node : Nat) : Option Store :=
  let w := w.setOwner node list
  if w.sz list = 0 then some (w.listInsertFirst list node)
  else
    match before with
    | none =>
        -- prepend to list
        let w := { w with
          next := setOpt w.next (some node) (w.head list)
          prev := setOpt w.prev (some node) none }
        (w.setPrev (w.head list) (some node)).map fun w =>
          incSz { w with head := Function.update w.head list (some node) } list
    | some before =>
        if some before = w.tail list then
          some (linkAfter { w with tail := Function.update w.tail list (some node) } list before node)
        else
          (w.setPrev (w.next before) (some node)).map fun w =>
            linkAfter { w with next := setOpt w.next (some node) (w.next before) } list before node

def listInsertNodeBefore (list : Nat) (after : Option Nat) (node : Nat) : Option Store :=
  let w := w.setOwner node list
  if w.sz list = 0 then some (w.listInsertFirst list node)
  else
    match after with
    | none =>
        -- append to list
        let w := { w with
          next := setOpt w.next (some node) none
          prev := setOpt w.prev (some node) (w.tail list) }
        (w.setNext (w.tail list) (some node)).map fun w =>
          incSz { w with tail := Function.update w.tail list (some node) } list
    | some after =>
        let link (w : Store) := incSz { w with
          next := setOpt w.next (some node) (some after)
          prev := setOpt w.prev (some after) (some node) } list
        if some after = w.head list then
          some (link { w with tail := Function.update w.tail list (some node) })
        else
          (w.setNext (w.prev after) (some node)).map fun w =>
            link { w with prev := setOpt w.prev (some node) (w.prev after) }

def listPushNode (list node : Nat) : Option Store := w.listInsertNodeBefore list none node

def listPushItem (list node item : Nat) : Option Store :=
  (w.listNodeify node item).listPushNode list node

def listDeleteNode (list node : Nat) : Store :=
  let w := { w with
    head := if some node = w.head list then Function.update w.head list (w.next node) else w.head
    tail := if some node = w.tail list then Function.update w.tail list (w.prev node) else w.tail }
  let w := { w with next := setOpt w.next (w.prev node) (w.next node) }
  let w := { w with prev := setOpt w.prev (w.next node) (w.prev node) }
  { w with
    next := setOpt w.next (some node) none
    prev := setOpt w.prev (some node) none
    owner := setOpt w.owner (some node) none
    sz := Function.update w.sz list (w.sz list - 1) }

/-- `list_pop`, with the node it returns. -/
def listPop (list : Nat) : Option Nat × Store :=
  match w.tail list with
  | none => (none, w)
  | some out => (some out, w.listDeleteNode list out)

def listDequeue (list : Nat) : Option Nat × Store :=
  match w.head list with
  | none => (none, w)
  | some out => (some out, w.listDeleteNode list out)

/-- The loop of `list_copy`; `fresh` are the nodes it gets. -/
def copyLoop (out : Nat) : Store → List Nat → Option Nat → Option Store
  | w, _, none => some w
  | _, [], some _ => none
  | w, a :: fresh, some node =>
      (w.listPushItem out a (w.value node)).bind fun w => copyLoop out w fresh (w.next node)

def listCopy (src out : Nat) (fresh : List Nat) : Option Store :=
  let w := w.listCreate out
  copyLoop out w fresh (w.head src)

/-- The loop of `list_merge`, for at most `n` turns. -/
def ownLoop (dst : Nat) : Nat → Store → Option Nat → Option Store
  | _, w, none => some w
  | 0, _, some _ => none
  | n + 1, w, some node => ownLoop dst n (w.setOwner node dst) (w.next node)

def listMerge (n dst src : Nat) : Option Store :=
  (ownLoop dst n w (w.head src)).map fun w =>
    let w := { w with prev := setOpt w.prev (w.head src) (w.tail dst) }
    let w := if w.tail dst = none then { w with head := Function.update w.head dst (w.head src) }
      else { w with next := setOpt w.next (w.tail dst) (w.head src) }
    let w := if w.tail src = none then w
      else { w with tail := Function.update w.tail dst (w.tail src) }
    { w with sz := Function.update w.sz dst (w.sz dst + w.sz src) }

/-- The nodes `list_foreach` goes through, if `n` turns are enough. -/
def listForeach (n list : Nat) : Option (List Nat) := follow w.next n (w.head list)

/-- `list_compar_normal`. -/
def listComparNormal (a b : Nat) : Int := a - b

def listFind (n list item : Nat) (compar : Nat → Nat → Int) : Option (Option Nat) :=
  (w.listForeach n list).map fun ns => ns.find? fun node => compar (w.value node) item = 0

def listFindEq (n list item : Nat) : Option (Option Nat) := w.listFind n list item listComparNormal

end Store

/-! ## Shapes -/

/-- The list `l` has the nodes `ns`. -/
structure Shape (w : Store) (l : Nat) (ns : List Nat) : Prop where
  head : w.head l = ns.head?
  tail : w.tail l = ns.getLast?
  sz : w.sz l = ns.length
  next : Links w.next ns none
  prev : Links w.prev ns.reverse none
  owner : ∀ a ∈ ns, w.owner a = some l
  nodup : ns.Nodup

/-- A node as `list_nodeify` and `list_delete_node` leave it. -/
structure Detached (w : Store) (a : Nat) : Prop where
  next : w.next a = none
  prev : w.prev a = none
  owner : w.owner a = none

/-- From `w` to `w'` only the list `l` and the nodes `ns` have changed. -/
structure Within (l : Nat) (ns : List Nat) (w w' : Store) : Prop where
  head : ∀ m, m ≠ l → w'.head m = w.head m
  tail : ∀ m, m ≠ l → w'.tail m = w.tail m
  sz : ∀ m, m ≠ l → w'.sz m = w.sz m
  next : ∀ a, a ∉ ns → w'.next a = w.next a
  prev : ∀ a, a ∉ ns → w'.prev a = w.prev a
  owner : ∀ a, a ∉ ns → w'.owner a = w.owner a

theorem Shape.frame {w w' : Store} {l m : Nat} {ns ms : List Nat} (h : Shape w m ms)
    (hwithin : Within l ns w w') (hm : m ≠ l) (hms : ∀ a ∈ ms, a ∉ ns) : Shape w' m ms where
  head := (hwithin.head m hm).trans h.head
  tail := (hwithin.tail m hm).trans h.tail
  sz := (hwithin.sz m hm).trans h.sz
  next := h.next.congr fun a ha => hwithin.next a (hms a ha)
  prev := h.prev.congr fun a ha => hwithin.prev a (hms a (List.mem_reverse.mp ha))
  owner a ha := (hwithin.owner a (hms a ha)).trans (h.owner a ha)
  nodup := h.nodup

theorem Detached.frame {w w' : Store} {l a : Nat} {ns : List Nat} (h : Detached w a)
    (hwithin : Within l ns w w') (ha : a ∉ ns) : Detached w' a where
  next := (hwithin.next a ha).trans h.next
  prev := (hwithin.prev a ha).trans h.prev
  owner := (hwithin.owner a ha).trans h.owner

theorem Shape.notMem {w : Store} {l a : Nat} {ns : List Nat} (h : Shape w l ns)
    (ha : Detached w a) : a ∉ ns := by
  intro hmem
  have howner := h.owner a hmem
  rw [ha.owner] at howner
  cases howner

theorem Shape.foreach {w : Store} {l n : Nat} {ns : List Nat} (h : Shape w l ns)
    (hn : ns.length ≤ n) : w.listForeach n l = some ns := by
  rw [Store.listForeach, h.head]
  exact h.next.follow_eq hn

/-- The nodes of two lists are different, by their owners. -/
theorem Shape.disjoint {w : Store} {l m a : Nat} {ns ms : List Nat} (h : Shape w l ns)
    (h' : Shape w m ms) (hne : l ≠ m) (ha : a ∈ ns) : a ∉ ms := by
  intro ha'
  have howner := h.owner a ha
  rw [h'.owner a ha'] at howner
  exact hne (Option.some.inj howner).symm

/-! ## Putting a node in -/

section Insert

variable {w : Store} {l a : Nat} {ys zs : List Nat}

/-- The store with `a` put in between `ys` and `zs`. -/
def Store.putIn (w : Store) (l : Nat) (ys : List Nat) (a : Nat) (zs : List Nat) : Store :=
  { w with
    next := setOpt (setOpt w.next (some a) zs.head?) ys.getLast? (some a)
    prev := setOpt (setOpt w.prev (some a) ys.getLast?) zs.head? (some a)
    owner := setOpt w.owner (some a) (some l)
    head := Function.update w.head l (ys ++ a :: zs).head?
    tail := Function.update w.tail l (ys ++ a :: zs).getLast?
    sz := Function.update w.sz l (w.sz l + 1) }

theorem Shape.putIn (h : Shape w l (ys ++ zs)) (ha : a ∉ ys ++ zs) :
    Shape (w.putIn l ys a zs) l (ys ++ a :: zs) where
  head := Function.update_self _ _ _
  tail := Function.update_self _ _ _
  sz := by
    show Function.update w.sz l (w.sz l + 1) l = _
    rw [Function.update_self, h.sz, List.length_append, List.length_append, List.length_cons,
      Nat.add_assoc]
  next := by
    have hnext := h.next.insert h.nodup ha
    rwa [Option.or_none] at hnext
  prev := by
    have hprev := h.prev
    have hnodup := List.nodup_reverse.mpr h.nodup
    have ha' := mt List.mem_reverse.mp ha
    rw [List.reverse_append] at hprev hnodup ha'
    have hins := hprev.insert hnodup ha'
    rw [Option.or_none, List.head?_reverse, List.getLast?_reverse] at hins
    rwa [List.reverse_append, List.reverse_cons, List.append_assoc]
  owner b hb := by
    by_cases hba : b = a
    · rw [hba]
      exact setOpt_self
    · refine (setOpt_of_ne fun heq => hba (Option.some.inj heq)).trans (h.owner b ?_)
      rcases List.mem_append.mp hb with hb | hb
      · exact List.mem_append_left _ hb
      · exact List.mem_append_right _ (List.mem_of_ne_of_mem hba hb)
  nodup := List.nodup_middle.mpr (List.nodup_cons.mpr ⟨ha, h.nodup⟩)

/-- A node outside the list is neither `a` nor one of its neighbours. -/
theorem outside_ne {b : Nat} (hb : b ∉ ys ++ a :: zs) :
    some b ≠ some a ∧ some b ≠ ys.getLast? ∧ some b ≠ zs.head? := by
  refine ⟨fun heq => hb ?_, fun heq => hb ?_, fun heq => hb ?_⟩
  · exact List.mem_append_right _ (Option.some.inj heq ▸ List.mem_cons_self)
  · exact List.mem_append_left _ (List.mem_of_getLast? heq.symm)
  · exact List.mem_append_right _ (List.mem_cons_of_mem _ (List.mem_of_head? heq.symm))

theorem within_putIn : Within l (ys ++ a :: zs) w (w.putIn l ys a zs) := by
  refine ⟨fun m hm => ?_, fun m hm => ?_, fun m hm => ?_, fun b hb => ?_, fun b hb => ?_,
    fun b hb => ?_⟩
  · exact Function.update_of_ne hm _ _
  · exact Function.update_of_ne hm _ _
  · exact Function.update_of_ne hm _ _
  · obtain ⟨hself, hlast, -⟩ := outside_ne hb
    exact (setOpt_of_ne hlast).trans (setOpt_of_ne hself)
  · obtain ⟨hself, -, hhead⟩ := outside_ne hb
    exact (setOpt_of_ne hhead).trans (setOpt_of_ne hself)
  · exact setOpt_of_ne (outside_ne hb).1

/-- The first node of a list. -/
theorem insertFirst_eq (w : Store) (l a : Nat) :
    (w.setOwner a l).listInsertFirst l a = w.putIn l [] a [] := by
  rw [Store.putIn, List.getLast?_nil, List.head?_nil, setOpt_none, setOpt_none]
  rfl

theorem Shape.sz_ne_zero {b : Nat} (h : Shape w l (ys ++ b :: zs)) (a : Nat) :
    (w.setOwner a l).sz l ≠ 0 := by
  show w.sz l ≠ 0
  rw [h.sz, List.length_append]
  exact Nat.succ_ne_zero _

/-- Appending a node. -/
theorem Shape.push (h : Shape w l ys) (a : Nat) :
    w.listPushNode l a = some (w.putIn l ys a []) := by
  rw [Store.listPushNode, Store.listInsertNodeBefore]
  rcases List.eq_nil_or_concat ys with rfl | ⟨ys, b, rfl⟩
  · exact (if_pos h.sz).trans (congrArg some (insertFirst_eq w l a))
  · rw [List.concat_eq_append] at h ⊢
    have htail : w.tail l = some b := by rw [h.tail, List.getLast?_concat]
    have hhead : ((ys ++ [b]) ++ [a]).head? = w.head l := by
      rw [h.head]
      cases ys <;> rfl
    have htail' : (w.setOwner a l).tail l = some b := htail
    simp only [if_neg (h.sz_ne_zero a), Store.setNext, htail', reduceCtorEq, if_false,
      Option.map_some, Store.putIn, List.getLast?_concat, List.head?_nil, setOpt_none, hhead,
      Function.update_eq_self]
    rfl

/-- Prepending a node. -/
theorem Shape.prepend (h : Shape w l zs) (a : Nat) :
    w.listInsertNodeAfter l none a = some (w.putIn l [] a zs) := by
  rw [Store.listInsertNodeAfter]
  cases zs with
  | nil => exact (if_pos h.sz).trans (congrArg some (insertFirst_eq w l a))
  | cons b zs =>
      have hhead : (w.setOwner a l).head l = some b := h.head
      have htail : ([] ++ a :: b :: zs).getLast? = w.tail l := h.tail.symm
      have hsz : (w.setOwner a l).sz l ≠ 0 := @Shape.sz_ne_zero w l [] zs b h a
      simp only [if_neg hsz, Store.setPrev, hhead, reduceCtorEq, if_false,
        Option.map_some, Store.putIn, List.getLast?_nil, List.head?_cons, setOpt_none, htail,
        Function.update_eq_self]
      rfl

/-- Inserting a node after a node of the list. -/
theorem Shape.insertAfter {b : Nat} (h : Shape w l (ys ++ b :: zs)) (ha : Detached w a) :
    w.listInsertNodeAfter l (some b) a = some (w.putIn l (ys ++ [b]) a zs) := by
  have hhead : ((ys ++ [b]) ++ a :: zs).head? = w.head l := by
    rw [h.head]
    cases ys <;> rfl
  have hnext : (w.setOwner a l).next b = zs.head? := by
    have := h.next.apply
    rwa [Option.or_none] at this
  rw [Store.listInsertNodeAfter]
  simp only [if_neg (h.sz_ne_zero a), hnext]
  cases zs with
  | nil =>
      have htail : (w.setOwner a l).tail l = some b := h.tail.trans List.getLast?_concat
      -- here the code leaves `node->next` alone: it is NULL already
      have hnull : setOpt w.next (some a) none = w.next :=
        setOpt_eq_self fun x hx => by rw [Option.some.inj hx, ha.next]
      simp only [htail, if_true, Store.putIn, hhead, Function.update_eq_self, List.getLast?_concat,
        List.head?_nil, setOpt_none, hnull]
      rfl
  | cons c zs =>
      have htail : ((ys ++ [b]) ++ a :: c :: zs).getLast? = w.tail l := by
        rw [h.tail]
        simp [List.getLast?_append]
      have hnot : some b ≠ (w.setOwner a l).tail l := by
        intro heq
        have hlast : (c :: zs).getLast? = some b := by
          rw [heq]
          show _ = w.tail l
          rw [h.tail]
          simp [List.getLast?_append, List.getLast?_cons]
        exact (List.nodup_cons.mp (List.Nodup.of_append_right h.nodup)).1
          (List.mem_of_getLast? hlast)
      have hac : some a ≠ some c := by
        intro heq
        obtain rfl := Option.some.inj heq
        exact h.notMem ha (List.mem_append_right _ (List.mem_cons_of_mem _ List.mem_cons_self))
      simp only [if_neg hnot, List.head?_cons, Store.setPrev, reduceCtorEq, if_false,
        Option.map_some, Store.putIn, hhead, htail, Function.update_eq_self, List.getLast?_concat,
        setOpt_comm hac, Store.linkAfter, hnext]
      rfl

end Insert

/-! ## Taking a node out -/

section Delete

variable {w : Store} {l a : Nat} {ys zs : List Nat}

/-- The store with `a` taken out from between `ys` and `zs`. -/
def Store.takeOut (w : Store) (l : Nat) (ys : List Nat) (a : Nat) (zs : List Nat) : Store :=
  { w with
    next := setOpt (setOpt w.next ys.getLast? zs.head?) (some a) none
    prev := setOpt (setOpt w.prev zs.head? ys.getLast?) (some a) none
    owner := setOpt w.owner (some a) none
    head := Function.update w.head l (ys ++ zs).head?
    tail := Function.update w.tail l (ys ++ zs).getLast?
    sz := Function.update w.sz l (w.sz l - 1) }

theorem Shape.takeOut (h : Shape w l (ys ++ a :: zs)) :
    Shape (w.takeOut l ys a zs) l (ys ++ zs) ∧ Detached (w.takeOut l ys a zs) a := by
  obtain ⟨ha, hnodup⟩ := List.nodup_cons.mp (List.nodup_middle.mp h.nodup)
  refine ⟨⟨Function.update_self _ _ _, Function.update_self _ _ _, ?_, ?_, ?_, fun b hb => ?_,
    hnodup⟩, setOpt_self, setOpt_self, setOpt_self⟩
  · show Function.update w.sz l (w.sz l - 1) l = _
    rw [Function.update_self, h.sz, List.length_append, List.length_append, List.length_cons]
    rfl
  · have hnext := h.next.remove h.nodup none
    rwa [Option.or_none] at hnext
  · have hprev := h.prev
    have hrev := List.nodup_reverse.mpr h.nodup
    rw [List.reverse_append, List.reverse_cons, List.append_assoc, List.singleton_append]
      at hprev hrev
    have hrem := hprev.remove hrev none
    rwa [Option.or_none, List.getLast?_reverse, List.head?_reverse, ← List.reverse_append] at hrem
  · have hne : some b ≠ some a := fun heq => ha (Option.some.inj heq ▸ hb)
    refine (setOpt_of_ne hne).trans (h.owner b ?_)
    rcases List.mem_append.mp hb with hb | hb
    · exact List.mem_append_left _ hb
    · exact List.mem_append_right _ (List.mem_cons_of_mem _ hb)

theorem within_takeOut : Within l (ys ++ a :: zs) w (w.takeOut l ys a zs) := by
  refine ⟨fun m hm => ?_, fun m hm => ?_, fun m hm => ?_, fun b hb => ?_, fun b hb => ?_,
    fun b hb => ?_⟩
  · exact Function.update_of_ne hm _ _
  · exact Function.update_of_ne hm _ _
  · exact Function.update_of_ne hm _ _
  · obtain ⟨hself, hlast, -⟩ := outside_ne hb
    exact (setOpt_of_ne hself).trans (setOpt_of_ne hlast)
  · obtain ⟨hself, -, hhead⟩ := outside_ne hb
    exact (setOpt_of_ne hself).trans (setOpt_of_ne hhead)
  · exact setOpt_of_ne (outside_ne hb).1

/-- Deleting a node of the list. -/
theorem Shape.delete (h : Shape w l (ys ++ a :: zs)) :
    w.listDeleteNode l a = w.takeOut l ys a zs := by
  have hnodup := (List.nodup_cons.mp (List.nodup_middle.mp h.nodup)).1
  have hnext : w.next a = zs.head? := by
    have := h.next.apply
    rwa [Option.or_none] at this
  have hprev : w.prev a = ys.getLast? := by
    have hrev := h.prev
    rw [List.reverse_append, List.reverse_cons, List.append_assoc, List.singleton_append] at hrev
    have := hrev.apply
    rwa [Option.or_none, List.head?_reverse] at this
  have hhead : (if some a = w.head l then Function.update w.head l (w.next a) else w.head)
      = Function.update w.head l (ys ++ zs).head? := by
    rw [h.head, hnext]
    cases ys with
    | nil => exact if_pos rfl
    | cons b ys =>
        rw [if_neg, List.cons_append, List.head?_cons, ← show w.head l = some b from h.head,
          Function.update_eq_self]
        intro heq
        obtain rfl := Option.some.inj heq
        exact hnodup List.mem_cons_self
  have htail : (if some a = w.tail l then Function.update w.tail l (w.prev a) else w.tail)
      = Function.update w.tail l (ys ++ zs).getLast? := by
    rw [h.tail, hprev]
    rcases List.eq_nil_or_concat zs with rfl | ⟨zs, b, rfl⟩
    · rw [List.getLast?_concat, if_pos rfl, List.append_nil]
    · have hlast : w.tail l = some b := by
        rw [h.tail, List.concat_eq_append, ← List.cons_append, ← List.append_assoc,
          List.getLast?_concat]
      rw [← h.tail, hlast, List.concat_eq_append, ← List.append_assoc, List.getLast?_concat,
        if_neg, ← hlast, Function.update_eq_self]
      intro heq
      obtain rfl := Option.some.inj heq
      exact hnodup (List.mem_append_right _ (by simp))
  -- the store at `prev->next` does not change `node->next`
  have hself : setOpt w.next ys.getLast? zs.head? a = zs.head? := by
    rw [setOpt_of_ne fun heq => hnodup (List.mem_append_left _ (List.mem_of_getLast? heq.symm)),
      hnext]
  rw [Store.takeOut, ← hhead, ← htail]
  simp only [Store.listDeleteNode, hprev, hnext, hself]

end Delete

/-! ## Hanging a list on another -/

section Merge

variable {w : Store} {dst src : Nat} {ms ns : List Nat}

/-- The store with the nodes `ns` of `src` behind the nodes `ms` of `dst`. -/
def Store.hang (w : Store) (dst src : Nat) (ms ns : List Nat) : Store :=
  { w with
    next := setOpt w.next ms.getLast? ns.head?
    prev := setOpt w.prev ns.head? ms.getLast?
    owner := fun a => if a ∈ ns then some dst else w.owner a
    head := Function.update w.head dst (ms ++ ns).head?
    tail := Function.update w.tail dst (ms ++ ns).getLast?
    sz := Function.update w.sz dst (w.sz dst + w.sz src) }

theorem Shape.hang (h : Shape w dst ms) (h' : Shape w src ns) (hne : dst ≠ src) :
    Shape (w.hang dst src ms ns) dst (ms ++ ns) := by
  have hnodup : (ms ++ ns).Nodup :=
    List.nodup_append'.mpr ⟨h.nodup, h'.nodup, fun a ha => h.disjoint h' hne ha⟩
  refine ⟨Function.update_self _ _ _, Function.update_self _ _ _, ?_, ?_, ?_, fun a ha => ?_,
    hnodup⟩
  · show Function.update w.sz dst (w.sz dst + w.sz src) dst = _
    rw [Function.update_self, h.sz, h'.sz, List.length_append]
  · have hnext := h.next.join h'.next hnodup
    rwa [Option.or_none] at hnext
  · have hrev := List.nodup_reverse.mpr hnodup
    rw [List.reverse_append] at hrev ⊢
    have hprev := h'.prev.join h.prev hrev
    rwa [Option.or_none, List.getLast?_reverse, List.head?_reverse] at hprev
  · show (if a ∈ ns then some dst else w.owner a) = some dst
    by_cases hns : a ∈ ns
    · exact if_pos hns
    · rw [if_neg hns]
      exact h.owner a ((List.mem_append.mp ha).resolve_right hns)

theorem within_hang : Within dst (ms ++ ns) w (w.hang dst src ms ns) := by
  have hlast : ∀ b, b ∉ ms ++ ns → some b ≠ ms.getLast? := fun b hb heq =>
    hb (List.mem_append_left _ (List.mem_of_getLast? heq.symm))
  have hhead : ∀ b, b ∉ ms ++ ns → some b ≠ ns.head? := fun b hb heq =>
    hb (List.mem_append_right _ (List.mem_of_head? heq.symm))
  refine ⟨fun m hm => ?_, fun m hm => ?_, fun m hm => ?_, fun b hb => ?_, fun b hb => ?_,
    fun b hb => ?_⟩
  · exact Function.update_of_ne hm _ _
  · exact Function.update_of_ne hm _ _
  · exact Function.update_of_ne hm _ _
  · exact setOpt_of_ne (hlast b hb)
  · exact setOpt_of_ne (hhead b hb)
  · exact if_neg fun h => hb (List.mem_append_right _ h)

/-- The loop of `list_merge` over the nodes `ns`. -/
theorem ownLoop_eq : ∀ (ns : List Nat) (w : Store) (n : Nat), Links w.next ns none →
    ns.length ≤ n →
    Store.ownLoop dst n w ns.head?
      = some { w with owner := fun a => if a ∈ ns then some dst else w.owner a } := by
  intro ns
  induction ns with
  | nil =>
      intro w n _ _
      cases n <;> simp [Store.ownLoop]
  | cons a ns ih =>
      intro w n hlinks hn
      obtain ⟨n, rfl⟩ := Nat.exists_eq_succ_of_ne_zero (Nat.ne_of_gt (Nat.zero_lt_of_lt hn))
      have hnext : w.next a = ns.head? := by
        have := hlinks.1
        rwa [Option.or_none] at this
      rw [List.head?_cons, Store.ownLoop, hnext, ih (w.setOwner a dst) n hlinks.2
        (Nat.le_of_succ_le_succ hn)]
      simp only [Store.setOwner, Option.some.injEq, Store.mk.injEq, true_and, and_true]
      funext b
      by_cases hb : b ∈ ns
      · rw [if_pos hb, if_pos (List.mem_cons_of_mem _ hb)]
      · rw [if_neg hb]
        by_cases hba : b = a
        · rw [if_pos (hba ▸ List.mem_cons_self), hba, setOpt_self]
        · rw [setOpt_of_ne fun heq => hba (Option.some.inj heq),
            if_neg fun h => hb ((List.mem_cons.mp h).resolve_left hba)]

theorem Shape.merge (h : Shape w dst ms) (h' : Shape w src ns) {n : Nat} (hn : ns.length ≤ n) :
    w.listMerge n dst src = some (w.hang dst src ms ns) := by
  rw [Store.listMerge, h'.head, ownLoop_eq ns w n h'.next hn, Option.map_some]
  have hhead : (if ms.getLast? = none then Function.update w.head dst ns.head? else w.head)
      = Function.update w.head dst (ms ++ ns).head? := by
    cases ms with
    | nil => exact if_pos rfl
    | cons a ms =>
        rw [if_neg (by simp), List.cons_append, List.head?_cons,
          ← show w.head dst = some a from h.head, Function.update_eq_self]
  have htail : (if ns.getLast? = none then w.tail else Function.update w.tail dst ns.getLast?)
      = Function.update w.tail dst (ms ++ ns).getLast? := by
    cases ns with
    | nil => rw [if_pos List.getLast?_nil, List.append_nil, ← h.tail, Function.update_eq_self]
    | cons a ns =>
        rw [if_neg (by simp), List.getLast?_append, List.getLast?_cons, Option.some_or]
  rw [Store.hang, ← hhead, ← htail]
  cases hms : ms.getLast? with
  | none =>
      have hdst := h.tail.trans hms
      cases hns : ns.getLast? with
      | none => simp only [h'.head, hdst, h'.tail.trans hns, if_true, setOpt_none]
      | some b =>
          simp only [h'.head, hdst, h'.tail.trans hns, if_true, setOpt_none, reduceCtorEq, if_false]
  | some a =>
      have hdst := h.tail.trans hms
      cases hns : ns.getLast? with
      | none => simp only [h'.head, hdst, h'.tail.trans hns, if_true, reduceCtorEq, if_false]
      | some b => simp only [h'.head, hdst, h'.tail.trans hns, reduceCtorEq, if_false]

end Merge

/-! ## Copying a list -/

section Copy

variable {w w' w'' : Store} {l : Nat} {ns ms : List Nat}

theorem Within.mono (h : Within l ns w w') (hsub : ns ⊆ ms) : Within l ms w w' :=
  ⟨h.head, h.tail, h.sz, fun a ha => h.next a (mt (@hsub a) ha),
    fun a ha => h.prev a (mt (@hsub a) ha), fun a ha => h.owner a (mt (@hsub a) ha)⟩

theorem Within.trans (h : Within l ns w w') (h' : Within l ns w' w'') : Within l ns w w'' where
  head m hm := (h'.head m hm).trans (h.head m hm)
  tail m hm := (h'.tail m hm).trans (h.tail m hm)
  sz m hm := (h'.sz m hm).trans (h.sz m hm)
  next a ha := (h'.next a ha).trans (h.next a ha)
  prev a ha := (h'.prev a ha).trans (h.prev a ha)
  owner a ha := (h'.owner a ha).trans (h.owner a ha)

/-- A new node touches no list. -/
theorem listNodeify_within (w : Store) (a v : Nat) :
    (w.listNodeify a v).head = w.head ∧ (w.listNodeify a v).tail = w.tail
    ∧ (w.listNodeify a v).sz = w.sz ∧ ∀ l, Within l [a] w (w.listNodeify a v) := by
  have hne : ∀ b, b ∉ [a] → some b ≠ some a := fun b hb heq =>
    hb (Option.some.inj heq ▸ List.mem_cons_self)
  refine ⟨rfl, rfl, rfl, fun l => ⟨fun _ _ => rfl, fun _ _ => rfl, fun _ _ => rfl, fun b hb => ?_,
    fun b hb => ?_, fun b hb => ?_⟩⟩
  · exact setOpt_of_ne (hne b hb)
  · exact setOpt_of_ne (hne b hb)
  · exact setOpt_of_ne (hne b hb)

theorem listNodeify_detached (w : Store) (a v : Nat) : Detached (w.listNodeify a v) a :=
  ⟨setOpt_self, setOpt_self, setOpt_self⟩

theorem Shape.nodeify {a : Nat} (h : Shape w l ns) (ha : a ∉ ns) (v : Nat) :
    Shape (w.listNodeify a v) l ns := by
  have hwithin := (listNodeify_within w a v).2.2.2 (l + 1)
  refine h.frame hwithin (by omega) fun b hb hba => ?_
  rw [List.mem_singleton] at hba
  exact ha (hba ▸ hb)

/-- A pushed item. -/
theorem Shape.pushItem {a : Nat} (h : Shape w l ms) (ha : a ∉ ms) (v : Nat) :
    ∃ w', w.listPushItem l a v = some w' ∧ Shape w' l (ms ++ [a]) ∧ Within l (ms ++ [a]) w w'
      ∧ w'.value = Function.update w.value a v := by
  have hnode := h.nodeify ha v
  refine ⟨_, hnode.push a, ?_, ?_, rfl⟩
  · rw [← List.append_nil ms] at hnode ha
    exact hnode.putIn ha
  · have hwithin : Within l (ms ++ [a]) w (w.listNodeify a v) :=
      ((listNodeify_within w a v).2.2.2 l).mono (List.subset_append_right ms [a])
    exact hwithin.trans within_putIn

theorem copyLoop_spec {out : Nat} : ∀ (rest fresh ms : List Nat) (w : Store),
    fresh.length = rest.length → Shape w out ms → Links w.next rest none →
    (∀ a ∈ rest, a ∉ ms ++ fresh) → (ms ++ fresh).Nodup →
    ∃ w', Store.copyLoop out w fresh rest.head? = some w' ∧ Shape w' out (ms ++ fresh)
      ∧ Within out (ms ++ fresh) w w' ∧ (∀ a, a ∉ fresh → w'.value a = w.value a)
      ∧ fresh.map w'.value = rest.map w.value := by
  intro rest
  induction rest with
  | nil =>
      intro fresh ms w hlen hshape _ _ _
      rw [List.length_eq_zero_iff.mp hlen, List.append_nil]
      refine ⟨w, ?_, hshape, ⟨?_, ?_, ?_, ?_, ?_, ?_⟩, fun _ _ => rfl, rfl⟩
      · rfl
      all_goals exact fun _ _ => rfl
  | cons b rest ih =>
      intro fresh ms w hlen hshape hlinks hrest hnodup
      obtain ⟨a, fresh, rfl⟩ := List.exists_cons_of_length_eq_add_one hlen
      have ha : a ∉ ms := fun ha =>
        List.disjoint_of_nodup_append hnodup ha List.mem_cons_self
      have hnew : a ∉ fresh := (List.nodup_cons.mp (List.Nodup.of_append_right hnodup)).1
      have hassoc : (ms ++ [a]) ++ fresh = ms ++ a :: fresh := by
        rw [List.append_assoc, List.singleton_append]
      have hb : b ∉ ms ++ [a] := fun hb => hrest b List.mem_cons_self
        (hassoc ▸ List.mem_append_left _ hb)
      obtain ⟨w₁, hpush, hshape₁, hwithin₁, hvalue₁⟩ := hshape.pushItem ha (w.value b)
      have hlinks₁ : Links w₁.next rest none := hlinks.2.congr fun c hc =>
        hwithin₁.next c fun hmem => hrest c (List.mem_cons_of_mem _ hc)
          (hassoc ▸ List.mem_append_left _ hmem)
      have hnext : w₁.next b = rest.head? := by
        rw [hwithin₁.next b hb, hlinks.1, Option.or_none]
      obtain ⟨w₂, hloop, hshape₂, hwithin₂, hvalue₂, hvalues⟩ := ih fresh (ms ++ [a]) w₁
        (Nat.succ.inj hlen) hshape₁ hlinks₁
        (fun c hc => hassoc ▸ hrest c (List.mem_cons_of_mem _ hc)) (hassoc ▸ hnodup)
      rw [hassoc] at hshape₂ hwithin₂
      have hsub : ms ++ [a] ⊆ ms ++ a :: fresh := hassoc ▸ List.subset_append_left _ _
      refine ⟨w₂, ?_, hshape₂, (hwithin₁.mono hsub).trans hwithin₂, fun c hc => ?_, ?_⟩
      · rw [List.head?_cons, Store.copyLoop, hpush, Option.bind_some, hnext, hloop]
      · rw [hvalue₂ c fun hmem => hc (List.mem_cons_of_mem _ hmem), hvalue₁,
          Function.update_of_ne fun heq : c = a => hc (heq ▸ List.mem_cons_self)]
      · have hold : ∀ c ∈ rest, w₁.value c = w.value c := by
          intro c hc
          rw [hvalue₁, Function.update_of_ne]
          rintro rfl
          exact hrest c (List.mem_cons_of_mem _ hc) (List.mem_append_right _ List.mem_cons_self)
        rw [List.map_cons, List.map_cons, hvalues, List.map_congr_left hold, hvalue₂ a hnew,
          hvalue₁, Function.update_self]

/-- Copying a list to an address that is not one. -/
theorem Shape.copy {src out : Nat} {fresh : List Nat} (h : Shape w src ns) (hne : src ≠ out)
    (hlen : fresh.length = ns.length) (hnodup : fresh.Nodup) (hfresh : ∀ a ∈ ns, a ∉ fresh) :
    ∃ w', w.listCopy src out fresh = some w' ∧ Shape w' out fresh ∧ Within out fresh w w'
      ∧ (∀ a, a ∉ fresh → w'.value a = w.value a)
      ∧ fresh.map w'.value = ns.map w.value := by
  have hcreate : Within out [] w (w.listCreate out) :=
    ⟨fun m hm => Function.update_of_ne hm _ _, fun m hm => Function.update_of_ne hm _ _,
      fun m hm => Function.update_of_ne hm _ _, fun _ _ => rfl, fun _ _ => rfl, fun _ _ => rfl⟩
  have hempty : Shape (w.listCreate out) out [] :=
    ⟨Function.update_self _ _ _, Function.update_self _ _ _, Function.update_self _ _ _, trivial,
      trivial, fun _ ha => (List.not_mem_nil ha).elim, List.nodup_nil⟩
  obtain ⟨w', hloop, hshape, hwithin, hvalue, hvalues⟩ := copyLoop_spec ns fresh [] _ hlen hempty
    h.next hfresh hnodup
  refine ⟨w', ?_, hshape, (hcreate.mono (List.nil_subset _)).trans hwithin, hvalue, hvalues⟩
  have hhead : (w.listCreate out).head src = ns.head? :=
    (Function.update_of_ne hne _ _).trans h.head
  rw [Store.listCopy, hhead]
  exact hloop

end Copy

/-! ## The sequences -/

/-- What a store stands for: the lists, each with its nodes and their values
in order, and the detached nodes with their values. -/
structure Spec where
  lists : Nat → Option (List (Nat × Nat))
  detached : Nat → Option Nat

/-- The nodes of a sequence. -/
def nodes (xs : List (Nat × Nat)) : List Nat := xs.map Prod.fst

theorem nodes_append (xs ys : List (Nat × Nat)) : nodes (xs ++ ys) = nodes xs ++ nodes ys :=
  List.map_append

theorem nodes_cons (a v : Nat) (xs : List (Nat × Nat)) : nodes ((a, v) :: xs) = a :: nodes xs :=
  rfl

/-- No list has the node. -/
def Spec.Unused (s : Spec) (a : Nat) : Prop := ∀ l xs, s.lists l = some xs → a ∉ nodes xs

def Spec.setList (s : Spec) (l : Nat) (xs : List (Nat × Nat)) : Spec :=
  { s with lists := Function.update s.lists l (some xs) }

def Spec.attach (s : Spec) (a : Nat) : Spec :=
  { s with detached := Function.update s.detached a none }

def Spec.detach (s : Spec) (a v : Nat) : Spec :=
  { s with detached := Function.update s.detached a (some v) }

inductive Op where
  | listCreate (list : Nat)
  | listNodeify (node item : Nat)
  | listPushNode (list node : Nat)
  | listInsertNodeAfter (list : Nat) (before : Option Nat) (node : Nat)
  | listDeleteNode (list node : Nat)
  | listPop (list : Nat)
  | listDequeue (list : Nat)
  | listCopy (src out : Nat) (fresh : List Nat)
  | listMerge (n dst src : Nat)

/-- One call, with the pointer it returns; `none` for a fault. -/
def Store.exec (w : Store) : Op → Option (Option Nat × Store)
  | .listCreate list => some (some list, w.listCreate list)
  | .listNodeify node item => some (some node, w.listNodeify node item)
  | .listPushNode list node => (w.listPushNode list node).map (some node, ·)
  | .listInsertNodeAfter list before node =>
      (w.listInsertNodeAfter list before node).map (some node, ·)
  | .listDeleteNode list node => some (some node, w.listDeleteNode list node)
  | .listPop list => some (w.listPop list)
  | .listDequeue list => some (w.listDequeue list)
  | .listCopy src out fresh => (w.listCopy src out fresh).map (some out, ·)
  | .listMerge n dst src => (w.listMerge n dst src).map (some dst, ·)

/-- The calls that may be made, what they return, and what they do to the
sequences. -/
inductive SpecStep (s : Spec) : Op → Option Nat → Spec → Prop where
  | create {l : Nat} : s.lists l = none → SpecStep s (.listCreate l) (some l) (s.setList l [])
  | nodeify {a v : Nat} : s.Unused a → SpecStep s (.listNodeify a v) (some a) (s.detach a v)
  | push {l a v : Nat} {xs : List (Nat × Nat)} :
      s.lists l = some xs → s.detached a = some v →
      SpecStep s (.listPushNode l a) (some a) ((s.attach a).setList l (xs ++ [(a, v)]))
  | prepend {l a v : Nat} {xs : List (Nat × Nat)} :
      s.lists l = some xs → s.detached a = some v →
      SpecStep s (.listInsertNodeAfter l none a) (some a) ((s.attach a).setList l ((a, v) :: xs))
  | insertAfter {l a v b u : Nat} {ys zs : List (Nat × Nat)} :
      s.lists l = some (ys ++ (b, u) :: zs) → s.detached a = some v →
      SpecStep s (.listInsertNodeAfter l (some b) a) (some a)
        ((s.attach a).setList l (ys ++ (b, u) :: (a, v) :: zs))
  | delete {l a v : Nat} {ys zs : List (Nat × Nat)} :
      s.lists l = some (ys ++ (a, v) :: zs) →
      SpecStep s (.listDeleteNode l a) (some a) ((s.detach a v).setList l (ys ++ zs))
  | popEmpty {l : Nat} : s.lists l = some [] → SpecStep s (.listPop l) none s
  | pop {l a v : Nat} {xs : List (Nat × Nat)} :
      s.lists l = some (xs ++ [(a, v)]) →
      SpecStep s (.listPop l) (some a) ((s.detach a v).setList l xs)
  | dequeueEmpty {l : Nat} : s.lists l = some [] → SpecStep s (.listDequeue l) none s
  | dequeue {l a v : Nat} {xs : List (Nat × Nat)} :
      s.lists l = some ((a, v) :: xs) →
      SpecStep s (.listDequeue l) (some a) ((s.detach a v).setList l xs)
  | copy {src out : Nat} {fresh : List Nat} {xs : List (Nat × Nat)} :
      s.lists src = some xs → s.lists out = none → fresh.length = xs.length → fresh.Nodup →
      (∀ a ∈ fresh, s.Unused a) →
      SpecStep s (.listCopy src out fresh) (some out)
        ⟨Function.update s.lists out (some (fresh.zip (xs.map Prod.snd))),
          fun a => if a ∈ fresh then none else s.detached a⟩
  | merge {n dst src : Nat} {xs ys : List (Nat × Nat)} :
      dst ≠ src → s.lists dst = some xs → s.lists src = some ys → ys.length ≤ n →
      SpecStep s (.listMerge n dst src) (some dst)
        { s with
          lists := Function.update (Function.update s.lists dst (some (xs ++ ys))) src none }

/-- The store stands for the sequences. -/
structure Models (w : Store) (s : Spec) : Prop where
  shape : ∀ l xs, s.lists l = some xs → Shape w l (nodes xs)
  values : ∀ l xs, s.lists l = some xs → ∀ p ∈ xs, w.value p.1 = p.2
  detached : ∀ a v, s.detached a = some v → Detached w a ∧ w.value a = v

section Models

variable {w w' : Store} {s : Spec} {l : Nat} {ns : List Nat} {xs : List (Nat × Nat)}

/-- A list after one of them has changed. -/
theorem lists_update {f : Nat → Option (List (Nat × Nat))} {m : Nat} {ms : List (Nat × Nat)}
    (h : Function.update f l (some xs) m = some ms) : m = l ∧ ms = xs ∨ m ≠ l ∧ f m = some ms := by
  by_cases hm : m = l
  · subst hm
    rw [Function.update_self] at h
    exact .inl ⟨rfl, (Option.some.inj h).symm⟩
  · rw [Function.update_of_ne hm] at h
    exact .inr ⟨hm, h⟩

/-- A change within one list. -/
theorem Models.setList (M : Models w s) (hwithin : Within l ns w w') (hvalue : w'.value = w.value)
    (hshape : Shape w' l (nodes xs)) (hvalues : ∀ p ∈ xs, w.value p.1 = p.2)
    (hothers : ∀ m ms, m ≠ l → s.lists m = some ms → ∀ a ∈ nodes ms, a ∉ ns)
    {detached : Nat → Option Nat}
    (hdetached : ∀ a v, detached a = some v → Detached w' a ∧ w.value a = v) :
    Models w' ⟨Function.update s.lists l (some xs), detached⟩ where
  shape m ms hm := by
    rcases lists_update hm with ⟨rfl, rfl⟩ | ⟨hml, hm⟩
    · exact hshape
    · exact (M.shape m ms hm).frame hwithin hml (hothers m ms hml hm)
  values m ms hm := by
    rw [hvalue]
    rcases lists_update hm with ⟨rfl, rfl⟩ | ⟨hml, hm⟩
    · exact hvalues
    · exact M.values m ms hm
  detached a v ha := by
    rw [hvalue]
    exact hdetached a v ha

/-- Putting a detached node in. -/
theorem Models.putIn (M : Models w s) {ys zs : List (Nat × Nat)} {a v : Nat}
    (hl : s.lists l = some (ys ++ zs)) (ha : s.detached a = some v) :
    Models (w.putIn l (nodes ys) a (nodes zs)) ((s.attach a).setList l (ys ++ (a, v) :: zs)) := by
  have hshape := M.shape l _ hl
  obtain ⟨hdet, hv⟩ := M.detached a v ha
  have hnew := hshape.notMem hdet
  rw [nodes_append] at hshape hnew
  refine M.setList within_putIn rfl ?_ (fun p hp => ?_) (fun m ms hm hms b hb hmem => ?_)
    fun b u hb => ?_
  · rw [nodes_append]
    exact hshape.putIn hnew
  · rcases List.mem_append.mp hp with hp | hp
    · exact M.values l _ hl p (List.mem_append_left _ hp)
    · rcases List.mem_cons.mp hp with rfl | hp
      · exact hv
      · exact M.values l _ hl p (List.mem_append_right _ hp)
  · have hms' := M.shape m ms hms
    rcases List.mem_append.mp hmem with hmem | hmem
    · exact hms'.disjoint hshape hm hb (List.mem_append_left _ hmem)
    · rcases List.mem_cons.mp hmem with rfl | hmem
      · exact hms'.notMem hdet hb
      · exact hms'.disjoint hshape hm hb (List.mem_append_right _ hmem)
  · by_cases hba : b = a
    · rw [hba] at hb
      exact absurd hb (by simp [Spec.attach])
    · rw [show (s.attach a).detached b = s.detached b from Function.update_of_ne hba _ _] at hb
      obtain ⟨hdet', hu⟩ := M.detached b u hb
      refine ⟨hdet'.frame within_putIn fun hmem => ?_, hu⟩
      have hnot := hshape.notMem hdet'
      rcases List.mem_append.mp hmem with hmem | hmem
      · exact hnot (List.mem_append_left _ hmem)
      · exact hnot (List.mem_append_right _ ((List.mem_cons.mp hmem).resolve_left hba))

/-- Taking a node out. -/
theorem Models.takeOut (M : Models w s) {ys zs : List (Nat × Nat)} {a v : Nat}
    (hl : s.lists l = some (ys ++ (a, v) :: zs)) :
    w.listDeleteNode l a = w.takeOut l (nodes ys) a (nodes zs)
    ∧ Models (w.takeOut l (nodes ys) a (nodes zs)) ((s.detach a v).setList l (ys ++ zs)) := by
  have hshape := M.shape l _ hl
  rw [nodes_append, nodes_cons] at hshape
  obtain ⟨hshape', hdet⟩ := hshape.takeOut
  refine ⟨hshape.delete, M.setList within_takeOut rfl ?_ (fun p hp => ?_)
    (fun m ms hm hms b hb => (M.shape m ms hms).disjoint hshape hm hb) fun b u hb => ?_⟩
  · rw [nodes_append]
    exact hshape'
  · refine M.values l _ hl p ?_
    rcases List.mem_append.mp hp with hp | hp
    · exact List.mem_append_left _ hp
    · exact List.mem_append_right _ (List.mem_cons_of_mem _ hp)
  · by_cases hba : b = a
    · subst hba
      rw [show (s.detach b v).detached b = some v from Function.update_self _ _ _] at hb
      refine ⟨hdet, ?_⟩
      rw [← Option.some.inj hb]
      exact M.values l _ hl (b, v) (List.mem_append_right _ List.mem_cons_self)
    · rw [show (s.detach a v).detached b = s.detached b from Function.update_of_ne hba _ _] at hb
      obtain ⟨hdet', hu⟩ := M.detached b u hb
      exact ⟨hdet'.frame within_takeOut (hshape.notMem hdet'), hu⟩

/-- The values of a list, by the loop. -/
theorem Models.foreach (M : Models w s) (hl : s.lists l = some xs) {n : Nat} (hn : xs.length ≤ n) :
    (w.listForeach n l).map (List.map w.value) = some (xs.map Prod.snd) := by
  have hlen : (nodes xs).length = xs.length := List.length_map _
  rw [(M.shape l xs hl).foreach (hlen.trans_le hn), Option.map_some, nodes, List.map_map]
  exact congrArg some (List.map_congr_left fun p hp => M.values l xs hl p hp)

/-- The search for a value that is in the list. -/
theorem Models.findEq (M : Models w s) (hl : s.lists l = some xs) {n v : Nat} (hn : xs.length ≤ n)
    (hv : v ∈ xs.map Prod.snd) :
    ∃ a ys zs, xs = ys ++ (a, v) :: zs ∧ w.listFindEq n l v = some (some a) := by
  have hlen : (nodes xs).length = xs.length := List.length_map _
  have hfind : (nodes xs).find? (fun node => decide (Store.listComparNormal (w.value node) v = 0))
      = (xs.find? fun p => decide (p.2 = v)).map Prod.fst := by
    rw [nodes, List.find?_map]
    refine congrArg _ (List.find?_congr fun p hp => ?_)
    rw [Function.comp_apply, M.values l xs hl p hp]
    refine decide_eq_decide.mpr ?_
    rw [Store.listComparNormal]
    omega
  obtain ⟨p, hp, hpv⟩ := List.mem_map.mp hv
  cases hsome : xs.find? fun p => decide (p.2 = v) with
  | none =>
      have hnot := List.find?_eq_none.mp hsome p hp
      exact absurd (decide_eq_true hpv) hnot
  | some q =>
      obtain ⟨a, u⟩ := q
      obtain ⟨hq, ys, zs, hxs, -⟩ := List.find?_eq_some_iff_append.mp hsome
      obtain rfl : u = v := of_decide_eq_true hq
      refine ⟨a, ys, zs, hxs, ?_⟩
      rw [Store.listFindEq, Store.listFind, (M.shape l xs hl).foreach (hlen.trans_le hn),
        Option.map_some, hfind, hsome]
      rfl

/-- Sequences may be forgotten. -/
theorem Models.forget (M : Models w s) {lists : Nat → Option (List (Nat × Nat))}
    (h : ∀ l xs, lists l = some xs → s.lists l = some xs) : Models w ⟨lists, s.detached⟩ :=
  ⟨fun l xs hl => M.shape l xs (h l xs hl), fun l xs hl => M.values l xs (h l xs hl), M.detached⟩

/-- A new list. -/
theorem Models.create (M : Models w s) (l : Nat) :
    Models (w.listCreate l) (s.setList l []) := by
  have hwithin : Within l [] w (w.listCreate l) :=
    ⟨fun m hm => Function.update_of_ne hm _ _, fun m hm => Function.update_of_ne hm _ _,
      fun m hm => Function.update_of_ne hm _ _, fun _ _ => rfl, fun _ _ => rfl, fun _ _ => rfl⟩
  have hempty : Shape (w.listCreate l) l (nodes []) :=
    ⟨Function.update_self _ _ _, Function.update_self _ _ _, Function.update_self _ _ _, trivial,
      trivial, fun _ ha => (List.not_mem_nil ha).elim, List.nodup_nil⟩
  refine M.setList hwithin rfl hempty (fun p hp => (List.not_mem_nil hp).elim)
    (fun _ _ _ _ _ _ => List.not_mem_nil) fun a v ha => ?_
  obtain ⟨hdet, hv⟩ := M.detached a v ha
  exact ⟨hdet.frame hwithin List.not_mem_nil, hv⟩

/-- A new node. -/
theorem Models.nodeify (M : Models w s) {a : Nat} (v : Nat) (ha : s.Unused a) :
    Models (w.listNodeify a v) (s.detach a v) where
  shape m ms hm := (M.shape m ms hm).nodeify (ha m ms hm) v
  values m ms hm p hp := by
    refine (Function.update_of_ne ?_ _ _).trans (M.values m ms hm p hp)
    intro heq
    exact ha m ms hm (heq ▸ List.mem_map_of_mem hp)
  detached b u hb := by
    by_cases hba : b = a
    · subst hba
      rw [show (s.detach b v).detached b = some v from Function.update_self _ _ _] at hb
      exact ⟨listNodeify_detached w b v, (Function.update_self _ _ _).trans (Option.some.inj hb)⟩
    · rw [show (s.detach a v).detached b = s.detached b from Function.update_of_ne hba _ _] at hb
      obtain ⟨hdet, hu⟩ := M.detached b u hb
      refine ⟨hdet.frame ((listNodeify_within w a v).2.2.2 0) ?_,
        (Function.update_of_ne hba _ _).trans hu⟩
      exact mt List.mem_singleton.mp hba

/-- A copied list. -/
theorem Models.copy (M : Models w s) {src out : Nat} {fresh : List Nat}
    (hsrc : s.lists src = some xs) (hout : s.lists out = none) (hlen : fresh.length = xs.length)
    (hnodup : fresh.Nodup) (hfresh : ∀ a ∈ fresh, s.Unused a) :
    ∃ w', w.listCopy src out fresh = some w' ∧ Models w'
      ⟨Function.update s.lists out (some (fresh.zip (xs.map Prod.snd))),
        fun a => if a ∈ fresh then none else s.detached a⟩ := by
  have hne : src ≠ out := by
    rintro rfl
    rw [hsrc] at hout
    cases hout
  have hxs : (nodes xs).length = xs.length := List.length_map _
  obtain ⟨w', hcopy, hshape, hwithin, hvalue, hvalues⟩ := (M.shape src xs hsrc).copy hne
    (hlen.trans hxs.symm) hnodup fun a ha hmem => hfresh a hmem src xs hsrc ha
  have hold : xs.map Prod.snd = fresh.map w'.value := by
    rw [hvalues, nodes, List.map_map]
    exact List.map_congr_left fun p hp => (M.values src xs hsrc p hp).symm
  refine ⟨w', hcopy, fun m ms hm => ?_, fun m ms hm => ?_, fun a v ha => ?_⟩
  · rcases lists_update hm with ⟨rfl, rfl⟩ | ⟨hmo, hm⟩
    · rw [nodes, List.map_fst_zip (by rw [List.length_map, hlen])]
      exact hshape
    · exact (M.shape m ms hm).frame hwithin hmo fun a ha hmem => hfresh a hmem m ms hm ha
  · rcases lists_update hm with ⟨rfl, rfl⟩ | ⟨hmo, hm⟩
    · rw [hold, ← List.map_prod_left_eq_zip]
      intro p hp
      obtain ⟨a, -, rfl⟩ := List.mem_map.mp hp
      rfl
    · intro p hp
      rw [hvalue p.1 fun hmem => hfresh p.1 hmem m ms hm (List.mem_map_of_mem hp)]
      exact M.values m ms hm p hp
  · by_cases hmem : a ∈ fresh
    · exact absurd ha (by simp [hmem])
    · simp only [if_neg hmem] at ha
      obtain ⟨hdet, hv⟩ := M.detached a v ha
      exact ⟨hdet.frame hwithin hmem, (hvalue a hmem).trans hv⟩

/-- A merged list. -/
theorem Models.merge (M : Models w s) {n dst src : Nat} {ys : List (Nat × Nat)} (hne : dst ≠ src)
    (hdst : s.lists dst = some xs) (hsrc : s.lists src = some ys) (hn : ys.length ≤ n) :
    ∃ w', w.listMerge n dst src = some w' ∧ Models w' { s with
      lists := Function.update (Function.update s.lists dst (some (xs ++ ys))) src none } := by
  have hshape := M.shape dst xs hdst
  have hshape' := M.shape src ys hsrc
  refine ⟨_, hshape.merge hshape' (hn.trans' (Nat.le_of_eq (List.length_map _))), ?_⟩
  have hvalues : ∀ p ∈ xs ++ ys, w.value p.1 = p.2 := by
    intro p hp
    rcases List.mem_append.mp hp with hp | hp
    · exact M.values dst xs hdst p hp
    · exact M.values src ys hsrc p hp
  have hlists : ∀ m ms,
      Function.update (Function.update s.lists dst (some (xs ++ ys))) src none m = some ms →
      m = dst ∧ ms = xs ++ ys ∨ m ≠ dst ∧ m ≠ src ∧ s.lists m = some ms := by
    intro m ms hm
    by_cases hms : m = src
    · rw [hms, Function.update_self] at hm
      cases hm
    · rw [Function.update_of_ne hms] at hm
      rcases lists_update hm with h | ⟨hmd, hm⟩
      · exact .inl h
      · exact .inr ⟨hmd, hms, hm⟩
  refine ⟨fun m ms hm => ?_, fun m ms hm => ?_, fun a v ha => ?_⟩
  · rcases hlists m ms hm with ⟨rfl, rfl⟩ | ⟨hmd, hms, hm⟩
    · rw [nodes_append]
      exact hshape.hang hshape' hne
    · refine (M.shape m ms hm).frame within_hang hmd fun a ha hmem => ?_
      rcases List.mem_append.mp hmem with hmem | hmem
      · exact (M.shape m ms hm).disjoint hshape hmd ha hmem
      · exact (M.shape m ms hm).disjoint hshape' hms ha hmem
  · rcases hlists m ms hm with ⟨rfl, rfl⟩ | ⟨hmd, hms, hm⟩
    · exact hvalues
    · exact M.values m ms hm
  · obtain ⟨hdet, hv⟩ := M.detached a v ha
    refine ⟨hdet.frame within_hang fun hmem => ?_, hv⟩
    rcases List.mem_append.mp hmem with hmem | hmem
    · exact hshape.notMem hdet hmem
    · exact hshape'.notMem hdet hmem

end Models

/-! ## Runs -/

/-- A call that may be made does not fault, returns what it should, and keeps
the store in step. -/
theorem Models.exec {w : Store} {s s' : Spec} {op : Op} {ret : Option Nat} (M : Models w s)
    (h : SpecStep s op ret s') : ∃ w', w.exec op = some (ret, w') ∧ Models w' s' := by
  cases h with
  | create _ => exact ⟨_, rfl, M.create _⟩
  | nodeify ha => exact ⟨_, rfl, M.nodeify _ ha⟩
  | @push l a v xs hl ha =>
      have hl' : s.lists l = some (xs ++ []) := hl.trans (congrArg some (List.append_nil xs).symm)
      refine ⟨_, ?_, M.putIn hl' ha⟩
      rw [Store.exec, (M.shape l xs hl).push a]
      rfl
  | @prepend l a v xs hl ha =>
      refine ⟨_, ?_, M.putIn (show s.lists l = some ([] ++ xs) from hl) ha⟩
      rw [Store.exec, (M.shape l xs hl).prepend a]
      rfl
  | @insertAfter l a v b u ys zs hl ha =>
      have hshape := M.shape l _ hl
      rw [nodes_append, nodes_cons] at hshape
      have hassoc : ys ++ (b, u) :: (a, v) :: zs = (ys ++ [(b, u)]) ++ (a, v) :: zs := by
        rw [List.append_assoc, List.singleton_append]
      have hl' : s.lists l = some ((ys ++ [(b, u)]) ++ zs) := by
        rw [hl, List.append_assoc, List.singleton_append]
      rw [hassoc]
      refine ⟨_, ?_, M.putIn hl' ha⟩
      rw [Store.exec, hshape.insertAfter (M.detached a v ha).1, nodes_append]
      rfl
  | @delete l a v ys zs hl =>
      obtain ⟨hdelete, M'⟩ := M.takeOut hl
      refine ⟨_, ?_, M'⟩
      rw [Store.exec, hdelete]
  | @popEmpty l hl =>
      refine ⟨w, ?_, M⟩
      rw [Store.exec, Store.listPop, (M.shape l [] hl).tail]
      rfl
  | @pop l a v xs hl =>
      obtain ⟨hdelete, M'⟩ := M.takeOut hl
      rw [List.append_nil] at M'
      refine ⟨_, ?_, M'⟩
      have htail : w.tail l = some a := by
        rw [(M.shape l _ hl).tail, nodes_append]
        exact List.getLast?_concat
      simp only [Store.exec, Store.listPop, htail, hdelete]
  | @dequeueEmpty l hl =>
      refine ⟨w, ?_, M⟩
      rw [Store.exec, Store.listDequeue, (M.shape l [] hl).head]
      rfl
  | @dequeue l a v xs hl =>
      obtain ⟨hdelete, M'⟩ := M.takeOut (show s.lists l = some ([] ++ (a, v) :: xs) from hl)
      refine ⟨_, ?_, M'⟩
      have hhead : w.head l = some a := (M.shape l _ hl).head
      simp only [Store.exec, Store.listDequeue, hhead, hdelete]
  | copy hsrc hout hlen hnodup hfresh =>
      obtain ⟨w', hcopy, M'⟩ := M.copy hsrc hout hlen hnodup hfresh
      refine ⟨w', ?_, M'⟩
      rw [Store.exec, hcopy, Option.map_some]
  | merge hne hdst hsrc hn =>
      obtain ⟨w', hmerge, M'⟩ := M.merge hne hdst hsrc hn
      refine ⟨w', ?_, M'⟩
      rw [Store.exec, hmerge, Option.map_some]

/-- The calls of a run, one after the other. -/
inductive SpecRun : Spec → List (Op × Option Nat) → Spec → Prop where
  | nil (s : Spec) : SpecRun s [] s
  | cons {s s' s'' : Spec} {op : Op} {ret : Option Nat} {ops : List (Op × Option Nat)} :
      SpecStep s op ret s' → SpecRun s' ops s'' → SpecRun s ((op, ret) :: ops) s''

inductive Run : Store → List (Op × Option Nat) → Store → Prop where
  | nil (w : Store) : Run w [] w
  | cons {w w' w'' : Store} {op : Op} {ret : Option Nat} {ops : List (Op × Option Nat)} :
      w.exec op = some (ret, w') → Run w' ops w'' → Run w ((op, ret) :: ops) w''

/-- The pointers of the list `l` agree with the sequence `xs`. -/
structure WellLinked (w : Store) (l : Nat) (xs : List (Nat × Nat)) : Prop where
  sz : w.sz l = xs.length
  /-- Following `next` from the head, for as long as it leads. -/
  forward : ∀ n, w.sz l ≤ n → walk w.next n (w.head l) = nodes xs
  backward : ∀ n, w.sz l ≤ n → walk w.prev n (w.tail l) = (nodes xs).reverse
  distinct : (nodes xs).Nodup
  tail : w.tail l = (nodes xs).getLast?
  owner : ∀ a ∈ nodes xs, w.owner a = some l
  values : (nodes xs).map w.value = xs.map Prod.snd

theorem Models.wellLinked {w : Store} {s : Spec} (M : Models w s) {l : Nat}
    {xs : List (Nat × Nat)} (hl : s.lists l = some xs) : WellLinked w l xs := by
  have h := M.shape l xs hl
  have hlen : (nodes xs).length = xs.length := List.length_map _
  refine ⟨h.sz.trans hlen, fun n hn => ?_, fun n hn => ?_, h.nodup, h.tail, h.owner, ?_⟩
  · rw [h.head]
    exact h.next.walk_eq (h.sz ▸ hn)
  · rw [h.tail, ← List.head?_reverse]
    exact h.prev.walk_eq (by rw [List.length_reverse, ← h.sz]; exact hn)
  · rw [nodes, List.map_map]
    exact List.map_congr_left fun p hp => M.values l xs hl p hp

theorem Models.run {w : Store} {s s' : Spec} {ops : List (Op × Option Nat)} (M : Models w s)
    (h : SpecRun s ops s') : ∃ w', Run w ops w' ∧ Models w' s' := by
  induction h generalizing w with
  | nil s => exact ⟨w, .nil w, M⟩
  | cons hstep _ ih =>
      obtain ⟨w', hexec, M'⟩ := M.exec hstep
      obtain ⟨w'', hrun, M''⟩ := ih M'
      exact ⟨w'', .cons hexec hrun, M''⟩

/-- Every run of calls goes through; after it the pointers of each list agree
with its sequence, and the nodes outside the lists that were made or deleted
have `next`, `prev` and `owner` NULL. -/
theorem lists_refine (w : Store) {ops : List (Op × Option Nat)} {s : Spec}
    (h : SpecRun ⟨fun _ => none, fun _ => none⟩ ops s) :
    ∃ w', Run w ops w' ∧ (∀ l xs, s.lists l = some xs → WellLinked w' l xs)
      ∧ ∀ a v, s.detached a = some v → Detached w' a ∧ w'.value a = v := by
  have M : Models w ⟨fun _ => none, fun _ => none⟩ := ⟨nofun, nofun, nofun⟩
  obtain ⟨w', hrun, M'⟩ := M.run h
  exact ⟨w', hrun, fun l xs hl => M'.wellLinked hl, M'.detached⟩

/-- One item in a new list, which then goes to the end of another. -/
theorem lists_refine_small : ∃ w', Run ⟨fun _ => some 1, fun _ => none, fun _ => none, fun _ => 9,
      fun _ => none, fun _ => none, fun _ => 3⟩
      [(.listCreate 0, some 0), (.listNodeify 5 7, some 5), (.listPushNode 0 5, some 5),
        (.listCreate 1, some 1), (.listMerge 1 1 0, some 1), (.listPop 1, some 5)] w'
    ∧ Detached w' 5 := by
  have hspec : SpecRun ⟨fun _ => none, fun _ => none⟩
      [(.listCreate 0, some 0), (.listNodeify 5 7, some 5), (.listPushNode 0 5, some 5),
        (.listCreate 1, some 1), (.listMerge 1 1 0, some 1), (.listPop 1, some 5)] _ :=
    .cons (.create rfl) (.cons (.nodeify (fun l xs hl => by
      rcases lists_update hl with ⟨-, rfl⟩ | ⟨-, hl⟩
      · exact List.not_mem_nil
      · cases hl)) (.cons (@SpecStep.push _ 0 5 7 [] rfl rfl) (.cons (.create rfl)
      (.cons (@SpecStep.merge _ 1 1 0 [] [(5, 7)] (by decide) rfl rfl (by decide))
      (.cons (@SpecStep.pop _ 1 5 7 [] rfl) (.nil _))))))
  obtain ⟨w', hrun, -, hdet⟩ := lists_refine _ hspec
  exact ⟨w', hrun, (hdet 5 7 rfl).1⟩

end DList

end Shitos
