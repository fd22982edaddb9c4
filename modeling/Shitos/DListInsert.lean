import Shitos.DList

/-!
# Insertion at a position

`list_get`, `list_insert_node` and `list_insert_item`. Before an inner node
and at the end the new node is put in as it should be. Before the head,
`list_insert_node_before` stores the new node in `list->tail` instead of
`list->head`, and the list is not one any more (`insert_position_iff`).
-/

namespace Shitos

namespace DList

namespace Store

variable (w : Store)

/-- The loop of `list_get`, for at most `n` turns. -/
def getLoop (idx : Nat) : Nat → Option Nat → Nat → Option (Option Nat)
  | _, none, _ => some none
  | 0, some _, _ => none
  | n + 1, some item, i => if i = idx then some (some item) else getLoop idx n (w.next item) (i + 1)

def listGet (n list idx : Nat) : Option (Option Nat) := w.getLoop idx n (w.head list) 0

/-- `list_insert_node`, for a node that is not NULL. -/
def listInsertNode (n list idx node : Nat) : Option Store :=
  (w.listGet n list idx).bind fun after => w.listInsertNodeBefore list after node

def listInsertItem (n list idx node item : Nat) : Option Store :=
  (w.listNodeify node item).listInsertNode n list idx node

end Store

section Position

variable {w w' : Store} {l a b n : Nat} {ns ms ys zs : List Nat}

theorem getLoop_eq (idx : Nat) (h : Links w.next ns none) (hn : ns.length ≤ n) (i : Nat)
    (hi : i ≤ idx) : w.getLoop idx n ns.head? i = some ns[idx - i]? := by
  induction ns generalizing n i with
  | nil => cases n <;> rfl
  | cons a ns ih =>
      obtain ⟨n, rfl⟩ := Nat.exists_eq_succ_of_ne_zero (Nat.ne_of_gt (Nat.zero_lt_of_lt hn))
      rw [List.head?_cons, Store.getLoop]
      by_cases heq : i = idx
      · rw [if_pos heq, heq, Nat.sub_self]
        rfl
      · rw [if_neg heq, h.1, Option.or_none, ih h.2 (Nat.le_of_succ_le_succ hn) _ (by omega),
          show idx - i = (idx - (i + 1)) + 1 by omega, List.getElem?_cons_succ]

theorem Shape.get (h : Shape w l ns) (hn : ns.length ≤ n) (idx : Nat) :
    w.listGet n l idx = some ns[idx]? := by
  rw [Store.listGet, h.head, getLoop_eq idx h.next hn 0 (Nat.zero_le idx), Nat.sub_zero]

/-- Inserting a node before a node that is not the first one. -/
theorem Shape.insertBefore (h : Shape w l (ys ++ b :: zs)) (hys : ys ≠ [])
    (ha : a ∉ ys ++ b :: zs) :
    w.listInsertNodeBefore l (some b) a = some (w.putIn l ys a (b :: zs)) := by
  obtain ⟨ys, c, rfl⟩ := List.eq_nil_or_concat ys |>.resolve_left hys
  rw [List.concat_eq_append] at h ha ⊢
  have hhead : ((ys ++ [c]) ++ a :: b :: zs).head? = w.head l := by
    rw [h.head]
    cases ys <;> rfl
  have htail : ((ys ++ [c]) ++ a :: b :: zs).getLast? = w.tail l := by
    rw [h.tail]
    simp [List.getLast?_append]
  have hprev : (w.setOwner a l).prev b = some c := by
    have hlink := h.prev
    rw [List.reverse_append, List.reverse_cons, List.append_assoc] at hlink
    exact (Links.apply hlink).trans (by simp)
  have hnot : some b ≠ (w.setOwner a l).head l := by
    intro heq
    have hfirst : (ys ++ [c]).head? = some b := by
      rw [heq]
      show _ = w.head l
      rw [h.head]
      cases ys <;> rfl
    exact List.disjoint_of_nodup_append h.nodup (List.mem_of_head? hfirst) List.mem_cons_self
  have hac : some c ≠ some a := by
    intro heq
    obtain rfl := Option.some.inj heq
    exact ha (List.mem_append_left _ (List.mem_append_right _ List.mem_cons_self))
  rw [Store.listInsertNodeBefore]
  simp only [if_neg (h.sz_ne_zero a), if_neg hnot, hprev, Store.setNext, reduceCtorEq, if_false,
    Option.map_some, Store.putIn, List.head?_cons, List.getLast?_concat, hhead, htail,
    Function.update_eq_self]
  rw [setOpt_comm hac]
  rfl

/-- Before the head, the new node only gets its `next`, and becomes the tail. -/
theorem Shape.insertBeforeHead (h : Shape w l (b :: zs)) (a : Nat) :
    ∃ w', w.listInsertNodeBefore l (some b) a = some w' ∧ w'.head l = some b
      ∧ w'.next = setOpt w.next (some a) (some b) ∧ w'.sz l = zs.length + 2 := by
  have hsz : (w.setOwner a l).sz l ≠ 0 := @Shape.sz_ne_zero w l [] zs b h a
  have hhead : some b = (w.setOwner a l).head l := h.head.symm
  rw [Store.listInsertNodeBefore]
  simp only [if_neg hsz, if_pos hhead]
  refine ⟨_, rfl, h.head, rfl, ?_⟩
  refine (Function.update_self _ _ _).trans ?_
  show w.sz l + 1 = _
  rw [h.sz, List.length_cons]

/-- A list has the nodes that its head leads to. -/
theorem Shape.nodes_eq (h : Shape w l ns) (h' : Shape w' l ms) (hhead : w'.head l = w.head l)
    (hnext : ∀ c ∈ ns, w'.next c = w.next c) : ms = ns := by
  have hfollow : w'.listForeach (ns.length + ms.length) l = some ns := by
    rw [Store.listForeach, hhead, h.head]
    exact (h.next.congr hnext).follow_eq (Nat.le_add_right _ _)
  rw [h'.foreach (Nat.le_add_left _ _)] at hfollow
  exact Option.some.inj hfollow

theorem insertBeforeHead_broken (h : Shape w l (b :: zs)) (ha : a ∉ b :: zs)
    (hinsert : w.listInsertNodeBefore l (some b) a = some w') (ms : List Nat) : ¬Shape w' l ms := by
  obtain ⟨w'', hinsert', hhead, hnext, hsz⟩ := h.insertBeforeHead a
  obtain rfl := Option.some.inj (hinsert'.symm.trans hinsert)
  intro h'
  -- the head still leads to the old nodes, but there should be one more
  have hms := h.nodes_eq h' (hhead.trans h.head.symm) fun c hc => by
    rw [hnext]
    exact setOpt_of_ne fun heq => ha (Option.some.inj heq ▸ hc)
  have hlen := h'.sz
  rw [hsz, hms, List.length_cons] at hlen
  omega

/-- What an insertion should do to the values of a list. -/
def Inserted (w : Store) (l : Nat) (ns : List Nat) (idx item : Nat) (w' : Store) : Prop :=
  ∃ ms, Shape w' l ms
    ∧ ms.map w'.value = (ns.map w.value).take idx ++ item :: (ns.map w.value).drop idx

/-- A node put in at position `idx` of the nodes. -/
theorem inserted_putIn (h : Shape w l ns) (ha : a ∉ ns) (idx item : Nat) :
    Inserted w l ns idx item
      ((w.listNodeify a item).putIn l (ns.take idx) a (ns.drop idx)) := by
  have hnode := h.nodeify ha item
  rw [← List.take_append_drop idx ns] at hnode ha
  refine ⟨_, hnode.putIn ha, ?_⟩
  have hold : ∀ c ∈ ns, Function.update w.value a item c = w.value c := fun c hc =>
    Function.update_of_ne (fun heq => ha (by rw [List.take_append_drop]; exact heq ▸ hc)) _ _
  rw [List.map_append, List.map_cons, ← List.map_take, ← List.map_drop]
  refine congrArg₂ _ (List.map_congr_left fun c hc => hold c (List.mem_of_mem_take hc))
    (congrArg₂ _ (Function.update_self _ _ _) ?_)
  exact List.map_congr_left fun c hc => hold c (List.mem_of_mem_drop hc)

/-- Inserting an item, at the head of a list that is not empty or elsewhere. -/
theorem insertItem_iff (h : Shape w l ns) (ha : a ∉ ns) (hn : ns.length ≤ n) (idx item : Nat) :
    (∃ w', w.listInsertItem n l idx a item = some w' ∧ Inserted w l ns idx item w')
      ↔ idx ≠ 0 ∨ ns = [] := by
  have hnode := h.nodeify ha item
  have hinsert : w.listInsertItem n l idx a item
      = (w.listNodeify a item).listInsertNodeBefore l ns[idx]? a := by
    rw [Store.listInsertItem, Store.listInsertNode, hnode.get hn, Option.bind_some]
  rw [hinsert]
  by_cases hlt : idx < ns.length
  · have hsplit : ns = ns.take idx ++ ns[idx] :: ns.drop (idx + 1) := by
      rw [List.getElem_cons_drop, List.take_append_drop]
    rw [List.getElem?_eq_getElem hlt]
    constructor
    · rintro ⟨w', hdone, ms, hshape, -⟩
      by_contra hnot
      have hzero : idx = 0 := by
        by_contra hne
        exact hnot (Or.inl hne)
      subst hzero
      rw [List.take_zero, List.nil_append] at hsplit
      rw [hsplit] at hnode ha
      exact insertBeforeHead_broken hnode ha hdone ms hshape
    · rintro (hne | rfl)
      · have htake : ns.take idx ≠ [] := by
          intro hnil
          have hlen := congrArg List.length hnil
          rw [List.length_take, List.length_nil] at hlen
          omega
        have hput := inserted_putIn h ha idx item
        rw [← List.getElem_cons_drop hlt] at hput
        rw [hsplit] at hnode ha
        exact ⟨_, hnode.insertBefore htake ha, hput⟩
      · exact absurd hlt (Nat.not_lt_zero _)
  · have hle : ns.length ≤ idx := Nat.le_of_not_lt hlt
    rw [List.getElem?_eq_none hle]
    refine iff_of_true ⟨_, hnode.push a, ?_⟩ ?_
    · have hput := inserted_putIn h ha idx item
      rwa [List.take_of_length_le hle, List.drop_of_length_le hle] at hput
    · by_cases hzero : idx = 0
      · exact Or.inr (List.eq_nil_of_length_eq_zero (by omega))
      · exact Or.inl hzero

theorem insertNodeBefore_iff (h : Shape w l (ys ++ b :: zs)) (ha : a ∉ ys ++ b :: zs) :
    (∃ w', w.listInsertNodeBefore l (some b) a = some w' ∧ Shape w' l (ys ++ a :: b :: zs))
      ↔ ys ≠ [] := by
  constructor
  · rintro ⟨w', hdone, hshape⟩ rfl
    exact insertBeforeHead_broken h ha hdone _ hshape
  · exact fun hys => ⟨_, h.insertBefore hys ha, h.putIn ha⟩

end Position

/-- Positional insertion does what it should exactly where the node does not
become the new head of a list that had one. -/
theorem insert_position_iff (w : Store) (l : Nat) (ns : List Nat) (h : Shape w l ns) :
    (∀ a idx item n, a ∉ ns → ns.length ≤ n →
        ((∃ w', w.listInsertItem n l idx a item = some w' ∧ Inserted w l ns idx item w')
          ↔ idx ≠ 0 ∨ ns = []))
      ∧ ∀ ys b zs a, ns = ys ++ b :: zs → Detached w a →
        ((∃ w', w.listInsertNodeBefore l (some b) a = some w' ∧ Shape w' l (ys ++ a :: b :: zs))
          ↔ ys ≠ []) := by
  refine ⟨fun a idx item n ha hn => insertItem_iff h ha hn idx item, fun ys b zs a hns ha => ?_⟩
  have hnot := h.notMem ha
  subst hns
  exact insertNodeBefore_iff h hnot

/-- The list 0 with the one node 5, of value 7. -/
def oneNode : Store :=
  ⟨fun _ => none, fun _ => none, fun a => if a = 5 then some 0 else none, fun _ => 7,
    fun _ => some 5, fun _ => some 5, fun _ => 1⟩

theorem shape_oneNode : Shape oneNode 0 [5] :=
  ⟨rfl, rfl, rfl, ⟨rfl, trivial⟩, ⟨rfl, trivial⟩, fun a ha => by
    rw [List.mem_singleton.mp ha]
    rfl, List.nodup_singleton 5⟩

theorem insert_position_iff_one :
    (∃ w', oneNode.listInsertItem 1 0 1 6 8 = some w' ∧ Inserted oneNode 0 [5] 1 8 w')
      ↔ 1 ≠ 0 ∨ [5] = [] :=
  (insert_position_iff oneNode 0 [5] shape_oneNode).1 6 1 8 1 (by decide) (by decide)

/-- Neither call can put a node in front of that one. -/
theorem insert_head_broken :
    (¬∃ w', oneNode.listInsertItem 1 0 0 6 8 = some w' ∧ Inserted oneNode 0 [5] 0 8 w')
      ∧ ¬∃ w', oneNode.listInsertNodeBefore 0 (some 5) 6 = some w' ∧ Shape w' 0 [6, 5] := by
  refine ⟨?_, ?_⟩
  · rw [insertItem_iff shape_oneNode (by decide) (by decide)]
    decide
  · have hbroken := @insertNodeBefore_iff oneNode 0 6 5 [] [] shape_oneNode (by decide)
    exact fun h => hbroken.mp h rfl

end DList

end Shitos
