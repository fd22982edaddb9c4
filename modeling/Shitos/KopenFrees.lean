import Shitos.KopenTurns

/-!
# The nodes that a search frees

A search frees every node that it comes to, but the one it returns: the link
that a turn follows, and the node that the next component is looked for in. A run
of the elementary steps says where each is freed (`search_run`).

Some nodes are not the search's to free (`Shared`): those with a negative
reference count, those of the mount tree, and those that a driver keeps. The
search leaves them alone exactly where it neither follows such a node as a link
nor looks for a component in it (`frees_owned_iff`).
-/

namespace Shitos

namespace Kopen

open Shitos.Path Components

/-- The file of an entry in the tree. -/
inductive Mounted : TreeNode → Nat → Prop
  | here {node : TreeNode} {file : Nat} (h : node.value.file = some file) : Mounted node file
  | inside {node child : TreeNode} {file : Nat} (hchild : child ∈ node.children)
      (h : Mounted child file) : Mounted node file

section Shared

variable {δ σ : Type} (D : Drivers δ σ) (root : TreeNode) (kept : σ → Nat → Prop)

/-- A node that is not a search's to free; `kept` are the nodes that the drivers
hold on to. -/
def Shared (k : Kernel δ σ) (node : Nat) : Prop :=
  (k.nodes node).refcount < 0 ∨ Mounted root node ∨ kept k.fs node

/-- No shared node has been freed. -/
def Sound (k : Kernel δ σ) : Prop := ∀ node, Shared root kept k node → node ∉ k.freed

/-- Nothing is freed, and no node becomes a shared one. -/
structure Quiet (k k' : Kernel δ σ) : Prop where
  freed : k'.freed = k.freed
  shared : ∀ node, Shared root kept k' node → Shared root kept k node

/-- What the allocator and the file systems promise: they free no node and make none a
shared one, and the node that a file system is asked about is shared afterwards if it
was before. -/
structure Lawful : Prop where
  kmalloc : ∀ k, Quiet root kept k (D.kmalloc k).2
  onOpen : ∀ f d k node flags, D.onOpen d = some f → Quiet root kept k (f k node flags)
  finddir : ∀ k node name, Quiet root kept k (fsFinddir D k node name).2
  finddirSelf : ∀ k node name, Shared root kept k node →
    Shared root kept (fsFinddir D k node name).2 node
  readlink : ∀ k node sz, Quiet root kept k (fsReadlink D k node sz).2.2
  readlinkSelf : ∀ k node sz, Shared root kept k node →
    Shared root kept (fsReadlink D k node sz).2.2 node

/-- A node that the turn frees when it goes on to the next component, and when. -/
def Turn.stepFrees (t : Turn δ σ) : List (Kernel δ σ × Nat) :=
  match t.rest, t.visited D with
  | c :: _, some (some node, k) => [((fsFinddir D k node c).2, node)]
  | _, _ => []

/-- The nodes that the turn frees, and when. -/
def Turn.frees (t : Turn δ σ) : List (Kernel δ σ × Nat) :=
  (if t.Follows then [(t.linkKernel D, t.node)] else []) ++ t.stepFrees D

/-- The turn gives no shared node up: neither the link that it follows, nor the node
in which it looks for the next component. -/
structure Turn.Spares (t : Turn δ σ) : Prop where
  link : t.Follows → ¬ Shared root kept t.kernel t.node
  dir : t.rest ≠ [] → ∀ node k, t.visited D = some (some node, k) → ¬ Shared root kept k node

end Shared

/-! ## Runs -/

section Run

variable {δ σ : Type} {D : Drivers δ σ} {root : TreeNode} {kept : σ → Nat → Prop}

/-- A run of elementary steps, with the nodes that it frees and where. -/
inductive Run (root : TreeNode) (kept : σ → Nat → Prop) :
    Kernel δ σ → List (Kernel δ σ × Nat) → Kernel δ σ → Prop
  | done (k : Kernel δ σ) : Run root kept k [] k
  | quiet {k k₁ k₂ : Kernel δ σ} {l : List (Kernel δ σ × Nat)} (h : Quiet root kept k k₁)
      (hrest : Run root kept k₁ l k₂) : Run root kept k l k₂
  | free {k k₂ : Kernel δ σ} {node : Nat} {l : List (Kernel δ σ × Nat)}
      (hrest : Run root kept (kfree k node) l k₂) : Run root kept k ((k, node) :: l) k₂

theorem Run.trans {k k₁ k₂ : Kernel δ σ} {l l' : List (Kernel δ σ × Nat)}
    (h : Run root kept k l k₁) (h' : Run root kept k₁ l' k₂) : Run root kept k (l ++ l') k₂ := by
  induction h with
  | done k => exact h'
  | quiet hquiet _ ih => exact .quiet hquiet (ih h')
  | free _ ih => exact .free (ih h')

theorem Run.one {k k' : Kernel δ σ} (h : Quiet root kept k k') : Run root kept k [] k' :=
  .quiet h (.done k')

theorem Run.freeOne (k : Kernel δ σ) (node : Nat) :
    Run root kept k [(k, node)] (kfree k node) := .free (.done _)

/-- The run's nodes are the ones that have been freed. -/
theorem Run.freed {k k' : Kernel δ σ} {l : List (Kernel δ σ × Nat)} (h : Run root kept k l k')
    (node : Nat) : node ∈ k'.freed ↔ node ∈ k.freed ∨ ∃ e ∈ l, e.2 = node := by
  induction h with
  | done k =>
      constructor
      · exact Or.inl
      · rintro (h | ⟨e, he, -⟩)
        · exact h
        · exact absurd he List.not_mem_nil
  | quiet hquiet _ ih => rw [ih, hquiet.freed]
  | @free k k₂ node' l _ ih =>
      have hfree : node ∈ (kfree k node').freed ↔ node = node' ∨ node ∈ k.freed := List.mem_cons
      rw [ih, hfree]
      constructor
      · rintro ((rfl | h) | ⟨e, he, heq⟩)
        · exact Or.inr ⟨_, List.mem_cons_self, rfl⟩
        · exact Or.inl h
        · exact Or.inr ⟨e, List.mem_cons_of_mem _ he, heq⟩
      · rintro (h | ⟨e, he, heq⟩)
        · exact Or.inl (Or.inr h)
        · rcases List.mem_cons.mp he with rfl | he
          · exact Or.inl (Or.inl heq.symm)
          · exact Or.inr ⟨e, he, heq⟩

/-- A run that frees no shared node keeps them all. -/
theorem Run.sound {k k' : Kernel δ σ} {l : List (Kernel δ σ × Nat)} (h : Run root kept k l k')
    (hl : ∀ e ∈ l, ¬ Shared root kept e.1 e.2) (hk : Sound root kept k) : Sound root kept k' := by
  induction h with
  | done k => exact hk
  | quiet hquiet _ ih =>
      refine ih hl fun node hnode => ?_
      rw [hquiet.freed]
      exact hk node (hquiet.shared node hnode)
  | @free k k₂ node' l _ ih =>
      refine ih (fun e he => hl e (List.mem_cons_of_mem _ he)) fun node hnode hmem => ?_
      rcases List.mem_cons.mp hmem with rfl | hmem
      · exact hl _ List.mem_cons_self hnode
      · exact hk node hnode hmem

theorem quiet_setErrno (k : Kernel δ σ) (e : Int) : Quiet root kept k (setErrno k e) :=
  ⟨rfl, fun _ h => h⟩

theorem Quiet.refl (k : Kernel δ σ) : Quiet root kept k k := ⟨rfl, fun _ h => h⟩

theorem Quiet.trans {k k₁ k₂ : Kernel δ σ} (h : Quiet root kept k k₁)
    (h' : Quiet root kept k₁ k₂) : Quiet root kept k k₂ :=
  ⟨h'.freed.trans h.freed, fun node hnode => h.shared node (h'.shared node hnode)⟩

/-- A node whose count is not negative becomes no shared one by being written. -/
theorem quiet_update (k : Kernel δ σ) (a : Nat) {n : FsNode δ} (hn : ¬ n.refcount < 0) :
    Quiet root kept k { k with nodes := Function.update k.nodes a n } := by
  refine ⟨rfl, fun node hnode => ?_⟩
  rcases hnode with hneg | hnode
  · have hcount : (Function.update k.nodes a n node).refcount < 0 := hneg
    by_cases ha : node = a
    · subst ha
      rw [Function.update_self] at hcount
      exact absurd hcount hn
    · rw [Function.update_of_ne ha] at hcount
      exact Or.inl hcount
  · exact Or.inr hnode

theorem quiet_fsOpen (hD : Lawful D root kept) (k : Kernel δ σ) (node flags : Nat) :
    Quiet root kept k (fsOpen D k node flags) := by
  have hcount : Quiet root kept k (if 0 ≤ (k.nodes node).refcount then
      { k with
        nodes := Function.update k.nodes node
          (({ k.nodes node with refcount := (k.nodes node).refcount + 1 } : FsNode δ)) }
      else k) := by
    split
    · rename_i hpos
      exact quiet_update k node (by dsimp only; omega)
    · exact Quiet.refl k
  rw [fsOpen]
  split
  · rename_i f hf
    exact hcount.trans (hD.onOpen f _ _ node flags hf)
  · exact hcount

theorem quiet_cloneNode (hD : Lawful D root kept) (k : Kernel δ σ) (last : Nat) :
    Quiet root kept k (cloneNode D k last).2 :=
  (hD.kmalloc k).trans (quiet_update _ _ (Int.lt_irrefl 0))

theorem quiet_linkKernel (hD : Lawful D root kept) (t : Turn δ σ) :
    Quiet root kept t.kernel (t.linkKernel D) := by
  rw [Turn.linkKernel]
  split
  · exact Quiet.refl _
  · split
    · exact Quiet.refl _
    · exact hD.readlink _ _ _

theorem shared_linkKernel (hD : Lawful D root kept) (t : Turn δ σ) :
    Shared root kept (t.linkKernel D) t.node ↔ Shared root kept t.kernel t.node := by
  refine ⟨(quiet_linkKernel hD t).shared _, fun h => ?_⟩
  rw [Turn.linkKernel]
  split
  · exact h
  · split
    · exact h
    · exact hD.readlinkSelf _ _ _ h

/-! ## The run of a search -/

/-- `e` is what one of the turns frees, or one of the calls inside them. -/
def FreedIn (D : Drivers δ σ) (inner : Kernel δ σ → Str → List (Turn δ σ)) (ts : List (Turn δ σ))
    (e : Kernel δ σ × Nat) : Prop :=
  ∃ s ∈ ts.flatMap fun t => t :: callTurns D inner t, e ∈ s.frees D

variable {inner : Kernel δ σ → Str → List (Turn δ σ)}

theorem freedIn_nil (e : Kernel δ σ × Nat) : e ∈ ([] : List (Kernel δ σ × Nat))
    ↔ FreedIn D inner [] e := by
  constructor
  · exact fun he => absurd he List.not_mem_nil
  · rintro ⟨s, hs, -⟩
    exact absurd hs List.not_mem_nil

/-- Nothing comes after a turn that the search ends with. -/
theorem freedIn_last (l : List (Kernel δ σ × Nat)) (e : Kernel δ σ × Nat) :
    (e ∈ l ∨ e ∈ ([] : List (Kernel δ σ × Nat)) ∨ FreedIn D inner [] e) ↔ e ∈ l := by
  rw [← freedIn_nil, or_self]
  exact ⟨fun he => he.resolve_right List.not_mem_nil, Or.inl⟩

theorem freedIn_cons (t : Turn δ σ) (ts : List (Turn δ σ)) (e : Kernel δ σ × Nat) :
    FreedIn D inner (t :: ts) e
      ↔ (e ∈ (if t.Follows then [(t.linkKernel D, t.node)] else [])
        ∨ ∃ s ∈ callTurns D inner t, e ∈ s.frees D) ∨ e ∈ t.stepFrees D ∨ FreedIn D inner ts e := by
  have hfrees : e ∈ t.frees D ↔ e ∈ (if t.Follows then [(t.linkKernel D, t.node)] else [])
      ∨ e ∈ t.stepFrees D := List.mem_append
  rw [FreedIn, FreedIn, List.flatMap_cons]
  constructor
  · rintro ⟨s, hs, he⟩
    rcases List.mem_append.mp hs with hs | hs
    · rcases List.mem_cons.mp hs with rfl | hs
      · rcases hfrees.mp he with he | he
        · exact Or.inl (Or.inl he)
        · exact Or.inr (Or.inl he)
      · exact Or.inl (Or.inr ⟨s, hs, he⟩)
    · exact Or.inr (Or.inr ⟨s, hs, he⟩)
  · rintro ((he | ⟨s, hs, he⟩) | he | ⟨s, hs, he⟩)
    · exact ⟨t, List.mem_append_left _ List.mem_cons_self, hfrees.mpr (Or.inl he)⟩
    · exact ⟨s, List.mem_append_left _ (List.mem_cons_of_mem _ hs), he⟩
    · exact ⟨t, List.mem_append_left _ List.mem_cons_self, hfrees.mpr (Or.inr he)⟩
    · exact ⟨s, List.mem_append_right _ hs, he⟩

theorem stepFrees_last {t : Turn δ σ} (h : t.rest = []) : t.stepFrees D = [] := by
  rw [Turn.stepFrees, h]

theorem stepFrees_failed {t : Turn δ σ} {k : Kernel δ σ} (h : t.visited D = some (none, k)) :
    t.stepFrees D = [] := by
  rw [Turn.stepFrees, h]
  cases t.rest with
  | nil => rfl
  | cons c rest => rfl

theorem stepFrees_next {t : Turn δ σ} {c : Str} {rest : List Str} {node : Nat} {k : Kernel δ σ}
    (hrest : t.rest = c :: rest) (h : t.visited D = some (some node, k)) :
    t.stepFrees D = [((fsFinddir D k node c).2, node)] := by
  rw [Turn.stepFrees, hrest, h]

/-- The calls for the targets of links are runs that free what their turns free. -/
def Runs (D : Drivers δ σ) (root : TreeNode) (kept : σ → Nat → Prop) (recur : Recur δ σ)
    (inner : Kernel δ σ → Str → List (Turn δ σ)) : Prop :=
  ∀ k target found k', recur k target [] = some (found, k') →
    ∃ l, Run root kept k l k' ∧ ∀ e, e ∈ l ↔ ∃ s ∈ inner k target, e ∈ s.frees D

theorem visited_run (hD : Lawful D root kept) {t : Turn δ σ}
    (hinner : Runs D root kept t.recur inner)
    {found : Option Nat} {k : Kernel δ σ} (h : t.visited D = some (found, k)) :
    ∃ l, Run root kept t.kernel l k
      ∧ ∀ e, e ∈ l ↔ e ∈ (if t.Follows then [(t.linkKernel D, t.node)] else [])
        ∨ ∃ s ∈ callTurns D inner t, e ∈ s.frees D := by
  have hlink : Run root kept t.kernel [(t.linkKernel D, t.node)] (kfree (t.linkKernel D) t.node) :=
    .quiet (quiet_linkKernel hD t) (Run.freeOne _ _)
  have hnone : ∀ {target}, target = t.target D → target = none → ∀ e,
      ¬ ∃ s ∈ callTurns D inner t, e ∈ s.frees D := by
    rintro _ rfl hnone e ⟨s, hs, -⟩
    rw [callTurns, hnone] at hs
    exact absurd hs List.not_mem_nil
  rcases t.visited_cases (D := D) with ⟨hkeep, htarget, hvisit⟩ | ⟨hfollows, htarget, err, hvisit⟩ |
    ⟨hfollows, target, htarget, hvisit⟩
  · obtain ⟨-, rfl⟩ := Prod.mk.inj (Option.some.inj (hvisit.symm.trans h))
    refine ⟨[], .done _, fun e => ?_⟩
    rw [if_neg hkeep]
    exact ⟨fun he => absurd he List.not_mem_nil,
      fun he => he.elim (fun he => he) (fun he => absurd he (hnone rfl htarget e))⟩
  · obtain ⟨-, rfl⟩ := Prod.mk.inj (Option.some.inj (hvisit.symm.trans h))
    refine ⟨_, hlink.trans (Run.one (quiet_setErrno _ err)), fun e => ?_⟩
    rw [if_pos hfollows, List.append_nil]
    exact ⟨Or.inl, fun he => he.elim id (fun he => absurd he (hnone rfl htarget e))⟩
  · rw [hvisit] at h
    obtain ⟨⟨found', k'⟩, hrecur, hk⟩ := Option.map_eq_some_iff.mp h
    obtain ⟨-, rfl⟩ := Prod.mk.inj hk
    obtain ⟨l, hrun, hl⟩ := hinner _ _ _ _ hrecur
    have hlast : Quiet root kept k' (if found' = none then setErrno k' ENOENT else k') := by
      split
      · exact quiet_setErrno k' ENOENT
      · exact Quiet.refl k'
    refine ⟨_, hlink.trans (hrun.trans (Run.one hlast)), fun e => ?_⟩
    rw [if_pos hfollows, List.append_nil, List.mem_append, hl, callTurns, htarget]

theorem lookup_run (hD : Lawful D root kept) {recur : Recur δ σ}
    (hinner : Runs D root kept recur inner) {pathDepth flags symlinkDepth : Nat} {rest : List Str}
    {k k' : Kernel δ σ} {node : Nat} {found : Option Nat}
    (h : lookup D recur pathDepth flags symlinkDepth rest k node = some (found, k')) :
    ∃ l, Run root kept k l k' ∧ ∀ e, e ∈ l
      ↔ FreedIn D inner (turns D recur pathDepth flags symlinkDepth rest k node) e := by
  induction rest generalizing k node with
  | nil =>
      obtain ⟨t, ht⟩ : ∃ t : Turn δ σ, t = ⟨recur, pathDepth, flags, symlinkDepth, [], k, node⟩ :=
        ⟨_, rfl⟩
      have hvisit : visit D recur (some []) pathDepth flags symlinkDepth k node pathDepth
          = t.visited D := by rw [ht]; rfl
      have hstep : t.stepFrees D = [] := stepFrees_last (by rw [ht])
      rw [lookup, hvisit] at h
      rw [turns, ← ht]
      obtain ⟨⟨found', k₁⟩, hvisited, hrest⟩ := Option.bind_eq_some_iff.mp h
      obtain ⟨l, hrun, hl⟩ := visited_run (t := t) hD (by rw [ht]; exact hinner) hvisited
      refine ⟨l, ?_, fun e => ?_⟩
      · rw [ht] at hrun
        cases found' with
        | none =>
            obtain ⟨-, rfl⟩ := Prod.mk.inj (Option.some.inj hrest)
            exact hrun
        | some node' =>
            obtain ⟨-, rfl⟩ := Prod.mk.inj (Option.some.inj hrest)
            have hopen := hrun.trans (Run.one (quiet_fsOpen hD k₁ node' flags))
            rwa [List.append_nil] at hopen
      · rw [freedIn_cons, ← hl, hstep, freedIn_last]
  | cons c rest ih =>
      obtain ⟨t, ht⟩ : ∃ t : Turn δ σ,
          t = ⟨recur, pathDepth, flags, symlinkDepth, c :: rest, k, node⟩ := ⟨_, rfl⟩
      have hvisit : visit D recur (some []) pathDepth flags symlinkDepth k node
          (pathDepth - (rest.length + 1)) = t.visited D := by rw [ht]; rfl
      rw [lookup, hvisit] at h
      rw [turns, ← ht]
      obtain ⟨⟨found', k₁⟩, hvisited, hrest⟩ := Option.bind_eq_some_iff.mp h
      obtain ⟨l, hrun, hl⟩ := visited_run (t := t) hD (by rw [ht]; exact hinner) hvisited
      have hhead : ∀ ts e, FreedIn D inner (t :: ts) e
          ↔ e ∈ l ∨ e ∈ t.stepFrees D ∨ FreedIn D inner ts e := fun ts e => by
        rw [freedIn_cons, hl]
      rw [ht] at hrun
      rw [hvisited]
      cases found' with
      | none =>
          obtain ⟨-, rfl⟩ := Prod.mk.inj (Option.some.inj hrest)
          refine ⟨l, hrun, fun e => ?_⟩
          rw [hhead, stepFrees_failed hvisited, freedIn_last]
      | some node' =>
          dsimp only at hrest ⊢
          obtain ⟨next, k₂, hnext⟩ : ∃ next k₂, fsFinddir D k₁ node' c = (next, k₂) := ⟨_, _, rfl⟩
          have hfind : Quiet root kept k₁ k₂ := by
            have hquiet := hD.finddir k₁ node' c
            rwa [hnext] at hquiet
          have hfree : Run root kept k (l ++ [(k₂, node')]) (kfree k₂ node') :=
            hrun.trans (.quiet hfind (Run.freeOne k₂ node'))
          have hstep : t.stepFrees D = [(k₂, node')] := by
            rw [stepFrees_next (by rw [ht]) hvisited, hnext]
          rw [hnext] at hrest ⊢
          cases next with
          | none =>
              obtain ⟨-, rfl⟩ := Prod.mk.inj (Option.some.inj hrest)
              refine ⟨_, hfree.trans (Run.one (quiet_setErrno _ ENOENT)), fun e => ?_⟩
              rw [List.append_nil, List.mem_append, hhead, hstep, ← freedIn_nil, List.mem_singleton]
              exact or_congr_right ⟨Or.inl, fun he => he.resolve_right List.not_mem_nil⟩
          | some next =>
              obtain ⟨l', hrun', hl'⟩ := ih hrest
              refine ⟨_, hfree.trans hrun', fun e => ?_⟩
              rw [List.append_assoc, List.mem_append, List.mem_append, hl', hhead, hstep]

/-- A search is a run that frees what its turns free. -/
theorem search_run (hD : Lawful D root kept) (n : Nat) {k k' : Kernel δ σ} {file cwd : Str}
    {flags symlinkDepth : Nat} {found : Option Nat}
    (h : search D root n k (some file) flags symlinkDepth cwd = some (found, k')) :
    ∃ l, Run root kept k l k' ∧ ∀ e, e ∈ l
      ↔ ∃ t ∈ allTurns D root n k file flags symlinkDepth cwd, e ∈ t.frees D := by
  induction n generalizing k k' file flags symlinkDepth cwd found with
  | zero => exact nomatch h
  | succ n ih =>
      have hinner : Runs D root kept (recurOf D root n symlinkDepth)
          (fun k target => allTurns D root n k target 0 (symlinkDepth + 1) []) :=
        fun k target found k' hrecur => ih hrecur
      show ∃ l, Run root kept k l k' ∧ ∀ e, e ∈ l ↔ FreedIn D
        (fun k target => allTurns D root n k target 0 (symlinkDepth + 1) [])
        (searchTurns D root n k file flags symlinkDepth cwd) e
      rw [search] at h
      rw [searchTurns]
      dsimp only at h ⊢
      by_cases hnil : resolve cwd file = []
      · rw [if_pos hnil] at h ⊢
        obtain ⟨-, rfl⟩ := Prod.mk.inj (Option.some.inj h)
        exact ⟨[], Run.one ((quiet_cloneNode hD k _).trans (quiet_fsOpen hD _ _ _)), freedIn_nil⟩
      · rw [if_neg hnil] at h ⊢
        cases hmount : mountPoint root (resolve cwd file) with
        | mk last rest =>
            obtain ⟨rest, outdepth⟩ := rest
            rw [hmount] at h
            cases last with
            | none =>
                obtain ⟨-, rfl⟩ := Prod.mk.inj (Option.some.inj h)
                exact ⟨[], Run.one (quiet_setErrno k ENOENT), freedIn_nil⟩
            | some last =>
                obtain ⟨l, hrun, hl⟩ := lookup_run hD hinner h
                exact ⟨l, .quiet (quiet_cloneNode hD k last) hrun, hl⟩

/-- A turn frees no shared node exactly where it gives none up. -/
theorem frees_iff (hD : Lawful D root kept) (t : Turn δ σ) :
    (∀ e ∈ t.frees D, ¬ Shared root kept e.1 e.2) ↔ t.Spares D root kept := by
  have hstep : (∀ e ∈ t.stepFrees D, ¬ Shared root kept e.1 e.2)
      ↔ (t.rest ≠ [] → ∀ node k, t.visited D = some (some node, k) →
        ¬ Shared root kept k node) := by
    rw [Turn.stepFrees]
    cases t.rest with
    | nil => exact ⟨fun _ hne => absurd rfl hne, fun _ e he => absurd he List.not_mem_nil⟩
    | cons c rest =>
        cases t.visited D with
        | none => exact ⟨fun _ _ _ _ hv => (nomatch hv), fun _ e he => absurd he List.not_mem_nil⟩
        | some r =>
            obtain ⟨found, k⟩ := r
            cases found with
            | none =>
                exact ⟨fun _ _ _ _ hv => (nomatch hv), fun _ e he => absurd he List.not_mem_nil⟩
            | some node =>
                have hfind : Shared root kept (fsFinddir D k node c).2 node
                    ↔ Shared root kept k node :=
                  ⟨(hD.finddir k node c).shared node, hD.finddirSelf k node c⟩
                constructor
                · intro hfrees _ node' k' hv
                  obtain ⟨hnode, rfl⟩ := Prod.mk.inj (Option.some.inj hv)
                  obtain rfl := Option.some.inj hnode
                  exact fun hshared => hfrees _ (List.mem_singleton.mpr rfl) (hfind.mpr hshared)
                · intro hdir e he
                  obtain rfl := List.mem_singleton.mp he
                  exact fun hshared =>
                    hdir (List.cons_ne_nil _ _) node k rfl (hfind.mp hshared)
  constructor
  · intro h
    refine ⟨fun hfollows hshared => ?_, hstep.mp fun e he => h e (List.mem_append_right _ he)⟩
    refine h (t.linkKernel D, t.node) (List.mem_append_left _ ?_)
      ((shared_linkKernel hD t).mpr hshared)
    rw [if_pos hfollows]
    exact List.mem_singleton.mpr rfl
  · intro h e he
    rcases List.mem_append.mp he with he | he
    · by_cases hfollows : t.Follows
      · rw [if_pos hfollows] at he
        obtain rfl := List.mem_singleton.mp he
        exact fun hshared => h.link hfollows ((shared_linkKernel hD t).mp hshared)
      · rw [if_neg hfollows] at he
        exact absurd he List.not_mem_nil
    · exact hstep.mpr h.dir e he

/-- **What a search frees is its own** exactly where none of its turns gives a shared
node up. The turns' nodes are all that a call of `kopen` frees; and where they are its
own, no shared node has been freed after it, if none had been before. -/
theorem frees_owned_iff (hD : Lawful D root kept) {passes : Nat → Nat}
    (hpasses : ∀ d, d + 1 ≤ passes d) {n : Nat} {k k' : Kernel δ σ} {file cwd : Str} {flags : Nat}
    {found : Option Nat}
    (h : kopenRecur D root passes n k (some file) flags 0 cwd = some (found, k')) :
    (∀ node, node ∈ k'.freed ↔ node ∈ k.freed
        ∨ ∃ t ∈ allTurns D root n k file flags 0 cwd, ∃ e ∈ t.frees D, e.2 = node)
      ∧ ((∀ t ∈ allTurns D root n k file flags 0 cwd, ∀ e ∈ t.frees D,
          ¬ Shared root kept e.1 e.2)
        ↔ ∀ t ∈ allTurns D root n k file flags 0 cwd, t.Spares D root kept)
      ∧ ((∀ t ∈ allTurns D root n k file flags 0 cwd, t.Spares D root kept) →
        Sound root kept k → Sound root kept k') := by
  rw [kopenRecur_eq root hpasses] at h
  obtain ⟨l, hrun, hl⟩ := search_run hD n h
  have hiff : (∀ t ∈ allTurns D root n k file flags 0 cwd, ∀ e ∈ t.frees D,
      ¬ Shared root kept e.1 e.2)
        ↔ ∀ t ∈ allTurns D root n k file flags 0 cwd, t.Spares D root kept :=
    forall₂_congr fun t _ => frees_iff hD t
  refine ⟨fun node => ?_, hiff, fun hspares hsound => ?_⟩
  · rw [hrun.freed]
    constructor
    · rintro (hmem | ⟨e, he, rfl⟩)
      · exact Or.inl hmem
      · obtain ⟨t, ht, he⟩ := (hl e).mp he
        exact Or.inr ⟨t, ht, e, he, rfl⟩
    · rintro (hmem | ⟨t, ht, e, he, rfl⟩)
      · exact Or.inl hmem
      · exact Or.inr ⟨e, (hl e).mpr ⟨t, ht, he⟩, rfl⟩
  · refine hrun.sound (fun e he => ?_) hsound
    obtain ⟨t, ht, he⟩ := (hl e).mp he
    exact hiff.mpr hspares t ht e he

end Run

/-! ## The boot partition -/

/-- `fstage1` and `fstage2`. -/
structure Bootpart where
  fstage1 : Nat
  fstage2 : Nat

/-- The string of these bytes. -/
def strOf (l : List UInt8) : Str := l.filterMap fun c => if h : c ≠ 0 then some ⟨c, h⟩ else none

/-- `"stage1.bin"`, `"stage2.bin"` and `"boot"`. -/
def stage1Name : Str := strOf [115, 116, 97, 103, 101, 49, 46, 98, 105, 110]
def stage2Name : Str := strOf [115, 116, 97, 103, 101, 50, 46, 98, 105, 110]
def bootName : Str := strOf [98, 111, 111, 116]

/-- `bootpart_finddir`. -/
def bootpartFinddir (k : Kernel Bool Bootpart) (_node : Nat) (name : Str) :
    Option Nat × Kernel Bool Bootpart :=
  if name = stage1Name then (some k.fs.fstage1, k)
  else if name = stage2Name then (some k.fs.fstage2, k)
  else (none, k)

/-- The operations of the boot partition: its root alone has one, `finddir`. -/
def bootpart : Drivers Bool Bootpart where
  kmalloc := fun k => (9, k)
  buffer := fun _ _ => 0
  onOpen := fun _ => none
  finddir := fun isRoot => if isRoot then some bootpartFinddir else none
  readlink := fun _ => none

/-- The stage nodes stay the driver's. -/
def stageNodes (fs : Bootpart) (node : Nat) : Prop := node = fs.fstage1 ∨ node = fs.fstage2

theorem bootpart_finddir_same (k : Kernel Bool Bootpart) (node : Nat) (name : Str) :
    (fsFinddir bootpart k node name).2 = k := by
  rw [fsFinddir]
  split
  · rename_i f hf
    have hfind : f = bootpartFinddir := by
      have hsome : (if (k.nodes node).data then some bootpartFinddir else none) = some f := hf
      split at hsome
      · exact (Option.some.inj hsome).symm
      · exact nomatch hsome
    rw [hfind, bootpartFinddir]
    split
    · split
      · rfl
      · split
        · rfl
        · rfl
    · rfl
  · rfl

theorem bootpart_lawful (root : TreeNode) : Lawful bootpart root stageNodes where
  kmalloc := Quiet.refl
  onOpen := fun _ _ _ _ _ h => nomatch h
  finddir := fun k node name => by
    rw [bootpart_finddir_same]
    exact Quiet.refl k
  finddirSelf := fun k node name h => by
    rw [bootpart_finddir_same]
    exact h
  readlink := fun k _ _ => Quiet.refl k
  readlinkSelf := fun _ _ _ h => h

/-- `bootpart_mount`: the root directory, and the stage nodes with the count -1. -/
def bootNodes : Nat → FsNode Bool
  | 1 => { flags := 0x14, refcount := 0, data := true }
  | 2 => { flags := 0, refcount := -1, data := false }
  | 3 => { flags := 0, refcount := -1, data := false }
  | _ => { flags := 0o4, refcount := 0, data := false }

def bootKernel : Kernel Bool Bootpart where
  nodes := bootNodes
  fs := { fstage1 := 2, fstage2 := 3 }
  errno := 0
  freed := []

/-- The boot partition at `/boot`. -/
def bootTree : TreeNode :=
  .node { name := [], file := some 4 } [.node { name := bootName, file := some 1 } []]

/-- `kopen` from the root. -/
def bootOpen (k : Kernel Bool Bootpart) (cs : List Str) :
    Option (Option Nat × Kernel Bool Bootpart) :=
  kopenRecur bootpart bootTree (· + 1) 9 k (some (pathOf cs)) 0 0 [pathSeparator]

/-- The turns of a search for these components. -/
def bootTurns (cs : List Str) : List (Turn Bool Bootpart) :=
  allTurns bootpart bootTree 9 bootKernel (pathOf cs) 0 0 [pathSeparator]

theorem frees_owned_iff_boot : ∃ found k',
    bootOpen bootKernel [bootName, stage1Name] = some (found, k')
    ∧ (∀ node, node ∈ k'.freed ↔ node ∈ bootKernel.freed
        ∨ ∃ t ∈ bootTurns [bootName, stage1Name], ∃ e ∈ t.frees bootpart, e.2 = node)
    ∧ ((∀ t ∈ bootTurns [bootName, stage1Name], ∀ e ∈ t.frees bootpart,
          ¬ Shared bootTree stageNodes e.1 e.2)
        ↔ ∀ t ∈ bootTurns [bootName, stage1Name], t.Spares bootpart bootTree stageNodes)
    ∧ ((∀ t ∈ bootTurns [bootName, stage1Name], t.Spares bootpart bootTree stageNodes) →
        Sound bootTree stageNodes bootKernel → Sound bootTree stageNodes k') := by
  obtain ⟨⟨found, k'⟩, hopen⟩ := kopen_terminates bootpart bootTree bootKernel
    (some (pathOf [bootName, stage1Name])) 0 [pathSeparator]
  have h := hopen 9 (· + 1) (Nat.le_refl _) fun _ => Nat.le_refl _
  exact ⟨found, k', h, frees_owned_iff (bootpart_lawful bootTree) (fun _ => Nat.le_refl _) h⟩

/-- Looking for `x` in `/boot/stage1.bin` frees the driver's stage node, whose count
is -1, and the next search for the file returns it. -/
theorem frees_shared :
    (bootOpen bootKernel [bootName, stage1Name, strOf [120]]).map
        (fun r => (r.1, r.2.freed, (r.2.nodes 2).refcount)) = some (none, [2, 9], -1)
      ∧ ((bootOpen bootKernel [bootName, stage1Name, strOf [120]]).bind fun r =>
          bootOpen r.2 [bootName, stage1Name]).map (fun r => (r.1, r.2.freed))
        = some (some 2, [9, 2, 9])
      ∧ Shared bootTree stageNodes bootKernel 2 := by
  refine ⟨by decide +kernel, by decide +kernel, Or.inl ?_⟩
  decide

end Kopen

end Shitos
