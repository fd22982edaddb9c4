import Shitos.Kopen

/-!
# The turns of a search

A search goes through its loop turn by turn: each turn has a node, and the
components that are still left. `turns` lists them, as the loop comes to them,
and `searchTurns` those of a whole call of `kopen_recur`. What the call returns
is what any of its turns goes on to (`search_of_mem`).

With the calls that follow the links, `allTurns` lists every turn there is.
-/

namespace Shitos

namespace Kopen

open Shitos.Path Components

/-- A turn of the loop: the call that it belongs to, with the search for the targets
of its links, the components that are left when it begins, and the node that it has
come to. -/
structure Turn (δ σ : Type) where
  recur : Recur δ σ
  pathDepth : Nat
  flags : Nat
  symlinkDepth : Nat
  rest : List Str
  kernel : Kernel δ σ
  node : Nat

section Turns

variable {δ σ : Type} (D : Drivers δ σ)

/-- The call inside a call at `symlinkDepth`, with `n` more inside one another. -/
def recurOf (root : TreeNode) (n symlinkDepth : Nat) : Recur δ σ := fun k target relpath =>
  search D root n k (some target) 0 (symlinkDepth + 1) relpath

/-- `depth`, at the beginning of the turn. -/
def Turn.depth (t : Turn δ σ) : Nat := t.pathDepth - t.rest.length

/-- The node of the turn is a link. -/
def Turn.IsLink (t : Turn δ σ) : Prop := fsIslnk (t.kernel.nodes t.node).flags = true

/-- The turn follows its node. -/
def Turn.Follows (t : Turn δ σ) : Prop :=
  Kopen.Follows t.flags (t.kernel.nodes t.node).flags t.depth t.pathDepth

instance (t : Turn δ σ) : Decidable t.Follows := inferInstanceAs (Decidable (_ ∧ _))

/-- What the turn makes of its node. -/
def Turn.visited (t : Turn δ σ) : Option (Option Nat × Kernel δ σ) :=
  visit D t.recur (some []) t.pathDepth t.flags t.symlinkDepth t.kernel t.node t.depth

/-- The turns of the loop from a node on. -/
def turns (recur : Recur δ σ) (pathDepth flags symlinkDepth : Nat) :
    List Str → Kernel δ σ → Nat → List (Turn δ σ)
  | [], k, node => [⟨recur, pathDepth, flags, symlinkDepth, [], k, node⟩]
  | c :: rest, k, node =>
      let t : Turn δ σ := ⟨recur, pathDepth, flags, symlinkDepth, c :: rest, k, node⟩
      t :: match t.visited D with
        | some (some node, k) =>
            match fsFinddir D k node c with
            | (some next, k) => turns recur pathDepth flags symlinkDepth rest (kfree k node) next
            | (none, _) => []
        | _ => []

/-- The turns of one call of `kopen_recur`. -/
def searchTurns (root : TreeNode) (n : Nat) (k : Kernel δ σ) (file : Str)
    (flags symlinkDepth : Nat) (cwd : Str) : List (Turn δ σ) :=
  let cs := resolve cwd file
  if cs = [] then []
  else
    match mountPoint root cs with
    | (none, _, _) => []
    | (some last, rest, _) =>
        let (node, k) := cloneNode D k last
        turns D (recurOf D root n symlinkDepth) cs.length flags symlinkDepth rest k node

/-- Where the turn frees the link that it follows: right away where the link is
refused, and behind the call that reads it otherwise. -/
def Turn.linkKernel (t : Turn δ σ) : Kernel δ σ :=
  if t.flags &&& oNofollow ≠ 0 ∧ t.depth = sub32 t.pathDepth 1 then t.kernel
  else if t.symlinkDepth ≥ maxSymlinkDepth then t.kernel
  else (fsReadlink D t.kernel t.node maxSymlinkSize).2.2

/-- The call that the turn follows its link with: where it begins, and the target. -/
def Turn.target (t : Turn δ σ) : Option (Kernel δ σ × Str) :=
  if t.Follows then
    if t.flags &&& oNofollow ≠ 0 ∧ t.depth = sub32 t.pathDepth 1 then none
    else if t.symlinkDepth ≥ maxSymlinkDepth then none
    else
      let (len, buf, k) := fsReadlink D t.kernel t.node maxSymlinkSize
      if len < 0 then none
      else if buf len.toNat ≠ 0 then none
      else some (kfree k t.node, readStr buf 0 (len.toNat + 1))
  else none

/-- The turns of the call inside a turn, if there is one. -/
def callTurns (inner : Kernel δ σ → Str → List (Turn δ σ)) (t : Turn δ σ) : List (Turn δ σ) :=
  match t.target D with
  | some (k, target) => inner k target
  | none => []

/-- The turns of a search, and of the searches inside it. -/
def allTurns (root : TreeNode) : Nat → Kernel δ σ → Str → Nat → Nat → Str → List (Turn δ σ)
  | 0, _, _, _, _, _ => []
  | n + 1, k, file, flags, symlinkDepth, cwd =>
      (searchTurns D root n k file flags symlinkDepth cwd).flatMap fun t =>
        t :: callTurns D (fun k target => allTurns root n k target 0 (symlinkDepth + 1) []) t

variable {D} {recur : Recur δ σ} {pathDepth flags symlinkDepth : Nat}

theorem Turn.visited_of_follows {t : Turn δ σ} (h : t.Follows) :
    t.visited D = followLink D t.recur (some []) t.pathDepth t.flags t.symlinkDepth
      t.kernel t.node t.depth := if_pos h

theorem Turn.visited_of_not_follows {t : Turn δ σ} (h : ¬ t.Follows) :
    t.visited D = some (some t.node, t.kernel) := if_neg h

/-- What a turn does with its node: it is kept, it is a link that the search fails at,
or one that a call follows. The link is freed in any case. -/
theorem Turn.visited_cases (t : Turn δ σ) :
    (¬ t.Follows ∧ t.target D = none ∧ t.visited D = some (some t.node, t.kernel))
      ∨ (t.Follows ∧ t.target D = none
        ∧ ∃ e, t.visited D = some (none, setErrno (kfree (t.linkKernel D) t.node) e))
      ∨ (t.Follows ∧ ∃ target, t.target D = some (kfree (t.linkKernel D) t.node, target)
        ∧ t.visited D = (t.recur (kfree (t.linkKernel D) t.node) target []).map fun r =>
          (r.1, if r.1 = none then setErrno r.2 ENOENT else r.2)) := by
  by_cases hfollows : t.Follows
  · rw [Turn.visited_of_follows hfollows, followLink, Turn.linkKernel, Turn.target,
      if_pos hfollows]
    by_cases hrefuse : t.flags &&& oNofollow ≠ 0 ∧ t.depth = sub32 t.pathDepth 1
    · rw [if_pos hrefuse, if_pos hrefuse, if_pos hrefuse]
      exact Or.inr (Or.inl ⟨hfollows, rfl, ELOOP, rfl⟩)
    rw [if_neg hrefuse, if_neg hrefuse, if_neg hrefuse]
    by_cases hdeep : t.symlinkDepth ≥ maxSymlinkDepth
    · rw [if_pos hdeep, if_pos hdeep, if_pos hdeep]
      exact Or.inr (Or.inl ⟨hfollows, rfl, ELOOP, rfl⟩)
    rw [if_neg hdeep, if_neg hdeep, if_neg hdeep]
    obtain ⟨len, buf, k, hread⟩ : ∃ len buf k,
        fsReadlink D t.kernel t.node maxSymlinkSize = (len, buf, k) := ⟨_, _, _, rfl⟩
    rw [hread]
    dsimp only
    by_cases hlen : len < 0
    · rw [if_pos hlen, if_pos hlen]
      exact Or.inr (Or.inl ⟨hfollows, rfl, -len, rfl⟩)
    rw [if_neg hlen, if_neg hlen]
    by_cases hbuf : buf len.toNat ≠ 0
    · rw [if_pos hbuf, if_pos hbuf]
      exact Or.inr (Or.inl ⟨hfollows, rfl, ENAMETOOLONG, rfl⟩)
    rw [if_neg hbuf, if_neg hbuf]
    refine Or.inr (Or.inr ⟨hfollows, _, rfl, ?_⟩)
    rw [Option.bind_eq_bind, Option.bind_some]
    cases t.recur (kfree k t.node) (readStr buf 0 (len.toNat + 1)) [] with
    | none => rfl
    | some r =>
        obtain ⟨found, k'⟩ := r
        cases found with
        | none => rfl
        | some found => rfl
  · refine Or.inl ⟨hfollows, ?_, Turn.visited_of_not_follows hfollows⟩
    rw [Turn.target, if_neg hfollows]

/-- A turn with a target goes on with a call for it. -/
theorem visited_of_target {t : Turn δ σ} {k : Kernel δ σ} {target : Str}
    (h : t.target D = some (k, target)) :
    t.visited D = (t.recur k target []).map fun r =>
      (r.1, if r.1 = none then setErrno r.2 ENOENT else r.2) := by
  rcases t.visited_cases (D := D) with ⟨-, hnone, -⟩ | ⟨-, hnone, -⟩ | ⟨-, target', hsome, hvisit⟩
  · exact nomatch hnone.symm.trans h
  · exact nomatch hnone.symm.trans h
  · obtain ⟨rfl, rfl⟩ := Prod.mk.inj (Option.some.inj (hsome.symm.trans h))
    exact hvisit

/-- The loop goes on from each of its turns. -/
theorem lookup_of_mem {rest : List Str} {k : Kernel δ σ} {node : Nat} {t : Turn δ σ}
    (h : t ∈ turns D recur pathDepth flags symlinkDepth rest k node) :
    lookup D recur pathDepth flags symlinkDepth rest k node
      = lookup D recur pathDepth flags symlinkDepth t.rest t.kernel t.node := by
  induction rest generalizing k node with
  | nil =>
      obtain rfl := List.mem_singleton.mp h
      rfl
  | cons c rest ih =>
      rw [turns] at h
      rcases List.mem_cons.mp h with rfl | hmem
      · rfl
      · rw [lookup]
        cases hvisit : visit D recur (some []) pathDepth flags symlinkDepth k node
            (pathDepth - (rest.length + 1)) with
        | none =>
            rw [Turn.visited, Turn.depth, List.length_cons, hvisit] at hmem
            exact absurd hmem List.not_mem_nil
        | some found =>
            obtain ⟨found, k'⟩ := found
            rw [Turn.visited, Turn.depth, List.length_cons, hvisit] at hmem
            cases found with
            | none => exact absurd hmem List.not_mem_nil
            | some node' =>
                rw [Option.bind_eq_bind, Option.bind_some]
                dsimp only at hmem ⊢
                obtain ⟨next, k2, hnext⟩ : ∃ next k2, fsFinddir D k' node' c = (next, k2) :=
                  ⟨_, _, rfl⟩
                rw [hnext] at hmem ⊢
                cases next with
                | none => exact absurd hmem List.not_mem_nil
                | some next => exact ih hmem

theorem turns_call {rest : List Str} {k : Kernel δ σ} {node : Nat} {t : Turn δ σ}
    (h : t ∈ turns D recur pathDepth flags symlinkDepth rest k node) :
    t.recur = recur ∧ t.pathDepth = pathDepth ∧ t.flags = flags ∧ t.symlinkDepth = symlinkDepth
      ∧ t.rest <:+ rest := by
  induction rest generalizing k node with
  | nil =>
      obtain rfl := List.mem_singleton.mp h
      exact ⟨rfl, rfl, rfl, rfl, List.suffix_rfl⟩
  | cons c rest ih =>
      rw [turns] at h
      rcases List.mem_cons.mp h with rfl | hmem
      · exact ⟨rfl, rfl, rfl, rfl, List.suffix_rfl⟩
      · split at hmem
        · split at hmem
          · obtain ⟨hr, hd, hf, hs, hsuffix⟩ := ih hmem
            exact ⟨hr, hd, hf, hs, hsuffix.trans (List.suffix_cons c rest)⟩
          · exact absurd hmem List.not_mem_nil
        · exact absurd hmem List.not_mem_nil

variable {root : TreeNode} {n : Nat} {k : Kernel δ σ} {file cwd : Str} {t : Turn δ σ}

theorem searchTurns_call (h : t ∈ searchTurns D root n k file flags symlinkDepth cwd) :
    t.recur = recurOf D root n symlinkDepth ∧ t.pathDepth = (resolve cwd file).length
      ∧ t.flags = flags ∧ t.symlinkDepth = symlinkDepth ∧ t.rest.length ≤ t.pathDepth := by
  rw [searchTurns] at h
  dsimp only at h
  split at h
  · exact absurd h List.not_mem_nil
  · obtain ⟨front, hfront, -⟩ := mountPoint_suffix root (resolve cwd file)
    split at h
    · exact absurd h List.not_mem_nil
    · rename_i last rest outdepth hmount
      rw [hmount] at hfront
      obtain ⟨hr, hd, hf, hs, hsuffix⟩ := turns_call h
      refine ⟨hr, hd, hf, hs, ?_⟩
      have hrest : rest.length ≤ (resolve cwd file).length := by
        rw [← hfront, List.length_append]
        exact Nat.le_add_left _ _
      rw [hd]
      exact hsuffix.length_le.trans hrest

/-- What a search returns is what each of its turns goes on to. -/
theorem search_of_mem (h : t ∈ searchTurns D root n k file flags symlinkDepth cwd) :
    search D root (n + 1) k (some file) flags symlinkDepth cwd
      = lookup D t.recur t.pathDepth t.flags t.symlinkDepth t.rest t.kernel t.node := by
  obtain ⟨hr, hd, hf, hs, -⟩ := searchTurns_call h
  rw [searchTurns] at h
  dsimp only at h
  rw [search]
  dsimp only
  split at h
  · exact absurd h List.not_mem_nil
  · rename_i hne
    rw [if_neg hne]
    cases hmount : mountPoint root (resolve cwd file) with
    | mk last found =>
        obtain ⟨rest, outdepth⟩ := found
        rw [hmount] at h
        cases last with
        | none => exact absurd h List.not_mem_nil
        | some last =>
            rw [hr, hd, hf, hs]
            exact lookup_of_mem h

end Turns

end Kopen

end Shitos
