import Shitos.Kopen

/-!
# The tree of the mount points

The tree of `vfs_entry`s is a table from lists of names to files (`fileAt`), and at each
node a list of names (`childrenAt`). Putting a file at a path changes the table there
and nowhere else (`fileAt_mountAt`), and adds to the lists the names of the path
(`childrenAt_mountAt`); the walk of `get_mount_point` finds the longest prefix that the
table has a file for (`mountPoint_isMountPoint`).
-/

namespace Shitos

namespace Vfs

open Shitos.Path Components Kopen

/-! ## The tree as a table -/

/-- The node that names lead to. -/
def nodeAt : TreeNode → List Str → Option TreeNode
  | node, [] => some node
  | node, c :: cs =>
      match node.children.find? fun tchild => tchild.value.name = c with
      | none => none
      | some tchild => nodeAt tchild cs

/-- The file of the node that names lead to. -/
def fileAt (root : TreeNode) (cs : List Str) : Option Nat :=
  (nodeAt root cs).bind fun node => node.value.file

/-- The names of the children of the node that names lead to. -/
def childrenAt (root : TreeNode) (cs : List Str) : List Str :=
  ((nodeAt root cs).map TreeNode.children |>.getD []).map fun tchild => tchild.value.name

/-- One name of a path in the tree, with what is done to its node. -/
def followAt (name : Str) (go : TreeNode → TreeNode) : List TreeNode → List TreeNode
  | [] => [go (.node ⟨name, none⟩ [])]
  | tchild :: rest =>
      if tchild.value.name = name then go tchild :: rest else tchild :: followAt name go rest

/-- The tree with a file at the node that names lead to. -/
def mountAt (file : Nat) : List Str → TreeNode → TreeNode
  | [], .node value children => .node { value with file := some file } children
  | c :: cs, .node value children => .node value (followAt c (mountAt file cs) children)

/-- The name behind `cs` in a path that begins with them. -/
def nextName : List Str → List Str → Option Str
  | [], path => path.head?
  | _ :: _, [] => none
  | c :: cs, p :: path => if c = p then nextName cs path else none

theorem nextName_eq_some {cs path : List Str} {c : Str} :
    nextName cs path = some c ↔ cs ++ [c] <+: path := by
  induction cs generalizing path with
  | nil => cases path <;> simp [nextName, eq_comm]
  | cons d cs ih =>
      cases path with
      | nil => simp [nextName]
      | cons p path =>
          rw [nextName, List.cons_append, List.cons_prefix_cons]
          by_cases h : d = p
          · rw [if_pos h, ih]
            simp [h]
          · simp [h]

/-- A name behind others that come once each. -/
def addName (names : List Str) (c : Str) : List Str := if c ∈ names then names else names ++ [c]

section Tree

variable {go : TreeNode → TreeNode} {name c : Str} {children : List TreeNode}

theorem find?_followAt (hgo : ∀ node, (go node).value.name = node.value.name) :
    (followAt name go children).find? (fun tchild => tchild.value.name = c) =
      if name = c then
        some (go ((children.find? fun tchild => tchild.value.name = c).getD
          (.node ⟨name, none⟩ [])))
      else children.find? fun tchild => tchild.value.name = c := by
  induction children with
  | nil =>
      have hname : (go (.node ⟨name, none⟩ [])).value.name = name := hgo _
      by_cases h : name = c
      · subst h
        simp [followAt, hname]
      · simp [followAt, hname, h]
  | cons tchild rest ih =>
      rw [followAt]
      by_cases hsame : tchild.value.name = name
      · rw [if_pos hsame]
        by_cases h : name = c <;> simp [hsame, hgo, h]
      · rw [if_neg hsame]
        by_cases h : tchild.value.name = c
        · have hne : name ≠ c := fun heq => hsame (h.trans heq.symm)
          simp [h, hne]
        · simp [h, ih]

theorem names_followAt (hgo : ∀ node, (go node).value.name = node.value.name) :
    (followAt name go children).map (fun tchild => tchild.value.name)
      = addName (children.map fun tchild => tchild.value.name) name := by
  induction children with
  | nil =>
      have hname : (go (.node ⟨name, none⟩ [])).value.name = name := hgo _
      simp [followAt, addName, hname]
  | cons tchild rest ih =>
      rw [followAt]
      by_cases hsame : tchild.value.name = name
      · simp [hsame, hgo, addName]
      · have hne : name ≠ tchild.value.name := fun h => hsame h.symm
        rw [if_neg hsame, List.map_cons, ih, List.map_cons]
        unfold addName
        by_cases h : name ∈ rest.map fun tchild => tchild.value.name <;> simp [h, hne]

theorem mountAt_name (file : Nat) (cs : List Str) (node : TreeNode) :
    (mountAt file cs node).value.name = node.value.name := by
  cases node
  cases cs <;> rfl

theorem mountAt_children_nil (file : Nat) (node : TreeNode) :
    (mountAt file [] node).children = node.children := by
  cases node
  rfl

theorem mountAt_children_cons (file : Nat) (c : Str) (cs : List Str) (node : TreeNode) :
    (mountAt file (c :: cs) node).children = followAt c (mountAt file cs) node.children := by
  cases node
  rfl

theorem nodeAt_cons (node : TreeNode) (c : Str) (cs : List Str) :
    nodeAt node (c :: cs)
      = (node.children.find? fun tchild => tchild.value.name = c).bind (nodeAt · cs) := by
  rw [nodeAt]
  cases node.children.find? fun tchild => tchild.value.name = c <;> rfl

/-- A node that has just been made has no file on it or under it. -/
theorem nodeAt_fresh (name : Str) (c : Str) (cs : List Str) :
    nodeAt (.node ⟨name, none⟩ []) (c :: cs) = none := rfl

/-- One mount changes the table at its own path. -/
theorem fileAt_mountAt (file : Nat) (path cs : List Str) (node : TreeNode) :
    fileAt (mountAt file path node) cs = if cs = path then some file else fileAt node cs := by
  induction path generalizing cs node with
  | nil =>
      cases cs with
      | nil => cases node; rfl
      | cons c cs => simp [fileAt, nodeAt_cons, mountAt_children_nil]
  | cons p path ih =>
      cases cs with
      | nil => cases node; rfl
      | cons c cs =>
          rw [fileAt, nodeAt_cons, mountAt_children_cons,
            find?_followAt (mountAt_name file path)]
          by_cases h : p = c
          · subst h
            have hnext : ∀ node, (nodeAt (mountAt file path node) cs).bind
                (fun node => node.value.file) = if cs = path then some file else fileAt node cs :=
              fun node => ih cs node
            rw [if_pos rfl, Option.bind_some, hnext]
            simp only [List.cons.injEq, true_and]
            rw [fileAt, fileAt, nodeAt_cons]
            cases node.children.find? fun tchild => tchild.value.name = p with
            | none => cases cs <;> simp [nodeAt, TreeNode.value, TreeNode.children]
            | some tchild => rfl
          · have hne : c :: cs ≠ p :: path := fun heq => h (List.cons.inj heq).1.symm
            rw [if_neg h, if_neg hne, fileAt, nodeAt_cons]

/-- One mount adds the name that comes next in its path to the children of each node on
the way. -/
theorem childrenAt_mountAt (file : Nat) (path cs : List Str) (node : TreeNode) :
    childrenAt (mountAt file path node) cs
      = match nextName cs path with
        | none => childrenAt node cs
        | some c => addName (childrenAt node cs) c := by
  induction path generalizing cs node with
  | nil =>
      cases cs with
      | nil => simp [nextName, childrenAt, nodeAt, mountAt_children_nil]
      | cons c cs => simp [nextName, childrenAt, nodeAt_cons, mountAt_children_nil]
  | cons p path ih =>
      cases cs with
      | nil =>
          simp only [nextName, List.head?_cons, childrenAt, nodeAt, Option.map_some,
            Option.getD_some, mountAt_children_cons]
          exact names_followAt (mountAt_name file path)
      | cons c cs =>
          rw [childrenAt, nodeAt_cons, mountAt_children_cons,
            find?_followAt (mountAt_name file path), nextName]
          by_cases h : p = c
          · subst h
            rw [if_pos rfl, if_pos rfl, Option.bind_some, ← childrenAt, ih]
            have hchildren : childrenAt ((node.children.find? fun tchild =>
                tchild.value.name = p).getD (.node ⟨p, none⟩ [])) cs
                = childrenAt node (p :: cs) := by
              rw [childrenAt, childrenAt, nodeAt_cons]
              cases node.children.find? fun tchild => tchild.value.name = p with
              | none => cases cs <;> simp [nodeAt, TreeNode.children]
              | some tchild => rfl
            rw [hchildren]
          · have hne : c ≠ p := fun heq => h heq.symm
            rw [if_neg h, if_neg hne, childrenAt, nodeAt_cons]

end Tree
/-! ## The longest mounted prefix -/

/-- `found` is the mount point of `cs` in a table of mounts: the longest prefix that
has a file, with that file, the names behind it, and its length. -/
def IsMountPoint (table : List Str → Option Nat) (cs : List Str)
    (found : Option Nat × List Str × Nat) : Prop :=
  (found = (none, cs, 0) ∧ ∀ k ≤ cs.length, table (cs.take k) = none)
    ∨ ∃ k ≤ cs.length, ∃ file, table (cs.take k) = some file
      ∧ found = (some file, cs.drop k, k)
      ∧ ∀ j, k < j → j ≤ cs.length → table (cs.take j) = none

/-- What the walk has found when it comes to a child with `file`. -/
def passed (file : Option Nat) (cs : List Str) (depth : Nat)
    (found : Option Nat × List Str × Nat) : Option Nat × List Str × Nat :=
  match file with
  | some file => (some file, cs, depth)
  | none => found

theorem mountWalk_child {node tchild : TreeNode} {c : Str}
    (h : node.children.find? (fun tchild => tchild.value.name = c) = some tchild) (cs : List Str)
    (depth : Nat) (found : Option Nat × List Str × Nat) :
    mountWalk node (c :: cs) depth found
      = mountWalk tchild cs (depth + 1) (passed tchild.value.file cs depth found) := by
  rw [mountWalk, h]
  dsimp only
  cases tchild.value.file <;> rfl

/-- The walk from a node on keeps what it has found, or finds the longest prefix of the
names that has a file. -/
theorem mountWalk_spec (cs : List Str) (node : TreeNode) (depth : Nat)
    (found : Option Nat × List Str × Nat) :
    (mountWalk node cs depth found = found
        ∧ ∀ k, 0 < k → k ≤ cs.length → fileAt node (cs.take k) = none)
      ∨ ∃ k, 0 < k ∧ k ≤ cs.length ∧ ∃ file, fileAt node (cs.take k) = some file
        ∧ mountWalk node cs depth found = (some file, cs.drop k, depth + (k - 1))
        ∧ ∀ j, k < j → j ≤ cs.length → fileAt node (cs.take j) = none := by
  induction cs generalizing node depth found with
  | nil =>
      refine Or.inl ⟨rfl, fun k hpos hk => ?_⟩
      exact absurd hk (Nat.not_le.mpr hpos)
  | cons c cs ih =>
      have hfile : ∀ k, fileAt node ((c :: cs).take (k + 1))
          = (node.children.find? fun tchild => tchild.value.name = c).bind
            (fileAt · (cs.take k)) := by
        intro k
        rw [List.take_succ_cons, fileAt, nodeAt_cons]
        cases node.children.find? fun tchild => tchild.value.name = c <;> rfl
      cases hfind : node.children.find? fun tchild => tchild.value.name = c with
      | none =>
          refine Or.inl ⟨by rw [mountWalk, hfind], fun k hpos hk => ?_⟩
          obtain ⟨k, rfl⟩ := Nat.exists_eq_succ_of_ne_zero (Nat.ne_of_gt hpos)
          rw [hfile, hfind]
          rfl
      | some tchild =>
          rw [hfind] at hfile
          simp only [Option.bind_some] at hfile
          have hzero : fileAt tchild (cs.take 0) = tchild.value.file := rfl
          rw [mountWalk_child hfind]
          rcases ih tchild (depth + 1) (passed tchild.value.file cs depth found) with
            ⟨hwalk, hnone⟩ | ⟨k, hpos, hk, file, hsome, hwalk, hnone⟩
          · rw [hwalk]
            have hlater : ∀ j, 1 < j → j ≤ (c :: cs).length →
                fileAt node ((c :: cs).take j) = none := by
              intro j hj hle
              obtain ⟨j, rfl⟩ := Nat.exists_eq_succ_of_ne_zero (Nat.ne_of_gt (Nat.zero_lt_of_lt hj))
              rw [hfile]
              exact hnone j (Nat.lt_of_succ_lt_succ hj) (Nat.le_of_succ_le_succ hle)
            cases hval : tchild.value.file with
            | none =>
                refine Or.inl ⟨rfl, fun k hpos hk => ?_⟩
                rcases Nat.lt_or_ge 1 k with h | h
                · exact hlater k h hk
                · obtain rfl : k = 1 := by omega
                  rw [hfile, hzero, hval]
            | some file =>
                refine Or.inr ⟨1, Nat.one_pos, by simp, file, ?_, rfl, hlater⟩
                rw [hfile, hzero, hval]
          · refine Or.inr ⟨k + 1, Nat.succ_pos k, Nat.succ_le_succ hk, file, ?_, ?_, ?_⟩
            · rw [hfile, hsome]
            · rw [hwalk, List.drop_succ_cons]
              congr 2
              omega
            · intro j hj hle
              obtain ⟨j, rfl⟩ := Nat.exists_eq_succ_of_ne_zero (Nat.ne_of_gt (Nat.zero_lt_of_lt hj))
              rw [hfile]
              exact hnone j (Nat.lt_of_succ_lt_succ hj) (Nat.le_of_succ_le_succ hle)

/-- The search for the mount point finds it in the table that the tree is. -/
theorem mountPoint_isMountPoint (root : TreeNode) (cs : List Str) :
    IsMountPoint (fileAt root) cs (mountPoint root cs) := by
  have hroot : fileAt root (cs.take 0) = root.value.file := rfl
  rcases mountWalk_spec cs root 1 (root.value.file, cs, 0) with
    ⟨hwalk, hnone⟩ | ⟨k, hpos, hk, file, hsome, hwalk, hnone⟩
  · rw [mountPoint, hwalk]
    cases hval : root.value.file with
    | none =>
        refine Or.inl ⟨rfl, fun k hk => ?_⟩
        rcases Nat.eq_zero_or_pos k with rfl | hpos
        · rw [hroot, hval]
        · exact hnone k hpos hk
    | some file =>
        exact Or.inr ⟨0, Nat.zero_le _, file, hroot.trans hval, rfl, hnone⟩
  · refine Or.inr ⟨k, hk, file, hsome, ?_, hnone⟩
    rw [mountPoint, hwalk]
    congr 2
    omega
end Vfs

end Shitos
