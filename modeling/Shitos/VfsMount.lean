import Shitos.HashMap
import Shitos.VfsTree

/-!
# Mounting

`vfs_mount` chops its path up and walks down the tree of `vfs_entry`s, growing it
where a name is missing. Over any run of the calls that register, map and mount, the
state is what the list of the mounts says (`run_holds`): the tree is the table of the
files that were mounted last, the types have the functions they were registered with
first, and every call returns what the list makes it return.
-/

namespace Shitos

namespace Vfs

open Shitos.Path Components Kopen

/-! ## `vfs_mount` -/

/-- `ENODEV`. -/
def ENODEV : Int := 19

/-- The search of one name: the first child with it is gone on from, and where there
is none a new one is put behind the others. -/
def follow (name : Str) (go : TreeNode → Option TreeNode) :
    List TreeNode → Option (List TreeNode)
  | [] => do some [← go (.node ⟨name, none⟩ [])]
  | tchild :: rest =>
      if tchild.value.name = name then do some ((← go tchild) :: rest)
      else do some (tchild :: (← follow name go rest))

/-- The loop of `vfs_mount` from `node` on, for at most `n` turns, and the file of the
node that it ends at. -/
def mountLoop (p : Mem) (l localRoot : Nat) : Nat → TreeNode → Nat → Option TreeNode
  | 0, _, _ => none
  | n + 1, .node value children, head =>
      if head < l then do
        let len ← strlen p head (l + 1 - head)
        let children ← follow (readStr p head (l + 1 - head))
          (fun node => mountLoop p l localRoot n node (head + len + 1)) children
        some (.node value children)
      else some (.node { value with file := some localRoot } children)

/-- The names that `vfs_mount` passes from `head` on, for at most `n` turns: they say
which node it returns. -/
def mountNames (p : Mem) (l : Nat) : Nat → Nat → Option (List Str)
  | 0, _ => none
  | n + 1, head =>
      if head < l then do
        let len ← strlen p head (l + 1 - head)
        some (readStr p head (l + 1 - head) :: (← mountNames p l n (head + len + 1)))
      else some []

/-- The tree, the types of file systems, the nodes' reference counts, the nodes of
`mapper_readdir` with the entry each of them lists, and `errno`. -/
structure VfsState where
  root : TreeNode
  types : HashMap.Table Str
  refcount : Nat → Int
  device : Nat → Option (List Str)
  errno : Int

/-- `vfs_mount`: the node that it returns, by the names on the way to it. -/
def vfsMount (v : VfsState) (path : Option Str) (localRoot : Nat) :
    Option (Option (List Str) × VfsState) :=
  match path with
  | none => some (none, { v with errno := EINVAL })
  | some path =>
      if path.head? ≠ some pathSeparator then some (none, { v with errno := EINVAL })
      else
        let v := { v with refcount := Function.update v.refcount localRoot (-1) }
        let l := path.length
        let p := (chop l 0 (bytes path) 0).1
        if p 1 = 0 then
          let root := TreeNode.node { v.root.value with file := some localRoot } v.root.children
          some (some [], { v with root := root })
        else do
          let root ← mountLoop p l localRoot (l + 1) v.root 1
          let names ← mountNames p l (l + 1) 1
          some (some names, { v with root := root })
/-! ## Types, and mapped directories -/

/-- `hashmap_str_hash`; the bytes are signed. -/
def strHash (key : Str) : Nat :=
  key.foldl (fun hash k =>
    let c := if k.val.toNat < 128 then k.val.toNat else 2 ^ 32 - (256 - k.val.toNat)
    (c + hash * 2 ^ 6 + hash * 2 ^ 16 + (2 ^ 32 - hash)) % 2 ^ 32) 0

/-- `strcmp`. -/
def strcmp : Str → Str → Int
  | [], [] => 0
  | [], b :: _ => -(b.val.toNat : Int)
  | a :: _, [] => a.val.toNat
  | a :: l, b :: r => if a = b then strcmp l r else (a.val.toNat : Int) - b.val.toNat

/-- The callbacks of `hashmap_create_str`. -/
def strOps : HashMap.Ops Str := ⟨strHash, strcmp, id⟩

/-- The name `[root]`. -/
def rootName : Str :=
  [⟨91, by decide⟩, ⟨114, by decide⟩, ⟨111, by decide⟩, ⟨111, by decide⟩, ⟨116, by decide⟩,
    ⟨93, by decide⟩]

/-- `vfs_install`. -/
def vfsInstall : VfsState where
  root := .node ⟨rootName, none⟩ []
  types := HashMap.create strOps 5
  refcount := fun _ => 0
  device := fun _ => none
  errno := 0

/-- `vfs_register_type`. -/
def vfsRegisterType (v : VfsState) (type : Str) (mount : Nat) : Int × VfsState :=
  if v.types.has type then (1, v) else (0, { v with types := (v.types.set type mount).2 })

/-- Mounts of a file system's own, one after another. -/
def mountAll (v : VfsState) : List (Option Str × Nat) → Option VfsState
  | [] => some v
  | (path, localRoot) :: own => do mountAll (← vfsMount v path localRoot).2 own

/-- `vfs_mount_type`. The type's function mounts `own` itself, and returns `node`. -/
def vfsMountType (v : VfsState) (type : Str) (mountpoint : Option Str)
    (own : List (Option Str × Nat)) (node : Nat) : Option (Int × VfsState) :=
  if v.types.get type = HashMap.null then some (-ENODEV, v)
  else do
    let v ← mountAll v own
    if node = 1 then some (0, v)
    else if node = 0 then some (-EINVAL, v)
    else do some (0, (← vfsMount v mountpoint node).2)

/-- `vfs_map_directory`, with the node that `vfs_mapper` makes. -/
def vfsMapDirectory (v : VfsState) (path : Option Str) (f : Nat) : Option VfsState := do
  let (entry, v) ← vfsMount v path f
  some { v with device := Function.update v.device f entry }

/-- `struct dirent`. -/
structure Dirent where
  dName : Mem
  dIno : Nat

/-- `strcpy(dir->d_name, name)`. -/
def strcpyName (dir : Mem) (name : Str) : Mem := copy dir 0 (bytes name) 0 (name.length + 1)

/-- `mapper_readdir`, on a `dirent` that holds `dir` at first. -/
def mapperReaddir (dir : Mem) (d : Option TreeNode) (idx : Int) : Option Dirent :=
  match d with
  | none => none
  | some d =>
      if idx = 0 then some ⟨strcpyName dir pathCurrent, 0⟩
      else if idx = 1 then some ⟨strcpyName dir pathGoUp, 1⟩
      else if idx - 2 < 0 then none
      else
        let i := (idx - 2).toNat
        d.children[i]?.map fun tchild =>
          let l := tchild.value.name.length + 1
          ⟨copy dir 0 (bytes tchild.value.name) 0 (min 256 l), i⟩
/-! ## Runs -/

inductive Call
  | registerType (type : Str) (mount : Nat)
  | mount (path : Option Str) (localRoot : Nat)
  | mountType (type : Str) (mountpoint : Option Str) (own : List (Option Str × Nat)) (node : Nat)
  | mapDirectory (path : Option Str) (f : Nat)

/-- What a call returns, and the state behind it; a mount returns an error code only
where it returns `NULL`. -/
def exec (v : VfsState) : Call → Option (Int × VfsState)
  | .registerType type mount => some (vfsRegisterType v type mount)
  | .mount path localRoot => do
      let (entry, v) ← vfsMount v path localRoot
      some (if entry.isSome then 0 else -v.errno, v)
  | .mountType type mountpoint own node => vfsMountType v type mountpoint own node
  | .mapDirectory path f => do some (0, ← vfsMapDirectory v path f)

def run : List Call → VfsState → Option VfsState
  | [], v => some v
  | call :: calls, v => do run calls (← exec v call).2
/-! ## The path in its buffer -/

section Parts

variable {α : Type} [DecidableEq α] {sep : α}

/-- The strings that are walked along in a chopped path: those between the separators,
and a separator at the end makes none. -/
def walkParts (sep : α) (q : List α) : List (List α) :=
  let ps := parts sep q
  if ps.getLast? = some [] then ps.dropLast else ps

theorem walkParts_nil : walkParts sep [] = [] := by simp [walkParts, parts]

theorem walkParts_cons {q : List α} (hne : q ≠ []) :
    walkParts sep q = q.takeWhile (· ≠ sep) :: walkParts sep (q.dropWhile (· ≠ sep)).tail := by
  have hsplit := List.takeWhile_append_dropWhile (p := (· ≠ sep)) (l := q)
  have hsep : sep ∉ q.takeWhile (· ≠ sep) := by
    intro hmem
    simpa using List.mem_takeWhile_imp hmem
  generalize q.takeWhile (· ≠ sep) = a at hsplit hsep
  cases hrest : q.dropWhile (· ≠ sep) with
  | nil =>
      rw [hrest, List.append_nil] at hsplit
      subst hsplit
      rw [List.tail_nil, walkParts_nil, walkParts, parts, List.splitOn_eq_singleton hsep]
      simp [hne]
  | cons x rest =>
      have hx : x = sep := by
        have hhead := List.head?_dropWhile_not (· ≠ sep) q
        rw [hrest] at hhead
        simpa using hhead
      rw [hrest, hx] at hsplit
      obtain ⟨d, ds, hparts⟩ := List.exists_cons_of_ne_nil (List.splitOn_ne_nil sep rest)
      rw [List.tail_cons, walkParts, walkParts, parts, parts, ← hsplit,
        List.splitOn_append_cons_self_of_not_mem hsep, hparts, List.getLast?_cons_cons]
      by_cases hlast : (d :: ds).getLast? = some []
      · simp [hlast]
      · simp [hlast]

theorem walkParts_render {c : List α} {cs : List (List α)} (h : ∀ d ∈ c :: cs, Component sep d) :
    walkParts sep (c ++ render sep cs) = c :: cs := by
  rw [walkParts, parts_render h]
  refine if_neg fun hlast => ?_
  exact (h [] (List.mem_of_getLast? hlast)).ne_nil rfl

end Parts

/-- The names of the path `/q`; a second separator at its beginning ends it. -/
def mountComponents (q : Str) : List Str :=
  if q.head? = some pathSeparator then [] else walkParts pathSeparator q

theorem mountComponents_nil : mountComponents [] = [] :=
  (if_neg (by simp)).trans (@walkParts_nil _ _ pathSeparator)

/-- Of a canonical path the mounted names are its components. -/
theorem mountComponents_pathOf {cs : List Str} (h : ∀ c ∈ cs, Component pathSeparator c) :
    ∃ q, pathOf cs = pathSeparator :: q ∧ mountComponents q = cs := by
  cases cs with
  | nil => exact ⟨[], rfl, mountComponents_nil⟩
  | cons c cs =>
      refine ⟨c ++ render pathSeparator cs, rfl, ?_⟩
      obtain ⟨hc, -⟩ := List.forall_mem_cons.mp h
      have hhead : (c ++ render pathSeparator cs).head? ≠ some pathSeparator := by
        rw [List.head?_append_of_ne_nil _ hc.ne_nil]
        exact fun heq => hc.noSep (List.mem_of_mem_head? heq)
      rw [mountComponents, if_neg hhead, walkParts_render h]

/-- What is left of a chopped path of length `l` from `head` on. -/
structure Chopped (m : Mem) (l head : Nat) (q : Str) : Prop where
  stop : m l = 0
  behind : q = [] → l ≤ head
  upto : q ≠ [] → head + q.length = l
  bytes : ∀ j < q.length, m (head + j) = if bytes q j = pathSeparator.val then 0 else bytes q j

section Buffer

variable {m : Mem} {l head : Nat} {q : Str}

theorem bytes_eq {j : Nat} (h : j < q.length) : bytes q j = (q.get ⟨j, h⟩).val := by
  rw [bytes, List.getElem?_eq_getElem h]
  rfl

/-- The first string of what is left, and what is left behind it. -/
theorem Chopped.next (h : Chopped m l head q) (hne : q ≠ []) :
    head < l ∧ strlen m head (l + 1 - head) = some (q.takeWhile (· ≠ pathSeparator)).length
      ∧ readStr m head (l + 1 - head) = q.takeWhile (· ≠ pathSeparator)
      ∧ Chopped m l (head + (q.takeWhile (· ≠ pathSeparator)).length + 1)
        (q.dropWhile (· ≠ pathSeparator)).tail := by
  have hsplit := List.takeWhile_append_dropWhile (p := (· ≠ pathSeparator)) (l := q)
  have hsep : ∀ x ∈ q.takeWhile (· ≠ pathSeparator), x ≠ pathSeparator := by
    intro x hx
    simpa using List.mem_takeWhile_imp hx
  have hhead := List.head?_dropWhile_not (· ≠ pathSeparator) q
  have hpos : 0 < q.length := List.length_pos_iff.mpr hne
  have hupto := h.upto hne
  generalize q.takeWhile (· ≠ pathSeparator) = a at hsplit hsep
  generalize q.dropWhile (· ≠ pathSeparator) = rest at hsplit hhead
  subst hsplit
  rw [List.length_append] at hpos hupto
  have hfirst : ∀ j < a.length, m (head + j) = Path.bytes a j := by
    intro j hj
    have hval := h.bytes j (by rw [List.length_append]; omega)
    rw [bytes_append_left hj] at hval
    rw [hval, if_neg]
    intro heq
    rw [bytes_eq hj] at heq
    exact hsep _ (List.get_mem a ⟨j, hj⟩) (Subtype.ext heq)
  have hnonzero : ∀ j < a.length, m (head + j) ≠ 0 := by
    intro j hj
    rw [hfirst j hj]
    exact bytes_ne_zero hj
  have hend : m (head + a.length) = 0 := by
    cases rest with
    | nil =>
        have hl : head + a.length = l := by simpa using hupto
        rw [hl]
        exact h.stop
    | cons x rest =>
        have hx : x = pathSeparator := by simpa using hhead
        have hval := h.bytes a.length (by simp)
        rw [← Nat.add_zero a.length, bytes_append_right, Nat.add_zero] at hval
        rw [hval, if_pos (by rw [hx]; rfl)]
  refine ⟨by omega, strlen_eq hnonzero hend (by omega),
    readStr_eq m a head _ (by omega) hfirst hend, h.stop, fun hnil => ?_, fun hrest => ?_, ?_⟩
  · cases rest with
    | nil => simp only [List.length_nil] at hupto; omega
    | cons x rest =>
        rw [List.tail_cons] at hnil
        subst hnil
        simp only [List.length_cons, List.length_nil] at hupto
        omega
  · cases rest with
    | nil => exact absurd rfl hrest
    | cons x rest =>
        simp only [List.length_cons] at hupto
        rw [List.tail_cons]
        omega
  · intro j hj
    cases rest with
    | nil => exact absurd hj (Nat.not_lt_zero _)
    | cons x rest =>
        rw [List.tail_cons] at hj ⊢
        have hval := h.bytes (a.length + (j + 1)) (by simp; omega)
        rw [bytes_append_right, bytes_cons_succ] at hval
        rw [← hval]
        congr 1
        omega

theorem Chopped.next_length (h : q ≠ []) :
    (q.dropWhile (· ≠ pathSeparator)).tail.length < q.length := by
  have hle := (List.dropWhile_sublist (l := q) (· ≠ pathSeparator)).length_le
  have hpos : 0 < q.length := List.length_pos_iff.mpr h
  rw [List.length_tail]
  omega

theorem follow_eq {name : Str} {go : TreeNode → Option TreeNode} {f : TreeNode → TreeNode}
    (h : ∀ node, go node = some (f node)) (children : List TreeNode) :
    follow name go children = some (followAt name f children) := by
  induction children with
  | nil => simp [follow, followAt, h]
  | cons tchild rest ih =>
      rw [follow, followAt]
      by_cases hname : tchild.value.name = name <;> simp [hname, h, ih]

/-- The loop puts the file at the path that is left. -/
theorem mountLoop_eq (file n : Nat) (hn : q.length < n) (h : Chopped m l head q)
    (node : TreeNode) :
    mountLoop m l file n node head = some (mountAt file (walkParts pathSeparator q) node) := by
  induction n generalizing q head node with
  | zero => exact absurd hn (Nat.not_lt_zero _)
  | succ n ih =>
      cases node with
      | node value children =>
          rw [mountLoop]
          by_cases hne : q = []
          · rw [if_neg (Nat.not_lt.mpr (h.behind hne)), hne, walkParts_nil]
            rfl
          · obtain ⟨hlt, hlen, hstr, hrest⟩ := h.next hne
            have hshort := Chopped.next_length hne
            rw [if_pos hlt, hlen, hstr, walkParts_cons hne, Option.bind_eq_bind, Option.bind_some,
              follow_eq (fun node => ih (by omega) hrest node)]
            rfl

theorem mountNames_eq (n : Nat) (hn : q.length < n) (h : Chopped m l head q) :
    mountNames m l n head = some (walkParts pathSeparator q) := by
  induction n generalizing q head with
  | zero => exact absurd hn (Nat.not_lt_zero _)
  | succ n ih =>
      rw [mountNames]
      by_cases hne : q = []
      · rw [if_neg (Nat.not_lt.mpr (h.behind hne)), hne, walkParts_nil]
      · obtain ⟨hlt, hlen, hstr, hrest⟩ := h.next hne
        have hshort := Chopped.next_length hne
        rw [if_pos hlt, hlen, hstr, walkParts_cons hne, Option.bind_eq_bind, Option.bind_some,
          ih (by omega) hrest]
        rfl

end Buffer

/-- `vfs_mount` of a path that begins with a separator. -/
theorem vfsMount_eq (v : VfsState) (q : Str) (file : Nat) :
    vfsMount v (some (pathSeparator :: q)) file
      = some (some (mountComponents q),
        { v with root := mountAt file (mountComponents q) v.root,
                 refcount := Function.update v.refcount file (-1) }) := by
  obtain ⟨-, hbytes⟩ := chop_spec (pathSeparator :: q) (bytes (pathSeparator :: q)) 0 0
    (fun j _ => by rw [Nat.zero_add])
  rw [vfsMount]
  simp only [List.head?_cons, ne_eq, not_true, if_false]
  generalize hm : (chop (pathSeparator :: q).length 0 (bytes (pathSeparator :: q)) 0).1 = m
    at hbytes
  have hval : ∀ j < q.length, m (1 + j)
      = if bytes q j = pathSeparator.val then 0 else bytes q j := by
    intro j hj
    rw [hbytes (1 + j), Nat.add_comm 1 j, bytes_cons_succ]
    refine if_congr ⟨fun h => h.2.2, fun h => ⟨Nat.zero_le _, ?_, h⟩⟩ rfl rfl
    rw [List.length_cons]
    omega
  have hstop : m (pathSeparator :: q).length = 0 := by
    rw [hbytes, if_neg (by omega), bytes_length]
  have hchopped : Chopped m (pathSeparator :: q).length 1 q := by
    refine ⟨hstop, fun hnil => by simp [hnil], fun _ => ?_, hval⟩
    rw [List.length_cons]
    omega
  by_cases hroot : m 1 = 0
  · have hcomponents : mountComponents q = [] := by
      cases q with
      | nil => exact mountComponents_nil
      | cons x q =>
          refine if_pos ?_
          have hx := hval 0 (Nat.succ_pos _)
          rw [Nat.add_zero, hroot, bytes_eq (Nat.succ_pos _)] at hx
          by_cases hsep : x = pathSeparator
          · rw [hsep]
            rfl
          · refine absurd hx.symm ?_
            have hne : ¬ x.val = pathSeparator.val := fun heq => hsep (Subtype.ext heq)
            exact fun heq => x.property ((if_neg hne).symm.trans heq)
    rw [if_pos hroot, hcomponents]
    cases v.root
    rfl
  · have hcomponents : mountComponents q = walkParts pathSeparator q := by
      refine if_neg fun hhead => hroot ?_
      cases q with
      | nil => simp at hhead
      | cons x q =>
          obtain rfl : x = pathSeparator := by simpa using hhead
          exact (hval 0 (Nat.succ_pos _)).trans (if_pos rfl)
    have hn : q.length < (pathSeparator :: q).length + 1 := by
      rw [List.length_cons]
      omega
    rw [if_neg hroot, mountLoop_eq file _ hn hchopped, Option.bind_eq_bind, Option.bind_some,
      mountNames_eq _ hn hchopped, hcomponents]
    rfl
/-! ## The table of the mounts -/

/-- The names of a path that `vfs_mount` accepts. -/
def namesOf (path : Option Str) : Option (List Str) :=
  match path with
  | some (c :: q) => if c = pathSeparator then some (mountComponents q) else none
  | _ => none

/-- What has been mounted where, the first mount first; the types by their names, and
the directories that `vfs_map_directory` has made. -/
structure Mounts where
  mounts : List (List Str × Nat)
  types : Str → Option Nat
  device : Nat → Option (List Str)

/-- The file that was mounted last at a path. -/
def Mounts.file (t : Mounts) (cs : List Str) : Option Nat :=
  (t.mounts.reverse.find? fun m => m.1 = cs).map Prod.snd

/-- The names that follow `cs` in the paths of the mounts, in the order in which they
first came. -/
def Mounts.names (t : Mounts) (cs : List Str) : List Str :=
  (t.mounts.filterMap fun m => nextName cs m.1).eraseDups

def Mounts.mount (t : Mounts) (path : Option Str) (file : Nat) : Mounts :=
  match namesOf path with
  | some cs => { t with mounts := t.mounts ++ [(cs, file)] }
  | none => t

/-- A call on the table; a type keeps the function that it was registered with first. -/
def Mounts.exec (t : Mounts) : Call → Int × Mounts
  | .registerType type mount =>
      if (t.types type).isSome then (1, t)
      else (0, { t with types := Function.update t.types type (some mount) })
  | .mount path file => (if (namesOf path).isSome then 0 else -EINVAL, t.mount path file)
  | .mountType type mountpoint own node =>
      if (t.types type).getD 0 = 0 then (-ENODEV, t)
      else
        let t := own.foldl (fun t m => t.mount m.1 m.2) t
        if node = 1 then (0, t) else if node = 0 then (-EINVAL, t) else (0, t.mount mountpoint node)
  | .mapDirectory path f =>
      let t := t.mount path f
      (0, { t with device := Function.update t.device f (namesOf path) })

def Mounts.run (calls : List Call) : Mounts :=
  calls.foldl (fun t call => (t.exec call).2) ⟨[], fun _ => none, fun _ => none⟩

section Table

variable {t : Mounts}

theorem file_append (cs path : List Str) (file : Nat) :
    ({ t with mounts := t.mounts ++ [(path, file)] } : Mounts).file cs
      = if cs = path then some file else t.file cs := by
  rw [Mounts.file, Mounts.file, List.reverse_append, List.reverse_singleton,
    List.singleton_append, List.find?_cons]
  by_cases h : cs = path
  · simp [h]
  · have hne : path ≠ cs := fun heq => h heq.symm
    simp [h, hne]

theorem eraseDups_concat (l : List Str) (c : Str) :
    (l ++ [c]).eraseDups = addName l.eraseDups c := by
  rw [List.eraseDups_append, addName]
  by_cases h : c ∈ l
  · have hmem : c ∈ l.eraseDups := List.mem_eraseDups.mpr h
    simp [h, List.removeAll]
  · have hmem : c ∉ l.eraseDups := fun hc => h (List.mem_eraseDups.mp hc)
    simp [h, List.removeAll, List.eraseDups_cons]

theorem names_append (cs path : List Str) (file : Nat) :
    ({ t with mounts := t.mounts ++ [(path, file)] } : Mounts).names cs
      = match nextName cs path with
        | none => t.names cs
        | some c => addName (t.names cs) c := by
  rw [Mounts.names, List.filterMap_append]
  cases h : nextName cs path with
  | none => simp [h, Mounts.names]
  | some c =>
      have hlast : [(path, file)].filterMap (fun m => nextName cs m.1) = [c] := by simp [h]
      rw [hlast, eraseDups_concat]
      rfl

theorem mem_names {cs : List Str} {c : Str} :
    c ∈ t.names cs ↔ ∃ m ∈ t.mounts, cs ++ [c] <+: m.1 := by
  rw [Mounts.names, List.mem_eraseDups, List.mem_filterMap]
  simp only [nextName_eq_some]

end Table
/-! ## Runs of calls -/

theorem strcmp_eq_zero : ∀ a b : Str, strcmp a b = 0 ↔ a = b
  | [], [] => by simp [strcmp]
  | [], b :: _ => by
      have hb : b.val.toNat ≠ 0 := fun h => b.property (UInt8.toNat_inj.mp h)
      simp [strcmp, hb]
  | a :: _, [] => by
      have ha : a.val.toNat ≠ 0 := fun h => a.property (UInt8.toNat_inj.mp h)
      simp [strcmp, ha]
  | a :: l, b :: r => by
      rw [strcmp]
      by_cases h : a = b
      · rw [if_pos h, strcmp_eq_zero l r]
        simp [h]
      · have hne : (a.val.toNat : Int) ≠ b.val.toNat := by
          intro heq
          exact h (Subtype.ext (UInt8.toNat_inj.mp (Int.ofNat_inj.mp heq)))
        simp [h, sub_eq_zero, hne]

theorem strOps_same (a b : Str) : strOps.Same a b ↔ a = b := strcmp_eq_zero a b

theorem strOps_lawful : strOps.Lawful where
  refl a := (strOps_same a a).mpr rfl
  symm a b h := (strOps_same b a).mpr ((strOps_same a b).mp h).symm
  trans a b c h h' :=
    (strOps_same a c).mpr (((strOps_same a b).mp h).trans ((strOps_same b c).mp h'))
  hash a b h := congrArg strHash ((strOps_same a b).mp h)
  dup a := (strOps_same a a).mpr rfl

/-- The state after a mount. -/
def VfsState.mounted (v : VfsState) (path : Option Str) (file : Nat) : VfsState :=
  match namesOf path with
  | some cs =>
      { v with root := mountAt file cs v.root, refcount := Function.update v.refcount file (-1) }
  | none => { v with errno := EINVAL }

theorem vfsMount_spec (v : VfsState) (path : Option Str) (file : Nat) :
    vfsMount v path file = some (namesOf path, v.mounted path file) := by
  cases path with
  | none => rfl
  | some path =>
      cases path with
      | nil => rfl
      | cons c q =>
          by_cases h : c = pathSeparator
          · subst h
            rw [vfsMount_eq]
            rfl
          · simp [vfsMount, VfsState.mounted, namesOf, h]

/-- The state holds what the table says. -/
structure Holds (v : VfsState) (t : Mounts) : Prop where
  file : ∀ cs, fileAt v.root cs = t.file cs
  names : ∀ cs, childrenAt v.root cs = t.names cs
  refcount : ∀ file, v.refcount file = if file ∈ t.mounts.map Prod.snd then -1 else 0
  placed : HashMap.WellPlaced v.types
  ops : v.types.ops = strOps
  types : v.types.toMap = t.types
  device : v.device = t.device
  entry : ∀ f cs, t.device f = some cs → cs ∈ t.mounts.map Prod.fst

theorem Holds.install : Holds vfsInstall ⟨[], fun _ => none, fun _ => none⟩ where
  file cs := by cases cs <;> rfl
  names cs := by cases cs <;> rfl
  refcount file := by simp [vfsInstall]
  placed := HashMap.WellPlaced.create _ _
  ops := rfl
  types := rfl
  device := rfl
  entry f cs h := by cases h

section Steps

variable {v : VfsState} {t : Mounts}

theorem Holds.mounted (h : Holds v t) (path : Option Str) (file : Nat) :
    Holds (v.mounted path file) (t.mount path file) := by
  rw [VfsState.mounted, Mounts.mount]
  cases namesOf path with
  | none => exact ⟨h.file, h.names, h.refcount, h.placed, h.ops, h.types, h.device, h.entry⟩
  | some cs =>
      refine ⟨fun ds => ?_, fun ds => ?_, fun f => ?_, h.placed, h.ops, h.types, h.device,
        fun f ds hf => ?_⟩
      · rw [file_append, ← h.file]
        exact fileAt_mountAt file cs ds v.root
      · rw [names_append, ← h.names]
        exact childrenAt_mountAt file cs ds v.root
      · by_cases hf : f = file
        · simp [hf]
        · have hmem : f ∈ (t.mounts ++ [(cs, file)]).map Prod.snd ↔ f ∈ t.mounts.map Prod.snd := by
            simp [hf]
          dsimp only
          rw [Function.update_of_ne hf, h.refcount]
          exact (if_congr hmem rfl rfl).symm
      · simp [h.entry f ds hf]

theorem Holds.mountAll (h : Holds v t) (own : List (Option Str × Nat)) :
    ∃ v', mountAll v own = some v' ∧ Holds v' (own.foldl (fun t m => t.mount m.1 m.2) t) := by
  induction own generalizing v t with
  | nil => exact ⟨v, rfl, h⟩
  | cons m own ih =>
      obtain ⟨v', hall, hv'⟩ := ih (h.mounted m.1 m.2)
      refine ⟨v', ?_, hv'⟩
      rw [Vfs.mountAll, vfsMount_spec]
      exact hall

theorem Holds.has (h : Holds v t) (type : Str) : v.types.has type = (t.types type).isSome := by
  rw [← h.types, HashMap.Table.has, HashMap.Table.toMap, Option.isSome_map]

theorem Holds.get (h : Holds v t) (type : Str) : v.types.get type = (t.types type).getD 0 := by
  rw [← h.types, HashMap.Table.get, HashMap.Table.toMap]
  cases HashMap.walk v.types.ops type (v.types.entries (v.types.bucket type)) <;> rfl

/-- Every call does to the state what it does to the table. -/
theorem Holds.exec (h : Holds v t) (call : Call) :
    ∃ v', exec v call = some ((t.exec call).1, v') ∧ Holds v' (t.exec call).2 := by
  cases call with
  | registerType type mount =>
      rw [Vfs.exec, vfsRegisterType, h.has, Mounts.exec]
      by_cases hreg : (t.types type).isSome
      · rw [if_pos hreg, if_pos hreg]
        exact ⟨v, rfl, h⟩
      · rw [if_neg hreg, if_neg hreg]
        refine ⟨_, rfl, h.file, h.names, h.refcount, ?_, h.ops, ?_, h.device, h.entry⟩
        · exact h.placed.set (h.ops ▸ strOps_lawful) type mount
        · have hset := HashMap.toMap_set (h.ops ▸ strOps_lawful) type mount
          refine Eq.trans hset (funext fun key => ?_)
          rw [HashMap.insert, h.ops, h.types]
          by_cases hkey : key = type
          · simp [hkey, strOps_same]
          · have hne : ¬ strOps.Same type key := fun hs => hkey ((strOps_same _ _).mp hs).symm
            simp [hkey, hne]
  | mount path file =>
      refine ⟨v.mounted path file, ?_, h.mounted path file⟩
      rw [Vfs.exec, vfsMount_spec, Mounts.exec, VfsState.mounted]
      cases namesOf path <;> rfl
  | mountType type mountpoint own node =>
      rw [Vfs.exec, vfsMountType, h.get, Mounts.exec]
      by_cases hnull : (t.types type).getD 0 = 0
      · have hnull' : (t.types type).getD 0 = HashMap.null := hnull
        rw [if_pos hnull, if_pos hnull']
        exact ⟨v, rfl, h⟩
      · have hnull' : (t.types type).getD 0 ≠ HashMap.null := hnull
        obtain ⟨v', hall, hv'⟩ := h.mountAll own
        rw [if_neg hnull, if_neg hnull', hall, Option.bind_eq_bind, Option.bind_some,
          vfsMount_spec]
        by_cases hone : node = 1
        · simp only [if_pos hone]
          exact ⟨v', rfl, hv'⟩
        · by_cases hzero : node = 0
          · simp only [if_neg hone, if_pos hzero]
            exact ⟨v', rfl, hv'⟩
          · simp only [if_neg hone, if_neg hzero]
            exact ⟨v'.mounted mountpoint node, rfl, hv'.mounted mountpoint node⟩
  | mapDirectory path f =>
      rw [Vfs.exec, vfsMapDirectory, vfsMount_spec, Mounts.exec]
      have hm := h.mounted path f
      refine ⟨_, rfl, hm.file, hm.names, hm.refcount, hm.placed, hm.ops, hm.types, ?_, ?_⟩
      · exact congrArg (Function.update · f (namesOf path)) hm.device
      · intro g cs hg
        by_cases hgf : g = f
        · subst hgf
          have hnames : namesOf path = some cs := by simpa using hg
          simp [Mounts.mount, hnames]
        · refine hm.entry g cs ?_
          simpa [hgf] using hg

theorem run_holds (calls : List Call) (h : Holds v t) :
    ∃ v', run calls v = some v' ∧ Holds v' (calls.foldl (fun t call => (t.exec call).2) t) := by
  induction calls generalizing v t with
  | nil => exact ⟨v, rfl, h⟩
  | cons call calls ih =>
      obtain ⟨v', hexec, hv'⟩ := h.exec call
      obtain ⟨w, hrun, hw⟩ := ih hv'
      refine ⟨w, ?_, hw⟩
      rw [run, hexec]
      exact hrun

end Steps
end Vfs

end Shitos
