import Shitos.KopenTurns

/-!
# The directory of a link

A link with a relative target leads on from the directory that it lies in.
`kopen_recur` rebuilds that directory from the chopped path, but the buffer
begins with the byte of the first separator, which is cleared and stays so: the
string is empty whatever the depth (`relpathOf_choppedPath`), and the target is
resolved from the root.
-/

namespace Shitos

namespace Kopen

open Shitos.Path Components

/-- The buffer that the path of these components is chopped up in. -/
def choppedPath (cs : List Str) : Mem :=
  (chop (render pathSeparator cs).length 0 (bytes (render pathSeparator cs)) 0).1

/-- What follows on the call for the last component's link. -/
def followed {δ σ : Type} (D : Drivers δ σ) (flags : Nat) :
    Option Nat × Kernel δ σ → Option Nat × Kernel δ σ
  | (none, k) => (none, setErrno k ENOENT)
  | (some node, k) => (some node, fsOpen D k node flags)

section Relative

variable {ds : List Str} {target : Str}

theorem relpathOf_choppedPath {cs : List Str} (hcs : ∀ c ∈ cs, Component pathSeparator c)
    (hne : cs ≠ []) {depth : Nat} (hdepth : depth ≤ cs.length) :
    relpathOf (choppedPath cs) (render pathSeparator cs).length depth = some [] := by
  obtain ⟨path, n, hchop⟩ : ∃ path n, chop (render pathSeparator cs).length 0
      (bytes (render pathSeparator cs)) 0 = (path, n) := ⟨_, _, rfl⟩
  obtain ⟨-, h0, hleft⟩ := chop_render hcs hne hchop
  rw [choppedPath, hchop]
  exact relpathOf_eq h0 hleft hcs hdepth

/-- From the empty string a relative path leads where it leads from `ds` exactly
where it climbs up to the root on its way. -/
theorem canonicalizePath_nil_iff (hds : ∀ d ∈ ds, Component pathSeparator d)
    (hrel : Relative target) :
    (∀ outstr, canonicalizePath outstr [] target = canonicalizePath outstr (pathOf ds) target)
      ↔ ∃ front, front <+: components pathSeparator target
        ∧ settle pathCurrent pathGoUp ds front = [] := by
  have hroot : resolve [] target = settle pathCurrent pathGoUp []
      (components pathSeparator target) := by
    rw [resolve_of_relative hrel, components_nil]
  have hdir : resolve (pathOf ds) target = settle pathCurrent pathGoUp ds
      (components pathSeparator target) := by
    rw [resolve_of_relative hrel, components_pathOf hds]
  rw [← settle_eq_settle_nil, ← hroot, ← hdir]
  constructor
  · intro h
    have heq := h (fun _ => 0)
    rw [canonicalizePath_eq, canonicalizePath_eq] at heq
    exact (pathOf_inj (fun c hc => resolve_component hc) (fun c hc => resolve_component hc)
      (Prod.mk.inj (Option.some.inj heq)).1).symm
  · intro h outstr
    rw [canonicalizePath_eq, canonicalizePath_eq, h]

/-- Only for a link in the root is the rebuilt directory the link's own. -/
theorem relpath_nil_iff (hds : ∀ d ∈ ds, Component pathSeparator d) (hrel : Relative target) :
    (components pathSeparator ([] : Str) = ds
      ∧ ∀ outstr, canonicalizePath outstr [] target = canonicalizePath outstr (pathOf ds) target)
      ↔ ds = [] := by
  rw [components_nil, canonicalizePath_nil_iff hds hrel]
  exact ⟨fun h => h.1.symm, fun h => ⟨h.symm, [], List.nil_prefix, h⟩⟩

end Relative

section Follow

variable {δ σ : Type} {D : Drivers δ σ}

/-- At the last component, the call is all that is left to do. -/
theorem lookup_of_target {t : Turn δ σ} {k : Kernel δ σ} {target : Str}
    (hlast : t.rest = []) (h : t.target D = some (k, target)) :
    lookup D t.recur t.pathDepth t.flags t.symlinkDepth t.rest t.kernel t.node
      = (t.recur k target []).map (followed D t.flags) := by
  have hvisit := visited_of_target h
  rw [Turn.visited, Turn.depth, hlast, List.length_nil, Nat.sub_zero] at hvisit
  rw [hlast, lookup, hvisit]
  cases t.recur k target [] with
  | none => rfl
  | some r =>
      obtain ⟨found, k'⟩ := r
      cases found with
      | none => rfl
      | some found => rfl

/-- **A relative link is followed from the root.** The call for a link in
`/d1/.../dk` gets a directory of no components. It is the link's own only where
there are none, and the path that is opened is that from the link's directory
exactly where the target climbs up to the root on its way. -/
theorem relative_link_iff (root : TreeNode) {passes : Nat → Nat} (hpasses : ∀ d, d + 1 ≤ passes d)
    {n : Nat} {k k' : Kernel δ σ} {file cwd : Str} {flags symlinkDepth : Nat} {ds : List Str}
    {l target : Str} {t : Turn δ σ} (hpath : resolve cwd file = ds ++ [l])
    (hturn : t ∈ searchTurns D root n k file flags symlinkDepth cwd) (hlast : t.rest = [])
    (htarget : t.target D = some (k', target)) (hrel : Relative target) :
    ∃ relpath, relpathOf (choppedPath (ds ++ [l])) (render pathSeparator (ds ++ [l])).length
          (ds.length + 1) = some relpath
      ∧ kopenRecur D root passes (n + 1) k (some file) flags symlinkDepth cwd
          = (kopenRecur D root passes n k' (some target) 0 (symlinkDepth + 1) relpath).map
              (followed D flags)
      ∧ ((components pathSeparator relpath = ds ∧ ∀ outstr,
            canonicalizePath outstr relpath target = canonicalizePath outstr (pathOf ds) target)
          ↔ ds = [])
      ∧ ((∀ outstr,
            canonicalizePath outstr relpath target = canonicalizePath outstr (pathOf ds) target)
          ↔ ∃ front, front <+: components pathSeparator target
            ∧ settle pathCurrent pathGoUp ds front = []) := by
  have hcs : ∀ c ∈ ds ++ [l], Component pathSeparator c := fun c hc =>
    resolve_component (hpath ▸ hc)
  have hds : ∀ d ∈ ds, Component pathSeparator d := fun d hd => hcs d (List.mem_append_left _ hd)
  refine ⟨[], relpathOf_choppedPath hcs (by simp) (by simp), ?_, relpath_nil_iff hds hrel,
    canonicalizePath_nil_iff hds hrel⟩
  obtain ⟨hrecur, -, hflags, -, -⟩ := searchTurns_call hturn
  rw [kopenRecur_eq root hpasses, kopenRecur_eq root hpasses, search_of_mem hturn,
    lookup_of_target hlast htarget, hflags, hrecur]
  rfl

end Follow

/-! ## A link one directory down -/

/-- The data of a node that lists its entries, or its target. -/
structure Listing where
  entries : List (Str × Nat)
  target : Str

/-- A file system whose nodes list what they hold. -/
def listed : Drivers Listing Unit where
  kmalloc := fun k => (0, k)
  buffer := fun _ _ => 0
  onOpen := fun _ => none
  finddir := fun node => some fun k _ name =>
    ((node.entries.find? fun e => e.1 = name).map (·.2), k)
  readlink := fun node => some fun k _ _ => (node.target.length, bytes node.target, k)

/-- The names `a`, `b` and `l`. -/
def nameA : Str := [⟨97, by decide⟩]
def nameB : Str := [⟨98, by decide⟩]
def nameL : Str := [⟨108, by decide⟩]

/-- `/a` with the file `/a/b` and the link `/a/l` to `b`. -/
def linkedNodes : Nat → FsNode Listing
  | 1 => { flags := 0o4, refcount := 0, data := { entries := [(nameA, 2)], target := [] } }
  | 2 => { flags := 0o4, refcount := 0,
           data := { entries := [(nameB, 3), (nameL, 4)], target := [] } }
  | 4 => { flags := 0o12, refcount := 0, data := { entries := [], target := nameB } }
  | _ => { flags := 0o10, refcount := 0, data := { entries := [], target := [] } }

def linkedKernel : Kernel Listing Unit :=
  { nodes := linkedNodes, fs := (), errno := 0, freed := [] }

/-- The root alone is mounted. -/
def rootTree : TreeNode := .node { name := [], file := some 1 } []

/-- Opening `/a/l`, with nine calls inside one another at most. -/
def linkedTurns : List (Turn Listing Unit) :=
  searchTurns listed rootTree 8 linkedKernel (pathOf [nameA, nameL]) 0 0 [pathSeparator]

theorem relative_link_iff_one : ∃ t ∈ linkedTurns, ∃ k',
    (t.rest = [] ∧ t.target listed = some (k', nameB) ∧ Relative nameB)
      ∧ ∃ relpath, relpathOf (choppedPath ([nameA] ++ [nameL]))
            (render pathSeparator ([nameA] ++ [nameL])).length ([nameA].length + 1) = some relpath
        ∧ kopenRecur listed rootTree (· + 1) 9 linkedKernel (some (pathOf [nameA, nameL])) 0 0
              [pathSeparator]
            = (kopenRecur listed rootTree (· + 1) 8 k' (some nameB) 0 1 relpath).map
                (followed listed 0)
        ∧ ((components pathSeparator relpath = [nameA] ∧ ∀ outstr,
              canonicalizePath outstr relpath nameB
                = canonicalizePath outstr (pathOf [nameA]) nameB)
            ↔ [nameA] = [])
        ∧ ((∀ outstr, canonicalizePath outstr relpath nameB
                = canonicalizePath outstr (pathOf [nameA]) nameB)
            ↔ ∃ front, front <+: components pathSeparator nameB
              ∧ settle pathCurrent pathGoUp [nameA] front = []) := by
  have hturn : linkedTurns[2]? = some _ := rfl
  have hmem := List.mem_of_getElem? hturn
  have hpath : resolve [pathSeparator] (pathOf [nameA, nameL]) = [nameA] ++ [nameL] := by decide
  have hrel : Relative nameB := by decide
  exact ⟨_, hmem, _, ⟨rfl, rfl, hrel⟩,
    relative_link_iff rootTree (fun _ => Nat.le_refl _) hpath hmem rfl rfl hrel⟩

/-- `/a/l` leads to `b`, but the directory that is rebuilt for it has no components:
`/b` is opened in place of `/a/b`, and the file is not found. -/
theorem relative_link_misses :
    (∃ relpath, relpathOf (choppedPath [nameA, nameL])
          (render pathSeparator [nameA, nameL]).length 2 = some relpath
        ∧ components pathSeparator relpath ≠ [nameA]
        ∧ canonicalizePath (fun _ => 0) relpath nameB = some (pathOf [nameB], 2)
        ∧ canonicalizePath (fun _ => 0) (pathOf [nameA]) nameB = some (pathOf [nameA, nameB], 4))
      ∧ (kopenRecur listed rootTree (· + 1) 9 linkedKernel (some (pathOf [nameA, nameL])) 0 0
          [pathSeparator]).map (fun r => (r.1, r.2.errno)) = some (none, ENOENT)
      ∧ (kopenRecur listed rootTree (· + 1) 9 linkedKernel (some (pathOf [nameA, nameB])) 0 0
          [pathSeparator]).map (fun r => (r.1, r.2.errno)) = some (some 3, 0) :=
  ⟨⟨[], by decide +kernel, by decide, by decide +kernel, by decide +kernel⟩,
    by decide +kernel, by decide +kernel⟩

end Kopen

end Shitos
