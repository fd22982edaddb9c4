import Shitos.KopenLinks

/-!
# `O_NOFOLLOW`

A link is followed, kept, or refused (`LinkAct`), and `kopen_recur` decides that
from the flags, the depth and the depth of the path (`linkAct`). What the flag is
meant for is the last component alone (`nofollowAct`): there a link is kept with
the access mode `O_PATH`, and refused with any other.

The two differ in both places where the code compares the depths. A link in front
of the last component is refused, and the last component's link is kept with any
access mode that shares a bit with `O_PATH`, and followed with the others. Where a
search comes to no such link, it does what is meant (`nofollow_iff`).
-/

namespace Shitos

namespace Kopen

open Shitos.Path Components

/-- `O_ACCMODE`. -/
def oAccmode : Nat := 0o7

/-- What a search does with a link. -/
inductive LinkAct
  | follow
  | keep
  | refuse
  deriving DecidableEq

/-- What `kopen_recur` does with a link at `depth`. -/
def linkAct (flags depth pathDepth : Nat) : LinkAct :=
  if flags &&& oNofollow ≠ 0 ∧ flags &&& oPath ≠ 0 ∧ depth = pathDepth then .keep
  else if flags &&& oNofollow ≠ 0 ∧ depth = sub32 pathDepth 1 then .refuse
  else .follow

/-- What the flags mean for a link at `depth`: only the last component's is not
followed, and it is the result with the access mode `O_PATH` only. -/
def nofollowAct (flags depth pathDepth : Nat) : LinkAct :=
  if flags &&& oNofollow = 0 ∨ depth ≠ pathDepth then .follow
  else if flags &&& oAccmode = oPath then .keep
  else .refuse

section Acts

variable {δ σ : Type} (D : Drivers δ σ)

/-- The beginning of a turn, where a link is treated in the given way. -/
def visitBy (act : LinkAct) (recur : Recur δ σ) (symlinkDepth : Nat) (k : Kernel δ σ)
    (node : Nat) : Option (Option Nat × Kernel δ σ) :=
  if fsIslnk (k.nodes node).flags then
    match act with
    | .follow => followLink D recur (some []) 0 0 symlinkDepth k node 0
    | .keep => some (some node, k)
    | .refuse => some (none, kfree (setErrno k ELOOP) node)
  else some (some node, k)

/-- The search from a node on, where a link at each depth is treated in the given
way. -/
def lookupBy (act : Nat → LinkAct) (recur : Recur δ σ) (pathDepth flags symlinkDepth : Nat) :
    List Str → Kernel δ σ → Nat → Option (Option Nat × Kernel δ σ)
  | [], k, node => do
      match ← visitBy D (act pathDepth) recur symlinkDepth k node with
      | (none, k) => some (none, k)
      | (some node, k) => some (some node, fsOpen D k node flags)
  | c :: rest, k, node => do
      match ← visitBy D (act (pathDepth - (rest.length + 1))) recur symlinkDepth k node with
      | (none, k) => some (none, k)
      | (some node, k) =>
          match fsFinddir D k node c with
          | (none, k) => some (none, setErrno (kfree k node) ENOENT)
          | (some next, k) =>
              lookupBy act recur pathDepth flags symlinkDepth rest (kfree k node) next

/-- The search for a path with the flags of `kopen`, where a link at a depth is
treated in the given way. The searches for its target have no flags. -/
def searchBy (root : TreeNode) (act : Nat → Nat → LinkAct) (n : Nat) (k : Kernel δ σ) (file : Str)
    (flags : Nat) (cwd : Str) : Option (Option Nat × Kernel δ σ) :=
  let cs := resolve cwd file
  if cs = [] then
    let (rootClone, k) := cloneNode D k (root.value.file.getD 0)
    some (some rootClone, fsOpen D k rootClone flags)
  else
    match mountPoint root cs with
    | (none, _, _) => some (none, setErrno k ENOENT)
    | (some last, rest, _) =>
        let (node, k) := cloneNode D k last
        lookupBy D (fun depth => act depth cs.length) (recurOf D root n 0) cs.length flags 0 rest
          k node

variable {D} {recur : Recur δ σ} {pathDepth flags symlinkDepth : Nat}

/-- The only use that `followLink` makes of the flags is to refuse a link. -/
theorem followLink_flags (relpath : Option Str) (k : Kernel δ σ) (node depth : Nat) :
    followLink D recur relpath pathDepth flags symlinkDepth k node depth
      = if flags &&& oNofollow ≠ 0 ∧ depth = sub32 pathDepth 1 then
          some (none, kfree (setErrno k ELOOP) node)
        else followLink D recur relpath 0 0 symlinkDepth k node 0 := by
  have hnone : ¬ ((0 : Nat) &&& oNofollow ≠ 0 ∧ (0 : Nat) = sub32 0 1) := by decide
  rw [followLink, followLink, if_neg hnone]

theorem visitBy_of_not_link {act : LinkAct} {k : Kernel δ σ} {node : Nat}
    (h : ¬ fsIslnk (k.nodes node).flags = true) :
    visitBy D act recur symlinkDepth k node = some (some node, k) := if_neg h

theorem visitBy_of_link {act : LinkAct} {k : Kernel δ σ} {node : Nat}
    (h : fsIslnk (k.nodes node).flags = true) :
    visitBy D act recur symlinkDepth k node = match act with
      | .follow => followLink D recur (some []) 0 0 symlinkDepth k node 0
      | .keep => some (some node, k)
      | .refuse => some (none, kfree (setErrno k ELOOP) node) := if_pos h

theorem visit_eq (k : Kernel δ σ) (node depth : Nat) :
    visit D recur (some []) pathDepth flags symlinkDepth k node depth
      = visitBy D (linkAct flags depth pathDepth) recur symlinkDepth k node := by
  rw [visit, followLink_flags]
  by_cases hlink : fsIslnk (k.nodes node).flags = true
  · rw [visitBy_of_link hlink, linkAct]
    by_cases hkeep : flags &&& oNofollow ≠ 0 ∧ flags &&& oPath ≠ 0 ∧ depth = pathDepth
    · rw [if_neg (fun hfollows : Follows _ _ _ _ => hfollows.2 hkeep), if_pos hkeep]
    · rw [if_pos (show Follows _ _ _ _ from ⟨hlink, hkeep⟩), if_neg hkeep]
      by_cases hrefuse : flags &&& oNofollow ≠ 0 ∧ depth = sub32 pathDepth 1
      · rw [if_pos hrefuse, if_pos hrefuse]
      · rw [if_neg hrefuse, if_neg hrefuse]
  · rw [if_neg (fun hfollows : Follows _ _ _ _ => hlink hfollows.1), visitBy_of_not_link hlink]

theorem visitBy_congr {act act' : LinkAct} {k : Kernel δ σ} {node : Nat}
    (h : fsIslnk (k.nodes node).flags = true → act = act') :
    visitBy D act recur symlinkDepth k node = visitBy D act' recur symlinkDepth k node := by
  by_cases hlink : fsIslnk (k.nodes node).flags = true
  · rw [h hlink]
  · rw [visitBy_of_not_link hlink, visitBy_of_not_link hlink]

/-- Only how the links are treated matters that the search comes to. -/
theorem lookupBy_congr {act : Nat → LinkAct} {rest : List Str} {k : Kernel δ σ} {node : Nat}
    (h : ∀ t ∈ turns D recur pathDepth flags symlinkDepth rest k node, t.IsLink →
      linkAct flags t.depth pathDepth = act t.depth) :
    lookup D recur pathDepth flags symlinkDepth rest k node
      = lookupBy D act recur pathDepth flags symlinkDepth rest k node := by
  induction rest generalizing k node with
  | nil =>
      have hact : fsIslnk (k.nodes node).flags = true →
          linkAct flags pathDepth pathDepth = act pathDepth :=
        h _ (List.mem_singleton.mpr rfl)
      rw [lookup, visit_eq, visitBy_congr hact]
      rfl
  | cons c rest ih =>
      rw [turns] at h
      have hact : fsIslnk (k.nodes node).flags = true →
          linkAct flags (pathDepth - (rest.length + 1)) pathDepth
            = act (pathDepth - (rest.length + 1)) :=
        h _ List.mem_cons_self
      have hmore := fun t ht => h t (List.mem_cons_of_mem _ ht)
      rw [Turn.visited, Turn.depth, List.length_cons] at hmore
      rw [lookup, lookupBy, ← visitBy_congr hact, ← visit_eq]
      cases hvisit : visit D recur (some []) pathDepth flags symlinkDepth k node
          (pathDepth - (rest.length + 1)) with
      | none => rfl
      | some found =>
          obtain ⟨found, k'⟩ := found
          rw [hvisit] at hmore
          rw [Option.bind_eq_bind, Option.bind_some, Option.bind_some]
          cases found with
          | none => rfl
          | some node' =>
              dsimp only at hmore ⊢
              obtain ⟨next, k2, hnext⟩ : ∃ next k2, fsFinddir D k' node' c = (next, k2) :=
                ⟨_, _, rfl⟩
              rw [hnext] at hmore ⊢
              cases next with
              | none => rfl
              | some next => exact ih hmore

end Acts

section Search

variable {δ σ : Type} {D : Drivers δ σ} {root : TreeNode} {n : Nat} {k : Kernel δ σ}
  {file cwd : Str} {flags : Nat} {t : Turn δ σ}

/-- A search is that for the treatment of the links that it comes to. -/
theorem searchBy_congr {act : Nat → Nat → LinkAct}
    (h : ∀ t ∈ searchTurns D root n k file flags 0 cwd, t.IsLink →
      linkAct flags t.depth t.pathDepth = act t.depth t.pathDepth) :
    search D root (n + 1) k (some file) flags 0 cwd
      = searchBy D root act n k file flags cwd := by
  have hturns : ∀ t ∈ searchTurns D root n k file flags 0 cwd, t.IsLink →
      linkAct flags t.depth (resolve cwd file).length
        = act t.depth (resolve cwd file).length := fun t ht => by
    rw [← (searchTurns_call ht).2.1]
    exact h t ht
  rw [searchTurns] at hturns
  dsimp only at hturns
  rw [search, searchBy]
  dsimp only
  by_cases hnil : resolve cwd file = []
  · rw [if_pos hnil, if_pos hnil]
  · rw [if_neg hnil] at hturns
    rw [if_neg hnil, if_neg hnil]
    cases hmount : mountPoint root (resolve cwd file) with
    | mk last found =>
        obtain ⟨rest, outdepth⟩ := found
        rw [hmount] at hturns
        cases last with
        | none => rfl
        | some last => exact lookupBy_congr hturns

theorem depth_eq_iff (h : t ∈ searchTurns D root n k file flags 0 cwd) :
    (t.depth = t.pathDepth ↔ t.rest = [])
      ∧ (t.depth = sub32 t.pathDepth 1 ↔ t.rest.length = 1) := by
  obtain ⟨-, hd, -, -, hrest⟩ := searchTurns_call h
  have hpos : 0 < t.pathDepth := by
    rw [hd]
    refine List.length_pos_iff.mpr fun hnil => ?_
    rw [searchTurns, hnil] at h
    exact absurd h List.not_mem_nil
  rw [sub32_of_le hpos, Turn.depth, ← List.length_eq_zero_iff]
  omega

theorem oPath_of_accmode (h : flags &&& oAccmode = oPath) : flags &&& oPath ≠ 0 := by
  have hmask : flags &&& oPath = (flags &&& oAccmode) &&& oPath := by
    rw [Nat.and_assoc]
    rfl
  rw [hmask, h]
  decide

/-- Where the code treats a link as it is meant. -/
theorem linkAct_eq_iff (h : t ∈ searchTurns D root n k file flags 0 cwd)
    (hflags : flags &&& oNofollow ≠ 0) :
    linkAct flags t.depth t.pathDepth = nofollowAct flags t.depth t.pathDepth
      ↔ t.rest.length ≠ 1 ∧ (t.rest = [] → flags &&& oAccmode = oPath) := by
  obtain ⟨hlast, hbefore⟩ := depth_eq_iff h
  rw [linkAct, nofollowAct]
  by_cases hnil : t.rest = []
  · have hend : t.depth = t.pathDepth := hlast.mpr hnil
    have hone : t.rest.length ≠ 1 := by
      rw [hnil]
      decide
    have hact : ¬ (flags &&& oNofollow = 0 ∨ t.depth ≠ t.pathDepth) := fun hc =>
      hc.elim hflags fun hne => hne hend
    have hrefuse : ¬ (flags &&& oNofollow ≠ 0 ∧ t.depth = sub32 t.pathDepth 1) := fun hc =>
      hone (hbefore.mp hc.2)
    rw [if_neg hact, if_neg hrefuse]
    by_cases hmode : flags &&& oAccmode = oPath
    · rw [if_pos ⟨hflags, oPath_of_accmode hmode, hend⟩, if_pos hmode]
      exact ⟨fun _ => ⟨hone, fun _ => hmode⟩, fun _ => rfl⟩
    · rw [if_neg hmode]
      constructor
      · intro heq
        split at heq
        · exact nomatch heq
        · exact nomatch heq
      · exact fun hc => absurd (hc.2 hnil) hmode
  · have hend : t.depth ≠ t.pathDepth := fun heq => hnil (hlast.mp heq)
    rw [if_pos (Or.inr hend), if_neg (fun hc => hend hc.2.2)]
    constructor
    · intro heq
      refine ⟨fun hone => ?_, fun hnil' => absurd hnil' hnil⟩
      rw [if_pos ⟨hflags, hbefore.mpr hone⟩] at heq
      exact nomatch heq
    · rintro ⟨hone, -⟩
      rw [if_neg (fun hc => hone (hbefore.mp hc.2))]

/-- **`O_NOFOLLOW` is for the last component alone** exactly in the searches that
come to no link in the last component but one, and to one in the last component
only with the access mode `O_PATH`: there `kopen_recur` treats every link as it is
meant. Such a search is the one that is meant; where its last component is no
link, it is the one that follows all links; and where it is one, the link's own
node is opened. -/
theorem nofollow_iff (root : TreeNode) {passes : Nat → Nat} (hpasses : ∀ d, d + 1 ≤ passes d)
    (n : Nat) (k : Kernel δ σ) (file cwd : Str) (hflags : flags &&& oNofollow ≠ 0) :
    (∀ t ∈ searchTurns D root n k file flags 0 cwd, t.visited D
        = visitBy D (linkAct flags t.depth t.pathDepth) (recurOf D root n 0) 0 t.kernel t.node)
      ∧ ((∀ t ∈ searchTurns D root n k file flags 0 cwd, t.IsLink →
          linkAct flags t.depth t.pathDepth = nofollowAct flags t.depth t.pathDepth)
        ↔ ∀ t ∈ searchTurns D root n k file flags 0 cwd, t.IsLink →
          t.rest.length ≠ 1 ∧ (t.rest = [] → flags &&& oAccmode = oPath))
      ∧ ((∀ t ∈ searchTurns D root n k file flags 0 cwd, t.IsLink →
          t.rest.length ≠ 1 ∧ (t.rest = [] → flags &&& oAccmode = oPath)) →
        kopenRecur D root passes (n + 1) k (some file) flags 0 cwd
            = searchBy D root (nofollowAct flags) n k file flags cwd
          ∧ ((∀ t ∈ searchTurns D root n k file flags 0 cwd, t.rest = [] → ¬ t.IsLink) →
            kopenRecur D root passes (n + 1) k (some file) flags 0 cwd
              = searchBy D root (fun _ _ => .follow) n k file flags cwd)
          ∧ ∀ t ∈ searchTurns D root n k file flags 0 cwd, t.rest = [] → t.IsLink →
            kopenRecur D root passes (n + 1) k (some file) flags 0 cwd
              = some (some t.node, fsOpen D t.kernel t.node flags)) := by
  have hiff : ∀ t ∈ searchTurns D root n k file flags 0 cwd,
      (linkAct flags t.depth t.pathDepth = nofollowAct flags t.depth t.pathDepth
        ↔ t.rest.length ≠ 1 ∧ (t.rest = [] → flags &&& oAccmode = oPath)) :=
    fun t ht => linkAct_eq_iff ht hflags
  refine ⟨fun t ht => ?_, ?_, fun hmeant => ⟨?_, fun hplain => ?_, fun t ht hnil hlink => ?_⟩⟩
  · obtain ⟨hr, -, hf, hs, -⟩ := searchTurns_call ht
    rw [Turn.visited, visit_eq, hr, hf, hs]
  · exact forall₂_congr fun t ht => imp_congr_right fun _ => hiff t ht
  · rw [kopenRecur_eq root hpasses]
    exact searchBy_congr fun t ht hlink => (hiff t ht).mpr (hmeant t ht hlink)
  · rw [kopenRecur_eq root hpasses]
    refine @searchBy_congr _ _ D root _ _ _ _ _ (fun _ _ => .follow) fun t ht hlink => ?_
    rw [(hiff t ht).mpr (hmeant t ht hlink), nofollowAct, if_pos (Or.inr fun hend =>
      hplain t ht ((depth_eq_iff ht).1.mp hend) hlink)]
  · have hend := (depth_eq_iff ht).1.mpr hnil
    have hmode := (hmeant t ht hlink).2 hnil
    have hkeep : nofollowAct flags t.depth t.pathDepth = .keep := by
      rw [nofollowAct, if_neg (fun hc => hc.elim hflags fun hne => hne hend), if_pos hmode]
    obtain ⟨-, -, hf, hs, -⟩ := searchTurns_call ht
    have hvisit : visit D t.recur (some []) t.pathDepth flags t.symlinkDepth t.kernel
        t.node t.pathDepth = some (some t.node, t.kernel) := by
      rw [visit_eq, ← congrArg (linkAct flags · t.pathDepth) hend,
        (hiff t ht).mpr (hmeant t ht hlink), hkeep, visitBy_of_link hlink]
    rw [kopenRecur_eq root hpasses, search_of_mem ht, hnil, lookup, hf, hvisit]
    rfl

end Search

/-! ## A link to a directory -/

/-- `/a` with the file `/a/b`, and the link `/l` to it. -/
def middleNodes : Nat → FsNode Listing
  | 1 => { flags := 0o4, refcount := 0,
           data := { entries := [(nameA, 2), (nameL, 4)], target := [] } }
  | 2 => { flags := 0o4, refcount := 0, data := { entries := [(nameB, 3)], target := [] } }
  | 4 => { flags := 0o12, refcount := 0, data := { entries := [], target := nameA } }
  | _ => { flags := 0o10, refcount := 0, data := { entries := [], target := [] } }

def middleKernel : Kernel Listing Unit :=
  { nodes := middleNodes, fs := (), errno := 0, freed := [] }

/-- `kopen` from the root. -/
def middleOpen (cs : List Str) (flags : Nat) : Option (Option Nat × Kernel Listing Unit) :=
  kopenRecur listed rootTree (· + 1) 9 middleKernel (some (pathOf cs)) flags 0 [pathSeparator]

/-- The turns of `/l` with `O_NOFOLLOW` and `O_PATH`. -/
def keptTurns : List (Turn Listing Unit) :=
  searchTurns listed rootTree 8 middleKernel (pathOf [nameL]) 0o10003 0 [pathSeparator]

theorem nofollow_iff_kept :
    (0o10003 &&& oNofollow ≠ 0 ∧ ∀ t ∈ keptTurns, t.IsLink →
        t.rest.length ≠ 1 ∧ (t.rest = [] → 0o10003 &&& oAccmode = oPath))
      ∧ middleOpen [nameL] 0o10003 = searchBy listed rootTree (nofollowAct 0o10003) 8 middleKernel
          (pathOf [nameL]) 0o10003 [pathSeparator]
      ∧ ∀ t ∈ keptTurns, t.rest = [] → t.IsLink →
        middleOpen [nameL] 0o10003 = some (some t.node, fsOpen listed t.kernel t.node 0o10003) := by
  have hturns : ∃ t t' : Turn Listing Unit, keptTurns = [t, t'] ∧ ¬ t.IsLink ∧ t'.rest = [] :=
    ⟨_, _, rfl, by unfold Turn.IsLink; decide, rfl⟩
  have hmeant : ∀ t ∈ keptTurns, t.IsLink →
      t.rest.length ≠ 1 ∧ (t.rest = [] → 0o10003 &&& oAccmode = oPath) := by
    obtain ⟨t, t', hturns, hdir, hlast⟩ := hturns
    rw [hturns]
    intro s hs hlink
    rcases List.mem_cons.mp hs with rfl | hs
    · exact absurd hlink hdir
    · obtain rfl := List.mem_singleton.mp hs
      rw [hlast]
      exact ⟨by decide, fun _ => rfl⟩
  have hflags : 0o10003 &&& oNofollow ≠ 0 := by decide
  obtain ⟨-, -, hkept⟩ := nofollow_iff (D := listed) rootTree (fun d => Nat.le_refl (d + 1)) 8
    middleKernel (pathOf [nameL]) [pathSeparator] hflags
  exact ⟨⟨hflags, hmeant⟩, (hkept hmeant).1, (hkept hmeant).2.2⟩

/-- With `O_NOFOLLOW`, the link `/l` in front of `/l/b` is refused; as the last
component it is the result with `O_WRONLY`, and is followed with `O_RDONLY`. -/
theorem nofollow_misses :
    (middleOpen [nameL, nameB] oNofollow).map (fun r => (r.1, r.2.errno)) = some (none, ELOOP)
      ∧ (middleOpen [nameL, nameB] 0).map (fun r => (r.1, r.2.errno)) = some (some 3, 0)
      ∧ (middleOpen [nameL] (oNofollow ||| 0o1)).map (fun r => (r.1, r.2.errno)) = some (some 4, 0)
      ∧ (middleOpen [nameL] oNofollow).map (fun r => (r.1, r.2.errno)) = some (some 2, 0)
      ∧ linkAct oNofollow 1 2 = .refuse ∧ nofollowAct oNofollow 1 2 = .follow
      ∧ linkAct (oNofollow ||| 0o1) 1 1 = .keep ∧ nofollowAct (oNofollow ||| 0o1) 1 1 = .refuse
      ∧ linkAct oNofollow 1 1 = .follow ∧ nofollowAct oNofollow 1 1 = .refuse := by
  refine ⟨by decide +kernel, by decide +kernel, by decide +kernel, by decide +kernel, ?_⟩
  decide

end Kopen

end Shitos
