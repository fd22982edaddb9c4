import Shitos.Components
import Shitos.Mem

/-!
# Paths

`canonicalize_path` cuts the working directory and the path into tokens with
`strtok_r`, keeps the components on a list, and joins the list into a buffer of
the size it has computed before. What it returns is the path that the stack of
components spells (`canonicalizePath_eq`), so its algebra is that of the stack:
it composes (`canonicalize_paths`), and `get_canon_parent_basename` takes the
last component off (`parentBasename_splits`).

The components of the working directory are pushed as they are. Where one of
them is `.` or `..`, the result of a relative path keeps it, and is no fixed
point.
-/

namespace Shitos

namespace Path

open Components

/-! ## Strings -/

/-- A byte of a string: any but the terminator. -/
abbrev Ch := {c : UInt8 // c ≠ 0}

/-- A C string, without its terminator. -/
abbrev Str := List Ch

/-- `PATH_SEPARATOR`. -/
def pathSeparator : Ch := ⟨47, by decide⟩

/-- `PATH_CURRENT`. -/
def pathCurrent : Str := [⟨46, by decide⟩]

/-- `PATH_GO_UP`. -/
def pathGoUp : Str := [⟨46, by decide⟩, ⟨46, by decide⟩]

/-- A string in memory; behind it are zeros. -/
def bytes (s : Str) : Mem := fun i => (s[i]?.map Subtype.val).getD 0

/-- The string at `p`, read in a buffer that ends `n` bytes further. -/
def readStr (m : Mem) (p : Nat) : Nat → Str
  | 0 => []
  | n + 1 => if h : m p ≠ 0 then ⟨m p, h⟩ :: readStr m (p + 1) n else []

/-! ## `canonicalize_path` -/

/-- `strtok_r(s, PATH_SEPARATOR_STR, &p)`: the token, and the new `p`. -/
def strtokR (s p : Option Str) : Option Str × Option Str :=
  match s.or p with
  | none => (none, none)
  | some s =>
      let s := s.dropWhile (· = pathSeparator)
      if s = [] then (none, none)
      else
        let rest := s.dropWhile (· ≠ pathSeparator)
        (some (s.takeWhile (· ≠ pathSeparator)), if rest = [] then none else some rest.tail)

/-- A loop over the tokens of a string, for at most `n` turns. -/
def forTokens {σ : Type*} (body : σ → Str → σ) : Nat → σ → Option Str → Option Str → Option σ
  | 0, _, _, _ => none
  | n + 1, acc, s, save =>
      match strtokR s save with
      | (none, _) => some acc
      | (some pch, save) => forTokens body n (body acc pch) none save

/-- One component of the path. -/
def pushComponent (out : List Str) (pch : Str) : List Str :=
  if pch = pathCurrent then out
  else if pch = pathGoUp then out.dropLast
  else out ++ [pch]

/-- The loop that joins the list, with `head` as an offset into `outstr`. -/
def joinLoop : List Str → Mem → Nat → Mem × Nat
  | [], outstr, head => (outstr, head)
  | value :: out, outstr, head =>
      let outstr := wr8 outstr head pathSeparator.val.toNat
      let outstr := copy outstr (head + 1) (bytes value) 0 (value.length + 1)
      joinLoop out outstr (head + 1 + value.length)

/-- `path[0] != '\0' && path[0] != PATH_SEPARATOR`. -/
def Relative (path : Str) : Prop := path ≠ [] ∧ path.head? ≠ some pathSeparator

instance (path : Str) : Decidable (Relative path) := inferInstanceAs (Decidable (_ ∧ _))

/-- The components of `cwd`, where `path` is relative. -/
def pushCwd (cwd path : Str) : Option (List Str) :=
  if Relative path then
    forTokens (fun out pch => out ++ [pch]) (cwd.length + 1) [] (some cwd) none
  else some []

/-- The end of `canonicalize_path`: the path that the list is joined to, and its
length. -/
def joinPath (outstr : Mem) (out : List Str) : Str × Nat :=
  if out = [] then ([pathSeparator], 1)
  else
    let sz := (out.map fun value => value.length + 1).sum
    (readStr (joinLoop out outstr 0).1 0 (sz + 1), sz)

/-- `canonicalize_path`: the path and its length; `outstr` is what the buffer
holds before, and `none` a loop over more tokens than the string has bytes. -/
def canonicalizePath (outstr : Mem) (cwd path : Str) : Option (Str × Nat) := do
  let out ← pushCwd cwd path
  let out ← forTokens pushComponent (path.length + 1) out (some path) none
  some (joinPath outstr out)

/-! ## The stack that it computes -/

/-- The path that a stack of components spells. -/
def pathOf (cs : List Str) : Str := if cs = [] then [pathSeparator] else render pathSeparator cs

/-- The components that `path` leads to from `cwd`. -/
def resolve (cwd path : Str) : List Str :=
  settle pathCurrent pathGoUp (if Relative path then components pathSeparator cwd else [])
    (components pathSeparator path)

section Tokens

variable {σ : Type*} {s p : Option Str}

theorem strtokR_none (h : s.or p = none) : strtokR s p = (none, none) := by
  rw [strtokR, h]

theorem strtokR_some {t : Str} (h : s.or p = some t) {u : Str}
    (hu : t.dropWhile (· = pathSeparator) = u) :
    strtokR s p = if u = [] then (none, none) else
      (some (u.takeWhile (· ≠ pathSeparator)),
        if u.dropWhile (· ≠ pathSeparator) = [] then none
        else some (u.dropWhile (· ≠ pathSeparator)).tail) := by
  subst hu
  rw [strtokR, h]

/-- The tokens are the components of what is left of the string. -/
theorem strtokR_spec (s p : Option Str) :
    (strtokR s p = (none, none) ∧ components pathSeparator ((s.or p).getD []) = [])
      ∨ ∃ pch save, strtokR s p = (some pch, save)
        ∧ components pathSeparator ((s.or p).getD [])
          = pch :: components pathSeparator (save.getD [])
        ∧ (save.getD []).length < ((s.or p).getD []).length := by
  cases hs : s.or p with
  | none => exact Or.inl ⟨strtokR_none hs, components_nil⟩
  | some t =>
      obtain ⟨u, hu⟩ : ∃ u, t.dropWhile (· = pathSeparator) = u := ⟨_, rfl⟩
      have hle : u.length ≤ t.length := hu ▸ (List.dropWhile_sublist _).length_le
      have hhead := List.head?_dropWhile_not (· = pathSeparator) t
      rw [hu] at hhead
      rw [strtokR_some hs hu, Option.getD_some, ← components_dropWhile t, hu]
      by_cases hne : u = []
      · rw [if_pos hne, hne]
        exact Or.inl ⟨rfl, components_nil⟩
      have hhead' : u.head? ≠ some pathSeparator := fun heq => by
        rw [heq] at hhead
        simp at hhead
      have hrest := (List.dropWhile_sublist (· ≠ pathSeparator) (l := u)).length_le
      have hpos : 0 < u.length := List.length_pos_iff.mpr hne
      rw [if_neg hne]
      refine Or.inr ⟨_, _, rfl, ?_, ?_⟩
      · rw [components_cons hne hhead']
        split
        · rename_i hnil
          rw [hnil]
          rfl
        · rfl
      · split
        · exact Nat.lt_of_lt_of_le hpos hle
        · rw [Option.getD_some, List.length_tail]
          omega

theorem forTokens_eq (body : σ → Str → σ) : ∀ (n : Nat) (acc : σ) (s p : Option Str),
    ((s.or p).getD []).length < n → forTokens body n acc s p
      = some ((components pathSeparator ((s.or p).getD [])).foldl body acc) := by
  intro n
  induction n with
  | zero => intro acc s p h; exact absurd h (Nat.not_lt_zero _)
  | succ n ih =>
      intro acc s p h
      rw [forTokens]
      rcases strtokR_spec s p with ⟨htok, hcs⟩ | ⟨pch, save, htok, hcs, hlt⟩
      · rw [htok, hcs]
        rfl
      · rw [htok, hcs, List.foldl_cons]
        exact ih _ none save (Nat.lt_of_lt_of_le hlt (Nat.le_of_lt_succ h))

/-- A loop over the tokens of a string takes no more turns than it has bytes. -/
theorem forTokens_str (body : σ → Str → σ) (acc : σ) (s : Str) :
    forTokens body (s.length + 1) acc (some s) none
      = some ((components pathSeparator s).foldl body acc) :=
  forTokens_eq body _ acc (some s) none (Nat.lt_succ_self _)

theorem foldl_push (cs out : List Str) : cs.foldl (fun out pch => out ++ [pch]) out = out ++ cs := by
  induction cs generalizing out with
  | nil => exact (List.append_nil out).symm
  | cons c cs ih => rw [List.foldl_cons, ih, List.append_assoc, List.singleton_append]

end Tokens

/-! ## The buffer that is joined -/

section Join

variable {a b : Str} {i : Nat}

theorem bytes_append_left (h : i < a.length) : bytes (a ++ b) i = bytes a i := by
  rw [bytes, bytes, List.getElem?_append_left h]

theorem bytes_append_right (i : Nat) : bytes (a ++ b) (a.length + i) = bytes b i := by
  rw [bytes, bytes, List.getElem?_append_right (Nat.le_add_right _ _), Nat.add_sub_cancel_left]

theorem bytes_cons_succ (c : Ch) (i : Nat) : bytes (c :: a) (i + 1) = bytes a i := by
  rw [bytes, bytes, List.getElem?_cons_succ]

theorem bytes_length (a : Str) : bytes a a.length = 0 := by
  rw [bytes, List.getElem?_eq_none (Nat.le_refl _)]
  rfl

/-- What a joined buffer holds: the bytes in front of `head` are kept, then comes
the path, and behind the last component its terminator. -/
theorem joinLoop_spec (out : List Str) (m : Mem) (head : Nat) :
    (∀ i < head, (joinLoop out m head).1 i = m i)
      ∧ (∀ k < (render pathSeparator out).length,
        (joinLoop out m head).1 (head + k) = bytes (render pathSeparator out) k)
      ∧ (out ≠ [] → (joinLoop out m head).1 (head + (render pathSeparator out).length) = 0) := by
  induction out generalizing m head with
  | nil => exact ⟨fun i _ => rfl, fun k hk => absurd hk (Nat.not_lt_zero k), fun h => absurd rfl h⟩
  | cons value out ih =>
      obtain ⟨hlow, hpath, hend⟩ := ih (copy (wr8 m head pathSeparator.val.toNat) (head + 1)
        (bytes value) 0 (value.length + 1)) (head + 1 + value.length)
      have hrender : render pathSeparator (value :: out)
          = (pathSeparator :: value) ++ render pathSeparator out := rfl
      have hlen : (pathSeparator :: value).length = value.length + 1 := rfl
      have hname : ∀ k ≤ value.length, (joinLoop (value :: out) m head).1 (head + k)
          = bytes (pathSeparator :: value) k := by
        intro k hk
        show (joinLoop out _ _).1 (head + k) = _
        rw [hlow _ (by omega)]
        cases k with
        | zero =>
            rw [copy_apply_of_not (by omega), Nat.add_zero, wr8, if_pos rfl, UInt8.ofNat_toNat]
            rfl
        | succ k =>
            rw [copy_apply (by omega) (by omega), bytes_cons_succ]
            congr 1
            omega
      refine ⟨fun i hi => ?_, fun k hk => ?_, fun _ => ?_⟩
      · show (joinLoop out _ _).1 i = _
        rw [hlow i (by omega), copy_apply_of_not (by omega), wr8_apply_of_ne (by omega)]
      · rw [hrender] at hk ⊢
        by_cases hin : k < value.length + 1
        · rw [hname k (by omega), bytes_append_left (by omega)]
        · obtain ⟨j, rfl⟩ := Nat.exists_eq_add_of_le (Nat.le_of_not_lt hin)
          rw [List.length_append, hlen] at hk
          rw [← hlen, bytes_append_right, hlen, ← hpath j (by omega)]
          exact congrArg (joinLoop out _ _).1 (by omega)
      · rw [hrender, List.length_append, hlen]
        by_cases hout : out = []
        · subst hout
          show copy _ _ _ _ _ _ = (0 : UInt8)
          rw [render, List.flatMap_nil, List.length_nil, copy_apply (by omega) (by omega),
            ← bytes_length value]
          congr 1
          omega
        · rw [← hend hout]
          exact congrArg (joinLoop out _ _).1 (by omega)

/-- Reading a string back. -/
theorem readStr_eq (m : Mem) (s : Str) (p n : Nat) (hn : s.length < n)
    (h : ∀ k < s.length, m (p + k) = bytes s k) (hend : m (p + s.length) = 0) :
    readStr m p n = s := by
  induction s generalizing p n with
  | nil =>
      obtain ⟨n, rfl⟩ := Nat.exists_eq_succ_of_ne_zero (Nat.ne_of_gt hn)
      rw [readStr, dif_neg (fun hne => hne hend)]
  | cons c s ih =>
      obtain ⟨n, rfl⟩ := Nat.exists_eq_succ_of_ne_zero (Nat.ne_of_gt (Nat.zero_lt_of_lt hn))
      have hc : m p = c.val := h 0 (Nat.succ_pos _)
      have hrest : readStr m (p + 1) n = s := by
        refine ih (p + 1) n (Nat.lt_of_succ_lt_succ hn) (fun k hk => ?_) ?_
        · rw [Nat.add_assoc, Nat.add_comm 1 k, h (k + 1) (Nat.succ_lt_succ hk), bytes_cons_succ]
        · rw [Nat.add_assoc, Nat.add_comm 1 s.length]
          exact hend
      rw [readStr, dif_pos (by rw [hc]; exact c.property), hrest]
      congr 1
      exact Subtype.ext hc

end Join

/-! ## What it returns -/

section Canonical

variable {cwd path : Str}

theorem pushCwd_eq (cwd path : Str) :
    pushCwd cwd path = some (if Relative path then components pathSeparator cwd else []) := by
  rw [pushCwd]
  split
  · rw [forTokens_str, foldl_push, List.nil_append]
  · rfl

theorem joinPath_eq (outstr : Mem) (out : List Str) :
    joinPath outstr out = (pathOf out, (pathOf out).length) := by
  rw [joinPath, pathOf]
  by_cases hnil : out = []
  · rw [if_pos hnil, if_pos hnil]
    rfl
  · obtain ⟨-, hbytes, hend⟩ := joinLoop_spec out outstr 0
    have hread : readStr (joinLoop out outstr 0).1 0 ((render pathSeparator out).length + 1)
        = render pathSeparator out :=
      readStr_eq _ _ _ _ (Nat.lt_succ_self _) hbytes (hend hnil)
    rw [if_neg hnil, if_neg hnil]
    have hlen : (out.map fun value => value.length + 1).sum = (render pathSeparator out).length :=
      (length_render out).symm
    dsimp only
    rw [hlen, hread]

/-- `canonicalize_path` ends, and returns the path that the stack spells. -/
theorem canonicalizePath_eq (outstr : Mem) (cwd path : Str) :
    canonicalizePath outstr cwd path
      = some (pathOf (resolve cwd path), (pathOf (resolve cwd path)).length) := by
  rw [canonicalizePath, pushCwd_eq, Option.bind_eq_bind, Option.bind_some, forTokens_str,
    Option.bind_some, joinPath_eq]
  rfl

theorem resolve_component {c : Str} (h : c ∈ resolve cwd path) : Component pathSeparator c := by
  rcases settle_mem h with h | ⟨-, h⟩
  · split at h
    · exact component_of_mem h
    · exact absurd h List.not_mem_nil
  · exact component_of_mem h

/-- Only a relative path takes a component over from `cwd`. -/
theorem resolve_plain (hcwd : Relative path → ∀ c ∈ components pathSeparator cwd,
    Plain pathCurrent pathGoUp c) :
    ∀ c ∈ resolve cwd path, Plain pathCurrent pathGoUp c := by
  intro c h
  rcases settle_mem h with h | ⟨h, -⟩
  · split at h
    · rename_i hrel
      exact hcwd hrel c h
    · exact absurd h List.not_mem_nil
  · exact h

theorem not_relative_pathOf (cs : List Str) : ¬ Relative (pathOf cs) := by
  rintro ⟨-, h⟩
  refine h ?_
  cases cs with
  | nil => rfl
  | cons c cs => rfl

theorem components_pathOf {cs : List Str} (h : ∀ c ∈ cs, Component pathSeparator c) :
    components pathSeparator (pathOf cs) = cs := by
  rw [pathOf]
  split
  · rename_i hnil
    rw [hnil, components_sep_cons, components_nil]
  · exact components_render h

theorem pathOf_inj {cs ds : List Str} (hc : ∀ c ∈ cs, Component pathSeparator c)
    (hd : ∀ d ∈ ds, Component pathSeparator d) (h : pathOf cs = pathOf ds) : cs = ds := by
  rw [← components_pathOf hc, h, components_pathOf hd]

theorem resolve_of_absolute (h : ¬ Relative path) :
    resolve cwd path = settle pathCurrent pathGoUp [] (components pathSeparator path) := by
  rw [resolve, if_neg h]

theorem resolve_of_relative (h : Relative path) :
    resolve cwd path = settle pathCurrent pathGoUp (components pathSeparator cwd)
      (components pathSeparator path) := by
  rw [resolve, if_pos h]

/-- A path of components is resolved to them where none of them is special. -/
theorem resolve_pathOf {cs : List Str} (h : ∀ c ∈ cs, Component pathSeparator c) :
    resolve cwd (pathOf cs) = cs ↔ ∀ c ∈ cs, Plain pathCurrent pathGoUp c := by
  rw [resolve_of_absolute (not_relative_pathOf cs), components_pathOf h]
  constructor
  · intro heq c hc
    rw [← heq] at hc
    rcases settle_mem hc with hc | ⟨hc, -⟩
    · exact absurd hc List.not_mem_nil
    · exact hc
  · intro hplain
    rw [settle_plain hplain, List.nil_append]

/-- `a`, a slash, and `b`. -/
def under (a b : Str) : Str := a ++ pathSeparator :: b

theorem resolve_under (a : Str) {b : Str} (hb : Relative b) :
    resolve (pathOf (resolve cwd a)) b = resolve cwd (under a b) := by
  rw [resolve_of_relative hb, components_pathOf fun c hc => resolve_component hc]
  have hcs := components_append pathSeparator a b
  by_cases ha : Relative a
  · have hrel : Relative (under a b) := by
      obtain ⟨x, a, rfl⟩ := List.exists_cons_of_ne_nil ha.1
      exact ⟨List.cons_ne_nil _ _, ha.2⟩
    rw [resolve_of_relative hrel, under, hcs, settle_append, resolve_of_relative ha]
  · have habs : ¬ Relative (under a b) := by
      rintro ⟨-, h⟩
      cases a with
      | nil => exact h rfl
      | cons x a => exact ha ⟨List.cons_ne_nil _ _, h⟩
    rw [resolve_of_absolute habs, under, hcs, settle_append, resolve_of_absolute ha]

/-- A path is written as `/` alone, or as a slash and components with one slash
between two of them. -/
def WellFormedPath (p : Str) : Prop :=
  p = [pathSeparator] ∨ ∃ q, p = pathSeparator :: q ∧ (∀ c ∈ parts pathSeparator q, c ≠ [])
    ∧ p.getLast? ≠ some pathSeparator

theorem pathOf_wellFormed {cs : List Str} (h : ∀ c ∈ cs, Component pathSeparator c) :
    WellFormedPath (pathOf cs) := by
  cases cs with
  | nil => exact Or.inl rfl
  | cons c cs =>
      refine Or.inr ⟨c ++ render pathSeparator cs, rfl, ?_, ?_⟩
      · rw [parts_render h]
        exact fun d hd => (h d hd).ne_nil
      · rw [pathOf, if_neg (List.cons_ne_nil _ _)]
        exact getLast?_render h

/-- The path is what canonicalising it returns, whatever the working directory. -/
def FixedPoint (p : Str) : Prop :=
  ∀ outstr cwd, canonicalizePath outstr cwd p = some (p, p.length)

theorem fixedPoint_pathOf {cs : List Str} (h : ∀ c ∈ cs, Component pathSeparator c) :
    FixedPoint (pathOf cs) ↔ ∀ c ∈ cs, Plain pathCurrent pathGoUp c := by
  constructor
  · intro hfix
    have heq := hfix (fun _ => 0) []
    rw [canonicalizePath_eq] at heq
    exact (resolve_pathOf h).mp
      (pathOf_inj (fun c hc => resolve_component hc) h (Prod.mk.inj (Option.some.inj heq)).1)
  · intro hplain outstr cwd
    rw [canonicalizePath_eq, (resolve_pathOf h).mpr hplain]

end Canonical

/-! ## `sys_chdir` -/

section Chdir

variable {ν : Type}

def ENOENT : Int := 2
def ENOTDIR : Int := 20
def EINVAL : Int := 22

/-- The working directory of a process. -/
structure Wd (ν : Type) where
  wdPath : Str
  wdNode : ν

/-- What one call meets: the string that it passes, or `none` where
`PTR_VALIDATE` refuses the pointer, what `kopen` finds under a path at that
time, whether it is a directory, and the memory that `kmalloc` hands out. -/
structure Call (ν : Type) where
  newpath : Option Str
  kopen : Str → Option ν
  isDir : ν → Bool
  outstr : Mem

/-- `sys_chdir`. -/
def sysChdir (p : Wd ν) (call : Call ν) : Option (Wd ν × Int) :=
  match call.newpath with
  | none => some (p, -EINVAL)
  | some newpath => do
      let (path, _) ← canonicalizePath call.outstr p.wdPath newpath
      match call.kopen path with
      | none => some (p, -ENOENT)
      | some node =>
          if !call.isDir node then some (p, -ENOTDIR)
          else some ({ wdPath := path, wdNode := node }, 0)

/-- The path that `path` and a new one make together. -/
def combine (path newpath : Str) : Str :=
  if Relative newpath then under path newpath else newpath

/-- A run of calls, with the path that those make together that succeed. -/
def chdirs : List (Call ν) → Wd ν → Str → Option (Wd ν × Str)
  | [], p, path => some (p, path)
  | call :: calls, p, path => do
      let (p, ret) ← sysChdir p call
      chdirs calls p (if ret = 0 then combine path (call.newpath.getD []) else path)

/-- A canonical path, as every working directory is. -/
def Canonical (p : Str) : Prop :=
  ∃ cs, (∀ c ∈ cs, Component pathSeparator c) ∧ (∀ c ∈ cs, Plain pathCurrent pathGoUp c)
    ∧ p = pathOf cs

theorem Canonical.plain {p : Str} (h : Canonical p) :
    ∀ c ∈ components pathSeparator p, Plain pathCurrent pathGoUp c := by
  obtain ⟨cs, hcs, hplain, rfl⟩ := h
  rw [components_pathOf hcs]
  exact hplain

theorem Canonical.fixedPoint {p : Str} (h : Canonical p) : FixedPoint p := by
  obtain ⟨cs, hcs, hplain, rfl⟩ := h
  exact (fixedPoint_pathOf hcs).mpr hplain

theorem canonical_root : Canonical [pathSeparator] :=
  ⟨[], fun _ h => absurd h List.not_mem_nil, fun _ h => absurd h List.not_mem_nil, rfl⟩

theorem canonical_resolve {cwd : Str} (h : Canonical cwd) (path : Str) :
    Canonical (pathOf (resolve cwd path)) :=
  ⟨_, fun _ hc => resolve_component hc, resolve_plain fun _ => h.plain, rfl⟩

theorem resolve_combine (cwd path newpath : Str) :
    resolve (pathOf (resolve cwd path)) newpath = resolve cwd (combine path newpath) := by
  rw [combine]
  split
  · rename_i hrel
    exact resolve_under path hrel
  · rename_i habs
    rw [resolve_of_absolute habs, resolve_of_absolute habs]

/-- The path `.` leads to the working directory itself. -/
theorem resolve_current {cwd : Str} (h : Canonical cwd) :
    pathOf (resolve cwd pathCurrent) = cwd := by
  obtain ⟨cs, hcs, hplain, rfl⟩ := h
  have hrel : Relative pathCurrent := by decide
  have hone : components pathSeparator pathCurrent = [pathCurrent] :=
    Component.components ⟨by decide, by decide⟩
  rw [resolve_of_relative hrel, components_pathOf hcs, hone]
  rfl

theorem sysChdir_cases (p : Wd ν) (call : Call ν) :
    ∃ q ret, sysChdir p call = some (q, ret)
      ∧ (ret ≠ 0 ∧ q = p
        ∨ ret = 0 ∧ q.wdPath = pathOf (resolve p.wdPath (call.newpath.getD []))) := by
  rw [sysChdir]
  cases call.newpath with
  | none => exact ⟨p, -EINVAL, rfl, Or.inl ⟨by decide, rfl⟩⟩
  | some newpath =>
      dsimp only
      rw [canonicalizePath_eq, Option.bind_eq_bind, Option.bind_some]
      dsimp only
      cases call.kopen (pathOf (resolve p.wdPath newpath)) with
      | none => exact ⟨p, -ENOENT, rfl, Or.inl ⟨by decide, rfl⟩⟩
      | some node =>
          dsimp only
          split
          · exact ⟨p, -ENOTDIR, rfl, Or.inl ⟨by decide, rfl⟩⟩
          · exact ⟨_, 0, rfl, Or.inr ⟨rfl, rfl⟩⟩

/-- A run from a canonical working directory ends in the one that the combined
path leads to. -/
theorem chdirs_spec (calls : List (Call ν)) {cwd : Str} (hcwd : Canonical cwd) (p : Wd ν)
    (path : Str) (hp : p.wdPath = pathOf (resolve cwd path)) :
    ∃ q path', chdirs calls p path = some (q, path') ∧ Canonical q.wdPath
      ∧ q.wdPath = pathOf (resolve cwd path') := by
  induction calls generalizing p path with
  | nil => exact ⟨p, path, rfl, hp ▸ canonical_resolve hcwd path, hp⟩
  | cons call calls ih =>
      obtain ⟨q, ret, hcall, hret⟩ := sysChdir_cases p call
      rw [chdirs, hcall, Option.bind_eq_bind, Option.bind_some]
      dsimp only
      rcases hret with ⟨hne, rfl⟩ | ⟨rfl, hq⟩
      · rw [if_neg hne]
        exact ih q path hp
      · rw [if_pos rfl]
        refine ih q _ ?_
        rw [hq, hp, resolve_combine]

end Chdir

/-! ## Canonicalisation -/

/-- **Canonicalisation** is the stack normaliser: what `canonicalize_path` returns
is the path that the stack spells, and its length. The path is well formed; it is
a fixed point when no component of it is special, which those of the working
directory must see to. Canonicalisation composes, and calls of `sys_chdir` from a
canonical directory lead to canonical directories, each the one that the paths of
the calls make together. -/
theorem canonicalize_paths (outstr : Mem) (cwd path : Str) :
    canonicalizePath outstr cwd path
        = some (pathOf (resolve cwd path), (pathOf (resolve cwd path)).length)
      ∧ WellFormedPath (pathOf (resolve cwd path))
      ∧ (FixedPoint (pathOf (resolve cwd path))
        ↔ ∀ c ∈ resolve cwd path, Plain pathCurrent pathGoUp c)
      ∧ ((Relative path → ∀ c ∈ components pathSeparator cwd, Plain pathCurrent pathGoUp c) →
        FixedPoint (pathOf (resolve cwd path)))
      ∧ (∀ b, Relative b → canonicalizePath outstr (pathOf (resolve cwd path)) b
        = canonicalizePath outstr cwd (under path b))
      ∧ ∀ (ν : Type) (calls : List (Call ν)) (p : Wd ν), Canonical p.wdPath →
        ∃ q combined, chdirs calls p pathCurrent = some (q, combined) ∧ Canonical q.wdPath
          ∧ FixedPoint q.wdPath
          ∧ canonicalizePath outstr p.wdPath combined = some (q.wdPath, q.wdPath.length) := by
  have hcs : ∀ c ∈ resolve cwd path, Component pathSeparator c := fun c hc => resolve_component hc
  have hfix := fixedPoint_pathOf hcs
  refine ⟨canonicalizePath_eq outstr cwd path, pathOf_wellFormed fun c hc => resolve_component hc,
    hfix, fun hcwd => hfix.mpr (resolve_plain hcwd), fun b hb => ?_, fun ν calls p hp => ?_⟩
  · rw [canonicalizePath_eq, canonicalizePath_eq, resolve_under path hb]
  · obtain ⟨q, combined, hrun, hq, heq⟩ :=
      chdirs_spec calls hp p pathCurrent (resolve_current hp).symm
    refine ⟨q, combined, hrun, hq, hq.fixedPoint, ?_⟩
    rw [canonicalizePath_eq, heq]

/-- From the directory `..`, the path `a` leads to `/../a`, and that to `/a`. -/
theorem canonicalize_keeps_go_up : ∃ cwd path p q : Str,
    canonicalizePath (fun _ => 0) cwd path = some (p, 5)
      ∧ canonicalizePath (fun _ => 0) cwd p = some (q, 2) ∧ p ≠ q :=
  ⟨pathGoUp, [⟨97, by decide⟩], under (pathSeparator :: pathGoUp) [⟨97, by decide⟩],
    [pathSeparator, ⟨97, by decide⟩], by decide +kernel, by decide +kernel, by decide⟩

/-! ## `get_canon_parent_basename` -/

/-- `for(b = *canon + *pathsz-1; *b != PATH_SEPARATOR; b--);`, from `b` as an
offset into `canon`; `none` is a read in front of the string. -/
def scanBack (canon : Str) : Nat → Option Nat
  | 0 => if canon[0]? = some pathSeparator then some 0 else none
  | b + 1 => if canon[b + 1]? = some pathSeparator then some (b + 1) else scanBack canon b

/-- `get_canon_parent_basename`: `canon`, `pathsz`, `parent` and `basename`. -/
def getCanonParentBasename (outstr : Mem) (cwd path : Str) :
    Option (Str × Nat × Option Str × Option Str) := do
  let (canon, pathsz) ← canonicalizePath outstr cwd path
  if pathsz < 2 then some (canon, pathsz, none, none)
  else do
    let b ← scanBack canon (pathsz - 1)
    let parent := if b = 0 then [pathSeparator] else canon.take b
    some (canon, pathsz, some parent, some (canon.drop (b + 1)))

section Parent

variable {cs : List Str} {c : Str}

/-- The scan stops at the last slash. -/
theorem scanBack_eq {a c : Str} (hc : pathSeparator ∉ c) (n : Nat) (hn : n ≤ c.length) :
    scanBack (a ++ pathSeparator :: c) (a.length + n) = some a.length := by
  induction n with
  | zero =>
      have hat : (a ++ pathSeparator :: c)[a.length]? = some pathSeparator := by
        rw [List.getElem?_append_right (Nat.le_refl _), Nat.sub_self]
        rfl
      rw [Nat.add_zero]
      cases hl : a.length with
      | zero => rw [scanBack, ← hl, if_pos hat]
      | succ l => rw [scanBack, ← hl, if_pos hat]
  | succ n ih =>
      have hat : (a ++ pathSeparator :: c)[a.length + n + 1]? ≠ some pathSeparator := by
        rw [Nat.add_assoc, List.getElem?_append_right (Nat.le_add_right _ _),
          Nat.add_sub_cancel_left, List.getElem?_cons_succ]
        exact fun heq => hc (List.mem_of_getElem? heq)
      rw [← Nat.add_assoc, scanBack, if_neg hat]
      exact ih (Nat.le_of_succ_le hn)

theorem pathOf_concat (cs : List Str) (c : Str) :
    pathOf (cs ++ [c]) = render pathSeparator cs ++ pathSeparator :: c := by
  rw [pathOf, if_neg (by simp), render, List.flatMap_append, List.flatMap_singleton, render]

/-- The pieces of a path with the last component `c`. -/
theorem parentBasename_eq (outstr : Mem) {cwd path : Str} (hc : Component pathSeparator c)
    (h : resolve cwd path = cs ++ [c]) :
    getCanonParentBasename outstr cwd path = some (pathOf (cs ++ [c]),
      (pathOf (cs ++ [c])).length, some (pathOf cs), some c) := by
  have hpos : 0 < c.length := List.length_pos_iff.mpr hc.ne_nil
  have hlen : (pathOf (cs ++ [c])).length = (render pathSeparator cs).length + c.length + 1 := by
    rw [pathOf_concat, List.length_append, List.length_cons, Nat.add_assoc]
  have hscan : scanBack (pathOf (cs ++ [c])) ((pathOf (cs ++ [c])).length - 1)
      = some (render pathSeparator cs).length := by
    rw [hlen, Nat.add_sub_cancel, pathOf_concat]
    exact scanBack_eq hc.noSep _ (Nat.le_refl _)
  rw [getCanonParentBasename, canonicalizePath_eq, h, Option.bind_eq_bind, Option.bind_some]
  dsimp only
  have hdrop : (pathOf (cs ++ [c])).drop ((render pathSeparator cs).length + 1) = c := by
    rw [pathOf_concat, ← List.drop_drop, List.drop_left]
    rfl
  have hparent : (if (render pathSeparator cs).length = 0 then [pathSeparator]
      else (pathOf (cs ++ [c])).take (render pathSeparator cs).length) = pathOf cs := by
    cases cs with
    | nil => rfl
    | cons d cs =>
        rw [pathOf_concat, List.take_left, if_neg (fun h => nomatch h), pathOf,
          if_neg (List.cons_ne_nil _ _)]
  rw [if_neg (by omega), hscan, Option.bind_eq_bind, Option.bind_some, hparent, hdrop]

/-- A path is what its parent and its last component make together. -/
theorem pathOf_child (h : ∀ d ∈ cs, Component pathSeparator d) (c : Str) :
    pathOf (cs ++ [c]) = if pathOf cs = [pathSeparator] then pathSeparator :: c
      else under (pathOf cs) c := by
  rw [pathOf_concat]
  split
  · rename_i hroot
    rw [pathOf_inj h (fun d hd => absurd hd List.not_mem_nil) (hroot.trans (if_pos rfl).symm)]
    rfl
  · rename_i hroot
    have hne : cs ≠ [] := fun hnil => hroot (if_pos hnil)
    rw [under, pathOf, if_neg hne]

theorem relative_component (h : Component pathSeparator c) : Relative c := by
  refine ⟨h.ne_nil, fun hhead => h.noSep (List.mem_of_mem_head? hhead)⟩

/-- The last component leads from the parent back to the path, unless it is
special. -/
theorem canonicalize_basename (outstr : Mem) (h : ∀ d ∈ cs, Component pathSeparator d)
    (hc : Component pathSeparator c) :
    canonicalizePath outstr (pathOf cs) c
        = some (pathOf (cs ++ [c]), (pathOf (cs ++ [c])).length)
      ↔ Plain pathCurrent pathGoUp c := by
  have hres : resolve (pathOf cs) c = settleStep pathCurrent pathGoUp cs c := by
    rw [resolve_of_relative (relative_component hc), components_pathOf h, hc.components]
    rfl
  have hboth : ∀ d ∈ cs ++ [c], Component pathSeparator d := fun d hd => by
    rcases List.mem_append.mp hd with hd | hd
    · exact h d hd
    · exact List.mem_singleton.mp hd ▸ hc
  have hstep : settleStep pathCurrent pathGoUp cs c = cs ++ [c]
      ↔ Plain pathCurrent pathGoUp c := settleStep_eq_push cs c
  rw [canonicalizePath_eq, hres, ← hstep]
  constructor
  · intro heq
    refine pathOf_inj (fun d hd => ?_) hboth (Prod.mk.inj (Option.some.inj heq)).1
    rw [← hres] at hd
    exact resolve_component hd
  · intro heq
    rw [heq]

theorem parentBasename_root (outstr : Mem) {cwd path : Str} (h : resolve cwd path = []) :
    getCanonParentBasename outstr cwd path = some ([pathSeparator], 1, none, none) := by
  rw [getCanonParentBasename, canonicalizePath_eq, h]
  rfl

end Parent

/-- **The pieces of a path.** Of a path other than the root, the base name is one
component, and it is the parent's child. The parent is canonical where no special
component has come over from the working directory, and so the base name leads
from it back to the path. -/
theorem parentBasename_splits (outstr : Mem) (cwd path : Str) :
    ∃ c, canonicalizePath outstr cwd path = some (c, c.length)
      ∧ (c = [pathSeparator] →
        getCanonParentBasename outstr cwd path = some (c, c.length, none, none))
      ∧ (c ≠ [pathSeparator] → ∃ parent basename,
        getCanonParentBasename outstr cwd path = some (c, c.length, some parent, some basename)
          ∧ basename ≠ [] ∧ pathSeparator ∉ basename
          ∧ c = (if parent = [pathSeparator] then pathSeparator :: basename
            else under parent basename)
          ∧ (FixedPoint parent ↔ ∀ d ∈ components pathSeparator parent, Plain pathCurrent pathGoUp d)
          ∧ (canonicalizePath outstr parent basename = some (c, c.length)
            ↔ Plain pathCurrent pathGoUp basename)
          ∧ ((Relative path → ∀ d ∈ components pathSeparator cwd, Plain pathCurrent pathGoUp d) →
            FixedPoint parent ∧ canonicalizePath outstr parent basename = some (c, c.length))) := by
  refine ⟨_, canonicalizePath_eq outstr cwd path, fun hroot => ?_, fun hroot => ?_⟩
  · have hnil : resolve cwd path = [] := pathOf_inj (fun d hd => resolve_component hd)
      (fun d hd => absurd hd List.not_mem_nil) hroot
    rw [parentBasename_root outstr hnil, hnil]
    rfl
  · have hmem := fun d (hd : d ∈ resolve cwd path) => resolve_component hd
    have hplain := @resolve_plain cwd path
    rcases List.eq_nil_or_concat (resolve cwd path) with hnil | ⟨cs, c, hcs⟩
    · exact absurd (by rw [hnil]; rfl) hroot
    rw [List.concat_eq_append] at hcs
    rw [hcs] at hmem hplain ⊢
    have hc : Component pathSeparator c := hmem c (by simp)
    have hparent : ∀ d ∈ cs, Component pathSeparator d :=
      fun d hd => hmem d (List.mem_append_left _ hd)
    have hfix := fixedPoint_pathOf hparent
    have hback := canonicalize_basename outstr hparent hc
    refine ⟨pathOf cs, c, parentBasename_eq outstr hc hcs, hc.ne_nil, hc.noSep,
      pathOf_child hparent c, ?_, hback, fun hcwd => ⟨hfix.mpr fun d hd => ?_, hback.mpr ?_⟩⟩
    · rw [components_pathOf hparent]
      exact hfix
    · exact hplain hcwd d (List.mem_append_left _ hd)
    · exact hplain hcwd c (by simp)

/-- From the directory `..`, the path `a` has the parent `/..`, which leads to `/`. -/
theorem parent_keeps_go_up : ∃ cwd path c parent basename : Str,
    getCanonParentBasename (fun _ => 0) cwd path = some (c, 5, some parent, some basename)
      ∧ canonicalizePath (fun _ => 0) cwd parent = some ([pathSeparator], 1)
      ∧ parent ≠ [pathSeparator] :=
  ⟨pathGoUp, [⟨97, by decide⟩], under (pathSeparator :: pathGoUp) [⟨97, by decide⟩],
    pathSeparator :: pathGoUp, [⟨97, by decide⟩], by decide +kernel, by decide +kernel, by decide⟩

end Path

end Shitos
