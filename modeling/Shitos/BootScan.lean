import Shitos.Ext2Dir

/-!
# The boot loader's search for the kernel

stage2 loads the root directory and walks its records until it meets one with
`rec_len` zero, comparing every name with `shitos.elf`. It has no test for
`inode`, so a record that `ext2fs_unlink` has emptied still counts: the search
agrees with `find_dirent` exactly when no emptied record with that name comes
before the record in use (`scan_agrees_iff`).
-/

namespace Shitos

namespace Ext2

/-- `"shitos.elf"`. -/
def shitosElf : List UInt8 := [115, 104, 105, 116, 111, 115, 46, 101, 108, 102]

/-- The scan of `partition_ext2_parse` over the directory at the start of
`m`, for at most `n` turns: the entry at `file_found`, or `some none` for
`PARSE_EXT2_NOFILE`. -/
def bootScan (m : Mem) : Nat → Nat → Option (Option Nat)
  | 0, _ => none
  | n + 1, p =>
      if deRecLen m p = 0 then some none
      else if Reads m shitosElf p then some (some p)
      else bootScan m n (p + deRecLen m p)

section Scan

variable {m : Mem} {blockSz iSize : Nat} {es : List Nat}

/-- The scan stops at the first record that reads as the name, in use or
not. -/
theorem bootScan_eq (hzero : deRecLen m iSize = 0) : ∀ (es : List Nat) (g n : Nat),
    Tiles id (deRecLen m) g es iSize → es.length < n →
      bootScan m n g = some (es.find? fun p => decide (Reads m shitosElf p)) := by
  intro es
  induction es with
  | nil =>
      intro g n htiles hn
      obtain ⟨n, rfl⟩ := Nat.exists_eq_succ_of_ne_zero (Nat.ne_of_gt hn)
      have hg : g = iSize := htiles
      rw [bootScan, hg, if_pos hzero, List.find?_nil]
  | cons p es ih =>
      intro g n htiles hn
      obtain ⟨n, rfl⟩ := Nat.exists_eq_succ_of_ne_zero (Nat.ne_of_gt (Nat.zero_lt_of_lt hn))
      obtain ⟨rfl, hrec, htiles⟩ := htiles
      rw [id_eq] at htiles ⊢
      rw [bootScan, if_neg (Nat.ne_of_gt hrec), List.find?_cons]
      by_cases hreads : Reads m shitosElf p
      · rw [if_pos hreads, decide_eq_true hreads]
      · rw [if_neg hreads, decide_eq_false hreads]
        exact ih _ n htiles (Nat.lt_of_succ_lt_succ hn)

/-- The condition: an emptied record that still reads as the name comes after
a record in use that does. -/
def NoStaleName (m : Mem) (es : List Nat) : Prop :=
  ∀ pre p post, es = pre ++ p :: post → deInode m p = 0 → Reads m shitosElf p →
    ∃ q ∈ pre, deInode m q ≠ 0 ∧ Reads m shitosElf q

/-- Both searches give the same inode number, or both give none. -/
def SameResult (m : Mem) (boot : Option (Option Nat)) (kernel : Option (Option Cursor)) : Prop :=
  ∀ i, (∃ p, boot = some (some p) ∧ deInode m p = i) ↔
    ∃ c, kernel = some (some c) ∧ deInode c.buf c.p = i

/-- What stops the scan is in use, if no stale name comes first. -/
theorem noStaleName_iff : NoStaleName m es ↔
    ∀ p, es.find? (fun p => decide (Reads m shitosElf p)) = some p → deInode m p ≠ 0 := by
  constructor
  · intro h p hp hdead
    obtain ⟨hreads, pre, post, hes, hfirst⟩ := List.find?_eq_some_iff_append.mp hp
    obtain ⟨q, hq, -, hq'⟩ := h pre p post hes hdead (of_decide_eq_true hreads)
    have hnot := hfirst q hq
    rw [decide_eq_true hq'] at hnot
    cases hnot
  · intro h pre p post hes hdead hreads
    cases hfind : es.find? (fun p => decide (Reads m shitosElf p)) with
    | none =>
        have hnot := List.find?_eq_none.mp hfind p (by
          rw [hes]
          exact List.mem_append_right _ List.mem_cons_self)
        exact absurd (decide_eq_true hreads) hnot
    | some q =>
        have hlive := h q hfind
        obtain ⟨hreads', pre', post', hes', hfirst⟩ := List.find?_eq_some_iff_append.mp hfind
        -- the first match is not behind `p`, and it is not `p`
        rw [hes] at hes'
        rcases List.append_eq_append_iff.mp hes' with ⟨as, rfl, htail⟩ | ⟨bs, rfl, htail⟩
        · cases as with
          | nil =>
              rw [List.nil_append] at htail
              cases htail
              exact absurd hdead hlive
          | cons a as =>
              rw [List.cons_append] at htail
              cases htail
              have hnot := hfirst p (List.mem_append_right _ List.mem_cons_self)
              rw [decide_eq_true hreads] at hnot
              cases hnot
        · cases bs with
          | nil =>
              rw [List.nil_append] at htail
              cases htail
              exact absurd hdead hlive
          | cons b bs =>
              rw [List.cons_append] at htail
              cases htail
              exact ⟨q, List.mem_append_right _ List.mem_cons_self, hlive,
                of_decide_eq_true hreads'⟩

/-- If the first record that reads as the name is in use, it is the one the
kernel finds. -/
theorem find_hit_eq (D : DirImage m blockSz iSize es)
    (h : ∀ p, es.find? (fun p => decide (Reads m shitosElf p)) = some p → deInode m p ≠ 0) :
    es.find? (fun p => decide (Hit shitosElf m p))
      = es.find? fun p => decide (Reads m shitosElf p) := by
  cases hfind : es.find? (fun p => decide (Reads m shitosElf p)) with
  | none =>
      rw [List.find?_eq_none] at hfind ⊢
      exact fun p hp hhit => hfind p hp (decide_eq_true (of_decide_eq_true hhit).2.2)
  | some p =>
      have hlive := h p hfind
      obtain ⟨hreads, pre, post, rfl, hfirst⟩ := List.find?_eq_some_iff_append.mp hfind
      have hp : p ∈ pre ++ p :: post := List.mem_append_right _ List.mem_cons_self
      refine List.find?_eq_some_iff_append.mpr ⟨?_, pre, post, rfl, fun q hq => ?_⟩
      · exact decide_eq_true ((D.hit_iff hp).mpr ⟨hlive, of_decide_eq_true hreads⟩)
      · have hnot := hfirst q hq
        rw [Bool.not_eq_true', decide_eq_false_iff_not] at hnot ⊢
        exact fun hhit => hnot hhit.2.2

/-- The boot loader finds the kernel exactly when the kernel's own lookup
would, if and only if no emptied record named `shitos.elf` comes before the
one in use. -/
theorem scan_agrees_iff (D : DirImage m blockSz iSize es) (hpos : 0 < blockSz)
    (hzero : ∀ x, iSize ≤ x → m x = 0) {read : Nat → Mem → Mem}
    (hread : ReadsImage read m blockSz iSize) (fresh : Mem) {n : Nat} (hn : es.length < n) :
    SameResult m (bootScan m n 0) (findDirent read fresh blockSz iSize shitosElf n)
      ↔ NoStaleName m es := by
  have hend : deRecLen m iSize = 0 := by
    rw [deRecLen, rd16, rd8, rd8, hzero _ (by omega), hzero _ (by omega)]
    rfl
  have hkernel := findDirent_eq D.records hpos hread fresh shitosElf hn
  rw [bootScan_eq hend es 0 n D.tiles hn, noStaleName_iff]
  constructor
  · intro hsame p hp hdead
    -- the scan reports inode 0, which `find_dirent` never does
    obtain ⟨c, hc, hzero'⟩ := (hsame 0).mp ⟨p, by rw [hp], hdead⟩
    cases hfind : es.find? (fun p => decide (Hit shitosElf m p)) with
    | none =>
        rw [hfind] at hkernel
        rw [show findDirent read fresh blockSz iSize shitosElf n = some none from hkernel] at hc
        cases hc
    | some q =>
        rw [hfind] at hkernel
        obtain ⟨c', hc', -, hentry⟩ := hkernel
        rw [hc'] at hc
        cases hc
        rw [hentry.inode] at hzero'
        have hhit := List.find?_some hfind
        exact (of_decide_eq_true hhit).1 hzero'
  · intro hlive i
    rw [find_hit_eq D hlive] at hkernel
    cases hfind : es.find? (fun p => decide (Reads m shitosElf p)) with
    | none =>
        rw [hfind] at hkernel
        rw [show findDirent read fresh blockSz iSize shitosElf n = some none from hkernel]
        constructor
        · rintro ⟨_, h, _⟩
          cases h
        · rintro ⟨_, h, _⟩
          cases h
    | some q =>
        rw [hfind] at hkernel
        obtain ⟨c, hc, -, hentry⟩ := hkernel
        rw [hc]
        constructor
        · rintro ⟨p, hp, hi⟩
          cases hp
          exact ⟨c, rfl, hentry.inode.trans hi⟩
        · rintro ⟨c', hc', hi⟩
          cases hc'
          exact ⟨q, rfl, hentry.inode.symm.trans hi⟩

end Scan

/-- Two blocks of 1024 bytes: `.` and `..` fill the first; in the second,
`shitos.elf` with the inode number `inode` comes before a file `a`. -/
def kernelDir (inode : UInt8) : Mem := fun a =>
  if a < 1024 then
    (([2, 0, 0, 0, 12, 0, 1, 2, 46, 0, 0, 0,
      2, 0, 0, 0, 244, 3, 2, 2, 46, 46] : List UInt8)[a]?).getD 0
  else
    (([inode, 0, 0, 0, 20, 0, 10, 1] ++ shitosElf ++ [0, 0,
      12, 0, 0, 0, 236, 3, 1, 1, 97] : List UInt8)[a - 1024]?).getD 0

theorem kernelDir_image (inode : UInt8) (h : inode = 0 ∨ inode = 11) :
    DirImage (kernelDir inode) 1024 2048 [0, 12, 1024, 1044] := by
  rcases h with rfl | rfl <;>
    exact ⟨by simp only [Tiles]; decide +kernel, by decide +kernel, by decide +kernel,
      by decide +kernel, by decide, by decide⟩

theorem kernelDir_zero (inode : UInt8) (x : Nat) (h : 2048 ≤ x) : kernelDir inode x = 0 := by
  rw [kernelDir, if_neg (by omega), List.getElem?_eq_none (by simp [shitosElf]; omega),
    Option.getD_none]

/-- The reads of the two blocks. -/
def kernelDirRead (inode : UInt8) (b : Nat) (_ : Mem) : Mem := fun i => kernelDir inode (b * 1024 + i)

theorem kernelDir_reads (inode : UInt8) :
    ReadsImage (kernelDirRead inode) (kernelDir inode) 1024 2048 :=
  fun _ _ _ _ _ => rfl

/-- While the entry is in use, both searches find inode 11. -/
theorem scan_agrees_iff_inUse :
    SameResult (kernelDir 11) (bootScan (kernelDir 11) 5 0)
      (findDirent (kernelDirRead 11) (fun _ => 0) 1024 2048 shitosElf 5) :=
  (scan_agrees_iff (kernelDir_image 11 (.inr rfl)) (by decide) (kernelDir_zero 11)
    (kernelDir_reads 11) _ (by decide)).mpr
    (noStaleName_iff.mpr (by decide +kernel))

/-- Unlinking it only clears `inode`: the kernel finds nothing any more, and
the boot loader stops at inode 0. -/
theorem scan_disagrees_unlinked :
    DirImage (kernelDir 0) 1024 2048 [0, 12, 1024, 1044] ∧ (∀ x, 2048 ≤ x → kernelDir 0 x = 0)
    ∧ ReadsImage (kernelDirRead 0) (kernelDir 0) 1024 2048
    ∧ ¬ SameResult (kernelDir 0) (bootScan (kernelDir 0) 5 0)
      (findDirent (kernelDirRead 0) (fun _ => 0) 1024 2048 shitosElf 5) := by
  refine ⟨kernelDir_image 0 (.inl rfl), kernelDir_zero 0, kernelDir_reads 0, fun hsame => ?_⟩
  have hscan : bootScan (kernelDir 0) 5 0 = some (some 1024) := by decide +kernel
  have hfind : (findDirent (kernelDirRead 0) (fun _ => 0) 1024 2048 shitosElf 5).map
      Option.isSome = some false := by
    decide +kernel
  obtain ⟨c, hc, -⟩ := (hsame 0).mp ⟨1024, hscan, by decide +kernel⟩
  rw [hc] at hfind
  cases hfind

end Ext2

end Shitos
