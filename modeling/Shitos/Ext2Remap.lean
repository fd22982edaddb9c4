import Shitos.Ext2Map

/-!
# Updating the block map

What `set_real_block` does to an inode with sound tables. Each of its steps
either finds a table in place or allocates one (`Linked`); the last one sets
the content pointer (`Wired`). Between them nothing else of the map changes,
because the tables are distinct and a block that has just been allocated is
none of them.
-/

namespace Shitos

namespace Ext2

open PtrTree

/-! ## The inode on the device -/

/-- The inode on the device is the one in memory. -/
def Saved (f : File) : Prop := Agree (diskInode f.fs f.no) f.ino 0 f.fs.inodeSz

/-- The home block of the file has changed in the place of its inode only, and
if the inode was saved it is again. -/
structure HomeKept (f f' : File) : Prop where
  saved : Saved f → Saved f'
  slot : ∀ i < f.fs.blockSz,
    ¬(homeOff f.fs f.no ≤ i ∧ i < homeOff f.fs f.no + f.fs.inodeSz) →
      blk f'.fs (home f.fs f.no) i = blk f.fs (home f.fs f.no) i

section HomeKept

variable {f f₁ f' : File} {bs : List Nat} {v : Bool} {S : Set Nat}

theorem HomeKept.refl (f : File) : HomeKept f f := ⟨fun h => h, fun _ _ _ => rfl⟩

theorem HomeKept.trans (h : HomeKept f f₁) (hf : SameFormat f.fs f₁.fs) (hno : f₁.no = f.no)
    (h' : HomeKept f₁ f') : HomeKept f f' := by
  refine ⟨fun hs => h'.saved (h.saved hs), fun i hi hout => ?_⟩
  have hslot := h'.slot i (by rwa [hf.blockSz])
  rw [hno, hf.home, hf.homeOff, hf.inodeSz] at hslot
  exact (hslot hout).trans (h.slot i hi hout)

/-- What leaves the home block and the inode alone. -/
theorem HomeKept.of_run (hr : BitRun bs v S f.fs f'.fs) (H : Homed f.fs f.no)
    (hS : home f.fs f.no ∉ S) (hino : f'.ino = f.ino) (hno : f'.no = f.no) : HomeKept f f' := by
  refine ⟨fun hs => ?_, fun i hi _ => hr.blk_eq H.notBook hS hi⟩
  intro i h0 hi
  have hsz := hr.format.inodeSz
  rw [hsz] at hi
  rw [hno, hino, hr.diskInode H hS i h0 hi]
  exact hs i h0 hi

/-- `write_inode` puts the inode in its place. -/
theorem HomeKept.save (V : Volume f.fs) (H : Homed f.fs f.no) (ino : Mem) :
    HomeKept f (File.save { f with ino := ino }).2 ∧ Saved (File.save { f with ino := ino }).2 := by
  have hsaved : Saved (File.save { f with ino := ino }).2 := by
    have hf := (@writeInode_run _ _ true V H ino).format
    intro i h0 hi
    refine diskInode_writeInode V H ino i h0 ?_
    rwa [← hf.inodeSz]
  refine ⟨⟨fun _ => hsaved, fun i hi hout => ?_⟩, hsaved⟩
  exact (writeInode_blk V H ino hi).trans (if_neg hout)

end HomeKept

/-! ## What the steps of `set_real_block` do -/

/-- The pointer at `x` is in use. If it was not before, it leads to a block
that has been allocated for it. -/
structure Linked (p : Nat) (P : Set Nat) (f : File) (x : Pos) (f' : File) : Prop where
  tables : Tables p P f'
  live : f'.at x ≠ 0
  relinked : Relinked p f x (f'.at x) f'
  found : f.at x ≠ 0 → f' = f
  got : f'.got = f.got ++ if f.at x = 0 then [f'.at x] else []
  run : BitRun (if f.at x = 0 then [f'.at x] else []) true (own p f') f.fs f'.fs
  no : f'.no = f.no
  head : SameHead f.ino f'.ino
  home : HomeKept f f'

/-- The pointer at `x` has been set to `r` in place. -/
structure Wired (p : Nat) (P : Set Nat) (f : File) (x : Pos) (r : Nat) (f' : File) : Prop where
  tables : Tables p P f'
  relinked : Relinked p f x r f'
  got : f'.got = f.got
  run : BitRun [] true (own p f) f.fs f'.fs
  no : f'.no = f.no
  head : SameHead f.ino f'.ino
  home : HomeKept f f'

section Steps

variable {p : Nat} {P : Set Nat} {f f₁ f' : File} {x : Pos}

theorem BitRun.ptrs {bs : List Nat} {v : Bool} {S : Set Nat} {fs fs' : Fs}
    (h : BitRun bs v S fs fs') : Ext2.ptrs fs' = Ext2.ptrs fs := by
  rw [Ext2.ptrs, Ext2.ptrs, h.format.blockSz]

/-- Tables are untouched by a run that writes no block of theirs. -/
theorem BitRun.entry {bs : List Nat} {v : Bool} {S : Set Nat} {fs fs' : Fs}
    (h : BitRun bs v S fs fs') {b i : Nat} (hbook : b ∉ bookBlocks fs) (hS : b ∉ S)
    (hi : i < Ext2.ptrs fs) : entry fs' b i = entry fs b i :=
  entry_congr (fun _ hj => h.blk_eq hbook hS hj) hi

theorem TableBlock.run {b : Nat} {bs : List Nat} {S : Set Nat} (h : TableBlock P f b)
    (hr : BitRun bs true S f.fs f'.fs) (hno : f'.no = f.no) : TableBlock P f' b where
  inVol := (hr.format.inVol b).mpr h.inVol
  notBook := by rw [hr.format.bookBlocks]; exact h.notBook
  notHome := by rw [hno, hr.format.home]; exact h.notHome
  known := h.known.imp_right fun ht => ht.run hr

/-- Tables stay sound when one pointer is set, to a block that may be a table
unless it is a content pointer. -/
theorem Tables.relinked (T : Tables p P f) {v : Nat} {bs : List Nat} {S : Set Nat}
    (h : Relinked p f x v f') (hr : BitRun bs true S f.fs f'.fs) (hno : f'.no = f.no)
    (hv : (tree p).Table x → v ≠ 0 →
      TableBlock P f' v ∧ ∀ y, (tree p).Table y → f.at y ≠ v) : Tables p P f' where
  ptrs := hr.ptrs.trans T.ptrs
  volume := T.volume.of_taken hr
  homed := by rw [hno]; exact T.homed.of_sameFormat hr.format
  homeTaken := by rw [hno, hr.format.home]; exact T.homeTaken.run hr
  table := by
    intro y hy h0
    have heq : f'.at y = if y = x then v else f.at y := h y hy.toValid
    rw [heq] at h0 ⊢
    by_cases hyx : y = x
    · rw [if_pos hyx] at h0 ⊢
      exact (hv (hyx ▸ hy) h0).1
    · rw [if_neg hyx] at h0 ⊢
      exact (T.table y hy h0).run hr hno
  distinct := T.distinct.updated h fun hx h0 => (hv hx h0).2

theorem Linked.refl (T : Tables p P f) (h0 : f.at x ≠ 0) : Linked p P f x f := by
  refine ⟨T, h0, ?_, fun _ => rfl, ?_, ?_, rfl, SameHead.refl _, HomeKept.refl f⟩
  · intro y _
    split
    · rename_i h
      rw [h]
      rfl
    · rfl
  · rw [if_neg h0, List.append_nil]
  · rw [if_neg h0]
    exact (BitRun.refl f.fs).mono (Set.empty_subset _)

/-- `alloc_block` has handed out `r`: a free block of the volume, now taken and
filled with zeros. -/
structure Handed (f : File) (r : Nat) (f' : File) : Prop where
  pos : r ≠ 0
  lt : r < 2 ^ 32
  inVol : InVol f.fs r
  notBook : r ∉ bookBlocks f.fs
  run : BitRun [r] true {r} f.fs f'.fs
  zero : ∀ i < f.fs.blockSz, blk f'.fs r i = 0
  ino : f'.ino = f.ino
  no : f'.no = f.no
  got : f'.got = f.got ++ [r]

/-- The new block is still empty after another block has been written. -/
theorem Handed.entry_zero {r w : Nat} {fs' : Fs} (ha : Handed f r f₁)
    (hw : BitRun [] true {w} f₁.fs fs') (hne : w ≠ r) {i : Nat} (hi : i < Ext2.ptrs f.fs) :
    entry fs' r i = 0 := by
  rw [← ha.run.ptrs] at hi
  have hbook : r ∉ bookBlocks f₁.fs := by
    rw [ha.run.format.bookBlocks]
    exact ha.notBook
  rw [hw.entry hbook (fun h => hne h.symm) hi]
  refine Ext2.entry_zero (fun j hj => ha.zero j ?_) hi
  rwa [← ha.run.format.blockSz]

/-- The volume was full, which has been reported and nothing else. -/
def RanOut (f f' : File) : Prop :=
  f.alloc.1 = 0 ∧ Full f.fs ∧ f' = { f with fs := reportFull f.fs }

theorem File.alloc_cases (V : Volume f.fs) :
    RanOut f f.alloc.2 ∨ Handed f f.alloc.1 f.alloc.2 := by
  rcases allocBlock_cases V with ⟨h0, hfull, hfs⟩ | ⟨h0, hin, hbook, hrun, hzero⟩
  · refine Or.inl ⟨h0, hfull, ?_⟩
    rw [File.alloc, if_pos h0, List.append_nil, hfs]
  · refine Or.inr ⟨h0, ?_, hin, hbook, hrun, hzero, rfl, rfl, ?_⟩
    · have hlt := (hrun.flipped _ (List.mem_singleton_self _)).1
      have hnum := V.numbers .block
      unfold capacity at hlt
      exact hlt.trans hnum
    · rw [File.alloc, if_neg h0]

/-- A block that `alloc_block` hands out is not taken, so it is neither the
home of the inode nor one of its tables. -/
theorem Tables.handed_ne (T : Tables p P f) {r : Nat} (ha : Handed f r f₁) (hP : r ∉ P) :
    home f.fs f.no ≠ r ∧ ∀ y, (tree p).Table y → f.at y ≠ r := by
  refine ⟨fun h => T.homeTaken.not_mem ha.run (List.mem_singleton.mpr h), fun y hy h => ?_⟩
  rcases (T.table y hy (h ▸ ha.pos)).known with hmem | ht
  · exact hP (h ▸ hmem)
  · exact ht.not_mem ha.run (List.mem_singleton.mpr h)

/-- The block of a table pointer that `alloc_block` has filled, once it is in
place. `w` is the block that was written to put it there. -/
theorem Linked.of_alloc (T : Tables p P f) (hx : (tree p).Table x) (h0 : f.at x = 0)
    {r w : Nat} (ha : Handed f r f₁) (hP : r ∉ P) (hwrite : BitRun [] true {w} f₁.fs f'.fs)
    (hw : w ∈ own p f) (hlink : Relinked p f x r f') (hgot : f'.got = f₁.got)
    (hno : f'.no = f.no) (hhead : SameHead f.ino f'.ino) (hkept : HomeKept f f') :
    Linked p P f x f' := by
  have hr0 := ha.pos
  have hrun := ha.run.trans hwrite
  rw [List.append_nil] at hrun
  have hat : f'.at x = r := by
    have := hlink x hx.toValid
    rwa [if_pos rfl] at this
  obtain ⟨hhome, hfree⟩ := T.handed_ne ha hP
  refine ⟨T.relinked hlink hrun hno fun _ _ => ⟨⟨?_, ?_, ?_, ?_⟩, hfree⟩, hat ▸ hr0, ?_,
    fun h => absurd h0 h, ?_, ?_, hno, hhead, hkept⟩
  · exact (hrun.format.inVol r).mpr ha.inVol
  · rw [hrun.format.bookBlocks]
    exact ha.notBook
  · rw [hno, hrun.format.home]
    exact fun h => hhome h.symm
  · exact Or.inr (Taken.of_mem (List.mem_singleton_self r) hrun)
  · rw [hat]
    exact hlink
  · rw [if_pos h0, hat, hgot, ha.got]
  · rw [if_pos h0, hat]
    refine hrun.mono ?_
    rintro b (hb | hb)
    · rw [hb]
      exact Or.inr ⟨x, hx, hat ▸ hr0, hat⟩
    · rw [hb]
      rcases hw with hw | ⟨y, hy, hy0, hyw⟩
      · exact Or.inl (by rw [hno, hrun.format.home]; exact hw)
      · have heq : f'.at y = if y = x then r else f.at y := hlink y hy.toValid
        rw [if_neg fun h : y = x => hy0 (by rw [h]; exact h0)] at heq
        exact Or.inr ⟨y, hy, heq ▸ hy0, heq.trans hyw⟩

theorem ensureRoot_found {k : Nat} (h : iBlock f.ino k ≠ 0) :
    ensureRoot f k = (.success, f) := if_pos h

theorem ensureRoot_full {k : Nat} (h : iBlock f.ino k = 0) (ha : f.alloc.1 = 0) :
    ensureRoot f k = (.noSpace, f.alloc.2) := by
  rw [ensureRoot, if_neg (not_not.mpr h)]
  exact if_pos ha

theorem ensureRoot_new {k : Nat} (h : iBlock f.ino k = 0) (ha : f.alloc.1 ≠ 0) :
    ensureRoot f k = (.success,
      (File.save { f.alloc.2 with ino := setIBlock f.ino k f.alloc.1 }).2) := by
  rw [ensureRoot, if_neg (not_not.mpr h)]
  exact if_neg ha

/-- How the step that puts the pointer at `x` in use can end. -/
def Stage (p : Nat) (P : Set Nat) (f : File) (x : Pos) (res : Status × File) : Prop :=
  (∀ b ∈ res.2.got, b ∉ P) →
    (res.1 = .success ∧ Linked p P f x res.2)
      ∨ (res.1 = .noSpace ∧ f.at x = 0 ∧ RanOut f res.2)

theorem Stage.linked {f₁ : File} (h : Stage p P f x (.success, f₁))
    (hP : ∀ b ∈ f₁.got, b ∉ P) : Linked p P f x f₁ := by
  rcases h hP with ⟨-, hl⟩ | ⟨hs, -⟩
  · exact hl
  · cases hs

theorem Stage.ranOut {f₁ : File} (h : Stage p P f x (.noSpace, f₁))
    (hP : ∀ b ∈ f₁.got, b ∉ P) : f.at x = 0 ∧ RanOut f f₁ := by
  rcases h hP with ⟨hs, -⟩ | ⟨-, hout⟩
  · cases hs
  · exact hout

theorem Stage.not_badBlock {f₁ : File} (h : Stage p P f x (.badBlock, f₁)) :
    ¬∀ b ∈ f₁.got, b ∉ P := by
  intro hP
  rcases h hP with ⟨hs, -⟩ | ⟨hs, -⟩
  · cases hs
  · cases hs

theorem ensureRoot_stage (T : Tables p P f) {k : Nat} (hk : 12 ≤ k) (hk' : k < 15) :
    Stage p P f ⟨k, []⟩ (ensureRoot f k) := by
  intro hP
  have hx : (tree p).Table ⟨k, []⟩ := table_top hk hk'
  by_cases h0 : iBlock f.ino k = 0
  · rcases f.alloc_cases T.volume with hfull | ha
    · rw [ensureRoot_full h0 hfull.1]
      exact Or.inr ⟨rfl, h0, hfull⟩
    · rw [ensureRoot_new h0 ha.pos] at hP ⊢
      refine Or.inl ⟨rfl, ?_⟩
      generalize f.alloc.1 = r at *
      generalize f.alloc.2 = f₁ at *
      have hrP : r ∉ P := hP r (by rw [File.save, ha.got]; simp)
      obtain ⟨hhome, hfree⟩ := T.handed_ne ha hrP
      have H₁ := T.homed.of_sameFormat ha.run.format
      rw [← ha.no] at H₁
      have hkept₁ := HomeKept.of_run ha.run T.homed hhome ha.ino ha.no
      have hsave := @writeInode_run _ _ true (T.volume.of_taken ha.run) H₁ (setIBlock f.ino k r)
      rw [show home f₁.fs f₁.no = home f.fs f.no by rw [ha.no, ha.run.format.home]] at hsave
      refine Linked.of_alloc T hx h0 ha hrP hsave (Or.inl rfl) ?_ rfl ha.no
        (SameHead.setIBlock _ hk' r) (hkept₁.trans ha.run.format ha.no
          (HomeKept.save (T.volume.of_taken ha.run) H₁ (setIBlock f.ino k r)).1)
      refine updated_of_root ?_ ?_ ?_ ?_
      · exact fun r' _ => iBlock_setIBlock f.ino ha.lt
      · intro y hy hy0 i hi
        have hb := T.table y hy hy0
        have hrun := ha.run.trans hsave
        refine hrun.entry hb.notBook ?_ (by rwa [T.ptrs])
        rintro (h | h)
        · exact hfree y hy h
        · exact hb.notHome h
      · exact fun _ i _ => by rw [h0, step_zero]
      · intro _ i hi
        rw [step_of_ne ha.pos]
        exact ha.entry_zero hsave hhome (by rwa [T.ptrs])
  · rw [ensureRoot_found h0]
    exact Or.inl ⟨rfl, Linked.refl T h0⟩

theorem ensureEntry_found {t i : Nat} {tmp : Mem}
    (h : rd32 (readBlock f.fs t tmp).2 (4 * i) ≠ 0) :
    ensureEntry f t tmp i = (.success, (readBlock f.fs t tmp).2, f) := if_pos h

theorem ensureEntry_full {t i : Nat} {tmp : Mem}
    (h : rd32 (readBlock f.fs t tmp).2 (4 * i) = 0) (ha : f.alloc.1 = 0) :
    ensureEntry f t tmp i = (.noSpace, (readBlock f.fs t tmp).2, f.alloc.2) := by
  rw [ensureEntry, if_neg (not_not.mpr h)]
  exact if_pos ha

theorem ensureEntry_new {t i : Nat} {tmp : Mem}
    (h : rd32 (readBlock f.fs t tmp).2 (4 * i) = 0) (ha : f.alloc.1 ≠ 0) :
    ensureEntry f t tmp i
      = ((f.alloc.2.store t (wr32 (readBlock f.fs t tmp).2 (4 * i) f.alloc.1)).1,
          wr32 (readBlock f.fs t tmp).2 (4 * i) f.alloc.1,
          (f.alloc.2.store t (wr32 (readBlock f.fs t tmp).2 (4 * i) f.alloc.1)).2) := by
  rw [ensureEntry, if_neg (not_not.mpr h)]
  exact if_neg ha

/-- Storing a table with one entry changed changes one pointer. -/
theorem Tables.relinked_store (T : Tables p P f) {i v : Nat} {m : Mem} {fs₁ : Fs}
    (hx : (tree p).Table x) (hlive : f.at x ≠ 0) (hv : v < 2 ^ 32)
    (hd : fs₁.devSz ≤ 2 ^ 32) (hin : InVol fs₁ (f.at x)) (hp : Ext2.ptrs fs₁ = p)
    (hm : Agree m (blk fs₁ (f.at x)) 0 fs₁.blockSz)
    (hsame : ∀ y, (tree p).Table y → f.at y ≠ 0 → ∀ j < p,
      entry fs₁ (f.at y) j = entry f.fs (f.at y) j)
    (hold : (tree p).Table (x.child i) → f.at (x.child i) = 0)
    (hnew : (tree p).Table (x.child i) → ∀ j < p,
      step (entry (writeBlock fs₁ (f.at x) (wr32 m (4 * i) v)).2) v j = 0)
    (hfs : f'.fs = (writeBlock fs₁ (f.at x) (wr32 m (4 * i) v)).2) (hino : f'.ino = f.ino) :
    Relinked p f (x.child i) v f' := by
  refine updated_of_entry T.distinct hx hlive ?_ ?_ ?_ ?_
  · intro r _
    rw [hino]
  · intro y hy hy0 j hj
    rw [hfs, entry_writeBlock hd hin hm hv (by rwa [hp])]
    exact if_congr Iff.rfl rfl (hsame y hy hy0 j hj)
  · intro ht j _
    rw [show node (iBlock f.ino) (entry f.fs) (x.child i) = 0 from hold ht, step_zero]
  · rw [hfs]
    exact hnew

/-- How `ensureEntry` ends; after a success `tmp` has the pointer. -/
def EntryStage (p : Nat) (P : Set Nat) (f : File) (x : Pos) (i : Nat)
    (res : Status × Mem × File) : Prop :=
  Stage p P f (x.child i) (res.1, res.2.2)
    ∧ (res.1 = .success → (∀ b ∈ res.2.2.got, b ∉ P) →
      rd32 res.2.1 (4 * i) = res.2.2.at (x.child i))

theorem ensureEntry_stage (T : Tables p P f) {i : Nat} (hx : (tree p).Table x)
    (hlive : f.at x ≠ 0) (hi : i < p) (hc : (tree p).Table (x.child i)) (tmp : Mem) :
    EntryStage p P f x i (ensureEntry f (f.at x) tmp i) := by
  have hread := T.entry_read hx hlive hi tmp
  have hb := T.table x hx hlive
  by_cases h0 : f.at (x.child i) = 0
  · rw [h0] at hread
    rcases f.alloc_cases T.volume with hfull | ha
    · rw [ensureEntry_full hread hfull.1]
      exact ⟨fun _ => Or.inr ⟨rfl, h0, hfull⟩, fun h => nomatch h⟩
    · rw [ensureEntry_new hread ha.pos]
      generalize f.alloc.1 = r at *
      generalize f.alloc.2 = f₁ at *
      obtain ⟨m, hm⟩ : ∃ m, m = (readBlock f.fs (f.at x) tmp).2 := ⟨_, rfl⟩
      rw [← hm]
      -- the two statements share the one about the pointers
      suffices h : (∀ b ∈ (f₁.store (f.at x) (wr32 m (4 * i) r)).2.got, b ∉ P) →
          Linked p P f (x.child i) (f₁.store (f.at x) (wr32 m (4 * i) r)).2
            ∧ rd32 (wr32 m (4 * i) r) (4 * i)
              = (f₁.store (f.at x) (wr32 m (4 * i) r)).2.at (x.child i) from
        ⟨fun hP => Or.inl ⟨writeBlock_fst (Nat.pos_of_ne_zero hlive) _, (h hP).1⟩,
          fun _ hP => (h hP).2⟩
      intro hP
      have hrP : r ∉ P := hP r (by rw [File.store, ha.got]; simp)
      obtain ⟨hhome, hfree⟩ := T.handed_ne ha hrP
      have V₁ := T.volume.of_taken ha.run
      have hin : InVol f₁.fs (f.at x) := (ha.run.format.inVol _).mpr hb.inVol
      have hbook : f.at x ∉ bookBlocks f₁.fs := by
        rw [ha.run.format.bookBlocks]
        exact hb.notBook
      have hmag : Agree m (blk f₁.fs (f.at x)) 0 f₁.fs.blockSz := by
        intro j _ hj
        rw [Nat.zero_add, ha.run.format.blockSz] at hj
        rw [hm, readBlock_snd T.volume.dev hb.inVol _ hj,
          ha.run.blk_eq hb.notBook (fun h => hfree x hx h) hj]
      have hwrite := @writeBlock_run true _ V₁ _ hin hbook (wr32 m (4 * i) r)
      have hlink : Relinked p f (x.child i) r (f₁.store (f.at x) (wr32 m (4 * i) r)).2 := by
        refine T.relinked_store hx hlive ha.lt V₁.dev hin (ha.run.ptrs.trans T.ptrs) hmag ?_
          (fun _ => h0) ?_ rfl ha.ino
        · intro y hy hy0 j hj
          exact ha.run.entry (T.table y hy hy0).notBook (fun h => hfree y hy h) (by rwa [T.ptrs])
        · intro _ j hj
          rw [step_of_ne ha.pos]
          exact ha.entry_zero hwrite (hfree x hx) (by rwa [T.ptrs])
      have hout : home f.fs f.no ∉ ({r} ∪ {f.at x} : Set Nat) := by
        rintro (h | h)
        · exact hhome h
        · exact hb.notHome h.symm
      have hlinked := Linked.of_alloc T hc h0 ha hrP hwrite (Or.inr ⟨x, hx, hlive, rfl⟩) hlink rfl
        ha.no (by rw [show (f₁.store (f.at x) (wr32 m (4 * i) r)).2.ino = f.ino from ha.ino]
                  exact SameHead.refl _)
        (HomeKept.of_run (ha.run.trans hwrite) T.homed hout ha.ino ha.no)
      refine ⟨hlinked, ?_⟩
      have hat := hlink (x.child i) hc.toValid
      rw [if_pos rfl] at hat
      rw [rd32_wr32_same _ ha.lt]
      exact hat.symm
  · have hne : rd32 (readBlock f.fs (f.at x) tmp).2 (4 * i) ≠ 0 := by rwa [hread]
    rw [ensureEntry_found hne]
    exact ⟨fun _ => Or.inl ⟨rfl, Linked.refl T h0⟩, fun _ _ => hread⟩

theorem setEntry_spec (T : Tables p P f) {i r : Nat} (hx : (tree p).Table x)
    (hlive : f.at x ≠ 0) (hc : ¬(tree p).Table (x.child i)) (hr : r < 2 ^ 32)
    (tmp : Mem) : (setEntry f (f.at x) tmp i r).1 = .success
      ∧ Wired p P f (x.child i) r (setEntry f (f.at x) tmp i r).2 := by
  have hb := T.table x hx hlive
  have hread := readBlock_agree T.volume.dev hb.inVol tmp
  have hrun : BitRun [] true {f.at x} f.fs (setEntry f (f.at x) tmp i r).2.fs :=
    writeBlock_run T.volume hb.inVol hb.notBook _
  have hlink : Relinked p f (x.child i) r (setEntry f (f.at x) tmp i r).2 :=
    T.relinked_store hx hlive hr T.volume.dev hb.inVol T.ptrs hread
      (fun _ _ _ _ _ => rfl) (fun h => absurd h hc) (fun h => absurd h hc) rfl rfl
  refine ⟨writeBlock_fst (Nat.pos_of_ne_zero hlive) _, T.relinked hlink hrun rfl fun h =>
    absurd h hc, hlink, rfl, hrun.mono ?_, rfl, SameHead.refl _,
    HomeKept.of_run hrun T.homed (fun h => hb.notHome h.symm) rfl rfl⟩
  rintro b rfl
  exact Or.inr ⟨x, hx, hlive, rfl⟩

theorem ensureRoot_got (f : File) (k : Nat) : f.got <+: (ensureRoot f k).2.got := by
  unfold ensureRoot
  split
  · exact List.prefix_refl _
  · simp only
    split
    · exact List.prefix_append _ _
    · exact List.prefix_append _ _

theorem ensureEntry_got (f : File) (t : Nat) (tmp : Mem) (i : Nat) :
    f.got <+: (ensureEntry f t tmp i).2.2.got := by
  unfold ensureEntry
  simp only
  split
  · exact List.prefix_refl _
  · split
    · exact List.prefix_append _ _
    · exact List.prefix_append _ _

/-- The pointers at `xs` have been put in use one after the other. -/
inductive Chain (p : Nat) (P : Set Nat) : File → List Pos → File → Prop
  | nil (f : File) : Chain p P f [] f
  | cons {f f₁ f₂ : File} {x : Pos} {xs : List Pos} (h : Linked p P f x f₁)
      (t : Chain p P f₁ xs f₂) : Chain p P f (x :: xs) f₂

/-- How `set_real_block` can end: all tables on the way have been put in use
and the pointer of the content block set, or the volume ran out of blocks
at one of the tables. -/
def Remapped (p : Nat) (P : Set Nat) (f : File) (k r : Nat) (res : Status × File) : Prop :=
  (res.1 = .success
      ∧ ∃ f₁, Chain p P f (tablePath p k) f₁ ∧ Wired p P f₁ (leafPos p k) r res.2)
    ∨ (res.1 = .noSpace ∧ ∃ xs y f₁, xs ++ [y] <+: tablePath p k ∧ Chain p P f xs f₁
      ∧ f₁.at y = 0 ∧ RanOut f₁ res.2)

theorem setRealBlock_direct (T : Tables p P f) {k r : Nat} (h : k < 12) (hr : r < 2 ^ 32) :
    Wired p P f ⟨k, []⟩ r (File.save { f with ino := setIBlock f.ino k r }).2 := by
  have hleaf : ¬(tree p).Table ⟨k, []⟩ := fun ht => absurd ht.above (show ¬0 < k - 11 by omega)
  have hrun := @writeInode_run _ _ true T.volume T.homed (setIBlock f.ino k r)
  have hlink : Relinked p f ⟨k, []⟩ r (File.save { f with ino := setIBlock f.ino k r }).2 := by
    refine updated_of_root (fun r' _ => iBlock_setIBlock f.ino hr) ?_
      (fun h => absurd h hleaf) (fun h => absurd h hleaf)
    intro y hy hy0 i hi
    have hb := T.table y hy hy0
    exact hrun.entry hb.notBook hb.notHome (by rwa [T.ptrs])
  refine ⟨T.relinked hlink hrun rfl fun h => absurd h hleaf, hlink, rfl, hrun.mono ?_, rfl,
    SameHead.setIBlock _ (by omega) r, (HomeKept.save T.volume T.homed _).1⟩
  rintro b rfl
  exact Or.inl rfl

theorem setRealBlock_cases (T : Tables p P f) {k r : Nat} (hk : k < maxBlocks p)
    (hr : r < 2 ^ 32) (hP : ∀ b ∈ (setRealBlock f k r).2.got, b ∉ P) :
    Remapped p P f k r (setRealBlock f k r) := by
  have hp := T.pos
  have hleaf := leafPos_valid hp hk
  unfold maxBlocks at hk
  unfold Remapped
  unfold setRealBlock at hP ⊢
  simp only [T.ptrs] at hP ⊢
  rcases Nat.lt_or_ge k 12 with h | h
  · rw [leafPos_direct h, tablePath_direct h, if_pos h]
    exact Or.inl ⟨writeInode_fst T.homed.numbered, f, .nil f, setRealBlock_direct T h hr⟩
  rw [if_neg (by omega)] at hP ⊢
  rcases Nat.lt_or_ge k (12 + p) with h' | h'
  · rw [leafPos_single h h'] at hleaf ⊢
    rw [tablePath_single h h']
    rw [if_pos h'] at hP ⊢
    have h1 := @ensureRoot_stage p P f T 12 (by decide) (by decide)
    have hg := ensureRoot_got f 12
    generalize ensureRoot f 12 = res at *
    obtain ⟨st, f₁⟩ := res
    cases st with
    | badBlock => exact absurd hP h1.not_badBlock
    | noSpace =>
        obtain ⟨h0, hout⟩ := h1.ranOut hP
        exact Or.inr ⟨rfl, [], _, f, ⟨_, rfl⟩, .nil f, h0, hout⟩
    | success =>
        have hl := h1.linked hP
        obtain ⟨hs, hw⟩ := setEntry_spec hl.tables (table_top (show 12 ≤ 12 by decide) (by decide))
          hl.live hleaf.2 hr f₁.fs.fresh
        exact Or.inl ⟨hs, f₁, .cons hl (.nil f₁), hw⟩
  rw [if_neg (by omega)] at hP ⊢
  rcases Nat.lt_or_ge k (12 + p + p * p) with h'' | h''
  · rw [leafPos_double h' h''] at hleaf ⊢
    rw [tablePath_double h' h'']
    rw [if_pos h''] at hP ⊢
    have hi : (k - 12 - p) / p < p := Nat.div_lt_of_lt_mul (by omega)
    generalize (k - 12 - p) / p = i at *
    generalize (k - 12 - p) % p = j at *
    have h1 := @ensureRoot_stage p P f T 13 (by decide) (by decide)
    generalize ensureRoot f 13 = res at *
    obtain ⟨st, f₁⟩ := res
    cases st with
    | badBlock => exact absurd hP h1.not_badBlock
    | noSpace =>
        obtain ⟨h0, hout⟩ := h1.ranOut hP
        exact Or.inr ⟨rfl, [], _, f, ⟨_, rfl⟩, .nil f, h0, hout⟩
    | success =>
        simp only at hP ⊢
        have h2 : Linked p P f ⟨13, []⟩ f₁ → EntryStage p P f₁ ⟨13, []⟩ i
            (ensureEntry f₁ (iBlock f₁.ino 13) f₁.fs.fresh i) := fun hl =>
          ensureEntry_stage hl.tables (table_top (by decide) (by decide)) hl.live hi
            (table_double hi) _
        have hg := ensureEntry_got f₁ (iBlock f₁.ino 13) f₁.fs.fresh i
        generalize ensureEntry f₁ (iBlock f₁.ino 13) f₁.fs.fresh i = res at *
        obtain ⟨st, tmp, f₂⟩ := res
        have hP₂ : ∀ b ∈ f₂.got, b ∉ P := by
          cases st <;> exact hP
        have hl₁ := h1.linked fun b hb => hP₂ b (hg.subset hb)
        obtain ⟨h2, hptr⟩ := h2 hl₁
        cases st with
        | badBlock => exact absurd hP₂ h2.not_badBlock
        | noSpace =>
            obtain ⟨h0, hout⟩ := h2.ranOut hP₂
            exact Or.inr ⟨rfl, [_], _, f₁, ⟨_, rfl⟩, .cons hl₁ (.nil f₁), h0, hout⟩
        | success =>
            have hl₂ := h2.linked hP₂
            have hptr := hptr rfl hP₂
            simp only at hl₂ hptr ⊢
            rw [hptr]
            obtain ⟨hs, hw⟩ := setEntry_spec hl₂.tables (table_double hi) hl₂.live hleaf.2 hr tmp
            exact Or.inl ⟨hs, f₂, .cons hl₁ (.cons hl₂ (.nil f₂)), hw⟩
  · rw [leafPos_triple h''] at hleaf ⊢
    rw [tablePath_triple h'']
    rw [if_neg (by omega)] at hP ⊢
    obtain ⟨hi, hj, -⟩ := @idx_lt p hp (k - 12 - p - p * p) (by omega)
    generalize (k - 12 - p - p * p) / (p * p) = i at *
    generalize (k - 12 - p - p * p) % (p * p) / p = j at *
    generalize (k - 12 - p - p * p) % (p * p) % p = l at *
    have h1 := @ensureRoot_stage p P f T 14 (by decide) (by decide)
    generalize ensureRoot f 14 = res at *
    obtain ⟨st, f₁⟩ := res
    cases st with
    | badBlock => exact absurd hP h1.not_badBlock
    | noSpace =>
        obtain ⟨h0, hout⟩ := h1.ranOut hP
        exact Or.inr ⟨rfl, [], _, f, ⟨_, rfl⟩, .nil f, h0, hout⟩
    | success =>
        simp only at hP ⊢
        have h2 : Linked p P f ⟨14, []⟩ f₁ → EntryStage p P f₁ ⟨14, []⟩ i
            (ensureEntry f₁ (iBlock f₁.ino 14) f₁.fs.fresh i) := fun hl =>
          ensureEntry_stage hl.tables (table_top (by decide) (by decide)) hl.live hi
            (table_triple hi) _
        have hg := ensureEntry_got f₁ (iBlock f₁.ino 14) f₁.fs.fresh i
        generalize ensureEntry f₁ (iBlock f₁.ino 14) f₁.fs.fresh i = res at *
        obtain ⟨st, tmp, f₂⟩ := res
        cases st with
        | badBlock =>
            have hl₁ := h1.linked fun b hb => hP b (hg.subset hb)
            exact absurd hP (h2 hl₁).1.not_badBlock
        | noSpace =>
            have hl₁ := h1.linked fun b hb => hP b (hg.subset hb)
            obtain ⟨h0, hout⟩ := (h2 hl₁).1.ranOut hP
            exact Or.inr ⟨rfl, [_], _, f₁, ⟨_, rfl⟩, .cons hl₁ (.nil f₁), h0, hout⟩
        | success =>
            simp only at hP hg ⊢
            have h3 : Linked p P f₁ ⟨14, [i]⟩ f₂ → rd32 tmp (4 * i) = f₂.at ⟨14, [i]⟩ →
                EntryStage p P f₂ ⟨14, [i]⟩ j (ensureEntry f₂ (rd32 tmp (4 * i)) tmp j) :=
              fun hl hptr => by
                rw [hptr]
                exact ensureEntry_stage hl.tables (table_triple hi) hl.live hj
                  (table_triple₂ hi hj) _
            have hg' := ensureEntry_got f₂ (rd32 tmp (4 * i)) tmp j
            generalize ensureEntry f₂ (rd32 tmp (4 * i)) tmp j = res at *
            obtain ⟨st, tmp', f₃⟩ := res
            have hP₃ : ∀ b ∈ f₃.got, b ∉ P := by
              cases st <;> exact hP
            have hP₂ : ∀ b ∈ f₂.got, b ∉ P := fun b hb => hP₃ b (hg'.subset hb)
            have hl₁ := h1.linked fun b hb => hP₂ b (hg.subset hb)
            obtain ⟨h2, hptr⟩ := h2 hl₁
            have hl₂ := h2.linked hP₂
            obtain ⟨h3, hptr'⟩ := h3 hl₂ (hptr rfl hP₂)
            cases st with
            | badBlock => exact absurd hP₃ h3.not_badBlock
            | noSpace =>
                obtain ⟨h0, hout⟩ := h3.ranOut hP₃
                exact Or.inr ⟨rfl, [_, _], _, f₂, ⟨_, rfl⟩, .cons hl₁ (.cons hl₂ (.nil f₂)), h0, hout⟩
            | success =>
                have hl₃ := h3.linked hP₃
                have hptr' := hptr' rfl hP₃
                simp only at hl₃ hptr' ⊢
                rw [hptr']
                obtain ⟨hs, hw⟩ := setEntry_spec hl₃.tables (table_triple₂ hi hj) hl₃.live hleaf.2 hr
                  tmp'
                exact Or.inl ⟨hs, f₃, .cons hl₁ (.cons hl₂ (.cons hl₃ (.nil f₃))), hw⟩

theorem Chain.tables {xs : List Pos} (h : Chain p P f xs f') (T : Tables p P f) :
    Tables p P f' := by
  induction h with
  | nil => exact T
  | cons h _ ih => exact ih h.tables

/-- Putting tables in use changes no content pointer. -/
theorem Chain.leaf {xs : List Pos} (h : Chain p P f xs f') (hxs : ∀ x ∈ xs, (tree p).Table x)
    {y : Pos} (hy : (tree p).Valid y) (hleaf : ¬(tree p).Table y) : f'.at y = f.at y := by
  induction h with
  | nil => rfl
  | cons h _ ih =>
      refine (ih fun x hx => hxs x (List.mem_cons_of_mem _ hx)).trans ((h.relinked y hy).trans ?_)
      refine if_neg fun heq => hleaf ?_
      rw [heq]
      exact hxs _ List.mem_cons_self

end Steps

/-- The blocks of the tables of an inode. -/
def tableSet (p : Nat) (f : File) : Set Nat := {b | ∃ x, (tree p).Table x ∧ f.at x = b}

/-- **The block map is a function update.** On an inode with sound tables, a
successful `set_real_block` sets the pointer of its block, leaves the pointers
of all other content blocks, and keeps the tables distinct. -/
theorem setRealBlock_updates {f : File} {k r : Nat}
    (T : Tables (ptrs f.fs) (tableSet (ptrs f.fs) f) f) (hk : k < maxBlocks (ptrs f.fs))
    (hr : r < 2 ^ 32) (hs : (setRealBlock f k r).1 = .success)
    (hfresh : ∀ b ∈ (setRealBlock f k r).2.got, b ∉ tableSet (ptrs f.fs) f) :
    getRealBlock (setRealBlock f k r).2.fs (setRealBlock f k r).2.ino k = r
      ∧ (∀ j < maxBlocks (ptrs f.fs), j ≠ k →
        getRealBlock (setRealBlock f k r).2.fs (setRealBlock f k r).2.ino j
          = getRealBlock f.fs f.ino j)
      ∧ Distinct (tree (ptrs f.fs)) (iBlock (setRealBlock f k r).2.ino)
        (entry (setRealBlock f k r).2.fs) := by
  have hp := T.pos
  obtain ⟨-, f₁, hchain, hwired⟩ := (setRealBlock_cases T hk hr hfresh).resolve_right fun h => by
    rw [hs] at h
    exact nomatch h.1
  have T' := hwired.tables
  have hat : ∀ y, (tree (ptrs f.fs)).Valid y → (setRealBlock f k r).2.at y
      = if y = leafPos (ptrs f.fs) k then r else f₁.at y := hwired.relinked
  refine ⟨?_, fun j hj hne => ?_, T'.distinct⟩
  · rw [T'.getRealBlock_eq hk, hat _ (leafPos_valid hp hk).1, if_pos rfl]
  · have hleaf := leafPos_valid hp hj
    rw [T'.getRealBlock_eq hj, T.getRealBlock_eq hj, hat _ hleaf.1,
      if_neg fun h => hne (leafPos_inj hp h)]
    exact hchain.leaf (tablePath_table hp hk) hleaf.1 hleaf.2

/-! ## Inodes of a small volume -/

/-- Inode 1 of the small volume, empty. -/
def emptyFile : File := ⟨freshFs, fun _ => 0, 1, []⟩

theorem emptyFile_at (x : Pos) : emptyFile.at x = 0 :=
  node_of_root (show iBlock (fun _ => 0) x.root = 0 from rfl)

theorem emptyFile_ptrs : ptrs emptyFile.fs = 256 := rfl

theorem tinyFs_home (b i fb fi : Nat) : home (tinyFs b i fb fi) 1 = 5 := by
  have htable : (tinyFs b i fb fi).inodeTable 0 = 5 := by
    show rd32 (wr16 (wr16 _ 12 fb) 14 fi) 8 = 5
    rw [rd32_wr16_of_disjoint (by decide), rd32_wr16_of_disjoint (by decide),
      rd32_wr32_same _ (by decide)]
  show ((tinyFs b i fb fi).inodeTable (0 / 32) + 0 * 128 % 2 ^ 32 / 1024) % 2 ^ 32 = 5
  rw [Nat.zero_div, htable]
  rfl

theorem tinyFs_homed (b i fb fi : Nat) : Homed (tinyFs b i fb fi) 1 where
  numbered := ⟨by decide, show 0 / 32 ≤ 1 by decide⟩
  inVol := by
    rw [tinyFs_home]
    exact ⟨by decide, show 6 * 1024 ≤ 32768 by decide⟩
  notBook := by
    rw [tinyFs_home, tinyFs_bookBlocks]
    decide
  fits := show 0 + 128 ≤ 1024 by decide
  size := show 128 ≤ 128 by decide

theorem freshFs_homed : Homed freshFs 1 := tinyFs_homed ..

theorem freshFs_volume : Volume freshFs :=
  ⟨tinyFs_layout _ _ _ _, freshFs_marked, fun _ => freshFs_tidy.2.2⟩

theorem emptyFile_tables (P : Set Nat) : Tables 256 P emptyFile where
  ptrs := emptyFile_ptrs
  volume := freshFs_volume
  homed := freshFs_homed
  homeTaken := fun _ => by decide +kernel
  table := fun x _ h => absurd (emptyFile_at x) h
  distinct := fun x _ _ _ h _ => absurd (emptyFile_at x) h

/-- A doubly indirect block of the empty inode, which needs two tables. -/
theorem setRealBlock_updates_double :
    getRealBlock (setRealBlock emptyFile 300 20).2.fs (setRealBlock emptyFile 300 20).2.ino 300
      = 20 := by
  have hgot : (setRealBlock emptyFile 300 20).2.got = [9, 10] := by decide +kernel
  refine (@setRealBlock_updates emptyFile 300 20 (emptyFile_tables _) (by decide) (by decide)
    (by decide +kernel) ?_).1
  rw [hgot]
  rintro b hb ⟨x, -, hx⟩
  rw [emptyFile_at] at hx
  subst hx
  exact absurd hb (by decide)

/-- An inode whose singly indirect table is the block that holds it. -/
def loopFile : File := ⟨freshFs, setIBlock (fun _ => 0) 12 5, 1, []⟩

theorem loopFile_distinct : Distinct (tree 256) (iBlock loopFile.ino) (entry loopFile.fs) := by
  have honly : ∀ x, (tree 256).Table x → loopFile.at x ≠ 0 → x = ⟨12, []⟩ := by
    rintro ⟨r, is⟩ hx h0
    have hroot : r = 12 := by
      by_contra hne
      exact h0 (node_of_root ((iBlock_setIBlock _ (by decide)).trans (if_neg hne)))
    subst hroot
    have hlen : is.length < 1 := hx.above
    have hnil : is = [] := List.length_eq_zero_iff.mp (by omega)
    rw [hnil]
  intro x y hx hy h0 heq
  rw [honly x hx h0, honly y hy fun h => h0 (heq.trans h)]

/-- Without the metadata kept apart the map is no function update: the tables
are distinct and nothing is allocated, but setting block 0 writes the inode,
and that changes block 22. -/
theorem setRealBlock_in_own_table :
    Distinct (tree 256) (iBlock loopFile.ino) (entry loopFile.fs)
      ∧ (setRealBlock loopFile 0 7).1 = .success ∧ (setRealBlock loopFile 0 7).2.got = []
      ∧ getRealBlock loopFile.fs loopFile.ino 22 = 0
      ∧ getRealBlock (setRealBlock loopFile 0 7).2.fs (setRealBlock loopFile 0 7).2.ino 22 = 7 :=
  ⟨loopFile_distinct, by decide +kernel, by decide +kernel, by decide +kernel, by decide +kernel⟩

end Ext2

end Shitos
