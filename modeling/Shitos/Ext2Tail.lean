import Shitos.Ext2Shrink

/-!
# The tail of an inode

`free_inode_blocks` on a dense inode. The blocks from content index `m` on, and
the tables that only they need, are the last positions of the traversal
(`surplus_iff`), so the loop has to free the positions from the end down. It
does so exactly while `free_inode_block` looks for every block in its place
(`freeInodeBlocks_shrinks_iff`).
-/

namespace Shitos

namespace Ext2

open PtrTree

/-! ## The blocks of a tail -/

section Tail

variable {p n m q q' t : Nat} {f : File} {x y : Pos}

theorem Reaches.lt_of_mem {s : Shape} : ∀ {xs : List Pos} {q : Nat}, Reaches s q xs q' →
    x ∈ xs → s.seq x < q'
  | z :: xs, q, h, hx => by
      rcases List.mem_cons.mp hx with rfl | hx
      · have := h.2.le
        omega
      · exact h.2.lt_of_mem hx

theorem Reaches.exists_mem {s : Shape} : ∀ {xs : List Pos} {q : Nat}, Reaches s q xs q' →
    q ≤ t → t < q' → ∃ x ∈ xs, s.seq x = t
  | [], q, h, ht, ht' => by
      have heq : q = q' := h
      omega
  | z :: xs, q, h, ht, ht' => by
      by_cases hz : s.seq z = t
      · exact ⟨z, List.mem_cons_self, hz⟩
      · have hle := h.1
        obtain ⟨x, hx, hseq⟩ := h.2.exists_mem (show max q (s.seq z + 1) ≤ t by omega) ht'
        exact ⟨x, List.mem_cons_of_mem _ hx, hseq⟩

/-- Position `y` serves content block `j`: it is its own or one of the tables on
the way to it. -/
def Serves (p : Nat) (y : Pos) (j : Nat) : Prop := y = leafPos p j ∨ y ∈ tablePath p j

theorem Serves.seq_lt (hp : 0 < p) {j : Nat} (h : Serves p y j) (hj : j < m) :
    (tree p).seq y < m + tables p m := by
  have hmono := @tables_mono p m hp (j + 1) hj
  rcases h with rfl | h
  · rw [seq_leafPos hp]
    omega
  · have := (tablePath_reaches hp j).lt_of_mem h
    omega

/-- The positions before the end serve the content blocks before it. -/
theorem exists_serves (hp : 0 < p) (hy : (tree p).Valid y) (hm : m ≤ maxBlocks p)
    (h : (tree p).seq y < m + tables p m) : ∃ j < m, Serves p y j := by
  induction m with
  | zero =>
      rw [tables_direct (by omega)] at h
      omega
  | succ m ih =>
      rcases Nat.lt_or_ge ((tree p).seq y) (m + tables p m) with hlt | hge
      · obtain ⟨j, hj, hs⟩ := ih (Nat.le_of_succ_le hm) hlt
        exact ⟨j, Nat.lt_succ_of_lt hj, hs⟩
      refine ⟨m, Nat.lt_succ_self m, ?_⟩
      by_cases hleaf : (tree p).seq y = m + tables p (m + 1)
      · have hl := leafPos_valid hp hm
        exact Or.inl (Shape.seq_inj hy hl.1 (hleaf.trans (seq_leafPos hp m).symm))
      · obtain ⟨x, hx, hseq⟩ := (tablePath_reaches hp m).exists_mem hge (by omega)
        have hxy := Shape.seq_inj (tablePath_table hp hm x hx).toValid hy hseq
        exact Or.inr (hxy ▸ hx)

/-- Only content from index `m` on needs block `b`: it is such content, or a
table that serves no index below `m`. -/
def Surplus (p n m : Nat) (f : File) (b : Nat) : Prop :=
  (∃ j, m ≤ j ∧ j < n ∧ getRealBlock f.fs f.ino j = b)
    ∨ ∃ x, (tree p).Table x ∧ f.at x ≠ 0 ∧ f.at x = b ∧ ∀ j < m, x ∉ tablePath p j

theorem surplus_iff (D : Dense p n f) (hmn : m ≤ n) {b : Nat} : Surplus p n m f b ↔
    ∃ x, (tree p).Valid x ∧ m + tables p m ≤ (tree p).seq x ∧ (tree p).seq x < n + tables p n
      ∧ f.at x = b := by
  have hp := D.tables.pos
  have hlim := D.limit
  constructor
  · rintro (⟨j, hmj, hjn, hb⟩ | ⟨x, hx, h0, hb, hserve⟩)
    · have hl := leafPos_valid hp (Nat.lt_of_lt_of_le hjn hlim)
      rw [D.tables.getRealBlock_eq (Nat.lt_of_lt_of_le hjn hlim)] at hb
      refine ⟨leafPos p j, hl.1, ?_, Serves.seq_lt hp (Or.inl rfl) hjn, hb⟩
      have hmono := @tables_mono p (j + 1) hp m (by omega)
      rw [seq_leafPos hp]
      omega
    · refine ⟨x, hx.toValid, ?_, (D.filled x hx.toValid).mp h0, hb⟩
      by_contra hlt
      obtain ⟨j, hj, hs⟩ := exists_serves hp hx.toValid (hmn.trans hlim) (Nat.lt_of_not_le hlt)
      rcases hs with rfl | hs
      · exact (leafPos_valid hp (Nat.lt_of_lt_of_le hj (hmn.trans hlim))).2 hx
      · exact hserve j hj hs
  · rintro ⟨x, hx, hge, hlt, hb⟩
    obtain ⟨j, hj, hs⟩ := exists_serves hp hx hlim hlt
    rcases hs with rfl | hs
    · refine Or.inl ⟨j, ?_, hj, ?_⟩
      · by_contra hjm
        have := @Serves.seq_lt p m (leafPos p j) hp j (Or.inl rfl) (by omega)
        omega
      · rw [D.tables.getRealBlock_eq (Nat.lt_of_lt_of_le hj hlim)]
        exact hb
    · have ht := tablePath_table hp (Nat.lt_of_lt_of_le hj hlim) x hs
      refine Or.inr ⟨x, ht, (D.filled x hx).mpr hlt, hb, fun i hi hmem => ?_⟩
      have := @Serves.seq_lt p m x hp i (Or.inr hmem) hi
      omega

end Tail

/-! ## The loop -/

/-- The file with the blocks at the positions from `q` to `e` given back. -/
structure Stripped (p : Nat) (f : File) (e q : Nat) (g : File) : Prop where
  owned : Owned p g
  filled : Filled (tree p) (iBlock g.ino) (entry g.fs) q
  no : g.no = f.no
  head : SameHead f.ino g.ino
  kept : ∀ x, (tree p).Valid x → (tree p).seq x < q → g.at x = f.at x
  freed : ∃ bs, (∀ b, b ∈ bs ↔ ∃ x, (tree p).Valid x ∧ q ≤ (tree p).seq x
    ∧ (tree p).seq x < e ∧ f.at x = b) ∧ BitRun bs false (own p f) f.fs g.fs

section Loop

variable {p n m e q k : Nat} {f g : File}

theorem Stripped.refl (O : Owned p f) (hf : Filled (tree p) (iBlock f.ino) (entry f.fs) q) :
    Stripped p f q q f := by
  refine ⟨O, hf, rfl, SameHead.refl _, fun _ _ _ => rfl, [], fun b => ?_,
    (BitRun.refl f.fs).mono (Set.empty_subset _)⟩
  constructor
  · exact fun h => nomatch h
  · rintro ⟨x, -, h1, h2, -⟩
    omega

/-- One block that is looked for in the right place. -/
theorem Stripped.step (h : Stripped p f e (q + 1) g) (hqe : q < e) (hq : Reached p q) :
    ∃ g', freeInodeBlock g q = some (.success, g') ∧ Stripped p f e q g' := by
  have O := h.owned
  obtain ⟨y, hty, hseq⟩ := target_right O.tables.pos hq
  have hy := target_valid hty
  have h0 : g.at y ≠ 0 := (h.filled y hy).mpr (by omega)
  have hkept := h.kept y hy (by omega)
  have hbare : (tree p).Table y → ∀ i < p, g.at (y.child i) = 0 := fun ht i hi => by
    rw [File.at, node_child]
    exact h.filled.nothing_below ht (by omega) hi
  obtain ⟨g', hg', hu⟩ := freeInodeBlock_unlinks O hty h0
  have hlink := hu.relinked hbare
  refine ⟨g', hg', hu.owned O hy h0 hbare, h.filled.remove hy hseq hlink, hu.no.trans h.no,
    h.head.trans hu.head, fun x hx hlt => ?_, ?_⟩
  · have heq : g'.at x = if x = y then 0 else g.at x := hlink x hx
    rw [heq, if_neg fun hxy : x = y => by rw [hxy] at hlt; omega]
    exact h.kept x hx (by omega)
  · obtain ⟨bs, hbs, hrun⟩ := h.freed
    refine ⟨bs ++ [g.at y], fun b => ?_, (hrun.trans hu.run).mono ?_⟩
    · rw [List.mem_append, List.mem_singleton, hbs]
      constructor
      · rintro (⟨x, hx, h1, h2, hb⟩ | hb)
        · exact ⟨x, hx, Nat.le_of_succ_le h1, h2, hb⟩
        · exact ⟨y, hy, Nat.le_of_eq hseq.symm, by omega, by rw [hb, hkept]⟩
      · rintro ⟨x, hx, h1, h2, hb⟩
        rcases Nat.eq_or_lt_of_le h1 with heq | hlt
        · have hxy := Shape.seq_inj hx hy (heq.symm.trans hseq.symm)
          exact Or.inr (by rw [← hb, hxy, hkept])
        · exact Or.inl ⟨x, hx, hlt, h2, hb⟩
    · refine Set.union_subset Set.Subset.rfl ?_
      rintro b (hb | ⟨x, hx, hx0, hb⟩)
      · exact Or.inl (by rw [hb, h.no, hrun.format.home])
      · have hxk := h.kept x hx.toValid ((h.filled x hx.toValid).mp hx0)
        exact Or.inr ⟨x, hx, hxk ▸ hx0, hxk ▸ hb⟩

/-- The loop while it looks in the right places. -/
theorem Stripped.loop (h : Stripped p f e (q + k) g) (hqe : q + k ≤ e)
    (hq : ∀ o, q ≤ o → o < q + k → Reached p o) :
    ∃ g', freeLoop k g (q + k) = some (.success, g') ∧ Stripped p f e q g' := by
  induction k generalizing g with
  | zero => exact ⟨g, rfl, h⟩
  | succ k ih =>
      obtain ⟨g₁, hg₁, hs⟩ := @Stripped.step p e (q + k) f g h (by omega)
        (hq (q + k) (by omega) (by omega))
      obtain ⟨g', hg', hs'⟩ := ih hs (by omega) fun o ho ho' => hq o ho (by omega)
      refine ⟨g', ?_, hs'⟩
      rw [freeLoop, sub32_of_le (by omega), show q + (k + 1) - 1 = q + k by omega, hg₁]
      exact hg'

end Loop

/-! ## Where the loop goes wrong -/

section Wrong

variable {p n m k off last o q : Nat} {f f' g g' : File} {y : Pos} {st : Status}

theorem File.free_mount (f : File) (b : Nat) : SameMount f.fs (f.free b).fs := by
  unfold File.free freeBlock
  split
  · exact SameMount.refl _
  · exact commit_sameMount ..

/-- A failure leaves the file alone, a success keeps the mount. -/
def Ends (f : File) (res : Option (Status × File)) : Prop :=
  ∀ st f', res = some (st, f') → (st = .badBlock ∧ f' = f) ∨ st = .success ∧ SameMount f.fs f'.fs

theorem Ends.success (h : SameMount f.fs f'.fs) : Ends f (some (.success, f')) := by
  rintro st' f'' heq
  obtain ⟨rfl, rfl⟩ := Prod.mk.inj (Option.some.inj heq)
  exact Or.inr ⟨rfl, h⟩

theorem Ends.ite {c : Prop} [Decidable c] {a b : Option (Status × File)} (ha : Ends f a)
    (hb : Ends f b) : Ends f (if c then a else b) := by
  split
  · exact ha
  · exact hb

theorem freeEntry_ends (f : File) (t : Nat) (tmp : Mem) (i : Nat) :
    Ends f (freeEntry f t tmp i) :=
  .ite (.success ((f.free_mount _).trans (writeBlock_sameMount ..))) fun _ _ h => nomatch h

theorem freeInodeBlock_ends (f : File) (off : Nat) : Ends f (freeInodeBlock f off) := by
  have hroot : ∀ k, Ends f (some (.success, freeRoot f k)) := fun k =>
    .success (f.free_mount _)
  have hbad : Ends f (some (.badBlock, f)) := by
    rintro st' f'' heq
    obtain ⟨rfl, rfl⟩ := Prod.mk.inj (Option.some.inj heq)
    exact Or.inl ⟨rfl, rfl⟩
  have hnone : Ends f none := fun _ _ h => nomatch h
  have hentry := fun {t tmp i} => freeEntry_ends f t tmp i
  simp only [freeInodeBlock]
  refine .ite (hroot _) (.ite (.ite hbad (.ite (hroot _) hentry)) (.ite ?_ ?_))
  · exact .ite hbad (.ite (hroot _) (.ite hentry (.ite (.ite hbad hentry) hnone)))
  · exact .ite hbad (.ite (hroot _) (.ite hentry (.ite (.ite hbad (.ite hentry
      (.ite (.ite hbad hentry) hnone))) hnone)))

theorem freeInodeBlock_mount {off : Nat} (h : freeInodeBlock f off = some (st, f')) :
    SameMount f.fs f'.fs := by
  rcases freeInodeBlock_ends f off st f' h with ⟨-, rfl⟩ | ⟨-, h⟩
  · exact SameMount.refl _
  · exact h

/-- No block is looked for beyond its place in the traversal. -/
theorem seq_target_le (hp : 1 < p) (hlt : off < 15 + 3 * p + 2 * (p * p) + p * p * p)
    (ht : target p off = some y) : (tree p).seq y ≤ off := by
  rcases Nat.lt_or_ge (17 + 3 * p + p * p) off with h | h
  · obtain ⟨c, r, -, -, hoff, hseq, -⟩ := target_triple_stray hp h hlt ht
    have hmul : c * (1 + p) ≤ c * (p * p + p) :=
      Nat.mul_le_mul_left c (Nat.add_le_add_right (Nat.mul_pos (by omega) (by omega)) p)
    omega
  by_cases hright : Reached p off
  · obtain ⟨z, hz, hseq⟩ := target_right (by omega) hright
    obtain rfl := Option.some.inj (hz.symm.trans ht)
    exact Nat.le_of_eq hseq
  · -- the others have no place
    have hnone : target p off = none := by
      unfold Reached at hright
      by_cases hedge : off = 17 + 3 * p + p * p
      · rw [hedge]
        exact target_triple_none hp
      · exact target_double_none (by omega) (by omega) (by omega)
    exact nomatch hnone.symm.trans ht

/-- `free_inode_block` on a block that an inode without gaps has: it fails and
does nothing, or gives back some block of the inode. -/
theorem freeInodeBlock_cases (O : Owned p f) (hp : 1 < p)
    (hf : Filled (tree p) (iBlock f.ino) (entry f.fs) q) (hoff : off < q)
    (hlt : off < 15 + 3 * p + 2 * (p * p) + p * p * p)
    (h : freeInodeBlock f off = some (st, f')) :
    (st = .badBlock ∧ f' = f) ∨ st = .success
      ∧ ∃ y, (tree p).Valid y ∧ f.at y ≠ 0 ∧ Unlinked p f y f' := by
  rcases freeInodeBlock_ends f off st f' h with h' | ⟨rfl, -⟩
  · exact Or.inl h'
  · refine Or.inr ⟨rfl, ?_⟩
    cases ht : target p off with
    | none => exact absurd h (freeInodeBlock_no_target (by rwa [O.ptrs]))
    | some y =>
        have hy := target_valid ht
        have hseq := seq_target_le hp hlt ht
        have h0 : f.at y ≠ 0 := (hf y hy).mpr (by omega)
        obtain ⟨f₂, heq, hu⟩ := freeInodeBlock_unlinks O ht h0
        obtain ⟨-, rfl⟩ := Prod.mk.inj (Option.some.inj (heq.symm.trans h))
        exact ⟨y, hy, h0, hu⟩

theorem freeLoop_cons (h : freeLoop (k + 1) g last = some (.success, g')) :
    ∃ g₁, freeInodeBlock g (sub32 last 1) = some (.success, g₁)
      ∧ freeLoop k g₁ (sub32 last 1) = some (.success, g') := by
  rw [freeLoop] at h
  split at h
  · rename_i g₁ heq
    exact ⟨g₁, heq, h⟩
  · rename_i hne
    exact absurd h (hne g')

/-- A successful loop has looked inside the tables throughout. -/
theorem freeLoop_target (h : freeLoop k g last = some (.success, g')) (hk : k ≤ last)
    (hlo : last ≤ o + k) (hhi : o < last) : target (ptrs g.fs) o ≠ none := by
  induction k generalizing g last with
  | zero => omega
  | succ k ih =>
      obtain ⟨g₁, hstep, hrest⟩ := freeLoop_cons h
      rw [sub32_of_le (by omega)] at hstep hrest
      rcases Nat.eq_or_lt_of_le (Nat.le_sub_one_of_lt hhi) with heq | hlt
      · rw [heq]
        exact fun hnone => freeInodeBlock_no_target hnone hstep
      · have hrec := ih hrest (by omega) (by omega) hlt
        rwa [Ext2.ptrs, (freeInodeBlock_mount hstep).blockSz] at hrec

/-- Far below the triply indirect table, the places for two blocks in a row
are next to each other, and the earlier one is a content block. -/
theorem target_stray_succ (hp : 1 < p) (h : 17 + 3 * p + p * p < off)
    (hlt : off + 1 < 15 + 3 * p + 2 * (p * p) + p * p * p) {z : Pos}
    (hy : target p (off + 1) = some y) (hz : target p off = some z) :
    ¬(tree p).Table y ∧ (tree p).seq z + 1 = (tree p).seq y := by
  have hpp := Nat.mul_lt_mul_of_pos_right hp (Nat.zero_lt_of_lt hp)
  obtain ⟨c, r, -, hr, hoff, hseq, htable⟩ := target_triple_stray hp (by omega) hlt hy
  obtain ⟨c', r', -, hr', hoff', hseq', -⟩ := target_triple_stray hp h (by omega) hz
  have hsame : c = c' ∧ r = r' + 1 := by
    have heq : c * (p * p + p) + r = c' * (p * p + p) + (r' + 1) := by omega
    have hdiv := congrArg (· / (p * p + p)) heq
    have hmod := congrArg (· % (p * p + p)) heq
    simp only [div_block (show r < p * p + p by omega),
      div_block (show r' + 1 < p * p + p by omega)] at hdiv
    simp only [mod_block (show r < p * p + p by omega),
      mod_block (show r' + 1 < p * p + p by omega)] at hmod
    exact ⟨hdiv, hmod⟩
  obtain ⟨rfl, rfl⟩ := hsame
  rw [htable]
  exact ⟨Nat.succ_ne_zero r', by omega⟩

/-- There the loop clears bits of the blocks it looks at. -/
theorem freeLoop_stray (hp : 1 < p) (O : Owned p g)
    (hlo : 17 + 3 * p + p * p + k < last) (hhi : last ≤ 15 + 3 * p + 2 * (p * p) + p * p * p)
    (hlive : ∀ y z, target p (last - 1) = some y → (tree p).Valid z →
      (tree p).seq z ≤ (tree p).seq y → g.at z ≠ 0)
    (h : freeLoop k g last = some (.success, g')) :
    ∃ bs S, BitRun bs false S g.fs g'.fs
      ∧ ∀ y, 0 < k → target p (last - 1) = some y → g.at y ∈ bs := by
  induction k generalizing g last with
  | zero =>
      obtain ⟨-, rfl⟩ := Prod.mk.inj (Option.some.inj h)
      exact ⟨[], _, BitRun.refl _, fun _ h => absurd h (Nat.lt_irrefl 0)⟩
  | succ k ih =>
      obtain ⟨g₁, hstep, hrest⟩ := freeLoop_cons h
      rw [sub32_of_le (by omega)] at hstep hrest
      obtain ⟨y, hy⟩ : ∃ y, target p (last - 1) = some y := by
        refine Option.ne_none_iff_exists'.mp ?_
        have := freeLoop_target h (by omega) (show last ≤ last - 1 + (k + 1) by omega) (by omega)
        rwa [O.ptrs] at this
      have hv := target_valid hy
      have h0 := hlive y y hy hv (Nat.le_refl _)
      obtain ⟨g₁', hstep', hu⟩ := freeInodeBlock_unlinks O hy h0
      obtain rfl : g₁ = g₁' := by
        rw [hstep] at hstep'
        exact (Prod.mk.inj (Option.some.inj hstep')).2
      suffices hrun : ∃ bs S, BitRun bs false S g₁.fs g'.fs by
        obtain ⟨bs, S, hrun⟩ := hrun
        refine ⟨_, _, hu.run.trans hrun, fun y' _ hy' => ?_⟩
        rw [hy] at hy'
        rw [← Option.some.inj hy']
        exact List.mem_append_left _ (List.mem_singleton_self _)
      cases k with
      | zero =>
          obtain ⟨-, rfl⟩ := Prod.mk.inj (Option.some.inj hrest)
          exact ⟨[], _, BitRun.refl _⟩
      | succ k =>
          -- there is another block before this one, so this is not a table
          have hbelow : ∀ z, target p (last - 1 - 1) = some z → ¬(tree p).Table y
              ∧ (tree p).seq z + 1 = (tree p).seq y := fun z hz =>
            @target_stray_succ p (last - 1 - 1) y hp (by omega) (by omega) z
              (by rwa [show last - 1 - 1 + 1 = last - 1 by omega]) hz
          have hnext : target (ptrs g₁.fs) (last - 1 - 1) ≠ none :=
            freeLoop_target hrest (by omega) (by omega) (by omega)
          rw [hu.run.ptrs, O.ptrs] at hnext
          obtain ⟨z, hz⟩ := Option.ne_none_iff_exists'.mp hnext
          have hbare : (tree p).Table y → ∀ i < p, g.at (y.child i) = 0 := fun ht =>
            absurd ht (hbelow z hz).1
          obtain ⟨bs, S, hrun, -⟩ := ih (hu.owned O hv h0 hbare) (by omega) (by omega) (by
            intro z' w hz' hw hle
            have hlt := (hbelow z' hz').2
            have heq : g₁.at w = if w = y then 0 else g.at w := hu.relinked hbare w hw
            rw [heq, if_neg fun hwy : w = y => by rw [hwy] at hle; omega]
            exact hlive y w hy hw (by omega)) hrest
          exact ⟨bs, S, hrun⟩

end Wrong

/-! ## `free_inode_blocks` -/

section Ends

variable {p : Nat}

/-- The numbers at which the blocks of an inode change over to another table. -/
theorem tables_ends (hp : 1 < p) :
    tables p (12 + 2 * p) = 3 ∧ tables p (13 + 2 * p) = 4 ∧ tables p (12 + p + p * p) = 2 + p
      ∧ tables p (12 + 2 * p + p * p) = 5 + p ∧ tables p (13 + 2 * p + p * p) = 6 + p
      ∧ tables p (maxBlocks p) = 3 + 2 * p + p * p := by
  have hpos : 0 < p := Nat.zero_lt_of_lt hp
  have hpp := Nat.mul_lt_mul_of_pos_right hp hpos
  have hppp := Nat.mul_lt_mul_of_pos_right hp (Nat.mul_pos hpos hpos)
  have hassoc : p * (p * p) = p * p * p := (Nat.mul_assoc p p p).symm
  have hpred : ∀ {a b : Nat}, 0 < a → 0 < b → (b * a - 1) / a = b - 1 := fun {a b} ha hb => by
    obtain ⟨c, rfl⟩ := Nat.exists_eq_add_of_lt hb
    rw [Nat.zero_add, Nat.add_mul, Nat.one_mul, Nat.add_sub_assoc ha, Nat.mul_comm,
      Nat.mul_add_div ha, Nat.div_eq_of_lt (by omega)]
    omega
  refine ⟨?_, ?_, ?_, ?_, ?_, ?_⟩
  · rw [show 12 + 2 * p = 12 + p + (p - 1 + 1) by omega, tables_double (by omega),
      Nat.div_eq_of_lt (by omega)]
  · rw [show 13 + 2 * p = 12 + p + (p + 1) by omega, tables_double (by omega), Nat.div_self hpos]
  · rw [show 12 + p + p * p = 12 + p + (p * p - 1 + 1) by omega, tables_double (by omega),
      hpred hpos hpos]
    omega
  · rw [show 12 + 2 * p + p * p = 12 + p + p * p + (p - 1 + 1) by omega, tables_triple,
      Nat.div_eq_of_lt (by omega), Nat.div_eq_of_lt (by omega)]
    rfl
  · rw [show 13 + 2 * p + p * p = 12 + p + p * p + (p + 1) by omega, tables_triple,
      Nat.div_eq_of_lt (by omega), Nat.div_self hpos]
    omega
  · rw [maxBlocks, show 12 + p + p * p + p * p * p = 12 + p + p * p + (p * p * p - 1 + 1) by omega,
      tables_triple, hpred hpos (Nat.mul_pos hpos hpos), ← hassoc, hpred (Nat.mul_pos hpos hpos) hpos]
    omega

end Ends

/-- What shrinking an inode from `n` to `m` content blocks is to do. -/
structure Shrunk (p n m : Nat) (f f' : File) : Prop where
  count : iBlocks f'.ino = getBlockCount f.fs m
  freed : ∀ b < capacity .block f.fs, Surplus p n m f b → usedBit .block f'.fs b = false
  kept : ∀ b < capacity .block f.fs, ¬Surplus p n m f b →
    usedBit .block f'.fs b = usedBit .block f.fs b
  once : ∃ bs : List Nat, bs.Nodup ∧ (∀ b, b ∈ bs ↔ Surplus p n m f b)
    ∧ f'.fs.total .block = (f.fs.total .block + bs.length) % 2 ^ 32
  map : ∀ j < m, getRealBlock f'.fs f'.ino j = getRealBlock f.fs f.ino j

section Shrink

variable {p n m : Nat} {f f' : File}

theorem freeInodeBlocks_success (D : Dense p n f) (hmn : m < n) :
    freeInodeBlocks f m = some (.success, f')
      ↔ ∃ g, freeLoop (n + tables p n - (m + tables p m)) f (n + tables p n) = some (.success, g)
        ∧ f' = { g with ino := setIBlocks g.ino (getBlockCount f.fs m) } := by
  have hsz : Sized f.fs := D.volume.blockSz
  have hspb : 0 < f.fs.blockSz / 512 := Nat.zero_lt_of_lt hsz.geometry.spb
  have hlt : sectors f.fs m < sectors f.fs n := sectors_lt hsz hmn
  have hcount : getBlockCount f.fs m = sectors f.fs m := getBlockCount_eq hsz (hlt.trans D.small)
  simp only [freeInodeBlocks, D.count]
  rw [if_neg (by omega), hcount, sectors, sectors, D.ptrs, ← Nat.sub_mul, Nat.mul_div_cancel _ hspb,
    Nat.mul_div_cancel _ hspb]
  generalize freeLoop (n + tables p n - (m + tables p m)) f (n + tables p n) = res
  constructor
  · intro h
    split at h
    · rename_i g
      exact ⟨g, rfl, (Prod.mk.inj (Option.some.inj h)).2.symm⟩
    · rename_i hne
      exact absurd h (hne f')
  · rintro ⟨g, rfl, rfl⟩
    rfl

/-- What the loop leaves is what shrinking is to do, once the block count is
set. -/
theorem Shrunk.of_stripped (D : Dense p n f) (hmn : m < n) {g : File}
    (h : Stripped p f (n + tables p n) (m + tables p m) g) :
    Shrunk p n m f { g with ino := setIBlocks g.ino (getBlockCount f.fs m) } := by
  obtain ⟨bs, hbs, hrun⟩ := h.freed
  have hp := D.tables.pos
  have hsur : ∀ b, b ∈ bs ↔ Surplus p n m f b := fun b =>
    (hbs b).trans (surplus_iff D (Nat.le_of_lt hmn)).symm
  refine ⟨iBlocks_setIBlocks _ (getBlockCount_lt _ _), fun b hb hs => ?_, fun b hb hs => ?_,
    ⟨bs, hrun.nodup, hsur, hrun.total⟩, fun j hj => ?_⟩
  · show usedBit .block g.fs b = false
    rw [hrun.bits b hb, if_pos ((hsur b).mpr hs)]
  · show usedBit .block g.fs b = _
    rw [hrun.bits b hb, if_neg fun hm => hs ((hsur b).mp hm)]
  · have hjmax : j < maxBlocks p := Nat.lt_of_lt_of_le (hj.trans hmn) D.limit
    have hread : getRealBlock g.fs (setIBlocks g.ino (getBlockCount f.fs m)) j
        = getRealBlock g.fs g.ino j := by
      simp only [getRealBlock, iBlock_setIBlocks]
    show getRealBlock g.fs (setIBlocks g.ino (getBlockCount f.fs m)) j = _
    rw [hread, h.owned.tables.getRealBlock_eq hjmax, D.tables.getRealBlock_eq hjmax]
    exact h.kept _ (leafPos_valid hp hjmax).1 (Serves.seq_lt hp (Or.inl rfl) hj)

/-- With everything that is freed far below the triply indirect table, the
first block that is freed is one to be kept. -/
theorem stray_not_shrunk (D : Dense p n f) (hp : 1 < p) (hmn : m < n)
    (hm : 12 + 2 * p + p * p < m) {g : File}
    (hloop : freeLoop (n + tables p n - (m + tables p m)) f (n + tables p n) = some (.success, g)) :
    ¬Shrunk p n m f { g with ino := setIBlocks g.ino (getBlockCount f.fs m) } := by
  intro hs
  obtain ⟨-, -, -, -, e5, e6⟩ := tables_ends hp
  have hmono := fun {a b : Nat} (h : a ≤ b) => @tables_mono p b (Nat.zero_lt_of_lt hp) a h
  have hpp := Nat.mul_lt_mul_of_pos_right hp (Nat.zero_lt_of_lt hp)
  have hpp2 : p * 2 ≤ p * p := Nat.mul_le_mul_left p hp
  have htm := hmono (show 13 + 2 * p + p * p ≤ m by omega)
  have htn := hmono (Nat.le_of_lt hmn)
  have hlim := hmono D.limit
  have hmax := D.limit
  unfold maxBlocks at hmax
  obtain ⟨e, he⟩ : ∃ e, e = n + tables p n := ⟨_, rfl⟩
  obtain ⟨q, hq⟩ : ∃ q, q = m + tables p m := ⟨_, rfl⟩
  rw [← he, ← hq] at hloop
  have hinside : ∀ o, q ≤ o → o < e → ∃ y, target p o = some y := by
    intro o ho ho'
    have := freeLoop_target hloop (Nat.sub_le _ _) (show e ≤ o + (e - q) by omega) ho'
    rw [D.ptrs] at this
    exact Option.ne_none_iff_exists'.mp this
  obtain ⟨y, hy⟩ := hinside (e - 1) (by omega) (by omega)
  obtain ⟨c, r, hc, hr, hoff, hseq, -⟩ := target_triple_stray hp (by omega) (by omega) hy
  -- the loop ends before it gets to the next table
  have hshort : e ≤ q + r + 1 := by
    by_contra hlong
    obtain ⟨z, hz⟩ := hinside (e - 2 - r) (by omega) (by omega)
    obtain ⟨c', r', -, hr', hoff', -⟩ := target_triple_stray hp (by omega) (by omega) hz
    have heq : c' * (p * p + p) + (r' + 1) = c * (p * p + p) + 0 := by omega
    have hmod := congrArg (· % (p * p + p)) heq
    simp only [mod_block (show r' + 1 < p * p + p by omega),
      mod_block (show 0 < p * p + p by omega)] at hmod
    exact absurd hmod (Nat.succ_ne_zero r')
  have hgap : (tree p).seq y < q := by
    have hmul : c * (p * p + p) = c * (1 + p) + c * (p * p - 1) := by
      rw [← Nat.mul_add]
      congr 1
      omega
    have hle := Nat.le_mul_of_pos_left (p * p - 1) hc
    omega
  have hv := target_valid hy
  obtain ⟨bs, S, hrun, hbs⟩ := freeLoop_stray hp D.toOwned
    (show 17 + 3 * p + p * p + (e - q) < e by omega) (by omega) (fun y' z hy' hz hle => by
      rw [hy] at hy'
      rw [← Option.some.inj hy'] at hle
      exact (D.filled z hz).mpr (by omega)) hloop
  have hmem := hbs y (by omega) hy
  have h0 : f.at y ≠ 0 := (D.filled y hv).mpr (by omega)
  have hb := D.block y hv h0
  have hkept := hs.kept (f.at y) hb.lt fun hsur => by
    obtain ⟨x, hx, hge, -, heq⟩ := (surplus_iff D (Nat.le_of_lt hmn)).mp hsur
    have hyx := D.separate y x hv hx h0 heq.symm
    rw [← hyx] at hge
    omega
  rw [hb.used] at hkept
  change usedBit .block g.fs (f.at y) = true at hkept
  rw [hrun.bits _ hb.lt, if_pos hmem] at hkept
  cases hkept

/-- **Shrinking frees the tail of an inode when it reaches no further** than the
first table below the doubly indirect one, or stays between the triply indirect
table and the end of the first table below its first. -/
theorem freeInodeBlocks_shrinks_iff (D : Dense p n f) (hmn : m < n) :
    (∃ f', freeInodeBlocks f m = some (.success, f') ∧ Shrunk p n m f f')
      ↔ n ≤ 12 + 2 * p ∨ 12 + p + p * p ≤ m ∧ n ≤ 12 + 2 * p + p * p := by
  have hp := D.tables.pos
  have hp1 : 1 < p := by
    have hge := D.volume.toLayout.blockSz_ge
    rw [← D.ptrs, Ext2.ptrs]
    omega
  obtain ⟨e1, e2, e3, e4, e5, e6⟩ := tables_ends hp1
  have hmono := fun {a b : Nat} (h : a ≤ b) => @tables_mono p b hp a h
  have hlim := hmono D.limit
  have hends := hmono (Nat.le_of_lt hmn)
  have hmax := D.limit
  unfold maxBlocks at hmax
  constructor
  · rintro ⟨f', hrun, hs⟩
    -- the loop has succeeded, so every block has been looked for inside a table
    obtain ⟨g, hloop, rfl⟩ := (freeInodeBlocks_success D hmn).mp hrun
    have hinside : ∀ o, m + tables p m ≤ o → o < n + tables p n → target p o ≠ none := by
      intro o ho ho'
      rw [← D.ptrs] at *
      exact freeLoop_target hloop (Nat.sub_le _ _) (by omega) ho'
    by_contra hcond
    have hn : 12 + 2 * p < n := by omega
    have hpp := Nat.mul_lt_mul_of_pos_right hp1 hp
    have htn := hmono (show 13 + 2 * p ≤ n by omega)
    rcases Nat.lt_or_ge m (12 + p + p * p) with hm | hm
    · -- a block of the second table below the doubly indirect one is freed
      have htm := hmono (Nat.le_of_lt hm)
      exact hinside (max (m + tables p m) (15 + 2 * p)) (Nat.le_max_left _ _) (by omega)
        (target_double_none hp (Nat.le_max_right _ _) (by omega))
    have hn' : 12 + 2 * p + p * p < n := by omega
    have htn' := hmono (show 13 + 2 * p + p * p ≤ n by omega)
    rcases Nat.lt_or_ge (12 + 2 * p + p * p) m with hm' | hm'
    · exact stray_not_shrunk D hp1 hmn hm' hloop hs
    · have htm := hmono hm'
      exact hinside (17 + 3 * p + p * p) (by omega) (by omega) (target_triple_none hp1)
  · intro hcond
    have hreach : ∀ o, m + tables p m ≤ o → o < m + tables p m
        + (n + tables p n - (m + tables p m)) → Reached p o := by
      intro o ho ho'
      rcases hcond with hn | ⟨hm, hn⟩
      · have := hmono hn
        exact Or.inl (by omega)
      · have := hmono hn
        have := hmono hm
        exact Or.inr (by omega)
    have hfill : Stripped p f (n + tables p n) (m + tables p m
        + (n + tables p n - (m + tables p m))) f := by
      rw [show m + tables p m + (n + tables p n - (m + tables p m)) = n + tables p n by omega]
      exact Stripped.refl D.toOwned D.filled
    obtain ⟨g, hg, hstrip⟩ := hfill.loop (by omega) hreach
    rw [show m + tables p m + (n + tables p n - (m + tables p m)) = n + tables p n by omega] at hg
    exact ⟨_, (freeInodeBlocks_success D hmn).mpr ⟨g, hg, rfl⟩, Shrunk.of_stripped D hmn hstrip⟩

end Shrink

/-! ## An inode of 525 blocks -/

/-- A 1 MiB volume with one group, all of whose blocks are in use; `tab b i` is
entry `i` of the table in block `b`. -/
def fullFs (tab : Nat → Nat → Nat) : Fs :=
  let zero : Mem := fun _ => 0
  let sb := wr32 (wr32 zero 32 1024) 40 32
  let bgdt := wr32 (wr32 (wr32 zero 0 3) 4 4) 8 5
  { sb := sb
    bgdt := bgdt
    dev := fun x =>
      if x / 1024 = 1 then sb (x - 1024)
      else if x / 1024 = 2 then bgdt (x - 2048)
      else if x / 1024 = 3 ∨ x / 1024 = 4 then 255
      else UInt8.ofNat (tab (x / 1024) (x % 1024 / 4) / 256 ^ (x % 4))
    devSz := 1048576
    blockSz := 1024
    inodesPerGroup := 32
    bgdtSz := 1
    inodeSz := 128
    bgdtBlockSz := 1
    bgdtOff := 2
    rw := true
    fresh := zero
    critical := 0 }

section FullFs

variable {tab : Nat → Nat → Nat}

theorem fullFs_perGroup (K : Kind) :
    (fullFs tab).perGroup K = match K with | .block => 1024 | .inode => 32 := by
  cases K
  · exact (rd32_wr32_of_disjoint (by decide)).trans (rd32_wr32_same _ (by decide))
  · exact rd32_wr32_same _ (by decide)

theorem fullFs_bitmapNo (K : Kind) : (fullFs tab).bitmapNo K 0 = 3 + K.first := by
  cases K
  · exact (rd32_wr32_of_disjoint (by decide)).trans
      ((rd32_wr32_of_disjoint (by decide)).trans (rd32_wr32_same _ (by decide)))
  · exact (rd32_wr32_of_disjoint (by decide)).trans (rd32_wr32_same _ (by decide))

theorem fullFs_bookBlocks : bookBlocks (fullFs tab) = [1, 2, 3, 4] := by
  have hsb : sbBlock (fullFs tab) = 1 := show 1024 / 1024 = 1 by decide
  have hsz : (fullFs tab).bgdtSz = 1 := rfl
  have hbsz : (fullFs tab).bgdtBlockSz = 1 := rfl
  have hoff : (fullFs tab).bgdtOff = 2 := rfl
  simp [bookBlocks, hsb, hsz, hbsz, hoff, List.range_succ, fullFs_bitmapNo, Kind.first]

theorem fullFs_capacity : capacity .block (fullFs tab) = 1024 := by
  rw [capacity, fullFs_perGroup]
  exact Nat.one_mul 1024

theorem fullFs_inVol {b : Nat} (hb : 0 < b) (hb' : b < 1024) : InVol (fullFs tab) b :=
  ⟨hb, show (b + 1) * 1024 ≤ 1048576 by omega⟩

theorem fullFs_used {b : Nat} (hb : b < 1024) : usedBit .block (fullFs tab) b = true := by
  have hbyte : ∀ i < 1024, blk (fullFs tab) 3 i = 255 := fun i hi => by
    have hdiv : (3 * 1024 + i) / 1024 = 3 := div_block hi
    show (fullFs tab).dev (3 * 1024 + i) = 255
    simp [fullFs, hdiv]
  have hword : wordAt (blk (fullFs tab) 3) (b / 32) = 2 ^ 32 - 1 := by
    have hval : (255 : UInt8).toNat = 255 := rfl
    simp only [wordAt, rd32, rd16, rd8, hbyte _ (show 4 * (b / 32) < 1024 by omega),
      hbyte _ (show 4 * (b / 32) + 1 < 1024 by omega), hbyte _ (show 4 * (b / 32) + 2 < 1024 by omega),
      hbyte _ (show 4 * (b / 32) + 2 + 1 < 1024 by omega), hval]
    norm_num
  have hgroup : b / 1024 = 0 := Nat.div_eq_of_lt hb
  have hmod : b % 1024 = b := Nat.mod_eq_of_lt hb
  rw [usedBit, fullFs_perGroup]
  simp only [hgroup, hmod, fullFs_bitmapNo]
  show bitAt (blk (fullFs tab) 3) b = true
  rw [bitAt, hword, Nat.testBit_two_pow_sub_one]
  exact decide_eq_true (Nat.mod_lt b (by decide))

theorem fullFs_volume : Volume (fullFs tab) where
  dev := show 1048576 ≤ 2 ^ 32 by decide
  blockSz := ⟨0, by decide, rfl⟩
  sbIn := show 1024 + 236 ≤ 1048576 by decide
  bgdtOff := rfl
  bgdtFits := show 32 * 1 ≤ 1 * 1024 by decide
  words := fun K => by rw [fullFs_perGroup]; cases K <;> rfl
  fits := fun K => by rw [fullFs_perGroup]; cases K <;> exact show _ ≤ 8 * 1024 by decide
  numbers := fun K => by rw [fullFs_perGroup]; cases K <;> exact show 1 * _ < 2 ^ 32 by decide
  distinct := by rw [fullFs_bookBlocks]; decide
  bgdtIn := fun i hi => by
    obtain rfl : i = 0 := Nat.lt_one_iff.mp hi
    exact fullFs_inVol (show 0 < 2 by decide) (show 2 < 1024 by decide)
  bitmapIn := fun K g hg => by
    obtain rfl : g = 0 := Nat.lt_one_iff.mp hg
    rw [fullFs_bitmapNo]
    exact fullFs_inVol (by omega) (by cases K <;> decide)
  book := fun b _ hlt => fullFs_used (by rwa [fullFs_capacity] at hlt)
  padded := fun b hlt hclear => by
    rw [fullFs_used (by rwa [fullFs_capacity] at hlt)] at hclear
    cases hclear
  zeroUsed := fun _ => fullFs_used (by decide)

theorem fullFs_home : home (fullFs tab) 1 = 5 := by
  have htable : (fullFs tab).inodeTable 0 = 5 := rd32_wr32_same _ (by decide)
  show ((fullFs tab).inodeTable (0 / 32) + 0 * 128 % 2 ^ 32 / 1024) % 2 ^ 32 = 5
  rw [Nat.zero_div, htable]
  rfl

theorem fullFs_homed : Homed (fullFs tab) 1 where
  numbered := ⟨by decide, show 0 / 32 ≤ 1 by decide⟩
  inVol := by rw [fullFs_home]; exact fullFs_inVol (by decide) (by decide)
  notBook := by rw [fullFs_home, fullFs_bookBlocks]; decide
  fits := show 0 + 128 ≤ 1024 by decide
  size := show 128 ≤ 128 by decide

theorem fullFs_entry {b i : Nat} (hb : 4 < b) (hi : i < 256) (hv : tab b i < 2 ^ 32) :
    entry (fullFs tab) b i = tab b i := by
  have hbyte : ∀ k < 4, rd8 (blk (fullFs tab) b) (4 * i + k) = tab b i / 256 ^ k % 256 := by
    intro k hk
    have hdiv : (b * 1024 + (4 * i + k)) / 1024 = b := div_block (by omega)
    have hmod : (b * 1024 + (4 * i + k)) % 1024 = 4 * i + k := mod_block (by omega)
    have hmod4 : (b * 1024 + (4 * i + k)) % 4 = k := by omega
    have hidx : (4 * i + k) / 4 = i := by omega
    show ((fullFs tab).dev (b * 1024 + (4 * i + k))).toNat = _
    simp only [fullFs, hdiv, hmod, hmod4, hidx]
    rw [if_neg (by omega), if_neg (by omega), if_neg (by omega), UInt8.toNat_ofNat']
  have h0 := hbyte 0 (by decide)
  have h1 := hbyte 1 (by decide)
  have h2 := hbyte 2 (by decide)
  have h3 := hbyte 3 (by decide)
  simp only [Nat.add_zero, Nat.reducePow, Nat.div_one] at h0 h1 h2 h3
  simp only [entry, rd32, rd16, Nat.add_assoc, Nat.reduceAdd, h0, h1, h2, h3]
  omega

end FullFs

/-- The pointers of a traversal of 529 positions, kept in blocks 9 to 537. -/
def longTable (b i : Nat) : Nat :=
  match b with
  | 21 => 22 + i
  | 278 => if i = 0 then 279 else if i = 1 then 536 else 0
  | 279 => 280 + i
  | 536 => if i = 0 then 537 else 0
  | _ => 0

/-- An inode of 525 content blocks, the last of them the first of the second
table below the doubly indirect one. -/
def longFile : File where
  fs := fullFs longTable
  ino := fun i =>
    if 28 ≤ i ∧ i < 32 then UInt8.ofNat (1058 / 256 ^ (i - 28))
    else if 40 ≤ i ∧ i < 92 then if i % 4 = 0 then UInt8.ofNat (9 + (i - 40) / 4) else 0
    else if i = 92 then 22 else if i = 93 then 1 else 0
  no := 1
  got := []

/-- Position `x` is in use if it is one of the first 529. -/
theorem longFile_at : ∀ x, (tree 256).Valid x → longFile.at x
    = if (tree 256).seq x < 529 then 9 + (tree 256).seq x else 0 := by
  have hentry : ∀ {b i : Nat}, 4 < b → i < 256 → longTable b i < 2 ^ 32 →
      entry longFile.fs b i = longTable b i := fullFs_entry
  refine Shape.Valid.induct (fun r hr => ?_) fun x hx i hi ih => ?_
  · have hr' : r < 15 := hr
    rcases Nat.lt_or_ge 12 r with h | h
    · rcases Nat.lt_or_ge 13 r with h' | h'
      · obtain rfl : r = 14 := by omega
        rw [seq_top, start_double, if_neg (by decide)]
        decide +kernel
      · obtain rfl : r = 13 := by omega
        rw [seq_top, start_single, if_pos (by decide)]
        decide +kernel
    · rw [seq_top, start_tree h, if_pos (by omega)]
      have hall : ∀ r < 13, iBlock longFile.ino r = 9 + r := by decide +kernel
      exact hall r (by omega)
  · have hchild := hx.seq_child i
    rcases Nat.lt_or_ge ((tree 256).seq x) 529 with hlt | hge
    · rw [if_pos hlt] at ih
      have hmove : longFile.at (x.child i) = entry longFile.fs (9 + (tree 256).seq x) i := by
        have h0 : node (iBlock longFile.ino) (entry longFile.fs) x ≠ 0 := by
          rw [show node (iBlock longFile.ino) (entry longFile.fs) x = _ from ih]
          omega
        rw [File.at, node_child, step_of_ne h0]
        exact congrArg (entry _ · i) ih
      have hi' : i < 256 := hi
      rw [hmove]
      obtain ⟨r, is⟩ := x
      have hdepth : is.length < r - 11 := hx.above
      have hroot : r < 15 := hx.root
      have hstart := Shape.start_le_seq (tree 256) ⟨r, is⟩
      change (tree 256).start r ≤ _ at hstart
      rcases (show r = 12 ∨ r = 13 ∨ r = 14 by omega) with rfl | rfl | rfl
      · obtain rfl : is = [] := List.length_eq_zero_iff.mp (by omega)
        have hpos : Pos.child ⟨12, []⟩ i = ⟨12, [i]⟩ := rfl
        rw [hpos, seq_top, start_tree (by decide),
          hentry (by decide) hi' (by simp only [longTable]; omega), seq_single, if_pos (by omega)]
        show 22 + i = 9 + (13 + i)
        omega
      · rcases is with _ | ⟨j, _ | ⟨k, is⟩⟩
        · have hpos : Pos.child ⟨13, []⟩ i = ⟨13, [i]⟩ := rfl
          have hsmall : longTable (9 + (13 + 256)) i < 2 ^ 32 := by
            simp only [longTable]
            split <;> [decide; split <;> decide]
          rw [hpos, seq_top, start_single, hentry (by decide) hi' hsmall, seq_double]
          show (if i = 0 then 279 else if i = 1 then 536 else 0) = _
          rcases (show i = 0 ∨ i = 1 ∨ 2 ≤ i by omega) with rfl | rfl | h
          · rfl
          · rfl
          · rw [if_neg (by omega), if_neg (by omega), if_neg (by omega)]
        · have hpos : Pos.child ⟨13, [j]⟩ i = ⟨13, [j, i]⟩ := rfl
          rw [hpos, seq_double, seq_double₂]
          rw [seq_double] at hlt
          rcases (show j = 0 ∨ j = 1 by omega) with rfl | rfl
          · rw [hentry (by decide) hi' (by simp only [longTable]; omega), if_pos (by omega)]
            show 280 + i = _
            omega
          · rw [hentry (by decide) hi' (by simp only [longTable]; split <;> decide)]
            show (if i = 0 then 537 else 0) = _
            rcases Nat.eq_zero_or_pos i with rfl | h
            · rfl
            · rw [if_neg (by omega), if_neg (by omega)]
        · rw [List.length_cons, List.length_cons] at hdepth
          omega
      · rw [start_double] at hstart
        omega
    · have hnull : longFile.at x = 0 := ih.trans (if_neg (by omega))
      rw [if_neg (by have := hx.seq_lt_child i; omega), File.at, node_child,
        show node (iBlock longFile.ino) (entry longFile.fs) x = 0 from hnull, step_zero]

theorem longFile_dense : Dense 256 525 longFile := by
  have hlive : ∀ x, (tree 256).Valid x → longFile.at x ≠ 0 →
      (tree 256).seq x < 529 ∧ longFile.at x = 9 + (tree 256).seq x := by
    intro x hx h0
    have heq := longFile_at x hx
    split at heq
    · exact ⟨by assumption, heq⟩
    · exact absurd heq h0
  have hhome : home longFile.fs longFile.no = 5 := fullFs_home
  refine ⟨⟨rfl, fullFs_volume, fullFs_homed, fun _ => ?_, fun x hx h0 => ?_, ?_⟩, ?_, ?_, ?_, ?_⟩
  · rw [hhome]
    exact fullFs_used (by decide)
  · obtain ⟨hlt, heq⟩ := hlive x hx h0
    rw [heq]
    refine ⟨fullFs_inVol (by omega) (by omega), ?_, by omega, ?_, fullFs_used (by omega)⟩
    · rw [show bookBlocks longFile.fs = [1, 2, 3, 4] from fullFs_bookBlocks]
      simp only [List.mem_cons, List.not_mem_nil, or_false]
      omega
    · rw [show capacity .block longFile.fs = 1024 from fullFs_capacity]
      omega
  · intro x y hx hy h0 heq
    change longFile.at x ≠ 0 at h0
    change longFile.at x = longFile.at y at heq
    have hx' := (hlive x hx h0).2
    have hy' := (hlive y hy (heq ▸ h0)).2
    exact Shape.seq_inj hx hy (by omega)
  · intro x hx
    have heq : node (iBlock longFile.ino) (entry longFile.fs) x = _ := longFile_at x hx
    rw [heq, show 525 + tables 256 525 = 529 by decide]
    split
    · exact iff_of_true (by omega) (by assumption)
    · exact iff_of_false (fun h => h rfl) (by assumption)
  · decide +kernel
  · decide +kernel
  · decide

/-- **Freeing the last block of 525 looks outside a table**: the block is
looked for in entry 256 of the first table below the doubly indirect one. -/
theorem freeInodeBlocks_outside : Dense 256 525 longFile ∧ freeInodeBlocks longFile 524 = none := by
  refine ⟨longFile_dense, ?_⟩
  have h : (freeInodeBlocks longFile 524).isNone = true := by decide +kernel
  exact Option.isNone_iff_eq_none.mp h

/-- An inode of one block that is shrunk to none. -/
theorem freeInodeBlocks_shrinks_one : ∃ f', freeInodeBlocks (allocInodeBlock emptyFile 0).2 0
    = some (.success, f') ∧ Shrunk 256 1 0 (allocInodeBlock emptyFile 0).2 f' := by
  have hempty : Dense 256 0 emptyFile := dense_empty emptyFile_ptrs freshFs_volume freshFs_homed
    (fun _ => by decide +kernel) (by decide +kernel) fun _ _ => rfl
  have hone := (allocInodeBlock_cases hempty (by decide) (by decide +kernel)).resolve_right
    fun h => absurd h.1 (by decide +kernel)
  exact (freeInodeBlocks_shrinks_iff hone.2.dense Nat.one_pos).mpr (Or.inl (by decide))

end Ext2

end Shitos
