import Shitos.Ext2Dense
import Shitos.Ext2Transfer

/-!
# The bytes of an inode

An inode with `n` content blocks is an array of bytes, `File.data`: the bytes
of its blocks, and zeros after them. Reading is reading this array
(`Mapped.readBufferInode_eq`), and writing is an update of it
(`Mapped.writeBufferInode`).

`Mapped p n f` is what an inode satisfies while it is read and written. It says
nothing about tables that no content needs. Where there are none of these, or
nothing is left to take, `Tight` keeps account of what is taken: growing to `m`
content blocks takes `need p m - need p n` of the supply (`Gained.paid`).
-/

namespace Shitos

namespace Ext2

open PtrTree

/-! ## Changes to an inode -/

/-- The blocks of the file, and the one that holds the inode. -/
def span (p : Nat) (f : File) : Set Nat :=
  {b | b = home f.fs f.no ∨ ∃ x, (tree p).Valid x ∧ f.at x ≠ 0 ∧ f.at x = b}

/-- The file has taken the blocks of `new`. Pointers have changed to these
only, and besides them only blocks of the file have been written. -/
structure Changed (p : Nat) (new : List Nat) (f f' : File) : Prop where
  no : f'.no = f.no
  got : f'.got = f.got ++ new
  pointer : ∀ x, (tree p).Valid x → f'.at x = f.at x ∨ f'.at x ∈ new
  run : BitRun new true ({b | b ∈ new} ∪ span p f) f.fs f'.fs
  home : HomeKept f f'

section Changed

variable {p : Nat} {f f₁ f' : File} {new new' : List Nat}

theorem own_subset_span (p : Nat) (f : File) : own p f ⊆ span p f := by
  rintro b (hb | ⟨x, hx, h0, hb⟩)
  · exact Or.inl hb
  · exact Or.inr ⟨x, hx.toValid, h0, hb⟩

theorem Took.changed (h : Took p new f f') : Changed p new f f' :=
  ⟨h.no, h.got, h.pointer,
    h.run.mono (Set.union_subset_union_right _ (own_subset_span p f)), h.home⟩

theorem Changed.span_subset (h : Changed p new f f') : span p f' ⊆ {b | b ∈ new} ∪ span p f := by
  rintro b (hb | ⟨x, hx, h0, hb⟩)
  · exact Or.inr (Or.inl (by rw [hb, h.no, h.run.format.home]))
  · rcases h.pointer x hx with he | hm
    · exact Or.inr (Or.inr ⟨x, hx, he ▸ h0, he.symm.trans hb⟩)
    · exact Or.inl (hb ▸ hm)

theorem Changed.trans (h : Changed p new f f₁) (h' : Changed p new' f₁ f') :
    Changed p (new ++ new') f f' := by
  refine ⟨h'.no.trans h.no, ?_, fun x hx => ?_, (h.run.trans h'.run).mono ?_,
    h.home.trans h.run.format h.no h'.home⟩
  · rw [h'.got, h.got, List.append_assoc]
  · rcases h'.pointer x hx with he | hm
    · rw [he]
      exact (h.pointer x hx).imp_right (List.mem_append_left _)
    · exact Or.inr (List.mem_append_right _ hm)
  · rintro b (hb | hb | hb)
    · exact hb.imp_left (List.mem_append_left _)
    · exact Or.inl (List.mem_append_right _ hb)
    · exact (h.span_subset hb).imp_left (List.mem_append_left _)

theorem Changed.refl (p : Nat) (f : File) : Changed p [] f f := (Took.refl p f).changed

theorem Put.changed (h : Put p f f') : Changed p [] f f' := by
  refine ⟨h.no, h.got.trans (List.append_nil _).symm, fun x hx => Or.inl (h.pointers x hx),
    h.run.mono ?_, h.home⟩
  rintro b rfl
  exact Or.inr (Or.inl rfl)

end Changed

/-! ## The bytes of an inode -/

/-- The blocks that `n` content blocks take, with their tables. -/
def need (p n : Nat) : Nat := n + tables p n

/-- Byte `x` of an inode with `n` content blocks. -/
def File.data (p n : Nat) (f : File) (x : Nat) : UInt8 :=
  if x / f.fs.blockSz < n then
    blk f.fs (f.at (leafPos p (x / f.fs.blockSz))) (x % f.fs.blockSz)
  else 0

/-- The first `n` content blocks are there and no others, and `i_blocks` counts
them. -/
structure Mapped (p n : Nat) (f : File) : Prop extends Owned p f where
  leaf : ∀ k < maxBlocks p, f.at (leafPos p k) ≠ 0 ↔ k < n
  count : iBlocks f.ino = sectors f.fs n
  small : sectors f.fs n < 2 ^ 32
  limit : n ≤ maxBlocks p

/-- There are no tables but those that `n` content blocks need, or the volume is
full. -/
def Tight (p n : Nat) (f : File) : Prop :=
  Filled (tree p) (iBlock f.ino) (entry f.fs) (need p n) ∨ Full f.fs

section Read

variable {p n k : Nat} {f f' : File} {off sz : Nat}

theorem need_mono (hp : 0 < p) {m : Nat} (h : n ≤ m) : need p n ≤ need p m :=
  Nat.add_le_add h (tables_mono hp h)

theorem Dense.mapped (D : Dense p n f) : Mapped p n f := by
  have hp := D.tables.pos
  refine ⟨D.toOwned, fun k hk => ?_, D.count, D.small, D.limit⟩
  rw [show f.at (leafPos p k) ≠ 0 ↔ _ from D.filled _ (leafPos_valid hp hk).1, seq_leafPos hp]
  constructor
  · intro h
    by_contra hle
    have := @tables_mono p (k + 1) hp n (by omega)
    omega
  · intro h
    have := @tables_mono p n hp (k + 1) h
    omega

theorem Mapped.sized (H : Mapped p n f) : Sized f.fs := H.volume.blockSz

theorem Mapped.content (H : Mapped p n f) : getContentBlocks f.fs (iBlocks f.ino) = n := by
  have hcount : getBlockCount f.fs n = sectors f.fs n := getBlockCount_eq H.sized H.small
  rw [H.count, ← hcount]
  exact (content_of_count H.sized H.small).1

theorem Mapped.block_live (H : Mapped p n f) (hk : k < n) : FileBlock f (f.at (leafPos p k)) :=
  have hmax := Nat.lt_of_lt_of_le hk H.limit
  H.block _ (leafPos_valid H.tables.pos hmax).1 ((H.leaf k hmax).mpr hk)

/-- `read_block_inode` reads the bytes of the inode. -/
theorem Mapped.readBlockInode (H : Mapped p n f) (k : Nat) (buf : Mem) {i : Nat}
    (hi : i < f.fs.blockSz) :
    (readBlockInode f.fs f.ino k buf).2 i = f.data p n (k * f.fs.blockSz + i) := by
  unfold Ext2.readBlockInode File.data
  rw [H.content, div_block hi, mod_block hi]
  by_cases hk : k < n
  · rw [if_neg (by omega), if_pos hk, H.tables.getRealBlock_eq (Nat.lt_of_lt_of_le hk H.limit)]
    exact readBlock_snd H.volume.dev (H.block_live hk).inVol buf hi
  · rw [if_pos (by omega), if_neg hk]
    exact fill_apply (Nat.zero_le i) (by omega)

theorem Mapped.readPiece (H : Mapped p n f) {t : Piece} (ht : t.Fits f.fs.blockSz off sz) (buf : Mem)
    (i : Nat) : readPiece f.fs f.ino buf t i
      = if t.buf ≤ i ∧ i < t.buf + t.len then f.data p n (off + i) else buf i := by
  have hpos := ht.pos
  have hfile := ht.file
  by_cases hin : t.buf ≤ i ∧ i < t.buf + t.len
  · rw [if_pos hin]
    unfold Ext2.readPiece
    split
    · rw [copy_apply hin.1 hin.2, H.readBlockInode _ _ (by omega)]
      congr 1
      omega
    · show copy buf t.buf _ t.pos t.len i = _
      rw [copy_apply hin.1 hin.2, H.readBlockInode _ _ (by omega)]
      congr 1
      omega
  · rw [if_neg hin]
    unfold Ext2.readPiece
    split
    · exact copy_apply_of_not (by omega)
    · exact copy_apply_of_not (by omega)

theorem Mapped.readPieces (H : Mapped p n f) : ∀ {ps : List Piece} {buf : Mem},
    (∀ t ∈ ps, t.Fits f.fs.blockSz off sz) → ∀ i, ps.foldl (Ext2.readPiece f.fs f.ino) buf i
      = if ∃ t ∈ ps, t.buf ≤ i ∧ i < t.buf + t.len then f.data p n (off + i) else buf i
  | [], _, _, _ => by
      rw [if_neg (by simp)]
      rfl
  | t :: ps, buf, h, i => by
      rw [List.foldl_cons, H.readPieces (fun u hu => h u (List.mem_cons_of_mem t hu)),
        H.readPiece (h t List.mem_cons_self)]
      simp only [List.mem_cons, exists_eq_or_imp]
      by_cases hps : ∃ u ∈ ps, u.buf ≤ i ∧ i < u.buf + u.len
      · rw [if_pos hps, if_pos (Or.inr hps)]
      · rw [if_neg hps]
        exact if_congr (by simp [hps]) rfl rfl

/-- **Reading an inode.** `read_buffer_inode` returns the bytes of the range up
to the end of the file. -/
theorem Mapped.readBufferInode_eq (H : Mapped p n f) (h : off + sz < 2 ^ 32)
    (hsome : 0 < min sz (iSize f.ino - off)) (buf : Mem) :
    readBufferInode f.fs f.ino off sz buf = (min sz (iSize f.ino - off), fun i =>
      if i < min sz (iSize f.ino - off) then f.data p n (off + i) else buf i) := by
  have hbounds := H.sized.bounds
  have hpos : 0 < f.fs.blockSz := by omega
  unfold readBufferInode
  rw [readRequest_eq (by omega) h]
  have hfit := @pieces_fit f.fs.blockSz off _ hpos hsome (by omega)
  refine Prod.ext rfl (funext fun i => ?_)
  refine (H.readPieces hfit i).trans (if_congr ⟨?_, fun hi => ?_⟩ rfl rfl)
  · rintro ⟨t, ht, -, hlt⟩
    exact Nat.lt_of_lt_of_le hlt (hfit t ht).buf
  · exact pieces_cover hpos (by omega) hi

end Read

/-! ## Growing -/

/-- The file has come from `n` to `m` content blocks. If it was tight it still is,
and it has paid for the new ones at least what they need. -/
structure Gained (p n m : Nat) (f f' : File) : Prop where
  mapped : Mapped p m f'
  le : n ≤ m
  changed : ∃ new, Changed p new f f'
  fields : SameFields f.ino f'.ino
  paid : Tight p n f → Tight p m f' ∧ supply f'.fs + need p m ≤ supply f.fs + need p n

section Grow

variable {p n m k : Nat} {f f₁ f' : File} {off : Nat} {new : List Nat}

theorem SameFields.trans {ino ino₁ ino' : Mem} (h : SameFields ino ino₁)
    (h' : SameFields ino₁ ino') : SameFields ino ino' := fun i hi => (h' i hi).trans (h i hi)

theorem SameFields.iSize {ino ino' : Mem} (h : SameFields ino ino') : iSize ino' = iSize ino :=
  rd32_congr fun i _ _ => h i (by omega)

theorem Changed.blockSz (h : Changed p new f f') : f'.fs.blockSz = f.fs.blockSz :=
  h.run.format.blockSz

theorem Gained.refl (H : Mapped p n f) : Gained p n n f f :=
  ⟨H, Nat.le_refl n, ⟨[], Changed.refl p f⟩, fun _ _ => rfl, fun h => ⟨h, Nat.le_refl _⟩⟩

theorem Gained.trans {n₁ : Nat} (h : Gained p n n₁ f f₁) (h' : Gained p n₁ m f₁ f') :
    Gained p n m f f' := by
  obtain ⟨new, hc⟩ := h.changed
  obtain ⟨new', hc'⟩ := h'.changed
  refine ⟨h'.mapped, h.le.trans h'.le, ⟨_, hc.trans hc'⟩, h.fields.trans h'.fields, fun ht => ?_⟩
  obtain ⟨ht₁, hpaid⟩ := h.paid ht
  obtain ⟨ht', hpaid'⟩ := h'.paid ht₁
  exact ⟨ht', hpaid'.trans hpaid⟩

theorem Gained.blockSz (h : Gained p n m f f') : f'.fs.blockSz = f.fs.blockSz := by
  obtain ⟨new, hc⟩ := h.changed
  exact hc.blockSz

theorem Gained.critical (h : Gained p n m f f') : f.fs.critical ≤ f'.fs.critical := by
  obtain ⟨new, hc⟩ := h.changed
  exact hc.run.critical

theorem Mapped.pos (H : Mapped p n f) : 0 < f.fs.blockSz := by
  have := H.sized.bounds
  omega

/-- Content blocks are no tables, and do not hold the inode. -/
theorem Mapped.not_own (H : Mapped p n f) (hk : k < n) : f.at (leafPos p k) ∉ own p f := by
  have hmax := Nat.lt_of_lt_of_le hk H.limit
  have hleaf := leafPos_valid H.tables.pos hmax
  rintro (h | ⟨x, hx, h0, h⟩)
  · exact (H.block_live hk).notHome h
  · have := H.separate x (leafPos p k) hx.toValid hleaf.1 h0 h
    exact hleaf.2 (this ▸ hx)

/-- The bytes are the same if every block has the same bytes. -/
theorem File.data_congr (hbs : f'.fs.blockSz = f.fs.blockSz) (hpos : 0 < f.fs.blockSz)
    (h : ∀ k, ∀ i < f.fs.blockSz, (if k < m then blk f'.fs (f'.at (leafPos p k)) i else 0)
      = if k < n then blk f.fs (f.at (leafPos p k)) i else 0) :
    f'.data p m = f.data p n := by
  funext x
  rw [File.data, File.data, hbs]
  exact h _ _ (Nat.mod_lt _ hpos)

theorem Took.same_block (H : Mapped p n f) (h : Took p new f f') (hk : k < n)
    (heq : f'.at (leafPos p k) = f.at (leafPos p k)) {i : Nat} (hi : i < f.fs.blockSz) :
    blk f'.fs (f'.at (leafPos p k)) i = blk f.fs (f.at (leafPos p k)) i := by
  rw [heq]
  exact h.blk_eq (H.block_live hk).notBook (H.block_live hk).taken (H.not_own hk) hi

theorem Took.left (h : Took p new f f') : supply f'.fs + new.length = supply f.fs :=
  h.run.left rfl

/-- A run that ends on a full volume has taken all that was free. -/
theorem Took.all (h : Took p new f f') (hfull : Full f'.fs) : supply f.fs = new.length := by
  have hleft := h.left
  have hzero := full_iff.mp hfull
  omega

/-- Adding an empty block does not change the bytes. -/
theorem Placed.gained (H : Mapped p n f) (hn : n < maxBlocks p)
    (hfit : sectors f.fs (n + 1) < 2 ^ 32) (h : Placed p n f f') :
    Gained p n (n + 1) f f' ∧ f'.data p (n + 1) = f.data p n
      ∧ (Tight p n f → supply f'.fs + need p (n + 1) = supply f.fs + need p n) := by
  obtain ⟨new, htook⟩ := h.took
  have hp := H.tables.pos
  have hbs := htook.run.format.blockSz
  have hleft := htook.left
  have hseq := seq_leafPos hp n
  have hn0 : f.at (leafPos p n) = 0 := by
    by_contra h0
    exact Nat.lt_irrefl n ((H.leaf n hn).mp h0)
  have hleaf : ∀ k < maxBlocks p, k ≠ n → f'.at (leafPos p k) = f.at (leafPos p k) :=
    fun k hk hne => h.leaf _ (leafPos_valid hp hk).1 (leafPos_valid hp hk).2 fun heq =>
      hne (leafPos_inj hp heq)
  have hpaid : Tight p n f → Tight p (n + 1) f'
      ∧ supply f'.fs + need p (n + 1) = supply f.fs + need p n := by
    rintro (hF | hfull)
    · obtain ⟨hF', hlen⟩ := h.filled _ _ hF (tablePath_reaches hp n) (Nat.le_of_eq hseq)
      rw [hseq, Nat.max_eq_right (by omega)] at hF'
      rw [htook.got, List.length_append] at hlen
      unfold Tight need at *
      refine ⟨Or.inl ?_, by omega⟩
      rwa [show n + 1 + tables p (n + 1) = n + tables p (n + 1) + 1 by omega]
    · -- nothing was left to take, but a block is in place
      have hzero := full_iff.mp hfull
      obtain rfl : new = [] := List.eq_nil_of_length_eq_zero (by omega)
      rcases htook.pointer _ (leafPos_valid hp hn).1 with heq | hmem
      · exact absurd (heq.trans hn0) h.live
      · exact absurd hmem List.not_mem_nil
  refine ⟨⟨⟨h.owned, fun k hk => ?_, ?_, ?_, hn⟩, Nat.le_succ n, ⟨new, htook.changed⟩, h.fields,
    fun ht => ⟨(hpaid ht).1, Nat.le_of_eq (hpaid ht).2⟩⟩, File.data_congr hbs H.pos fun k i hi => ?_,
    fun ht => (hpaid ht).2⟩
  · by_cases hkn : k = n
    · subst hkn
      exact iff_of_true h.live (Nat.lt_succ_self k)
    · rw [hleaf k hk hkn, H.leaf k hk]
      omega
  · have hadd : add32 n 1 = n + 1 :=
      add32_of_lt (Nat.lt_trans (Nat.lt_of_le_of_lt (Nat.le_add_right _ _)
        (sectors_half H.sized hfit)) (by decide))
    rw [h.blocks, hadd, H.count, getBlockCount_eq H.sized hfit, sectors_congr hbs]
    exact Nat.max_eq_right (Nat.le_of_lt (sectors_lt H.sized (Nat.lt_succ_self n)))
  · rw [sectors_congr hbs]
    exact hfit
  · rcases Nat.lt_trichotomy k n with hlt | rfl | hgt
    · have hmax := Nat.lt_of_lt_of_le hlt H.limit
      rw [if_pos (by omega), if_pos hlt]
      exact htook.same_block H hlt (hleaf k hmax (Nat.ne_of_lt hlt)) hi
    · rw [if_pos (Nat.lt_succ_self k), if_neg (Nat.lt_irrefl k)]
      exact h.zero i hi
    · rw [if_neg (by omega), if_neg (by omega)]

/-- Running out of blocks does not change the bytes either. -/
theorem OutOfSpace.gained (H : Mapped p n f) (h : OutOfSpace p f f') :
    Gained p n n f f' ∧ f'.data p n = f.data p n := by
  obtain ⟨new, htook⟩ := h.took
  have hp := H.tables.pos
  have hbs := htook.run.format.blockSz
  have hleft := htook.left
  have hleaf : ∀ k < maxBlocks p, f'.at (leafPos p k) = f.at (leafPos p k) := fun k hk =>
    have hv := leafPos_valid hp hk
    h.leaf _ hv.1 hv.2
  refine ⟨⟨⟨h.owned, fun k hk => ?_, ?_, ?_, H.limit⟩, Nat.le_refl n, ⟨new, htook.changed⟩,
    h.head.fields, fun _ => ⟨Or.inr h.full, by omega⟩⟩, File.data_congr hbs H.pos fun k i hi => ?_⟩
  · rw [hleaf k hk]
    exact H.leaf k hk
  · rw [h.head.iBlocks, H.count, sectors_congr hbs]
  · rw [sectors_congr hbs]
    exact H.small
  · by_cases hk : k < n
    · rw [if_pos hk, if_pos hk]
      exact htook.same_block H hk (hleaf k (Nat.lt_of_lt_of_le hk H.limit)) hi
    · rw [if_neg hk, if_neg hk]

/-- `alloc_inode_block` at the end of the inode. -/
theorem Mapped.allocInodeBlock (H : Mapped p n f) (hn : n < maxBlocks p)
    (hfit : sectors f.fs (n + 1) < 2 ^ 32) :
    (∃ f', Ext2.allocInodeBlock f n = (.success, f') ∧ Gained p n (n + 1) f f'
        ∧ f'.data p (n + 1) = f.data p n
        ∧ (Tight p n f → supply f'.fs + need p (n + 1) = supply f.fs + need p n))
      ∨ ∃ f', Ext2.allocInodeBlock f n = (.noSpace, f') ∧ Gained p n n f f'
        ∧ f'.data p n = f.data p n ∧ Full f'.fs ∧ f.fs.critical < f'.fs.critical
        ∧ (Tight p n f → need p n + supply f.fs < need p (n + 1)) := by
  have hp := H.tables.pos
  rcases allocInodeBlock_owned H.toOwned hn with ⟨hs, hplaced⟩ | ⟨hs, hout, hlen⟩
  · obtain ⟨hgain, hdata, hroom⟩ := hplaced.gained H hn hfit
    exact Or.inl ⟨_, Prod.ext hs rfl, hgain, hdata, hroom⟩
  · obtain ⟨hgain, hdata⟩ := hout.gained H
    refine Or.inr ⟨_, Prod.ext hs rfl, hgain, hdata, hout.full, hout.critical, ?_⟩
    have hmono := @tables_mono p (n + 1) hp n (Nat.le_succ n)
    rintro (hF | hfull)
    · obtain ⟨new, htook⟩ := hout.took
      have hgot := hlen _ _ hF (tablePath_reaches hp n)
      rw [htook.all hout.full]
      rw [htook.got, List.length_append] at hgot
      unfold need at *
      omega
    · rw [full_iff.mp hfull]
      unfold need
      omega

/-- How growing an inode to have block `off` can end. -/
def Grew (p n m off : Nat) (f : File) (res : Status × File) : Prop :=
  Gained p n m f res.2 ∧ res.2.data p m = f.data p n
    ∧ ((res.1 = .success ∧ m = max n (off + 1)
        ∧ (Tight p n f → supply res.2.fs + need p m = supply f.fs + need p n))
      ∨ (res.1 = .noSpace ∧ m ≤ off ∧ Full res.2.fs ∧ f.fs.critical < res.2.fs.critical
        ∧ (Tight p n f → need p n + supply f.fs < need p (m + 1))))

theorem Mapped.growLoop (H : Mapped p n f) (hoff : off < maxBlocks p)
    (hfit : sectors f.fs (off + 1) < 2 ^ 32) {N : Nat} (hN : off + 1 - n ≤ N) :
    ∃ res m, Ext2.growLoop N f off = some res ∧ Grew p n m off f res := by
  obtain ⟨d, hd⟩ : ∃ d, d = off + 1 - n := ⟨_, rfl⟩
  induction d generalizing f n N with
  | zero =>
      refine ⟨(.success, f), n, ?_, Gained.refl H, rfl, Or.inl ⟨rfl, by omega, fun _ => rfl⟩⟩
      unfold Ext2.growLoop
      rw [H.content]
      exact if_pos (by omega)
  | succ d ih =>
      obtain ⟨N, rfl⟩ : ∃ N', N = N' + 1 := ⟨N - 1, by omega⟩
      have hfit' : sectors f.fs (n + 1) < 2 ^ 32 := by
        rcases Nat.eq_or_lt_of_le (show n + 1 ≤ off + 1 by omega) with heq | hlt
        · rwa [heq]
        · exact (sectors_lt H.sized hlt).trans hfit
      have hmore : ¬off < n := by omega
      rw [Ext2.growLoop]
      simp only [H.content, if_neg hmore]
      rcases H.allocInodeBlock (by omega) hfit' with ⟨f₁, heq, hgain, hdata, hroom⟩
        | ⟨f₁, heq, hgain, hdata, hfull, hcrit, hcost⟩
      · rw [heq]
        rw [← sectors_congr hgain.blockSz] at hfit
        obtain ⟨res, m, hres, hgain', hdata', hend⟩ :=
          @ih (n + 1) f₁ hgain.mapped hfit N (by omega) (by omega)
        refine ⟨res, m, hres, hgain.trans hgain', hdata'.trans hdata, ?_⟩
        rcases hend with ⟨hs, hm, hroom'⟩ | ⟨hs, hm, hfull, hcrit, hcost⟩
        · exact Or.inl ⟨hs, by omega, fun ht => (hroom' (hgain.paid ht).1).trans (hroom ht)⟩
        · refine Or.inr ⟨hs, hm, hfull, hgain.critical.trans_lt hcrit, fun ht => ?_⟩
          have hpaid := hcost (hgain.paid ht).1
          have heq := hroom ht
          omega
      · rw [heq]
        exact ⟨_, n, rfl, hgain, hdata, Or.inr ⟨rfl, by omega, hfull, hcrit, hcost⟩⟩

end Grow
/-! ## Writing a block -/

section Write

variable {p n m k : Nat} {f f₁ f' : File} {off : Nat} {new : List Nat}

theorem not_in_block {bs x : Nat} (h : x / bs ≠ k) :
    x < k * bs ∨ k * bs + bs ≤ x := by
  by_contra hin
  refine h (Nat.div_eq_of_lt_le (by omega) ?_)
  rw [Nat.add_mul]
  omega

/-- Storing a content block in place. -/
theorem Mapped.store (H : Mapped p n f) (hk : k < n) (buf : Mem) :
    (f.store (f.at (leafPos p k)) buf).1 = .success
      ∧ Gained p n n f (f.store (f.at (leafPos p k)) buf).2
      ∧ supply (f.store (f.at (leafPos p k)) buf).2.fs = supply f.fs
      ∧ (f.store (f.at (leafPos p k)) buf).2.data p n
        = copy (f.data p n) (k * f.fs.blockSz) buf 0 f.fs.blockSz := by
  have hmax := Nat.lt_of_lt_of_le hk H.limit
  have hleaf := leafPos_valid H.tables.pos hmax
  have hb := H.block_live hk
  have hlive : f.at (leafPos p k) ≠ 0 := (H.leaf k hmax).mpr hk
  have hrun : BitRun [] true {f.at (leafPos p k)} f.fs
      (f.store (f.at (leafPos p k)) buf).2.fs := writeBlock_run H.volume hb.inVol hb.notBook buf
  have hat : ∀ x, (tree p).Valid x → (f.store (f.at (leafPos p k)) buf).2.at x = f.at x :=
    H.at_run hrun (fun _ _ => rfl) fun x hx h0 h =>
      H.not_own hk (Or.inr ⟨x, hx, h0, h⟩)
  have hbs := hrun.format.blockSz
  have hleft := hrun.left rfl
  rw [List.length_nil] at hleft
  refine ⟨writeBlock_fst (Nat.pos_of_ne_zero hlive) buf, ⟨⟨H.toOwned.run hrun rfl hat, ?_, ?_, ?_,
    H.limit⟩, Nat.le_refl n, ⟨[], rfl, (List.append_nil _).symm, fun x hx => Or.inl (hat x hx),
      hrun.mono ?_, HomeKept.of_run hrun H.homed (fun h => hb.notHome h.symm) rfl rfl⟩,
    fun _ _ => rfl, fun ht => ⟨?_, by omega⟩⟩, by omega, funext fun x => ?_⟩
  · intro j hj
    rw [hat _ (leafPos_valid H.tables.pos hj).1]
    exact H.leaf j hj
  · rw [sectors_congr hbs]
    exact H.count
  · rw [sectors_congr hbs]
    exact H.small
  · rintro b rfl
    exact Or.inr (Or.inr ⟨_, hleaf.1, hlive, rfl⟩)
  · exact ht.imp (fun hf => filled_congr hf hat) fun hfull => hfull.run hrun
  · have hmod := Nat.mod_lt x H.pos
    have hdm := Nat.div_add_mod x f.fs.blockSz
    rw [Nat.mul_comm] at hdm
    by_cases hx : x / f.fs.blockSz = k
    · rw [hx] at hdm
      rw [copy_apply (by omega) (by omega), File.data, hbs, hx, if_pos hk, hat _ hleaf.1,
        show 0 + (x - k * f.fs.blockSz) = x % f.fs.blockSz by omega]
      exact writeBlock_blk_same H.volume.dev hb.inVol buf hmod
    · rw [copy_apply_of_not (not_in_block hx), File.data, File.data, hbs]
      split
      · rename_i hlt
        have hmax' := Nat.lt_of_lt_of_le hlt H.limit
        have hleaf' := leafPos_valid H.tables.pos hmax'
        rw [hat _ hleaf'.1]
        refine hrun.blk_eq (H.block_live hlt).notBook (fun h => hx ?_) hmod
        exact leafPos_inj H.tables.pos (H.separate _ _ hleaf'.1 hleaf.1
          ((H.leaf _ hmax').mpr hlt) h)
      · rfl

/-- How writing to block `b` can end. The bytes are those of `d` now, or it has
been reported that the volume is full, and the file has no block `b`. -/
def Landed (p n m b : Nat) (d : Mem) (f f' : File) : Prop :=
  Gained p n m f f'
    ∧ ((b < m ∧ f'.data p m = d ∧ (Tight p n f → supply f'.fs + need p m = supply f.fs + need p n))
      ∨ (m ≤ b ∧ f'.data p m = f.data p n ∧ Full f'.fs ∧ f.fs.critical < f'.fs.critical
        ∧ (Tight p n f → need p n + supply f.fs < need p (m + 1))))

/-- **Writing a block of an inode.** -/
theorem Mapped.writeBlockInode (H : Mapped p n f) (hoff : off < maxBlocks p)
    (hfit : sectors f.fs (off + 1) < 2 ^ 32) {N : Nat} (hN : off + 1 - n ≤ N) (buf : Mem) :
    ∃ st f' m, Ext2.writeBlockInode N f off buf = some (st, f') ∧ Landed p n m off
      (copy (f.data p n) (off * f.fs.blockSz) buf 0 f.fs.blockSz) f f'
      ∧ (off < m → st = .success) := by
  obtain ⟨⟨st, f₁⟩, m, hgrow, hgain, hdata, hend⟩ := H.growLoop hoff hfit hN
  unfold Ext2.writeBlockInode
  rw [hgrow]
  rcases hend with ⟨hs, hm, hroom⟩ | ⟨hs, hm, hfull, hcrit, hcost⟩
  · simp only at hs hdata hroom hgain
    subst hs
    have hlt : off < m := by omega
    have hleaf : getRealBlock f₁.fs f₁.ino off = f₁.at (leafPos p off) :=
      hgain.mapped.tables.getRealBlock_eq hoff
    obtain ⟨hst, hgain', hfree, hdata'⟩ := hgain.mapped.store hlt buf
    simp only [hleaf]
    refine ⟨_, _, m, rfl, ⟨hgain.trans hgain', Or.inl ⟨hlt, hdata'.trans ?_, fun ht => ?_⟩⟩,
      fun _ => hst⟩
    · rw [hgain.blockSz, hdata]
    · exact (congrArg (· + need p m) hfree).trans (hroom ht)
  · simp only at hs hdata hfull hcrit hgain
    subst hs
    exact ⟨_, f₁, m, rfl, ⟨hgain, Or.inr ⟨hm, hdata, hfull, hcrit, hcost⟩⟩, fun hlt => by omega⟩

/-- Writing the bytes of one piece. -/
theorem Mapped.writePiece (H : Mapped p n f) {t : Piece} (hpos : t.pos + t.len ≤ f.fs.blockSz)
    (hblock : t.block < maxBlocks p) (hfit : sectors f.fs (t.block + 1) < 2 ^ 32) {N : Nat}
    (hN : t.block + 1 - n ≤ N) (buf : Mem) :
    ∃ f' m, Ext2.writePiece N buf f t = some f' ∧ Landed p n m t.block
      (copy (f.data p n) (t.block * f.fs.blockSz + t.pos) buf t.buf t.len) f f' := by
  -- `whole` is the block that is handed to `write_block_inode`
  have hmain : ∀ whole : Mem, (∀ i < f.fs.blockSz,
      whole i = copy (f.data p n) (t.block * f.fs.blockSz + t.pos) buf t.buf t.len
        (t.block * f.fs.blockSz + i)) →
      ∃ f' m, (Ext2.writeBlockInode N f t.block whole).map Prod.snd = some f'
        ∧ Landed p n m t.block
          (copy (f.data p n) (t.block * f.fs.blockSz + t.pos) buf t.buf t.len) f f' := by
    intro whole hwhole
    obtain ⟨st, f', m, hw, ⟨hgain, hend⟩, -⟩ := H.writeBlockInode hblock hfit hN whole
    refine ⟨f', m, by rw [hw]; rfl, hgain, hend.imp_left fun ⟨hlt, hdata, hroom⟩ =>
      ⟨hlt, hdata.trans (funext fun x => ?_), hroom⟩⟩
    by_cases hx : t.block * f.fs.blockSz ≤ x ∧ x < t.block * f.fs.blockSz + f.fs.blockSz
    · rw [copy_apply hx.1 hx.2, hwhole _ (by omega)]
      congr 1
      omega
    · rw [copy_apply_of_not (by omega), copy_apply_of_not (by omega)]
  unfold Ext2.writePiece
  split
  · rename_i hlen
    refine hmain _ fun i hi => ?_
    rw [copy_apply (by omega) (by omega)]
    congr 1
    omega
  · refine hmain _ fun i hi => ?_
    by_cases hin : t.pos ≤ i ∧ i < t.pos + t.len
    · rw [copy_apply hin.1 hin.2, copy_apply (by omega) (by omega)]
      congr 1
      omega
    · rw [copy_apply_of_not (by omega), copy_apply_of_not (by omega), H.readBlockInode _ _ hi]

/-- There are content blocks up to `e`, or blocks to make them of. -/
def Room (p e n : Nat) (fs : Fs) : Prop := e < n ∨ need p (e + 1) ≤ need p n + supply fs

/-- With room for its block, a piece is stored. -/
theorem Landed.of_room {b e : Nat} {d : Mem} (h : Landed p n m b d f f') (ht : Tight p n f)
    (hp : 0 < p) (hbe : b ≤ e) (hroom : Room p e n f.fs) :
    b < m ∧ f'.data p m = d ∧ Room p e m f'.fs := by
  obtain ⟨hgain, ⟨hlt, hdata, heq⟩ | ⟨hle, -, -, -, hcost⟩⟩ := h
  · refine ⟨hlt, hdata, hroom.imp (fun he => Nat.lt_of_lt_of_le he hgain.le) fun hn => ?_⟩
    have := heq ht
    omega
  · have hmn := hgain.le
    have hpaid := hcost ht
    have hmono := @need_mono p (m + 1) hp (e + 1) (by omega)
    rcases hroom with he | hn
    · omega
    · omega

/-- Without a report a piece is stored, too. -/
theorem Landed.of_quiet {b : Nat} {d : Mem} (h : Landed p n m b d f f')
    (hcrit : f'.fs.critical = f.fs.critical) : b < m ∧ f'.data p m = d := by
  obtain ⟨-, ⟨hlt, hdata, -⟩ | ⟨-, -, -, hlt, -⟩⟩ := h
  · exact ⟨hlt, hdata⟩
  · omega

/-- Nothing has gone wrong from `f` to `f'`: no failed allocation is reported, or
there was room for the blocks up to `e`. -/
def Served (p e n : Nat) (f f' : File) : Prop :=
  f'.fs.critical = f.fs.critical ∨ Tight p n f ∧ Room p e n f.fs

theorem mem_copy_cons {d buf : Mem} {lo : Nat} {t : Piece} {ps : List Piece} (x : Nat)
    (hlo : off + t.buf = lo) : (if ∃ u ∈ ps, off + u.buf ≤ x ∧ x < off + u.buf + u.len
        then buf (x - off) else copy d lo buf t.buf t.len x)
      = if ∃ u ∈ t :: ps, off + u.buf ≤ x ∧ x < off + u.buf + u.len then buf (x - off) else d x := by
  simp only [List.mem_cons, exists_eq_or_imp]
  by_cases hps : ∃ u ∈ ps, off + u.buf ≤ x ∧ x < off + u.buf + u.len
  · rw [if_pos hps, if_pos (Or.inr hps)]
  · rw [if_neg hps]
    by_cases ht : off + t.buf ≤ x ∧ x < off + t.buf + t.len
    · rw [if_pos (Or.inl ht), copy_apply (by omega) (by omega)]
      congr 1
      omega
    · rw [if_neg (not_or.mpr ⟨ht, hps⟩), copy_apply_of_not (by omega)]

/-- Writing pieces one after the other. If nothing goes wrong every byte is
stored. -/
theorem Mapped.writePieces {e sz N : Nat} (he : e < maxBlocks p) (hN : e < N) {buf : Mem} :
    ∀ {ps : List Piece} {n : Nat} {f : File}, Mapped p n f → sectors f.fs (e + 1) < 2 ^ 32 →
      (∀ t ∈ ps, t.pos + t.len ≤ f.fs.blockSz ∧ t.block ≤ e) →
        ∃ f' m, ps.foldlM (Ext2.writePiece N buf) f = some f' ∧ Gained p n m f f'
          ∧ (Served p e n f f' → (∀ t ∈ ps, t.Fits f.fs.blockSz off sz) →
            (∀ t ∈ ps, t.block < m) ∧ ∀ x, f'.data p m x
              = if ∃ t ∈ ps, off + t.buf ≤ x ∧ x < off + t.buf + t.len then buf (x - off)
                else f.data p n x)
  | [], n, f, H, _, _ => by
      refine ⟨f, n, rfl, Gained.refl H, fun _ _ => ⟨(fun t ht => nomatch ht), fun x => ?_⟩⟩
      rw [if_neg (by simp)]
  | t :: ps, n, f, H, hfit, hps => by
      obtain ⟨hpos, hle⟩ := hps t List.mem_cons_self
      have hfit' : sectors f.fs (t.block + 1) < 2 ^ 32 := by
        rcases Nat.eq_or_lt_of_le (show t.block + 1 ≤ e + 1 by omega) with heq | hlt
        · rwa [heq]
        · exact (sectors_lt H.sized hlt).trans hfit
      obtain ⟨f₁, n₁, hw, hput⟩ := H.writePiece hpos (by omega) hfit' (show _ ≤ N by omega) buf
      have hgain := hput.1
      have hbs := hgain.blockSz
      obtain ⟨f', m, hfold, hgain', hdata⟩ := @Mapped.writePieces e sz N he hN buf ps n₁ f₁
        hgain.mapped (by rwa [sectors_congr hbs])
        fun u hu => by rw [hbs]; exact hps u (List.mem_cons_of_mem t hu)
      refine ⟨f', m, ?_, hgain.trans hgain', fun hserved hfits => ?_⟩
      · rw [List.foldlM_cons, hw]
        exact hfold
      · have hstep : (t.block < n₁ ∧ f₁.data p n₁ = copy (f.data p n)
            (t.block * f.fs.blockSz + t.pos) buf t.buf t.len) ∧ Served p e n₁ f₁ f' := by
          rcases hserved with hcrit | ⟨ht, hroom⟩
          · have h₁ := hgain.critical
            have h₂ := hgain'.critical
            exact ⟨hput.of_quiet (by omega), Or.inl (by omega)⟩
          · obtain ⟨hlt, hd, hroom'⟩ := hput.of_room ht H.tables.pos hle hroom
            exact ⟨⟨hlt, hd⟩, Or.inr ⟨(hgain.paid ht).1, hroom'⟩⟩
        obtain ⟨⟨hlt, hd⟩, hserved'⟩ := hstep
        rw [hbs] at hdata
        obtain ⟨hblocks, hbytes⟩ := hdata hserved'
          fun u hu => hfits u (List.mem_cons_of_mem t hu)
        refine ⟨fun u hu => ?_, fun x => ?_⟩
        · rcases List.mem_cons.mp hu with rfl | hu
          · exact Nat.lt_of_lt_of_le hlt hgain'.le
          · exact hblocks u hu
        · rw [hbytes, hd]
          exact mem_copy_cons x (hfits t List.mem_cons_self).file.symm

end Write

/-! ## Writing a range -/

/-- A file of less than 2^32 bytes has few enough blocks. -/
theorem tables_le {p : Nat} (hp : 2 ≤ p) (n : Nat) : tables p n ≤ n + p + 5 := by
  have hdiv : ∀ a, a / p ≤ a / 2 := fun a => Nat.div_le_div_left hp (by decide)
  have hdiv' : ∀ a, a / (p * p) ≤ a / 2 := fun a =>
    Nat.div_le_div_left (hp.trans (Nat.le_mul_of_pos_left p (by omega))) (by decide)
  unfold tables
  split_ifs
  · omega
  · omega
  · have := hdiv (n - 12 - p - 1)
    omega
  · have h1 := hdiv (n - 12 - p - p * p - 1)
    have h2 := hdiv' (n - 12 - p - p * p - 1)
    omega

theorem blocks_fit {fs : Fs} (hs : Sized fs) {n : Nat} (h : n * fs.blockSz ≤ 2 ^ 32) :
    n < maxBlocks (ptrs fs) ∧ sectors fs n < 2 ^ 32 := by
  obtain ⟨hlo, hhi⟩ := hs.bounds
  obtain ⟨hge, hle, -, -⟩ := hs.geometry
  have hn := Nat.mul_le_mul_left n hlo
  have hmul := Nat.mul_le_mul (Nat.mul_le_mul hge hge) hge
  refine ⟨?_, ?_⟩
  · unfold maxBlocks
    omega
  · have htab := @tables_le (ptrs fs) (by omega) n
    have hspb : fs.blockSz / 512 ≤ 2 ^ 7 := by omega
    have h1 : n * (fs.blockSz / 512) * 512 ≤ 2 ^ 32 := by
      rw [Nat.mul_assoc]
      exact (Nat.mul_le_mul_left n (Nat.div_mul_le_self _ _)).trans h
    have h2 : (ptrs fs + 5) * (fs.blockSz / 512) ≤ (2 ^ 14 + 5) * 2 ^ 7 :=
      Nat.mul_le_mul (by omega) hspb
    calc sectors fs n ≤ (2 * n + (ptrs fs + 5)) * (fs.blockSz / 512) :=
          Nat.mul_le_mul_right _ (by omega)
      _ = 2 * (n * (fs.blockSz / 512)) + (ptrs fs + 5) * (fs.blockSz / 512) := by
          rw [Nat.add_mul, Nat.mul_assoc]
      _ < 2 ^ 32 := by omega

/-- Every 32-bit offset is in a block that an inode can have. -/
theorem block_fits {fs : Fs} (hs : Sized fs) {x : Nat} (hx : x < 2 ^ 32) :
    x / fs.blockSz < maxBlocks (ptrs fs) ∧ sectors fs (x / fs.blockSz + 1) < 2 ^ 32
      ∧ x / fs.blockSz < 2 ^ 32 / fs.blockSz := by
  have hdvd : fs.blockSz ∣ 2 ^ 32 := by
    obtain ⟨k, hk, hbs⟩ := hs
    rw [hbs]
    exact Nat.dvd_trans (Nat.mul_dvd_mul_left 1024 (Nat.pow_dvd_pow 2 hk)) (by decide)
  have hlt := Nat.div_lt_div_of_lt_of_dvd hdvd hx
  have hle := (Nat.mul_le_mul_right fs.blockSz (show x / fs.blockSz + 1 ≤ 2 ^ 32 / fs.blockSz from
    hlt)).trans (Nat.div_mul_le_self _ _)
  obtain ⟨h1, h2⟩ := blocks_fit hs hle
  exact ⟨by omega, h2, hlt⟩


/-- What a write of a range does to the file, besides its bytes. -/
structure Edited (p n m size : Nat) (f f' : File) : Prop where
  mapped : Mapped p m f'
  le : n ≤ m
  changed : ∃ new, Changed p new f f'
  fields : ∀ i, i < 4 ∨ 8 ≤ i ∧ i < 28 ∨ 32 ≤ i ∧ i < 40 ∨ 100 ≤ i → f'.ino i = f.ino i
  size : iSize f'.ino = max (iSize f.ino) size
  paid : Tight p n f → Tight p m f' ∧ supply f'.fs + need p m ≤ supply f.fs + need p n

section Range

variable {p n m : Nat} {f f₁ f' : File} {off sz size e N : Nat} {buf : Mem}

/-- The file is the same after a run that may write the home block, as long as
pointers and block count are. -/
theorem Mapped.run (H : Mapped p n f) (hr : BitRun [] true {home f.fs f.no} f.fs f'.fs)
    (hno : f'.no = f.no) (hat : ∀ x, (tree p).Valid x → f'.at x = f.at x)
    (hb : iBlocks f'.ino = iBlocks f.ino) :
    Mapped p n f' ∧ f'.data p n = f.data p n ∧ supply f'.fs = supply f.fs
      ∧ (Tight p n f → Tight p n f') := by
  have hbs := hr.format.blockSz
  have hleaf := fun k hk => @leafPos_valid p k H.tables.pos hk
  have hleft := hr.left rfl
  rw [List.length_nil, Nat.add_zero] at hleft
  refine ⟨⟨H.toOwned.run hr hno hat, fun k hk => ?_, ?_, ?_, H.limit⟩, ?_, hleft, fun ht => ?_⟩
  · rw [hat _ (hleaf k hk).1]
    exact H.leaf k hk
  · rw [hb, H.count, sectors_congr hbs]
  · rw [sectors_congr hbs]
    exact H.small
  · refine File.data_congr hbs H.pos fun k i hi => ?_
    by_cases hk : k < n
    · rw [if_pos hk, if_pos hk, hat _ (hleaf k (Nat.lt_of_lt_of_le hk H.limit)).1]
      exact hr.blk_eq (H.block_live hk).notBook (H.block_live hk).notHome hi
    · rw [if_neg hk, if_neg hk]
  · exact ht.imp (fun hf => filled_congr hf hat) fun hfull => hfull.run hr

/-- The bytes do not depend on the other fields of the inode. -/
theorem Put.mapped (h : Put p f f') (H : Mapped p n f) (hb : iBlocks f'.ino = iBlocks f.ino) :
    Mapped p n f' ∧ f'.data p n = f.data p n ∧ supply f'.fs = supply f.fs
      ∧ (Tight p n f → Tight p n f') :=
  H.run h.run h.no h.pointers hb

/-- Another copy of the inode leads to the same blocks. -/
theorem File.at_of_agree {ino : Mem} {got : List Nat} (h : Agree ino f.ino 0 128) :
    ∀ x, (tree p).Valid x → File.at ⟨f.fs, ino, f.no, got⟩ x = f.at x :=
  node_congr (fun r (hr : r < 15) => rd32_congr (h.mono (Nat.zero_le _) (by omega)))
    fun _ _ _ _ _ => rfl

/-- Another copy of the inode is as good. -/
theorem Mapped.of_agree (H : Mapped p n f) {ino : Mem} {got : List Nat}
    (h : Agree ino f.ino 0 128) :
    Mapped p n ⟨f.fs, ino, f.no, got⟩ ∧ File.data p n ⟨f.fs, ino, f.no, got⟩ = f.data p n
      ∧ (Tight p n f → Tight p n ⟨f.fs, ino, f.no, got⟩) := by
  obtain ⟨hm, hd, -, ht⟩ := @Mapped.run p n f ⟨f.fs, ino, f.no, got⟩ H
    ((BitRun.refl f.fs).mono (Set.empty_subset _)) rfl (File.at_of_agree h)
    (rd32_congr (h.mono (Nat.zero_le _) (by omega)))
  exact ⟨hm, hd, ht⟩

theorem iBlock_setISize (ino : Mem) (v k : Nat) : iBlock (setISize ino v) k = iBlock ino k :=
  rd32_wr32_of_disjoint (by omega)

theorem iBlocks_setISize (ino : Mem) (v : Nat) : iBlocks (setISize ino v) = iBlocks ino :=
  rd32_wr32_of_disjoint (by omega)

theorem iSize_setISize (ino : Mem) {v : Nat} (hv : v < 2 ^ 32) : iSize (setISize ino v) = v :=
  rd32_wr32_same ino hv

theorem Edited.refl (H : Mapped p n f) (hle : size ≤ iSize f.ino) : Edited p n n size f f :=
  ⟨H, Nat.le_refl n, ⟨[], Changed.refl p f⟩, fun _ _ => rfl, (Nat.max_eq_left hle).symm,
    fun ht => ⟨ht, Nat.le_refl _⟩⟩

theorem Edited.blockSz (h : Edited p n m size f f') : f'.fs.blockSz = f.fs.blockSz := by
  obtain ⟨new, hc⟩ := h.changed
  exact hc.blockSz

theorem Edited.no (h : Edited p n m size f f') : f'.no = f.no := by
  obtain ⟨new, hc⟩ := h.changed
  exact hc.no

theorem Edited.saved (h : Edited p n m size f f') (hs : Saved f) : Saved f' := by
  obtain ⟨new, hc⟩ := h.changed
  exact hc.home.saved hs

theorem Edited.critical (h : Edited p n m size f f') : f.fs.critical ≤ f'.fs.critical := by
  obtain ⟨new, hc⟩ := h.changed
  exact hc.run.critical

/-- Raising the size of the inode leaves its bytes alone. -/
theorem Mapped.resize (H : Mapped p n f) (hs : size < 2 ^ 32) :
    Edited p n n size f (f.resize size) ∧ (f.resize size).data p n = f.data p n
      ∧ supply (f.resize size).fs = supply f.fs := by
  unfold File.resize
  split
  · rename_i hlt
    have hput := H.toOwned.put fun k _ => iBlock_setISize f.ino size k
    obtain ⟨hm, hdata, hfree, htight⟩ := hput.mapped H (iBlocks_setISize f.ino size)
    refine ⟨⟨hm, Nat.le_refl n, ⟨[], hput.changed⟩, fun i hi => ?_, ?_,
      fun ht => ⟨htight ht, by omega⟩⟩, hdata, hfree⟩
    · exact wr32_apply_of_ne (by omega)
    · rw [Nat.max_eq_right (Nat.le_of_lt hlt)]
      exact iSize_setISize f.ino hs
  · rename_i hle
    exact ⟨Edited.refl H (Nat.not_lt.mp hle), rfl, rfl⟩

theorem Edited.gained {n₁ : Nat} (h : Edited p n n₁ size f f₁) (h' : Gained p n₁ m f₁ f') :
    Edited p n m size f f' := by
  obtain ⟨new, hc⟩ := h.changed
  obtain ⟨new', hc'⟩ := h'.changed
  refine ⟨h'.mapped, h.le.trans h'.le, ⟨_, hc.trans hc'⟩, fun i hi => ?_, ?_, fun ht => ?_⟩
  · exact (h'.fields i (by omega)).trans (h.fields i hi)
  · rw [h'.fields.iSize, h.size]
  · obtain ⟨ht₁, hpaid⟩ := h.paid ht
    obtain ⟨ht', hpaid'⟩ := h'.paid ht₁
    exact ⟨ht', hpaid'.trans hpaid⟩

/-- **Writing a range of an inode.** Whatever happens on the way, the file stays
sound and keeps what it has. If nothing goes wrong, its bytes are those of the
buffer. -/
theorem Mapped.writeBufferInode (H : Mapped p n f) (he : e < maxBlocks p)
    (hfit : sectors f.fs (e + 1) < 2 ^ 32) (hN : e < N)
    (hps : ∀ t ∈ pieces f.fs.blockSz off sz, t.pos + t.len ≤ f.fs.blockSz ∧ t.block ≤ e)
    (buf : Mem) : ∃ f' m, Ext2.writeBufferInode N f off sz buf = some (sz, f')
      ∧ Edited p n m (add32 off sz) f f'
      ∧ (Served p e n f f' → 0 < sz → off + sz < 2 ^ 32 →
        (∀ t ∈ pieces f.fs.blockSz off sz, t.block < m)
          ∧ f'.data p m = copy (f.data p n) off buf 0 sz) := by
  have hlt32 : add32 off sz < 2 ^ 32 := Nat.mod_lt _ (by decide)
  obtain ⟨hedit, hdata, hfree⟩ := H.resize hlt32
  have hbs := hedit.blockSz
  unfold Ext2.writeBufferInode
  simp only [hbs]
  obtain ⟨f', m, hfold, hgain, hbytes⟩ := @Mapped.writePieces p off e sz N he hN buf
    (pieces f.fs.blockSz off sz) n _ hedit.mapped (by rwa [sectors_congr hbs])
    (by rw [hbs]; exact hps)
  refine ⟨f', m, by rw [hfold]; rfl, hedit.gained hgain, fun hserved hsz hlt => ?_⟩
  have hfits := pieces_fit H.pos hsz hlt
  have hserved' : Served p e n (f.resize (add32 off sz)) f' := by
    rcases hserved with hcrit | ⟨ht, hroom⟩
    · have h₁ := hedit.critical
      have h₂ := hgain.critical
      exact Or.inl (by omega)
    · refine Or.inr ⟨(hedit.paid ht).1, ?_⟩
      rwa [Room, hfree]
  rw [hbs, hdata] at hbytes
  obtain ⟨hblocks, hb⟩ := hbytes hserved' hfits
  refine ⟨hblocks, funext fun x => ?_⟩
  rw [hb, copy, Nat.zero_add]
  refine if_congr ⟨?_, fun hin => ?_⟩ rfl rfl
  · rintro ⟨t, ht, hlo, hhi⟩
    have := (hfits t ht).buf
    omega
  · obtain ⟨t, ht, hcov⟩ := @pieces_cover f.fs.blockSz off sz H.pos hlt (x - off) (by omega)
    exact ⟨t, ht, by omega, by omega⟩

/-- Writing a range that does not wrap. If nothing goes wrong there are blocks up
to its end. -/
theorem Mapped.writeRange (H : Mapped p n f) (hsz : 0 < sz) (h : off + sz < 2 ^ 32)
    (hN : (off + sz - 1) / f.fs.blockSz < N) (buf : Mem) :
    ∃ f' m, Ext2.writeBufferInode N f off sz buf = some (sz, f') ∧ Edited p n m (off + sz) f f'
      ∧ (Served p ((off + sz - 1) / f.fs.blockSz) n f f' →
        off + sz ≤ m * f.fs.blockSz ∧ f'.data p m = copy (f.data p n) off buf 0 sz) := by
  obtain ⟨hmax, hfit, -⟩ := @block_fits f.fs H.sized (off + sz - 1) (by omega)
  rw [H.ptrs] at hmax
  have hfits := @pieces_fit f.fs.blockSz off sz H.pos hsz h
  have hblock : ∀ t ∈ pieces f.fs.blockSz off sz,
      t.pos + t.len ≤ f.fs.blockSz ∧ t.block ≤ (off + sz - 1) / f.fs.blockSz := by
    intro t ht
    obtain ⟨hlen, hpos, hfile, hbuf⟩ := hfits t ht
    refine ⟨hpos, ?_⟩
    rw [Nat.le_div_iff_mul_le H.pos]
    omega
  obtain ⟨f', m, hw, hedit, hdata⟩ := H.writeBufferInode hmax hfit hN hblock buf
  rw [add32_of_lt h] at hedit
  refine ⟨f', m, hw, hedit, fun hserved => ?_⟩
  obtain ⟨hlast, hbytes⟩ := hdata hserved hsz h
  refine ⟨?_, hbytes⟩
  -- the last byte belongs to a piece that has been stored
  obtain ⟨t, ht, hlo, hhi⟩ := @pieces_cover f.fs.blockSz off sz H.pos h (sz - 1) (by omega)
  obtain ⟨-, hpos, hfile, -⟩ := hfits t ht
  have htm := Nat.mul_le_mul_right f.fs.blockSz (show t.block + 1 ≤ m from hlast t ht)
  rw [Nat.add_mul] at htm
  omega

end Range

end Ext2

end Shitos
