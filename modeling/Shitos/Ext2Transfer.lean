import Shitos.Ext2Grow

/-!
# Transfers between a buffer and an inode

`read_buffer_inode` and `write_buffer_inode` cut a range of the file into
transfers: one for a first block that is not covered from its start, one for a
last block that is not covered to its end, and then one for each whole block
between them. Both use the same arithmetic, which is `pieces`.

With at least one byte to transfer, the pieces lie in the range and in the
buffer, and cover them (`pieces_fit`, `pieces_cover`). With no byte the end
block is computed from `off - 1`, and the first block is transferred all the
same.
-/

namespace Shitos

namespace Ext2

/-! ## The functions -/

/-- `read_block_inode`. -/
def readBlockInode (fs : Fs) (ino : Mem) (off : Nat) (buf : Mem) : Status × Mem :=
  if getContentBlocks fs (iBlocks ino) ≤ off then (.badBlock, fill buf 0 0 fs.blockSz)
  else readBlock fs (getRealBlock fs ino off) buf

/-- One transfer: `len` bytes at `pos` of content block `block`, and at `buf`
of the buffer. -/
structure Piece where
  block : Nat
  pos : Nat
  buf : Nat
  len : Nat
deriving DecidableEq, Repr

/-- The remaining blocks, `start` to `stop`. -/
def wholePieces (bs start stop bufOffset : Nat) : List Piece :=
  (List.range (stop + 1 - start)).map fun i => ⟨start + i, 0, bufOffset + i * bs, bs⟩

/-- The transfers after the first block: the last block if it is not covered to
its end, then the remaining blocks. -/
def restPieces (bs off sz start stop bufOffset : Nat) : List Piece :=
  let postfixSz := add32 off sz % bs
  if postfixSz ≠ 0 ∧ start ≤ stop then
    ⟨stop, 0, sub32 sz postfixSz, postfixSz⟩ :: wholePieces bs start (sub32 stop 1) bufOffset
  else wholePieces bs start stop bufOffset

/-- The transfers for `sz` bytes at `off`, in blocks of `bs` bytes. -/
def pieces (bs off sz : Nat) : List Piece :=
  let startBlock := off / bs
  let endBlock := sub32 (add32 off sz) 1 / bs
  if off % bs ≠ 0 ∨ sz < bs then
    let prefixSz := min (bs - off % bs) sz
    ⟨startBlock, off % bs, 0, prefixSz⟩
      :: restPieces bs off sz (startBlock + 1) endBlock prefixSz
  else restPieces bs off sz startBlock endBlock 0

/-- A transfer to the buffer. Whole blocks are read in place, the others by
way of `tmp`. -/
def readPiece (fs : Fs) (ino : Mem) (buf : Mem) (t : Piece) : Mem :=
  if t.len = fs.blockSz then
    copy buf t.buf (readBlockInode fs ino t.block fun i => buf (t.buf + i)).2 0 t.len
  else
    let tmp := (readBlockInode fs ino t.block fs.fresh).2
    copy buf t.buf tmp t.pos t.len

/-- What `read_buffer_inode` returns, and the transfers it makes. -/
def readRequest (fs : Fs) (ino : Mem) (off sz : Nat) : Nat × List Piece :=
  if iSize ino < off then (0, [])
  else
    let sz := if iSize ino < add32 off sz then sub32 (iSize ino) off else sz
    (sz, pieces fs.blockSz off sz)

/-- `read_buffer_inode`. -/
def readBufferInode (fs : Fs) (ino : Mem) (off sz : Nat) (buf : Mem) : Nat × Mem :=
  let (sz, ps) := readRequest fs ino off sz
  (sz, ps.foldl (readPiece fs ino) buf)

/-- A transfer from the buffer. The status of `write_block_inode` is ignored. -/
def writePiece (n : Nat) (buf : Mem) (f : File) (t : Piece) : Option File :=
  if t.len = f.fs.blockSz then
    (writeBlockInode n f t.block fun i => buf (t.buf + i)).map Prod.snd
  else
    let tmp := (readBlockInode f.fs f.ino t.block f.fs.fresh).2
    (writeBlockInode n f t.block (copy tmp t.pos buf t.buf t.len)).map Prod.snd

/-- The inode with its size raised to the end of the range, and saved. -/
def File.resize (f : File) (size : Nat) : File :=
  if iSize f.ino < size then (File.save { f with ino := setISize f.ino size }).2 else f

/-- `write_buffer_inode`; `none` if a loop of `write_block_inode` takes more
than `n` turns. -/
def writeBufferInode (n : Nat) (f : File) (off sz : Nat) (buf : Mem) : Option (Nat × File) :=
  let f := f.resize (add32 off sz)
  ((pieces f.fs.blockSz off sz).foldlM (writePiece n buf) f).map fun f => (sz, f)

/-! ## The pieces of a range -/

/-- The piece is part of the transfer of `sz` bytes at `off`. -/
structure Piece.Fits (bs off sz : Nat) (t : Piece) : Prop where
  len : 0 < t.len
  pos : t.pos + t.len ≤ bs
  file : t.block * bs + t.pos = off + t.buf
  buf : t.buf + t.len ≤ sz

section Pieces

variable {bs off sz start stop bufOffset : Nat}

theorem mem_wholePieces {t : Piece} : t ∈ wholePieces bs start stop bufOffset
    ↔ ∃ i, i < stop + 1 - start ∧ t = ⟨start + i, 0, bufOffset + i * bs, bs⟩ := by
  simp only [wholePieces, List.mem_map, List.mem_range]
  exact exists_congr fun i => and_congr_right fun _ => eq_comm

/-- Nothing remains after the last block. -/
theorem restPieces_nil (h : stop < start) : restPieces bs off sz start stop bufOffset = [] := by
  unfold restPieces
  rw [if_neg fun hh => absurd hh.2 (Nat.not_le.mpr h), wholePieces,
    show stop + 1 - start = 0 by omega]
  rfl

theorem wholePieces_fit (hbs : 0 < bs) (hstart : start ≤ stop → start * bs = off + bufOffset)
    (hstop : start ≤ stop → (stop + 1) * bs ≤ off + sz) :
    ∀ t ∈ wholePieces bs start stop bufOffset, t.Fits bs off sz := by
  intro t ht
  obtain ⟨i, hi, rfl⟩ := mem_wholePieces.mp ht
  have hs := hstart (by omega)
  have he := hstop (by omega)
  have hle := Nat.mul_le_mul_right bs (show start + i + 1 ≤ stop + 1 by omega)
  rw [Nat.add_mul, Nat.add_mul, Nat.one_mul] at hle
  refine ⟨hbs, Nat.le_of_eq (Nat.zero_add _), ?_, ?_⟩
  · show (start + i) * bs + 0 = off + (bufOffset + i * bs)
    rw [Nat.add_mul]
    omega
  · show bufOffset + i * bs + bs ≤ sz
    omega

theorem wholePieces_cover (hbs : 0 < bs) (hstart : start ≤ stop → start * bs = off + bufOffset)
    {i : Nat} (hi : bufOffset ≤ i) (hlo : start * bs ≤ off + i) (hhi : off + i < (stop + 1) * bs) :
    ∃ t ∈ wholePieces bs start stop bufOffset, t.buf ≤ i ∧ i < t.buf + t.len := by
  have hle : start ≤ stop := by
    by_contra hlt
    have := Nat.mul_le_mul_right bs (show stop + 1 ≤ start by omega)
    omega
  have hs := hstart hle
  have hdm := Nat.div_add_mod (i - bufOffset) bs
  have hmod := Nat.mod_lt (i - bufOffset) hbs
  rw [Nat.mul_comm] at hdm
  refine ⟨_, mem_wholePieces.mpr ⟨(i - bufOffset) / bs, ?_, rfl⟩, ?_, ?_⟩
  · rw [Nat.div_lt_iff_lt_mul hbs, Nat.sub_mul]
    omega
  · show bufOffset + (i - bufOffset) / bs * bs ≤ i
    omega
  · show i < bufOffset + (i - bufOffset) / bs * bs + bs
    omega

/-- The last block of a range, and where the range ends in it. -/
theorem end_block (hbs : 0 < bs) (hsz : 0 < sz) : ∃ e d, d < bs ∧ (off + sz - 1) / bs = e
    ∧ off + sz = e * bs + d + 1 ∧ (off + sz) % bs = if d + 1 = bs then 0 else d + 1 := by
  have hdm := Nat.div_add_mod (off + sz - 1) bs
  have hmod := Nat.mod_lt (off + sz - 1) hbs
  rw [Nat.mul_comm] at hdm
  refine ⟨_, _, hmod, rfl, by omega, ?_⟩
  generalize (off + sz - 1) / bs = e at *
  generalize (off + sz - 1) % bs = d at *
  rw [show off + sz = e * bs + (d + 1) by omega, Nat.mul_comm, Nat.mul_add_mod]
  split
  · rename_i h
    rw [h, Nat.mod_self]
  · exact Nat.mod_eq_of_lt (by omega)

/-- The pieces after the first, when there are any: the range is not exhausted
and the next block starts at `bufOffset`. -/
structure Rest (bs off sz start stop bufOffset : Nat) : Prop where
  pos : 0 < bs
  some : 0 < sz
  small : off + sz < 2 ^ 32
  stop_eq : stop = (off + sz - 1) / bs
  aligned : start ≤ stop → start * bs = off + bufOffset
  long : 0 < start ∨ bs ≤ sz

/-- The two forms the remaining pieces can have. -/
theorem Rest.cases (R : Rest bs off sz start stop bufOffset) :
    (∃ d, start ≤ stop ∧ d + 1 < bs ∧ off + sz = stop * bs + d + 1 ∧ d + 1 ≤ sz ∧ 0 < stop
        ∧ restPieces bs off sz start stop bufOffset
          = ⟨stop, 0, sz - (d + 1), d + 1⟩ :: wholePieces bs start (stop - 1) bufOffset)
      ∨ (off + sz ≤ (stop + 1) * bs ∧ (start ≤ stop → off + sz = (stop + 1) * bs)
        ∧ restPieces bs off sz start stop bufOffset = wholePieces bs start stop bufOffset) := by
  obtain ⟨e, d, hd, he, hsum, hmod⟩ := @end_block bs off sz R.pos R.some
  have hstop : stop = e := R.stop_eq.trans he
  subst hstop
  have hadd : add32 off sz = off + sz := add32_of_lt R.small
  have hsucc : (stop + 1) * bs = stop * bs + bs := by rw [Nat.add_mul, Nat.one_mul]
  unfold restPieces
  rw [hadd, hmod]
  by_cases hend : d + 1 = bs
  · rw [if_pos hend]
    exact Or.inr ⟨by omega, fun _ => by omega, if_neg fun h => h.1 rfl⟩
  rw [if_neg hend]
  by_cases hle : start ≤ stop
  · have halign := R.aligned hle
    have hmul := Nat.mul_le_mul_right bs hle
    have hpos : 0 < stop := by
      rcases R.long with h | h
      · omega
      · by_contra h0
        rw [Nat.eq_zero_of_not_pos h0, Nat.zero_mul] at hsum
        omega
    refine Or.inl ⟨d, hle, by omega, by omega, by omega, hpos, ?_⟩
    rw [← @sub32_of_le sz (d + 1) (by omega), ← sub32_of_le hpos]
    exact if_pos ⟨by omega, hle⟩
  · exact Or.inr ⟨by omega, fun h => absurd h hle, if_neg fun h => hle h.2⟩

theorem Rest.fit (R : Rest bs off sz start stop bufOffset) :
    ∀ t ∈ restPieces bs off sz start stop bufOffset, t.Fits bs off sz := by
  rcases R.cases with ⟨d, hle, hd, hsum, hsz, hpos, heq⟩ | ⟨-, hend, heq⟩
  · rw [heq]
    intro t ht
    rcases List.mem_cons.mp ht with rfl | ht
    · exact ⟨Nat.succ_pos d, by show 0 + (d + 1) ≤ bs; omega,
        by show stop * bs + 0 = off + (sz - (d + 1)); omega,
        by show sz - (d + 1) + (d + 1) ≤ sz; omega⟩
    · refine wholePieces_fit R.pos (fun h => R.aligned (by omega)) (fun _ => ?_) t ht
      rw [Nat.sub_add_cancel hpos]
      omega
  · rw [heq]
    exact wholePieces_fit R.pos R.aligned fun h => Nat.le_of_eq (hend h).symm

theorem Rest.cover (R : Rest bs off sz start stop bufOffset) {i : Nat} (hi : bufOffset ≤ i)
    (hlo : start * bs ≤ off + i) (hlt : i < sz) :
    ∃ t ∈ restPieces bs off sz start stop bufOffset, t.buf ≤ i ∧ i < t.buf + t.len := by
  rcases R.cases with ⟨d, hle, hd, hsum, hsz, hpos, heq⟩ | ⟨hend, -, heq⟩
  · rw [heq]
    by_cases hlast : stop * bs ≤ off + i
    · exact ⟨_, List.mem_cons_self, show sz - (d + 1) ≤ i by omega,
        show i < sz - (d + 1) + (d + 1) by omega⟩
    · obtain ⟨t, ht, hcov⟩ := @wholePieces_cover bs off start (stop - 1) bufOffset R.pos
        (fun h => R.aligned (by omega)) i hi hlo (by rw [Nat.sub_add_cancel hpos]; omega)
      exact ⟨t, List.mem_cons_of_mem _ ht, hcov⟩
  · rw [heq]
    exact wholePieces_cover R.pos R.aligned hi hlo (by omega)

/-- The first piece, and what is left after it. -/
theorem pieces_cases (hbs : 0 < bs) (hsz : 0 < sz) (h : off + sz < 2 ^ 32) :
    (∃ len, 0 < len ∧ off % bs + len ≤ bs ∧ len ≤ sz
        ∧ (len = sz ∨ (off / bs + 1) * bs = off + len)
        ∧ Rest bs off sz (off / bs + 1) ((off + sz - 1) / bs) len
        ∧ pieces bs off sz = ⟨off / bs, off % bs, 0, len⟩
          :: restPieces bs off sz (off / bs + 1) ((off + sz - 1) / bs) len)
      ∨ (off / bs * bs = off ∧ Rest bs off sz (off / bs) ((off + sz - 1) / bs) 0
        ∧ pieces bs off sz = restPieces bs off sz (off / bs) ((off + sz - 1) / bs) 0) := by
  have hdm := Nat.div_add_mod off bs
  have hmod := Nat.mod_lt off hbs
  rw [Nat.mul_comm] at hdm
  have hadd : add32 off sz = off + sz := add32_of_lt h
  have hsucc : (off / bs + 1) * bs = off / bs * bs + bs := by rw [Nat.add_mul, Nat.one_mul]
  unfold pieces
  rw [hadd, sub32_of_le (show 1 ≤ off + sz by omega)]
  by_cases hfirst : off % bs ≠ 0 ∨ sz < bs
  · refine Or.inl ⟨min (bs - off % bs) sz, by omega, by omega, by omega, by omega, ?_,
      if_pos hfirst⟩
    refine ⟨hbs, hsz, h, rfl, fun hle => ?_, Or.inl (Nat.succ_pos _)⟩
    have hle' := (Nat.le_div_iff_mul_le hbs).mp hle
    omega
  · refine Or.inr ⟨by omega, ⟨hbs, hsz, h, rfl, fun _ => ?_, Or.inr (by omega)⟩, if_neg hfirst⟩
    omega

/-- **The pieces of a range lie in it.** -/
theorem pieces_fit (hbs : 0 < bs) (hsz : 0 < sz) (h : off + sz < 2 ^ 32) :
    ∀ t ∈ pieces bs off sz, t.Fits bs off sz := by
  have hdm := Nat.div_add_mod off bs
  rw [Nat.mul_comm] at hdm
  rcases pieces_cases hbs hsz h with ⟨len, hpos, hin, hle, -, R, heq⟩ | ⟨-, R, heq⟩
  · rw [heq]
    intro t ht
    rcases List.mem_cons.mp ht with rfl | ht
    · exact ⟨hpos, hin, hdm, by show 0 + len ≤ sz; omega⟩
    · exact R.fit t ht
  · rw [heq]
    exact R.fit

/-- Every byte of the buffer belongs to a piece. -/
theorem pieces_cover (hbs : 0 < bs) (h : off + sz < 2 ^ 32) {i : Nat} (hi : i < sz) :
    ∃ t ∈ pieces bs off sz, t.buf ≤ i ∧ i < t.buf + t.len := by
  rcases pieces_cases hbs (Nat.zero_lt_of_lt hi) h with ⟨len, hpos, -, -, hnext, R, heq⟩
    | ⟨halign, R, heq⟩
  · rw [heq]
    by_cases hlt : i < len
    · exact ⟨_, List.mem_cons_self, Nat.zero_le i, by show i < 0 + len; omega⟩
    · obtain ⟨t, ht, hcov⟩ := @Rest.cover _ _ _ _ _ _ R i (by omega) (by omega) hi
      exact ⟨t, List.mem_cons_of_mem _ ht, hcov⟩
  · rw [heq]
    exact R.cover (Nat.zero_le i) (by omega) hi

/-- With no byte to transfer there is a piece for the first block, and at the
start of the file one for every other block there can be. -/
theorem pieces_empty (hbs : 0 < bs) (hoff : off < 2 ^ 32) : pieces bs off 0
    = ⟨off / bs, off % bs, 0, 0⟩
      :: if off = 0 then wholePieces bs 1 ((2 ^ 32 - 1) / bs) 0 else [] := by
  have hadd : add32 off 0 = off := add32_of_lt hoff
  have hmin : min (bs - off % bs) 0 = 0 := Nat.min_zero _
  unfold pieces
  rw [hadd, hmin]
  refine (if_pos (Or.inr hbs)).trans (congrArg _ ?_)
  by_cases h0 : off = 0
  · subst h0
    unfold restPieces
    rw [hadd, Nat.zero_mod, Nat.zero_div]
    exact if_neg fun h => h.1 rfl
  · rw [if_neg h0, sub32_of_le (show 1 ≤ off by omega)]
    exact restPieces_nil (Nat.lt_succ_of_le (Nat.div_le_div_right (Nat.sub_le off 1)))

end Pieces

/-! ## Staying inside the request -/

/-- Content block `b` has a byte in the range from `lo` to `hi`. -/
def Overlaps (bs b lo hi : Nat) : Prop := ∃ x, lo ≤ x ∧ x < hi ∧ x / bs = b

/-- `read_buffer_inode` stays inside the request. -/
structure ReadsInside (fs : Fs) (ino : Mem) (off sz : Nat) : Prop where
  count : ∀ buf, (readBufferInode fs ino off sz buf).1 = min sz (iSize ino - off)
  blocks : ∀ t ∈ (readRequest fs ino off sz).2,
    t.block = off / fs.blockSz ∨ Overlaps fs.blockSz t.block off (min (off + sz) (iSize ino))
  stores : ∀ t ∈ (readRequest fs ino off sz).2, t.buf + t.len ≤ min sz (iSize ino - off)
  frame : ∀ buf i, min sz (iSize ino - off) ≤ i → (readBufferInode fs ino off sz buf).2 i = buf i

/-- `write_buffer_inode` stays inside the request. -/
structure WritesInside (f : File) (off sz : Nat) : Prop where
  blocks : ∀ t ∈ pieces f.fs.blockSz off sz, Overlaps f.fs.blockSz t.block off (off + sz)
  reads : ∀ t ∈ pieces f.fs.blockSz off sz, t.buf + t.len ≤ sz
  frame : ∀ n buf buf', Agree buf buf' 0 sz →
    writeBufferInode n f off sz buf = writeBufferInode n f off sz buf'
  empty : sz = 0 → ∀ n buf r f', writeBufferInode n f off sz buf = some (r, f') →
    f'.fs.dev = f.fs.dev

section Inside

variable {fs : Fs} {ino : Mem} {f : File} {off sz : Nat}

theorem Piece.Fits.overlaps {bs : Nat} {t : Piece} (h : t.Fits bs off sz) :
    Overlaps bs t.block off (off + sz) := by
  have hlen := h.len
  have hpos := h.pos
  have hfile := h.file
  have hbuf := h.buf
  refine ⟨off + t.buf, Nat.le_add_right .., by omega, ?_⟩
  rw [← hfile]
  exact div_block (by omega)

theorem readPiece_frame {buf : Mem} {t : Piece} {i : Nat} (h : t.buf + t.len ≤ i) :
    readPiece fs ino buf t i = buf i := by
  unfold readPiece
  split
  · exact copy_apply_of_not (Or.inr h)
  · exact copy_apply_of_not (Or.inr h)

theorem readPieces_frame {i : Nat} : ∀ {ps : List Piece} {buf : Mem},
    (∀ t ∈ ps, t.buf + t.len ≤ i) → ps.foldl (readPiece fs ino) buf i = buf i
  | [], _, _ => rfl
  | t :: _, _, h => by
      rw [List.foldl_cons, readPieces_frame fun u hu => h u (List.mem_cons_of_mem t hu)]
      exact readPiece_frame (h t List.mem_cons_self)

/-- What is left of the request at the end of the file. -/
theorem readRequest_eq (hle : off ≤ iSize ino) (h : off + sz < 2 ^ 32) :
    readRequest fs ino off sz
      = (min sz (iSize ino - off), pieces fs.blockSz off (min sz (iSize ino - off))) := by
  have hsz : (if iSize ino < add32 off sz then sub32 (iSize ino) off else sz)
      = min sz (iSize ino - off) := by
    rw [add32_of_lt h, sub32_of_le hle]
    split <;> omega
  unfold readRequest
  rw [if_neg (by omega)]
  show ((if iSize ino < add32 off sz then sub32 (iSize ino) off else sz), _) = _
  rw [hsz]

theorem readRequest_past (h : iSize ino < off) : readRequest fs ino off sz = (0, []) := if_pos h

/-- Reading stays inside the request unless it is at the start of the file and
has nothing to read. -/
theorem readsInside_iff (hbs : Sized fs) (h : off + sz < 2 ^ 31) :
    ReadsInside fs ino off sz ↔ ¬(off = 0 ∧ (sz = 0 ∨ iSize ino = 0)) := by
  have hbounds := hbs.bounds
  have hpos : 0 < fs.blockSz := by omega
  have h32 : off + sz < 2 ^ 32 := Nat.lt_trans h (by decide)
  have hinside : (readRequest fs ino off sz).1 = min sz (iSize ino - off) →
      (∀ t ∈ (readRequest fs ino off sz).2,
        (t.block = off / fs.blockSz ∨ Overlaps fs.blockSz t.block off (min (off + sz) (iSize ino)))
          ∧ t.buf + t.len ≤ min sz (iSize ino - off)) → ReadsInside fs ino off sz := fun hc ht =>
    ⟨fun _ => hc, fun t h => (ht t h).1, fun t h => (ht t h).2, fun buf i hi =>
      readPieces_frame fun t h => Nat.le_trans (ht t h).2 hi⟩
  rcases Nat.lt_or_ge (iSize ino) off with hpast | hle
  · rw [readRequest_past hpast] at hinside
    refine iff_of_true (hinside (by simp only; omega) fun t ht => nomatch ht) fun h0 => ?_
    omega
  have hreq := @readRequest_eq fs ino off sz hle h32
  rw [hreq] at hinside
  rcases Nat.eq_zero_or_pos (min sz (iSize ino - off)) with h0 | hsome
  · have hpieces := @pieces_empty fs.blockSz off hpos (by omega)
    rw [h0] at hinside hreq
    rw [hpieces] at hinside hreq
    by_cases hoff : off = 0
    · refine iff_of_false (fun hR => ?_) fun hn => hn ⟨hoff, by omega⟩
      -- the piece of block 1 is stored in full
      have hlast : 1 ≤ (2 ^ 32 - 1) / fs.blockSz := by
        rw [Nat.le_div_iff_mul_le hpos]
        omega
      have hmem : (⟨1 + 0, 0, 0 + 0 * fs.blockSz, fs.blockSz⟩ : Piece)
          ∈ (readRequest fs ino off sz).2 := by
        rw [hreq, if_pos hoff]
        exact List.mem_cons_of_mem _ (mem_wholePieces.mpr ⟨0, by omega, rfl⟩)
      have hstore := hR.stores _ hmem
      simp only at hstore
      omega
    · refine iff_of_true (hinside rfl fun t ht => ?_) fun hn => hoff hn.1
      rw [if_neg hoff] at ht
      rw [List.mem_singleton.mp ht]
      exact ⟨Or.inl rfl, Nat.zero_le _⟩
  · refine iff_of_true (hinside rfl fun t ht => ?_) fun hn => by omega
    have hfit := pieces_fit hpos hsome (by omega) t ht
    refine ⟨Or.inr ?_, hfit.buf⟩
    have := hfit.overlaps
    rwa [show off + min sz (iSize ino - off) = min (off + sz) (iSize ino) by omega] at this

theorem writeBlock_congr {b : Nat} {buf buf' : Mem} (h : Agree buf buf' 0 fs.blockSz) :
    writeBlock fs b buf = writeBlock fs b buf' := by
  unfold writeBlock devWrite
  split
  · rfl
  · congr 2
    funext x
    split
    · exact h _ (Nat.zero_le _) (by omega)
    · rfl

theorem writeBlockInode_congr {n b : Nat} {buf buf' : Mem} (h : Agree buf buf' 0 f.fs.blockSz) :
    writeBlockInode n f b buf = writeBlockInode n f b buf' := by
  unfold writeBlockInode
  split
  · rfl
  · rename_i g heq
    rw [← (growLoop_sameMount heq).blockSz] at h
    rw [File.store, File.store, writeBlock_congr h]
  · rfl

theorem writePiece_congr {n : Nat} {buf buf' : Mem} (h : Agree buf buf' 0 sz) {t : Piece}
    (ht : t.buf + t.len ≤ sz) : writePiece n buf f t = writePiece n buf' f t := by
  unfold writePiece
  split
  · rename_i hlen
    refine congrArg _ (writeBlockInode_congr fun i _ hi => ?_)
    exact h _ (Nat.zero_le _) (by omega)
  · have hcopy : ∀ tmp : Mem, copy tmp t.pos buf t.buf t.len = copy tmp t.pos buf' t.buf t.len := by
      intro tmp
      funext i
      unfold copy
      split
      · exact h _ (Nat.zero_le _) (by omega)
      · rfl
    simp only [hcopy]

theorem writePieces_congr {n : Nat} {buf buf' : Mem} (h : Agree buf buf' 0 sz) :
    ∀ {ps : List Piece} {f : File}, (∀ t ∈ ps, t.buf + t.len ≤ sz) →
      ps.foldlM (writePiece n buf) f = ps.foldlM (writePiece n buf') f
  | [], _, _ => rfl
  | t :: ps, f, ht => by
      rw [List.foldlM_cons, List.foldlM_cons, writePiece_congr h (ht t List.mem_cons_self)]
      cases writePiece n buf' f t with
      | none => rfl
      | some g => exact writePieces_congr h fun u hu => ht u (List.mem_cons_of_mem t hu)

/-- Writing stays inside the request when there is something to write. -/
theorem writesInside_iff (hbs : Sized f.fs) (h : off + sz < 2 ^ 31) :
    WritesInside f off sz ↔ 0 < sz := by
  have hbounds := hbs.bounds
  have hpos : 0 < f.fs.blockSz := by omega
  rcases Nat.eq_zero_or_pos sz with rfl | hsome
  · refine iff_of_false (fun hW => ?_) (Nat.lt_irrefl 0)
    -- the first block is written though no byte of it is
    have hmem : (⟨off / f.fs.blockSz, off % f.fs.blockSz, 0, 0⟩ : Piece)
        ∈ pieces f.fs.blockSz off 0 := by
      rw [pieces_empty hpos (by omega)]
      exact List.mem_cons_self
    obtain ⟨x, hlo, hhi, -⟩ := hW.blocks _ hmem
    omega
  · have hfit := @pieces_fit f.fs.blockSz off sz hpos hsome (by omega)
    refine iff_of_true ⟨fun t ht => (hfit t ht).overlaps, fun t ht => (hfit t ht).buf, ?_, ?_⟩ hsome
    · intro n buf buf' hb
      have hsize : (f.resize (add32 off sz)).fs.blockSz = f.fs.blockSz := by
        unfold File.resize
        split
        · exact (writeInode_sameMount ..).blockSz
        · rfl
      unfold writeBufferInode
      simp only [hsize]
      rw [writePieces_congr hb fun t ht => (hfit t ht).buf]
    · exact fun h0 => by omega

end Inside

/-- **Transfers stay inside the request** exactly when there is at least one
byte to write, and it is not an empty file that is read from its start. -/
theorem transfersInside_iff {f : File} {off sz : Nat} (hbs : Sized f.fs) (h : off + sz < 2 ^ 31) :
    ReadsInside f.fs f.ino off sz ∧ WritesInside f off sz
      ↔ 0 < sz ∧ ¬(off = 0 ∧ iSize f.ino = 0) := by
  rw [readsInside_iff hbs h, writesInside_iff hbs h]
  constructor
  · exact fun ⟨hr, hw⟩ => ⟨hw, fun h0 => hr ⟨h0.1, Or.inr h0.2⟩⟩
  · refine fun ⟨hw, hn⟩ => ⟨fun h0 => hn ⟨h0.1, h0.2.resolve_left (by omega)⟩, hw⟩

/-- Ten bytes at the start of an inode of twenty bytes. -/
theorem transfersInside_ten :
    WritesInside { emptyFile with ino := setISize (fun _ => 0) 20 } 0 10 :=
  ((transfersInside_iff ⟨0, by decide, rfl⟩ (by decide)).mpr
    ⟨by decide, by decide⟩).2

/-- Reading a byte of an empty file reads block 1 too. -/
theorem readsInside_empty : ¬ReadsInside emptyFile.fs emptyFile.ino 0 1 := fun h =>
  (readsInside_iff ⟨0, by decide, rfl⟩ (by decide)).mp h ⟨rfl, Or.inr rfl⟩

end Ext2

end Shitos
