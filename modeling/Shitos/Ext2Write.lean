import Shitos.Ext2File

/-!
# `ext2fs_read` and `ext2fs_write`

The file operations read the inode from the device and hand it to
`read_buffer_inode` and `write_buffer_inode`. `ext2fs_write` returns the length
of the request whether the blocks could be allocated or not, and the size of
the file has been raised before that. What it returns is true exactly when
there was room for the last block (`ext2fsWrite_reported_iff`).
-/

namespace Shitos

namespace Ext2

open PtrTree

/-- A word as the `ssize_t` it is returned as. -/
def ssize (v : Nat) : Int := if v < 2 ^ 31 then v else (v : Int) - 2 ^ 32

/-- `ext2fs_read`; `none` is a fault. -/
def ext2fsRead (fs : Fs) (no off sz : Nat) (buf : Mem) : Option (Int × Mem) :=
  match readInode fs no with
  | none => none
  | some ino =>
      let (out, buf) := readBufferInode fs ino off sz buf
      some (ssize out, buf)

/-- `-EROFS`. -/
def erofs : Int := -30

/-- `ext2fs_write`; `none` is a fault, or a loop of more than `n` turns. -/
def ext2fsWrite (n : Nat) (fs : Fs) (no off sz : Nat) (buf : Mem) : Option (Int × Fs) :=
  if fs.rw = false then some (erofs, fs)
  else
    match readInode fs no with
    | none => none
    | some ino =>
        (writeBufferInode n ⟨fs, ino, no, []⟩ off sz buf).map fun (out, f) => (ssize out, f.fs)

/-! ## The inode on the device -/

section Disk

variable {p n m : Nat} {fs : Fs} {ino : Mem} {f f' : File} {no off sz : Nat} {buf : Mem}

/-- Reading an inode that has a place on the volume. -/
theorem readInode_agree (hd : fs.devSz ≤ 2 ^ 32) (H : Homed fs no) :
    ∃ ino, readInode fs no = some ino ∧ Agree ino (diskInode fs no) 0 fs.inodeSz := by
  have hfits := H.fits
  have hread : readInode fs no = some (copy fs.fresh 0
      (readBlock fs (home fs no) fs.fresh).2 (homeOff fs no) fs.inodeSz) := by
    unfold readInode refreshInode
    rw [if_neg H.numbered.1, if_neg (Nat.not_lt.mpr H.numbered.2)]
    rfl
  refine ⟨_, hread, fun i _ hi => ?_⟩
  rw [copy_apply (Nat.zero_le i) hi, readBlock_snd hd H.inVol _ (by omega)]
  rfl

theorem saved_of_read (hd : fs.devSz ≤ 2 ^ 32) (H : Homed fs no) (h : readInode fs no = some ino) :
    Saved ⟨fs, ino, no, []⟩ := by
  obtain ⟨ino', h', hagree⟩ := readInode_agree hd H
  rw [h] at h'
  cases h'
  exact hagree.symm

/-- A saved file is found again on the device. -/
theorem Mapped.reread (H : Mapped p n f) (hs : Saved f) :
    ∃ ino, readInode f.fs f.no = some ino ∧ Mapped p n ⟨f.fs, ino, f.no, []⟩
      ∧ File.data p n ⟨f.fs, ino, f.no, []⟩ = f.data p n ∧ Agree ino f.ino 0 128
      ∧ (Tight p n f → Tight p n ⟨f.fs, ino, f.no, []⟩) := by
  obtain ⟨ino, hread, hagree⟩ := readInode_agree H.volume.dev H.homed
  have hsize := H.homed.size
  have h : Agree ino f.ino 0 128 := (hagree.trans hs).mono (Nat.le_refl 0) (by omega)
  obtain ⟨hm, hd, ht⟩ := @Mapped.of_agree p n f H ino [] h
  exact ⟨ino, hread, hm, hd, h, ht⟩

theorem iSize_congr {ino ino' : Mem} (h : Agree ino ino' 0 128) : iSize ino = iSize ino' :=
  rd32_congr (h.mono (Nat.zero_le _) (by omega))

theorem Backed.reread (H : Backed p n f) (hs : Saved f) :
    ∃ ino, readInode f.fs f.no = some ino ∧ Backed p n ⟨f.fs, ino, f.no, []⟩
      ∧ File.data p n ⟨f.fs, ino, f.no, []⟩ = f.data p n ∧ iSize ino = iSize f.ino := by
  obtain ⟨ino, hread, hm, hd, hagree, ht⟩ := H.toMapped.reread hs
  exact ⟨ino, hread, ⟨hm, ht H.next⟩, hd, iSize_congr hagree⟩

/-- The size of the file is covered by blocks. -/
def SizeMapped (fs : Fs) (no : Nat) : Prop :=
  ∃ ino, readInode fs no = some ino
    ∧ ∀ k, k * fs.blockSz < iSize ino → getRealBlock fs ino k ≠ 0

theorem Mapped.sizeMapped_iff (H : Mapped p n f) (hs : Saved f) :
    SizeMapped f.fs f.no ↔ iSize f.ino ≤ n * f.fs.blockSz := by
  obtain ⟨ino, hread, hb, -, hagree, -⟩ := H.reread hs
  have hsize := iSize_congr hagree
  have hlt : iSize ino < 2 ^ 32 := rd32_lt ino 4
  have hptrs := H.ptrs
  have hblock : ∀ k, k * f.fs.blockSz < iSize ino → (getRealBlock f.fs ino k ≠ 0 ↔ k < n) := by
    intro k hk
    have hmax := (@blocks_fit f.fs H.sized k (by omega)).1
    rw [hptrs] at hmax
    rw [hb.tables.getRealBlock_eq hmax]
    exact hb.leaf k hmax
  rw [← hsize]
  constructor
  · rintro ⟨ino', hread', hall⟩
    rw [hread] at hread'
    cases hread'
    by_contra hgt
    exact absurd ((hblock n (by omega)).mp (hall n (by omega))) (Nat.lt_irrefl n)
  · refine fun hle => ⟨ino, hread, fun k hk => (hblock k hk).mpr ?_⟩
    by_contra hkn
    have := Nat.mul_le_mul_right f.fs.blockSz (Nat.not_lt.mp hkn)
    omega

/-- `ext2fs_read` finds the bytes of a saved file. -/
theorem Mapped.ext2fsRead_eq (H : Mapped p n f) (hs : Saved f) (h : off + sz < 2 ^ 32)
    (hsz : 0 < sz) (hsize : off + sz ≤ iSize f.ino) (buf : Mem) :
    ext2fsRead f.fs f.no off sz buf
      = some (ssize sz, fun i => if i < sz then f.data p n (off + i) else buf i) := by
  obtain ⟨ino, hread, hb, hdata, hagree, -⟩ := H.reread hs
  have hino := iSize_congr hagree
  have hmin : min sz (iSize ino - off) = sz := by omega
  have heq := @Mapped.readBufferInode_eq p n _ off sz hb h (by
    show 0 < min sz (iSize ino - off)
    omega) buf
  simp only [hmin, hdata] at heq
  unfold ext2fsRead
  rw [hread]
  simp only [heq]

end Disk

/-! ## What a write reports -/

/-- What `ext2fs_write` returns is true: an error, or the number of bytes that
read back as those of the buffer. And the size is covered by blocks. -/
structure Reported (fs : Fs) (no off : Nat) (r : Int) (buf : Mem) : Prop where
  stored : r < 0 ∨ ∀ tmp, ∃ out, ext2fsRead fs no off r.toNat tmp = some (r, out)
    ∧ ∀ i < r.toNat, out i = buf i
  mapped : SizeMapped fs no

/-- The last block of a range, as the driver computes it. -/
def endBlock (fs : Fs) (off sz : Nat) : Nat := sub32 (add32 off sz) 1 / fs.blockSz

/-- There are blocks for the whole range. A range that ends past 2^32 wraps
around; then nothing is written, or the first block only. -/
def WriteFits (p n : Nat) (fs : Fs) (off sz : Nat) : Prop :=
  endBlock fs off sz < n
    ∨ need p (endBlock fs off sz + 1) ≤ need p n + supply fs
        ∧ (off + sz < 2 ^ 32 ∨ off % fs.blockSz ≠ 0)
    ∨ off + sz = 2 ^ 32

section Report

variable {p n m e size : Nat} {f f' : File} {off sz : Nat} {buf : Mem}

theorem Wrote.saved (h : Wrote p n m size f f') (hs : Saved f) : Saved f' := by
  obtain ⟨new, hc⟩ := h.changed
  exact hc.home.saved hs

theorem Wrote.blockSz (h : Wrote p n m size f f') : f'.fs.blockSz = f.fs.blockSz := by
  obtain ⟨new, hc⟩ := h.changed
  exact hc.run.format.blockSz

theorem Wrote.no (h : Wrote p n m size f f') : f'.no = f.no := by
  obtain ⟨new, hc⟩ := h.changed
  exact hc.no

/-- What is there now was there before, or has been paid for. -/
theorem Wrote.room_of_lt (h : Wrote p n m size f f') (he : e < m) : Room p e n f.fs := by
  have hmono := @need_mono p (e + 1) h.backed.tables.pos m he
  have hroom := h.room
  exact Or.inr (by omega)

/-- After a write the size is covered if the new end is. -/
theorem Wrote.sizeMapped_iff (h : Wrote p n m size f f') (hs : Saved f)
    (hsize : iSize f.ino ≤ n * f.fs.blockSz) :
    SizeMapped f'.fs f'.no ↔ size ≤ m * f.fs.blockSz := by
  rw [h.backed.sizeMapped_iff (h.saved hs), h.size, h.blockSz]
  have := Nat.mul_le_mul_right f.fs.blockSz h.le
  omega

theorem lt_iff_covered {bs : Nat} (hbs : 0 < bs) (hsize : 0 < size) :
    size ≤ m * bs ↔ (size - 1) / bs < m := by
  rw [Nat.div_lt_iff_lt_mul hbs]
  omega

theorem ssize_neg {v : Nat} (h : 2 ^ 31 ≤ v) (h' : v < 2 ^ 32) : ssize v < 0 := by
  unfold ssize
  rw [if_neg (by omega)]
  omega

theorem ssize_eq {v : Nat} (h : v < 2 ^ 31) : ssize v = v := if_pos h

/-- A range that does not wrap is reported right exactly when there is room for
its last block. -/
theorem Backed.write_reported (H : Backed p n f) (hs : Saved f)
    (hsize : iSize f.ino ≤ n * f.fs.blockSz) (hsz : 0 < sz) (h : off + sz < 2 ^ 32) {N : Nat}
    (hN : 2 ^ 32 / f.fs.blockSz ≤ N) : ∃ f', Ext2.writeBufferInode N f off sz buf = some (sz, f')
      ∧ (Reported f'.fs f.no off (ssize sz) buf
        ↔ Room p ((off + sz - 1) / f.fs.blockSz) n f.fs) := by
  have hcap := (@block_fits f.fs H.sized (off + sz - 1) (by omega)).2.2
  obtain ⟨f', m, hw, hedit, hdata⟩ := H.writeRange hsz h (show _ < N by omega) buf
  have hwrote := hedit.wrote H
  have hcov := lt_iff_covered (m := m) H.pos (show 0 < off + sz by omega)
  have hmapped := hwrote.sizeMapped_iff hs hsize
  have hno := hwrote.no
  rw [hno] at hmapped
  refine ⟨f', hw, fun hr => hwrote.room_of_lt (hcov.mp (hmapped.mp hr.mapped)), fun hroom => ?_⟩
  obtain ⟨hle, hbytes⟩ := hdata (Or.inr ⟨H.next, hroom⟩)
  refine ⟨?_, hmapped.mpr hle⟩
  rcases Nat.lt_or_ge sz (2 ^ 31) with hsmall | hbig
  · rw [ssize_eq hsmall]
    refine Or.inr fun tmp => ?_
    have hread := hwrote.backed.ext2fsRead_eq (hwrote.saved hs) h hsz
      (by rw [hwrote.size]; exact Nat.le_max_right ..) tmp
    rw [hno, ssize_eq hsmall] at hread
    refine ⟨_, hread, fun i hi => ?_⟩
    rw [Int.toNat_natCast] at hi
    show (if i < sz then _ else _) = _
    rw [if_pos hi, hbytes, copy_apply (Nat.le_add_right ..) (by omega)]
    congr 1
    omega
  · exact Or.inl (ssize_neg hbig (by omega))

/-- The transfers of a range that wraps. -/
theorem pieces_wrap {bs : Nat} (hbs : 0 < bs) (hbs' : bs ≤ 2 ^ 16) (hoff : off < 2 ^ 31)
    (hsz : sz < 2 ^ 32) (h : 2 ^ 32 < off + sz) : pieces bs off sz
      = if off % bs ≠ 0 then [⟨off / bs, off % bs, 0, bs - off % bs⟩] else [] := by
  have hadd : add32 off sz = off + sz - 2 ^ 32 := by
    unfold add32
    omega
  have hdm := Nat.div_add_mod off bs
  have hend := Nat.div_mul_le_self (off + sz - 2 ^ 32 - 1) bs
  rw [Nat.mul_comm] at hdm
  -- the range ends before it starts
  have hrest : ∀ start b, off ≤ start * bs →
      restPieces bs off sz start ((off + sz - 2 ^ 32 - 1) / bs) b = [] := by
    intro start b hstart
    have hlt : (off + sz - 2 ^ 32 - 1) / bs < start := by
      by_contra hle
      have := Nat.mul_le_mul_right bs (Nat.not_lt.mp hle)
      omega
    exact restPieces_nil hlt
  unfold pieces
  rw [hadd, sub32_of_le (show 1 ≤ off + sz - 2 ^ 32 by omega),
    show min (bs - off % bs) sz = bs - off % bs by omega]
  by_cases hal : off % bs = 0
  · rw [if_neg (not_not.mpr hal)]
    exact (if_neg (by omega)).trans (hrest _ _ (by omega))
  · rw [if_pos hal]
    refine (if_pos (Or.inl hal)).trans (congrArg _ (hrest _ _ ?_))
    have := Nat.mod_lt off hbs
    rw [Nat.add_mul]
    omega

/-- A range that ends at 2^32 has pieces for all blocks from `off` on. -/
theorem pieces_limit {bs : Nat} (hbs : 0 < bs) (hoff : off < 2 ^ 32) (h : off + sz = 2 ^ 32) :
    ∀ t ∈ pieces bs off sz, t.pos + t.len ≤ bs ∧ t.block ≤ (2 ^ 32 - 1) / bs := by
  have hadd : add32 off sz = 0 := by
    unfold add32
    omega
  have hmod := Nat.mod_lt off hbs
  have hrest : ∀ start b, ∀ t ∈ restPieces bs off sz start ((2 ^ 32 - 1) / bs) b,
      t.pos + t.len ≤ bs ∧ t.block ≤ (2 ^ 32 - 1) / bs := by
    intro start b t ht
    unfold restPieces at ht
    rw [hadd, Nat.zero_mod, if_neg fun hh => hh.1 rfl] at ht
    obtain ⟨i, hi, rfl⟩ := mem_wholePieces.mp ht
    exact ⟨Nat.le_of_eq (Nat.zero_add bs), by show start + i ≤ _; omega⟩
  intro t ht
  unfold pieces at ht
  rw [hadd, show sub32 0 1 = 2 ^ 32 - 1 from rfl] at ht
  by_cases hfirst : off % bs ≠ 0 ∨ sz < bs
  · rw [if_pos hfirst] at ht
    rcases List.mem_cons.mp ht with rfl | ht
    · refine ⟨?_, Nat.div_le_div_right (Nat.le_sub_one_of_lt hoff)⟩
      show off % bs + min (bs - off % bs) sz ≤ bs
      omega
    · exact hrest _ _ t ht
  · rw [if_neg hfirst] at ht
    exact hrest _ _ t ht

/-- A range that wraps is reported right when its end, taken modulo 2^32, is
covered: only the first block is written, and only from inside it. -/
theorem Backed.write_wrapped (H : Backed p n f) (hs : Saved f)
    (hsize : iSize f.ino ≤ n * f.fs.blockSz) (hoff : off < 2 ^ 31) (hsz : sz < 2 ^ 32)
    (h : 2 ^ 32 < off + sz) {N : Nat} (hN : 2 ^ 32 / f.fs.blockSz ≤ N) :
    ∃ f', Ext2.writeBufferInode N f off sz buf = some (sz, f')
      ∧ (Reported f'.fs f.no off (ssize sz) buf
        ↔ (off + sz - 2 ^ 32 - 1) / f.fs.blockSz < n
          ∨ need p ((off + sz - 2 ^ 32 - 1) / f.fs.blockSz + 1) ≤ need p n + supply f.fs
            ∧ off % f.fs.blockSz ≠ 0) := by
  have hbounds := H.sized.bounds
  have hadd : add32 off sz = off + sz - 2 ^ 32 := by
    unfold add32
    omega
  have hneg := ssize_neg (v := sz) (by omega) hsz
  have hreport : ∀ {m f'}, Wrote p n m (off + sz - 2 ^ 32) f f' →
      (Reported f'.fs f.no off (ssize sz) buf
        ↔ (off + sz - 2 ^ 32 - 1) / f.fs.blockSz < m) := by
    intro m f' hw
    have hmapped := hw.sizeMapped_iff hs hsize
    rw [lt_iff_covered H.pos (by omega), hw.no] at hmapped
    exact ⟨fun hr => hmapped.mp hr.mapped, fun hlt => ⟨Or.inl hneg, hmapped.mpr hlt⟩⟩
  obtain ⟨hedit, hdata, hsupply⟩ := @Mapped.resize p n f (off + sz - 2 ^ 32) H.toMapped (by omega)
  have hbs := hedit.blockSz
  unfold Ext2.writeBufferInode
  rw [hadd]
  simp only [hbs]
  rw [pieces_wrap H.pos hbounds.2 hoff hsz h]
  by_cases hal : off % f.fs.blockSz ≠ 0
  · rw [if_pos hal]
    obtain ⟨hmax, hfit, hcap⟩ := @block_fits f.fs H.sized off (by omega)
    rw [H.ptrs] at hmax
    have hmod := Nat.mod_lt off H.pos
    obtain ⟨f', m, hpiece, hgain, hend⟩ := @Mapped.writePiece p n _ hedit.mapped
      ⟨off / f.fs.blockSz, off % f.fs.blockSz, 0, f.fs.blockSz - off % f.fs.blockSz⟩
      (by rw [hbs]; show off % f.fs.blockSz + (f.fs.blockSz - off % f.fs.blockSz) ≤ _; omega)
      hmax (by rwa [sectors_congr hbs]) N (by show off / f.fs.blockSz + 1 - n ≤ N; omega) buf
    refine ⟨f', by rw [List.foldlM_cons, hpiece]; rfl, ?_⟩
    have hw := (hedit.gained hgain).wrote H
    rw [hreport hw]
    constructor
    · intro hlt
      exact (hw.room_of_lt hlt).imp_right fun hn => ⟨hn, hal⟩
    · -- the end lies before the block that is written
      have hle : (off + sz - 2 ^ 32 - 1) / f.fs.blockSz ≤ off / f.fs.blockSz :=
        Nat.div_le_div_right (by omega)
      intro hc
      rcases hend with ⟨hlt, -⟩ | ⟨-, -, -, -, hcost⟩
      · exact Nat.lt_of_le_of_lt hle hlt
      · by_contra hge
        have hpaid := hcost (hedit.paid H.next).1
        have hmono := @need_mono p (m + 1) H.tables.pos
          ((off + sz - 2 ^ 32 - 1) / f.fs.blockSz + 1) (by omega)
        have hnm := hw.le
        rcases hc with hc | hc
        · omega
        · omega
  · rw [if_neg hal]
    refine ⟨_, rfl, ?_⟩
    rw [hreport (hedit.wrote H)]
    exact ⟨Or.inl, fun hc => hc.resolve_right fun hh => hal hh.2⟩

end Report

theorem ext2fsWrite_eq {fs : Fs} {ino buf : Mem} {no out off sz N : Nat} {f' : File}
    (hrw : ¬fs.rw = false) (hread : readInode fs no = some ino)
    (hw : writeBufferInode N ⟨fs, ino, no, []⟩ off sz buf = some (out, f')) :
    ext2fsWrite N fs no off sz buf = some (ssize out, f'.fs) := by
  unfold ext2fsWrite
  rw [if_neg hrw, hread]
  simp only [hw]
  rfl

/-- **What a write reports.** On a file whose size is covered by its blocks,
`ext2fs_write` reports what it has stored exactly when the volume is read-only
or there are blocks for the whole range. -/
theorem ext2fsWrite_reported_iff {fs : Fs} {ino buf : Mem} {no p n off sz N : Nat}
    (hread : readInode fs no = some ino) (H : Backed p n ⟨fs, ino, no, []⟩)
    (hsize : iSize ino ≤ n * fs.blockSz) (hoff : off < 2 ^ 31) (hpos : 0 < sz) (hsz : sz < 2 ^ 32)
    (hN : 2 ^ 32 / fs.blockSz ≤ N) :
    (∃ r fs', ext2fsWrite N fs no off sz buf = some (r, fs') ∧ Reported fs' no off r buf)
      ↔ fs.rw = false ∨ WriteFits p n fs off sz := by
  have hs : Saved ⟨fs, ino, no, []⟩ := saved_of_read H.volume.dev H.homed hread
  by_cases hrw : fs.rw = false
  · refine iff_of_true ⟨erofs, fs, if_pos hrw, Or.inl (by decide), ?_⟩ (Or.inl hrw)
    exact (H.sizeMapped_iff hs).mpr hsize
  have hiff : ∀ {f' : File} {c : Prop}, writeBufferInode N ⟨fs, ino, no, []⟩ off sz buf
      = some (sz, f') → (Reported f'.fs no off (ssize sz) buf ↔ c) →
      ((∃ r fs', ext2fsWrite N fs no off sz buf = some (r, fs') ∧ Reported fs' no off r buf)
        ↔ fs.rw = false ∨ c) := by
    intro f' c hw hc
    rw [ext2fsWrite_eq hrw hread hw, ← hc, or_iff_right hrw]
    constructor
    · rintro ⟨r, fs', heq, hr⟩
      cases heq
      exact hr
    · exact fun hr => ⟨_, _, rfl, hr⟩
  rcases Nat.lt_trichotomy (off + sz) (2 ^ 32) with hlt | heq | hgt
  · obtain ⟨f', hw, hr⟩ := H.write_reported hs hsize hpos hlt hN
    have hend : endBlock fs off sz = (off + sz - 1) / fs.blockSz := by
      rw [endBlock, add32_of_lt hlt, sub32_of_le (by omega)]
    rw [hiff hw hr, WriteFits, hend]
    refine or_congr_right ⟨fun h => h.imp_right fun hn => Or.inl ⟨hn, Or.inl hlt⟩, ?_⟩
    rintro (h | h | h)
    · exact Or.inl h
    · exact Or.inr h.1
    · omega
  · -- the size is not raised, and the result is negative
    obtain ⟨hmax, hfit, hcap⟩ := @block_fits fs H.sized (2 ^ 32 - 1) (by decide)
    rw [H.ptrs] at hmax
    obtain ⟨f', m, hw, hedit, -⟩ := H.writeBufferInode hmax hfit (show _ < N by omega)
      (pieces_limit H.pos (by omega) heq) buf
    have hadd : add32 off sz = 0 := by
      unfold add32
      omega
    rw [hadd] at hedit
    have hwrote := hedit.wrote H
    have hmapped := (hwrote.sizeMapped_iff hs hsize).mpr (Nat.zero_le _)
    rw [hwrote.no] at hmapped
    exact iff_of_true ⟨_, _, ext2fsWrite_eq hrw hread hw, Or.inl (ssize_neg (by omega) hsz), hmapped⟩
      (Or.inr (Or.inr (Or.inr heq)))
  · obtain ⟨f', hw, hr⟩ := H.write_wrapped hs hsize hoff hsz hgt hN
    have hend : endBlock fs off sz = (off + sz - 2 ^ 32 - 1) / fs.blockSz := by
      have hadd : add32 off sz = off + sz - 2 ^ 32 := by
        unfold add32
        omega
      rw [endBlock, hadd, sub32_of_le (by omega)]
    rw [hiff hw hr, WriteFits, hend]
    refine or_congr_right ⟨fun h => h.imp_right fun hn => Or.inl ⟨hn.1, Or.inr hn.2⟩, ?_⟩
    rintro (h | h | h)
    · exact Or.inl h
    · exact Or.inr ⟨h.1, h.2.resolve_left (by omega)⟩
    · omega

/-! ## A volume with room and one without -/

/-- An empty file, and the free blocks of its volume. -/
theorem emptyFile_parts : Dense 256 0 emptyFile ∧ Saved emptyFile ∧ supply freshFs ≠ 0 := by
  refine ⟨dense_empty rfl freshFs_volume freshFs_homed (fun _ => by decide +kernel) rfl
    fun _ _ => rfl, fun i _ hi => ?_, fun h => ?_⟩
  · have hall : ∀ i < 128, diskInode freshFs 1 i = 0 := by decide +kernel
    exact hall i (by rwa [Nat.zero_add] at hi)
  · exact absurd (allocBlock_full freshFs_volume (full_iff.mpr h)) (by decide +kernel)

theorem emptyFile_dense : Dense 256 0 emptyFile := emptyFile_parts.1

theorem emptyFile_saved : Saved emptyFile := emptyFile_parts.2.1

/-- The first bytes of an empty file on a volume with free blocks. -/
theorem ext2fsWrite_reported_first :
    ∃ r fs', ext2fsWrite (2 ^ 22) freshFs 1 0 5 (fun _ => 7) = some (r, fs')
      ∧ Reported fs' 1 0 r fun _ => 7 := by
  obtain ⟨ino, hread, H, -, hsize⟩ := emptyFile_dense.backed.reread emptyFile_saved
  have hsupply := emptyFile_parts.2.2
  refine (ext2fsWrite_reported_iff hread H (Nat.le_of_eq hsize) (by decide) (by decide) (by decide)
    (by decide)).mpr (Or.inr (Or.inr (Or.inl ⟨?_, Or.inl (by decide)⟩)))
  show 1 ≤ 0 + supply freshFs
  omega

/-- The small volume with all its blocks in use. -/
abbrev spentFs : Fs := tinyFs 0xffffffff 0x7ff 0 21

/-- An empty file on it, and that it is full. -/
theorem spentFs_parts : Dense 256 0 ⟨spentFs, fun _ => 0, 1, []⟩
    ∧ Saved ⟨spentFs, fun _ => 0, 1, []⟩ ∧ supply spentFs = 0 := by
  have hused : ∀ b < 32, usedBit .block spentFs b = true := by decide +kernel
  have hcap : capacity .block spentFs = 32 := by
    rw [capacity, tinyFs_perGroup]
    rfl
  have hvolume : Volume spentFs := by
    refine ⟨tinyFs_layout _ _ _ _, ⟨fun b _ hlt => hused b (hcap ▸ hlt), fun b hlt hclear => ?_⟩,
      fun _ => hused 0 (by decide)⟩
    rw [hused b (hcap ▸ hlt)] at hclear
    cases hclear
  refine ⟨dense_empty rfl hvolume (tinyFs_homed ..) (fun _ => by decide +kernel) rfl
    fun _ _ => rfl, fun i _ hi => ?_, full_iff.mp fun g hg => Or.inl ?_⟩
  · have hall : ∀ i < 128, diskInode spentFs 1 i = 0 := by decide +kernel
    exact hall i (by rwa [Nat.zero_add] at hi)
  · obtain rfl : g = 0 := Nat.lt_one_iff.mp hg
    decide +kernel

/-- Ten bytes written to an empty file on it are reported, but they are not
there. -/
theorem ext2fsWrite_reported_spent : ∃ fs',
    ext2fsWrite (2 ^ 22) spentFs 1 0 10 (fun _ => 7) = some (10, fs')
      ∧ ¬Reported fs' 1 0 10 fun _ => 7 := by
  obtain ⟨hdense, hsaved, hfull⟩ := spentFs_parts
  obtain ⟨ino, hread, H, -, hsize⟩ := hdense.backed.reread hsaved
  have hs := saved_of_read H.volume.dev H.homed hread
  obtain ⟨f', hw, hr⟩ := @Backed.write_reported 256 0 _ 0 10 (fun _ => 7) H hs
    (Nat.le_of_eq hsize) (by decide) (by decide) (2 ^ 22) (show 2 ^ 32 / 1024 ≤ 2 ^ 22 by decide)
  refine ⟨f'.fs, ext2fsWrite_eq (fun h : true = false => nomatch h) hread hw, fun h => ?_⟩
  rcases hr.mp h with hlt | hle
  · exact absurd hlt (Nat.not_lt_zero _)
  · have hle : need 256 (9 / 1024 + 1) ≤ need 256 0 + supply spentFs := hle
    rw [hfull] at hle
    exact absurd hle (by decide)

end Ext2

end Shitos
