import Mathlib.Order.Interval.Finset.Nat
import Shitos.Ext2Entries

/-!
# `create_dirent2` and `find_dirent`

A directory in order is a finite map from names to inodes: `create_dirent2`
adds a name to it, and `find_dirent` looks names up (`dirent_map`).

The loop of `create_dirent2` has the block of the directory in its buffer that
the cursor is in, also behind the end (`createLoop_place`). The entry is filled
in in the buffer, and writing the buffer back fills it in in the directory
(`Shows`).
-/

namespace Shitos

namespace Ext2

open PtrTree

/-- `-ENOSPC`. -/
def enospc : Int := -28

/-- `create_dirent2`; `none` if a loop takes more than `n` turns or leaves its
buffer. -/
def createDirent2 (n : Nat) (f : File) (inoNo : Nat) (name : List UInt8) (type : Nat) :
    Option (Int × File) :=
  match loop (createTurn (dirRead f.fs f.ino) f.fs.blockSz (iSize f.ino) (name.length % 2 ^ 8)) n
      ⟨0, 0, none, 0, firstBlock f.fs f.ino⟩ with
  | .done (found, c) =>
      let (buf, f) :=
        if found then (c.buf, f)
        else (wr16 c.buf (c.p + 4) f.fs.blockSz,
          (File.save { f with ino := setISize f.ino (add32 (iSize f.ino) f.fs.blockSz) }).2)
      (writeBlockInode n f c.blockno (fillEntry buf c.p inoNo name type)).map fun (st, f) =>
        (if st = .success then 0 else enospc, f)
  | _ => none

/-- A directory in order: saved, its records in good shape, and no two entries in
use with the same name. -/
structure DirFile (p n : Nat) (f : File) (es : List Nat) : Prop extends Listing p n f es where
  tidy : Tidy (f.data p n) f.fs.blockSz es
  short : f.fs.blockSz < 2 ^ 16
  saved : Saved f

/-- The entries in use of a directory. -/
def File.entries (p n : Nat) (f : File) (es : List Nat) : List DirEntry :=
  entriesOf (f.data p n) f.fs.blockSz es

/-! ## Where the entry goes -/

/-- Where the loop of `create_dirent2` leaves off: at an empty record, behind a
record that has been cut, or at the end of the directory. -/
inductive Place (m : Mem) (blockSz iSize nameLen : Nat) (es : List Nat) : Bool × Cursor → Prop
  | reuse {pre post : List Nat} {g : Nat} {c : Cursor} (hes : es = pre ++ ([g] ++ post))
      (hdead : deInode m g = 0) (hfit : recLenFor nameLen ≤ deRecLen m g)
      (hat : At m blockSz (iSize + blockSz) g c) : Place m blockSz iSize nameLen es (true, c)
  | split {pre post : List Nat} {g real off : Nat} {c : Cursor} (hes : es = pre ++ ([g] ++ post))
      (hreal : recLenFor (deNameLen m g) = real)
      (hspace : real + recLenFor nameLen ≤ deRecLen m g)
      (hat : At m blockSz (iSize + blockSz) g c) :
      Place m blockSz iSize nameLen es (true, ⟨off, c.p + real, c.prev, c.blockno,
        wr16 (wr16 c.buf (c.p + 4) real) (c.p + real + 4) (deRecLen m g - real)⟩)
  | append {c : Cursor} (hat : At m blockSz (iSize + blockSz) iSize c) :
      Place m blockSz iSize nameLen es (false, c)

section Scan

variable {m : Mem} {blockSz iSize : Nat} {es : List Nat} {read : Nat → Mem → Mem}

theorem createLoop_place (nameLen : Nat) (R : Records m blockSz iSize es) (hpos : 0 < blockSz)
    (hread : ReadsImage read m blockSz (iSize + blockSz)) :
    ∀ (post pre : List Nat) (g n : Nat) (c : Cursor), es = pre ++ post →
      Tiles id (deRecLen m) g post iSize → post.length < n →
      At m blockSz (iSize + blockSz) g c →
      ∃ r, loop (createTurn read blockSz iSize nameLen) n c = .done r
        ∧ Place m blockSz iSize nameLen es r := by
  intro post
  induction post with
  | nil =>
      intro pre g n c hes htiles hn hat
      obtain ⟨n, rfl⟩ := Nat.exists_eq_succ_of_ne_zero (Nat.ne_of_gt hn)
      have hg : g = iSize := htiles
      subst hg
      have hstop : createTurn read blockSz g nameLen c = .stop (false, c) :=
        if_neg (by rw [hat.offset]; exact Nat.lt_irrefl g)
      exact ⟨_, loop_stop hstop n, .append hat⟩
  | cons q post ih =>
      intro pre g n c hes htiles hn hat
      obtain ⟨n, rfl⟩ := Nat.exists_eq_succ_of_ne_zero (Nat.ne_of_gt (Nat.zero_lt_of_lt hn))
      obtain ⟨rfl, hrec, htiles⟩ := htiles
      rw [id_eq] at hat htiles
      have hmem : q ∈ es := by
        rw [hes]
        exact List.mem_append_right _ List.mem_cons_self
      have hlt : q < iSize := by
        have := htiles.le
        omega
      have hsame := hat.sameEntry R hmem (by omega)
      have hin := R.inBlock q hmem
      have hfits := R.fits q hmem
      have hp := hat.p
      have hturn : createTurn read blockSz iSize nameLen c
          = if deInode m q = 0 ∧ recLenFor nameLen ≤ deRecLen m q then .stop (true, c)
            else if recLenFor (deNameLen m q) + recLenFor nameLen ≤ deRecLen m q then
              .stop (true, ⟨(c.offset + recLenFor (deNameLen m q)) % 2 ^ 32,
                c.p + recLenFor (deNameLen m q), c.prev, c.blockno,
                wr16 (wr16 c.buf (c.p + 4) (recLenFor (deNameLen m q)))
                  (c.p + recLenFor (deNameLen m q) + 4)
                  (deRecLen m q - recLenFor (deNameLen m q))⟩)
            else .next (c.next read blockSz) := by
        have hge := recLenFor_ge nameLen
        unfold createTurn
        rw [if_pos (by rw [hat.offset]; exact hlt), if_neg (by omega), hsame.inode, hsame.recLen,
          hsame.nameLen]
        by_cases hspace : recLenFor (deNameLen m q) + recLenFor nameLen ≤ deRecLen m q
        · simp only [if_pos hspace]
          rw [if_neg (show ¬blockSz < c.p + recLenFor (deNameLen m q) + 8 by omega)]
        · simp only [if_neg hspace]
      by_cases hreuse : deInode m q = 0 ∧ recLenFor nameLen ≤ deRecLen m q
      · rw [if_pos hreuse] at hturn
        exact ⟨_, loop_stop hturn n, .reuse hes hreuse.1 hreuse.2 hat⟩
      · rw [if_neg hreuse] at hturn
        by_cases hspace : recLenFor (deNameLen m q) + recLenFor nameLen ≤ deRecLen m q
        · rw [if_pos hspace] at hturn
          exact ⟨_, loop_stop hturn n, .split hes rfl hspace hat⟩
        · rw [if_neg hspace] at hturn
          rw [loop_next hturn]
          exact ih (pre ++ [q]) _ n _ (by rw [hes, List.append_assoc]; rfl) htiles
            (Nat.lt_of_succ_lt_succ hn) (hat.next R hpos (Nat.dvd_add R.multiple (Nat.dvd_refl _))
              (Nat.le_add_right _ _) hread hmem)

end Scan

/-! ## Editing a block in the buffer -/

/-- The buffer holds the bytes of `m` from `base` on. -/
def Shows (m : Mem) (base blockSz : Nat) (buf : Mem) : Prop :=
  ∀ i < blockSz, buf i = m (base + i)

section Shows

variable {m m' buf : Mem} {base blockSz : Nat}

theorem Shows.wr8 (h : Shows m base blockSz buf) (p v : Nat) :
    Shows (wr8 m (base + p) v) base blockSz (wr8 buf p v) := fun i hi => by
  by_cases hp : i = p
  · rw [hp, Shitos.wr8, Shitos.wr8, if_pos rfl, if_pos rfl]
  · rw [wr8_apply_of_ne hp, wr8_apply_of_ne (by omega)]
    exact h i hi

theorem Shows.wr16 (h : Shows m base blockSz buf) (p v : Nat) :
    Shows (wr16 m (base + p) v) base blockSz (wr16 buf p v) := by
  rw [Shitos.wr16, Shitos.wr16, Nat.add_assoc]
  exact (h.wr8 _ _).wr8 _ _

theorem Shows.wr32 (h : Shows m base blockSz buf) (p v : Nat) :
    Shows (wr32 m (base + p) v) base blockSz (wr32 buf p v) := by
  rw [Shitos.wr32, Shitos.wr32, Nat.add_assoc]
  exact (h.wr16 _ _).wr16 _ _

theorem Shows.copy (h : Shows m base blockSz buf) (p s n : Nat) (src : Mem) :
    Shows (copy m (base + p) src s n) base blockSz (copy buf p src s n) := fun i hi => by
  by_cases hp : p ≤ i ∧ i < p + n
  · rw [copy_apply hp.1 hp.2, copy_apply (by omega) (by omega), Nat.add_sub_add_left]
  · rw [copy_apply_of_not (by omega), copy_apply_of_not (by omega)]
    exact h i hi

theorem Shows.fillEntry (h : Shows m base blockSz buf) (p inoNo type : Nat) (name : List UInt8) :
    Shows (fillEntry m (base + p) inoNo name type) base blockSz
      (fillEntry buf p inoNo name type) := by
  unfold Ext2.fillEntry
  simp only [Nat.add_assoc]
  exact (((h.wr32 _ _).wr8 _ _).wr8 _ _).copy _ _ _ _

/-- Putting the buffer back makes all changes that lie in the block. -/
theorem Shows.copy_eq (h : Shows m' base blockSz buf)
    (hout : ∀ x, x < base ∨ base + blockSz ≤ x → m' x = m x) :
    Shitos.copy m base buf 0 blockSz = m' := funext fun x => by
  by_cases hx : base ≤ x ∧ x < base + blockSz
  · rw [copy_apply hx.1 hx.2, h _ (by omega)]
    congr 1
    omega
  · rw [copy_apply_of_not (by omega)]
    exact (hout x (by omega)).symm

end Shows

/-! ## Room for one more block -/

/-- The content blocks, the home block and block 0 are different blocks of the
device. -/
theorem Mapped.fits_device {p n : Nat} {f : File} (H : Mapped p n f) :
    (n + 2) * f.fs.blockSz ≤ f.fs.devSz := by
  have hpos := H.pos
  have hin : ∀ b, InVol f.fs b → b ∈ Finset.Ico 1 (f.fs.devSz / f.fs.blockSz) := fun b hb =>
    Finset.mem_Ico.mpr ⟨hb.1, (Nat.le_div_iff_mul_le hpos).mpr hb.2⟩
  have hcard : (Finset.range n).card
      ≤ ((Finset.Ico 1 (f.fs.devSz / f.fs.blockSz)).erase (home f.fs f.no)).card := by
    refine Finset.card_le_card_of_injOn (fun k => f.at (leafPos p k)) (fun k hk => ?_)
      fun j hj k hk heq => ?_
    · have hb := H.block_live (Finset.mem_range.mp hk)
      exact Finset.mem_erase.mpr ⟨hb.notHome, hin _ hb.inVol⟩
    · have hj' := Finset.mem_range.mp hj
      have hk' := Finset.mem_range.mp hk
      have hjmax := Nat.lt_of_lt_of_le hj' H.limit
      have hkmax := Nat.lt_of_lt_of_le hk' H.limit
      exact leafPos_inj H.tables.pos (H.separate _ _ (leafPos_valid H.tables.pos hjmax).1
        (leafPos_valid H.tables.pos hkmax).1 ((H.leaf j hjmax).mpr hj') heq)
  have hhome := hin _ H.homed.inVol
  rw [Finset.card_range, Finset.card_erase_of_mem hhome, Nat.card_Ico] at hcard
  have hlo := Finset.mem_Ico.mp hhome
  calc (n + 2) * f.fs.blockSz ≤ f.fs.devSz / f.fs.blockSz * f.fs.blockSz :=
        Nat.mul_le_mul_right _ (by omega)
    _ ≤ f.fs.devSz := Nat.div_mul_le_self _ _

section Insert

variable {p n m N q inoNo type size : Nat} {found : Bool} {f f₁ f' : File} {es es' : List Nat}
  {e : DirEntry} {name : List UInt8} {d buf : Mem}

/-- Writing back a block that has been edited in the buffer makes the edits, if no
allocation fails. -/
theorem Mapped.writeEdited (H : Mapped p n f) (hq : q ≤ n) (hN : q < N)
    (hbuf : Shows d (q * f.fs.blockSz) f.fs.blockSz buf)
    (hout : ∀ x, x < q * f.fs.blockSz ∨ q * f.fs.blockSz + f.fs.blockSz ≤ x →
      d x = f.data p n x) :
    ∃ st f' m, Ext2.writeBlockInode N f q buf = some (st, f') ∧ Gained p n m f f'
      ∧ (f'.fs.critical = f.fs.critical → st = .success ∧ q < m ∧ f'.data p m = d) := by
  have hfits : (q + 1) * f.fs.blockSz ≤ 2 ^ 32 :=
    (Nat.mul_le_mul_right _ (show q + 1 ≤ n + 2 by omega)).trans
      (H.fits_device.trans H.volume.dev)
  obtain ⟨hmax, hsectors⟩ := blocks_fit H.sized hfits
  rw [H.ptrs] at hmax
  obtain ⟨st, f', m, hw, hland, hst⟩ :=
    H.writeBlockInode (by omega) hsectors (N := N) (by omega) buf
  refine ⟨st, f', m, hw, hland.1, fun hcrit => ?_⟩
  obtain ⟨hlt, hdata⟩ := hland.of_quiet hcrit
  exact ⟨hst hlt, hlt, hdata.trans (hbuf.copy_eq hout)⟩

/-- The directory `f'` has the entries of `f` and the entry `e`. -/
structure Entered (p n m : Nat) (f f' : File) (es es' : List Nat) (e : DirEntry) : Prop where
  dir : DirFile p m f' es'
  edited : Edited p n m (iSize f'.ino) f f'
  split : ∃ a b, f.entries p n es = a ++ b ∧ f'.entries p m es' = a ++ e :: b

theorem Entered.perm (h : Entered p n m f f' es es' e) :
    (f'.entries p m es').Perm (e :: f.entries p n es) := by
  obtain ⟨a, b, hold, hnew⟩ := h.split
  rw [hold, hnew]
  exact List.perm_middle

theorem DirFile.entered (D : DirFile p n f es)
    (I : Inserted (f.data p n) f.fs.blockSz es e d size es') (hw : Edited p n m size f f')
    (hle : iSize f.ino ≤ size) (hdata : f'.data p m = d) (hm : size ≤ m * f.fs.blockSz) :
    Entered p n m f f' es es' e := by
  have hbs := hw.blockSz
  have hsize : iSize f'.ino = size := hw.size.trans (Nat.max_eq_right hle)
  refine ⟨⟨⟨hw.mapped, ?_, ?_⟩, ?_, ?_, hw.saved D.saved⟩, ?_, ?_⟩
  · rw [hdata, hbs, hsize]
    exact I.records
  · rw [hbs, hsize]
    exact hm
  · rw [hdata, hbs]
    exact I.tidy
  · rw [hbs]
    exact D.short
  · rw [hsize]
    exact hw
  · rw [File.entries, File.entries, hdata, hbs]
    exact I.split

/-- The last step of `create_dirent2`, on the file `f₁` with the size the directory
is to have. -/
theorem DirFile.enter (D : DirFile p n f es)
    (I : Inserted (f.data p n) f.fs.blockSz es e d size es') (hle : iSize f.ino ≤ size)
    (hw : Edited p n n size f f₁) (hsame : f₁.data p n = f.data p n) (hq : q ≤ n) (hN : q < N)
    (hbuf : Shows d (q * f.fs.blockSz) f.fs.blockSz buf)
    (hout : ∀ x, x < q * f.fs.blockSz ∨ q * f.fs.blockSz + f.fs.blockSz ≤ x →
      d x = f.data p n x)
    (hm : ∀ m, n ≤ m → q < m → size ≤ m * f.fs.blockSz) :
    ∃ st f' m, Ext2.writeBlockInode N f₁ q buf = some (st, f')
      ∧ Edited p n m size f f'
      ∧ (f'.fs.critical = f.fs.critical → st = .success ∧ Entered p n m f f' es es' e) := by
  have hbs := hw.blockSz
  obtain ⟨st, f', m, hwrite, hgain, hend⟩ := hw.mapped.writeEdited hq hN (by rwa [hbs])
    (by rwa [hbs, hsame])
  have hw' := hw.gained hgain
  refine ⟨st, f', m, hwrite, hw', fun hcrit => ?_⟩
  have h₁ := hw.critical
  have h₂ := hgain.critical
  obtain ⟨hst, hlt, hdata⟩ := hend (by omega)
  exact ⟨hst, D.entered I hw' hle hdata (hm m hw'.le hlt)⟩

/-- What is left of `create_dirent2` when the entry has its place. -/
theorem createDirent2_done {st : Status} {c : Cursor} {buf : Mem}
    (hloop : loop (createTurn (dirRead f.fs f.ino) f.fs.blockSz (iSize f.ino)
      (name.length % 2 ^ 8)) N ⟨0, 0, none, 0, firstBlock f.fs f.ino⟩ = .done (found, c))
    (hstart : (if found then (c.buf, f) else (wr16 c.buf (c.p + 4) f.fs.blockSz,
      (File.save { f with ino := setISize f.ino (add32 (iSize f.ino) f.fs.blockSz) }).2))
        = (buf, f₁))
    (hwrite : writeBlockInode N f₁ c.blockno (fillEntry buf c.p inoNo name type)
      = some (st, f')) :
    createDirent2 N f inoNo name type = some (if st = .success then 0 else enospc, f') := by
  unfold createDirent2
  rw [hloop]
  simp only [hstart, hwrite, Option.map_some]

/-- **Entering a name.** If no allocation fails, `create_dirent2` succeeds, and the
directory has the new entry and those it had. -/
theorem DirFile.createDirent2 (D : DirFile p n f es) (E : Enterable inoNo name type)
    (hnew : name ∉ (f.entries p n es).map DirEntry.name) (hN : iSize f.ino < N) :
    ∃ r f' m size, Ext2.createDirent2 N f inoNo name type = some (r, f') ∧ Edited p n m size f f'
      ∧ (f'.fs.critical = f.fs.critical →
        r = 0 ∧ ∃ es' b, Entered p n m f f' es es' ⟨inoNo, name, type, b⟩) := by
  have hpos := D.pos
  have hmapped := D.covers
  have R := D.records
  have hlen : name.length % 2 ^ 8 = name.length := Nat.mod_eq_of_lt E.short
  have hcount : es.length < N := by
    have := R.tiles.length_le (k := 1) fun g hg => R.tiles.pos hg
    omega
  have hread : ReadsImage (dirRead f.fs f.ino) (f.data p n) f.fs.blockSz
      (iSize f.ino + f.fs.blockSz) := D.reads _
  obtain ⟨r, hloop, hplace⟩ := createLoop_place name.length R hpos hread es [] 0 N
    ⟨0, 0, none, 0, firstBlock f.fs f.ino⟩ rfl R.tiles hcount
    ⟨rfl, (Nat.zero_mod _).symm, (Nat.zero_div _).symm, fun _ i hi => by
      rw [Nat.zero_div]
      exact D.readBlockInode 0 f.fs.fresh hi⟩
  rw [← hlen] at hloop
  have hblock : ∀ g, g ≤ iSize f.ino → g / f.fs.blockSz ≤ n ∧ g / f.fs.blockSz < N :=
    fun g hg => ⟨Nat.div_le_of_le_mul (by rw [Nat.mul_comm]; omega),
      (Nat.div_le_self _ _).trans_lt (by omega)⟩
  -- the entry is in the block at `base`, which the buffer shows
  have hshows : ∀ g c, At (f.data p n) f.fs.blockSz (iSize f.ino + f.fs.blockSz) g c →
      g ≤ iSize f.ino → Shows (f.data p n) (c.blockno * f.fs.blockSz) f.fs.blockSz c.buf
        ∧ c.blockno * f.fs.blockSz + c.p = g ∧ c.blockno ≤ n ∧ c.blockno < N :=
    fun g c hat hg => by
      have hbuf := hat.buf (by omega)
      obtain ⟨h₁, h₂⟩ := hblock g hg
      rw [hat.blockno, hat.p]
      exact ⟨hbuf, Nat.div_add_mod' g _, h₁, h₂⟩
  cases hplace with
  | @reuse pre post g c hes hdead hfit hat =>
      have hg : g ∈ es := by
        rw [hes]
        exact List.mem_append_right _ List.mem_cons_self
      have hin := R.inBlock g hg
      have hbounds := (R.tiles.bounds hg).2
      rw [id_eq] at hbounds
      obtain ⟨hshow, hgp, hq, hqN⟩ := hshows g c hat (by omega)
      have I := inserted_reuse R D.tidy E hes hdead hfit hnew
      have hfill := hshow.fillEntry c.p inoNo type name
      rw [hgp] at hfill
      have hroom : 8 + name.length ≤ recLenFor name.length := recLenFor_name name.length
      rw [← hat.p] at hin
      obtain ⟨st, f', m, hwrite, hw, hend⟩ := D.enter I (Nat.le_refl _)
        (Edited.refl D.toMapped (Nat.le_refl _)) rfl hq hqN hfill
        (fun x hx => fillEntry_apply E.short (by omega)) fun m hm _ =>
          hmapped.trans (Nat.mul_le_mul_right _ hm)
      refine ⟨_, f', m, _, createDirent2_done hloop rfl hwrite, hw, fun hcrit => ?_⟩
      obtain ⟨rfl, hent⟩ := hend hcrit
      exact ⟨if_pos rfl, _, _, hent⟩
  | @split pre post g real off c hes hreal hspace hat =>
      have hg : g ∈ es := by
        rw [hes]
        exact List.mem_append_right _ List.mem_cons_self
      have hin := R.inBlock g hg
      have hbounds := (R.tiles.bounds hg).2
      rw [id_eq] at hbounds
      obtain ⟨hshow, hgp, hq, hqN⟩ := hshows g c hat (by omega)
      have I := inserted_split R D.tidy E hes hreal hspace hnew
      have hfill := ((hshow.wr16 (c.p + 4) real).wr16 (c.p + real + 4)
        (deRecLen (f.data p n) g - real)).fillEntry (c.p + real) inoNo type name
      rw [show c.blockno * f.fs.blockSz + (c.p + 4) = g + 4 by omega,
        show c.blockno * f.fs.blockSz + (c.p + real + 4) = g + real + 4 by omega,
        show c.blockno * f.fs.blockSz + (c.p + real) = g + real by omega] at hfill
      have hroom := recLenFor_name name.length
      have hroom' := recLenFor_ge (deNameLen (f.data p n) g)
      rw [← hat.p] at hin
      obtain ⟨st, f', m, hwrite, hw, hend⟩ := D.enter I (Nat.le_refl _)
        (Edited.refl D.toMapped (Nat.le_refl _)) rfl hq hqN hfill (fun x hx => by
          rw [fillEntry_apply E.short (by omega), wr16_apply_of_ne (by omega),
            wr16_apply_of_ne (by omega)]) fun m hm _ =>
          hmapped.trans (Nat.mul_le_mul_right _ hm)
      refine ⟨_, f', m, _, createDirent2_done hloop rfl hwrite, hw, fun hcrit => ?_⟩
      obtain ⟨rfl, hent⟩ := hend hcrit
      exact ⟨if_pos rfl, _, _, hent⟩
  | @append c hat =>
      obtain ⟨hshow, hgp, hq, hqN⟩ := hshows _ c hat (Nat.le_refl _)
      have hp : c.p = 0 := hat.p.trans (Nat.mod_eq_zero_of_dvd R.multiple)
      have hlt : iSize f.ino + f.fs.blockSz < 2 ^ 32 := by
        have hfits := D.fits_device
        rw [Nat.add_mul] at hfits
        have := D.volume.dev
        omega
      have hge := D.sized.bounds.1
      have hdvd : 4 ∣ f.fs.blockSz := Nat.dvd_trans (by decide) D.volume.blockSz_dvd
      have hfit : recLenFor name.length ≤ f.fs.blockSz := by
        have := E.short
        unfold recLenFor
        omega
      have I := inserted_append R D.tidy E hpos D.short hdvd hfit hlt hnew
      have hfill := (hshow.wr16 (c.p + 4) f.fs.blockSz).fillEntry c.p inoNo type name
      rw [show c.blockno * f.fs.blockSz + (c.p + 4) = iSize f.ino + 4 by omega, hgp] at hfill
      have hroom := recLenFor_name name.length
      obtain ⟨hw, hdata, -⟩ := D.resize hlt
      have hresize : f.resize (iSize f.ino + f.fs.blockSz)
          = (File.save { f with ino := setISize f.ino (add32 (iSize f.ino) f.fs.blockSz) }).2 := by
        rw [add32_of_lt hlt]
        exact if_pos (by omega)
      obtain ⟨st, f', m, hwrite, hw', hend⟩ := D.enter I (Nat.le_add_right _ _) hw hdata hq hqN
        hfill (fun x hx => by
          rw [fillEntry_apply E.short (by omega), wr16_apply_of_ne (by omega)]) fun m _ hm => by
          have hle := Nat.mul_le_mul_right f.fs.blockSz hm
          rw [Nat.succ_mul] at hle
          omega
      refine ⟨_, f', m, _, createDirent2_done hloop (by rw [hresize]; rfl) hwrite, hw',
        fun hcrit => ?_⟩
      obtain ⟨rfl, hent⟩ := hend hcrit
      exact ⟨if_pos rfl, _, _, hent⟩

/-! ## Looking names up -/

/-- A C string is found where the entry in use has it as its name. -/
theorem hit_iff_name {m : Mem} {g : Nat} (h0 : 0 ∉ name) :
    Hit name m g ↔ deInode m g ≠ 0 ∧ deName m g = name := by
  constructor
  · rintro ⟨hlive, hlen, hreads⟩
    refine ⟨hlive, ?_⟩
    have hpre : cstr (deName m g) <+: deName m g := List.takeWhile_prefix _
    refine (hpre.eq_of_length ?_).symm.trans hreads
    rw [show cstr (deName m g) = name from hreads, length_deName, hlen]
  · rintro ⟨hlive, rfl⟩
    exact ⟨hlive, (length_deName m g).symm, (reads_iff h0).mpr rfl⟩

theorem Listing.find_entry (L : Listing p n f es) (h0 : 0 ∉ name) (hN : iSize f.ino < N) :
    ∃ r, findDirentIn N f.fs f.ino name = some r
      ∧ (r ≠ none ↔ ∃ e ∈ f.entries p n es, e.name = name)
      ∧ ∀ c, r = some c → ∃ e ∈ f.entries p n es, e.name = name ∧ deInode c.buf c.p = e.inode := by
  have hcount : es.length < N := by
    have := L.records.tiles.length_le (k := 1) fun g hg => L.records.tiles.pos hg
    omega
  have hfind := L.find name hcount
  cases hentry : entryOf (f.data p n) es name with
  | some g =>
      rw [hentry] at hfind
      obtain ⟨c, hc, hstand⟩ := hfind
      obtain ⟨hg, hhit⟩ := entryOf_hit hentry
      obtain ⟨hlive, hname⟩ := (hit_iff_name h0).mp hhit
      have hmem : entryAt (f.data p n) f.fs.blockSz g ∈ f.entries p n es :=
        mem_entriesOf.mpr ⟨g, hg, hlive, rfl⟩
      refine ⟨some c, hc, iff_of_true nofun ⟨_, hmem, hname⟩, fun c' hc' => ?_⟩
      obtain rfl := Option.some.inj hc'
      exact ⟨_, hmem, hname, hstand.entry.inode⟩
  | none =>
      rw [hentry] at hfind
      refine ⟨none, hfind, iff_of_false (fun h => h rfl) ?_, nofun⟩
      rintro ⟨e, he, hname⟩
      obtain ⟨g, hg, hlive, rfl⟩ := mem_entriesOf.mp he
      have hmiss := List.find?_eq_none.mp hentry g hg
      exact hmiss (decide_eq_true ((hit_iff_name h0).mpr ⟨hlive, hname⟩))

/-- **A directory is a finite map** from names to inodes. If no failed allocation
is reported, `create_dirent2` adds one entry to those in use; `find_dirent` finds
the entry in use that has the name. -/
theorem dirent_map (D : DirFile p n f es) :
    (∀ {N inoNo type : Nat} {name : List UInt8}, Enterable inoNo name type →
      name ∉ (f.entries p n es).map DirEntry.name → iSize f.ino < N →
      ∃ r f', Ext2.createDirent2 N f inoNo name type = some (r, f')
        ∧ (f'.fs.critical = f.fs.critical → r = 0 ∧ ∃ m es' b, DirFile p m f' es'
          ∧ (f'.entries p m es').Perm (⟨inoNo, name, type, b⟩ :: f.entries p n es)))
    ∧ ∀ {N : Nat} {name : List UInt8}, 0 ∉ name → iSize f.ino < N →
      ∃ r, findDirentIn N f.fs f.ino name = some r
        ∧ (r ≠ none ↔ ∃ e ∈ f.entries p n es, e.name = name)
        ∧ ∀ c, r = some c →
          ∃ e ∈ f.entries p n es, e.name = name ∧ deInode c.buf c.p = e.inode := by
  refine ⟨fun E hnew hN => ?_, fun h0 hN => D.find_entry h0 hN⟩
  obtain ⟨r, f', m, size, heq, -, hend⟩ := D.createDirent2 E hnew hN
  refine ⟨r, f', heq, fun hcrit => ?_⟩
  obtain ⟨hr, es', b, hent⟩ := hend hcrit
  exact ⟨hr, m, es', b, hent.dir, hent.perm⟩

end Insert

/-! ## A directory of two blocks -/

theorem namedFs_dirFile : DirFile 256 2 (fileOf namedFs 1) [0, 1024] where
  toListing := namedFs_directory.listing
  tidy := ⟨by decide +kernel, by decide +kernel, by decide +kernel⟩
  short := by decide
  saved := fun _ _ _ => rfl

/-- A second name is entered behind the first one. -/
theorem dirent_map_namedFs :
    (∃ r f', createDirent2 2049 (fileOf namedFs 1) 2 [98] 1 = some (r, f') ∧ r = 0
      ∧ ∃ m es' b, DirFile 256 m f' es' ∧ (f'.entries 256 m es').Perm
        (⟨2, [98], 1, b⟩ :: (fileOf namedFs 1).entries 256 2 [0, 1024]))
    ∧ ∃ r, findDirentIn 2049 namedFs (diskInode namedFs 1) [97] = some r ∧ r ≠ none := by
  have hcrit : (createDirent2 2049 (fileOf namedFs 1) 2 [98] 1).map (fun r => r.2.fs.critical)
      = some namedFs.critical := by decide +kernel
  constructor
  · have E : Enterable 2 [98] 1 :=
      ⟨by decide, by decide, by decide, by decide, by decide, by decide⟩
    obtain ⟨r, f', heq, hend⟩ := (dirent_map namedFs_dirFile).1 (N := 2049) E (by decide +kernel)
      (by decide +kernel)
    rw [heq] at hcrit
    obtain ⟨hr, hrest⟩ := hend (Option.some.inj hcrit)
    exact ⟨r, f', heq, hr, hrest⟩
  · obtain ⟨r, heq, hiff, -⟩ := @(dirent_map namedFs_dirFile).2 2049 [97] (by decide)
      (by decide +kernel)
    exact ⟨r, heq, hiff.mpr (by decide +kernel)⟩

end Ext2

end Shitos
