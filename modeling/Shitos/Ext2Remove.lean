import Shitos.Ext2Create

/-!
# Names that are taken away

`ext2fs_unlink` empties the entry that `find_dirent` has found, and adds its record to
the one before it in the block, if there is one (`Follows`). The entries are then the
old ones without this one (`Removed`).

What becomes of a directory whose last block is given back is not described here: its
size stays, and its records end before it.
-/

namespace Shitos

namespace Ext2

open PtrTree

/-! ## The entry before -/

/-- `prev` is the record before `g` if it is in the same block. -/
def Follows (blockSz : Nat) (pre : List Nat) (g : Nat) (prev : Option Nat) : Prop :=
  ∀ q', prev = some q' → ∃ pre' q, pre = pre' ++ [q] ∧ q' = q % blockSz
    ∧ q / blockSz = g / blockSz

section Search

variable {m : Mem} {blockSz iSize : Nat} {es : List Nat} {read : Nat → Mem → Mem}
  {name : List UInt8}

theorem Follows.next {pre : List Nat} {g : Nat} {c : Cursor} (D : Records m blockSz iSize es)
    (hc : At m blockSz iSize g c) (hg : g ∈ es) (hlt : g < iSize) :
    Follows blockSz (pre ++ [g]) (g + deRecLen m g) (c.next read blockSz).prev := by
  have hsame := (hc.sameEntry D hg hlt).recLen
  intro q' hq'
  unfold Cursor.next at hq'
  simp only at hq'
  split at hq'
  · cases hq'
  · rename_i hin
    obtain rfl := Option.some.inj hq'
    rw [hsame, hc.p] at hin
    have hsum : g + deRecLen m g = g / blockSz * blockSz + (g % blockSz + deRecLen m g) := by
      have := Nat.div_add_mod' g blockSz
      omega
    refine ⟨pre, g, rfl, hc.p, ?_⟩
    rw [hsum, div_block (Nat.lt_of_not_le hin)]

/-- Where the search stops, the entry is a hit and `prev` is before it. -/
theorem findLoop_stop (D : Records m blockSz iSize es) (hpos : 0 < blockSz)
    (hread : ReadsImage read m blockSz iSize) {c' : Cursor} :
    ∀ (post pre : List Nat) (g n : Nat) (c : Cursor), es = pre ++ post →
      Tiles id (deRecLen m) g post iSize → At m blockSz iSize g c → Follows blockSz pre g c.prev →
      findLoop read blockSz iSize name n c = some (some c') →
      ∃ pre q post, es = pre ++ q :: post ∧ Hit name m q ∧ At m blockSz iSize q c'
        ∧ Follows blockSz pre q c'.prev := by
  intro post
  induction post with
  | nil =>
      intro pre g n c hes htiles hc hprev hfind
      have hg : g = iSize := htiles
      cases n with
      | zero => cases hfind
      | succ n =>
          rw [findLoop, if_neg (by rw [hc.offset]; omega)] at hfind
          cases hfind
  | cons q post ih =>
      intro pre g n c hes htiles hc hprev hfind
      obtain ⟨rfl, hrec, htiles⟩ := htiles
      rw [id_eq] at hc hprev htiles
      have hmem : q ∈ es := by
        rw [hes]
        exact List.mem_append_right _ List.mem_cons_self
      have hlt : q < iSize := by
        have := htiles.le
        omega
      have hsame := hc.sameEntry D hmem hlt
      cases n with
      | zero => cases hfind
      | succ n =>
          rw [findLoop, if_pos (by rw [hc.offset]; exact hlt)] at hfind
          by_cases hhit : Hit name m q
          · rw [if_pos ((hsame.hit_iff name).mpr hhit)] at hfind
            obtain rfl := Option.some.inj (Option.some.inj hfind)
            exact ⟨pre, q, post, hes, hhit, hc, hprev⟩
          · rw [if_neg (mt (hsame.hit_iff name).mp hhit)] at hfind
            exact ih (pre ++ [q]) _ n _ (by rw [hes, List.append_assoc]; rfl) htiles
              (hc.next D hpos D.multiple (Nat.le_refl _) hread hmem) (.next D hc hmem hlt) hfind

end Search

/-! ## One entry less -/

/-- The image `m'` with the records `es'` has the entries of `m` with `es`, but for one of
that name. -/
structure Removed (m : Mem) (blockSz : Nat) (es : List Nat) (name : List UInt8) (m' : Mem)
    (iSize' : Nat) (es' : List Nat) : Prop where
  records : Records m' blockSz iSize' es'
  tidy : Tidy m' blockSz es'
  split : ∃ a b e, e.name = name ∧ entriesOf m blockSz es = a ++ e :: b
    ∧ entriesOf m' blockSz es' = a ++ b

section Remove

variable {m m' buf : Mem} {blockSz iSize base g p : Nat} {name : List UInt8}
  {es pre post mid mid' : List Nat} {prev : Option Nat}

/-- Replacing records by ones with one entry less. -/
theorem Removed.of_replace (mid : List Nat) (lo hi : Nat) (D : Records m blockSz iSize es)
    (T : Tidy m blockSz es) (hes : es = pre ++ (mid ++ post))
    (hpre : Tiles id (deRecLen m) 0 pre lo) (hmid : Tiles id (deRecLen m') lo mid' hi)
    (hpost : Tiles id (deRecLen m) hi post iSize) (hout : ∀ x, x < lo ∨ hi ≤ x → m' x = m x)
    (hgood : ∀ g ∈ mid', GoodRecord m' blockSz g) {e : DirEntry}
    (hless : entriesOf m blockSz mid = entriesOf m' blockSz mid' ++ [e]) :
    Removed m blockSz es e.name m' iSize (pre ++ (mid' ++ post)) := by
  obtain ⟨hrecords, hgood', hentries⟩ :=
    D.replace T hes hpre hmid hpost hout hgood D.multiple D.bounded
  have hold : entriesOf m blockSz es = (entriesOf m blockSz pre ++ entriesOf m' blockSz mid')
      ++ e :: entriesOf m blockSz post := by
    rw [hes, entriesOf_append, entriesOf_append, hless]
    simp
  have hnew : entriesOf m' blockSz (pre ++ (mid' ++ post))
      = (entriesOf m blockSz pre ++ entriesOf m' blockSz mid') ++ entriesOf m blockSz post := by
    rw [hentries, List.append_assoc]
  refine ⟨hrecords, ⟨fun g hg => (hgood' g hg).aligned, fun g hg => (hgood' g hg).padded, ?_⟩,
    _, _, e, rfl, hold, hnew⟩
  have hdistinct := T.distinct
  rw [hold] at hdistinct
  rw [hnew]
  refine hdistinct.sublist (List.Sublist.map _ ?_)
  exact (List.Sublist.refl _).append (List.sublist_cons_self _ _)

/-- The entry is emptied where it is. -/
theorem removed_alone (D : Records m blockSz iSize es) (T : Tidy m blockSz es)
    (hes : es = pre ++ ([g] ++ post)) (hlive : deInode m g ≠ 0) (hname : deName m g = name) :
    Removed m blockSz es name (wr32 m g 0) iSize (pre ++ ([g] ++ post)) := by
  have hgood := D.good T g (by simp [hes])
  obtain ⟨hpre, hpos, hpost⟩ := tiles_split.mp (hes ▸ D.tiles)
  rw [id_eq] at hpre hpost
  have hrec : deRecLen (wr32 m g 0) g = deRecLen m g :=
    rd16_congr fun x _ _ => wr32_apply_of_ne (by omega)
  have hlen : deNameLen (wr32 m g 0) g = deNameLen m g := rd8_wr32_of_disjoint (by omega)
  have hfits := hgood.fits
  subst hname
  refine Removed.of_replace (e := entryAt m blockSz g) [g] g (g + deRecLen m g) D T hes hpre ?_
    hpost (fun x hx => wr32_apply_of_ne (by omega)) (fun x hx => ?_) ?_
  · refine ⟨rfl, ?_, ?_⟩
    · rw [hrec]
      exact hpos
    · rw [hrec]
      rfl
  · rw [List.mem_singleton.mp hx]
    refine ⟨?_, ?_, ?_⟩
    · rw [hrec]
      exact hgood.inBlock
    · rw [hrec]
      exact hgood.aligned
    · rw [hrec, hlen]
      exact hgood.padded
  · rw [entriesOf_cons_live hlive, entriesOf_cons_dead (rd32_wr32_same _ (by decide))]
    rfl

/-- The entry is emptied, and covered by the record before it. -/
theorem removed_covered {q : Nat} (D : Records m blockSz iSize es) (T : Tidy m blockSz es)
    (hpos : 0 < blockSz) (hshort : blockSz < 2 ^ 16) (hes : es = pre ++ ([q, g] ++ post))
    (hblock : q / blockSz = g / blockSz) (hlive : deInode m g ≠ 0) (hname : deName m g = name) :
    q + deRecLen m q = g ∧ Removed m blockSz es name
      (wr16 (wr32 m g 0) (q + 4) (deRecLen m q + deRecLen m g)) iSize (pre ++ ([q] ++ post)) := by
  have hgoodq := D.good T q (by simp [hes])
  have hgoodg := D.good T g (by simp [hes])
  obtain ⟨hpre, hposq, htail⟩ := tiles_split.mp (hes ▸ D.tiles)
  obtain ⟨hqg, hposg, hpost⟩ := htail
  rw [id_eq] at hpre hqg hpost
  have hqg' : q + deRecLen m q = g := hqg.symm
  rw [hqg'] at hpost
  have hfits := hgoodq.fits
  have hfits' := hgoodg.fits
  have hin : q % blockSz + (deRecLen m q + deRecLen m g) ≤ blockSz := by
    have hg := hgoodg.inBlock
    have h₁ := Nat.div_add_mod' q blockSz
    have h₂ := Nat.div_add_mod' g blockSz
    rw [hblock] at h₁
    omega
  have hsum : deRecLen m q + deRecLen m g < 65536 := by omega
  have hkeep : ∀ x, (x < q + 4 ∨ q + 6 ≤ x) → (x < g ∨ g + 4 ≤ x) →
      wr16 (wr32 m g 0) (q + 4) (deRecLen m q + deRecLen m g) x = m x := fun x h₁ h₂ => by
    rw [wr16_apply_of_ne (by omega), wr32_apply_of_ne (by omega)]
  have hrec : deRecLen (wr16 (wr32 m g 0) (q + 4) (deRecLen m q + deRecLen m g)) q
      = deRecLen m q + deRecLen m g := rd16_wr16_same _ hsum
  have hlen : deNameLen (wr16 (wr32 m g 0) (q + 4) (deRecLen m q + deRecLen m g)) q
      = deNameLen m q := by
    rw [deNameLen, deNameLen, rd8, rd8, hkeep _ (by omega) (by omega)]
  have hino : deInode (wr16 (wr32 m g 0) (q + 4) (deRecLen m q + deRecLen m g)) q = deInode m q :=
    rd32_congr fun x _ _ => hkeep x (by omega) (by omega)
  have hentry : entryAt (wr16 (wr32 m g 0) (q + 4) (deRecLen m q + deRecLen m g)) blockSz q
      = entryAt m blockSz q := by
    have hnameq := deName_congr hlen fun i hi => hkeep (q + 8 + i) (by omega) (by
      rw [hlen] at hi
      omega)
    rw [entryAt, entryAt, hino, hnameq, deType, deType, rd8, rd8, hkeep _ (by omega) (by omega)]
  subst hname
  refine ⟨hqg', Removed.of_replace (e := entryAt m blockSz g) [q, g] q (g + deRecLen m g) D T hes
    hpre ?_ hpost (fun x hx => hkeep x (by omega) (by omega))
    (fun x hx => ?_) ?_⟩
  · refine ⟨rfl, ?_, ?_⟩
    · rw [hrec]
      omega
    · rw [hrec]
      show q + (deRecLen m q + deRecLen m g) = g + deRecLen m g
      omega
  · rw [List.mem_singleton.mp hx]
    refine ⟨?_, ?_, ?_⟩
    · rw [hrec]
      exact hin
    · rw [hrec]
      exact Nat.dvd_add hgoodq.aligned hgoodg.aligned
    · rw [hrec, hlen]
      exact Nat.le_add_right_of_le hgoodq.padded
  · by_cases hliveq : deInode m q = 0
    · rw [entriesOf_cons_dead hliveq, entriesOf_cons_dead (hino.trans hliveq),
        entriesOf_cons_live hlive]
      rfl
    · have hliveq' : deInode (wr16 (wr32 m g 0) (q + 4) (deRecLen m q + deRecLen m g)) q ≠ 0 := by
        rw [hino]
        exact hliveq
      rw [entriesOf_cons_live hliveq, entriesOf_cons_live hliveq', entriesOf_cons_live hlive,
        hentry]
      rfl

/-- Emptying an entry in the buffer removes it from the image that the buffer shows. -/
theorem emptyEntry_removed (D : Records m blockSz iSize es) (T : Tidy m blockSz es)
    (hpos : 0 < blockSz) (hshort : blockSz < 2 ^ 16) (hes : es = pre ++ g :: post)
    (hprev : Follows blockSz pre g prev) (hlive : deInode m g ≠ 0) (hname : deName m g = name)
    (hbuf : Shows m (g / blockSz * blockSz) blockSz buf) :
    ∃ m' es', Removed m blockSz es name m' iSize es'
      ∧ Shows m' (g / blockSz * blockSz) blockSz (emptyEntry buf (g % blockSz) prev).1
      ∧ ∀ x, x < g / blockSz * blockSz ∨ g / blockSz * blockSz + blockSz ≤ x → m' x = m x := by
  have hg := Nat.div_add_mod' g blockSz
  have hgood := D.good T g (by simp [hes])
  have hin := hgood.inBlock
  have hfits := hgood.fits
  cases prev with
  | none =>
      have hshow := hbuf.wr32 (g % blockSz) 0
      rw [hg] at hshow
      exact ⟨_, _, removed_alone D T hes hlive hname, hshow, fun x hx =>
        wr32_apply_of_ne (by omega)⟩
  | some q' =>
      obtain ⟨pre', q, rfl, rfl, hblock⟩ := hprev q' rfl
      have hes' : es = pre' ++ ([q, g] ++ post) := by
        rw [hes, List.append_assoc]
        rfl
      obtain ⟨hqg, hrem⟩ := removed_covered D T hpos hshort hes' hblock hlive hname
      have hgoodq := D.good T q (by simp [hes'])
      have hfitsq := hgoodq.fits
      have hinq := hgoodq.inBlock
      have hq := Nat.div_add_mod' q blockSz
      rw [hblock] at hq
      have hsame : ∀ {p}, p ∈ es → p / blockSz = g / blockSz →
          SameEntry m buf p (p % blockSz) := fun hp hb =>
        sameEntry_of_block (by rw [hb]; exact hbuf) (D.inBlock _ hp) (D.fits _ hp)
      have hrecg := (hsame (p := g) (by simp [hes]) rfl).recLen
      have hrecq := (hsame (p := q) (by simp [hes']) hblock).recLen
      have hrecq' : deRecLen (wr32 buf (g % blockSz) 0) (q % blockSz) = deRecLen m q := by
        rw [← hrecq]
        exact rd16_congr fun x _ _ => wr32_apply_of_ne (by omega)
      have hrecg' : deRecLen (wr32 buf (g % blockSz) 0) (g % blockSz) = deRecLen m g := by
        rw [← hrecg]
        exact rd16_congr fun x _ _ => wr32_apply_of_ne (by omega)
      have hshow := (hbuf.wr32 (g % blockSz) 0).wr16 (q % blockSz + 4) (deRecLen m q + deRecLen m g)
      rw [← Nat.add_assoc, hg, hq] at hshow
      refine ⟨_, _, hrem, ?_, fun x hx => ?_⟩
      · unfold emptyEntry
        simp only [hrecq', hrecg']
        rw [Nat.mod_eq_of_lt (show deRecLen m q + deRecLen m g < 2 ^ 16 by
          have := hgood.inBlock
          omega)]
        exact hshow
      · rw [wr16_apply_of_ne (by omega), wr32_apply_of_ne (by omega)]

end Remove

/-! ## Taking a name away -/

/-- The test `free_block` of `ext2fs_unlink` is passed for the name. -/
def GivesBack (n : Nat) (fs : Fs) (no : Nat) (name : List UInt8) : Prop :=
  ∃ pino c, readInode fs no = some pino ∧ findDirentIn n fs pino name = some (some c)
    ∧ FreesBlock fs pino (emptyEntry c.buf c.p c.prev).1 (emptyEntry c.buf c.p c.prev).2 c.blockno

section Unlink

variable {p k m d t N : Nat} {A : Nodes} {fs : Fs} {f f' : File} {es es' : List Nat} {n : Node}
  {name : List UInt8} {names : List UInt8 → Option Nat} {img : Mem}

/-- The directory with the new contents. -/
theorem DirFile.removed (D : DirFile p k f es)
    (R : Removed (f.data p k) f.fs.blockSz es name img (iSize f.ino) es')
    (hw : Edited p k m (iSize f.ino) f f') (hdata : f'.data p m = img) :
    DirFile p m f' es' ∧ ∃ a b e, e.name = name ∧ f.entries p k es = a ++ e :: b
      ∧ f'.entries p m es' = a ++ b := by
  have hbs := hw.blockSz
  have hsize : iSize f'.ino = iSize f.ino := hw.size.trans (Nat.max_self _)
  refine ⟨⟨⟨hw.mapped, ?_, ?_⟩, ?_, ?_, hw.saved D.saved⟩, ?_⟩
  · rw [hdata, hbs, hsize]
    exact R.records
  · rw [hbs, hsize]
    exact D.covers.trans (Nat.mul_le_mul_right _ hw.le)
  · rw [hdata, hbs]
    exact R.tidy
  · rw [hbs]
    exact D.short
  · rw [File.entries, File.entries, hdata, hbs]
    exact R.split

/-- The name is gone, and the other names are there. -/
theorem leads_removed {l l' a b : List DirEntry} {e : DirEntry}
    (hnames : ∀ name t, names name = some t ↔ ∃ e ∈ l, e.name = name ∧ e.inode = t)
    (hdistinct : (l.map DirEntry.name).Nodup) (hl : l = a ++ e :: b) (hl' : l' = a ++ b)
    (name : List UInt8) (t : Nat) : Function.update names e.name none name = some t
      ↔ ∃ e ∈ l', e.name = name ∧ e.inode = t := by
  subst hl hl'
  have hgone : e.name ∉ (a ++ b).map DirEntry.name :=
    (List.nodup_cons.mp ((List.perm_middle.map DirEntry.name).nodup_iff.mp hdistinct)).1
  by_cases h : name = e.name
  · subst h
    rw [Function.update_self]
    refine iff_of_false (by simp) ?_
    rintro ⟨e', he', heq, -⟩
    exact hgone (heq ▸ List.mem_map_of_mem he')
  · rw [Function.update_of_ne h, hnames]
    constructor
    · rintro ⟨e', he', heq⟩
      rcases List.mem_cons.mp (List.perm_middle.mem_iff.mp he') with rfl | hmem
      · exact absurd heq.1.symm h
      · exact ⟨e', hmem, heq⟩
    · rintro ⟨e', he', heq⟩
      exact ⟨e', List.perm_middle.mem_iff.mpr (List.mem_cons_of_mem _ he'), heq⟩

/-- The search for a name that is there, in a directory as it has been read. -/
theorem DirFile.stop (D : DirFile p k f es) (h0 : 0 ∉ name) (hN : es.length < N)
    (hmem : ∃ e ∈ f.entries p k es, e.name = name) :
    ∃ c pre g post, findDirentIn N f.fs f.ino name = some (some c) ∧ es = pre ++ g :: post
      ∧ deInode (f.data p k) g ≠ 0 ∧ deName (f.data p k) g = name
      ∧ At (f.data p k) f.fs.blockSz (iSize f.ino) g c ∧ Follows f.fs.blockSz pre g c.prev := by
  have hfind := D.toListing.find name hN
  cases hentry : entryOf (f.data p k) es name with
  | none =>
      obtain ⟨e, he, hname⟩ := hmem
      obtain ⟨g, hg, hlive, rfl⟩ := mem_entriesOf.mp he
      have hmiss := List.find?_eq_none.mp hentry g hg
      exact absurd (decide_eq_true ((hit_iff_name h0).mpr ⟨hlive, hname⟩)) hmiss
  | some g =>
      rw [hentry] at hfind
      obtain ⟨c, hc, -⟩ := hfind
      obtain ⟨pre, q, post, hes, hhit, hat, hprev⟩ := findLoop_stop D.records D.pos (D.reads _)
        es [] 0 N ⟨0, 0, none, 0, firstBlock f.fs f.ino⟩ rfl D.records.tiles
        ⟨rfl, (Nat.zero_mod _).symm, (Nat.zero_div _).symm, fun _ i hi => by
          rw [Nat.zero_div]
          exact D.readBlockInode 0 f.fs.fresh hi⟩ (fun q' hq' => by cases hq') hc
      obtain ⟨hlive, hname⟩ := (hit_iff_name h0).mp hhit
      exact ⟨c, pre, q, post, hc, hes, hlive, hname, hat, hprev⟩

/-- Taking away a name that is not there. -/
theorem Image.unlink_missing (W : Image p A fs) (hrw : fs.rw = true) (hd : A.IsDir d names)
    (h0 : 0 ∉ name) (hname : names name = none) (hN : 2 ^ 32 ≤ N) :
    ext2fsUnlink N fs d name = some (enoent, fs) := by
  obtain ⟨nd, hnd, hb⟩ := hd
  have hon := W.nodes d nd hnd
  have hholds := hon.holds
  rw [hb] at hholds
  obtain ⟨pino, hread, hs, -⟩ := W.laid.read hon.number
  have hmiss := (Names.find hholds hs W.laid.inodeSz.1 h0 hN).1 hname
  simp [ext2fsUnlink, hrw, hread, hmiss]

/-- Taking a name away. -/
theorem Image.unlink (W : Image p A fs) (hrw : fs.rw = true) (hd : A.IsDir d names)
    (h0 : 0 ∉ name) (hname : names name = some t) (hn : A t = some n) (htyped : n.Typed)
    (hb : ∀ names, n.body ≠ .dir names) (hlinks : n.links ≠ 0) (hN : 2 ^ 32 ≤ N)
    (hkeep : ¬GivesBack N fs d name) :
    ∃ fs', ext2fsUnlink N fs d name = some (0, fs') ∧ fs'.rw = true ∧ fs.critical ≤ fs'.critical
      ∧ (fs'.critical = fs.critical → Image p (A.setName d name none) fs') := by
  obtain ⟨nd, hnd, hbd⟩ := hd
  have hond := W.nodes d nd hnd
  have hholds := hond.holds
  rw [hbd] at hholds
  obtain ⟨pino, hread, hs, -⟩ := W.laid.read hond.number
  obtain ⟨k, es, D, hat, hnames⟩ :=
    @Names.opened p ⟨fs, pino, d, []⟩ names hholds hs W.laid.inodeSz.1
  have hcount : es.length < N := by
    have hle := D.records.tiles.length_le (k := 1) fun g hg => D.records.tiles.pos hg
    have hlt := D.records.bounded
    change _ ≤ iSize pino at hle
    change iSize pino < _ at hlt
    omega
  obtain ⟨e, he, heq, hino⟩ := (hnames name t).mp hname
  obtain ⟨c, pre, g, post, hc, hes, hlive, hgname, hstand, hprev⟩ := D.stop h0 hcount ⟨e, he, heq⟩
  have hg : g ∈ es := by simp [hes]
  have hbounds := D.records.tiles.bounds hg
  have hpos := D.records.tiles.pos hg
  rw [id_eq] at hbounds
  have hlt : g < iSize pino := Nat.lt_of_lt_of_le (Nat.lt_add_of_pos_right hpos) hbounds.2
  have hsame := hstand.sameEntry D.records hg hlt
  have hgino : deInode (File.data p k ⟨fs, pino, d, []⟩) g = t := by
    have hlead := (hnames name _).mpr ⟨_, mem_entriesOf.mpr ⟨g, hg, hlive, rfl⟩, hgname, rfl⟩
    exact Option.some.inj (hlead.symm.trans hname)
  have hcino : deInode c.buf c.p = t := hsame.inode.trans hgino
  have hon := W.nodes t n hn
  obtain ⟨target, htread, -, hcopy⟩ := W.laid.read hon.number
  have hattrs := hon.attrs.read hcopy
  have hdir : ¬IsDir target := fun h => by
    obtain ⟨names', h⟩ := (isDir_iff hon.attrs hcopy htyped).mp h
    exact hb names' h
  have htarget := @unlinkTarget_file N fs target hdir (by rwa [hattrs.links]) t
  have hfree : ¬FreesBlock fs pino (emptyEntry c.buf c.p c.prev).1 (emptyEntry c.buf c.p c.prev).2
      c.blockno := fun h => hkeep ⟨pino, c, hread, hc, h⟩
  -- the block with the entry is written back
  have hbuf : Shows (File.data p k ⟨fs, pino, d, []⟩) (g / fs.blockSz * fs.blockSz) fs.blockSz
      c.buf := hstand.buf hlt
  obtain ⟨img, es', R, hshow, hout⟩ :=
    emptyEntry_removed D.records D.tidy D.pos D.short hes hprev hlive hgname hbuf
  have hblock := D.toListing.block_lt hg
  change g / fs.blockSz < k at hblock
  have hblockN : g / fs.blockSz < N := by
    have hsz : iSize pino < 2 ^ 32 := D.records.bounded
    exact (Nat.div_le_self _ _).trans_lt (by omega)
  have hcp : c.p = g % fs.blockSz := hstand.p
  have hcb : c.blockno = g / fs.blockSz := hstand.blockno
  rw [← hcp] at hshow
  rw [hcb] at hfree
  obtain ⟨st, f', m, hwrite, hgain, hend⟩ :=
    D.toMapped.writeEdited (Nat.le_of_lt hblock) hblockN hshow hout
  have hedit := (Edited.refl D.toMapped (Nat.le_refl _)).gained hgain
  have hcall : ext2fsUnlink N fs d name = some (0, f'.fs) := by
    change findDirentIn N fs pino name = _ at hc
    unfold ext2fsUnlink
    rw [if_neg (by simp [hrw]), hread]
    simp only [hc, hcino, htread, htarget]
    unfold removeEntry
    simp only [if_neg hfree, hcb, hwrite]
    rfl
  refine ⟨f'.fs, hcall, ?_, hgain.critical, fun hcrit => ?_⟩
  · obtain ⟨new, hch⟩ := hgain.changed
    exact hch.run.format.rw.trans hrw
  · obtain ⟨-, -, hdata⟩ := hend hcrit
    obtain ⟨D', a, b, e', rfl, hold, hnew⟩ := D.removed R hedit hdata
    rw [setName_eq hnd hbd]
    exact @Image.rewritten p m A ⟨fs, pino, d, []⟩ f' es' names k _ _ nd W hnd hbd hs hat hedit D'
      (leads_removed hnames D.tidy.distinct hold hnew)

end Unlink

end Ext2

end Shitos
