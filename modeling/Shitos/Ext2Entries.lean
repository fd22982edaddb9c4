import Shitos.Ext2Walk

/-!
# The entries of a directory image

What a directory means: the list of its entries in use, with their inodes,
names and types, and the blocks they are in. `create_dirent2` fills in a record
in one of three places, an empty record, the end of a record that is longer
than it needs to be, or a new block. In all three some records are replaced by
others that cover the same bytes, or new ones (`Records.replace`), and the
entries are the old ones and one more (`Inserted`).
-/

namespace Shitos

namespace Ext2

/-- What an entry in use says, and the block it is in. -/
structure DirEntry where
  inode : Nat
  name : List UInt8
  type : Nat
  block : Nat
deriving DecidableEq

/-- The entry at `g`. -/
def entryAt (m : Mem) (blockSz g : Nat) : DirEntry :=
  ⟨deInode m g, deName m g, deType m g, g / blockSz⟩

/-- The entries in use. -/
def entriesOf (m : Mem) (blockSz : Nat) (es : List Nat) : List DirEntry :=
  (es.filter fun g => deInode m g ≠ 0).map (entryAt m blockSz)

/-- The records are aligned and have room for their names, and no two entries in
use have the same name. -/
structure Tidy (m : Mem) (blockSz : Nat) (es : List Nat) : Prop where
  aligned : ∀ g ∈ es, 4 ∣ deRecLen m g
  padded : ∀ g ∈ es, recLenFor (deNameLen m g) ≤ deRecLen m g
  distinct : ((entriesOf m blockSz es).map DirEntry.name).Nodup

/-- The assignments to the entry at `p`, but for its record length. -/
def fillEntry (buf : Mem) (p inoNo : Nat) (name : List UInt8) (type : Nat) : Mem :=
  let nameLen := name.length % 2 ^ 8
  let buf := wr8 (wr8 (wr32 buf p inoNo) (p + 6) nameLen) (p + 7) type
  copy buf (p + 8) (fun i => name.getD i 0) 0 nameLen

theorem recLenFor_name (nameLen : Nat) : 8 + nameLen ≤ recLenFor nameLen := by
  unfold recLenFor
  omega

section Entries

variable {m m' : Mem} {blockSz iSize g q : Nat} {es l l' pre mid mid' post : List Nat}

theorem entriesOf_append : entriesOf m blockSz (l ++ l')
    = entriesOf m blockSz l ++ entriesOf m blockSz l' := by
  rw [entriesOf, List.filter_append, List.map_append, entriesOf, entriesOf]

theorem entriesOf_cons_dead (h : deInode m g = 0) :
    entriesOf m blockSz (g :: l) = entriesOf m blockSz l := by
  rw [entriesOf, List.filter_cons_of_neg (by simp [h]), entriesOf]

theorem entriesOf_cons_live (h : deInode m g ≠ 0) :
    entriesOf m blockSz (g :: l) = entryAt m blockSz g :: entriesOf m blockSz l := by
  rw [entriesOf, List.filter_cons_of_pos (by simp [h]), List.map_cons, entriesOf]

theorem mem_entriesOf {e : DirEntry} :
    e ∈ entriesOf m blockSz es ↔ ∃ g ∈ es, deInode m g ≠ 0 ∧ entryAt m blockSz g = e := by
  simp only [entriesOf, List.mem_map, List.mem_filter, decide_eq_true_eq, and_assoc]

/-- Records that are the same have the same entries. -/
theorem entriesOf_congr (h : ∀ g ∈ es, SameEntry m m' g g) :
    entriesOf m' blockSz es = entriesOf m blockSz es := by
  induction es with
  | nil => rfl
  | cons g es ih =>
      obtain ⟨hg, hes⟩ := List.forall_mem_cons.mp h
      have hat : entryAt m' blockSz g = entryAt m blockSz g := by
        rw [entryAt, entryAt, hg.inode, hg.name, hg.type]
      by_cases hlive : deInode m g = 0
      · rw [entriesOf_cons_dead hlive, entriesOf_cons_dead (hg.inode.trans hlive), ih hes]
      · have hlive' : deInode m' g ≠ 0 := by
          rw [hg.inode]
          exact hlive
        rw [entriesOf_cons_live hlive, entriesOf_cons_live hlive', hat, ih hes]

/-- A record whose bytes are the same is the same. -/
theorem sameEntry_of_bytes (hfits : 8 + deNameLen m g ≤ deRecLen m g)
    (h : ∀ x, g ≤ x → x < g + deRecLen m g → m' x = m x) : SameEntry m m' g g := by
  have hlen : deNameLen m' g = deNameLen m g := by
    rw [deNameLen, deNameLen, rd8, rd8, h _ (by omega) (by omega)]
  refine ⟨?_, ?_, hlen, ?_, deName_congr hlen fun i hi => ?_⟩
  · exact rd32_congr fun x h1 h2 => h x h1 (by omega)
  · exact rd16_congr fun x h1 h2 => h x (by omega) (by omega)
  · rw [deType, deType, rd8, rd8, h _ (by omega) (by omega)]
  · rw [hlen] at hi
    exact h _ (by omega) (by omega)

theorem tiles_congr {a b : Nat} (h : ∀ g ∈ l, deRecLen m' g = deRecLen m g)
    (ht : Tiles id (deRecLen m) a l b) : Tiles id (deRecLen m') a l b := by
  induction l generalizing a with
  | nil => exact ht
  | cons g l ih =>
      obtain ⟨hg, hl⟩ := List.forall_mem_cons.mp h
      obtain ⟨ha, hpos, htail⟩ := ht
      refine ⟨ha, by rw [hg]; exact hpos, ?_⟩
      rw [hg]
      exact ih hl htail

/-- The conditions on one record. -/
structure GoodRecord (m : Mem) (blockSz g : Nat) : Prop where
  inBlock : g % blockSz + deRecLen m g ≤ blockSz
  aligned : 4 ∣ deRecLen m g
  padded : recLenFor (deNameLen m g) ≤ deRecLen m g

theorem GoodRecord.fits (h : GoodRecord m blockSz g) : 8 + deNameLen m g ≤ deRecLen m g :=
  (recLenFor_name _).trans h.padded

theorem GoodRecord.congr (h : GoodRecord m blockSz g) (hs : SameEntry m m' g g) :
    GoodRecord m' blockSz g := by
  refine ⟨?_, ?_, ?_⟩
  · rw [hs.recLen]
    exact h.inBlock
  · rw [hs.recLen]
    exact h.aligned
  · rw [hs.recLen, hs.nameLen]
    exact h.padded

theorem Records.good (D : Records m blockSz iSize es) (T : Tidy m blockSz es) :
    ∀ g ∈ es, GoodRecord m blockSz g := fun g hg =>
  ⟨D.inBlock g hg, T.aligned g hg, T.padded g hg⟩

/-- Good records that cover the directory are its records. -/
theorem records_of_good (htiles : Tiles id (deRecLen m) 0 es iSize)
    (h : ∀ g ∈ es, GoodRecord m blockSz g) (hmul : blockSz ∣ iSize) (hlt : iSize < 2 ^ 32) :
    Records m blockSz iSize es :=
  ⟨htiles, fun g hg => (h g hg).inBlock, fun g hg => (h g hg).fits, hmul, hlt⟩

/-- **Replacing records.** The bytes from `lo` to `hi` have changed, and have good
records; before and after them the records and the entries are the same. -/
theorem Records.replace {lo hi iSize' : Nat} (D : Records m blockSz iSize es)
    (T : Tidy m blockSz es) (hes : es = pre ++ (mid ++ post))
    (hpre : Tiles id (deRecLen m) 0 pre lo) (hmid : Tiles id (deRecLen m') lo mid' hi)
    (hpost : Tiles id (deRecLen m) hi post iSize')
    (hout : ∀ x, x < lo ∨ hi ≤ x → m' x = m x) (hgood : ∀ g ∈ mid', GoodRecord m' blockSz g)
    (hmul : blockSz ∣ iSize') (hlt : iSize' < 2 ^ 32) :
    Records m' blockSz iSize' (pre ++ (mid' ++ post))
      ∧ (∀ g ∈ pre ++ (mid' ++ post), GoodRecord m' blockSz g)
      ∧ entriesOf m' blockSz (pre ++ (mid' ++ post)) = entriesOf m blockSz pre
        ++ (entriesOf m' blockSz mid' ++ entriesOf m blockSz post) := by
  have hall := D.good T
  have hsub : ∀ g, g ∈ pre ∨ g ∈ post → g ∈ es := fun g hg => by
    rw [hes, List.mem_append, List.mem_append]
    exact hg.imp_right Or.inr
  have hsame₁ : ∀ g ∈ pre, SameEntry m m' g g := fun g hg => by
    have hb := (hpre.bounds hg).2
    rw [id_eq] at hb
    exact sameEntry_of_bytes (hall g (hsub g (Or.inl hg))).fits fun x h1 h2 =>
      hout x (Or.inl (by omega))
  have hsame₂ : ∀ g ∈ post, SameEntry m m' g g := fun g hg => by
    have hb := (hpost.bounds hg).1
    rw [id_eq] at hb
    exact sameEntry_of_bytes (hall g (hsub g (Or.inr hg))).fits fun x h1 h2 =>
      hout x (Or.inr (by omega))
  have hgood' : ∀ g ∈ pre ++ (mid' ++ post), GoodRecord m' blockSz g := fun g hg => by
    rcases List.mem_append.mp hg with hg | hg
    · exact (hall g (hsub g (Or.inl hg))).congr (hsame₁ g hg)
    · rcases List.mem_append.mp hg with hg | hg
      · exact hgood g hg
      · exact (hall g (hsub g (Or.inr hg))).congr (hsame₂ g hg)
  have htiles : Tiles id (deRecLen m') 0 (pre ++ (mid' ++ post)) iSize' :=
    tiles_append.mpr ⟨lo, tiles_congr (fun g hg => (hsame₁ g hg).recLen) hpre,
      tiles_append.mpr ⟨hi, hmid, tiles_congr (fun g hg => (hsame₂ g hg).recLen) hpost⟩⟩
  refine ⟨records_of_good htiles hgood' hmul hlt, hgood', ?_⟩
  rw [entriesOf_append, entriesOf_append, entriesOf_congr hsame₁, entriesOf_congr hsame₂]

end Entries

/-! ## The entry that is filled in -/

section Fill

variable {m : Mem} {p inoNo type : Nat} {name : List UInt8}

theorem fillEntry_apply {x : Nat} (hlen : name.length < 256)
    (hx : x < p ∨ p + 4 ≤ x ∧ x < p + 6 ∨ p + 8 + name.length ≤ x) :
    fillEntry m p inoNo name type x = m x := by
  have hmod : name.length % 2 ^ 8 = name.length := Nat.mod_eq_of_lt hlen
  simp only [fillEntry, hmod]
  rw [copy_apply_of_not (by omega), wr8_apply_of_ne (by omega), wr8_apply_of_ne (by omega),
    wr32_apply_of_ne (by omega)]

/-- The header is in front of the name. -/
theorem fillEntry_head {x : Nat} (hx : x < p + 8) : fillEntry m p inoNo name type x
    = wr8 (wr8 (wr32 m p inoNo) (p + 6) (name.length % 2 ^ 8)) (p + 7) type x := by
  unfold fillEntry
  exact copy_apply_of_not (Or.inl hx)

theorem deInode_fillEntry (hino : inoNo < 2 ^ 32) :
    deInode (fillEntry m p inoNo name type) p = inoNo := by
  have h : deInode (fillEntry m p inoNo name type) p
      = rd32 (wr8 (wr8 (wr32 m p inoNo) (p + 6) (name.length % 2 ^ 8)) (p + 7) type) p :=
    rd32_congr fun x _ h2 => fillEntry_head (by omega)
  rw [h, rd32_wr8_of_disjoint (by omega), rd32_wr8_of_disjoint (by omega), rd32_wr32_same _ hino]

theorem deNameLen_fillEntry (hlen : name.length < 256) :
    deNameLen (fillEntry m p inoNo name type) p = name.length := by
  have hmod : name.length % 2 ^ 8 = name.length := Nat.mod_eq_of_lt hlen
  rw [deNameLen, rd8, fillEntry_head (by omega), hmod, ← rd8, rd8_wr8_of_ne (by omega),
    rd8_wr8_same _ hlen]

theorem deType_fillEntry (htype : type < 256) :
    deType (fillEntry m p inoNo name type) p = type := by
  rw [deType, rd8, fillEntry_head (by omega), ← rd8, rd8_wr8_same _ htype]

theorem deRecLen_fillEntry (hlen : name.length < 256) :
    deRecLen (fillEntry m p inoNo name type) p = deRecLen m p :=
  rd16_congr fun x h1 h2 => fillEntry_apply hlen (by omega)

theorem deName_fillEntry (hlen : name.length < 256) :
    deName (fillEntry m p inoNo name type) p = name := by
  have hmod : name.length % 2 ^ 8 = name.length := Nat.mod_eq_of_lt hlen
  rw [deName, deNameLen_fillEntry hlen]
  refine List.ext_getElem (by simp) fun i h1 h2 => ?_
  simp only [List.getElem_map, List.getElem_range, fillEntry, hmod]
  rw [copy_apply (by omega) (by omega), Nat.zero_add, Nat.add_sub_cancel_left,
    List.getD_eq_getElem _ _ h2]

end Fill

/-! ## The three places -/

/-- The image `m'` with the records `es'` has the entries of `m` with `es`, and
`e`. -/
structure Inserted (m : Mem) (blockSz : Nat) (es : List Nat) (e : DirEntry) (m' : Mem)
    (iSize' : Nat) (es' : List Nat) : Prop where
  records : Records m' blockSz iSize' es'
  tidy : Tidy m' blockSz es'
  split : ∃ a b, entriesOf m blockSz es = a ++ b ∧ entriesOf m' blockSz es' = a ++ e :: b

section Insert

variable {m m' : Mem} {blockSz iSize iSize' g q inoNo type : Nat} {name : List UInt8}
  {es pre mid' post : List Nat} {e : DirEntry}

/-- Replacing records by ones with one more entry inserts it, if its name is
new. -/
theorem Inserted.of_replace (mid : List Nat) (lo hi : Nat) (D : Records m blockSz iSize es)
    (T : Tidy m blockSz es) (hes : es = pre ++ (mid ++ post))
    (hpre : Tiles id (deRecLen m) 0 pre lo) (hmid : Tiles id (deRecLen m') lo mid' hi)
    (hpost : Tiles id (deRecLen m) hi post iSize') (hout : ∀ x, x < lo ∨ hi ≤ x → m' x = m x)
    (hgood : ∀ g ∈ mid', GoodRecord m' blockSz g) (hmul : blockSz ∣ iSize')
    (hlt : iSize' < 2 ^ 32)
    (hmore : entriesOf m' blockSz mid' = entriesOf m blockSz mid ++ [e])
    (hnew : e.name ∉ (entriesOf m blockSz es).map DirEntry.name) :
    Inserted m blockSz es e m' iSize' (pre ++ (mid' ++ post)) := by
  obtain ⟨hrecords, hgood', hentries⟩ := D.replace T hes hpre hmid hpost hout hgood hmul hlt
  have hold : entriesOf m blockSz es = (entriesOf m blockSz pre ++ entriesOf m blockSz mid)
      ++ entriesOf m blockSz post := by
    rw [hes, entriesOf_append, entriesOf_append, List.append_assoc]
  have hall : entriesOf m' blockSz (pre ++ (mid' ++ post))
      = (entriesOf m blockSz pre ++ entriesOf m blockSz mid)
        ++ e :: entriesOf m blockSz post := by
    rw [hentries, hmore, List.append_assoc, List.append_assoc]
    rfl
  refine ⟨hrecords, ⟨fun g hg => (hgood' g hg).aligned, fun g hg => (hgood' g hg).padded, ?_⟩,
    _, _, hold, hall⟩
  have hperm : ((entriesOf m' blockSz (pre ++ (mid' ++ post))).map DirEntry.name).Perm
      (e.name :: (entriesOf m blockSz es).map DirEntry.name) := by
    rw [hall, hold]
    exact List.perm_middle.map DirEntry.name
  exact hperm.nodup_iff.mpr (List.nodup_cons.mpr ⟨hnew, T.distinct⟩)

/-- What can be entered: a name of at most 255 bytes, none of them NUL, an inode
that is not 0, and a type that is a byte. -/
structure Enterable (inoNo : Nat) (name : List UInt8) (type : Nat) : Prop where
  some : 0 < name.length
  short : name.length < 256
  noNul : 0 ∉ name
  ino : inoNo ≠ 0
  inoLt : inoNo < 2 ^ 32
  typeLt : type < 256

theorem Enterable.entryAt (E : Enterable inoNo name type) (hq : g / blockSz = q) :
    entryAt (fillEntry m g inoNo name type) blockSz g = ⟨inoNo, name, type, q⟩ := by
  rw [Ext2.entryAt, deInode_fillEntry E.inoLt, deName_fillEntry E.short, deType_fillEntry E.typeLt,
    hq]

theorem Enterable.good (E : Enterable inoNo name type) (hrec : 4 ∣ deRecLen m g)
    (hfit : recLenFor name.length ≤ deRecLen m g) (hin : g % blockSz + deRecLen m g ≤ blockSz) :
    GoodRecord (fillEntry m g inoNo name type) blockSz g := by
  refine ⟨?_, ?_, ?_⟩
  · rw [deRecLen_fillEntry E.short]
    exact hin
  · rw [deRecLen_fillEntry E.short]
    exact hrec
  · rw [deRecLen_fillEntry E.short, deNameLen_fillEntry E.short]
    exact hfit

/-- An empty record that is large enough. -/
theorem inserted_reuse (D : Records m blockSz iSize es) (T : Tidy m blockSz es)
    (E : Enterable inoNo name type) (hes : es = pre ++ ([g] ++ post)) (hdead : deInode m g = 0)
    (hfit : recLenFor name.length ≤ deRecLen m g)
    (hnew : name ∉ (entriesOf m blockSz es).map DirEntry.name) :
    Inserted m blockSz es ⟨inoNo, name, type, g / blockSz⟩ (fillEntry m g inoNo name type) iSize
      (pre ++ ([g] ++ post)) := by
  have hg : g ∈ es := by
    rw [hes]
    exact List.mem_append_right _ List.mem_cons_self
  obtain ⟨hpre, hpos, hpost⟩ := tiles_split.mp (hes ▸ D.tiles)
  rw [id_eq] at hpre hpost
  have hge := recLenFor_ge name.length
  refine Inserted.of_replace [g] g (g + deRecLen m g) D T hes hpre ?_ hpost
    (fun x hx => ?_) (fun x hx => ?_) D.multiple D.bounded ?_ hnew
  · refine ⟨rfl, ?_, ?_⟩
    · rw [deRecLen_fillEntry E.short]
      exact hpos
    · rw [deRecLen_fillEntry E.short]
      rfl
  · have := recLenFor_name name.length
    exact fillEntry_apply E.short (by omega)
  · rw [List.mem_singleton.mp hx]
    exact E.good (T.aligned g hg) hfit (D.inBlock g hg)
  · have hlive : deInode (fillEntry m g inoNo name type) g ≠ 0 := by
      rw [deInode_fillEntry E.inoLt]
      exact E.ino
    rw [entriesOf_cons_live hlive, entriesOf_cons_dead hdead, E.entryAt rfl]
    rfl

/-- The end of a record that is longer than it needs to be. -/
theorem inserted_split {real : Nat} (D : Records m blockSz iSize es) (T : Tidy m blockSz es)
    (E : Enterable inoNo name type) (hes : es = pre ++ ([g] ++ post))
    (hreal : recLenFor (deNameLen m g) = real)
    (hspace : real + recLenFor name.length ≤ deRecLen m g)
    (hnew : name ∉ (entriesOf m blockSz es).map DirEntry.name) :
    Inserted m blockSz es ⟨inoNo, name, type, g / blockSz⟩
      (fillEntry (wr16 (wr16 m (g + 4) real) (g + real + 4) (deRecLen m g - real)) (g + real)
        inoNo name type) iSize (pre ++ ([g, g + real] ++ post)) := by
  have hg : g ∈ es := by
    rw [hes]
    exact List.mem_append_right _ List.mem_cons_self
  have hgood := D.good T g hg
  obtain ⟨hpre, hpos, hpost⟩ := tiles_split.mp (hes ▸ D.tiles)
  rw [id_eq] at hpre hpost
  have hrec := rd16_lt m (g + 4)
  have hlt : deRecLen m g < 65536 := hrec
  have hge := recLenFor_ge name.length
  have hnameLen : 8 + deNameLen m g ≤ real := hreal ▸ recLenFor_name _
  have hlen := recLenFor_name name.length
  obtain ⟨m₁, hm₁⟩ : ∃ m₁, m₁ = wr16 (wr16 m (g + 4) real) (g + real + 4) (deRecLen m g - real) :=
    ⟨_, rfl⟩
  rw [← hm₁]
  have hm₁_apply : ∀ x, (x < g + 4 ∨ g + 6 ≤ x) → (x < g + real + 4 ∨ g + real + 6 ≤ x) →
      m₁ x = m x := fun x h1 h2 => by
    rw [hm₁, wr16_apply_of_ne (by omega), wr16_apply_of_ne (by omega)]
  have hkeep : ∀ x, (x < g + 4 ∨ g + 6 ≤ x) → (x < g + real ∨ g + deRecLen m g ≤ x) →
      fillEntry m₁ (g + real) inoNo name type x = m x := fun x h1 h2 => by
    rw [fillEntry_apply E.short (by omega), hm₁_apply x h1 (by omega)]
  have hrec₁ : deRecLen m₁ (g + real) = deRecLen m g - real := by
    rw [hm₁]
    exact rd16_wr16_same _ (by omega)
  have hrecg : deRecLen (fillEntry m₁ (g + real) inoNo name type) g = real := by
    have hfill : deRecLen (fillEntry m₁ (g + real) inoNo name type) g = deRecLen m₁ g :=
      rd16_congr fun x h1 h2 => fillEntry_apply E.short (by omega)
    rw [hfill, hm₁, deRecLen, rd16_wr16_of_disjoint (by omega), rd16_wr16_same _ (by omega)]
  have hlenq : deNameLen (fillEntry m₁ (g + real) inoNo name type) g = deNameLen m g := by
    rw [deNameLen, deNameLen, rd8, rd8, hkeep _ (by omega) (by omega)]
  have hinog : deInode (fillEntry m₁ (g + real) inoNo name type) g = deInode m g :=
    rd32_congr fun x h1 h2 => hkeep x (by omega) (by omega)
  have hnameg : deName (fillEntry m₁ (g + real) inoNo name type) g = deName m g :=
    deName_congr hlenq fun i hi => by
      rw [hlenq] at hi
      exact hkeep _ (by omega) (by omega)
  have htypeg : deType (fillEntry m₁ (g + real) inoNo name type) g = deType m g := by
    rw [deType, deType, rd8, rd8, hkeep _ (by omega) (by omega)]
  have hin := hgood.inBlock
  have hmod : (g + real) % blockSz = g % blockSz + real ∧ (g + real) / blockSz = g / blockSz := by
    have hdm := Nat.div_add_mod' g blockSz
    have hsum : g + real = g / blockSz * blockSz + (g % blockSz + real) := by omega
    rw [hsum, mod_block (by omega), div_block (by omega)]
    exact ⟨rfl, rfl⟩
  have hdvd : 4 ∣ real := by
    rw [← hreal]
    exact Nat.dvd_mul_left _ _
  have hdvd' := hgood.aligned
  have hliveq : deInode (fillEntry m₁ (g + real) inoNo name type) (g + real) ≠ 0 := by
    rw [deInode_fillEntry E.inoLt]
    exact E.ino
  refine Inserted.of_replace [g] g (g + deRecLen m g) D T hes hpre ?_ hpost
    (fun x hx => hkeep x (by omega) (by omega)) (fun x hx => ?_) D.multiple D.bounded ?_ hnew
  · refine ⟨rfl, ?_, ?_, ?_, ?_⟩
    · rw [hrecg]
      omega
    · rw [hrecg]
      rfl
    · rw [deRecLen_fillEntry E.short, hrec₁]
      omega
    · rw [hrecg, deRecLen_fillEntry E.short, hrec₁]
      show g + real + (deRecLen m g - real) = g + deRecLen m g
      omega
  · rcases List.mem_cons.mp hx with rfl | hx
    · refine ⟨?_, ?_, ?_⟩
      · rw [hrecg]
        omega
      · rw [hrecg]
        exact hdvd
      · rw [hrecg, hlenq, hreal]
    · rw [List.mem_singleton.mp hx]
      refine E.good ?_ ?_ ?_
      · rw [hrec₁]
        omega
      · rw [hrec₁]
        omega
      · rw [hrec₁, hmod.1]
        omega
  · have hentg : entryAt (fillEntry m₁ (g + real) inoNo name type) blockSz g
        = entryAt m blockSz g := by
      rw [entryAt, entryAt, hinog, hnameg, htypeg]
    by_cases hlive : deInode m g = 0
    · rw [entriesOf_cons_dead (hinog.trans hlive), entriesOf_cons_dead hlive,
        entriesOf_cons_live hliveq, E.entryAt hmod.2]
      rfl
    · have hlive' : deInode (fillEntry m₁ (g + real) inoNo name type) g ≠ 0 := by
        rw [hinog]
        exact hlive
      rw [entriesOf_cons_live hlive', entriesOf_cons_live hlive, entriesOf_cons_live hliveq,
        E.entryAt hmod.2, hentg]
      rfl

/-- A new block behind the others. -/
theorem inserted_append (D : Records m blockSz iSize es) (T : Tidy m blockSz es)
    (E : Enterable inoNo name type) (hpos : 0 < blockSz) (hbs : blockSz < 65536)
    (hdvd : 4 ∣ blockSz) (hfit : recLenFor name.length ≤ blockSz) (hlt : iSize + blockSz < 2 ^ 32)
    (hnew : name ∉ (entriesOf m blockSz es).map DirEntry.name) :
    Inserted m blockSz es ⟨inoNo, name, type, iSize / blockSz⟩
      (fillEntry (wr16 m (iSize + 4) blockSz) iSize inoNo name type) (iSize + blockSz)
      (es ++ ([iSize] ++ [])) := by
  have hlen := recLenFor_name name.length
  have hrec : deRecLen (wr16 m (iSize + 4) blockSz) iSize = blockSz := rd16_wr16_same _ hbs
  have hes : es = es ++ ([] ++ []) := by rw [List.append_nil, List.append_nil]
  have hlive :
      deInode (fillEntry (wr16 m (iSize + 4) blockSz) iSize inoNo name type) iSize ≠ 0 := by
    rw [deInode_fillEntry E.inoLt]
    exact E.ino
  refine Inserted.of_replace [] iSize (iSize + blockSz) D T hes D.tiles ?_ rfl (fun x hx => ?_)
    (fun x hx => ?_) (Nat.dvd_add D.multiple (Nat.dvd_refl _)) hlt ?_ hnew
  · refine ⟨rfl, ?_, ?_⟩
    · rw [deRecLen_fillEntry E.short, hrec]
      exact hpos
    · rw [deRecLen_fillEntry E.short, hrec]
      rfl
  · rw [fillEntry_apply E.short (by omega), wr16_apply_of_ne (by omega)]
  · rw [List.mem_singleton.mp hx]
    refine E.good ?_ ?_ ?_
    · rw [hrec]
      exact hdvd
    · rw [hrec]
      exact hfit
    · rw [hrec, Nat.mod_eq_zero_of_dvd D.multiple, Nat.zero_add]
  · rw [entriesOf_cons_live hlive, E.entryAt rfl]
    rfl

end Insert

end Ext2

end Shitos
