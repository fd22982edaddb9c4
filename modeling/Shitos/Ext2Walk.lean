import Shitos.Ext2Unlink
import Shitos.Loop

/-!
# Directory walks

The loops of `find_dirent`, `create_dirent2`, `ext2fs_readdir` and
`count_dirent`, with every entry they touch checked against the buffer: an
entry is touched inside the buffer if its eight bytes of header are inside,
and where the name is read, the name.

`ext2fs_readdir` looks at the entry behind the current one before it goes back
to the start of the buffer, and `count_dirent` never goes back. So both leave
the buffer at the end of the first block, whatever the directory holds:
`walksEnd_iff` gives the contents on which the four loops end inside the
buffer, `readdir_complete_iff` and `countDirent_iff` the well-formed
directories on which listing and counting are right.
-/

namespace Shitos

namespace Ext2

/-! ## The loops -/

/-- The loop of `find_dirent`. -/
def findTurn (read : Nat → Mem → Mem) (blockSz iSize : Nat) (name : List UInt8) (c : Cursor) :
    Turn Cursor (Option Cursor) :=
  if c.offset < iSize then
    if blockSz < c.p + 8 then .outside
    else if deInode c.buf c.p ≠ 0 ∧ deNameLen c.buf c.p = name.length then
      if blockSz < c.p + 8 + deNameLen c.buf c.p then .outside
      else if Reads c.buf name c.p then .stop (some c)
      else .next (c.next read blockSz)
    else .next (c.next read blockSz)
  else .stop none

/-- `(sizeof(ext2_dir_entry_t) + name_len + 3) & ~3`. -/
def recLenFor (nameLen : Nat) : Nat := (8 + nameLen + 3) / 4 * 4

/-- The loop of `create_dirent2` for a name of `nameLen` bytes: `found`, and where
the entry goes. -/
def createTurn (read : Nat → Mem → Mem) (blockSz iSize nameLen : Nat) (c : Cursor) :
    Turn Cursor (Bool × Cursor) :=
  if c.offset < iSize then
    if blockSz < c.p + 8 then .outside
    else if deInode c.buf c.p = 0 ∧ recLenFor nameLen ≤ deRecLen c.buf c.p then .stop (true, c)
    else
      let real := recLenFor (deNameLen c.buf c.p)
      -- the difference is one of signed integers
      if real + recLenFor nameLen ≤ deRecLen c.buf c.p then
        let space := deRecLen c.buf c.p - real
        if blockSz < c.p + real + 8 then .outside
        else
          let buf := wr16 (wr16 c.buf (c.p + 4) real) (c.p + real + 4) space
          .stop (true, ⟨(c.offset + real) % 2 ^ 32, c.p + real, c.prev, c.blockno, buf⟩)
      else .next (c.next read blockSz)
  else .stop (false, c)

/-- The local variables of `ext2fs_readdir` and `count_dirent`; `tally` is
`curidx` or `count`. -/
structure Walker where
  offset : Nat
  p : Nat
  blockno : Nat
  tally : Nat
  buf : Mem

/-- The loop of `ext2fs_readdir`; what it returns is the inode and the name. -/
def readdirTurn (read : Nat → Mem → Mem) (blockSz sz idx : Nat) (w : Walker) :
    Turn Walker (Option (Nat × List UInt8)) :=
  if w.offset < sz ∧ w.tally ≤ idx then
    if blockSz < w.p + 8 then .outside
    else if deInode w.buf w.p ≠ 0 ∧ w.tally = idx then
      if blockSz < w.p + 8 + deNameLen w.buf w.p then .outside
      else .stop (some (deInode w.buf w.p, deName w.buf w.p))
    else
      let offset := (w.offset + deRecLen w.buf w.p) % 2 ^ 32
      let p := w.p + deRecLen w.buf w.p
      -- the next entry is looked at before the pointer goes back
      if blockSz < p + 8 then .outside
      else
        let tally := w.tally + if deInode w.buf p ≠ 0 then 1 else 0
        if blockSz ≤ p then
          .next ⟨offset, p - blockSz, w.blockno + 1, tally, read (w.blockno + 1) w.buf⟩
        else .next ⟨offset, p, w.blockno, tally, w.buf⟩
  else .stop none

/-- The loop of `count_dirent`. -/
def countTurn (read : Nat → Mem → Mem) (blockSz iSize : Nat) (w : Walker) : Turn Walker Nat :=
  if w.offset < iSize then
    if blockSz < w.p + 8 then .outside
    else if deInode w.buf w.p ≠ 0 ∧ (deNameLen w.buf w.p = 1 ∨ deNameLen w.buf w.p = 2)
        ∧ blockSz < w.p + 8 + deNameLen w.buf w.p then .outside
    else
      let count := w.tally + if Counted w.buf w.p then 1 else 0
      let offset := (w.offset + deRecLen w.buf w.p) % 2 ^ 32
      let p := w.p + deRecLen w.buf w.p
      if blockSz ≤ p then
        if blockSz < p + 8 then .outside
        else .next ⟨offset, p + deRecLen w.buf p, w.blockno + 1, count,
          read (w.blockno + 1) w.buf⟩
      else .next ⟨offset, p, w.blockno, count, w.buf⟩
  else .stop w.tally

/-! ## What a turn can do -/

section Turns

variable {read : Nat → Mem → Mem} {blockSz iSize : Nat} {name : List UInt8} {nameLen idx : Nat}

theorem findTurn_cases (c : Cursor) :
    findTurn read blockSz iSize name c = .outside
      ∨ ¬c.offset < iSize ∧ findTurn read blockSz iSize name c = .stop none
      ∨ c.offset < iSize ∧ Hit name c.buf c.p ∧ findTurn read blockSz iSize name c = .stop (some c)
      ∨ c.offset < iSize ∧ ¬Hit name c.buf c.p
        ∧ findTurn read blockSz iSize name c = .next (c.next read blockSz) := by
  unfold findTurn
  by_cases hlt : c.offset < iSize
  · rw [if_pos hlt]
    by_cases hhead : blockSz < c.p + 8
    · exact Or.inl (if_pos hhead)
    rw [if_neg hhead]
    by_cases hlen : deInode c.buf c.p ≠ 0 ∧ deNameLen c.buf c.p = name.length
    · rw [if_pos hlen]
      by_cases hname : blockSz < c.p + 8 + deNameLen c.buf c.p
      · exact Or.inl (if_pos hname)
      rw [if_neg hname]
      by_cases hreads : Reads c.buf name c.p
      · exact Or.inr (Or.inr (Or.inl ⟨hlt, ⟨hlen.1, hlen.2, hreads⟩, if_pos hreads⟩))
      · exact Or.inr (Or.inr (Or.inr ⟨hlt, fun h => hreads h.2.2, if_neg hreads⟩))
    · exact Or.inr (Or.inr (Or.inr ⟨hlt, fun h => hlen ⟨h.1, h.2.1⟩, if_neg hlen⟩))
  · exact Or.inr (Or.inl ⟨hlt, if_neg hlt⟩)

/-- A search that stays inside the buffer is `find_dirent`'s. -/
theorem findLoop_of_loop {n : Nat} {c : Cursor} {r : Option Cursor}
    (h : loop (findTurn read blockSz iSize name) n c = .done r) :
    findLoop read blockSz iSize name n c = some r := by
  induction n generalizing c with
  | zero => cases h
  | succ n ih =>
      rw [findLoop]
      rcases findTurn_cases c with hout | ⟨hlt, hturn⟩ | ⟨hlt, hhit, hturn⟩ | ⟨hlt, hhit, hturn⟩
      · rw [loop_outside hout] at h
        cases h
      · rw [loop_stop hturn] at h
        rw [if_neg hlt, Ending.done.inj h]
      · rw [loop_stop hturn] at h
        rw [if_pos hlt, if_pos hhit, Ending.done.inj h]
      · rw [loop_next hturn] at h
        rw [if_pos hlt, if_neg hhit]
        exact ih h

theorem countTurn_stop {w : Walker} (h : iSize ≤ w.offset) :
    countTurn read blockSz iSize w = .stop w.tally := if_neg (Nat.not_lt.mpr h)

theorem readdirTurn_stop {w : Walker} (h : iSize ≤ w.offset) :
    readdirTurn read blockSz iSize idx w = .stop none := if_neg fun hgo => Nat.not_lt.mpr h hgo.1

/-- `count_dirent` goes on to the next entry while that is in the same block. -/
theorem countTurn_next {w : Walker} (hlt : w.offset < iSize) (hhead : w.p + 8 ≤ blockSz)
    (hname : deInode w.buf w.p ≠ 0 → w.p + 8 + deNameLen w.buf w.p ≤ blockSz)
    (hin : w.p + deRecLen w.buf w.p < blockSz) :
    countTurn read blockSz iSize w = .next ⟨(w.offset + deRecLen w.buf w.p) % 2 ^ 32,
      w.p + deRecLen w.buf w.p, w.blockno, w.tally + if Counted w.buf w.p then 1 else 0, w.buf⟩ := by
  unfold countTurn
  rw [if_pos hlt, if_neg (by omega), if_neg fun h => by
    have := hname h.1
    omega]
  exact if_neg (by omega)

/-- A turn of `count_dirent` that stays inside the buffer stays in the block. -/
theorem countTurn_cases (w : Walker) :
    countTurn read blockSz iSize w = .outside
      ∨ ¬w.offset < iSize ∧ countTurn read blockSz iSize w = .stop w.tally
      ∨ w.offset < iSize ∧ w.p + 8 ≤ blockSz ∧ w.p + deRecLen w.buf w.p < blockSz
        ∧ countTurn read blockSz iSize w = .next ⟨(w.offset + deRecLen w.buf w.p) % 2 ^ 32,
          w.p + deRecLen w.buf w.p, w.blockno, w.tally + if Counted w.buf w.p then 1 else 0,
          w.buf⟩ := by
  unfold countTurn
  by_cases hlt : w.offset < iSize
  · rw [if_pos hlt]
    by_cases hhead : blockSz < w.p + 8
    · exact Or.inl (if_pos hhead)
    rw [if_neg hhead]
    split
    · exact Or.inl rfl
    by_cases hend : blockSz ≤ w.p + deRecLen w.buf w.p
    · simp only [if_pos hend]
      exact Or.inl (if_pos (by omega))
    · simp only [if_neg hend]
      exact Or.inr (Or.inr ⟨hlt, by omega, by omega, trivial⟩)
  · exact Or.inr (Or.inl ⟨hlt, if_neg hlt⟩)

/-- A count that stays inside the buffer is `count_dirent`'s. -/
theorem countLoop_of_loop {n : Nat} {w : Walker} {r : Nat}
    (h : loop (countTurn read blockSz iSize) n w = .done r) :
    countLoop read blockSz iSize n w.offset w.p w.blockno w.tally w.buf = some r := by
  induction n generalizing w with
  | zero => cases h
  | succ n ih =>
      rw [countLoop]
      rcases countTurn_cases w with hout | ⟨hlt, hturn⟩ | ⟨hlt, -, hin, hturn⟩
      · rw [loop_outside hout] at h
        cases h
      · rw [loop_stop hturn] at h
        rw [if_neg hlt, Ending.done.inj h]
      · rw [loop_next hturn] at h
        rw [if_pos hlt]
        simp only [ge_iff_le, if_neg (show ¬blockSz ≤ w.p + deRecLen w.buf w.p by omega)]
        exact ih h

/-- What a turn of `ext2fs_readdir` that stays inside the buffer does. -/
theorem readdirTurn_cases (w : Walker) :
    readdirTurn read blockSz iSize idx w = .outside
      ∨ ¬(w.offset < iSize ∧ w.tally ≤ idx)
        ∧ readdirTurn read blockSz iSize idx w = .stop none
      ∨ w.offset < iSize ∧ deInode w.buf w.p ≠ 0 ∧ w.tally = idx
        ∧ w.p + 8 + deNameLen w.buf w.p ≤ blockSz
        ∧ readdirTurn read blockSz iSize idx w
          = .stop (some (deInode w.buf w.p, deName w.buf w.p))
      ∨ w.offset < iSize ∧ w.tally ≤ idx ∧ ¬(deInode w.buf w.p ≠ 0 ∧ w.tally = idx)
        ∧ w.p + deRecLen w.buf w.p + 8 ≤ blockSz
        ∧ readdirTurn read blockSz iSize idx w = .next ⟨(w.offset + deRecLen w.buf w.p) % 2 ^ 32,
          w.p + deRecLen w.buf w.p, w.blockno,
          w.tally + if deInode w.buf (w.p + deRecLen w.buf w.p) ≠ 0 then 1 else 0, w.buf⟩ := by
  unfold readdirTurn
  by_cases hgo : w.offset < iSize ∧ w.tally ≤ idx
  · rw [if_pos hgo]
    by_cases hhead : blockSz < w.p + 8
    · exact Or.inl (if_pos hhead)
    rw [if_neg hhead]
    by_cases hfound : deInode w.buf w.p ≠ 0 ∧ w.tally = idx
    · rw [if_pos hfound]
      by_cases hname : blockSz < w.p + 8 + deNameLen w.buf w.p
      · exact Or.inl (if_pos hname)
      · exact Or.inr (Or.inr (Or.inl ⟨hgo.1, hfound.1, hfound.2, by omega, if_neg hname⟩))
    · rw [if_neg hfound]
      by_cases hpeek : blockSz < w.p + deRecLen w.buf w.p + 8
      · exact Or.inl (if_pos hpeek)
      · simp only [if_neg hpeek]
        exact Or.inr (Or.inr (Or.inr ⟨hgo.1, hgo.2, hfound, by omega, if_neg (by omega)⟩))
  · exact Or.inr (Or.inl ⟨hgo, if_neg hgo⟩)

end Turns

/-! ## Inside the first block -/

section FirstBlock

variable {read : Nat → Mem → Mem} {blockSz iSize : Nat} {m : Mem}

/-- The records from the start of the first block on reach the size, and leave
room for the header of one more. -/
structure Chained (m : Mem) (blockSz iSize : Nat) (es : List Nat) (e : Nat) : Prop where
  tiles : Tiles id (deRecLen m) 0 es e
  size : iSize ≤ e
  room : e + 8 ≤ blockSz
  below : ∀ p ∈ es, p < iSize
  named : ∀ p ∈ es, deInode m p ≠ 0 → p + 8 + deNameLen m p ≤ blockSz

/-- A count that ends inside the buffer has reached the size on a chain of
records inside the first block. -/
theorem countTurn_chain (hbs : blockSz ≤ 2 ^ 16) :
    ∀ (n g b k r : Nat), g < blockSz →
      loop (countTurn read blockSz iSize) n ⟨g, g, b, k, m⟩ = .done r →
      ∃ es e, Tiles id (deRecLen m) g es e ∧ iSize ≤ e ∧ e < blockSz
        ∧ ∀ p ∈ es, p < iSize := by
  intro n
  induction n with
  | zero => intro g b k r _ h; cases h
  | succ n ih =>
      intro g b k r hg h
      rcases countTurn_cases ⟨g, g, b, k, m⟩ with hout | ⟨hlt, -⟩ | ⟨hlt, -, hin, hturn⟩
      · rw [loop_outside hout] at h
        cases h
      · exact ⟨[], g, rfl, Nat.le_of_not_lt hlt, hg, fun p hp => absurd hp List.not_mem_nil⟩
      · rw [loop_next hturn] at h
        simp only at hlt hin h
        rw [Nat.mod_eq_of_lt (by omega)] at h
        obtain ⟨es, e, htiles, hsize, he, hbelow⟩ := ih _ _ _ _ hin h
        have hpos : 0 < deRecLen m g := by
          -- a record of length zero would be the first of the rest
          rcases Nat.eq_zero_or_pos (deRecLen m g) with hzero | hpos
          · rw [hzero, Nat.add_zero] at htiles
            cases es with
            | nil =>
                have : g = e := htiles
                omega
            | cons p es =>
                obtain ⟨rfl, hp, -⟩ := htiles
                exact hp
          · exact hpos
        refine ⟨g :: es, e, ⟨rfl, hpos, htiles⟩, hsize, he, fun p hp => ?_⟩
        rcases List.mem_cons.mp hp with rfl | hp
        · exact hlt
        · exact hbelow p hp

/-- A listing that ends inside the buffer, with NULL, has reached the size inside
the first block; the index is not used up before that. -/
theorem readdirTurn_null (hbs : blockSz ≤ 2 ^ 16) {idx : Nat} :
    ∀ (n g b k : Nat), g < blockSz → k ≤ idx → (k = idx → deInode m g ≠ 0) →
      loop (readdirTurn read blockSz iSize idx) n ⟨g, g, b, k, m⟩ = .done none →
      iSize < blockSz := by
  intro n
  induction n with
  | zero => intro g b k _ _ _ h; cases h
  | succ n ih =>
      intro g b k hg hk hlive h
      rcases readdirTurn_cases ⟨g, g, b, k, m⟩ with
        hout | ⟨hend, -⟩ | ⟨-, -, -, -, hturn⟩ | ⟨hlt, -, hgo, hpeek, hturn⟩
      · rw [loop_outside hout] at h
        cases h
      · have hsize : ¬g < iSize := fun hlt => hend ⟨hlt, hk⟩
        omega
      · rw [loop_stop hturn] at h
        cases h
      · rw [loop_next hturn] at h
        simp only at hlt hgo hpeek h
        rw [Nat.mod_eq_of_lt (by omega)] at h
        have hk' : k < idx := by
          rcases Nat.lt_or_ge k idx with hlt | hge
          · exact hlt
          · have heq : k = idx := Nat.le_antisymm hk hge
            exact absurd ⟨hlive heq, heq⟩ hgo
        refine ih _ _ _ (by omega) ?_ ?_ h
        · split <;> omega
        · intro heq hzero
          rw [if_neg (not_not.mpr hzero)] at heq
          omega

/-- The number of entries in use. -/
def liveCount (m : Mem) (es : List Nat) : Nat := es.countP fun p => decide (deInode m p ≠ 0)

/-- A listing that runs through the records leaves room behind the last one. -/
theorem readdirTurn_room {idx e : Nat} (hbs : blockSz ≤ 2 ^ 16) :
    ∀ (post : List Nat) (n g b k : Nat) (r : Option (Nat × List UInt8)), post ≠ [] →
      Tiles id (deRecLen m) g post e → (∀ p ∈ post, p < iSize) → e < blockSz →
      k + post.length ≤ idx →
      loop (readdirTurn read blockSz iSize idx) n ⟨g, g, b, k, m⟩ = .done r → e + 8 ≤ blockSz := by
  intro post
  induction post with
  | nil => intro n g b k r hne; exact absurd rfl hne
  | cons p post ih =>
      intro n g b k r _ htiles hbelow he hk h
      obtain ⟨rfl, hpos, htiles⟩ := htiles
      cases n with
      | zero => cases h
      | succ n =>
          rw [List.length_cons] at hk
          have hlt := hbelow p List.mem_cons_self
          simp only [id_eq] at h htiles
          have hle := htiles.le
          rcases readdirTurn_cases ⟨p, p, b, k, m⟩ with
            hout | ⟨hend, -⟩ | ⟨-, -, hfound, -, -⟩ | ⟨-, -, -, hpeek, hturn⟩
          · rw [loop_outside hout] at h
            cases h
          · exact absurd ⟨hlt, show k ≤ idx by omega⟩ hend
          · simp only at hfound
            omega
          · rw [loop_next hturn] at h
            simp only at hpeek h
            rw [Nat.mod_eq_of_lt (by omega)] at h
            cases post with
            | nil =>
                have heq : p + deRecLen m p = e := htiles
                omega
            | cons q post =>
                refine ih n _ b _ r (List.cons_ne_nil _ _) htiles
                  (fun x hx => hbelow x (List.mem_cons_of_mem _ hx)) he ?_ h
                split <;> omega

/-- The entry that a listing returns has its name inside the buffer. -/
theorem readdirTurn_named {idx e q : Nat} (hbs : blockSz ≤ 2 ^ 16) (hq : deInode m q ≠ 0) :
    ∀ (pre post : List Nat) (n g b k : Nat) (r : Option (Nat × List UInt8)),
      Tiles id (deRecLen m) g (pre ++ q :: post) e → (∀ p ∈ pre ++ q :: post, p < iSize) →
      e < blockSz → k + liveCount m (pre ++ [q]).tail = idx →
      loop (readdirTurn read blockSz iSize idx) n ⟨g, g, b, k, m⟩ = .done r →
      q + 8 + deNameLen m q ≤ blockSz := by
  intro pre
  induction pre with
  | nil =>
      intro post n g b k r htiles hbelow he hk h
      obtain ⟨rfl, -, -⟩ := htiles
      cases n with
      | zero => cases h
      | succ n =>
          have hlt := hbelow q List.mem_cons_self
          obtain rfl : k = idx := hk
          rcases readdirTurn_cases ⟨q, q, b, k, m⟩ with
            hout | ⟨hend, -⟩ | ⟨-, -, -, hname, -⟩ | ⟨-, -, hgo, -, -⟩
          · rw [id_eq, loop_outside hout] at h
            cases h
          · exact absurd ⟨hlt, Nat.le_refl k⟩ hend
          · exact hname
          · exact absurd ⟨hq, rfl⟩ hgo
  | cons p pre ih =>
      intro post n g b k r htiles hbelow he hk h
      obtain ⟨rfl, -, htiles⟩ := htiles
      cases n with
      | zero => cases h
      | succ n =>
          have hlt := hbelow p List.mem_cons_self
          simp only [id_eq] at h htiles
          have hle := htiles.le
          -- the entry asked for is counted, and it is not this one
          have hmore : k < idx := by
            have hpos : 0 < liveCount m (p :: pre ++ [q]).tail :=
              List.countP_pos_iff.mpr ⟨q, List.mem_append_right _ List.mem_cons_self,
                decide_eq_true hq⟩
            omega
          rcases readdirTurn_cases ⟨p, p, b, k, m⟩ with
            hout | ⟨hend, -⟩ | ⟨-, -, hfound, -, -⟩ | ⟨-, -, -, -, hturn⟩
          · rw [loop_outside hout] at h
            cases h
          · exact absurd ⟨hlt, Nat.le_of_lt hmore⟩ hend
          · simp only at hfound
            omega
          · rw [loop_next hturn] at h
            simp only at h
            rw [Nat.mod_eq_of_lt (by omega)] at h
            refine ih post n _ b _ r htiles (fun x hx => hbelow x (List.mem_cons_of_mem _ hx)) he ?_ h
            -- the entry that is looked at ahead is the next one
            have hhead : ∀ l : List Nat, Tiles id (deRecLen m) (p + deRecLen m p) (l ++ q :: post) e →
                (if deInode m (p + deRecLen m p) ≠ 0 then 1 else 0) + liveCount m (l ++ [q]).tail
                  = liveCount m (l ++ [q]) := by
              intro l hl
              cases l with
              | nil =>
                  obtain ⟨heq, -, -⟩ := hl
                  rw [← show q = p + deRecLen m p from heq, if_pos hq]
                  simp [liveCount, hq]
              | cons x l =>
                  obtain ⟨heq, -, -⟩ := hl
                  rw [← show x = p + deRecLen m p from heq]
                  simp only [liveCount, List.cons_append, List.tail_cons, List.countP_cons,
                    decide_eq_true_eq]
                  omega
            have := hhead pre htiles
            rw [List.cons_append, List.tail_cons] at hk
            omega

theorem recLenFor_ge (nameLen : Nat) : 8 ≤ recLenFor nameLen := by
  unfold recLenFor
  omega

/-- `find_dirent` and `create_dirent2` step to the next entry of the block. -/
theorem Cursor.next_inside {c : Cursor} (hin : c.p + deRecLen c.buf c.p < blockSz) :
    c.next read blockSz = ⟨(c.offset + deRecLen c.buf c.p) % 2 ^ 32, c.p + deRecLen c.buf c.p,
      some c.p, c.blockno, c.buf⟩ := if_neg (Nat.not_le_of_lt hin)

namespace Chained

variable {es : List Nat} {e : Nat}

theorem nextIn (C : Chained m blockSz iSize es e) {g : Nat} (hg : g ∈ es) :
    g < iSize ∧ 0 < deRecLen m g ∧ g + deRecLen m g + 8 ≤ blockSz := by
  have hbounds := (C.tiles.bounds hg).2
  have hpos := C.tiles.pos hg
  have hroom := C.room
  rw [id_eq] at hbounds
  exact ⟨C.below g hg, hpos, by omega⟩

theorem find (C : Chained m blockSz iSize es e) (hbs : blockSz ≤ 2 ^ 16) (name : List UInt8) :
    ∃ r, Finishes (findTurn read blockSz iSize name) ⟨0, 0, none, 0, m⟩ r := by
  refine Finishes.along (P := fun g c => ∃ prev b, c = ⟨g, g, prev, b, m⟩) ?_ ?_ es 0 _
    (fun _ h => h) C.tiles ⟨none, 0, rfl⟩
  · rintro g _ hg ⟨prev, b, rfl⟩
    obtain ⟨hlt, hpos, hnext⟩ := C.nextIn hg
    rcases findTurn_cases ⟨g, g, prev, b, m⟩ with hout | ⟨-, hturn⟩ | ⟨-, -, hturn⟩ | ⟨-, -, hturn⟩
    · -- the header and the name are inside
      have hnamed := C.named _ hg
      unfold findTurn at hout
      rw [if_pos hlt, if_neg (show ¬blockSz < g + 8 by omega)] at hout
      split at hout
      · rename_i hlive
        rw [if_neg (Nat.not_lt.mpr (hnamed hlive.1))] at hout
        split at hout <;> cases hout
      · cases hout
    · exact Or.inl ⟨_, hturn⟩
    · exact Or.inl ⟨_, hturn⟩
    · refine Or.inr ⟨_, hturn, ?_⟩
      rw [Cursor.next_inside (by simp only; omega), Nat.mod_eq_of_lt (by simp only; omega)]
      exact ⟨_, _, rfl⟩
  · rintro _ ⟨prev, b, rfl⟩
    exact ⟨none, if_neg (Nat.not_lt.mpr C.size)⟩

theorem create (C : Chained m blockSz iSize es e) (hbs : blockSz ≤ 2 ^ 16) (nameLen : Nat) :
    ∃ r, Finishes (createTurn read blockSz iSize nameLen) ⟨0, 0, none, 0, m⟩ r := by
  refine Finishes.along (P := fun g c => ∃ prev b, c = ⟨g, g, prev, b, m⟩) ?_ ?_ es 0 _
    (fun _ h => h) C.tiles ⟨none, 0, rfl⟩
  · rintro g _ hg ⟨prev, b, rfl⟩
    obtain ⟨hlt, hpos, hnext⟩ := C.nextIn hg
    unfold createTurn
    rw [if_pos hlt, if_neg (by simp only; omega)]
    split
    · exact Or.inl ⟨_, rfl⟩
    · simp only
      split
      · rename_i hspace
        -- the new entry lies inside the one it is cut from
        have hge := recLenFor_ge nameLen
        rw [if_neg (by omega)]
        exact Or.inl ⟨_, rfl⟩
      · refine Or.inr ⟨_, rfl, ?_⟩
        rw [Cursor.next_inside (by simp only; omega), Nat.mod_eq_of_lt (by simp only; omega)]
        exact ⟨_, _, rfl⟩
  · rintro _ ⟨prev, b, rfl⟩
    exact ⟨_, if_neg (Nat.not_lt.mpr C.size)⟩

theorem readdir (C : Chained m blockSz iSize es e) (hbs : blockSz ≤ 2 ^ 16) (idx : Nat) :
    ∃ r, Finishes (readdirTurn read blockSz iSize idx) ⟨0, 0, 0, 0, m⟩ r := by
  refine Finishes.along (P := fun g w => ∃ b k, w = ⟨g, g, b, k, m⟩) ?_ ?_ es 0 _
    (fun _ h => h) C.tiles ⟨0, 0, rfl⟩
  · rintro g _ hg ⟨b, k, rfl⟩
    obtain ⟨hlt, hpos, hnext⟩ := C.nextIn hg
    rcases readdirTurn_cases ⟨g, g, b, k, m⟩ with
      hout | ⟨-, hturn⟩ | ⟨-, -, -, -, hturn⟩ | ⟨-, -, -, -, hturn⟩
    · have hnamed := C.named _ hg
      unfold readdirTurn at hout
      split at hout
      · rw [if_neg (show ¬blockSz < g + 8 by omega)] at hout
        split at hout
        · rename_i hfound
          rw [if_neg (Nat.not_lt.mpr (hnamed hfound.1))] at hout
          cases hout
        · simp only at hout
          rw [if_neg (by omega), if_neg (by omega)] at hout
          cases hout
      · cases hout
    · exact Or.inl ⟨_, hturn⟩
    · exact Or.inl ⟨_, hturn⟩
    · rw [Nat.mod_eq_of_lt (by simp only; omega)] at hturn
      exact Or.inr ⟨_, hturn, _, _, rfl⟩
  · rintro _ ⟨b, k, rfl⟩
    exact ⟨none, readdirTurn_stop C.size⟩

theorem count (C : Chained m blockSz iSize es e) (hbs : blockSz ≤ 2 ^ 16) :
    ∃ r, Finishes (countTurn read blockSz iSize) ⟨0, 0, 0, 0, m⟩ r := by
  refine Finishes.along (P := fun g w => ∃ b k, w = ⟨g, g, b, k, m⟩) ?_ ?_ es 0 _
    (fun _ h => h) C.tiles ⟨0, 0, rfl⟩
  · rintro g _ hg ⟨b, k, rfl⟩
    obtain ⟨hlt, hpos, hnext⟩ := C.nextIn hg
    have hturn := @countTurn_next read blockSz iSize ⟨g, g, b, k, m⟩ hlt (by simp only; omega)
      (C.named g hg) (by simp only; omega)
    rw [Nat.mod_eq_of_lt (by simp only; omega)] at hturn
    exact Or.inr ⟨_, hturn, _, _, rfl⟩
  · rintro _ ⟨b, k, rfl⟩
    exact ⟨k, countTurn_stop C.size⟩

end Chained

end FirstBlock

/-! ## The four walks of a directory inode -/

section Inode

variable {fs : Fs} {ino : Mem}

/-- Reading block `b` of the directory into a buffer. -/
def dirRead (fs : Fs) (ino : Mem) (b : Nat) (buf : Mem) : Mem := (readBlockInode fs ino b buf).2

/-- The buffer at the start of the loops. -/
def firstBlock (fs : Fs) (ino : Mem) : Mem := dirRead fs ino 0 fs.fresh

/-- The four loops end, and touch entries only inside the buffer. -/
structure WalksEnd (fs : Fs) (ino : Mem) : Prop where
  find : ∀ name, ∃ r, Finishes (findTurn (dirRead fs ino) fs.blockSz (iSize ino) name)
    ⟨0, 0, none, 0, firstBlock fs ino⟩ r
  create : ∀ nameLen < 256, ∃ r, Finishes (createTurn (dirRead fs ino) fs.blockSz (iSize ino) nameLen)
    ⟨0, 0, none, 0, firstBlock fs ino⟩ r
  readdir : ∀ idx < 2 ^ 31, ∃ r, Finishes (readdirTurn (dirRead fs ino) fs.blockSz (iSize ino) idx)
    ⟨0, 0, 0, 0, firstBlock fs ino⟩ r
  count : ∃ r, Finishes (countTurn (dirRead fs ino) fs.blockSz (iSize ino))
    ⟨0, 0, 0, 0, firstBlock fs ino⟩ r

/-- **Directory walks end inside the buffer** exactly when the records of the
first block lead to the size and leave room for one more header, with the names
in use inside. -/
theorem walksEnd_iff (h : Sized fs) : WalksEnd fs ino
    ↔ ∃ es e, Chained (firstBlock fs ino) fs.blockSz (iSize ino) es e := by
  obtain ⟨hge, hbs⟩ := h.bounds
  constructor
  · intro W
    obtain ⟨r, n, hcount⟩ := W.count
    obtain ⟨es, e, htiles, hsize, he, hbelow⟩ := countTurn_chain hbs n 0 0 0 r (by omega) hcount
    have hlen : es.length ≤ e := by
      have := htiles.length_le (k := 1) fun x hx => htiles.pos hx
      omega
    refine ⟨es, e, htiles, hsize, ?_, hbelow, fun q hq hlive => ?_⟩
    · by_cases hnil : es = []
      · subst hnil
        have : 0 = e := htiles
        omega
      · obtain ⟨r', n', hread⟩ := W.readdir es.length (by omega)
        exact readdirTurn_room hbs es n' 0 0 0 r' hnil htiles hbelow he (by omega) hread
    · obtain ⟨pre, post, rfl⟩ := List.append_of_mem hq
      have hidx : liveCount (firstBlock fs ino) (pre ++ [q]).tail ≤ (pre ++ q :: post).length := by
        refine List.countP_le_length.trans ?_
        simp only [List.length_tail, List.length_append, List.length_cons, List.length_nil]
        omega
      obtain ⟨r', n', hread⟩ :=
        W.readdir (liveCount (firstBlock fs ino) (pre ++ [q]).tail) (by omega)
      exact readdirTurn_named hbs hlive pre post n' 0 0 0 r' htiles hbelow he (by omega) hread
  · rintro ⟨es, e, C⟩
    exact ⟨C.find hbs, fun nameLen _ => C.create hbs nameLen, fun idx _ => C.readdir hbs idx,
      C.count hbs⟩

end Inode

/-- A directory without blocks. -/
theorem walksEnd_iff_empty :
    WalksEnd ⟨0, 0, 0, 0, 1024, 0, 0, 128, 0, 0, true, 0, 0⟩ fun _ => 0 :=
  (walksEnd_iff ⟨0, by decide, rfl⟩).mpr ⟨[], 0, rfl, Nat.le_of_eq (by decide), by decide,
    fun _ h => absurd h List.not_mem_nil, fun _ h => absurd h List.not_mem_nil⟩

/-- A directory of 1024 bytes whose block is not there: the buffer is all zero,
and `count_dirent` never gets past the first record. -/
theorem walks_stall : ¬WalksEnd ⟨0, 0, 0, 0, 1024, 0, 0, 128, 0, 0, true, 0, 0⟩
    (setISize (fun _ => 0) 1024) := by
  intro W
  obtain ⟨r, n, hcount⟩ := W.count
  obtain ⟨-, e, -, hsize, he, -⟩ := countTurn_chain (by decide) n 0 0 0 r (by decide) hcount
  have hsz : iSize (setISize (fun _ => 0) 1024) = 1024 := by decide
  rw [hsz] at hsize
  change e < 1024 at he
  omega

/-! ## Listing a directory -/

/-- `ext2fs_readdir(node, idx)`, for at most `n` turns; `sz` is `node->sz`. -/
def ext2fsReaddir (n : Nat) (fs : Fs) (no sz idx : Nat) : Ending (Option (Nat × List UInt8)) :=
  match readInode fs no with
  | none => .outside
  | some ino =>
      loop (readdirTurn (dirRead fs ino) fs.blockSz sz idx) n ⟨0, 0, 0, 0, firstBlock fs ino⟩

/-- The entries in use, in the order in which they lie in the directory. -/
def listing (m : Mem) (es : List Nat) : List (Nat × List UInt8) :=
  (es.filter fun p => decide (deInode m p ≠ 0)).map fun p => (deInode m p, deName m p)

/-- Every index gets its entry, and NULL behind the last one. -/
def Listed (fs : Fs) (no : Nat) (m : Mem) (es : List Nat) : Prop :=
  ∀ idx < 2 ^ 31, ∃ n, ext2fsReaddir n fs no (iSize (diskInode fs no)) idx
    = .done (listing m es)[idx]?

theorem DirImage.nil_of_zero {m : Mem} {blockSz iSize : Nat} {es : List Nat}
    (D : DirImage m blockSz iSize es) (h : iSize = 0) : es = [] := by
  cases es with
  | nil => rfl
  | cons p es =>
      obtain ⟨-, hpos, htiles⟩ := D.tiles
      have := htiles.le
      omega

/-- A directory that ends before its first block does is empty. -/
theorem DirImage.zero_of_lt {m : Mem} {blockSz iSize : Nat} {es : List Nat}
    (D : DirImage m blockSz iSize es) (h : iSize < blockSz) : iSize = 0 :=
  Nat.eq_zero_of_dvd_of_lt D.multiple h

/-- **Directory listing is complete** and stays inside the buffer only for a
directory without blocks. -/
theorem readdir_complete_iff {p n no : Nat} {fs : Fs} {es : List Nat}
    (D : Directory p n (fileOf fs no) es) :
    Listed fs no ((fileOf fs no).data p n) es ↔ iSize (diskInode fs no) = 0 := by
  have hd : fs.devSz ≤ 2 ^ 32 := D.volume.dev
  have H : Homed fs no := D.homed
  have hsized : Sized fs := D.volume.blockSz
  obtain ⟨hge, hbs⟩ := hsized.bounds
  have himage : DirImage ((fileOf fs no).data p n) fs.blockSz (iSize (diskInode fs no)) es := D.image
  obtain ⟨ino, hread, -⟩ := readInode_agree hd H
  constructor
  · intro hlist
    -- an index behind the last entry that is not the first
    have hlen : es.length < 2 ^ 29 := by
      have := himage.tiles.length_le (k := 8) fun q hq => by
        have := himage.fits q hq
        omega
      have := himage.bounded
      omega
    have hnull : (listing ((fileOf fs no).data p n) es)[es.length + 1]? = none := by
      refine List.getElem?_eq_none ?_
      rw [listing, List.length_map]
      exact (List.length_filter_le _ _).trans (Nat.le_succ _)
    obtain ⟨k, hk⟩ := hlist (es.length + 1) (by omega)
    simp only [ext2fsReaddir, hread, hnull] at hk
    exact himage.zero_of_lt
      (readdirTurn_null hbs k 0 0 0 (by omega) (by omega) (by omega) hk)
  · intro hzero idx _
    obtain rfl := himage.nil_of_zero hzero
    refine ⟨1, ?_⟩
    have hnone : (listing (File.data p n (fileOf fs no)) [])[idx]? = none := List.getElem?_nil
    simp only [ext2fsReaddir, hread, hzero, hnone]
    exact loop_stop (readdirTurn_stop (Nat.le_refl 0)) 0

/-! ## Removing a directory -/

/-- The entries in use other than `.` and `..`. -/
def countedIn (m : Mem) (es : List Nat) : Nat := es.countP fun p => decide (Counted m p)

/-- The entries are counted inside the buffer, and the directory is freed exactly
when there are none. -/
structure RemovedIfEmpty (fs : Fs) (target : Mem) (no : Nat) (m : Mem) (es : List Nat) :
    Prop where
  count : Finishes (countTurn (dirRead fs target) fs.blockSz (iSize target))
    ⟨0, 0, 0, 0, firstBlock fs target⟩ (countedIn m es)
  unlink : ∃ N₀, ∀ N ≥ N₀, unlinkTarget N fs target no
    = if countedIn m es = 0 then (dropInode fs target no).map fun fs => (true, 0, fs)
      else some (false, eisdir, fs)

/-- **Only empty directories are removed**: the count that decides it is right
and stays inside the buffer only for a directory without blocks. -/
theorem countDirent_iff {p n no : Nat} {fs : Fs} {target : Mem} {es : List Nat}
    (D : Directory p n ⟨fs, target, no, []⟩ es) (hdir : IsDir target) :
    RemovedIfEmpty fs target no (File.data p n ⟨fs, target, no, []⟩) es ↔ iSize target = 0 := by
  have hsized : Sized fs := D.volume.blockSz
  obtain ⟨hge, hbs⟩ := hsized.bounds
  have himage : DirImage (File.data p n ⟨fs, target, no, []⟩) fs.blockSz (iSize target) es := D.image
  constructor
  · rintro ⟨⟨k, hcount⟩, -⟩
    obtain ⟨-, e, -, hsize, he, -⟩ := countTurn_chain hbs k 0 0 0 _ (by omega) hcount
    exact himage.zero_of_lt (by omega)
  · intro hzero
    obtain rfl := himage.nil_of_zero hzero
    have hstop : ∀ N, 1 ≤ N → loop (countTurn (dirRead fs target) fs.blockSz (iSize target)) N
        ⟨0, 0, 0, 0, firstBlock fs target⟩ = .done 0 := by
      intro N hN
      obtain ⟨N, rfl⟩ := Nat.exists_eq_add_of_le' hN
      exact loop_stop (countTurn_stop (Nat.le_of_eq hzero)) N
    refine ⟨⟨1, hstop 1 (Nat.le_refl 1)⟩, 1, fun N hN => ?_⟩
    have hcount : countDirent N fs target = some 0 := countLoop_of_loop (hstop N hN)
    rw [unlinkTarget, if_pos hdir, hcount]
    rfl

/-! ## A directory of two blocks -/

theorem readdir_complete_iff_namedFs :
    ¬Listed namedFs 1 ((fileOf namedFs 1).data 256 2) [0, 1024] :=
  fun h => absurd ((readdir_complete_iff namedFs_directory).mp h) (by decide +kernel)

/-- Asked for the entry behind the only one, `ext2fs_readdir` reads behind the
buffer instead of returning NULL. -/
theorem readdir_leaves_buffer :
    listing ((fileOf namedFs 1).data 256 2) [0, 1024] = [(2, [97])]
      ∧ ext2fsReaddir 1 namedFs 1 2048 1 = .outside
      ∧ ¬∃ n, ext2fsReaddir n namedFs 1 2048 1 = .done none := by
  have hout : ext2fsReaddir 1 namedFs 1 2048 1 = .outside := by decide +kernel
  refine ⟨by decide +kernel, hout, ?_⟩
  rintro ⟨n, hn⟩
  cases hread : readInode namedFs 1 with
  | none =>
      simp only [ext2fsReaddir, hread] at hn
      cases hn
  | some ino =>
      simp only [ext2fsReaddir, hread] at hn hout
      exact not_finishes_of_outside hout ⟨n, hn⟩

theorem countDirent_iff_namedFs :
    ¬RemovedIfEmpty namedFs (diskInode namedFs 1) 1 ((fileOf namedFs 1).data 256 2) [0, 1024] :=
  fun h => absurd ((countDirent_iff namedFs_directory (by decide +kernel)).mp h) (by decide +kernel)

/-- `count_dirent` reads behind the buffer at the end of the first block. -/
theorem count_leaves_buffer :
    loop (countTurn (dirRead namedFs (diskInode namedFs 1)) 1024 2048) 1
        ⟨0, 0, 0, 0, firstBlock namedFs (diskInode namedFs 1)⟩ = .outside
      ∧ ¬RemovedIfEmpty namedFs (diskInode namedFs 1) 1 ((fileOf namedFs 1).data 256 2)
        [0, 1024] := by
  have hout : loop (countTurn (dirRead namedFs (diskInode namedFs 1)) namedFs.blockSz
      (iSize (diskInode namedFs 1))) 1 ⟨0, 0, 0, 0, firstBlock namedFs (diskInode namedFs 1)⟩
        = .outside := by decide +kernel
  exact ⟨by decide +kernel, fun h => not_finishes_of_outside hout h.count⟩

end Ext2

end Shitos
