import Shitos.HeapExtend

/-!
# Looking at the neighbours

`vmem_heap_free` tells a neighbour by the magic number in front of the block and behind
it, `vmem_heap_realloc` by comparing addresses with `heap->end`. `freeProbes` and
`reallocProbes` list the headers and footers that the two read or write on the way: a
free stays inside the heap exactly if the block is neither the first nor the last
segment, and `ProbesFit` says the same of a change of its size.
-/

namespace Shitos

namespace Heap

/-- A header or a footer that is read or written, and the heap at that time. -/
structure Probe where
  heap : VmemHeap
  addr : Nat
  len : Nat
deriving DecidableEq

/-- The tag lies between the start of the heap and its end. -/
def Probe.Inside (x : Probe) : Prop := x.heap.start ≤ x.addr ∧ x.addr + x.len ≤ x.heap.stop

instance (x : Probe) : Decidable x.Inside := inferInstanceAs (Decidable (_ ∧ _))

def St.header (s : St) (a : Nat) : Probe := ⟨s.heap, a, headerSz⟩

def St.footer (s : St) (a : Nat) : Probe := ⟨s.heap, a, footerSz⟩

/-! ## What the code looks at -/

/-- The tags that `free` looks at on the left: `lftr`, and its header if there is one. -/
def leftProbes (s : St) (m : Mem) (hdr : Nat) : List Probe :=
  let lftr := sub32 hdr footerSz
  s.footer lftr :: if tagMagic m lftr = magic then [s.header (ftrHdr m lftr)] else []

/-- The tags that `free` looks at on the right: `rhdr`, and its footer if it is a hole. -/
def rightProbes (s : St) (m : Mem) (hdr ftr : Nat) : List Probe :=
  let rhdr := ftr + footerSz
  s.header rhdr ::
    if RightHole m rhdr then
      let m := setSize m hdr ((hdrSize m hdr + hdrSize m rhdr) % 2 ^ 32)
      [s.footer (rhdr + hdrSize m rhdr - footerSz)]
    else []

/-- The tags of neighbours in `vmem_heap_free`. -/
def freeProbes (s : St) (p : Nat) : List Probe :=
  if p = 0 then []
  else
    let hdr := sub32 p headerSz
    let ftr := hdr + hdrSize s.mem hdr - footerSz
    if tagMagic s.mem hdr = magic ∧ tagMagic s.mem ftr = magic ∧ hdrHole s.mem hdr = 0 then
      let m := markMem s hdr
      leftProbes s m hdr ++ rightProbes s (unifyLeft m hdr ftr).1 (unifyLeft m hdr ftr).2.1 ftr
    else []

/-- The header that `shrinkRight` puts in front of `rhdr`. -/
def newRhdr (m : Mem) (hdr rhdr size : Nat) : Mem :=
  let new := add32 hdr size
  let m := setAlign (setMagic m new) new 0
  setHole (setSize m new (add32 (hdrSize m rhdr) (sub32 size (hdrSize m hdr)))) new 1

/-- The tags of neighbours when a block is shrunk. -/
def shrinkProbes (s : St) (hdr rhdr size : Nat) : List Probe :=
  if add32 rhdr headerSz ≤ s.heap.stop then
    s.header rhdr ::
      if hdrHole s.mem rhdr ≠ 0 then
        match (s.heap.index.index s.mem rhdr).bind s.remove with
        | none => []
        | some t => [s.footer (ftrOf (newRhdr t.mem hdr rhdr size) rhdr)]
      else []
  else []

/-- The tags of the hole that is made of new pages. -/
def endProbes (P : Pages) (s : St) (hdr size : Nat) : List Probe :=
  match expand P s (add32 (sub32 s.heap.stop s.heap.start) size) with
  | none => []
  | some t =>
      let m := setSize t.mem hdr size
      let newFtr := ftrOf m hdr
      let hole := add32 newFtr footerSz
      let m := putHole (putFooter m newFtr hdr) hole (sub32 t.heap.stop hole)
      [t.header hole, t.footer (ftrOf m hole)]

/-- The tags of neighbours in `vmem_heap_realloc`. -/
def reallocProbes (P : Pages) (n : Nat) : Nat → St → Nat → Nat → List Probe
  | 0, _, _, _ => []
  | k + 1, s, old, size =>
      if old = 0 then []
      else if size = 0 then freeProbes s old
      else
        let size := realSize size
        let hdr := sub32 old headerSz
        let rhdr := nextOf s.mem hdr
        if tagMagic s.mem hdr = magic ∧ tagMagic s.mem (ftrOf s.mem hdr) = magic
            ∧ hdrHole s.mem hdr = 0 then
          if hdrSize s.mem hdr = size then []
          else if hdrSize s.mem hdr > size then shrinkProbes s hdr rhdr size
          else if add32 rhdr headerSz > s.heap.stop then endProbes P s hdr size
          else
            s.header rhdr ::
              if hdrHole s.mem rhdr ≠ 0 then
                s.footer (ftrOf s.mem rhdr) ::
                  match extendHole s hdr rhdr size with
                  | none => []
                  | some (t, true) => reallocProbes P n k t old size
                  | some (_, false) =>
                      if hdrSize s.mem rhdr - sub32 size (hdrSize s.mem hdr)
                          ≥ headerSz + footerSz then [s.header (add32 hdr size)]
                      else []
              else
                match moveOut P n s old hdr size with
                | none => []
                | some (_, t) => freeProbes t old
        else []

/-! ## A free -/

section Free

variable {s : St} {l₁ l₂ : List Seg} {g : Seg}

theorem freeProbes_live (W : WellFormed s (l₁ ++ g :: l₂)) (hlive : g.hole = false) :
    freeProbes s (g.addr + 12) = leftProbes s (markHole s g).mem g.addr
      ++ rightProbes s (unifyLeft (markHole s g).mem g.addr (g.addr + g.size - 8)).1
        (unifyLeft (markHole s g).mem g.addr (g.addr + g.size - 8)).2.1 (g.addr + g.size - 8) := by
  have htag := W.tagged g (List.mem_append_right _ List.mem_cons_self)
  have hhdr : sub32 (g.addr + 12) headerSz = g.addr := by
    rw [headerSz, sub32_of_le (Nat.le_add_left ..), Nat.add_sub_cancel]
  have hpass : tagMagic s.mem g.addr = magic ∧ tagMagic s.mem (g.addr + g.size - 8) = magic
      ∧ hdrHole s.mem g.addr = 0 := ⟨htag.magic, htag.ftrMagic, by rw [htag.hole, hlive]; rfl⟩
  simp only [freeProbes, hhdr, htag.size, footerSz]
  rw [if_neg (by omega), if_pos hpass]
  rfl

/-- The last segment in front of the block has its tags in the heap. -/
theorem leftProbes_inside {h : Seg} (W : WellFormed s (l₁ ++ h :: g :: l₂)) :
    ∀ x ∈ leftProbes s (markHole s g).mem g.addr, x.Inside := by
  have S : Segmented s ((l₁ ++ [h]) ++ g :: l₂) := by
    rw [List.append_assoc]
    exact W.toSegmented
  have S₁ := markHole_segmented S
  rw [List.append_assoc] at S₁
  have hmem : h ∈ l₁ ++ h :: g :: l₂ := List.mem_append_right _ List.mem_cons_self
  have htag := S₁.tagged h (List.mem_append_right _ List.mem_cons_self)
  have h20 := W.min h hmem
  have hb := W.tiles.bounds hmem
  have hlftr : sub32 g.addr footerSz = h.addr + h.size - 8 := (leftHole_iff S₁).1
  intro x hx
  unfold leftProbes at hx
  dsimp only at hx
  rw [hlftr, if_pos htag.ftrMagic, htag.ftrHdr] at hx
  unfold Probe.Inside
  rcases List.mem_cons.mp hx with rfl | hx
  · dsimp only [St.footer, footerSz]
    omega
  · rw [List.mem_singleton.mp hx]
    dsimp only [St.header, headerSz]
    omega

/-- The segment behind the block has its tags in the heap. -/
theorem rightProbes_inside {r : Seg} (W : WellFormed s (l₁ ++ g :: r :: l₂)) (hP : Placed s)
    (hne : l₁ ≠ []) :
    ∀ x ∈ rightProbes s (unifyLeft (markHole s g).mem g.addr (g.addr + g.size - 8)).1
      (unifyLeft (markHole s g).mem g.addr (g.addr + g.size - 8)).2.1 (g.addr + g.size - 8),
      x.Inside := by
  have hgmem : g ∈ l₁ ++ g :: r :: l₂ := List.mem_append_right _ List.mem_cons_self
  have hrmem : r ∈ l₁ ++ g :: r :: l₂ :=
    List.mem_append_right _ (List.mem_cons_of_mem _ List.mem_cons_self)
  have g20 := W.min g hgmem
  have r20 := W.min r hrmem
  have hrb := W.tiles.bounds hrmem
  have hnext := (next_hole W).1
  obtain ⟨m, l₁', g', add, hunify, -, hdone⟩ := unifyLeft_spec (markHole_segmented W.toSegmented)
    rfl (List.isChain_append.mp W.apart).1 hP.stop fun hnil => absurd hnil hne
  have hrtag : Tagged m r := hdone.segmented.tagged r
    (List.mem_append_right _ (List.mem_cons_of_mem _ List.mem_cons_self))
  have hle : g'.addr ≤ g.addr := hdone.le
  rw [hunify]
  intro x hx
  unfold rightProbes at hx
  dsimp only at hx
  have hrhdr : g.addr + g.size - 8 + footerSz = r.addr := by
    unfold footerSz
    omega
  have hsize : hdrSize (setSize m g'.addr ((hdrSize m g'.addr + hdrSize m r.addr) % 2 ^ 32)) r.addr
      = r.size :=
    (hdrSize_congr fun x h1 h2 => setSize_apply (by omega)).trans hrtag.size
  rw [hrhdr, hsize] at hx
  unfold Probe.Inside
  rcases List.mem_cons.mp hx with rfl | hx
  · dsimp only [St.header, headerSz]
    omega
  · split at hx
    · rw [List.mem_singleton.mp hx]
      dsimp only [St.footer, footerSz]
      omega
    · exact nomatch hx

/-- A free stays inside the heap exactly if the block has two neighbours. -/
theorem freeProbes_iff (W : WellFormed s (l₁ ++ g :: l₂)) (hP : Placed s) (hlive : g.hole = false) :
    (∀ x ∈ freeProbes s (g.addr + 12), x.Inside) ↔ l₁ ≠ [] ∧ l₂ ≠ [] := by
  have hgmem : g ∈ l₁ ++ g :: l₂ := List.mem_append_right _ List.mem_cons_self
  have g20 := W.min g hgmem
  have hb := W.tiles.bounds hgmem
  have hstop := hP.stop
  rw [freeProbes_live W hlive]
  constructor
  · intro h
    constructor
    · rintro rfl
      have hstart : g.addr = s.heap.start := W.tiles.1
      have hin : (s.footer (sub32 g.addr footerSz)).Inside :=
        h _ (List.mem_append_left _ List.mem_cons_self)
      unfold Probe.Inside at hin
      dsimp only [St.footer, footerSz] at hin
      unfold sub32 at hin
      split at hin <;> omega
    · rintro rfl
      have hend : g.addr + g.size = s.heap.stop := (tiles_split.mp W.tiles).2.2
      have hin : (s.header (g.addr + g.size - 8 + footerSz)).Inside :=
        h _ (List.mem_append_right _ List.mem_cons_self)
      unfold Probe.Inside at hin
      dsimp only [St.header, headerSz, footerSz] at hin
      omega
  · rintro ⟨hl, hr⟩ x hx
    obtain ⟨l, h, rfl⟩ := (List.eq_nil_or_concat' l₁).resolve_left hl
    obtain ⟨r, l₃, rfl⟩ := List.exists_cons_of_ne_nil hr
    rcases List.mem_append.mp hx with hx | hx
    · rw [List.append_assoc, List.singleton_append] at W
      exact leftProbes_inside W x hx
    · exact rightProbes_inside W hP hl x hx

end Free

/-! ## A smaller block -/

section Shrink

variable {s : St} {l₁ l₂ l₃ : List Seg} {g r : Seg} {n : Nat}

theorem rightHdrMem_congr {m m' : Mem} {x : Nat} (h : m' x = m x) :
    rightHdrMem m' g r n x = rightHdrMem m g r n x := by
  simp only [rightHdrMem, setAlign, setHole, setMagic, setSize, wr32, wr16, wr8, h]

/-- Up to three bytes less leave the size of the hole to be read from its own header
and from the new one. -/
def LeadsInside (s : St) (g r : Seg) (n : Nat) : Prop :=
  g.size < n + 4 → (s.footer (ftrOf (rightHdrMem s.mem g r n) r.addr)).Inside

theorem shrinkProbes_iff (W : WellFormed s (l₁ ++ g :: l₂)) (hP : Paged s) (hn : n < g.size) :
    (∀ x ∈ shrinkProbes s g.addr (g.addr + g.size) n, x.Inside)
      ↔ ∀ r l₃, l₂ = r :: l₃ → r.hole = true → LeadsInside s g r n := by
  have hinside := next_inside W hP
  cases l₂ with
  | nil =>
      unfold shrinkProbes
      rw [if_neg fun h => hinside.mp h rfl]
      exact iff_of_true (fun _ hx => nomatch hx) fun _ _ h => nomatch h
  | cons r l₃ =>
      have hgmem : g ∈ l₁ ++ g :: r :: l₃ := List.mem_append_right _ List.mem_cons_self
      have hrmem : r ∈ l₁ ++ g :: r :: l₃ :=
        List.mem_append_right _ (List.mem_cons_of_mem _ List.mem_cons_self)
      have g20 := W.min g hgmem
      have r20 := W.min r hrmem
      have hrb := W.tiles.bounds hrmem
      have hgb := W.tiles.bounds hgmem
      have hstop := hP.stop
      obtain ⟨haddr, hhole⟩ := next_hole W
      have hhdr : (s.header r.addr).Inside := by
        unfold Probe.Inside
        dsimp only [St.header, headerSz]
        omega
      unfold shrinkProbes
      rw [if_pos (hinside.mpr (List.cons_ne_nil _ _)), ← haddr]
      rw [← haddr] at hhole
      by_cases hr : r.hole = true
      · obtain ⟨i, t, hindex, hrem, U⟩ := W.unlist hP.toPlaced hrmem hr
        have hgtag : Tagged t.mem g := (W.tagged g hgmem).congr g20 fun x h1 _ => U.mem x (by omega)
        have hrtag : Tagged t.mem r := (W.tagged r hrmem).congr r20 fun x h1 _ => U.mem x (by omega)
        rw [if_pos (hhole.mpr hr), hindex, Option.bind_some, hrem]
        dsimp only
        have hall : (∀ x ∈ [s.header r.addr, s.footer (ftrOf (newRhdr t.mem g.addr r.addr n) r.addr)],
            x.Inside) ↔ (s.footer (ftrOf (newRhdr t.mem g.addr r.addr n) r.addr)).Inside := by
          simp only [List.mem_cons, List.not_mem_nil, or_false, forall_eq_or_imp, forall_eq,
            hhdr, true_and]
        rw [hall]
        have hleads : (∀ y t, r :: l₃ = y :: t → y.hole = true → LeadsInside s g y n)
            ↔ LeadsInside s g r n :=
          ⟨fun h => h r l₃ rfl hr, fun h y t heq _ => (List.cons.inj heq).1 ▸ h⟩
        rw [hleads]
        by_cases hclose : g.size < n + 4
        · obtain ⟨hgsize, hrsize⟩ := newHdr_sizes hgtag hrtag haddr (by omega) hn
          have hnew : newRhdr t.mem g.addr r.addr n = rightHdrMem t.mem g r n := by
            unfold newRhdr
            dsimp only
            rw [add32_of_lt (by omega), hrsize, hgsize]
            rfl
          have hsame : hdrSize (rightHdrMem t.mem g r n) r.addr
              = hdrSize (rightHdrMem s.mem g r n) r.addr :=
            rd32_congr fun x h1 _ => rightHdrMem_congr (U.mem x (by omega))
          unfold LeadsInside
          rw [hnew, ftrOf, hsame]
          exact ⟨fun h _ => h, fun h => h hclose⟩
        · -- the header of the hole is whole
          have hsize : hdrSize (newRhdr t.mem g.addr r.addr n) r.addr = r.size := by
            refine Eq.trans (rd32_congr fun x h1 h2 => ?_) hrtag.size
            simp only [newRhdr, setAlign, setHole, setMagic, setSize]
            rw [add32_of_lt (by omega), wr8_apply_of_ne (by omega), wr32_apply_of_ne (by omega),
              wr8_apply_of_ne (by omega), wr32_apply_of_ne (by omega)]
          refine iff_of_true ?_ fun h => absurd h hclose
          rw [ftrOf, hsize, add32_of_lt (by omega), footerSz, sub32_of_le (by omega)]
          unfold Probe.Inside
          dsimp only [St.footer, footerSz]
          omega
      · rw [if_neg (hhole.not.mpr hr)]
        refine iff_of_true (fun x hx => ?_) fun y t h hy => ?_
        · rw [List.mem_singleton.mp hx]
          exact hhdr
        · rw [(List.cons.inj h).1] at hr
          exact absurd hy hr

end Shrink

/-! ## A larger block -/

section Extend

variable {P : Pages} {s t : St} {l₁ l₂ l₃ : List Seg} {g r : Seg} {n : Nat}

/-- An expansion that goes through: the sum of the sizes has not wrapped, and the end
only if it is in front of the start then. -/
theorem expand_cases (hP : Paged s) (hle : s.heap.start ≤ s.heap.stop) (hn : n < 2 ^ 32)
    (h : expand P s (add32 (sub32 s.heap.stop s.heap.start) n) = some t) :
    t.heap.start = s.heap.start ∧ ∃ Z, s.heap.stop - s.heap.start + n ≤ Z ∧ Z < 2 ^ 32
      ∧ t.heap.stop = (s.heap.start + Z) % 2 ^ 32 := by
  obtain ⟨Z, hZ, hlt, -, rfl⟩ := expand_some hP hle hn h
  exact ⟨rfl, Z, by omega, hlt, rfl⟩

theorem endProbes_iff (W : WellFormed s (l₁ ++ [g])) (hP : Paged s) (hn : g.size < n)
    (hlt : n < 2 ^ 32) : (∀ x ∈ endProbes P s g.addr n, x.Inside)
      ↔ ∀ t, expand P s (add32 (sub32 s.heap.stop s.heap.start) n) = some t →
        s.heap.stop ≤ t.heap.stop := by
  have hgmem : g ∈ l₁ ++ [g] := List.mem_append_right _ List.mem_cons_self
  have g20 := W.min g hgmem
  have hgb := W.tiles.bounds hgmem
  have hstop := hP.stop
  have hend : g.addr + g.size = s.heap.stop := (tiles_split.mp W.tiles).2.2
  unfold endProbes
  cases hexpand : expand P s (add32 (sub32 s.heap.stop s.heap.start) n) with
  | none => exact iff_of_true (fun _ hx => nomatch hx) fun _ h => nomatch h
  | some t =>
      obtain ⟨hstart, Z, hZ, hZlt, hnew⟩ := expand_cases hP W.tiles.le hlt hexpand
      dsimp only
      have hall : (∀ u, some t = some u → s.heap.stop ≤ u.heap.stop) ↔ s.heap.stop ≤ t.heap.stop :=
        ⟨fun h => h t rfl, fun h u hu => (Option.some.inj hu) ▸ h⟩
      rw [hall]
      constructor
      · -- an end that has wrapped lies in front of the start
        intro h
        have hin := h _ List.mem_cons_self
        unfold Probe.Inside at hin
        dsimp only [St.header, headerSz] at hin
        omega
      · intro hle
        have hstop' : t.heap.stop = s.heap.start + Z := by omega
        have hsize : hdrSize (setSize t.mem g.addr n) g.addr = n := hdrSize_setSize hlt
        have hftr : ftrOf (setSize t.mem g.addr n) g.addr = g.addr + n - 8 := by
          rw [ftrOf, hsize, add32_of_lt (by omega), footerSz, sub32_of_le (by omega)]
        have hhole : add32 (g.addr + n - 8) footerSz = g.addr + n := by
          unfold footerSz
          rw [add32_of_lt (by omega)]
          omega
        have hrest : sub32 t.heap.stop (g.addr + n) = s.heap.start + Z - (g.addr + n) := by
          rw [hstop', sub32_of_le (by omega)]
        rw [hftr, hhole, hrest]
        generalize hz : s.heap.start + Z - (g.addr + n) = z
        rw [ftrOf, hdrSize_putHole (by omega), add32_of_lt (by omega), footerSz,
          sub32_of_le (by omega)]
        intro x hx
        unfold Probe.Inside
        rcases List.mem_cons.mp hx with rfl | hx
        · dsimp only [St.header, headerSz]
          omega
        · rw [List.mem_singleton.mp hx]
          dsimp only [St.footer, footerSz]
          omega

/-- `reallocProbes` on a live block. -/
theorem reallocProbes_live {a k size : Nat} (W : WellFormed s (l₁ ++ g :: l₂)) (hP : Paged s)
    (hlive : g.hole = false) (hpos : size ≠ 0) :
    reallocProbes P a (k + 1) s (g.addr + 12) size =
      if g.size = realSize size then []
      else if g.size > realSize size then
        shrinkProbes s g.addr (g.addr + g.size) (realSize size)
      else match l₂ with
        | [] => endProbes P s g.addr (realSize size)
        | r :: _ => s.header r.addr ::
            if r.hole then
              s.footer (r.addr + r.size - 8) ::
                match extendHole s g.addr r.addr (realSize size) with
                | none => []
                | some (t, true) => reallocProbes P a k t (g.addr + 12) (realSize size)
                | some (_, false) =>
                    if r.size - (realSize size - g.size) ≥ 20 then
                      [s.header (add32 g.addr (realSize size))] else []
            else
              match moveOut P a s (g.addr + 12) g.addr (realSize size) with
              | none => []
              | some (_, t) => freeProbes t (g.addr + 12) := by
  obtain ⟨hhdr, hftr, hnext, hasserts⟩ := live_asserts W hP.stop hlive
  have hgmem : g ∈ l₁ ++ g :: l₂ := List.mem_append_right _ List.mem_cons_self
  have hgsize := (W.tagged g hgmem).size
  have hinside := next_inside W hP
  have hp : ¬g.addr + 12 = 0 := by omega
  rw [reallocProbes, if_neg hp, if_neg hpos]
  simp only [hhdr, hnext, hgsize]
  rw [if_pos hasserts]
  by_cases heq : g.size = realSize size
  · rw [if_pos heq, if_pos heq]
  rw [if_neg heq, if_neg heq]
  by_cases hgt : g.size > realSize size
  · rw [if_pos hgt, if_pos hgt]
  rw [if_neg hgt, if_neg hgt]
  cases l₂ with
  | nil =>
      have hend : add32 (g.addr + g.size) headerSz > s.heap.stop :=
        Nat.lt_of_not_le fun h => hinside.mp h rfl
      rw [if_pos hend]
  | cons r l₃ =>
      have hend := hinside.mpr (List.cons_ne_nil r l₃)
      obtain ⟨haddr, hhole⟩ := next_hole W
      obtain ⟨-, -, hrend, -, r20, -, hrtag⟩ := pair_bounds W
      have hstop := hP.stop
      rw [if_neg (Nat.not_lt.mpr hend)]
      dsimp only
      rw [← haddr] at hhole ⊢
      rw [ftrOf_eq hrtag r20 (by omega), hrtag.size, sub32_of_le (by omega)]
      by_cases hr : r.hole = true
      · rw [if_pos (hhole.mpr hr), if_pos hr]
        rfl
      · rw [if_neg (hhole.not.mpr hr), if_neg hr]

theorem pair_inside (W : WellFormed s (l₁ ++ g :: r :: l₃)) :
    (s.header r.addr).Inside ∧ (s.footer (r.addr + r.size - 8)).Inside := by
  obtain ⟨hlow, hnext, hend, g20, r20, -, -⟩ := pair_bounds W
  unfold Probe.Inside
  dsimp only [St.header, St.footer, headerSz, footerSz]
  omega

/-- One call: what is left to look at once the tags of the segment behind the block
are known to be inside. -/
theorem reallocProbes_step {a k size : Nat} (W : WellFormed s (l₁ ++ g :: l₂)) (hP : Paged s)
    (hlive : g.hole = false) (hpos : size ≠ 0) :
    (∀ x ∈ reallocProbes P a (k + 1) s (g.addr + 12) size, x.Inside) ↔
      if g.size = realSize size then True
      else if g.size > realSize size then
        ∀ r l₃, l₂ = r :: l₃ → r.hole = true → LeadsInside s g r (realSize size)
      else match l₂ with
        | [] => ∀ t, expand P s (add32 (sub32 s.heap.stop s.heap.start) (realSize size)) = some t →
            s.heap.stop ≤ t.heap.stop
        | r :: _ =>
            if r.hole then ∀ t, extendHole s g.addr r.addr (realSize size) = some (t, true) →
              ∀ x ∈ reallocProbes P a k t (g.addr + 12) (realSize size), x.Inside
            else ∀ q t, moveOut P a s (g.addr + 12) g.addr (realSize size) = some (q, t) →
              ∀ x ∈ freeProbes t (g.addr + 12), x.Inside := by
  have hlt : realSize size < 2 ^ 32 := Nat.mod_lt _ (by decide)
  rw [reallocProbes_live W hP hlive hpos]
  by_cases heq : g.size = realSize size
  · rw [if_pos heq, if_pos heq]
    exact iff_of_true (fun _ hx => nomatch hx) trivial
  rw [if_neg heq, if_neg heq]
  by_cases hgt : g.size > realSize size
  · rw [if_pos hgt, if_pos hgt]
    exact shrinkProbes_iff W hP hgt
  rw [if_neg hgt, if_neg hgt]
  cases l₂ with
  | nil => exact endProbes_iff W hP (by omega) hlt
  | cons r l₃ =>
      obtain ⟨hhdr, hftr⟩ := pair_inside W
      dsimp only
      rw [List.forall_mem_cons, and_iff_right hhdr]
      by_cases hr : r.hole = true
      · rw [if_pos hr, if_pos hr, List.forall_mem_cons, and_iff_right hftr]
        cases hextend : extendHole s g.addr r.addr (realSize size) with
        | none => exact iff_of_true (fun _ hx => nomatch hx) fun _ h => nomatch h
        | some tb =>
            obtain ⟨t, b⟩ := tb
            cases b with
            | true =>
                refine ⟨fun h u heq => ?_, fun h => h t rfl⟩
                rw [← (Prod.mk.inj (Option.some.inj heq)).1]
                exact h
            | false =>
                -- the header of what is left lies in the old hole
                obtain ⟨hlow, hnext, hend, g20, r20, -, -⟩ := pair_bounds W
                have hstop := hP.stop
                refine iff_of_true (fun x hx => ?_) fun u h => nomatch h
                dsimp only at hx
                split at hx
                · rw [List.mem_singleton.mp hx, add32_of_lt (by omega)]
                  unfold Probe.Inside
                  dsimp only [St.header, headerSz]
                  omega
                · exact nomatch hx
      · rw [if_neg hr, if_neg hr]
        cases hmove : moveOut P a s (g.addr + 12) g.addr (realSize size) with
        | none => exact iff_of_true (fun _ hx => nomatch hx) fun _ _ h => nomatch h
        | some qt =>
            refine ⟨fun h q t heq => ?_, fun h => h qt.1 qt.2 rfl⟩
            rw [Option.some.inj heq] at h
            exact h

end Extend

/-! ## Which calls stay inside -/

/-- The heap is well formed, and the block lies between two segments of it. -/
def Between (t : St) (g : Seg) : Prop :=
  ∃ l₁ l₂, WellFormed t (l₁ ++ g :: l₂) ∧ Placed t ∧ l₁ ≠ [] ∧ l₂ ≠ []

/-- When `vmem_heap_realloc` stays inside the heap: a free needs two neighbours, also
the one after a move; the end may not wrap; and a block in front of a hole that gets up
to three bytes smaller must not lead astray. A hole that is too small is claimed, and
the condition is that of the second call. -/
def ProbesFit (P : Pages) (a : Nat) : Nat → St → List Seg → Seg → List Seg → Nat → Prop
  | 0, _, _, _, _, _ => True
  | k + 1, s, l₁, g, l₂, size =>
      if size = 0 then l₁ ≠ [] ∧ l₂ ≠ []
      else if g.size = realSize size then True
      else if g.size > realSize size then
        ∀ r l₃, l₂ = r :: l₃ → r.hole = true → LeadsInside s g r (realSize size)
      else match l₂ with
        | [] => ∀ t, expand P s (add32 (sub32 s.heap.stop s.heap.start) (realSize size)) = some t →
            s.heap.stop ≤ t.heap.stop
        | r :: l₃ =>
            if r.hole then ∀ t, extendHole s g.addr r.addr (realSize size) = some (t, true) →
              ProbesFit P a k t l₁ ⟨g.addr, g.size + r.size, false⟩ l₃ (realSize size)
            else ∀ q t, moveOut P a s (g.addr + 12) g.addr (realSize size) = some (q, t) → Between t g

section Fit

variable {P : Pages} {l₁ l₃ : List Seg} {g r : Seg}

/-- The state in which a hole that is too small has been claimed. -/
theorem extendHole_claims {s t : St} {n : Nat} (W : WellFormed s (l₁ ++ g :: r :: l₃)) (hP : Paged s)
    (hlive : g.hole = false) (hr : r.hole = true) (hn : g.size < n) (hlt : n < 2 ^ 32)
    (h : extendHole s g.addr r.addr n = some (t, true)) :
    WellFormed t (l₁ ++ ⟨g.addr, g.size + r.size, false⟩ :: l₃) ∧ Paged t
      ∧ hdrAlign t.mem g.addr = hdrAlign s.mem g.addr := by
  obtain ⟨s₁, U, heq⟩ := extendHole_eq W hP hr hn hlt
  rw [heq] at h
  split at h
  · obtain rfl := (Prod.mk.inj (Option.some.inj h)).1
    obtain ⟨W', hP'⟩ := claim_wellFormed W hP hlive hr U
    exact ⟨W', hP', claim_align W U⟩
  · split at h <;> exact nomatch (Prod.mk.inj (Option.some.inj h)).2

/-- After a move without an expansion the block is still between its neighbours. -/
theorem between_moved {s t : St} {n q : Nat} (W : WellFormed s (l₁ ++ g :: r :: l₃))
    (hP : Paged s) (hlive : g.hole = false) (hr : r.hole = false)
    (halign : hdrAlign s.mem g.addr = 0) (hn : g.size < n) (hlt : n < 2 ^ 32)
    (hmove : moveOut P 1 s (g.addr + 12) g.addr n = some (q, t))
    (hinside : ∀ x ∈ freeProbes t (g.addr + 12), x.Inside) : Between t g := by
  obtain ⟨l₁', l₃', k, M⟩ := moveOut_spec W hP.toPlaced hlive hr halign hn hlt hmove
  have hPt := M.placed hP.toPlaced
  exact ⟨l₁', r :: l₃', M.wellFormed, hPt, (freeProbes_iff M.wellFormed hPt hlive).mp hinside⟩

theorem probes_fit {a : Nat} : ∀ (k : Nat) {s : St} {l₁ l₂ : List Seg} {g : Seg} {size : Nat},
    WellFormed s (l₁ ++ g :: l₂) → Paged s → g.hole = false →
    (ProbesFit P a k s l₁ g l₂ size → ∀ x ∈ reallocProbes P a k s (g.addr + 12) size, x.Inside)
      ∧ (a = 1 → hdrAlign s.mem g.addr = 0 →
        (∀ x ∈ reallocProbes P a k s (g.addr + 12) size, x.Inside) →
        ProbesFit P a k s l₁ g l₂ size) := by
  intro k
  induction k with
  | zero => exact fun _ _ _ => ⟨fun _ _ hx => absurd hx List.not_mem_nil, fun _ _ _ => trivial⟩
  | succ k ih =>
      intro s l₁ l₂ g size W hP hlive
      rw [ProbesFit.eq_def]
      dsimp only
      by_cases hpos : size = 0
      · rw [if_pos hpos, reallocProbes, if_neg (Nat.succ_ne_zero _), if_pos hpos]
        have hiff := freeProbes_iff W hP.toPlaced hlive
        exact ⟨hiff.mpr, fun _ _ => hiff.mp⟩
      have hlt : realSize size < 2 ^ 32 := Nat.mod_lt _ (by decide)
      rw [if_neg hpos, reallocProbes_step W hP hlive hpos]
      by_cases heq : g.size = realSize size
      · rw [if_pos heq, if_pos heq]
        exact ⟨id, fun _ _ => id⟩
      rw [if_neg heq, if_neg heq]
      by_cases hgt : g.size > realSize size
      · rw [if_pos hgt, if_pos hgt]
        exact ⟨id, fun _ _ => id⟩
      rw [if_neg hgt, if_neg hgt]
      cases l₂ with
      | nil => exact ⟨id, fun _ _ => id⟩
      | cons r l₃ =>
          dsimp only
          by_cases hr : r.hole = true
          · rw [if_pos hr, if_pos hr]
            -- the second call is one on the block that has claimed the hole
            have hstep := fun t hextend =>
              extendHole_claims (t := t) W hP hlive hr (by omega) hlt hextend
            refine ⟨fun h t hextend => ?_, fun ha halign h t hextend => ?_⟩
            · obtain ⟨W', hP', -⟩ := hstep t hextend
              exact (@ih t l₁ l₃ ⟨g.addr, g.size + r.size, false⟩ _ W' hP' rfl).1 (h t hextend)
            · obtain ⟨W', hP', halign'⟩ := hstep t hextend
              exact (@ih t l₁ l₃ ⟨g.addr, g.size + r.size, false⟩ _ W' hP' rfl).2 ha
                (halign'.trans halign) (h t hextend)
          · rw [if_neg hr, if_neg hr]
            refine ⟨fun h q t hmove => ?_, fun ha halign h q t hmove => ?_⟩
            · obtain ⟨u₁, u₂, Wt, hPt, hne⟩ := h q t hmove
              exact (freeProbes_iff Wt hPt hlive).mpr hne
            · subst ha
              exact between_moved W hP hlive (Bool.eq_false_iff.mpr hr) halign (by omega) hlt hmove
                (h q t hmove)

end Fit

/-- One block over the whole heap. -/
def wholeRun : Run := (Run.run ⟨smallHeap, []⟩ [.alloc 8172]).get (by decide +kernel)

end Heap

end Shitos
