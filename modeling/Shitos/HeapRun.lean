import Shitos.HeapFree

/-!
# Runs of a heap

A heap together with the blocks it has handed out, and the runs its users
can put it through: allocations that some hole serves, frees of live blocks,
and stores that stay inside a block or off the heap. `Intact` is the
invariant of such runs, the well-formed heap and the blocks in it.

`ord_arr_insert` does not look at the size of the array it inserts into, so
one condition is left to the run (`SlotFree`): a block freed between two
allocated ones must find a free slot below `heap->start`.
-/

namespace Shitos

namespace Heap

inductive Op where
  | alloc (size : Nat)
  | free (p : Nat)
  | store (a : Nat) (v : UInt8)
deriving DecidableEq

/-- A heap and its live blocks, each a pointer with the size asked for. -/
structure Run where
  st : St
  live : List (Nat × Nat)

/-- One call, or one store by a user; `none` is a failed call. -/
def Run.exec (r : Run) : Op → Option Run
  | .alloc size => (allocServed r.st size 0).map fun x => ⟨x.2, (x.1, size) :: r.live⟩
  | .free p => (Heap.free r.st p).map fun s => ⟨s, r.live.filter fun b => b.1 ≠ p⟩
  | .store a v => some ⟨⟨fun x => if x = a then v else r.st.mem x, r.st.heap⟩, r.live⟩

def Run.run (r : Run) : List Op → Option Run
  | [] => some r
  | op :: ops => (r.exec op).bind fun r => r.run ops

/-- What a user may do: ask for what a hole can serve, free what is live,
and write inside a live block or outside the heap and its index. -/
def Enabled (r : Run) : Op → Prop
  | .alloc size => size + 20 < 2 ^ 32 ∧ holeFind r.st (size + 20) 0 ≠ none
  | .free p => p ∈ r.live.map Prod.fst
  | .store a _ => (∃ b ∈ r.live, b.1 ≤ a ∧ a < b.1 + b.2)
      ∨ a < r.st.heap.index.array ∨ r.st.heap.stop ≤ a

/-- A freed block that becomes one more hole finds a slot in the index. -/
def SlotFree (r : Run) : Op → Prop
  | .free p => AddsHole r.st p → Room r.st 1
  | .alloc _ => True
  | .store _ _ => True

/-- The words just below and just above the heap are no magic. -/
def NoTags (s : St) : Prop :=
  tagMagic s.mem (sub32 s.heap.start footerSz) ≠ magic ∧ tagMagic s.mem s.heap.stop ≠ magic

/-- Every step of the run is enabled and finds its slot. -/
def Allowed (r : Run) : List Op → Prop
  | [] => True
  | op :: ops => NoTags r.st ∧ Enabled r op ∧ SlotFree r op
      ∧ match r.exec op with
        | none => True
        | some r => Allowed r ops

instance (s : St) (n : Nat) : Decidable (Room s n) := inferInstanceAs (Decidable (_ ≤ _))

instance (s : St) : Decidable (NoTags s) := inferInstanceAs (Decidable (_ ∧ _))

instance (r : Run) (op : Op) : Decidable (Enabled r op) :=
  match op with
  | .alloc _ => inferInstanceAs (Decidable (_ ∧ _))
  | .free _ => inferInstanceAs (Decidable (_ ∈ _))
  | .store _ _ => inferInstanceAs (Decidable (_ ∨ _))

instance (r : Run) (op : Op) : Decidable (SlotFree r op) :=
  match op with
  | .alloc _ => inferInstanceAs (Decidable True)
  | .free _ => inferInstanceAs (Decidable (_ → _))
  | .store _ _ => inferInstanceAs (Decidable True)

/-- A run can be checked by executing it. -/
def decidableAllowed : ∀ (ops : List Op) (r : Run), Decidable (Allowed r ops)
  | [], _ => isTrue trivial
  | op :: ops, r =>
      have : Decidable (match r.exec op with
          | none => True
          | some r => Allowed r ops) :=
        match r.exec op with
        | none => isTrue trivial
        | some r => decidableAllowed ops r
      inferInstanceAs (Decidable (_ ∧ _ ∧ _ ∧ _))

instance (r : Run) (ops : List Op) : Decidable (Allowed r ops) := decidableAllowed ops r

/-- The well-formed heap with its blocks: every block is the payload of an
allocated segment, and every allocated segment is a block. -/
structure Intact (r : Run) (segs : List Seg) : Prop where
  wellFormed : WellFormed r.st segs
  room : Room r.st 0
  low : 8 ≤ r.st.heap.start
  stop : r.st.heap.stop < 2 ^ 32
  seg : ∀ b ∈ r.live, ∃ g ∈ liveSegs segs, b.1 = g.addr + 12 ∧ b.2 + 20 ≤ g.size
  block : ∀ g ∈ liveSegs segs, g.addr + 12 ∈ r.live.map Prod.fst
  nodup : (r.live.map Prod.fst).Nodup

/-! ## Blocks -/

/-- The payloads of an intact heap are inside it and do not overlap. -/
theorem Intact.payloads {r : Run} {segs : List Seg} (I : Intact r segs) :
    (∀ b ∈ r.live, r.st.heap.start ≤ b.1 ∧ b.1 + b.2 ≤ r.st.heap.stop)
      ∧ r.live.Pairwise fun b c => b.1 + b.2 ≤ c.1 ∨ c.1 + c.2 ≤ b.1 := by
  constructor
  · intro b hb
    obtain ⟨g, hg, haddr, hsize⟩ := I.seg b hb
    have hbounds := I.wellFormed.tiles.bounds (mem_liveSegs.mp hg).1
    omega
  · have hnd := I.nodup
    rw [List.Nodup, List.pairwise_map] at hnd
    refine hnd.imp_of_mem fun {b c} hb hc hne => ?_
    obtain ⟨g, hg, hgaddr, hgsize⟩ := I.seg b hb
    obtain ⟨k, hk, hkaddr, hksize⟩ := I.seg c hc
    have hgk : g ≠ k := fun h => hne (by rw [hgaddr, hkaddr, h])
    have hdisj := I.wellFormed.tiles.disjoint (mem_liveSegs.mp hg).1 (mem_liveSegs.mp hk).1 hgk
    omega

/-- The segment a live pointer belongs to. -/
theorem Intact.find {r : Run} {segs : List Seg} (I : Intact r segs) {p : Nat}
    (hp : p ∈ r.live.map Prod.fst) :
    ∃ l₁ g l₂, segs = l₁ ++ g :: l₂ ∧ g.hole = false ∧ p = g.addr + 12 := by
  obtain ⟨b, hb, rfl⟩ := List.mem_map.mp hp
  obtain ⟨g, hg, haddr, -⟩ := I.seg b hb
  obtain ⟨hmem, hlive⟩ := mem_liveSegs.mp hg
  obtain ⟨l₁, l₂, rfl⟩ := List.append_of_mem hmem
  exact ⟨l₁, g, l₂, rfl, hlive, haddr⟩

/-! ## One step -/

theorem Quiet.of_noTags {s : St} (h : NoTags s) (hlow : 8 ≤ s.heap.start) : Quiet s :=
  ⟨hlow, h.1, h.2⟩

theorem liveSegs_carve {g : Seg} {n : Nat} (hn : n ≤ g.size) :
    ∃ k, liveSegs (carve g n) = [k] ∧ k.addr = g.addr ∧ n ≤ k.size := by
  unfold carve
  split
  · exact ⟨_, rfl, rfl, hn⟩
  · exact ⟨_, rfl, rfl, Nat.le_refl _⟩

theorem Intact.alloc {r : Run} {segs : List Seg} (I : Intact r segs) {size : Nat}
    (h : Enabled r (.alloc size)) :
    ∃ r' segs', r.exec (.alloc size) = some r' ∧ Intact r' segs' := by
  obtain ⟨hsize, hfind⟩ := h
  obtain ⟨i, hi⟩ := Option.ne_none_iff_exists'.mp hfind
  obtain ⟨l₁, g, l₂, s', rfl, hhole, hfit, halloc, hC⟩ :=
    allocHole_spec I.wellFormed I.room I.stop (by omega) hi
  obtain ⟨k, hk, haddr, hle⟩ := liveSegs_carve hfit
  have hreal : realSize size = size + 20 := Nat.mod_eq_of_lt hsize
  have hold : liveSegs (l₁ ++ g :: l₂) = liveSegs l₁ ++ liveSegs l₂ := by
    rw [liveSegs_append, liveSegs_cons, if_pos hhole]
  have hnew : liveSegs (l₁ ++ (carve g (size + 20) ++ l₂))
      = liveSegs l₁ ++ k :: liveSegs l₂ := by
    rw [liveSegs_append, liveSegs_append, hk, List.singleton_append]
  have hmono : ∀ x ∈ liveSegs (l₁ ++ g :: l₂),
      x ∈ liveSegs (l₁ ++ (carve g (size + 20) ++ l₂)) := by
    rw [hold, hnew]
    intro x hx
    rcases List.mem_append.mp hx with hx | hx
    · exact List.mem_append_left _ hx
    · exact List.mem_append_right _ (List.mem_cons_of_mem _ hx)
  have hfresh : g.addr + 12 ∉ r.live.map Prod.fst := by
    intro hmem
    obtain ⟨b, hb, hb1⟩ := List.mem_map.mp hmem
    obtain ⟨x, hx, hxaddr, -⟩ := I.seg b hb
    obtain ⟨hxmem, hxlive⟩ := mem_liveSegs.mp hx
    have heq := I.wellFormed.tiles.eq_of_addr hxmem
      (List.mem_append_right l₁ List.mem_cons_self) (by omega)
    rw [heq, hhole] at hxlive
    cases hxlive
  refine ⟨⟨s', (g.addr + 12, size) :: r.live⟩, _, ?_, hC.wellFormed, ?_,
    by rw [hC.same.start]; exact I.low, by rw [hC.same.stop]; exact I.stop, ?_, ?_, ?_⟩
  · rw [Run.exec, allocServed, hreal, hi, Option.bind_eq_bind, Option.bind_some, halloc,
      Option.map_some]
  · have hroom := I.room
    have hsz := hC.size_le
    unfold Room at hroom ⊢
    simp only
    rw [hC.same.array, hC.same.start]
    omega
  · intro b hb
    rcases List.mem_cons.mp hb with rfl | hb
    · exact ⟨k, by rw [hnew]; exact List.mem_append_right _ List.mem_cons_self, by rw [haddr], hle⟩
    · obtain ⟨x, hx, hxb⟩ := I.seg b hb
      exact ⟨x, hmono x hx, hxb⟩
  · intro x hx
    rw [hnew] at hx
    rw [List.map_cons]
    rcases List.mem_append.mp hx with hx | hx
    · refine List.mem_cons_of_mem _ (I.block x ?_)
      rw [hold]
      exact List.mem_append_left _ hx
    · rcases List.mem_cons.mp hx with rfl | hx
      · rw [haddr]; exact List.mem_cons_self
      · refine List.mem_cons_of_mem _ (I.block x ?_)
        rw [hold]
        exact List.mem_append_right _ hx
  · rw [List.map_cons, List.nodup_cons]
    exact ⟨hfresh, I.nodup⟩

theorem Intact.free {r : Run} {segs : List Seg} (I : Intact r segs) {p : Nat}
    (h : Enabled r (.free p)) (hq : NoTags r.st) (hslot : SlotFree r (.free p)) :
    ∃ r' segs', r.exec (.free p) = some r' ∧ Intact r' segs' := by
  obtain ⟨l₁, g, l₂, rfl, hlive, rfl⟩ := I.find h
  obtain ⟨s', l₁', g', l₂', hfree, hF⟩ := free_spec I.wellFormed I.room I.stop
    (Quiet.of_noTags hq I.low) hlive hslot
  have hmemg : g ∈ l₁ ++ g :: l₂ := List.mem_append_right _ List.mem_cons_self
  have hold : liveSegs (l₁ ++ g :: l₂) = liveSegs l₁ ++ g :: liveSegs l₂ := by
    rw [liveSegs_append, liveSegs_cons, if_neg (by rw [hlive]; decide)]
  have hnew : liveSegs (l₁' ++ g' :: l₂') = liveSegs l₁ ++ liveSegs l₂ := by
    rw [liveSegs_append, liveSegs_cons, if_pos hF.hole, hF.left, hF.right]
  have hmem : ∀ x, x ∈ liveSegs (l₁' ++ g' :: l₂') ↔
      x ∈ liveSegs (l₁ ++ g :: l₂) ∧ x.addr ≠ g.addr := by
    intro x
    have hnd := I.wellFormed.tiles.nodup_addr
    rw [List.map_append, List.map_cons, List.nodup_append, List.nodup_cons] at hnd
    obtain ⟨-, ⟨hg₂, -⟩, hg₁⟩ := hnd
    rw [hnew, hold, List.mem_append, List.mem_append, List.mem_cons]
    constructor
    · rintro (hx | hx)
      · refine ⟨Or.inl hx, ?_⟩
        exact hg₁ _ (List.mem_map_of_mem (mem_liveSegs.mp hx).1) _ List.mem_cons_self
      · refine ⟨Or.inr (Or.inr hx), fun heq => hg₂ ?_⟩
        rw [← heq]
        exact List.mem_map_of_mem (mem_liveSegs.mp hx).1
    · rintro ⟨hx | rfl | hx, hne⟩
      · exact Or.inl hx
      · exact absurd rfl hne
      · exact Or.inr hx
  have hkeep : ∀ b, b ∈ r.live.filter (fun b => b.1 ≠ g.addr + 12)
      ↔ b ∈ r.live ∧ b.1 ≠ g.addr + 12 := by
    intro b
    rw [List.mem_filter, decide_eq_true_eq]
  refine ⟨⟨s', r.live.filter fun b => b.1 ≠ g.addr + 12⟩, _, ?_, hF.wellFormed, hF.room,
    by rw [hF.same.start]; exact I.low, by rw [hF.same.stop]; exact I.stop, ?_, ?_, ?_⟩
  · rw [Run.exec, hfree, Option.map_some]
  · intro b hb
    obtain ⟨hb, hne⟩ := (hkeep b).mp hb
    obtain ⟨x, hx, haddr, hsize⟩ := I.seg b hb
    exact ⟨x, (hmem x).mpr ⟨hx, by omega⟩, haddr, hsize⟩
  · intro x hx
    obtain ⟨hx, hne⟩ := (hmem x).mp hx
    obtain ⟨b, hb, hbx⟩ := List.mem_map.mp (I.block x hx)
    exact List.mem_map.mpr ⟨b, (hkeep b).mpr ⟨hb, by omega⟩, hbx⟩
  · exact I.nodup.sublist (List.filter_sublist.map _)

/-- A store that is enabled is off the heap or inside a payload. -/
theorem Intact.store_off {r : Run} {segs : List Seg} (I : Intact r segs) {a : Nat} {v : UInt8}
    (h : Enabled r (.store a v)) : (∃ g ∈ segs, g.addr + 12 ≤ a ∧ a + 8 < g.addr + g.size)
      ∨ a < r.st.heap.index.array ∨ r.st.heap.stop ≤ a := by
  rcases h with ⟨b, hb, h1, h2⟩ | h
  · obtain ⟨g, hg, haddr, hsize⟩ := I.seg b hb
    exact Or.inl ⟨g, (mem_liveSegs.mp hg).1, by omega, by omega⟩
  · exact Or.inr h

/-- The memory after a store. -/
def storeMem (m : Mem) (a : Nat) (v : UInt8) : Mem := fun x => if x = a then v else m x

theorem Intact.store_tagged {r : Run} {segs : List Seg} (I : Intact r segs) {a : Nat} {v : UInt8}
    (h : Enabled r (.store a v)) : ∀ g ∈ segs, Tagged (storeMem r.st.mem a v) g := by
  have hroom := I.room
  unfold Room at hroom
  intro g hg
  have htag := I.wellFormed.tagged g hg
  have g20 := I.wellFormed.min g hg
  have hb := I.wellFormed.tiles.bounds hg
  have hoff : a < g.addr ∨ g.addr + 12 ≤ a ∧ a + 8 < g.addr + g.size
      ∨ g.addr + g.size ≤ a := by
    rcases I.store_off h with ⟨k, hk, h1, h2⟩ | h
    · rcases Decidable.em (k = g) with rfl | hne
      · exact Or.inr (Or.inl ⟨h1, h2⟩)
      · have hd := I.wellFormed.tiles.disjoint hk hg hne
        omega
    · omega
  exact htag.congr_tags (fun x hx => if_neg (by omega)) g20

theorem Intact.store_holes {r : Run} {segs : List Seg} (I : Intact r segs) {a : Nat} {v : UInt8}
    (h : Enabled r (.store a v)) : St.holes ⟨storeMem r.st.mem a v, r.st.heap⟩ = r.st.holes := by
  have hroom := I.room
  unfold Room at hroom
  refine OrdArr.elems_congr fun x h1 h2 => if_neg ?_
  simp only at h1 h2
  rcases I.store_off h with ⟨g, hg, h3, h4⟩ | h
  · have hb := I.wellFormed.tiles.bounds hg
    omega
  · have hle := I.wellFormed.tiles.le
    omega

/-- A store inside a payload or off the heap changes no tag and no index slot. -/
theorem Intact.store {r : Run} {segs : List Seg} (I : Intact r segs) {a : Nat} {v : UInt8}
    (h : Enabled r (.store a v)) :
    ∃ r' segs', r.exec (.store a v) = some r' ∧ Intact r' segs' := by
  refine ⟨⟨⟨storeMem r.st.mem a v, r.st.heap⟩, r.live⟩, segs, rfl,
    ⟨⟨I.wellFormed.tiles, I.wellFormed.min, I.store_tagged h⟩, I.wellFormed.apart, ?_⟩, I.room,
    I.low, I.stop, I.seg, I.block, I.nodup⟩
  rw [I.store_holes h]
  exact I.wellFormed.listed

theorem Intact.step {r : Run} {segs : List Seg} (I : Intact r segs) {op : Op}
    (hq : NoTags r.st) (h : Enabled r op) (hslot : SlotFree r op) :
    ∃ r' segs', r.exec op = some r' ∧ Intact r' segs' := by
  cases op with
  | alloc size => exact I.alloc h
  | free p => exact I.free h hq hslot
  | store a v => exact I.store h

theorem Intact.run {ops : List Op} : ∀ {r : Run} {segs : List Seg}, Intact r segs →
    Allowed r ops → ∃ r' segs', r.run ops = some r' ∧ Intact r' segs' := by
  induction ops with
  | nil => intro r segs I _; exact ⟨r, segs, rfl, I⟩
  | cons op ops ih =>
      intro r segs I ha
      obtain ⟨hq, hen, hslot, hrest⟩ := ha
      obtain ⟨r₁, segs₁, hexec, I₁⟩ := I.step hq hen hslot
      rw [hexec] at hrest
      obtain ⟨r₂, segs₂, hrun, I₂⟩ := ih I₁ hrest
      exact ⟨r₂, segs₂, by rw [Run.run, hexec, Option.bind_some, hrun], I₂⟩

/-! ## Creation -/

theorem pageUp_mod (x : Nat) : pageUp x % 4096 = 0 := by unfold pageUp; omega

/-- A new heap is one hole, if its index has a slot for it. -/
theorem create_spec {m : Mem} {start stop max indexSz : Nat} {kernel : Bool} {s : St}
    (h : create m start stop max indexSz kernel = some s) (hslot : 0 < indexSz)
    (hwrap : start + 4 * indexSz ≤ s.heap.start) (hroom : s.heap.start + 20 ≤ stop)
    (hstop : stop < 2 ^ 32) :
    Intact ⟨s, []⟩ [⟨s.heap.start, stop - s.heap.start, true⟩] := by
  have halign : start % 4096 = 0 ∧ stop % 4096 = 0 := by
    by_contra hno
    rw [create, if_neg hno] at h
    cases h
  obtain ⟨first, hfirst⟩ : ∃ x, x = pageUp ((start + 4 * indexSz) % 2 ^ 32) := ⟨_, rfl⟩
  have hmod : first % 4096 = 0 := by rw [hfirst]; exact pageUp_mod _
  obtain ⟨s₀, hs₀⟩ : ∃ s₀ : St, s₀ = ⟨putFooter (putHeader (fill m start 0 (indexSz * 4)) first
    (sub32 stop first) 1 0) (sub32 stop footerSz) first,
    ⟨⟨start, 0, indexSz⟩, first, stop, max, kernel⟩⟩ := ⟨_, rfl⟩
  have hs : s = s₀.insert first := by
    rw [create, if_pos halign] at h
    simp only [OrdArr.place, ← hfirst] at h
    rw [hs₀, ← Option.some.inj h]
  have hsame : SameHeap s₀ s := by rw [hs]; exact insert_same _ _
  have hstart : s.heap.start = first := by rw [hsame.start, hs₀]
  have hend : s.heap.stop = stop := by rw [hsame.stop, hs₀]
  rw [hstart] at hwrap hroom ⊢
  have hroom₀ : Room s₀ 1 := by
    rw [hs₀, Room]
    simp only
    omega
  have hroom₁ : Room s 0 := by
    unfold Room at hroom₀ ⊢
    rw [hsame.array, hsame.start, hs, insert_index_size]
    omega
  have htag : Tagged s.mem ⟨first, stop - first, true⟩ := by
    have hput := @tagged_put (fill m start 0 (indexSz * 4)) first (stop - first) 0 true
      (by omega) (by omega) (by omega)
    have hmem : s₀.mem = putFooter (putHeader (fill m start 0 (indexSz * 4)) first
        (stop - first) true.toNat 0) (first + (stop - first) - 8) first := by
      rw [hs₀, sub32_of_le (by omega), footerSz, sub32_of_le (by omega),
        show first + (stop - first) - 8 = stop - 8 by omega]
      rfl
    rw [← hmem] at hput
    refine hput.congr (by simp only; omega) fun x h1 _ => ?_
    rw [hs]
    exact insert_mem hroom₀ (by rw [hs₀]; exact h1)
  have hholes : s.holes.Perm [first] := by
    rw [hs]
    refine (insert_holes (by omega)).trans ?_
    rw [hs₀]
    exact List.Perm.refl _
  refine ⟨⟨⟨?_, ?_, ?_⟩, List.isChain_singleton _, hholes⟩, hroom₁, by simp only; omega,
    by simp only; omega, ?_, ?_, List.nodup_nil⟩
  · rw [hstart, hend]
    refine ⟨rfl, by simp only; omega, ?_⟩
    simp only [Tiles]
    omega
  · intro g hg
    rw [List.mem_singleton.mp hg]
    simp only
    omega
  · intro g hg
    rw [List.mem_singleton.mp hg]
    exact htag
  · intro b hb
    cases hb
  · intro g hg
    cases hg

/-! ## Every run -/

/-- From creation on, in every run whose steps all find their slot, no call
fails, the heap stays well formed, and the live blocks are disjoint payloads
of at least the size asked for. -/
theorem run_wellFormed {m : Mem} {start stop max indexSz : Nat} {kernel : Bool} {s : St}
    {ops : List Op} (hcreate : create m start stop max indexSz kernel = some s)
    (hslot : 0 < indexSz) (hwrap : start + 4 * indexSz ≤ s.heap.start)
    (hroom : s.heap.start + 20 ≤ stop) (hstop : stop < 2 ^ 32) (hops : Allowed ⟨s, []⟩ ops) :
    ∃ r segs, Run.run ⟨s, []⟩ ops = some r ∧ WellFormed r.st segs
      ∧ (∀ b ∈ r.live, r.st.heap.start ≤ b.1 ∧ b.1 + b.2 ≤ r.st.heap.stop)
      ∧ (r.live.Pairwise fun b c => b.1 + b.2 ≤ c.1 ∨ c.1 + c.2 ≤ b.1)
      ∧ ∀ b ∈ r.live, ∃ g ∈ segs, g.hole = false ∧ b.1 = g.addr + 12 ∧ b.2 + 20 ≤ g.size := by
  have I₀ := create_spec hcreate hslot hwrap hroom hstop
  obtain ⟨r, segs, hrun, I⟩ := I₀.run hops
  obtain ⟨hin, hdisj⟩ := I.payloads
  refine ⟨r, segs, hrun, I.wellFormed, hin, hdisj, fun b hb => ?_⟩
  obtain ⟨g, hg, haddr, hsize⟩ := I.seg b hb
  obtain ⟨hmem, hlive⟩ := mem_liveSegs.mp hg
  exact ⟨g, hmem, hlive, haddr, hsize⟩

/-- A heap of two pages with a one-page index below it. -/
def smallHeap : St := (create (fun _ => 0) 0x1000 0x4000 0x4000 1 false).get rfl

/-- Three blocks, freed so that the second one is joined on both sides. -/
def smallOps : List Op :=
  [.alloc 8, .alloc 16, .alloc 1, .store 0x200c 7, .free 0x200c, .free 0x204c, .free 0x2028]

theorem run_wellFormed_small : Allowed ⟨smallHeap, []⟩ smallOps
    ∧ ∃ r segs, Run.run ⟨smallHeap, []⟩ smallOps = some r ∧ WellFormed r.st segs
      ∧ (∀ b ∈ r.live, r.st.heap.start ≤ b.1 ∧ b.1 + b.2 ≤ r.st.heap.stop)
      ∧ (r.live.Pairwise fun b c => b.1 + b.2 ≤ c.1 ∨ c.1 + c.2 ≤ b.1)
      ∧ ∀ b ∈ r.live, ∃ g ∈ segs, g.hole = false ∧ b.1 = g.addr + 12 ∧ b.2 + 20 ≤ g.size := by
  have hallowed : Allowed ⟨smallHeap, []⟩ smallOps := by decide +kernel
  have hcreate : create (fun _ => 0) 0x1000 0x4000 0x4000 1 false = some smallHeap := rfl
  exact ⟨hallowed, run_wellFormed hcreate (by decide) (by decide) (by decide) (by decide)
    hallowed⟩

/-- Without a slot for it, the first hole's index entry lands on the hole's
own header: a heap made with an empty index is broken from the start. -/
theorem create_breaks_without_slot : ∃ s,
    create (fun _ => 0) 0x1000 0x2000 0x2000 0 false = some s
      ∧ s.heap.start + 20 ≤ s.heap.stop ∧ ∀ segs, ¬WellFormed s segs := by
  refine ⟨_, rfl, by decide, fun segs W => ?_⟩
  cases segs with
  | nil => exact absurd (show (0x1000 : Nat) = 0x2000 from W.tiles) (by decide)
  | cons g segs =>
      have htag := (W.tagged g List.mem_cons_self).magic
      rw [W.tiles.1] at htag
      revert htag
      decide +kernel

end Heap

end Shitos
