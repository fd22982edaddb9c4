import Shitos.StdioRead

/-!
# fgets

`fgets` stores the characters that `fgetc` returns, each with a zero byte
behind it, and stops at a newline or where the size it was given is used up.
The stream is any state that gives a byte, its end or a failure at each read,
and a FILE in non-blocking mode is one (`fread_one`).

The size is decremented before the loop, and tested for zero behind the
decrement for each character. So it is passed by if it was 1
(`fgets_respects_iff`).
-/

namespace Shitos

namespace Stdio

open StoreLog

/-- What a stream gives at a read of one byte. -/
inductive Got
  | byte (c : UInt8)
  | eof
  | err

/-- A FILE over a stream, with the flags that `fgetc` sets. -/
structure GFile (σ : Type*) where
  state : σ
  eof : Bool
  err : Bool

section

variable {σ : Type*} (read : σ → Got × σ)

/-! ## The functions -/

/-- `fgetc`. -/
def fgetc (f : GFile σ) : Int × GFile σ :=
  match read f.state with
  | (.byte c, σ') => (c.toNat, { f with state := σ' })
  | (.eof, σ') => (-1, { f with state := σ', eof := true })
  | (.err, σ') => (-1, { f with state := σ', err := true })

/-- The variables of `fgets`, with its stores. -/
structure Getting (σ : Type*) where
  file : GFile σ
  s : Nat
  sz : Int
  log : StoreLog

/-- A character is stored with a zero byte behind it. -/
def Getting.put (g : Getting σ) (c : Int) (f : GFile σ) : Getting σ where
  file := f
  s := g.s + 1
  sz := g.sz - 1
  log := g.log ++ [(g.s, UInt8.ofNat c.toNat), (g.s + 1, 0)]

/-- The loop of `fgets`, for at most `n` turns, and what is returned behind it.
There is no result where the loop goes on. -/
def fgetsLoop (r : Nat) : Nat → Getting σ → Option (Option Nat) × Getting σ
  | 0, g => (none, g)
  | n + 1, g =>
      match fgetc read g.file with
      | (c, f) =>
          if 0 < c then
            if (g.put c f).sz = 0 ∨ c = 10 then (some (some r), g.put c f)
            else fgetsLoop r n (g.put c f)
          else if c = -1 then
            (some (if r = g.s then none else some r), { g with file := { f with eof := true } })
          else (some none, { g with file := f })

/-- `fgets`. -/
def fgets (n : Nat) (s : Nat) (sz : Int) (f : GFile σ) : Option (Option Nat) × Getting σ :=
  if sz = 0 then (some (some s), ⟨f, s, sz - 1, []⟩)
  else fgetsLoop read s n ⟨f, s, sz - 1, []⟩

/-! ## Streams -/

/-- The stream gives the bytes `l`, and then has the state `σ'`. -/
def Delivered : σ → List UInt8 → σ → Prop
  | s, [], s' => s' = s
  | s, c :: l, s' => ∃ t, read s = (.byte c, t) ∧ Delivered t l s'

variable {read} {a b t : σ} {l : List UInt8} {c : UInt8}

theorem Delivered.snoc (h : Delivered read a l b) (hread : read b = (.byte c, t)) :
    Delivered read a (l ++ [c]) t := by
  induction l generalizing a with
  | nil =>
      obtain rfl : b = a := h
      exact ⟨t, hread, rfl⟩
  | cons d l ih =>
      obtain ⟨u, hu, hrest⟩ := h
      exact ⟨u, hu, ih hrest⟩

variable (read)

/-- What is at `s` when `fgets` has returned it: the next bytes of the stream, up
to a newline, the size or the end, and a zero byte. -/
def IsLine (m : Mem) (s sz : Nat) (a : σ) (g : Getting σ) : Prop :=
  ∃ l b, l.length + 1 ≤ sz ∧ Delivered read a l b
    ∧ bytes (after m g.log) s (l.length + 1) = l ++ [0]
    ∧ 10 ∉ l.dropLast
    ∧ ((10 ∈ l ∨ l.length + 1 = sz) ∧ g.file.state = b
      ∨ ((read b).1 = .eof ∨ (read b).1 = .err) ∧ g.file.state = (read b).2)

/-- `fgets` stores nothing outside its buffer, however long it runs, and what it
returns is a line. -/
def Respects (m : Mem) (s sz : Nat) (f : GFile σ) : Prop :=
  ∀ n, Within (fgets read n s sz f).2.log s (s + sz)
    ∧ ((fgets read n s sz f).1 = some (some s) →
        IsLine read m s sz f.state (fgets read n s sz f).2)

variable {read}

/-! ## Turns -/

variable {m : Mem} {s sz n : Nat} {f : GFile σ} {g : Getting σ}

theorem fgetc_byte (h : read f.state = (.byte c, t)) :
    fgetc read f = ((c.toNat : Int), { f with state := t }) := by
  simp [fgetc, h]

/-- At the end and after a failure. -/
theorem fgetc_end (h : (read f.state).1 = .eof ∨ (read f.state).1 = .err) :
    ∃ f', fgetc read f = (-1, f') ∧ f'.state = (read f.state).2 := by
  obtain ⟨got, t, hread⟩ : ∃ got t, read f.state = (got, t) := ⟨_, _, rfl⟩
  rw [hread] at h
  rcases h with rfl | rfl <;> simp [fgetc, hread]

/-- The state in front of a turn, with the bytes `l` in the buffer. -/
structure Filled (read : σ → Got × σ) (m : Mem) (s sz : Nat) (a : σ) (l : List UInt8)
    (g : Getting σ) : Prop where
  ptr : g.s = s + l.length
  left : g.sz + l.length + 1 = sz
  room : l.length + 1 < sz
  delivered : Delivered read a l g.file.state
  line : 10 ∉ l
  within : Within g.log s (s + sz)
  stored : l = [] ∧ g.log = [] ∨ after m g.log = after m (storeAt s (l ++ [0]))

theorem Filled.put (h : Filled read m s sz a l g) (c : UInt8) (f' : GFile σ) :
    Within (g.put c.toNat f').log s (s + sz)
      ∧ after m (g.put c.toNat f').log = after m (storeAt s (l ++ [c] ++ [0])) := by
  have hlog : (g.put c.toNat f').log = g.log ++ storeAt (s + l.length) [c, 0] := by
    simp [Getting.put, storeAt, h.ptr]
  rw [hlog]
  constructor
  · have hroom := h.room
    have hend : s + l.length + [c, 0].length ≤ s + sz := by
      simp only [List.length_cons, List.length_nil]
      omega
    exact within_append.mpr ⟨h.within, within_storeAt (Nat.le_add_right s _) hend⟩
  · rcases h.stored with ⟨rfl, hnil⟩ | hstored
    · rw [hnil]
      rfl
    · -- the character replaces the zero byte
      rw [after_append, hstored, storeAt_append, ← after_append, List.append_assoc, after_append,
        after_storeAt_over (by simp), ← after_append, ← storeAt_append, List.append_assoc]
      rfl

theorem fgetsLoop_respects (h : Filled read m s sz a l g) (n : Nat) :
    Within (fgetsLoop read s n g).2.log s (s + sz)
      ∧ ((fgetsLoop read s n g).1 = some (some s) →
          IsLine read m s sz a (fgetsLoop read s n g).2) := by
  induction n generalizing g l with
  | zero => exact ⟨h.within, fun hret => nomatch hret⟩
  | succ n ih =>
      have hptr := h.ptr
      have hleft := h.left
      have hroom := h.room
      obtain ⟨got, t, hread⟩ : ∃ got t, read g.file.state = (got, t) := ⟨_, _, rfl⟩
      by_cases hend : got = .eof ∨ got = .err
      · -- nothing more: what is there is returned, unless there is nothing
        have hend' : (read g.file.state).1 = .eof ∨ (read g.file.state).1 = .err := by
          rwa [hread]
        obtain ⟨f', hc, hstate⟩ := fgetc_end hend'
        simp only [fgetsLoop, hc]
        refine ⟨h.within, fun hret => ?_⟩
        rcases h.stored with ⟨rfl, -⟩ | hstored
        · rw [List.length_nil, Nat.add_zero] at hptr
          simp [hptr] at hret
        · refine ⟨l, g.file.state, by omega, h.delivered, ?_, ?_, Or.inr ⟨hend', hstate⟩⟩
          · have hlen : l.length + 1 = (l ++ [0]).length := by simp
            show bytes (after m g.log) s (l.length + 1) = l ++ [0]
            rw [hstored, hlen, bytes_after_storeAt]
          · exact fun hmem => h.line (List.dropLast_subset l hmem)
      · obtain ⟨c, rfl⟩ : ∃ c, got = .byte c := by
          cases got with
          | byte c => exact ⟨c, rfl⟩
          | eof => exact absurd (Or.inl rfl) hend
          | err => exact absurd (Or.inr rfl) hend
        simp only [fgetsLoop, fgetc_byte hread]
        by_cases hc : c = 0
        · -- a zero ends the loop as well, but not with a line
          rw [hc]
          exact ⟨h.within, fun hret => nomatch hret⟩
        have hpos := toNat_pos hc
        obtain ⟨hwithin, hstored⟩ := h.put c { g.file with state := t }
        have hdel := h.delivered.snoc hread
        have hlen : (l ++ [c]).length = l.length + 1 := by simp
        rw [if_pos hpos]
        split
        · rename_i hstop
          refine ⟨hwithin, fun _ => ⟨l ++ [c], t, by omega, hdel, ?_, ?_, Or.inl ⟨?_, rfl⟩⟩⟩
          · have hlen' : (l ++ [c]).length + 1 = (l ++ [c] ++ [0]).length := by simp
            rw [hstored, hlen', bytes_after_storeAt]
          · rw [List.dropLast_concat]
            exact h.line
          · rcases hstop with hsz | hnl
            · right
              simp only [Getting.put] at hsz
              omega
            · left
              have heq : c = 10 := UInt8.toNat.inj (by simpa using Int.ofNat.inj hnl)
              simp [heq]
        · rename_i hgo
          rw [not_or] at hgo
          have hnl : (10 : UInt8) ≠ c := by
            rintro rfl
            exact hgo.2 rfl
          refine ih (l := l ++ [c]) ⟨?_, ?_, ?_, hdel, ?_, hwithin, Or.inr hstored⟩
          · simp only [Getting.put]
            omega
          · simp only [Getting.put]
            omega
          · have hmore := hgo.1
            simp only [Getting.put] at hmore
            omega
          · simpa [hnl] using h.line

/-! ## Whole calls -/

theorem fgets_eq (hsz : sz ≠ 0) (n s : Nat) (f : GFile σ) :
    fgets read n s sz f = fgetsLoop read s n ⟨f, s, sz - 1, []⟩ := if_neg (by omega)

theorem respects_of_two (m : Mem) (s : Nat) (f : GFile σ) (hsz : 2 ≤ sz) :
    Respects read m s sz f := by
  intro n
  have hnew : Filled read m s sz f.state [] ⟨f, s, sz - 1, []⟩ := {
    ptr := rfl
    left := by
      show (sz : Int) - 1 + (0 : Nat) + 1 = sz
      omega
    room := by
      show 0 + 1 < sz
      omega
    delivered := rfl
    line := List.not_mem_nil
    within := within_nil
    stored := Or.inl ⟨rfl, rfl⟩ }
  rw [fgets_eq (by omega)]
  exact fgetsLoop_respects hnew n

/-- With a size of 1, all depends on whether there is a character. -/
theorem respects_one_iff (m : Mem) (s : Nat) (f : GFile σ) :
    Respects read m s 1 f ↔ ∀ c t, read f.state = (.byte c, t) → c = 0 := by
  have heq : ∀ n, fgets read n s (1 : Nat) f = fgetsLoop read s n ⟨f, s, 0, []⟩ := fun n =>
    fgets_eq (by decide) n s f
  constructor
  · intro h c t hread
    by_contra hc
    have hpos := toNat_pos hc
    have hwithin := (h 1).1
    -- the zero byte behind the first character is the store outside
    have hmem : (s + 1, 0) ∈ (fgets read 1 s (1 : Nat) f).2.log := by
      rw [heq, fgetsLoop, fgetc_byte hread]
      simp only [hpos, if_true, fgetsLoop]
      split <;> simp [Getting.put]
    exact Nat.lt_irrefl _ (hwithin (s + 1, 0) hmem).2
  · intro hnone n
    rw [heq]
    cases n with
    | zero => exact ⟨within_nil, fun hret => nomatch hret⟩
    | succ n =>
        obtain ⟨got, t, hread⟩ : ∃ got t, read f.state = (got, t) := ⟨_, _, rfl⟩
        by_cases hend : (read f.state).1 = .eof ∨ (read f.state).1 = .err
        · obtain ⟨f', hc, -⟩ := fgetc_end hend
          simp [fgetsLoop, hc]
        · rw [hread] at hend
          cases got with
          | byte c =>
              obtain rfl := hnone c t hread
              simp [fgetsLoop, fgetc_byte hread]
          | eof => exact absurd (Or.inl rfl) hend
          | err => exact absurd (Or.inr rfl) hend

theorem fgetsLoop_ends {r : Nat} (h : 0 < g.sz) (hn : g.sz ≤ n) :
    (fgetsLoop read r n g).1 ≠ none := by
  induction n generalizing g with
  | zero => omega
  | succ n ih =>
      obtain ⟨c, f', hc⟩ : ∃ c f', fgetc read g.file = (c, f') := ⟨_, _, rfl⟩
      simp only [fgetsLoop, hc]
      split
      · split
        · simp
        · rename_i hgo
          rw [not_or] at hgo
          have hmore := hgo.1
          simp only [Getting.put] at hmore
          refine ih ?_ ?_ <;> simp only [Getting.put] <;> omega
      · split <;> simp

/-- From a size of 2 on, `fgets` returns. -/
theorem fgets_ends (read : σ → Got × σ) (s : Nat) (f : GFile σ) (hsz : 2 ≤ sz) :
    (fgets read (sz - 1) s sz f).1 ≠ none := by
  rw [fgets_eq (by omega)]
  refine fgetsLoop_ends ?_ ?_
  · show (0 : Int) < (sz : Int) - 1
    omega
  · show (sz : Int) - 1 ≤ (sz - 1 : Nat)
    omega

/-- `fgets` respects its size unless that is 1 and there is a character to store. -/
theorem fgets_respects_iff (read : σ → Got × σ) (m : Mem) (s sz : Nat) (f : GFile σ)
    (hsz : 1 ≤ sz) :
    Respects read m s sz f ↔ 2 ≤ sz ∨ ∀ c t, read f.state = (.byte c, t) → c = 0 := by
  by_cases hone : sz = 1
  · obtain rfl := hone
    rw [respects_one_iff]
    simp
  · have htwo : 2 ≤ sz := by omega
    exact iff_of_true (respects_of_two m s f htwo) (Or.inl htwo)

end

/-- The stream of `'A'` for ever. -/
def allA (n : Nat) : Got × Nat := (.byte 65, n + 1)

theorem fgets_respects_iff_three :
    Respects allA (fun _ => 0) 0x1000 3 ⟨0, false, false⟩
      ↔ 2 ≤ 3 ∨ ∀ c t, allA 0 = (.byte c, t) → c = 0 :=
  fgets_respects_iff allA (fun _ => 0) 0x1000 3 ⟨0, false, false⟩ (by decide)

/-- `fgets(s, 1, f)` writes behind `s`. -/
theorem fgets_not_respects : ¬Respects allA (fun _ => 0) 0x1000 1 ⟨0, false, false⟩ := by
  intro h
  exact absurd ((respects_one_iff _ _ _).mp h 65 1 rfl) (by decide)

/-! ## FILEs -/

/-- A FILE in non-blocking mode as a stream, with the number of calls of
`syscall_read`. -/
def fileRead (k : Kernel) : RFile × Nat → Got × RFile × Nat
  | (f, calls) =>
      if 0 < f.ungetc then (.byte (UInt8.ofNat f.ungetc.toNat), { f with ungetc := -1 }, calls)
      else
        match k.reply calls 1 with
        | .error _ => (.err, { f with eof := true }, calls + 1)
        | .bytes [] => (.eof, { f with eof := true }, calls + 1)
        | .bytes (c :: _) => (.byte c, f, calls + 1)

/-- What `fread(&c, 1, 1, f)` returns, and what it stores. -/
def Got.Read (p : Nat) (s : Reading) : Got → Prop
  | .byte c => s.r = 1 ∧ s.log = [(p, c)]
  | .eof => s.r = 0 ∧ s.log = []
  | .err => s.r < 0 ∧ s.log = []

/-- The calls of `syscall_read` behind the first `n`. -/
def Kernel.drop (k : Kernel) (n : Nat) : Kernel where
  reply := fun i => k.reply (n + i)
  fits := fun i => k.fits (n + i)

/-- `fread` of one byte gives what the stream gives. -/
theorem fread_one (k : Kernel) (p : Nat) (f : RFile) (calls : Nat) (hb : f.block = false) :
    ∃ s, fread (k.drop calls) 2 p 1 1 (some f) = some (.done s)
      ∧ (fileRead k (f, calls)).1.Read p s
      ∧ (fileRead k (f, calls)).2 = (s.file, calls + s.calls) := by
  have hone : (Reading.start f p 1).sz ≠ 0 := Nat.one_ne_zero
  by_cases hc : 0 < f.ungetc
  · have hread : stdioRead (k.drop calls) 2 f p 1 = .done (readPushed (.start f p 1)) := by
      rw [stdioRead, loop_next (readTurn_pushed hone hc)]
      exact loop_stop (readTurn_end rfl) 0
    refine ⟨readPushed (.start f p 1), congrArg some hread, ?_, ?_⟩
    · simp [fileRead, hc, Got.Read, readPushed, Reading.start]
    · simp [fileRead, hc, readPushed, Reading.start]
  · refine ⟨readPart (k.drop calls) (.start f p 1),
      congrArg some (loop_stop (readTurn_once hone (Int.not_lt.mp hc) hb) 1), ?_⟩
    have hfits := k.fits calls 1
    cases hreply : k.reply calls 1 with
    | error e =>
        have hneg := Int.negSucc_lt_zero e
        have hle := Int.le_of_lt hneg
        simp [fileRead, hc, hreply, Got.Read, readPart, Reading.start, Kernel.drop, Reply.ret,
          Reply.data, storeAt, hneg, hle]
    | bytes l =>
        rw [hreply, Reply.data] at hfits
        cases l with
        | nil =>
            simp [fileRead, hc, hreply, Got.Read, readPart, Reading.start, Kernel.drop, Reply.ret,
              Reply.data, storeAt]
        | cons c l =>
            obtain rfl : l = [] := List.eq_nil_of_length_eq_zero (by simpa using hfits)
            simp [fileRead, hc, hreply, Got.Read, readPart, Reading.start, Kernel.drop, Reply.ret,
              Reply.data, storeAt]

end Stdio

end Shitos
