import Shitos.Elf

/-!
# The stack of a new program

The end of `elf_exec` maps the stack and pushes the program's arguments and
environment: their strings, byte by byte from the terminator down, then the two
arrays of pointers to them, from their zeros down, and `argc` last. Each push
lowers the stack pointer, aligns it to what is pushed and stores there; so what
has been pushed lies above the pointer, and later pushes leave it alone
(`Pushed`). The regions come out one below the other (`Stacked`).

Nothing checks that the stack is large enough. What needs its room is the
strings, the arrays and the word for `argc` (`stackRoom`).
-/

namespace Shitos

namespace Elf

open AddrSpace

/-! ## `PUSH` and `PUSHSTR` -/

/-- A C string, without its terminator. -/
structure CStr where
  chars : List UInt8
  clean : ∀ b ∈ chars, b ≠ 0

/-- `strlen`. -/
def CStr.strlen (s : CStr) : Nat := s.chars.length

/-- The bytes of a string in memory. -/
def CStr.bytes (s : CStr) : List UInt8 := s.chars ++ [0]

/-- `while(stack & (sizeof(type)-1)) stack--`. -/
def alignLoop (sz : Nat) : Nat → Nat
  | 0 => 0
  | stack + 1 => if (stack + 1) &&& (sz - 1) ≠ 0 then alignLoop sz stack else stack + 1

/-- `PUSH`, of a value with the given bytes. -/
def push (arg : List UInt8) (stack : Nat) : Prog As Nat := do
  let stack := alignLoop arg.length (sub32 stack arg.length)
  store stack arg
  pure stack

/-- The loop of `PUSHSTR`, at `l`. -/
def pushStrLoop (s : CStr) : Nat → Nat → Prog As Nat
  | 0, stack => push [s.bytes.getD 0 0] stack
  | l + 1, stack => do
      let stack ← push [s.bytes.getD (l + 1) 0] stack
      pushStrLoop s l stack

/-- `PUSHSTR`. -/
def pushStr (s : CStr) (stack : Nat) : Prog As Nat := pushStrLoop s s.strlen stack

/-- The loop that pushes strings and notes where they are, and the stack pointer
behind it. -/
def pushStrs : List CStr → Nat → Prog As (List Nat × Nat)
  | [], stack => pure ([], stack)
  | s :: l, stack => do
      let stack ← pushStr s stack
      let (ptrs, top) ← pushStrs l stack
      pure (stack :: ptrs, top)

/-- The loop that pushes pointers, the last one first. -/
def pushPtrs (ptrs : List Nat) : Nat → Nat → Prog As Nat
  | 0, stack => pure stack
  | i + 1, stack => do
      let stack ← push (le32 (ptrs.getD i 0)) stack
      pushPtrs ptrs i stack

/-- An array: its zero, and its pointers. -/
def pushArray (ptrs : List Nat) (stack : Nat) : Prog As Nat := do
  let stack ← push (le32 0) stack
  pushPtrs ptrs ptrs.length stack

/-- The arguments of `arch_enter_user`, without the entry point. -/
structure Entry where
  argc : Nat
  argv : Nat
  envc : Nat
  envp : Nat
  stack : Nat

/-- The pushes of `elf_exec`. -/
def pushArgs (argv envp : List CStr) : Prog As Entry := do
  let (argvPtrs, stack) ← pushStrs argv 0x80000000
  let (envpPtrs, stack) ← pushStrs envp stack
  let envpAt ← pushArray envpPtrs stack
  let argvAt ← pushArray argvPtrs envpAt
  let stack ← push (le32 argv.length) argvAt
  pure { argc := argv.length, argv := argvAt, envc := envp.length, envp := envpAt, stack }

/-- `elf_exec`, from the stack on. -/
def setUpStack (turns : Nat) (argv envp : List CStr) : Prog As Entry := do
  mapLoop 0x80000000 turns userStack
  pushArgs argv envp

/-- `elf_exec` to the point where it enters user mode. -/
def elfEnter (turns : Nat) (file : File) (argv envp : List CStr) : Prog As (Option Entry) := do
  let loaded ← elfExec turns file
  match loaded with
  | none => pure none
  | some _ => do
      let entry ← setUpStack turns argv envp
      pure (some entry)

/-! ## What is on the stack -/

/-- The string is at `p`, with its terminator. -/
def CStrAt (t : As) (p : Nat) (s : CStr) : Prop :=
  ∀ i < s.bytes.length, byteAt t (p + i) = s.bytes[i]?

/-- The word is at `a`. -/
def WordAt (t : As) (a w : Nat) : Prop := ∀ i < 4, byteAt t (a + i) = (le32 w)[i]?

/-- The words are at `a` and behind. -/
def WordsAt (t : As) (a : Nat) (ws : List Nat) : Prop :=
  ∀ i w, ws[i]? = some w → WordAt t (a + 4 * i) w

/-- Regions, each an address and a length, one below the other between `hi` and `lo`. -/
def Stacked : Nat → List (Nat × Nat) → Nat → Prop
  | hi, [], lo => lo ≤ hi
  | hi, r :: l, lo => r.1 + r.2 ≤ hi ∧ Stacked r.1 l lo

/-- The regions of strings. -/
def strRegions (ptrs : List Nat) (l : List CStr) : List (Nat × Nat) :=
  ptrs.zip (l.map fun s => s.bytes.length)

/-- The bytes that strings need. -/
def strRoom (l : List CStr) : Nat := (l.map fun s => s.bytes.length).sum

/-- The bytes of an array for strings. -/
def arrayRoom (l : List CStr) : Nat := 4 * (l.length + 1)

/-- Disjoint regions. -/
def Apart (r r' : Nat × Nat) : Prop := r.1 + r.2 ≤ r'.1 ∨ r'.1 + r'.2 ≤ r.1

theorem Stacked.le {hi lo : Nat} {l : List (Nat × Nat)} (h : Stacked hi l lo) : lo ≤ hi := by
  induction l generalizing hi with
  | nil => exact h
  | cons r l ih =>
      have hrest := ih h.2
      have hfirst := h.1
      omega

theorem Stacked.append {hi mid lo : Nat} {l l' : List (Nat × Nat)} (h : Stacked hi l mid)
    (h' : Stacked mid l' lo) : Stacked hi (l ++ l') lo := by
  induction l generalizing hi with
  | nil =>
      cases l' with
      | nil => exact Nat.le_trans h' h
      | cons r l' => exact ⟨Nat.le_trans h'.1 h, h'.2⟩
  | cons r l ih => exact ⟨h.1, ih h.2⟩

theorem Stacked.inside {hi lo : Nat} {l : List (Nat × Nat)} (h : Stacked hi l lo) :
    ∀ r ∈ l, lo ≤ r.1 ∧ r.1 + r.2 ≤ hi := by
  induction l generalizing hi with
  | nil => exact fun r hmem => absurd hmem List.not_mem_nil
  | cons r l ih =>
      have hle := h.2.le
      intro r' hmem
      rcases List.mem_cons.mp hmem with rfl | hmem
      · exact ⟨hle, h.1⟩
      · obtain ⟨hlo, hhi⟩ := ih h.2 r' hmem
        have hfirst := h.1
        omega

theorem Stacked.apart {hi lo : Nat} {l : List (Nat × Nat)} (h : Stacked hi l lo) :
    l.Pairwise Apart := by
  induction l generalizing hi with
  | nil => exact List.Pairwise.nil
  | cons r l ih =>
      exact List.pairwise_cons.mpr ⟨fun r' hmem => Or.inr (h.2.inside r' hmem).2, ih h.2⟩

/-! ## One push -/

/-- The stack is mapped. -/
def Ready (s : As) : Prop := ∀ a, userStack ≤ a → a < 0x80000000 → Present s (a / 4096)

/-- What pushes do that lower the stack pointer: the bytes above it stay. -/
structure Pushed (s t : As) (stack stack' : Nat) : Prop where
  same : SamePages s t
  le : stack' ≤ stack
  keep : ∀ a, stack ≤ a → a < kernelBase → byteAt t a = byteAt s a

theorem Pushed.refl (s : As) (stack : Nat) : Pushed s s stack stack :=
  ⟨SamePages.refl s, Nat.le_refl _, fun _ _ _ => rfl⟩

theorem Pushed.trans {s t u : As} {a b c : Nat} (h : Pushed s t a b) (h' : Pushed t u b c) :
    Pushed s u a c :=
  ⟨h.same.trans h'.same, Nat.le_trans h'.le h.le, fun x hx hx' => by
    rw [h'.keep x (Nat.le_trans h.le hx) hx', h.keep x hx hx']⟩

theorem Pushed.ready {s t : As} {a b : Nat} (h : Pushed s t a b) (hs : Ready s) : Ready t :=
  fun x hlo hhi => (h.same.present _).mpr (hs x hlo hhi)

theorem CStrAt.keep {s t : As} {a b p : Nat} {c : CStr} (h : CStrAt s p c)
    (hpushed : Pushed s t a b) (hlo : a ≤ p) (hhi : p + c.bytes.length ≤ kernelBase) :
    CStrAt t p c := fun i hi => by
  rw [hpushed.keep _ (by omega) (by omega)]
  exact h i hi

theorem WordAt.keep {s t : As} {a b p w : Nat} (h : WordAt s p w) (hpushed : Pushed s t a b)
    (hlo : a ≤ p) (hhi : p + 4 ≤ kernelBase) : WordAt t p w := fun i hi => by
  rw [hpushed.keep _ (by omega) (by omega)]
  exact h i hi

theorem WordsAt.keep {s t : As} {a b p : Nat} {ws : List Nat} (h : WordsAt s p ws)
    (hpushed : Pushed s t a b) (hlo : a ≤ p) (hhi : p + 4 * ws.length ≤ kernelBase) :
    WordsAt t p ws := fun i w hw => by
  obtain ⟨hi, -⟩ := List.getElem?_eq_some_iff.mp hw
  exact (h i w hw).keep hpushed (by omega) (by omega)

theorem alignLoop_one (stack : Nat) : alignLoop 1 stack = stack := by
  cases stack with
  | zero => rfl
  | succ stack => rw [alignLoop, Nat.sub_self, Nat.and_zero, if_neg (fun h => h rfl)]

theorem alignLoop_four (stack : Nat) : alignLoop 4 stack = stack / 4 * 4 := by
  induction stack with
  | zero => rfl
  | succ stack ih =>
      have hand : (stack + 1) &&& (4 - 1) = (stack + 1) % 4 :=
        Nat.and_two_pow_sub_one_eq_mod (stack + 1) 2
      rw [alignLoop, hand, ih]
      split_ifs with hmod <;> omega

section Push

variable {s : As} {stack : Nat}

theorem push_done {arg : List UInt8} {p : Nat} (hgood : Good s) (hready : Ready s)
    (halign : alignLoop arg.length (sub32 stack arg.length) = p) (hlo : userStack ≤ p)
    (hle : p + arg.length ≤ stack) (hhigh : stack ≤ 0x80000000) :
    ∃ t, push arg stack s = .done p t ∧ Pushed s t stack p
      ∧ ∀ i < arg.length, byteAt t (p + i) = arg[i]? := by
  have hkernel : p + arg.length ≤ kernelBase := by unfold kernelBase; omega
  obtain ⟨t, hstore, -⟩ := store_returns hkernel fun i hi =>
    hready (p + i) (by omega) (by omega)
  obtain ⟨hsame, hbytes, hother⟩ := store_done hgood hkernel hstore
  refine ⟨t, ?_, ⟨hsame, by omega, fun a ha ha' => hother a ha' (Or.inr (by omega))⟩, hbytes⟩
  rw [← halign] at hstore ⊢
  exact Prog.bind_eq_done.mpr ⟨(), t, hstore, Prog.pure_eq_done.mpr ⟨rfl, rfl⟩⟩

/-- A push to a page that is not there faults. -/
theorem push_word_faults {w r : Nat} {t : As} (hlo : 4 ≤ stack)
    (h : ¬ Present s ((stack - 4) / 4 * 4 / 4096)) : push (le32 w) stack s ≠ .done r t := by
  intro hpush
  have halign : alignLoop (le32 w).length (sub32 stack (le32 w).length) = (stack - 4) / 4 * 4 := by
    have hlen : (le32 w).length = 4 := rfl
    rw [hlen, alignLoop_four, sub32_of_le hlo]
  obtain ⟨u, s₁, hstore, -⟩ := Prog.bind_eq_done.mp hpush
  rw [halign] at hstore
  obtain ⟨u', s₂, hbyte, -⟩ := Prog.bind_eq_done.mp hstore
  rw [storeByte, if_neg h] at hbyte
  cases hbyte

theorem push_char (b : UInt8) (hgood : Good s) (hready : Ready s) (hlo : userStack + 1 ≤ stack)
    (hhigh : stack ≤ 0x80000000) :
    ∃ t, push [b] stack s = .done (stack - 1) t ∧ Pushed s t stack (stack - 1)
      ∧ byteAt t (stack - 1) = some b := by
  obtain ⟨t, hpush, hpushed, hbyte⟩ := @push_done s stack [b] _ hgood hready
    ((alignLoop_one _).trans (sub32_of_le (by rw [List.length_singleton]; omega)))
    (by rw [List.length_singleton]; omega) (by rw [List.length_singleton]; omega) hhigh
  exact ⟨t, hpush, hpushed, hbyte 0 Nat.one_pos⟩

/-- A word goes below the stack pointer, down to a multiple of 4. -/
theorem push_word (w : Nat) (hgood : Good s) (hready : Ready s) (hlo : userStack + 4 ≤ stack)
    (hhigh : stack ≤ 0x80000000) :
    ∃ t, push (le32 w) stack s = .done ((stack - 4) / 4 * 4) t
      ∧ Pushed s t stack ((stack - 4) / 4 * 4) ∧ WordAt t ((stack - 4) / 4 * 4) w := by
  have hlen : (le32 w).length = 4 := rfl
  have halign : alignLoop (le32 w).length (sub32 stack (le32 w).length) = (stack - 4) / 4 * 4 := by
    rw [hlen, alignLoop_four, sub32_of_le (by omega)]
  unfold userStack userStackSz at hlo
  obtain ⟨t, hpush, hpushed, hword⟩ := push_done hgood hready halign
    (by unfold userStack userStackSz; omega) (by rw [hlen]; omega) hhigh
  exact ⟨t, hpush, hpushed, hword⟩

/-! ## Strings -/

/-- The loop at `l` stores the bytes up to `l`. -/
theorem pushStrLoop_done (c : CStr) (l : Nat) (hgood : Good s) (hready : Ready s)
    (hlo : userStack + (l + 1) ≤ stack) (hhigh : stack ≤ 0x80000000) :
    ∃ t, pushStrLoop c l stack s = .done (stack - (l + 1)) t
      ∧ Pushed s t stack (stack - (l + 1))
      ∧ ∀ i ≤ l, byteAt t (stack - (l + 1) + i) = some (c.bytes.getD i 0) := by
  induction l generalizing s stack with
  | zero =>
      obtain ⟨t, hpush, hpushed, hbyte⟩ := push_char (c.bytes.getD 0 0) hgood hready hlo hhigh
      refine ⟨t, hpush, hpushed, fun i hi => ?_⟩
      obtain rfl := Nat.le_zero.mp hi
      exact hbyte
  | succ l ih =>
      obtain ⟨s₁, hpush, hpushed, hbyte⟩ :=
        push_char (c.bytes.getD (l + 1) 0) hgood hready (by omega) hhigh
      obtain ⟨t, hrest, hpushed', hbytes⟩ := @ih s₁ (stack - 1) (hpushed.same.good hgood)
        (hpushed.ready hready) (by omega) (by omega)
      have hend : stack - 1 - (l + 1) = stack - (l + 1 + 1) := by omega
      rw [hend] at hrest hpushed' hbytes
      refine ⟨t, Prog.bind_eq_done.mpr ⟨_, s₁, hpush, hrest⟩, hpushed.trans hpushed',
        fun i hi => ?_⟩
      rcases Nat.lt_or_eq_of_le hi with hlt | rfl
      · exact hbytes i (Nat.le_of_lt_succ hlt)
      · have hpos : stack - (l + 1 + 1) + (l + 1) = stack - 1 := by omega
        rw [hpos, hpushed'.keep _ (Nat.le_refl _) (by unfold kernelBase; omega)]
        exact hbyte

theorem length_bytes (c : CStr) : c.bytes.length = c.strlen + 1 := by
  rw [CStr.bytes, List.length_append, List.length_singleton, CStr.strlen]

theorem pushStr_done (c : CStr) (hgood : Good s) (hready : Ready s)
    (hlo : userStack + c.bytes.length ≤ stack) (hhigh : stack ≤ 0x80000000) :
    ∃ t, pushStr c stack s = .done (stack - c.bytes.length) t
      ∧ Pushed s t stack (stack - c.bytes.length) ∧ CStrAt t (stack - c.bytes.length) c := by
  rw [length_bytes] at hlo ⊢
  obtain ⟨t, hpush, hpushed, hbytes⟩ := pushStrLoop_done c c.strlen hgood hready hlo hhigh
  refine ⟨t, hpush, hpushed, fun i hi => ?_⟩
  rw [hbytes i (by rw [length_bytes] at hi; omega), List.getD_eq_getElem _ _ hi,
    List.getElem?_eq_getElem hi]

/-- The strings are there, each inside the stack, one below the other. -/
structure StrsAt (t : As) (hi : Nat) (ptrs : List Nat) (l : List CStr) (lo : Nat) : Prop where
  strs : List.Forall₂ (CStrAt t) ptrs l
  stacked : Stacked hi (strRegions ptrs l) lo

theorem StrsAt.keep {t u : As} {hi lo stack stack' : Nat} {ptrs : List Nat} {l : List CStr}
    (h : StrsAt t hi ptrs l lo) (hpushed : Pushed t u stack stack') (hlo : stack ≤ lo)
    (hhi : hi ≤ kernelBase) : StrsAt u hi ptrs l lo := by
  refine ⟨?_, h.stacked⟩
  obtain ⟨hstrs, hstacked⟩ := h
  induction hstrs generalizing hi with
  | nil => exact List.Forall₂.nil
  | @cons p c ptrs l hstr _ ih =>
      obtain ⟨hfirst, hrest⟩ := hstacked
      have hle := Stacked.le hrest
      exact List.Forall₂.cons (hstr.keep hpushed (Nat.le_trans hlo hle) (Nat.le_trans hfirst hhi))
        (ih (by exact Nat.le_trans (Nat.le_trans (Nat.le_add_right _ _) hfirst) hhi) hrest)

theorem pushStrs_done (l : List CStr) (hgood : Good s) (hready : Ready s)
    (hlo : userStack + strRoom l ≤ stack) (hhigh : stack ≤ 0x80000000) :
    ∃ ptrs t, pushStrs l stack s = .done (ptrs, stack - strRoom l) t
      ∧ Pushed s t stack (stack - strRoom l) ∧ StrsAt t stack ptrs l (stack - strRoom l) := by
  induction l generalizing s stack with
  | nil =>
      exact ⟨[], s, Prog.pure_eq_done.mpr ⟨rfl, rfl⟩, Pushed.refl s stack,
        List.Forall₂.nil, Nat.le_refl _⟩
  | cons c l ih =>
      have hroom : strRoom (c :: l) = c.bytes.length + strRoom l := List.sum_cons
      rw [hroom] at hlo ⊢
      obtain ⟨s₁, hpush, hpushed, hstr⟩ := pushStr_done c hgood hready (by omega) hhigh
      obtain ⟨ptrs, t, hrest, hpushed', hstrs⟩ := @ih s₁ (stack - c.bytes.length)
        (hpushed.same.good hgood) (hpushed.ready hready) (by omega) (by omega)
      rw [Nat.sub_sub] at hrest hpushed' hstrs
      refine ⟨(stack - c.bytes.length) :: ptrs, t, ?_, hpushed.trans hpushed', ?_, ?_, ?_⟩
      · exact Prog.bind_eq_done.mpr ⟨_, s₁, hpush, Prog.bind_eq_done.mpr ⟨_, t, hrest,
          Prog.pure_eq_done.mpr ⟨rfl, rfl⟩⟩⟩
      · exact List.Forall₂.cons
          (hstr.keep hpushed' (Nat.le_refl _) (by unfold kernelBase; omega)) hstrs.strs
      · show stack - c.bytes.length + c.bytes.length ≤ stack
        omega
      · exact hstrs.stacked

/-! ## Arrays -/

/-- The loop at `n` stores the first `n` pointers. -/
theorem pushPtrs_done {ptrs : List Nat} {n : Nat} (hn : n ≤ ptrs.length) (hgood : Good s)
    (hready : Ready s) (halign : stack % 4 = 0) (hlo : userStack + 4 * n ≤ stack)
    (hhigh : stack ≤ 0x80000000) :
    ∃ t, pushPtrs ptrs n stack s = .done (stack - 4 * n) t
      ∧ Pushed s t stack (stack - 4 * n) ∧ WordsAt t (stack - 4 * n) (ptrs.take n) := by
  induction n generalizing s stack with
  | zero =>
      exact ⟨s, Prog.pure_eq_done.mpr ⟨rfl, rfl⟩, Pushed.refl s stack, fun i w hw => nomatch hw⟩
  | succ n ih =>
      obtain ⟨s₁, hpush, hpushed, hword⟩ :=
        push_word (ptrs.getD n 0) hgood hready (by omega) hhigh
      have hstep : (stack - 4) / 4 * 4 = stack - 4 := by omega
      rw [hstep] at hpush hpushed hword
      obtain ⟨t, hrest, hpushed', hwords⟩ := @ih s₁ (stack - 4) (by omega)
        (hpushed.same.good hgood) (hpushed.ready hready) (by omega) (by omega) (by omega)
      have hend : stack - 4 - 4 * n = stack - 4 * (n + 1) := by omega
      rw [hend] at hrest hpushed' hwords
      refine ⟨t, Prog.bind_eq_done.mpr ⟨_, s₁, hpush, hrest⟩, hpushed.trans hpushed',
        fun i w hw => ?_⟩
      obtain ⟨hi, -⟩ := List.getElem?_eq_some_iff.mp hw
      rw [List.length_take, Nat.min_eq_left hn] at hi
      rcases Nat.lt_or_eq_of_le (Nat.le_of_lt_succ hi) with hlt | rfl
      · rw [List.getElem?_take_of_lt hi, ← List.getElem?_take_of_lt hlt] at hw
        exact hwords i w hw
      · have hpos : stack - 4 * (i + 1) + 4 * i = stack - 4 := by omega
        rw [List.getElem?_take_of_lt hi] at hw
        rw [List.getD_eq_getElem?_getD, hw] at hword
        rw [hpos]
        exact hword.keep hpushed' (Nat.le_refl _) (by unfold kernelBase; omega)

/-- An array goes below the stack pointer, to a multiple of 4, and wastes at most
three bytes. -/
theorem pushArray_done (ptrs : List Nat) (hgood : Good s) (hready : Ready s)
    (hlo : userStack + 4 * (ptrs.length + 1) ≤ stack) (hhigh : stack ≤ 0x80000000) :
    ∃ p t, pushArray ptrs stack s = .done p t ∧ Pushed s t stack p
      ∧ p + 4 * (ptrs.length + 1) = stack / 4 * 4 ∧ WordsAt t p (ptrs ++ [0]) := by
  obtain ⟨s₁, hpush, hpushed, hword⟩ := push_word 0 hgood hready (by omega) hhigh
  have hroom : userStack + 4 * ptrs.length ≤ (stack - 4) / 4 * 4 := by
    unfold userStack userStackSz at hlo ⊢
    omega
  obtain ⟨t, hrest, hpushed', hwords⟩ := pushPtrs_done (Nat.le_refl ptrs.length)
    (hpushed.same.good hgood) (hpushed.ready hready) (Nat.mul_mod_left _ _) hroom (by omega)
  refine ⟨_, t, Prog.bind_eq_done.mpr ⟨_, s₁, hpush, hrest⟩, hpushed.trans hpushed', by omega,
    fun i w hw => ?_⟩
  rw [List.take_length] at hwords
  rcases Nat.lt_or_ge i ptrs.length with hlt | hge
  · rw [List.getElem?_append_left hlt] at hw
    exact hwords i w hw
  · obtain ⟨hi, -⟩ := List.getElem?_eq_some_iff.mp hw
    rw [List.length_append, List.length_singleton] at hi
    obtain rfl : i = ptrs.length := by omega
    rw [List.getElem?_concat_length] at hw
    obtain rfl := Option.some.inj hw
    have hpos : (stack - 4) / 4 * 4 - 4 * ptrs.length + 4 * ptrs.length = (stack - 4) / 4 * 4 := by
      omega
    rw [hpos]
    exact hword.keep hpushed' (Nat.le_refl _) (by unfold kernelBase; omega)

end Push

/-! ## The whole stack -/

/-- What is on the stack when the program is entered: `argc`, the array `argv`, the array
`envp`, and the strings they point to. The regions are given from the top down. -/
structure Entered (argv envp : List CStr) (e : Entry) (t : As) (argvPtrs envpPtrs : List Nat) :
    Prop where
  argc : e.argc = argv.length ∧ WordAt t e.stack e.argc
  argvAt : e.argv = e.stack + 4 ∧ WordsAt t e.argv (argvPtrs ++ [0])
  envc : e.envc = envp.length
  envpAt : e.envp = e.argv + arrayRoom argv ∧ WordsAt t e.envp (envpPtrs ++ [0])
  argvStrs : List.Forall₂ (CStrAt t) argvPtrs argv
  envpStrs : List.Forall₂ (CStrAt t) envpPtrs envp
  aligned : e.stack % 4 = 0
  apart : (strRegions argvPtrs argv ++ strRegions envpPtrs envp
    ++ [(e.envp, arrayRoom envp), (e.argv, arrayRoom argv), (e.stack, 4)]).Pairwise Apart
  inside : ∀ r ∈ strRegions argvPtrs argv ++ strRegions envpPtrs envp
    ++ [(e.envp, arrayRoom envp), (e.argv, arrayRoom argv), (e.stack, 4)],
    userStack ≤ r.1 ∧ r.1 + r.2 ≤ 0x80000000

/-- What the strings and the arrays need of the stack. -/
def stackRoom (argv envp : List CStr) : Nat :=
  strRoom argv + strRoom envp + arrayRoom argv + arrayRoom envp

/-- What there is when only `argc` is left to be pushed, to be stored below `argvAt`. -/
structure Arrays (argv envp : List CStr) (t : As) (argvAt envpAt : Nat)
    (argvPtrs envpPtrs : List Nat) : Prop where
  argvWords : WordsAt t argvAt (argvPtrs ++ [0])
  envpWords : WordsAt t envpAt (envpPtrs ++ [0])
  argvStrs : StrsAt t 0x80000000 argvPtrs argv (0x80000000 - strRoom argv)
  envpStrs : StrsAt t (0x80000000 - strRoom argv) envpPtrs envp
    (0x80000000 - strRoom argv - strRoom envp)
  envpEnd : envpAt + arrayRoom envp = (0x80000000 - strRoom argv - strRoom envp) / 4 * 4
  argvEnd : argvAt + arrayRoom argv = envpAt

theorem pushArgs_arrays {s : As} {argv envp : List CStr} (hgood : Good s) (hready : Ready s)
    (hfit : stackRoom argv envp ≤ userStackSz) :
    ∃ argvAt envpAt t argvPtrs envpPtrs, pushArgs argv envp s = (do
        let stack ← push (le32 argv.length) argvAt
        pure { argc := argv.length, argv := argvAt, envc := envp.length, envp := envpAt,
               stack : Entry } : Prog As Entry) t
      ∧ Pushed s t 0x80000000 argvAt ∧ Arrays argv envp t argvAt envpAt argvPtrs envpPtrs := by
  unfold stackRoom arrayRoom userStackSz at hfit
  have hbase : userStack = 0x80000000 - 0x20000 := rfl
  have htop : (0x80000000 : Nat) ≤ kernelBase := by decide
  obtain ⟨argvPtrs, s₁, hrun₁, hpushed₁, hargv⟩ := @pushStrs_done s 0x80000000 argv hgood
    hready (by omega) (Nat.le_refl _)
  have hgood₁ := hpushed₁.same.good hgood
  have hready₁ := hpushed₁.ready hready
  obtain ⟨envpPtrs, s₂, hrun₂, hpushed₂, henvp⟩ := @pushStrs_done s₁ (0x80000000 - strRoom argv)
    envp hgood₁ hready₁ (by omega) (by omega)
  have hgood₂ := hpushed₂.same.good hgood₁
  have hready₂ := hpushed₂.ready hready₁
  have hargc := hargv.strs.length_eq
  have henvc := henvp.strs.length_eq
  obtain ⟨envpAt, s₃, hrun₃, hpushed₃, hend₃, hwords₃⟩ := @pushArray_done s₂
    (0x80000000 - strRoom argv - strRoom envp) envpPtrs hgood₂ hready₂ (by omega) (by omega)
  have hgood₃ := hpushed₃.same.good hgood₂
  have hready₃ := hpushed₃.ready hready₂
  obtain ⟨argvAt, t, hrun₄, hpushed₄, hend₄, hwords₄⟩ := @pushArray_done s₃ envpAt argvPtrs hgood₃
    hready₃ (by omega) (by omega)
  -- Each thing stays as it was pushed, through all later pushes.
  have harrays := hpushed₃.trans hpushed₄
  have hlen₃ : (envpPtrs ++ [0]).length = envpPtrs.length + 1 := List.length_append
  refine ⟨argvAt, envpAt, t, argvPtrs, envpPtrs, ?_,
    (hpushed₁.trans hpushed₂).trans harrays, ?_⟩
  · rw [pushArgs, Prog.bind_run hrun₁]
    show (pushStrs envp _ >>= _) s₁ = _
    rw [Prog.bind_run hrun₂]
    show (pushArray envpPtrs _ >>= _) s₂ = _
    rw [Prog.bind_run hrun₃, Prog.bind_run hrun₄]
  · exact
      { argvWords := hwords₄
        envpWords := hwords₃.keep hpushed₄ (Nat.le_refl _) (by omega)
        argvStrs := (hargv.keep hpushed₂ (Nat.le_refl _) htop).keep harrays (by omega) htop
        envpStrs := henvp.keep harrays (Nat.le_refl _) (by omega)
        envpEnd := by unfold arrayRoom; omega
        argvEnd := by unfold arrayRoom; omega }

theorem pushArgs_done {s : As} {argv envp : List CStr} (hgood : Good s) (hready : Ready s)
    (hfit : stackRoom argv envp + 4 ≤ userStackSz) :
    ∃ e t argvPtrs envpPtrs, pushArgs argv envp s = .done e t
      ∧ Entered argv envp e t argvPtrs envpPtrs := by
  obtain ⟨argvAt, envpAt, s₁, argvPtrs, envpPtrs, hrun, hpushed, harrays⟩ :=
    pushArgs_arrays hgood hready (Nat.le_of_add_right_le hfit)
  have hbase : userStack = 0x80000000 - 0x20000 := rfl
  have htop : (0x80000000 : Nat) ≤ kernelBase := by decide
  have henvpEnd := harrays.envpEnd
  have hargvEnd := harrays.argvEnd
  have hargc := harrays.argvStrs.strs.length_eq
  have henvc := harrays.envpStrs.strs.length_eq
  unfold stackRoom userStackSz at hfit
  have hwords : ∀ l : List CStr, arrayRoom l = 4 * (l.length + 1) := fun _ => rfl
  have hargv := hwords argv
  have henvp := hwords envp
  obtain ⟨t, hlast, hpushed', hword⟩ := @push_word s₁ argvAt argv.length (hpushed.same.good hgood)
    (hpushed.ready hready) (by omega) (by omega)
  have hstack : (argvAt - 4) / 4 * 4 = argvAt - 4 := by omega
  rw [hstack] at hlast hpushed' hword
  have hstacked : Stacked 0x80000000 (strRegions argvPtrs argv ++ strRegions envpPtrs envp
      ++ [(envpAt, arrayRoom envp), (argvAt, arrayRoom argv), (argvAt - 4, 4)]) (argvAt - 4) := by
    refine (harrays.argvStrs.stacked.append harrays.envpStrs.stacked).append
      ⟨?_, ?_, ?_, Nat.le_refl _⟩
    · show envpAt + arrayRoom envp ≤ 0x80000000 - strRoom argv - strRoom envp
      omega
    · show argvAt + arrayRoom argv ≤ envpAt
      omega
    · show argvAt - 4 + 4 ≤ argvAt
      omega
  have hlen : ∀ l : List Nat, (l ++ [0]).length = l.length + 1 := fun _ => List.length_append
  have hlenArgv := hlen argvPtrs
  have hlenEnvp := hlen envpPtrs
  refine ⟨_, t, argvPtrs, envpPtrs, hrun.trans (Prog.bind_eq_done.mpr
    ⟨_, t, hlast, Prog.pure_eq_done.mpr ⟨rfl, rfl⟩⟩), ?_⟩
  exact
    { argc := ⟨rfl, hword⟩
      argvAt := ⟨by show argvAt = argvAt - 4 + 4; omega,
        harrays.argvWords.keep hpushed' (Nat.le_refl _) (by omega)⟩
      envc := rfl
      envpAt := ⟨hargvEnd.symm, harrays.envpWords.keep hpushed' (by omega) (by omega)⟩
      argvStrs := (harrays.argvStrs.keep hpushed' (by omega) htop).strs
      envpStrs := (harrays.envpStrs.keep hpushed' (by omega) (by omega)).strs
      aligned := by show (argvAt - 4) % 4 = 0; omega
      apart := hstacked.apart
      inside := fun r hmem => by
        obtain ⟨hlo, hhi⟩ := hstacked.inside r hmem
        exact ⟨by omega, hhi⟩ }

/-! ## `elf_exec` -/

theorem store_good {a : Nat} {l : List UInt8} {s t : As} {u : Unit} (hgood : Good s)
    (h : store a l s = .done u t) : Good t := by
  induction l generalizing a s with
  | nil =>
      obtain ⟨-, rfl⟩ := Prog.pure_eq_done.mp h
      exact hgood
  | cons b l ih =>
      obtain ⟨u', s₁, hb, hrest⟩ := Prog.bind_eq_done.mp h
      exact ih ((storeByte_done hb).1.good hgood) hrest

theorem mapLoop_good {stop n addr : Nat} {s t : As} {u : Unit} (hgood : Good s)
    (h : mapLoop stop n addr s = .done u t) : Good t := by
  induction n generalizing addr s with
  | zero => cases h
  | succ n ih =>
      rcases Prog.ite_eq_done.mp h with ⟨-, hturn⟩ | ⟨-, hret⟩
      · obtain ⟨u', s₁, hmap, hrest⟩ := Prog.bind_eq_done.mp hturn
        exact ih ((mapPage_maps hmap).good hgood) hrest
      · obtain ⟨-, rfl⟩ := Prog.pure_eq_done.mp hret
        exact hgood

theorem loadLoop_good {turns : Nat} {file : File} {l : List Phdr} {heapBase top : Nat} {s t : As}
    (hgood : Good s) (h : loadLoop turns file l heapBase s = .done top t) : Good t := by
  induction l generalizing s heapBase with
  | nil =>
      obtain ⟨-, rfl⟩ := Prog.pure_eq_done.mp h
      exact hgood
  | cons phdr l ih =>
      rcases Prog.ite_eq_done.mp h with ⟨-, hload⟩ | ⟨-, hskip⟩
      · obtain ⟨u, s₁, hseg, hrest⟩ := Prog.bind_eq_done.mp hload
        obtain ⟨u₁, r₁, hmap, hstores⟩ := Prog.bind_eq_done.mp hseg
        obtain ⟨u₂, r₂, hread, hzero⟩ := Prog.bind_eq_done.mp hstores
        exact ih (store_good (store_good (mapLoop_good hgood hmap) hread) hzero) hrest
      · exact ih hgood hskip

/-- Whatever the file is, the pages of the program keep their own frames. -/
theorem elfExec_good {turns : Nat} {file : File} {r : Option Nat} {s t : As} (hgood : Good s)
    (h : elfExec turns file s = .done r t) : Good t := by
  rcases Prog.ite_eq_done.mp h with ⟨-, hexec⟩ | ⟨-, hnone⟩
  · obtain ⟨top, s₁, hload, hrest⟩ := Prog.bind_eq_done.mp hexec
    obtain ⟨u₂, s₂, hmap, hheap⟩ := Prog.bind_eq_done.mp hrest
    obtain ⟨u₃, s₃, hcreate, hret⟩ := Prog.bind_eq_done.mp hheap
    obtain ⟨-, rfl⟩ := Prog.pure_eq_done.mp hret
    exact Prog.each_done (fun e _ r r' u hr hstore => store_good hr hstore)
      (mapLoop_good (loadLoop_good hgood hload) hmap) hcreate
  · obtain ⟨-, rfl⟩ := Prog.pure_eq_done.mp hnone
    exact hgood

theorem stack_ready {turns : Nat} {s t : As} {u : Unit} (hgood : Good s)
    (h : mapLoop 0x80000000 turns userStack s = .done u t) : Good t ∧ Ready t := by
  obtain ⟨hgood', hpresent, -, -⟩ := mapLoop_done hgood (by decide) h
  refine ⟨hgood', fun a hlo hhi => (hpresent _).mpr (Or.inl ?_)⟩
  unfold userStack userStackSz at *
  omega

/-- With the stack's pages mapped, the rest returns. -/
theorem setUpStack_done {turns : Nat} {argv envp : List CStr} {s s₁ : As} {u : Unit}
    (hgood : Good s) (hmap : mapLoop 0x80000000 turns userStack s = .done u s₁)
    (hfit : stackRoom argv envp + 4 ≤ userStackSz) :
    ∃ e t argvPtrs envpPtrs, setUpStack turns argv envp s = .done e t
      ∧ Entered argv envp e t argvPtrs envpPtrs := by
  obtain ⟨hgood₁, hready₁⟩ := stack_ready hgood hmap
  obtain ⟨e, t, argvPtrs, envpPtrs, hrun, hentered⟩ := pushArgs_done hgood₁ hready₁ hfit
  exact ⟨e, t, argvPtrs, envpPtrs, Prog.bind_eq_done.mpr ⟨u, s₁, hmap, hrun⟩, hentered⟩

/-- **The arguments of a program are on its stack.** Where the strings, the arrays and
the word for `argc` fit into the stack, a program is entered with its arguments and its
environment as they should be; and it is entered once it is loaded and there are frames
for the stack. -/
theorem elfEnter_entered {turns : Nat} {file : File} {argv envp : List CStr} {s : As}
    (hgood : Good s) (hfit : stackRoom argv envp + 4 ≤ userStackSz) :
    (∀ e t, elfEnter turns file argv envp s = .done (some e) t →
        ∃ argvPtrs envpPtrs, Entered argv envp e t argvPtrs envpPtrs)
      ∧ ∀ heapBase s₁, elfExec turns file s = .done (some heapBase) s₁ → Room 64 s₁ →
        32 < turns → ∃ e t, elfEnter turns file argv envp s = .done (some e) t := by
  refine ⟨fun e t h => ?_, fun heapBase s₁ hload hroom hturns => ?_⟩
  · obtain ⟨loaded, s₁, hload, hrest⟩ := Prog.bind_eq_done.mp h
    cases loaded with
    | none =>
        obtain ⟨hne, -⟩ := Prog.pure_eq_done.mp hrest
        cases hne
    | some heapBase =>
        obtain ⟨e', t', hset, hret⟩ := Prog.bind_eq_done.mp hrest
        obtain ⟨hsome, rfl⟩ := Prog.pure_eq_done.mp hret
        obtain rfl := Option.some.inj hsome
        obtain ⟨u, s₂, hmap, -⟩ := Prog.bind_eq_done.mp hset
        obtain ⟨e, t, argvPtrs, envpPtrs, hrun, hentered⟩ :=
          setUpStack_done (elfExec_good hgood hload) hmap hfit
        obtain ⟨rfl, rfl⟩ := Outcome.done.inj (hrun.symm.trans hset)
        exact ⟨argvPtrs, envpPtrs, hentered⟩
  · obtain ⟨s₂, hmap, -⟩ : ∃ s₂, mapLoop 0x80000000 turns userStack s₁ = .done () s₂ ∧ Room 0 s₂ :=
      mapLoop_returns hroom (by decide) hturns
    obtain ⟨e, t, argvPtrs, envpPtrs, hrun, -⟩ :=
      setUpStack_done (elfExec_good hgood hload) hmap hfit
    exact ⟨e, t, Prog.bind_eq_done.mpr ⟨some heapBase, s₁, hload,
      Prog.bind_eq_done.mpr ⟨e, t, hrun, Prog.pure_eq_done.mpr ⟨rfl, rfl⟩⟩⟩⟩

/-- Where the strings and the arrays fill the stack, `argc` would have to go below it. If
nothing is mapped there, the program is not entered. -/
theorem elfEnter_full {turns heapBase : Nat} {file : File} {argv envp : List CStr}
    {s s₁ t : As} {e : Entry} (hgood : Good s)
    (hload : elfExec turns file s = .done (some heapBase) s₁)
    (hfull : stackRoom argv envp = userStackSz) (hbelow : ¬ Present s₁ (userStack / 4096 - 1)) :
    elfEnter turns file argv envp s ≠ .done (some e) t := by
  intro hrun
  obtain ⟨loaded, s₁', hload', hrest⟩ := Prog.bind_eq_done.mp hrun
  obtain ⟨rfl, rfl⟩ := Outcome.done.inj (hload.symm.trans hload')
  obtain ⟨e', t', hset, -⟩ := Prog.bind_eq_done.mp hrest
  obtain ⟨u, s₂, hmap, hargs⟩ := Prog.bind_eq_done.mp hset
  have hgood₁ := elfExec_good hgood hload
  obtain ⟨hgood₂, hready₂⟩ := stack_ready hgood₁ hmap
  obtain ⟨-, hpresent, -, -⟩ := mapLoop_done hgood₁ (by decide) hmap
  obtain ⟨argvAt, envpAt, s₃, argvPtrs, envpPtrs, hrun₃, hpushed, harrays⟩ :=
    pushArgs_arrays hgood₂ hready₂ (Nat.le_of_eq hfull)
  have hat : argvAt = userStack := by
    have hargvEnd := harrays.argvEnd
    have henvpEnd := harrays.envpEnd
    have hargv : arrayRoom argv = 4 * (argv.length + 1) := rfl
    have henvp : arrayRoom envp = 4 * (envp.length + 1) := rfl
    unfold stackRoom userStackSz at hfull
    unfold userStack userStackSz
    omega
  have hmissing : ¬ Present s₃ ((userStack - 4) / 4 * 4 / 4096) := fun h => by
    rcases (hpresent _).mp ((hpushed.same.present _).mp h) with hstack | hold
    · exact absurd hstack.1 (by decide)
    · exact hbelow hold
  rw [hrun₃] at hargs
  obtain ⟨stack, s₄, hpush, -⟩ := Prog.bind_eq_done.mp hargs
  rw [hat] at hpush
  exact push_word_faults (by decide) hmissing hpush

/-! ### A stack that is full -/

/-- An executable without segments, which is entered at 0. -/
def bare : File where
  size := 52
  data i := ([0x7f, 69, 76, 70, 1, 1, 1, 0, 0, 0, 0, 0, 0, 0, 0, 0, 2, 0][i]?).getD 0

/-- Only its heap is mapped. -/
theorem bare_loaded : ∃ s, elfExec 0x80 bare fresh = .done (some 0) s ∧ Room 64 s
    ∧ ∀ q, Present s q → q < 0x40 := by
  obtain ⟨s₁, hmap, hroom⟩ : ∃ s₁, mapLoop 0x40000 0x80 0 fresh = .done () s₁ ∧ Room 64 s₁ :=
    mapLoop_returns (room_fresh.mono (by decide)) (by decide) (by decide)
  obtain ⟨-, hpresent, -, -⟩ := mapLoop_done good_fresh (by decide) hmap
  obtain ⟨s₂, hcreate, hsame⟩ : ∃ s₂, Prog.each (heapStores 0) (fun e => store e.1 e.2) s₁
      = .done ⟨⟩ s₂ ∧ SamePages s₁ s₂ :=
    Prog.each_returns (fun e he r hr => by
      obtain ⟨hlow, hin⟩ := heapStores_inside e he
      have hheap : 0 + userHeapSz = 0x40000 := rfl
      obtain ⟨r', hstore, hr'⟩ : ∃ r', store e.1 e.2 r = .done () r' ∧ SamePages r r' :=
        store_returns (by unfold kernelBase; omega) fun i hi =>
          (hr.present _).mpr ((hpresent _).mpr (Or.inl (by omega)))
      exact ⟨r', hstore, hr.trans hr'⟩) (SamePages.refl s₁)
  refine ⟨s₂, ?_, hsame.room hroom, fun q hq => ?_⟩
  · refine Prog.ite_eq_done.mpr (Or.inl ⟨by decide, ?_⟩)
    exact Prog.bind_eq_done.mpr ⟨0, fresh, rfl, Prog.bind_eq_done.mpr ⟨(), s₁, hmap,
      Prog.bind_eq_done.mpr ⟨(), s₂, hcreate, Prog.pure_eq_done.mpr ⟨rfl, rfl⟩⟩⟩⟩
  · rcases (hpresent q).mp ((hsame.present q).mp hq) with hheap | hold
    · omega
    · exact absurd hold (present_fresh q)

/-- An argument of `n` bytes. -/
def repeated (n : Nat) : CStr where
  chars := List.replicate n 105
  clean := fun b hmem => by
    obtain ⟨-, rfl⟩ := List.mem_replicate.mp hmem
    decide

theorem stackRoom_repeated (n : Nat) : stackRoom [repeated n] [] = n + 13 := by
  have hlen : (repeated n).bytes.length = n + 1 := by
    rw [length_bytes, CStr.strlen, repeated, List.length_replicate]
  unfold stackRoom strRoom arrayRoom
  rw [List.map_singleton, List.sum_singleton, hlen]
  rfl

/-- A program without segments is entered with one argument. -/
theorem elfEnter_entered_one :
    ∃ e t, elfEnter 0x80 bare [repeated 1] [] fresh = .done (some e) t
      ∧ ∃ argvPtrs envpPtrs, Entered [repeated 1] [] e t argvPtrs envpPtrs := by
  obtain ⟨s₁, hload, hroom, -⟩ := bare_loaded
  obtain ⟨hentered, henters⟩ := @elfEnter_entered 0x80 bare [repeated 1] [] fresh good_fresh
    (by rw [stackRoom_repeated]; decide)
  obtain ⟨e, t, hrun⟩ := henters 0 s₁ hload hroom (by decide)
  exact ⟨e, t, hrun, hentered e t hrun⟩

/-- An argument of `0x1fff3` bytes, its terminator and the three words of the arrays fill
the stack. -/
theorem elfEnter_not_entered :
    ¬ ∀ (turns : Nat) (file : File) (argv envp : List CStr) (s : As) (heapBase : Nat) (s₁ : As),
      Good s → elfExec turns file s = .done (some heapBase) s₁ → Room 64 s₁ → 32 < turns →
      stackRoom argv envp ≤ userStackSz →
      ∃ e t argvPtrs envpPtrs, elfEnter turns file argv envp s = .done (some e) t
        ∧ Entered argv envp e t argvPtrs envpPtrs := by
  intro hall
  have hfull : stackRoom [repeated 0x1fff3] [] = userStackSz := by
    rw [stackRoom_repeated]
    decide
  obtain ⟨s₁, hload, hroom, hlow⟩ := bare_loaded
  obtain ⟨e, t, -, -, hrun, -⟩ := hall 0x80 bare [repeated 0x1fff3] [] fresh 0 s₁ good_fresh hload
    hroom (by decide) (Nat.le_of_eq hfull)
  refine elfEnter_full good_fresh hload hfull (fun hbelow => ?_) hrun
  exact absurd (hlow _ hbelow) (by decide)

end Elf

end Shitos
