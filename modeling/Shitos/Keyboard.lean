import Mathlib.Logic.Function.Basic
import Mathlib.Data.List.Induction
import Mathlib.Tactic.SplitIfs

/-!
# The keyboard

`kbd_handler` is called with the bytes of scan code set 3: a key that is made
sends its code, one that is broken sends 0xF0 before it. It translates the code
to a USB key code, follows the left modifiers and passes other keys to
`handle_kb_input`, which writes the key's string in the US keymap to the
keyboard pipe.

The translation table has 0x7E entries. Every byte is looked up in it first,
also 0xF0, so breaking a key reads behind the table. The modifier is one number:
it is that of the last modifier made, and 0 once any modifier is broken
(`state_eq`), although the other one may still be held.
-/

namespace Shitos

namespace Keyboard

/-! ## Tables -/

/-- `sc3_to_usb`. -/
def sc3Table : List Nat :=
  [0x00, 0x00, 0x00, 0x00, 0x00, 0x00, 0x00, 0x3a,
   0x29, 0x00, 0x00, 0x00, 0x00, 0x2b, 0x35, 0x3b,
   0x00, 0xe0, 0xe1, 0x00, 0x39, 0x14, 0x1e, 0x3c,
   0x00, 0xe2, 0x1d, 0x16, 0x04, 0x1a, 0x1f, 0x3d,
   0x00, 0x06, 0x1b, 0x07, 0x08, 0x21, 0x20, 0x3e,
   0x00, 0x2c, 0x19, 0x09, 0x17, 0x15, 0x22, 0x3f,
   0x00, 0x11, 0x05, 0x0b, 0x0a, 0x1c, 0x23, 0x40,
   0x00, 0x00, 0x10, 0x0d, 0x18, 0x24, 0x25, 0x41,
   0x00, 0x36, 0x0e, 0x0c, 0x12, 0x27, 0x26, 0x42,
   0x00, 0x37, 0x38, 0x0f, 0x33, 0x13, 0x2d, 0x43,
   0x00, 0x00, 0x34, 0x00, 0x2f, 0x2e, 0x44, 0x00,
   0x00, 0xe5, 0x28, 0x30, 0x31, 0x00, 0x45, 0x47,
   0x51, 0x50, 0x00, 0x52, 0x00, 0x00, 0x2a, 0x00,
   0x00, 0x59, 0x4f, 0x5c, 0x5f, 0x00, 0x00, 0x00,
   0x62, 0x63, 0x5a, 0x5d, 0x5e, 0x60, 0x53, 0x00,
   0x00, 0x00, 0x5b, 0x00, 0x57, 0x61]

/-- The strings of `us_keymap` without a modifier. -/
def bareKeymap : List (Nat × String) :=
  [(0x28, "\n"), (0x27, "0"), (0x1e, "1"), (0x1f, "2"), (0x20, "3"), (0x21, "4"), (0x22, "5"),
   (0x23, "6"), (0x24, "7"), (0x25, "8"), (0x26, "9"), (0x04, "a"), (0x05, "b"), (0x06, "c"),
   (0x07, "d"), (0x08, "e"), (0x09, "f"), (0x0a, "g"), (0x0b, "h"), (0x0c, "i"), (0x0d, "j"),
   (0x0e, "k"), (0x0f, "l"), (0x10, "m"), (0x11, "n"), (0x12, "o"), (0x13, "p"), (0x14, "q"),
   (0x15, "r"), (0x16, "s"), (0x17, "t"), (0x18, "u"), (0x19, "v"), (0x1a, "w"), (0x1b, "x"),
   (0x1c, "y"), (0x1d, "z"), (0x52, "\x1b[A"), (0x51, "\x1b[B"), (0x4f, "\x1b[C"),
   (0x50, "\x1b[D"), (0x2c, " "), (0x37, "."), (0x38, "/")]

/-- The strings for `KEY_MOD_LCTRL`. A string that is just a NUL is empty. -/
def ctrlKeymap : List (Nat × String) :=
  [(0x27, ""), (0x1e, ""), (0x1f, ""), (0x20, ""), (0x21, ""), (0x22, ""), (0x23, ""),
   (0x24, ""), (0x25, ""), (0x26, ""), (0x04, "\x01"), (0x05, "\x02"), (0x06, "\x03"),
   (0x07, "\x04"), (0x08, "\x05"), (0x09, "\x06"), (0x0a, "\x07"), (0x0b, "\x08"),
   (0x0c, "\x09"), (0x0d, "\x0a"), (0x0e, "\x0b"), (0x0f, "\x0c"), (0x10, "\x0d"),
   (0x11, "\x0e"), (0x12, "\x0f"), (0x13, "\x10"), (0x14, "\x11"), (0x15, "\x12"),
   (0x16, "\x13"), (0x17, "\x14"), (0x18, "\x15"), (0x19, "\x16"), (0x1a, "\x17"),
   (0x1b, "\x18"), (0x1c, "\x19"), (0x1d, "\x1a")]

/-- The strings for `KEY_MOD_LSHIFT`. -/
def shiftKeymap : List (Nat × String) :=
  [(0x27, ")"), (0x1e, "!"), (0x1f, "@"), (0x20, "#"), (0x21, "$"), (0x22, "%"), (0x23, "^"),
   (0x24, "&"), (0x25, "*"), (0x26, "("), (0x04, "A"), (0x05, "B"), (0x06, "C"), (0x07, "D"),
   (0x08, "E"), (0x09, "F"), (0x0a, "G"), (0x0b, "H"), (0x0c, "I"), (0x0d, "J"), (0x0e, "K"),
   (0x0f, "L"), (0x10, "M"), (0x11, "N"), (0x12, "O"), (0x13, "P"), (0x14, "Q"), (0x15, "R"),
   (0x16, "S"), (0x17, "T"), (0x18, "U"), (0x19, "V"), (0x1a, "W"), (0x1b, "X"), (0x1c, "Y"),
   (0x1d, "Z")]

/-- The rows of `us_keymap`. -/
def usKeymap : List (List (Nat × String)) := [bareKeymap, ctrlKeymap, shiftKeymap, []]

/-- What is at `sc3_to_usb[scancode]`, with `behind` the bytes that follow the
table in memory. -/
def sc3ToUsb (behind : Nat → Nat) (scancode : Nat) : Nat :=
  (sc3Table[scancode]?).getD (behind scancode)

/-- The string at `us_keymap[mod][keycode]`. -/
def keymap (mod keycode : Nat) : Option String :=
  (usKeymap[mod]?).bind fun row => row.lookup keycode

/-- An access to one of the two tables. -/
inductive Lookup where
  | sc3 (i : Nat)
  | keymap (mod keycode : Nat)
deriving DecidableEq

/-- The access is inside the array. -/
def Lookup.Inside : Lookup → Prop
  | .sc3 i => i < sc3Table.length
  | .keymap mod keycode => mod < usKeymap.length ∧ keycode < 256

/-! ## The handler -/

/-- The static variables of the driver. -/
structure Kbd where
  mod : Nat
  notReleased : Bool
  send : Bool
deriving DecidableEq

def initKbd : Kbd := ⟨0, true, true⟩

/-- What a call does: the variables after it, the accesses to the tables, and
what is written to the pipe. -/
structure Handled where
  kbd : Kbd
  lookups : List Lookup
  written : List Char

def changeMod (kbd : Kbd) (modkey : Nat) : Kbd :=
  { kbd with mod := if kbd.notReleased then modkey else 0, send := false }

/-- `handle_kb_input`: the accesses, and what it writes. -/
def handleKbInput (keycode mod : Nat) (releaseFlag : Bool) : List Lookup × List Char :=
  if releaseFlag then
    ([.keymap mod keycode], match keymap mod keycode with
      | some str => str.toList
      | none => [])
  else ([], [])

def kbdHandler (behind : Nat → Nat) (kbd : Kbd) (scancode : Nat) : Handled :=
  let keycode := sc3ToUsb behind scancode
  let kbd :=
    -- KEY_LEFTSHIFT, KEY_LEFTCTRL
    if keycode = 0xe1 then changeMod kbd 0x02
    else if keycode = 0xe0 then changeMod kbd 0x01
    else kbd
  if scancode = 0xf0 then ⟨{ kbd with notReleased := false }, [.sc3 scancode], []⟩
  else if kbd.send then
    let (lookups, written) := handleKbInput keycode kbd.mod kbd.notReleased
    ⟨{ kbd with notReleased := true }, .sc3 scancode :: lookups, written⟩
  else ⟨{ kbd with notReleased := true, send := true }, [.sc3 scancode], []⟩

/-- The handler on the bytes it is called with. -/
def handleBytes (behind : Nat → Nat) : List Nat → Kbd → Handled
  | [], kbd => ⟨kbd, [], []⟩
  | b :: bytes, kbd =>
      let first := kbdHandler behind kbd b
      let rest := handleBytes behind bytes first.kbd
      ⟨rest.kbd, first.lookups ++ rest.lookups, first.written ++ rest.written⟩

/-! ## Keys -/

/-- A key that is made or broken, by its scan code. -/
inductive Event where
  | make (k : Nat)
  | brk (k : Nat)
deriving DecidableEq

namespace Event

def key : Event → Nat
  | make k => k
  | brk k => k

def bytes : Event → List Nat
  | make k => [k]
  | brk k => [0xf0, k]

/-- The keys held after it. -/
def press (held : Nat → Bool) : Event → Nat → Bool
  | make k => Function.update held k true
  | brk k => Function.update held k false

end Event

/-- The keys that are held after some events. -/
def heldAfter (evs : List Event) : Nat → Bool := evs.foldl Event.press fun _ => false

/-- The scan codes are codes, and a key is broken only while it is held. -/
def Valid (evs : List Event) : Prop :=
  ∀ pre ev post, evs = pre ++ ev :: post → ev.key < 256 ∧ ev.key ≠ 0xf0
    ∧ ∀ k, ev = .brk k → heldAfter pre k = true

/-- Left control and left shift. -/
def IsModifier (k : Nat) : Prop := k = 0x11 ∨ k = 0x12

instance (k : Nat) : Decidable (IsModifier k) := inferInstanceAs (Decidable (_ ∨ _))

/-- `mod` stands for a modifier that is held, or for none when none is. -/
def HeldMod (held : Nat → Bool) (mod : Nat) : Prop :=
  (mod = 0 ∧ held 0x11 = false ∧ held 0x12 = false) ∨ (mod = 1 ∧ held 0x11 = true)
    ∨ (mod = 2 ∧ held 0x12 = true)

/-- The string of a key. -/
def textOf (mod k : Nat) : List Char :=
  match keymap mod ((sc3Table[k]?).getD 0) with
  | some str => str.toList
  | none => []

/-- The driver after some events. -/
def kbdAfter (behind : Nat → Nat) (evs : List Event) : Kbd :=
  (handleBytes behind (evs.flatMap Event.bytes) initKbd).kbd

/-- What the event after `pre` should do: write the string of an ordinary key
that is made, under a modifier that is held, and nothing for all other
events. -/
def TypesText (behind : Nat → Nat) (pre : List Event) (ev : Event) : Prop :=
  let written := (handleBytes behind ev.bytes (kbdAfter behind pre)).written
  match ev with
  | .make k =>
      if IsModifier k then written = []
      else ∃ mod, HeldMod (heldAfter pre) mod ∧ written = textOf mod k
  | .brk _ => written = []

/-- The tables are accessed inside. -/
def LooksInside (behind : Nat → Nat) (pre : List Event) (ev : Event) : Prop :=
  ∀ l ∈ (handleBytes behind ev.bytes (kbdAfter behind pre)).lookups, l.Inside

/-! ## What an event does -/

variable {behind : Nat → Nat} {mod k : Nat}

theorem sc3ToUsb_of_lt (hk : k < sc3Table.length) : sc3ToUsb behind k = (sc3Table[k]?).getD 0 := by
  rw [sc3ToUsb, List.getElem?_eq_getElem hk]
  rfl

theorem sc3Table_length : sc3Table.length = 0x7e := by
  simp only [sc3Table, List.length_cons, List.length_nil]

/-- The entries of the table: two of them are the modifiers. -/
theorem sc3Table_entry (hk : k < sc3Table.length) : (sc3Table[k]?).getD 0 < 256
    ∧ ((sc3Table[k]?).getD 0 = 0xe1 ↔ k = 0x12) ∧ ((sc3Table[k]?).getD 0 = 0xe0 ↔ k = 0x11) := by
  have hall : ∀ k < sc3Table.length, (sc3Table[k]?).getD 0 < 256
      ∧ ((sc3Table[k]?).getD 0 = 0xe1 ↔ k = 0x12)
      ∧ ((sc3Table[k]?).getD 0 = 0xe0 ↔ k = 0x11) := by decide +kernel
  exact hall k hk

theorem ne_prefix_of_lt (hk : k < sc3Table.length) : k ≠ 0xf0 := by
  rw [sc3Table_length] at hk
  omega

/-- The modifier after an event. -/
def Event.modAfter (mod : Nat) : Event → Nat
  | make k => if k = 0x12 then 2 else if k = 0x11 then 1 else mod
  | brk k => if IsModifier k then 0 else mod

/-- A key with an entry in the table is made. -/
theorem handle_make (hk : k < sc3Table.length) :
    handleBytes behind [k] ⟨mod, true, true⟩
      = if IsModifier k then ⟨⟨(Event.make k).modAfter mod, true, true⟩, [.sc3 k], []⟩
        else ⟨⟨mod, true, true⟩, [.sc3 k, .keymap mod ((sc3Table[k]?).getD 0)], textOf mod k⟩ := by
  obtain ⟨-, hshift, hctrl⟩ := sc3Table_entry hk
  have hprefix := ne_prefix_of_lt hk
  by_cases hk12 : k = 0x12
  · subst hk12
    rfl
  by_cases hk11 : k = 0x11
  · subst hk11
    rfl
  · rw [if_neg (show ¬ IsModifier k from not_or.mpr ⟨hk11, hk12⟩)]
    simp only [handleBytes, kbdHandler, sc3ToUsb_of_lt hk, hshift, hctrl, hk12, hk11, hprefix,
      if_false, if_true, handleKbInput, List.append_nil, textOf]

/-- A key with an entry in the table is broken. What the prefix byte reads
behind the table is not a modifier. -/
theorem handle_brk (hbehind : behind 0xf0 ≠ 0xe1 ∧ behind 0xf0 ≠ 0xe0) (hk : k < sc3Table.length) :
    handleBytes behind [0xf0, k] ⟨mod, true, true⟩
      = ⟨⟨(Event.brk k).modAfter mod, true, true⟩, [.sc3 0xf0, .sc3 k], []⟩ := by
  obtain ⟨-, hshift, hctrl⟩ := sc3Table_entry hk
  have hprefix := ne_prefix_of_lt hk
  have hbyte : kbdHandler behind ⟨mod, true, true⟩ 0xf0
      = ⟨⟨mod, false, true⟩, [.sc3 0xf0], []⟩ := by
    have hread : sc3ToUsb behind 0xf0 = behind 0xf0 := rfl
    simp only [kbdHandler, hread, if_neg hbehind.1, if_neg hbehind.2, if_true]
  by_cases hk12 : k = 0x12
  · subst hk12
    rw [handleBytes, hbyte]
    rfl
  by_cases hk11 : k = 0x11
  · subst hk11
    rw [handleBytes, hbyte]
    rfl
  · rw [handleBytes, hbyte, Event.modAfter,
      if_neg (show ¬ IsModifier k from not_or.mpr ⟨hk11, hk12⟩)]
    simp only [handleBytes, kbdHandler, sc3ToUsb_of_lt hk, hshift, hctrl, hk12, hk11, hprefix,
      if_false, if_true, handleKbInput]
    rfl

/-! ## Runs -/

/-- The modifier after some events: that of the last one made, unless one has
been broken since. -/
def lastMod (evs : List Event) : Nat := evs.foldl Event.modAfter 0

theorem lastMod_concat (evs : List Event) (ev : Event) :
    lastMod (evs ++ [ev]) = ev.modAfter (lastMod evs) := by
  simp only [lastMod, List.foldl_append, List.foldl_cons, List.foldl_nil]

theorem heldAfter_concat (evs : List Event) (ev : Event) :
    heldAfter (evs ++ [ev]) = ev.press (heldAfter evs) := by
  simp only [heldAfter, List.foldl_append, List.foldl_cons, List.foldl_nil]

theorem handleBytes_append (behind : Nat → Nat) (bytes' : List Nat) :
    ∀ (bytes : List Nat) (kbd : Kbd), (handleBytes behind (bytes ++ bytes') kbd).kbd
      = (handleBytes behind bytes' (handleBytes behind bytes kbd).kbd).kbd := by
  intro bytes
  induction bytes with
  | nil => exact fun kbd => rfl
  | cons b bytes ih => exact fun kbd => ih _

theorem kbdAfter_concat (behind : Nat → Nat) (evs : List Event) (ev : Event) :
    kbdAfter behind (evs ++ [ev]) = (handleBytes behind ev.bytes (kbdAfter behind evs)).kbd := by
  rw [kbdAfter, List.flatMap_append, handleBytes_append, kbdAfter]
  simp only [List.flatMap_cons, List.flatMap_nil, List.append_nil]

/-- Between two events the driver holds the modifier and nothing else. The
byte behind the table matters only once a key is broken. -/
theorem state_eq : ∀ evs : List Event, (∀ ev ∈ evs, ev.key < sc3Table.length) →
    ((∃ k, .brk k ∈ evs) → behind 0xf0 ≠ 0xe1 ∧ behind 0xf0 ≠ 0xe0) →
      kbdAfter behind evs = ⟨lastMod evs, true, true⟩ := by
  intro evs
  induction evs using List.reverseRecOn with
  | nil => exact fun _ _ => rfl
  | append_singleton evs ev ih =>
      intro hkeys hbehind
      have hbefore := ih (fun ev hev => hkeys ev (List.mem_append_left _ hev)) fun ⟨k, hk⟩ =>
        hbehind ⟨k, List.mem_append_left _ hk⟩
      have hkey := hkeys ev (List.mem_append_right _ (List.mem_singleton_self ev))
      rw [kbdAfter_concat, hbefore, lastMod_concat]
      cases ev with
      | make k =>
          rw [Event.bytes, handle_make (k := k) hkey]
          by_cases hmod : IsModifier k
          · rw [if_pos hmod]
          · obtain ⟨hk11, hk12⟩ := not_or.mp hmod
            rw [if_neg hmod, Event.modAfter, if_neg hk12, if_neg hk11]
      | brk k =>
          rw [Event.bytes, handle_brk (k := k) (hbehind ⟨k, List.mem_append_right _
            (List.mem_singleton_self _)⟩) hkey]

/-- While no key has been broken, the modifier is held. -/
theorem lastMod_held : ∀ evs : List Event, (∀ ev ∈ evs, ∃ k, ev = .make k) →
    HeldMod (heldAfter evs) (lastMod evs) := by
  intro evs
  induction evs using List.reverseRecOn with
  | nil => exact fun _ => .inl ⟨rfl, rfl, rfl⟩
  | append_singleton evs ev ih =>
      intro hmakes
      have hbefore := ih fun ev hev => hmakes ev (List.mem_append_left _ hev)
      obtain ⟨k, rfl⟩ := hmakes ev (List.mem_append_right _ (List.mem_singleton_self ev))
      rw [heldAfter_concat, lastMod_concat, Event.modAfter, Event.press]
      split_ifs with hk12 hk11
      · exact .inr (.inr ⟨rfl, hk12 ▸ Function.update_self ..⟩)
      · exact .inr (.inl ⟨rfl, hk11 ▸ Function.update_self ..⟩)
      · rw [HeldMod, Function.update_of_ne (Ne.symm hk11), Function.update_of_ne (Ne.symm hk12)]
        exact hbefore

/-- The modifier numbers a row of the keymap. -/
theorem lastMod_lt (evs : List Event) : lastMod evs < usKeymap.length := by
  induction evs using List.reverseRecOn with
  | nil => decide
  | append_singleton evs ev ih =>
      rw [lastMod_concat]
      cases ev with
      | make k =>
          rw [Event.modAfter]
          split_ifs
          · decide
          · decide
          · exact ih
      | brk k =>
          rw [Event.modAfter]
          split_ifs
          · decide
          · exact ih

/-- Every byte is looked up in the table. -/
theorem kbdHandler_looks (behind : Nat → Nat) (kbd : Kbd) (b : Nat) :
    .sc3 b ∈ (kbdHandler behind kbd b).lookups := by
  rw [kbdHandler]
  split_ifs <;> exact List.mem_cons_self ..

/-- What is typed is the string under a modifier that is held, and the tables
are accessed inside, exactly when every key that is made has an entry in the
table and none is ever broken. -/
theorem types_held_iff (behind : Nat → Nat) (evs : List Event) :
    (∀ pre ev post, evs = pre ++ ev :: post →
        TypesText behind pre ev ∧ LooksInside behind pre ev)
      ↔ ∀ ev ∈ evs, ∃ k < sc3Table.length, ev = .make k := by
  constructor
  · intro hall ev hev
    obtain ⟨pre, post, heq⟩ := List.append_of_mem hev
    have hinside := (hall pre ev post heq).2
    cases ev with
    | make k =>
        refine ⟨k, hinside (.sc3 k) (List.mem_append_left _ (kbdHandler_looks ..)), rfl⟩
    | brk k =>
        have hprefix := hinside (.sc3 0xf0) (List.mem_append_left _ (kbdHandler_looks ..))
        exact absurd rfl (ne_prefix_of_lt hprefix)
  · rintro hmakes pre ev post rfl
    have hpre : ∀ ev ∈ pre, ∃ k < sc3Table.length, ev = .make k := fun ev hev =>
      hmakes ev (List.mem_append_left _ hev)
    have hkbd : kbdAfter behind pre = ⟨lastMod pre, true, true⟩ := by
      refine state_eq pre (fun ev hev => ?_) fun ⟨k, hk⟩ => ?_
      · obtain ⟨k, hlt, rfl⟩ := hpre ev hev
        exact hlt
      · obtain ⟨k', -, heq⟩ := hpre _ hk
        cases heq
    obtain ⟨k, hk, rfl⟩ := hmakes ev (List.mem_append_right _ (List.mem_cons_self ..))
    have hrun := @handle_make behind (lastMod pre) k hk
    by_cases hmod : IsModifier k
    · rw [if_pos hmod] at hrun
      rw [TypesText, LooksInside, hkbd, Event.bytes, hrun]
      refine ⟨?_, fun l hl => ?_⟩
      · simp only [if_pos hmod]
      · rw [List.mem_singleton.mp hl]
        exact hk
    · rw [if_neg hmod] at hrun
      rw [TypesText, LooksInside, hkbd, Event.bytes, hrun]
      refine ⟨?_, fun l hl => ?_⟩
      · simp only [if_neg hmod]
        exact ⟨lastMod pre, lastMod_held pre fun ev hev => (hpre ev hev).imp fun _ h => h.2, rfl⟩
      · rcases List.mem_cons.mp hl with rfl | hl
        · exact hk
        · rw [List.mem_singleton.mp hl]
          exact ⟨lastMod_lt pre, (sc3Table_entry hk).1⟩

/-- The text alone. When what is behind the table is no modifier, it is right
exactly when no ordinary key is made while the modifier of the driver is not
one that is held: it is 0 from the moment one of two held modifiers is broken. -/
theorem types_text_iff (evs : List Event) (hbehind : behind 0xf0 ≠ 0xe1 ∧ behind 0xf0 ≠ 0xe0)
    (hkeys : ∀ ev ∈ evs, ev.key < sc3Table.length) :
    (∀ pre ev post, evs = pre ++ ev :: post → TypesText behind pre ev)
      ↔ ∀ pre k post, evs = pre ++ .make k :: post → ¬ IsModifier k →
          ∃ mod, HeldMod (heldAfter pre) mod ∧ textOf (lastMod pre) k = textOf mod k := by
  have hkbd : ∀ pre ev post, evs = pre ++ ev :: post →
      kbdAfter behind pre = ⟨lastMod pre, true, true⟩ ∧ ev.key < sc3Table.length := by
    rintro pre ev post rfl
    exact ⟨state_eq pre (fun ev hev => hkeys ev (List.mem_append_left _ hev)) fun _ => hbehind,
      hkeys ev (List.mem_append_right _ (List.mem_cons_self ..))⟩
  have hmake : ∀ pre k post, evs = pre ++ .make k :: post → (TypesText behind pre (.make k)
      ↔ ¬ IsModifier k →
        ∃ mod, HeldMod (heldAfter pre) mod ∧ textOf (lastMod pre) k = textOf mod k) := by
    intro pre k post heq
    obtain ⟨hbefore, hk⟩ := hkbd pre _ post heq
    have hrun := @handle_make behind (lastMod pre) k hk
    by_cases hmod : IsModifier k
    · rw [if_pos hmod] at hrun
      rw [TypesText, hbefore, Event.bytes, hrun]
      exact iff_of_true ((if_pos hmod).mpr rfl) fun hother => absurd hmod hother
    · rw [if_neg hmod] at hrun
      rw [TypesText, hbefore, Event.bytes, hrun]
      exact (Iff.of_eq (if_neg hmod)).trans ⟨fun htyped _ => htyped, fun htyped => htyped hmod⟩
  constructor
  · exact fun hall pre k post heq => (hmake pre k post heq).mp (hall pre _ post heq)
  · intro hall pre ev post heq
    cases ev with
    | make k => exact (hmake pre k post heq).mpr (hall pre k post heq)
    | brk k =>
        obtain ⟨hbefore, hk⟩ := hkbd pre _ post heq
        rw [TypesText, hbefore, Event.bytes, handle_brk (k := k) hbehind hk]

/-- The A key is made and broken. -/
theorem types_not_held :
    ¬ ∀ (behind : Nat → Nat) (evs : List Event), Valid evs → ∀ pre ev post,
      evs = pre ++ ev :: post → TypesText behind pre ev ∧ LooksInside behind pre ev := by
  intro hall
  have hvalid : Valid [.make 0x1c, .brk 0x1c] := by
    intro pre ev post heq
    rcases pre with - | ⟨ev₁, - | ⟨ev₂, pre⟩⟩
    · obtain ⟨rfl, -⟩ := List.cons.inj heq
      exact ⟨by decide, by decide, fun k hk => nomatch hk⟩
    · obtain ⟨rfl, htail⟩ := List.cons.inj heq
      obtain ⟨rfl, -⟩ := List.cons.inj htail
      refine ⟨by decide, by decide, fun k hk => ?_⟩
      obtain rfl := Event.brk.inj hk
      rfl
    · exact absurd (congrArg List.length heq) (by simp)
  have hinside := (hall (fun _ => 0) _ hvalid [.make 0x1c] (.brk 0x1c) [] rfl).2
  exact ne_prefix_of_lt (hinside (.sc3 0xf0) (List.mem_append_left _ (kbdHandler_looks ..))) rfl

end Keyboard

end Shitos
