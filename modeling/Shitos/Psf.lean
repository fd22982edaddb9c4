import Mathlib.Logic.Function.Basic
import Mathlib.Tactic.SplitIfs
import Shitos.Mem

/-!
# The font's Unicode table

`psf.c` keeps a font file as it was read and turns the table behind its glyphs
into a map from 16-bit characters to glyph indices. The table describes the
glyphs in order (`Desc`): single characters, sequences of characters, and an
end marker. The index of a character is that of the last glyph that lists it
(`lastIndex`).

The decoder of version 2 makes no difference between a character of a sequence
and a single one, takes the marker of a sequence for the character 0, and cuts
all characters to 16 bits (`Desc.Mentions`). The loop of version 1 stores the
word under the index, not the index under the word.
-/

namespace Shitos

/-- The bytes of `l` lie at `a`. -/
def Lies (m : Mem) : Nat → List UInt8 → Prop
  | _, [] => True
  | a, b :: l => m a = b ∧ Lies m (a + 1) l

theorem lies_append {m : Mem} {l l' : List UInt8} {a : Nat} :
    Lies m a (l ++ l') ↔ Lies m a l ∧ Lies m (a + l.length) l' := by
  induction l generalizing a with
  | nil => simp [Lies]
  | cons b l ih =>
      have hlen : a + 1 + l.length = a + (b :: l).length := by
        rw [List.length_cons]; omega
      rw [List.cons_append, Lies, Lies, ih, hlen, and_assoc]

/-! ## Font files -/

/-- `psf_file_t`. -/
structure Psf where
  sz : Nat
  utf16Map : Option (Nat → Nat)
  version : Nat
  file : Mem

namespace Psf

def psf1Magic : Nat := 0x0434

def psf1Mode512 : Nat := 0x01

def psf1ModeHasTab : Nat := 0x02

def psf1ModeSeq : Nat := 0x04

def psf2Magic : Nat := 0x864ab572

def psf2HasUnicodeTable : Nat := 0x00000001

/-- `sizeof(psf1_hdr_t)`. -/
def psf1HdrSz : Nat := 4

/-! The fields of `psf1_hdr_t` and `psf2_hdr_t`. -/

def fontMode (psf : Psf) : Nat := rd8 psf.file 2

def charSz (psf : Psf) : Nat := rd8 psf.file 3

def hdrSz (psf : Psf) : Nat := rd32 psf.file 8

def flags (psf : Psf) : Nat := rd32 psf.file 12

def numGlyphs (psf : Psf) : Nat := rd32 psf.file 16

def glyphSz (psf : Psf) : Nat := rd32 psf.file 20

def height (psf : Psf) : Nat := rd32 psf.file 24

def width (psf : Psf) : Nat := rd32 psf.file 28

/-- `psf_open`, given the size of the file and what `psf->file` holds: the file,
and what was in the memory behind it. -/
def psfOpen (sz : Nat) (file : Mem) : Option Psf :=
  if rd16 file 0 = psf1Magic then some { sz, utf16Map := none, version := 1, file }
  else if rd32 file 0 = psf2Magic then some { sz, utf16Map := none, version := 2, file }
  else none

/-- `hdr->font_mode & PSF1_MODE512 ? 512 : 256`. -/
def psf1NumGlyphs (psf : Psf) : Nat :=
  if psf.fontMode &&& psf1Mode512 ≠ 0 then 512 else 256

/-! ## `psf_generate_utf16_map` -/

/-- The loop for version 1 from `s - hdr` on: the map, and the offsets of the
bytes that were read. -/
def psf1Loop (psf : Psf) (s i : Nat) (map : Nat → Nat) : (Nat → Nat) × List Nat :=
  if s < psf.sz then
    let map := Function.update map i (rd16 psf.file s)
    let (map, reads) := psf.psf1Loop (s + 2) ((i + 1) % 2 ^ 16) map
    (map, s :: (s + 1) :: reads)
  else (map, [])
termination_by psf.sz - s

/-- The character at `s`, unless `s[0]` is 0xff, and the number of its bytes. -/
def decode (file : Mem) (s : Nat) : Nat × Nat :=
  let b := fun k => rd8 file (s + k)
  if b 0 &&& 0x80 = 0 then (b 0, 1)
  else if b 0 &&& 0x20 = 0 then
    ((((b 0 &&& 0x1f) <<< 6) + (b 1 &&& 0x3f)) % 2 ^ 16, 2)
  else if b 0 &&& 0x10 = 0 then
    ((((((b 0 &&& 0xf) <<< 6) + (b 1 &&& 0x3f)) <<< 6) + (b 2 &&& 0x3f)) % 2 ^ 16, 3)
  else if b 0 &&& 0x8 = 0 then
    ((((((((b 0 &&& 0x7) <<< 6) + (b 1 &&& 0x3f)) <<< 6) + (b 2 &&& 0x3f)) <<< 6)
      + (b 3 &&& 0x3f)) % 2 ^ 16, 4)
  else (0, 1)

theorem decode_pos (file : Mem) (s : Nat) : 0 < (decode file s).2 := by
  simp only [decode]
  split_ifs <;> exact Nat.succ_pos _

/-- The loop for version 2. -/
def psf2Loop (psf : Psf) (s i : Nat) (map : Nat → Nat) : (Nat → Nat) × List Nat :=
  if s < psf.sz then
    if rd8 psf.file s = 0xff then
      let (map, reads) := psf.psf2Loop (s + 1) ((i + 1) % 2 ^ 16) map
      (map, s :: reads)
    else
      let map := Function.update map (decode psf.file s).1 i
      let (map, reads) := psf.psf2Loop (s + (decode psf.file s).2) i map
      (map, List.range' s (decode psf.file s).2 ++ reads)
  else (map, [])
termination_by psf.sz - s
decreasing_by
  · omega
  · have hpos := decode_pos psf.file s
    omega

/-- `psf_generate_utf16_map`, and the offsets in the file of the bytes of the
table it reads. `fresh` is what `kmalloc` returns for the map. -/
def psfGenerateUtf16Map (fresh : Nat → Nat) (psf : Psf) : Psf × List Nat :=
  if psf.version = 1 then
    let s := (psf1HdrSz + psf.psf1NumGlyphs * psf.charSz) % 2 ^ 32
    let (map, reads) := psf.psf1Loop s 0 fresh
    ({ psf with utf16Map := some map }, reads)
  else if psf.version = 2 then
    let s := (psf.hdrSz + psf.glyphSz * psf.numGlyphs) % 2 ^ 32
    let (map, reads) := psf.psf2Loop s 0 fun _ => 0
    ({ psf with utf16Map := some map }, reads)
  else (psf, [])

/-! ## Glyph indices -/

/-- `psf_get_glyph_unicode`. -/
def psfGetGlyphUnicode (psf : Psf) (c : Nat) : Nat :=
  match psf.utf16Map with
  | none => 0
  | some map => map (c % 2 ^ 16)

/-- `psf_get_glyph`. -/
def psfGetGlyph (psf : Psf) (c : Nat) : Nat :=
  if psf.version = 1 then
    if psf.fontMode &&& (psf1ModeHasTab ||| psf1ModeSeq) ≠ 0 then psf.psfGetGlyphUnicode c
    else c
  else if psf.version = 2 then
    if psf.flags &&& psf2HasUnicodeTable ≠ 0 then psf.psfGetGlyphUnicode c else c
  else 0

/-! ## Glyph bitmaps -/

/-- `psf_get_bitmap`, as an offset in the file; `none` is its NULL. -/
def psfGetBitmap (psf : Psf) (glyph : Nat) : Option Nat :=
  if psf.version = 1 then
    let out := psf1HdrSz + glyph * psf.charSz
    if out < psf1HdrSz + psf.psf1NumGlyphs * psf.charSz then some out else none
  else if psf.version = 2 then
    if glyph < psf.numGlyphs then some ((psf.hdrSz + glyph * psf.glyphSz) % 2 ^ 32) else none
  else none

/-- `psf_get_width`. -/
def psfGetWidth (psf : Psf) : Nat :=
  if psf.version = 1 then 8 else if psf.version = 2 then psf.width else 0

/-- `psf_get_height`. -/
def psfGetHeight (psf : Psf) : Nat :=
  if psf.version = 1 then psf.charSz else if psf.version = 2 then psf.height else 0

/-- The offsets of the header fields that `psf_get_glyph` and `psf_get_bitmap`
read, for the glyph that the one hands to the other. -/
def headerReads (psf : Psf) (glyph : Nat) : List Nat :=
  if psf.version = 1 then [2, 3]
  else if psf.version = 2 then
    List.range' 12 8 ++ if glyph < psf.numGlyphs then List.range' 8 4 ++ List.range' 20 4 else []
  else []

end Psf

/-! ## Unicode tables -/

/-- The description of a glyph: its single characters and its sequences. -/
structure Desc where
  chars : List Char
  seqs : List (List Char)

/-- What a table is made of. -/
inductive Tok where
  | char (c : Char)
  | seq
  | stop

namespace Tok

/-- Version 1: a 16-bit word. -/
def word : Tok → Nat
  | .char c => c.toNat
  | .seq => 0xfffe
  | .stop => 0xffff

def bytes1 (t : Tok) : List UInt8 := [UInt8.ofNat t.word, UInt8.ofNat (t.word / 256)]

/-- Version 2: UTF-8. -/
def bytes2 : Tok → List UInt8
  | .char c => String.utf8EncodeChar c
  | .seq => [0xfe]
  | .stop => [0xff]

end Tok

namespace Desc

def toks (d : Desc) : List Tok :=
  d.chars.map .char ++ d.seqs.flatMap (fun cs => .seq :: cs.map .char) ++ [.stop]

/-- The characters are 16-bit words and none of the markers. -/
def Basic (d : Desc) : Prop := ∀ t ∈ d.toks, ∀ c, t = .char c → c.toNat < 0xfffe

/-- The glyph lists `c` among its single characters. -/
def Single (c : Nat) (d : Desc) : Prop := c ∈ d.chars.map Char.toNat

/-- What is left of a character in 16 bits. -/
def low (x : Char) : Nat := x.toNat % 2 ^ 16

/-- What the decoder of version 2 takes for `c`. -/
def Mentions (c : Nat) (d : Desc) : Prop :=
  c ∈ d.chars.map low ∨ ∃ cs ∈ d.seqs, c = 0 ∨ c ∈ cs.map low

instance (c : Nat) : DecidablePred (Single c) := fun _ => inferInstanceAs (Decidable (_ ∈ _))

instance (c : Nat) : DecidablePred (Mentions c) := fun _ => inferInstanceAs (Decidable (_ ∨ _))

end Desc

/-- `last`, or the index of the last element from `i` on that has `p`. -/
def lastFrom {α : Type} (p : α → Prop) [DecidablePred p] : Nat → Nat → List α → Nat
  | _, last, [] => last
  | i, last, x :: l => lastFrom p (i + 1) (if p x then i else last) l

/-- The index of the last element that has `p`, or 0. -/
def lastIndex {α : Type} (p : α → Prop) [DecidablePred p] (l : List α) : Nat :=
  lastFrom p 0 0 l

/-! ## Bytes of a table -/

theorem rd8_of_lies {m : Mem} {a n : Nat} {l : List UInt8} (h : Lies m a (UInt8.ofNat n :: l)) :
    rd8 m a = n % 2 ^ 8 := by
  rw [rd8, h.1, UInt8.toNat_ofNat']

theorem and_tail {x : Nat} (h : x < 64) : (x + 0x80) % 2 ^ 8 &&& 0x3f = x := by
  revert x; decide

theorem and_head2 {x : Nat} (h : x < 32) : (x + 0xc0) % 2 ^ 8 &&& 0x80 ≠ 0
    ∧ (x + 0xc0) % 2 ^ 8 &&& 0x20 = 0 ∧ (x + 0xc0) % 2 ^ 8 &&& 0x1f = x := by
  revert x; decide

theorem and_head3 {x : Nat} (h : x < 16) : (x + 0xe0) % 2 ^ 8 &&& 0x80 ≠ 0
    ∧ (x + 0xe0) % 2 ^ 8 &&& 0x20 ≠ 0 ∧ (x + 0xe0) % 2 ^ 8 &&& 0x10 = 0
    ∧ (x + 0xe0) % 2 ^ 8 &&& 0xf = x := by
  revert x; decide

theorem and_head4 {x : Nat} (h : x < 8) : (x + 0xf0) % 2 ^ 8 &&& 0x80 ≠ 0
    ∧ (x + 0xf0) % 2 ^ 8 &&& 0x20 ≠ 0 ∧ (x + 0xf0) % 2 ^ 8 &&& 0x10 ≠ 0
    ∧ (x + 0xf0) % 2 ^ 8 &&& 0x8 = 0 ∧ (x + 0xf0) % 2 ^ 8 &&& 0x7 = x := by
  revert x; decide

theorem and_head1 {x : Nat} (h : x < 128) : x % 2 ^ 8 &&& 0x80 = 0 := by
  revert x; decide

section Decode

variable {file : Mem} {s x y z w : Nat}

theorem decode_one (h : Lies file s [UInt8.ofNat x]) (hx : x < 128) :
    rd8 file s ≠ 0xff ∧ Psf.decode file s = (x % 2 ^ 16, 1) := by
  have hb := rd8_of_lies h
  have hhead := and_head1 hx
  refine ⟨by omega, ?_⟩
  simp only [Psf.decode, Nat.add_zero, hb]
  rw [if_pos hhead, Nat.mod_eq_of_lt (by omega), Nat.mod_eq_of_lt (by omega)]

theorem decode_two (h : Lies file s [UInt8.ofNat (x + 0xc0), UInt8.ofNat (y + 0x80)])
    (hx : x < 32) (hy : y < 64) :
    rd8 file s ≠ 0xff ∧ Psf.decode file s = ((64 * x + y) % 2 ^ 16, 2) := by
  have hb0 := rd8_of_lies h
  have hb1 := rd8_of_lies h.2
  obtain ⟨hbit, hbit', hhead⟩ := and_head2 hx
  refine ⟨by omega, ?_⟩
  simp only [Psf.decode, Nat.add_zero, hb0, hb1, if_neg hbit, if_pos hbit', hhead, and_tail hy,
    Nat.shiftLeft_eq]
  rw [Nat.mul_comm x]

theorem decode_three
    (h : Lies file s [UInt8.ofNat (x + 0xe0), UInt8.ofNat (y + 0x80), UInt8.ofNat (z + 0x80)])
    (hx : x < 16) (hy : y < 64) (hz : z < 64) :
    rd8 file s ≠ 0xff ∧ Psf.decode file s = ((64 * (64 * x + y) + z) % 2 ^ 16, 3) := by
  have hb0 := rd8_of_lies h
  have hb1 := rd8_of_lies h.2
  have hb2 := rd8_of_lies h.2.2
  obtain ⟨hbit, hbit', hbit'', hhead⟩ := and_head3 hx
  refine ⟨by omega, ?_⟩
  simp only [Psf.decode, Nat.add_zero, hb0, hb1, hb2, if_neg hbit, if_neg hbit', if_pos hbit'',
    hhead, and_tail hy, and_tail hz, Nat.shiftLeft_eq]
  rw [Nat.mul_comm x, Nat.mul_comm _ (2 ^ 6)]

theorem decode_four
    (h : Lies file s [UInt8.ofNat (x + 0xf0), UInt8.ofNat (y + 0x80), UInt8.ofNat (z + 0x80),
      UInt8.ofNat (w + 0x80)])
    (hx : x < 8) (hy : y < 64) (hz : z < 64) (hw : w < 64) :
    rd8 file s ≠ 0xff
      ∧ Psf.decode file s = ((64 * (64 * (64 * x + y) + z) + w) % 2 ^ 16, 4) := by
  have hb0 := rd8_of_lies h
  have hb1 := rd8_of_lies h.2
  have hb2 := rd8_of_lies h.2.2
  have hb3 := rd8_of_lies h.2.2.2
  obtain ⟨hbit, hbit', hbit'', hbit3, hhead⟩ := and_head4 hx
  refine ⟨by omega, ?_⟩
  simp only [Psf.decode, Nat.add_zero, hb0, hb1, hb2, hb3, if_neg hbit, if_neg hbit',
    if_neg hbit'', if_pos hbit3, hhead, and_tail hy, and_tail hz, and_tail hw, Nat.shiftLeft_eq]
  rw [Nat.mul_comm x, Nat.mul_comm _ (2 ^ 6), Nat.mul_comm _ (2 ^ 6)]

end Decode

/-- The decoder gets a character right, in its low 16 bits. -/
theorem decode_char {file : Mem} {s : Nat} {c : Char}
    (h : Lies file s (String.utf8EncodeChar c)) :
    rd8 file s ≠ 0xff
      ∧ Psf.decode file s = (c.toNat % 2 ^ 16, (String.utf8EncodeChar c).length) := by
  have hmax : c.toNat < 0x110000 := by
    rcases c.valid with hc | hc
    · exact Nat.lt_of_lt_of_le hc (by decide)
    · exact hc.2
  unfold String.utf8EncodeChar at h ⊢
  simp only [show c.val.toNat = c.toNat from rfl] at h ⊢
  split_ifs at h ⊢ with h1 h2 h3
  · exact decode_one h (by omega)
  · have hd := decode_two h (by omega) (by omega)
    have hval : 64 * (c.toNat / 64 % 32) + c.toNat % 64 = c.toNat := by omega
    rw [hval] at hd
    exact hd
  · have hd := decode_three h (by omega) (by omega) (by omega)
    have hval : 64 * (64 * (c.toNat / 4096 % 16) + c.toNat / 64 % 64) + c.toNat % 64
        = c.toNat := by omega
    rw [hval] at hd
    exact hd
  · have hd := decode_four h (by omega) (by omega) (by omega) (by omega)
    have hval : 64 * (64 * (64 * (c.toNat / 262144 % 8) + c.toNat / 4096 % 64)
        + c.toNat / 64 % 64) + c.toNat % 64 = c.toNat := by omega
    rw [hval] at hd
    exact hd

/-- The marker of a sequence is none of the four lengths. -/
theorem decode_seq {file : Mem} {s : Nat} (h : Lies file s [0xfe]) :
    rd8 file s ≠ 0xff ∧ Psf.decode file s = (0, 1) := by
  have hb : rd8 file s = 0xfe := @rd8_of_lies file s 0xfe [] h
  refine ⟨by omega, ?_⟩
  simp only [Psf.decode, Nat.add_zero, hb]
  rfl

/-! ## What the decoder does with a table -/

/-- A turn of the loop for version 2. -/
def Tok.enter : Nat × (Nat → Nat) → Tok → Nat × (Nat → Nat)
  | (i, map), .char c => (i, Function.update map (Desc.low c) i)
  | (i, map), .seq => (i, Function.update map 0 i)
  | (i, map), .stop => ((i + 1) % 2 ^ 16, map)

theorem psf2Loop_tok {psf : Psf} {s i : Nat} {map : Nat → Nat} {t : Tok}
    (h : Lies psf.file s t.bytes2) (hs : s < psf.sz) :
    psf.psf2Loop s i map =
      let (i', map') := t.enter (i, map)
      let (map'', reads) := psf.psf2Loop (s + t.bytes2.length) i' map'
      (map'', List.range' s t.bytes2.length ++ reads) := by
  rw [Psf.psf2Loop, if_pos hs]
  cases t with
  | char c =>
      obtain ⟨hne, hdec⟩ := decode_char h
      rw [if_neg hne, hdec]
      rfl
  | seq =>
      obtain ⟨hne, hdec⟩ := decode_seq h
      rw [if_neg hne, hdec]
      rfl
  | stop =>
      have hb : rd8 psf.file s = 0xff := @rd8_of_lies psf.file s 0xff [] h
      rw [if_pos hb]
      rfl

theorem Tok.bytes2_pos (t : Tok) : 0 < t.bytes2.length := by
  cases t with
  | char c => exact List.length_pos_iff.mpr String.utf8EncodeChar_ne_nil
  | seq => exact Nat.one_pos
  | stop => exact Nat.one_pos

/-- The loop takes the table token by token, and reads each byte of it once. -/
theorem psf2Loop_toks {psf : Psf} {ts : List Tok} {s i : Nat} {map : Nat → Nat}
    (h : Lies psf.file s (ts.flatMap Tok.bytes2))
    (hsz : psf.sz = s + (ts.flatMap Tok.bytes2).length) :
    psf.psf2Loop s i map
      = ((ts.foldl Tok.enter (i, map)).2, List.range' s (ts.flatMap Tok.bytes2).length) := by
  induction ts generalizing s i map with
  | nil =>
      rw [Psf.psf2Loop, if_neg (by simp only [List.flatMap_nil, List.length_nil] at hsz; omega)]
      rfl
  | cons t ts ih =>
      rw [List.flatMap_cons] at h hsz ⊢
      rw [List.length_append] at hsz
      obtain ⟨ht, hts⟩ := lies_append.mp h
      have hpos := t.bytes2_pos
      rw [psf2Loop_tok ht (by omega), List.foldl_cons]
      simp only [ih hts (by omega), List.length_append]
      rw [Nat.add_comm s t.bytes2.length, Nat.add_comm t.bytes2.length s, List.range'_append_1]

/-- Of two stores of the same value only their union matters. -/
theorem ite_later {p q : Prop} [Decidable p] [Decidable q] [Decidable (p ∨ q)] (i v : Nat) :
    (if q then i else if p then i else v) = if p ∨ q then i else v := by
  by_cases hq : q
  · rw [if_pos hq, if_pos (Or.inr hq)]
  · rw [if_neg hq]
    exact if_congr (by simp only [hq, or_false]) rfl rfl

/-- The entry of `c` after single characters of glyph `i`. -/
theorem enter_chars (l : List Char) (i : Nat) (map : Nat → Nat) :
    (l.map Tok.char).foldl Tok.enter (i, map)
      = (i, fun c => if c ∈ l.map Desc.low then i else map c) := by
  induction l generalizing map with
  | nil => simp
  | cons x l ih =>
      rw [List.map_cons, List.foldl_cons, Tok.enter, ih]
      refine Prod.ext rfl (funext fun c => ?_)
      simp only [Function.update_apply, List.map_cons, List.mem_cons]
      exact ite_later i (map c)

theorem enter_seqs (l : List (List Char)) (i : Nat) (map : Nat → Nat) :
    (l.flatMap fun cs => Tok.seq :: cs.map Tok.char).foldl Tok.enter (i, map)
      = (i, fun c => if ∃ cs ∈ l, c = 0 ∨ c ∈ cs.map Desc.low then i else map c) := by
  induction l generalizing map with
  | nil => simp
  | cons cs l ih =>
      rw [List.flatMap_cons, List.foldl_append, List.foldl_cons, Tok.enter, enter_chars, ih]
      refine Prod.ext rfl (funext fun c => ?_)
      simp only [Function.update_apply, List.mem_cons, exists_eq_or_imp]
      rw [ite_later i (map c)]
      exact ite_later i (map c)

theorem enter_desc (d : Desc) (i : Nat) (map : Nat → Nat) :
    d.toks.foldl Tok.enter (i, map)
      = ((i + 1) % 2 ^ 16, fun c => if d.Mentions c then i else map c) := by
  rw [Desc.toks, List.foldl_append, List.foldl_append, enter_chars, enter_seqs]
  refine Prod.ext rfl (funext fun c => ?_)
  exact ite_later i (map c)

/-- The entry of `c` after the glyphs from `n` on. -/
theorem enter_glyphs {gs : List Desc} {c n last : Nat} {map : Nat → Nat}
    (h : map c = last % 2 ^ 16) :
    ((gs.flatMap Desc.toks).foldl Tok.enter (n % 2 ^ 16, map)).2 c
      = lastFrom (Desc.Mentions c) n last gs % 2 ^ 16 := by
  induction gs generalizing n last map with
  | nil => exact h
  | cons d gs ih =>
      rw [List.flatMap_cons, List.foldl_append, enter_desc, Nat.mod_add_mod, lastFrom]
      refine ih ?_
      split_ifs
      · rfl
      · exact h

/-- A turn of the loop for version 1. -/
def Tok.enter1 (p : Nat × (Nat → Nat)) (t : Tok) : Nat × (Nat → Nat) :=
  ((p.1 + 1) % 2 ^ 16, Function.update p.2 p.1 t.word)

theorem rd16_of_lies {m : Mem} {a n : Nat} {l : List UInt8} (hn : n < 2 ^ 16)
    (h : Lies m a (UInt8.ofNat n :: UInt8.ofNat (n / 256) :: l)) : rd16 m a = n := by
  rw [rd16, rd8_of_lies h, rd8_of_lies h.2]
  omega

theorem psf1Loop_toks {psf : Psf} {ts : List Tok} {s i : Nat} {map : Nat → Nat}
    (hword : ∀ t ∈ ts, t.word < 2 ^ 16) (h : Lies psf.file s (ts.flatMap Tok.bytes1))
    (hsz : psf.sz = s + (ts.flatMap Tok.bytes1).length) :
    psf.psf1Loop s i map
      = ((ts.foldl Tok.enter1 (i, map)).2, List.range' s (ts.flatMap Tok.bytes1).length) := by
  induction ts generalizing s i map with
  | nil =>
      rw [Psf.psf1Loop, if_neg (by simp only [List.flatMap_nil, List.length_nil] at hsz; omega)]
      rfl
  | cons t ts ih =>
      rw [List.flatMap_cons] at h hsz ⊢
      rw [List.length_append] at hsz
      obtain ⟨ht, hts⟩ := lies_append.mp h
      have hlen : t.bytes1.length = 2 := rfl
      rw [Psf.psf1Loop, if_pos (by omega), rd16_of_lies (hword t List.mem_cons_self) ht]
      rw [hlen] at hts
      simp only [ih (fun t' hmem => hword t' (List.mem_cons_of_mem _ hmem)) hts (by omega)]
      rw [List.length_append, hlen, Nat.add_comm 2, List.range'_succ, List.range'_succ]
      rfl

theorem enter1_fst (ts : List Tok) {p : Nat × (Nat → Nat)} (h : p.1 < 2 ^ 16) :
    (ts.foldl Tok.enter1 p).1 < 2 ^ 16 := by
  induction ts generalizing p with
  | nil => exact h
  | cons t ts ih => exact ih (Nat.mod_lt _ (by decide))

/-- A table ends with a marker. -/
theorem toks_concat {gs : List Desc} (h : gs ≠ []) :
    ∃ ts, gs.flatMap Desc.toks = ts ++ [Tok.stop] := by
  rw [← List.dropLast_concat_getLast h, List.flatMap_append, List.flatMap_singleton, Desc.toks,
    ← List.append_assoc]
  exact ⟨_, rfl⟩

theorem lastFrom_le {α : Type} {p : α → Prop} [DecidablePred p] {l : List α} {i last : Nat}
    (h : last ≤ i) : lastFrom p i last l ≤ i + l.length := by
  induction l generalizing i last with
  | nil => exact h
  | cons x l ih =>
      have hstep : (if p x then i else last) ≤ i + 1 := by
        split_ifs <;> omega
      have hle := ih hstep
      rw [lastFrom, List.length_cons]
      omega

/-! ## Well-formed fonts -/

/-- A PSF1 font with a table of its glyphs. -/
structure Psf.Psf1Table (psf : Psf) (gs : List Desc) : Prop where
  version : psf.version = 1
  mode : psf.fontMode &&& (psf1ModeHasTab ||| psf1ModeSeq) ≠ 0
  glyphs : gs.length = psf.psf1NumGlyphs
  basic : ∀ d ∈ gs, d.Basic
  table : Lies psf.file (psf1HdrSz + psf.psf1NumGlyphs * psf.charSz)
    ((gs.flatMap Desc.toks).flatMap Tok.bytes1)
  size : psf.sz = psf1HdrSz + psf.psf1NumGlyphs * psf.charSz
    + ((gs.flatMap Desc.toks).flatMap Tok.bytes1).length
  word : psf.sz < 2 ^ 32

/-- A PSF2 font with a table of its glyphs. -/
structure Psf.Psf2Table (psf : Psf) (gs : List Desc) : Prop where
  version : psf.version = 2
  flag : psf.flags &&& psf2HasUnicodeTable ≠ 0
  glyphs : gs.length = psf.numGlyphs
  table : Lies psf.file (psf.hdrSz + psf.glyphSz * psf.numGlyphs)
    ((gs.flatMap Desc.toks).flatMap Tok.bytes2)
  size : psf.sz = psf.hdrSz + psf.glyphSz * psf.numGlyphs
    + ((gs.flatMap Desc.toks).flatMap Tok.bytes2).length
  word : psf.sz < 2 ^ 32

/-- The table of version 2: all of it is read, once, and the entry of a character
is the last glyph that mentions it. -/
theorem Psf.Psf2Table.map {psf : Psf} {gs : List Desc} (h : psf.Psf2Table gs)
    (fresh : Nat → Nat) :
    (psf.psfGenerateUtf16Map fresh).2 = List.range' (psf.hdrSz + psf.glyphSz * psf.numGlyphs)
        (psf.sz - (psf.hdrSz + psf.glyphSz * psf.numGlyphs))
      ∧ ∀ c < 2 ^ 16, (psf.psfGenerateUtf16Map fresh).1.psfGetGlyphUnicode c
          = lastIndex (Desc.Mentions c) gs % 2 ^ 16 := by
  have hstart : (psf.hdrSz + psf.glyphSz * psf.numGlyphs) % 2 ^ 32
      = psf.hdrSz + psf.glyphSz * psf.numGlyphs := by
    have hsize := h.size
    have hword := h.word
    exact Nat.mod_eq_of_lt (by omega)
  have hlen : psf.sz - (psf.hdrSz + psf.glyphSz * psf.numGlyphs)
      = ((gs.flatMap Desc.toks).flatMap Tok.bytes2).length := by
    have hsize := h.size
    omega
  have hrun := @psf2Loop_toks psf _ _ 0 (fun _ => 0) h.table h.size
  unfold Psf.psfGenerateUtf16Map
  rw [if_neg (by rw [h.version]; decide), if_pos h.version, hstart, hlen]
  simp only [hrun, true_and]
  intro c hc
  simp only [Psf.psfGetGlyphUnicode, Nat.mod_eq_of_lt hc]
  exact @enter_glyphs gs c 0 0 (fun _ => 0) rfl

/-- The table of version 1: all of it is read, and some entry is the end marker. -/
theorem Psf.Psf1Table.map {psf : Psf} {gs : List Desc} (h : psf.Psf1Table gs)
    (fresh : Nat → Nat) :
    (psf.psfGenerateUtf16Map fresh).2 = List.range' (psf1HdrSz + psf.psf1NumGlyphs * psf.charSz)
        (psf.sz - (psf1HdrSz + psf.psf1NumGlyphs * psf.charSz))
      ∧ ∃ c < 2 ^ 16, (psf.psfGenerateUtf16Map fresh).1.psfGetGlyphUnicode c = 0xffff := by
  have hstart : (psf1HdrSz + psf.psf1NumGlyphs * psf.charSz) % 2 ^ 32
      = psf1HdrSz + psf.psf1NumGlyphs * psf.charSz := by
    have hsize := h.size
    have hword := h.word
    exact Nat.mod_eq_of_lt (by omega)
  have hlen : psf.sz - (psf1HdrSz + psf.psf1NumGlyphs * psf.charSz)
      = ((gs.flatMap Desc.toks).flatMap Tok.bytes1).length := by
    have hsize := h.size
    omega
  have hwords : ∀ t ∈ gs.flatMap Desc.toks, t.word < 2 ^ 16 := by
    intro t hmem
    obtain ⟨d, hd, ht⟩ := List.mem_flatMap.mp hmem
    cases t with
    | char c => exact Nat.lt_trans (h.basic d hd _ ht c rfl) (by decide)
    | seq => decide
    | stop => decide
  have hne : gs ≠ [] := by
    rintro rfl
    have hglyphs := h.glyphs
    unfold Psf.psf1NumGlyphs at hglyphs
    split_ifs at hglyphs
  obtain ⟨ts, hts⟩ := toks_concat hne
  have hrun := @psf1Loop_toks psf _ _ 0 fresh hwords h.table h.size
  have hlast := @enter1_fst ts (0, fresh) (Nat.two_pow_pos 16)
  unfold Psf.psfGenerateUtf16Map
  rw [if_pos h.version, hstart, hlen]
  simp only [hrun, true_and]
  refine ⟨_, hlast, ?_⟩
  simp only [Psf.psfGetGlyphUnicode, Nat.mod_eq_of_lt hlast, hts, List.foldl_append,
    List.foldl_cons, List.foldl_nil, Tok.enter1, Function.update_self]
  rfl

/-! ## The map -/

/-- The map has the index of the last glyph that lists `c`. -/
def Decoded (psf : Psf) (gs : List Desc) (c : Nat) : Prop :=
  psf.psfGetGlyphUnicode c = lastIndex (Desc.Single c) gs

/-- The last glyph that mentions `c` is, in 16 bits, the last one that lists it. -/
def Plain (gs : List Desc) (c : Nat) : Prop :=
  lastIndex (Desc.Mentions c) gs % 2 ^ 16 = lastIndex (Desc.Single c) gs

theorem Desc.Single.mentions {c : Nat} {d : Desc} (hc : c < 2 ^ 16) (h : d.Single c) :
    d.Mentions c := by
  obtain ⟨x, hmem, hx⟩ := List.mem_map.mp h
  exact Or.inl (List.mem_map.mpr ⟨x, hmem, by rw [low, hx, Nat.mod_eq_of_lt hc]⟩)

theorem lastFrom_congr {α : Type} {p p' : α → Prop} [DecidablePred p] [DecidablePred p']
    {l : List α} (h : ∀ x ∈ l, (p x ↔ p' x)) (i last : Nat) :
    lastFrom p i last l = lastFrom p' i last l := by
  induction l generalizing i last with
  | nil => rfl
  | cons x l ih =>
      rw [lastFrom, lastFrom, if_congr (h x List.mem_cons_self) rfl rfl]
      exact ih (fun y hmem => h y (List.mem_cons_of_mem _ hmem)) _ _

theorem lastFrom_lt {α : Type} {p : α → Prop} [DecidablePred p] {l : List α} {i last : Nat}
    (h : last < i + l.length) : lastFrom p i last l < i + l.length := by
  induction l generalizing i last with
  | nil => exact h
  | cons x l ih =>
      rw [List.length_cons] at h ⊢
      have hstep : (if p x then i else last) < i + 1 + l.length := by
        split_ifs <;> omega
      have hlt := ih hstep
      rw [lastFrom]
      omega

/-- Where the glyphs that mention `c` all list it, and their indices are 16-bit
numbers. -/
theorem plain_of_single {gs : List Desc} {c : Nat} (hc : c < 2 ^ 16) (hlen : gs.length ≤ 2 ^ 16)
    (h : ∀ d ∈ gs, d.Mentions c → d.Single c) : Plain gs c := by
  have hsame : lastIndex (Desc.Mentions c) gs = lastIndex (Desc.Single c) gs :=
    lastFrom_congr (fun d hmem => ⟨h d hmem, fun hd => hd.mentions hc⟩) 0 0
  have hlt : lastIndex (Desc.Single c) gs < 2 ^ 16 := by
    cases gs with
    | nil => exact Nat.two_pow_pos 16
    | cons d gs =>
        have hlast := @lastFrom_lt _ (Desc.Single c) _ (d :: gs) 0 0
          (Nat.lt_add_left _ (Nat.succ_pos _))
        exact Nat.lt_of_lt_of_le hlast (by omega)
  rw [Plain, hsame, Nat.mod_eq_of_lt hlt]

/-- `psf_generate_utf16_map` on a well-formed font stays in the file. The map of a
PSF2 font is right for just the characters whose last mention is a listing; that
of a PSF1 font is never right. -/
theorem decoded_iff {psf psf' : Psf} {gs : List Desc} {fresh : Nat → Nat} {reads : List Nat}
    (htable : psf.Psf1Table gs ∨ psf.Psf2Table gs)
    (hgen : psf.psfGenerateUtf16Map fresh = (psf', reads)) :
    (∀ a ∈ reads, a < psf.sz)
      ∧ (psf.version = 2 → ∀ c < 2 ^ 16, (Decoded psf' gs c ↔ Plain gs c))
      ∧ ((∀ c < 2 ^ 16, Decoded psf' gs c) ↔ psf.version = 2 ∧ ∀ c < 2 ^ 16, Plain gs c) := by
  rcases htable with h | h
  · obtain ⟨hreads, c, hc, hmap⟩ := h.map fresh
    rw [hgen] at hreads hmap
    have hne : psf.version ≠ 2 := by
      rw [h.version]; decide
    have hwrong : ¬ Decoded psf' gs c := by
      intro hdec
      have hle := @lastFrom_le _ (Desc.Single c) _ gs 0 0 (Nat.le_refl 0)
      have heq : lastIndex (Desc.Single c) gs = 0xffff := hdec.symm.trans hmap
      have hlen : gs.length ≤ 512 := by
        rw [h.glyphs, Psf.psf1NumGlyphs]
        split_ifs <;> decide
      unfold lastIndex at heq
      omega
    refine ⟨fun a hmem => ?_, fun hv => absurd hv hne, ?_⟩
    · rw [show reads = _ from hreads, List.mem_range'_1] at hmem
      have hsize := h.size
      omega
    · exact ⟨fun hall => absurd (hall c hc) hwrong, fun hv => absurd hv.1 hne⟩
  · obtain ⟨hreads, hmap⟩ := h.map fresh
    rw [hgen] at hreads hmap
    have hiff : ∀ c < 2 ^ 16, (Decoded psf' gs c ↔ Plain gs c) := by
      intro c hc
      rw [Decoded, show psf'.psfGetGlyphUnicode c = _ from hmap c hc, Plain]
    refine ⟨fun a hmem => ?_, fun _ => hiff, ?_⟩
    · rw [show reads = _ from hreads, List.mem_range'_1] at hmem
      have hsize := h.size
      omega
    · exact ⟨fun hall => ⟨h.version, fun c hc => (hiff c hc).mp (hall c hc)⟩,
        fun hall c hc => (hiff c hc).mpr (hall.2 c hc)⟩

/-- A PSF2 font of 8 by 1 pixels, with the bytes behind its header. -/
def psf2Font (n : Nat) (l : List UInt8) : Psf :=
  { sz := 32 + l.length
    utf16Map := none
    version := 2
    file := fun i =>
      ([0x72, 0xb5, 0x4a, 0x86, 0, 0, 0, 0, 32, 0, 0, 0, 1, 0, 0, 0, UInt8.ofNat n, 0, 0, 0,
        1, 0, 0, 0, 1, 0, 0, 0, 8, 0, 0, 0] ++ l).getD i 0 }

/-- One glyph, for `A`. -/
theorem decoded_iff_one :
    Decoded ((psf2Font 1 [0, 65, 255]).psfGenerateUtf16Map fun _ => 7).1
      [{ chars := ['A'], seqs := [] }] 65 ↔ Plain [{ chars := ['A'], seqs := [] }] 65 := by
  have htable : (psf2Font 1 [0, 65, 255]).Psf2Table [{ chars := ['A'], seqs := [] }] :=
    ⟨rfl, by decide, rfl, ⟨rfl, rfl, trivial⟩, rfl, by decide⟩
  exact (decoded_iff (Or.inr htable) (Prod.eta _).symm).2.1 rfl 65 (by decide)

/-- Glyph 0 is for `A`, glyph 1 for the sequence of `A` and `B`. -/
theorem not_decoded :
    ¬ ∀ (sz : Nat) (file : Mem) (psf psf' : Psf) (gs : List Desc) (fresh : Nat → Nat)
        (reads : List Nat), Psf.psfOpen sz file = some psf →
      psf.Psf1Table gs ∨ psf.Psf2Table gs → psf.psfGenerateUtf16Map fresh = (psf', reads) →
      ∀ c < 2 ^ 16, Decoded psf' gs c := by
  intro hall
  have htable : (psf2Font 2 [0, 0, 65, 255, 254, 65, 66, 255]).Psf2Table
      [{ chars := ['A'], seqs := [] }, { chars := [], seqs := [['A', 'B']] }] :=
    ⟨rfl, by decide, rfl, ⟨rfl, rfl, rfl, rfl, rfl, rfl, trivial⟩, rfl, by decide⟩
  have hopen : Psf.psfOpen 40 (psf2Font 2 [0, 0, 65, 255, 254, 65, 66, 255]).file
      = some (psf2Font 2 [0, 0, 65, 255, 254, 65, 66, 255]) := rfl
  have hdec := hall 40 _ _ _ _ (fun _ => 0) _ hopen (Or.inr htable) (Prod.eta _).symm 65
    (by decide)
  rw [Decoded, (htable.map fun _ => 0).2 65 (by decide)] at hdec
  exact absurd hdec (by decide)

end Shitos
