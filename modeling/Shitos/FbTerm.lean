import Shitos.Psf

/-!
# Characters on the framebuffer

`fb_term_render_char` draws the bitmap of a glyph, row by row; each row begins
with a new byte. It checks nothing: neither whether `psf_get_bitmap` has a
bitmap for the glyph, nor where in the file the bitmap ends. `psf_open` has
not checked the header either, so what a character needs of the file is
`Font.GlyphInside`, and `renders_iff` says that it needs all of it.
-/

namespace Shitos

namespace FbTerm

/-- `psf_font`, `font_w` and `font_h`, and the size of the terminal in
`ansi_ctx`. -/
structure Font where
  psf : Psf
  fontW : Nat
  fontH : Nat
  width : Nat
  height : Nat

/-- `fb_term_load_font`, for a file of size `sz`; `none` also where a division by
a dimension of the font faults. -/
def fbTermLoadFont (fresh : Nat → Nat) (fbWidth fbHeight sz : Nat) (file : Mem) : Option Font :=
  (Psf.psfOpen sz file).bind fun psf =>
    let psf := (psf.psfGenerateUtf16Map fresh).1
    let fontW := psf.psfGetWidth
    let fontH := psf.psfGetHeight
    if fontW = 0 ∨ fontH = 0 then none
    else some { psf, fontW, fontH, width := fbWidth / fontW, height := fbHeight / fontH }

/-! ## `fb_term_render_char` -/

/-- The variables of the loops: the framebuffer, `bm` as an offset in the file,
`mask` and `mask_i`, and the offsets that were read. -/
structure Draw where
  pixels : Nat → Nat
  bm : Nat
  mask : Nat
  maskI : Nat
  reads : List Nat

/-- `mask = *bm++, mask_i = 0`. -/
def Draw.next (file : Mem) (r : Draw) : Draw :=
  { r with mask := rd8 file r.bm, maskI := 0, bm := (r.bm + 1) % 2 ^ 32,
           reads := r.reads ++ [r.bm] }

/-- The arguments of `fb_term_render_char`, and `fb_width`. -/
structure Place where
  fbWidth : Nat
  curX : Nat
  curY : Nat
  fg : Nat
  bg : Nat

/-- The index of a pixel: `start[x + y*fb_width]`. -/
def Place.pixel (p : Place) (font : Font) (x y : Nat) : Nat :=
  (p.curX * font.fontW + p.curY * font.fontH * p.fbWidth + (x + y * p.fbWidth)) % 2 ^ 30

/-- A turn of the inner loop. -/
def drawPixel (font : Font) (p : Place) (y : Nat) (r : Draw) (x : Nat) : Draw :=
  let r := if r.maskI > 7 then r.next font.psf.file else r
  { r with
    pixels := Function.update r.pixels (p.pixel font x y)
      (if r.mask &&& 0x80 ≠ 0 then p.fg else p.bg)
    mask := r.mask <<< 1 % 2 ^ 8
    maskI := (r.maskI + 1) % 2 ^ 8 }

/-- A turn of the outer loop. -/
def drawRow (font : Font) (p : Place) (r : Draw) (y : Nat) : Draw :=
  (List.range font.fontW).foldl (drawPixel font p y) (r.next font.psf.file)

/-- The argument of `psf_get_bitmap`. -/
def Font.glyph (font : Font) (uc : Nat) : Nat := font.psf.psfGetGlyph uc % 2 ^ 16

/-- `fb_term_render_char`; `none` is a NULL bitmap, which the loops would read. -/
def fbTermRenderChar (font : Font) (p : Place) (uc : Nat) (pixels : Nat → Nat) : Option Draw :=
  (font.psf.psfGetBitmap (font.glyph uc)).map fun bm =>
    (List.range font.fontH).foldl (drawRow font p)
      { pixels, bm, mask := 0, maskI := 0, reads := font.psf.headerReads (font.glyph uc) }

/-! ## What is read -/

/-- The `n` bytes from `bm` on. -/
def consumed (bm n : Nat) : List Nat := (List.range n).map fun j => (bm + j) % 2 ^ 32

theorem consumed_succ (bm n : Nat) :
    consumed bm (n + 1) = consumed bm n ++ [(bm + n) % 2 ^ 32] := by
  rw [consumed, List.range_succ, List.map_append]
  rfl

theorem consumed_add (bm n n' : Nat) :
    consumed bm (n + n') = consumed bm n ++ consumed ((bm + n) % 2 ^ 32) n' := by
  induction n' with
  | zero => simp [consumed]
  | succ n' ih =>
      rw [← Nat.add_assoc, consumed_succ, ih, consumed_succ, List.append_assoc, Nat.mod_add_mod,
        Nat.add_assoc]

/-- The bytes are below `sz` just if the last one is. -/
theorem consumed_below {bm n sz : Nat} (hbm : bm < 2 ^ 32) (hsz : sz < 2 ^ 32) (hn : 0 < n) :
    (∀ a ∈ consumed bm n, a < sz) ↔ bm + n ≤ sz := by
  simp only [consumed, List.mem_map, List.mem_range]
  constructor
  · intro h
    by_contra hgt
    by_cases hstart : sz ≤ bm
    · have hfirst := h _ ⟨0, hn, rfl⟩
      rw [Nat.add_zero, Nat.mod_eq_of_lt hbm] at hfirst
      omega
    · have hend := h _ ⟨sz - bm, by omega, rfl⟩
      rw [Nat.add_sub_cancel' (by omega), Nat.mod_eq_of_lt hsz] at hend
      omega
  · rintro hle a ⟨j, hj, rfl⟩
    rw [Nat.mod_eq_of_lt (by omega)]
    omega

/-- After `x` pixels of a row, whose first byte was at `bm`. -/
structure InRow (bm x : Nat) (before : List Nat) (r : Draw) : Prop where
  pos : r.bm = (bm + (1 + (x - 1) / 8)) % 2 ^ 32
  maskI : r.maskI = if x = 0 then 0 else (x - 1) % 8 + 1
  reads : r.reads = before ++ consumed bm (1 + (x - 1) / 8)

theorem InRow.next {font : Font} {p : Place} {bm x y : Nat} {before : List Nat} {r : Draw}
    (h : InRow bm x before r) : InRow bm (x + 1) before (drawPixel font p y r x) := by
  have hmask := h.maskI
  have hlen : 1 + (x + 1 - 1) / 8 = 1 + x / 8 := rfl
  unfold drawPixel
  by_cases hfull : r.maskI > 7
  · -- the byte is used up: `x` is a positive multiple of 8
    have hx : x % 8 = 0 ∧ 0 < x := by
      split_ifs at hmask <;> omega
    have hstep : 1 + x / 8 = 1 + (x - 1) / 8 + 1 := by omega
    rw [if_pos hfull]
    refine ⟨?_, ?_, ?_⟩
    · simp only [Draw.next, h.pos, hlen, hstep, Nat.mod_add_mod, Nat.add_assoc]
    · simp only [Draw.next, Nat.add_sub_cancel, Nat.succ_ne_zero, if_false, hx.1]
      rfl
    · simp only [Draw.next, h.pos, h.reads, hlen, hstep, consumed_succ, List.append_assoc]
  · have hstep : 1 + x / 8 = 1 + (x - 1) / 8 := by
      split_ifs at hmask <;> omega
    rw [if_neg hfull]
    refine ⟨?_, ?_, ?_⟩
    · simp only [h.pos, hlen, hstep]
    · simp only [Nat.add_sub_cancel, Nat.succ_ne_zero, if_false]
      split_ifs at hmask <;> omega
    · simp only [h.reads, hlen, hstep]

/-- The bytes of a row. -/
def rowBytes (w : Nat) : Nat := (w + 7) / 8

theorem drawRow_reads {font : Font} (p : Place) (hw : 0 < font.fontW) (r : Draw) (y : Nat)
    (hbm : r.bm < 2 ^ 32) :
    (drawRow font p r y).bm = (r.bm + rowBytes font.fontW) % 2 ^ 32
      ∧ (drawRow font p r y).reads = r.reads ++ consumed r.bm (rowBytes font.fontW) := by
  have hrow : ∀ x, InRow r.bm x r.reads
      ((List.range x).foldl (drawPixel font p y) (r.next font.psf.file)) := by
    intro x
    induction x with
    | zero => exact ⟨rfl, rfl, by rw [consumed_succ, Nat.add_zero, Nat.mod_eq_of_lt hbm]; rfl⟩
    | succ x ih =>
        rw [List.range_succ, List.foldl_append]
        exact ih.next
  have hlast := hrow font.fontW
  have hlen : 1 + (font.fontW - 1) / 8 = rowBytes font.fontW := by
    unfold rowBytes; omega
  exact ⟨hlen ▸ hlast.pos, hlen ▸ hlast.reads⟩

/-- The loops read the bytes of the rows, one after the other. -/
theorem drawRows_reads {font : Font} (p : Place) (hw : 0 < font.fontW) (r : Draw)
    (hbm : r.bm < 2 ^ 32) (h : Nat) :
    ((List.range h).foldl (drawRow font p) r).bm = (r.bm + h * rowBytes font.fontW) % 2 ^ 32
      ∧ ((List.range h).foldl (drawRow font p) r).reads
        = r.reads ++ consumed r.bm (h * rowBytes font.fontW) := by
  induction h with
  | zero =>
      rw [Nat.zero_mul, Nat.add_zero, Nat.mod_eq_of_lt hbm]
      exact ⟨rfl, (List.append_nil _).symm⟩
  | succ h ih =>
      obtain ⟨hend, hreads⟩ := ih
      obtain ⟨hend', hreads'⟩ := drawRow_reads p hw ((List.range h).foldl (drawRow font p) r) h
        (by rw [hend]; exact Nat.mod_lt _ (Nat.two_pow_pos 32))
      rw [List.range_succ, List.foldl_append, Nat.succ_mul]
      exact ⟨by rw [List.foldl_cons, List.foldl_nil, hend', hend, Nat.mod_add_mod, Nat.add_assoc],
        by rw [List.foldl_cons, List.foldl_nil, hreads', hreads, hend, List.append_assoc,
          consumed_add]⟩

/-! ## Which characters are drawn from the file -/

/-- The character is drawn from a bitmap, with nothing read outside the file. -/
def Renders (font : Font) (p : Place) (uc : Nat) (pixels : Nat → Nat) : Prop :=
  ∃ r, fbTermRenderChar font p uc pixels = some r ∧ ∀ a ∈ r.reads, a < font.psf.sz

/-- The glyph of a character is one of the font, and the file has all of its
bitmap, and of the header the fields up to `glyph_sz`. -/
def Font.GlyphInside (font : Font) (uc : Nat) : Prop :=
  if font.psf.version = 1 then
    font.glyph uc < font.psf.psf1NumGlyphs
      ∧ Psf.psf1HdrSz + (font.glyph uc + 1) * font.psf.charSz ≤ font.psf.sz
  else
    font.glyph uc < font.psf.numGlyphs ∧ 24 ≤ font.psf.sz
      ∧ (font.psf.hdrSz + font.glyph uc * font.psf.glyphSz) % 2 ^ 32
          + font.psf.height * rowBytes font.psf.width ≤ font.psf.sz

/-- A font that was loaded. -/
structure Font.Loaded (font : Font) (sz : Nat) : Prop where
  sz : font.psf.sz = sz
  version : font.psf.version = 1 ∨ font.psf.version = 2
  fontW : font.fontW = font.psf.psfGetWidth
  fontH : font.fontH = font.psf.psfGetHeight
  pos : 0 < font.fontW ∧ 0 < font.fontH

theorem fbTermLoadFont_loaded {fresh : Nat → Nat} {fbWidth fbHeight sz : Nat} {file : Mem}
    {font : Font} (h : fbTermLoadFont fresh fbWidth fbHeight sz file = some font) :
    font.Loaded sz := by
  obtain ⟨psf, hopen, hfont⟩ := Option.bind_eq_some_iff.mp h
  have hpsf : psf.sz = sz ∧ (psf.version = 1 ∨ psf.version = 2) := by
    unfold Psf.psfOpen at hopen
    split_ifs at hopen
    · cases hopen; exact ⟨rfl, Or.inl rfl⟩
    · cases hopen; exact ⟨rfl, Or.inr rfl⟩
  have hgen : (psf.psfGenerateUtf16Map fresh).1.sz = psf.sz
      ∧ (psf.psfGenerateUtf16Map fresh).1.version = psf.version := by
    unfold Psf.psfGenerateUtf16Map
    split_ifs <;> exact ⟨rfl, rfl⟩
  dsimp only at hfont
  split_ifs at hfont with hzero
  cases hfont
  rw [not_or] at hzero
  exact ⟨hgen.1.trans hpsf.1, by rw [hgen.2]; exact hpsf.2, rfl, rfl,
    Nat.pos_of_ne_zero hzero.1, Nat.pos_of_ne_zero hzero.2⟩

section Renders

variable {font : Font} {sz uc : Nat} (p : Place) (pixels : Nat → Nat)

/-- With a bitmap, the character needs the fields of the header and the bytes of all
its rows. -/
theorem renders_of_bitmap {bm : Nat} (h : font.Loaded sz) (hsz : sz < 2 ^ 32)
    (hbitmap : font.psf.psfGetBitmap (font.glyph uc) = some bm) (hbm : bm < 2 ^ 32) :
    Renders font p uc pixels
      ↔ (∀ a ∈ font.psf.headerReads (font.glyph uc), a < sz)
        ∧ bm + font.fontH * rowBytes font.fontW ≤ sz := by
  have hrow : 0 < rowBytes font.fontW := by
    have hw := h.pos.1
    unfold rowBytes; omega
  have hreads := (drawRows_reads p h.pos.1
    (Draw.mk pixels bm 0 0 (font.psf.headerReads (font.glyph uc))) hbm font.fontH).2
  rw [← consumed_below hbm hsz (Nat.mul_pos h.pos.2 hrow), ← List.forall_mem_append, ← hreads,
    Renders, fbTermRenderChar, hbitmap, Option.map_some, h.sz]
  exact ⟨fun ⟨r, hr, hall⟩ => Option.some.inj hr ▸ hall, fun hall => ⟨_, rfl, hall⟩⟩

theorem not_renders (hbitmap : font.psf.psfGetBitmap (font.glyph uc) = none) :
    ¬ Renders font p uc pixels := by
  rintro ⟨r, hr, _⟩
  rw [fbTermRenderChar, hbitmap] at hr
  cases hr

theorem renders_psf1 (h : font.Loaded sz) (hsz : sz < 2 ^ 32) (hv : font.psf.version = 1) :
    Renders font p uc pixels
      ↔ font.glyph uc < font.psf.psf1NumGlyphs
        ∧ Psf.psf1HdrSz + (font.glyph uc + 1) * font.psf.charSz ≤ sz := by
  have hw : font.fontW = 8 := by rw [h.fontW, Psf.psfGetWidth, if_pos hv]
  have hh : font.fontH = font.psf.charSz := by rw [h.fontH, Psf.psfGetHeight, if_pos hv]
  have hpos : 0 < font.psf.charSz := hh ▸ h.pos.2
  have hbitmap : font.psf.psfGetBitmap (font.glyph uc)
      = if font.glyph uc < font.psf.psf1NumGlyphs
          then some (Psf.psf1HdrSz + font.glyph uc * font.psf.charSz) else none := by
    rw [Psf.psfGetBitmap, if_pos hv]
    exact if_congr (by rw [Nat.add_lt_add_iff_left, Nat.mul_lt_mul_right hpos]) rfl rfl
  by_cases hn : font.glyph uc < font.psf.psf1NumGlyphs
  · rw [if_pos hn] at hbitmap
    have hbm : Psf.psf1HdrSz + font.glyph uc * font.psf.charSz < 2 ^ 32 := by
      have hglyph : font.glyph uc < 2 ^ 16 := Nat.mod_lt _ (Nat.two_pow_pos 16)
      have hchar : font.psf.charSz < 256 := rd8_lt _ _
      have hmul : font.glyph uc * font.psf.charSz ≤ 2 ^ 16 * 256 :=
        Nat.mul_le_mul (Nat.le_of_lt hglyph) (Nat.le_of_lt hchar)
      unfold Psf.psf1HdrSz; omega
    rw [renders_of_bitmap p pixels h hsz hbitmap hbm, hw, hh, Psf.headerReads, if_pos hv,
      Nat.succ_mul]
    simp only [List.forall_mem_cons, hn, true_and, rowBytes, Psf.psf1HdrSz]
    constructor
    · rintro ⟨_, hle⟩
      omega
    · intro hle
      exact ⟨⟨by omega, by omega, by simp⟩, by omega⟩
  · rw [if_neg hn] at hbitmap
    exact iff_of_false (not_renders p pixels hbitmap) fun hin => hn hin.1

theorem renders_psf2 (h : font.Loaded sz) (hsz : sz < 2 ^ 32) (hv : font.psf.version = 2) :
    Renders font p uc pixels
      ↔ font.glyph uc < font.psf.numGlyphs ∧ 24 ≤ sz
        ∧ (font.psf.hdrSz + font.glyph uc * font.psf.glyphSz) % 2 ^ 32
            + font.psf.height * rowBytes font.psf.width ≤ sz := by
  have hne : font.psf.version ≠ 1 := by rw [hv]; decide
  have hw : font.fontW = font.psf.width := by
    rw [h.fontW, Psf.psfGetWidth, if_neg hne, if_pos hv]
  have hh : font.fontH = font.psf.height := by
    rw [h.fontH, Psf.psfGetHeight, if_neg hne, if_pos hv]
  have hbitmap : font.psf.psfGetBitmap (font.glyph uc)
      = if font.glyph uc < font.psf.numGlyphs
          then some ((font.psf.hdrSz + font.glyph uc * font.psf.glyphSz) % 2 ^ 32) else none := by
    rw [Psf.psfGetBitmap, if_neg hne, if_pos hv]
  by_cases hn : font.glyph uc < font.psf.numGlyphs
  · rw [if_pos hn] at hbitmap
    rw [renders_of_bitmap p pixels h hsz hbitmap (Nat.mod_lt _ (Nat.two_pow_pos 32)), hw, hh,
      Psf.headerReads, if_neg hne, if_pos hv, if_pos hn]
    simp only [hn, true_and]
    refine and_congr_left fun _ => ?_
    constructor
    · intro hall
      have hlast := hall 23 (by simp)
      omega
    · intro hle a hmem
      simp only [List.mem_append, List.mem_range'_1] at hmem
      omega
  · rw [if_neg hn] at hbitmap
    exact iff_of_false (not_renders p pixels hbitmap) fun hin => hn hin.1

end Renders

/-- A character on the framebuffer is drawn from the file just if its glyph is
inside. -/
theorem renders_iff {fresh : Nat → Nat} {fbWidth fbHeight sz : Nat} {file : Mem} {font : Font}
    (hsz : sz < 2 ^ 32) (hload : fbTermLoadFont fresh fbWidth fbHeight sz file = some font)
    (p : Place) (uc : Nat) (pixels : Nat → Nat) :
    Renders font p uc pixels ↔ font.GlyphInside uc := by
  have h := fbTermLoadFont_loaded hload
  unfold Font.GlyphInside
  rw [h.sz]
  rcases h.version with hv | hv
  · rw [if_pos hv]
    exact renders_psf1 p pixels h hsz hv
  · rw [if_neg (by rw [hv]; decide)]
    exact renders_psf2 p pixels h hsz hv

/-- A font of one glyph. -/
theorem renders_iff_one :
    ∃ font, fbTermLoadFont (fun _ => 0) 800 600 35 (psf2Font 1 [0, 65, 255]).file = some font
      ∧ (Renders font ⟨800, 0, 0, 7, 0⟩ 65 (fun _ => 0) ↔ font.GlyphInside 65) :=
  ⟨_, rfl, @renders_iff (fun _ => 0) 800 600 35 (psf2Font 1 [0, 65, 255]).file _ (by decide) rfl
    _ _ _⟩

/-- A font of one glyph and no table: `A` is glyph 65. -/
theorem not_all_render :
    ¬ ∀ (fresh : Nat → Nat) (fbWidth fbHeight sz : Nat) (file : Mem) (font : Font) (p : Place)
        (uc : Nat) (pixels : Nat → Nat), sz < 2 ^ 32 →
      fbTermLoadFont fresh fbWidth fbHeight sz file = some font → Renders font p uc pixels := by
  intro hall
  have hr := hall (fun _ => 0) 800 600 33 (wr8 (psf2Font 1 [0]).file 12 0) _ ⟨800, 0, 0, 7, 0⟩ 65
    (fun _ => 0) (by decide) rfl
  exact not_renders _ _ rfl hr

end FbTerm

end Shitos
