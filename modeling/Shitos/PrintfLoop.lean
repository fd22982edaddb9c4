import Shitos.PrintfField

/-!
# What vfprintf writes

A conversion is read to its letter and written (`conversion_emits`), and literal text goes
out in runs of characters and `%%`; so the loop of `printf_core` writes what the format
says from any point of it on (`loop_prints`), as long as it fits an int. The pass without
a FILE stops in front of the first conversion (`loop_null`).
-/

namespace Shitos

namespace Printf

open Stdio Syscall

/-! ## Reading and writing it -/

namespace Directive

variable (d : Directive) (s : List UInt8)

theorem conv_bytes : ∃ a t, d.conv.bytes ++ s = a :: t ∧ Plain a := by
  obtain ⟨a, t, h, ha⟩ := d.conv.plain
  exact ⟨a, t ++ s, by rw [h, List.cons_append], ha⟩

theorem position_prec : position (d.precBytes ++ (d.conv.bytes ++ s)) = none :=
  position_append (fun _ hc => (d.precBytes_ne hc).1) (d.conv_bytes s)

theorem position_conv : position (d.conv.bytes ++ s) = none :=
  position_append (u := []) (by simp) (d.conv_bytes s)

/-- What follows the width. -/
theorem prec_bytes : ∃ b u, d.precBytes ++ (d.conv.bytes ++ s) = b :: u ∧ isdigit b = false
    ∧ b ≠ 42 ∧ ∀ fl, flag fl b = none := by
  obtain ⟨a, t, h, ha⟩ := d.conv_bytes s
  unfold precBytes
  cases d.prec with
  | none => exact ⟨a, t, h, ha.digit, ha.star, ha.flag⟩
  | some w => exact ⟨46, _, rfl, rfl, by decide, fun _ => rfl⟩

theorem flag_of_digit {c : UInt8} (hc : isdigit c) (hne : c ≠ 48) (fl : Flags) :
    flag fl c = none := by
  rw [isdigit_iff] at hc
  unfold flag
  split
  all_goals first
    | rfl
    | exact absurd rfl hne
    | exact absurd hc (by decide)

theorem readFlags_eq : readFlags .none (d.bytes ++ s)
    = (d.fl, d.width.bytes ++ (d.precBytes ++ (d.conv.bytes ++ s))) := by
  have happend : d.bytes ++ s = d.flags.map Flag.byte
      ++ (d.width.bytes ++ (d.precBytes ++ (d.conv.bytes ++ s))) := by
    simp [bytes]
  rw [happend]
  refine readFlags_bytes ?_
  intro c hc fl
  obtain ⟨b, u, hb, -, -, hflag⟩ := d.prec_bytes s
  rw [hb] at hc
  have hwide := d.wide
  cases hw : d.width with
  | star v =>
      rw [hw] at hc
      obtain rfl := Option.some.inj hc
      rfl
  | digits n =>
      rw [hw] at hc hwide
      change (n.ds ++ b :: u).head? = some c at hc
      cases hds : n.ds with
      | nil =>
          rw [hds] at hc
          obtain rfl := Option.some.inj hc
          exact hflag fl
      | cons c' ds =>
          rw [hds] at hc
          obtain rfl := Option.some.inj hc
          refine flag_of_digit (n.digit c' (by simp [hds])) ?_ fl
          rintro rfl
          exact hwide (by rw [hds]; rfl)

end Directive

section

variable (fmtFp : List Word → Int → Int → Flags → UInt8 → List (List UInt8) × Int)
variable {st : Core} {d : Directive} {s : List UInt8} {ap : List Word}

theorem conversion_emits {text : List UInt8} {m' : Mem} (hl10n : st.cur.l10n = false)
    (hap : st.cur.ap = d.words ++ ap) (hcnt : st.cnt ≤ intMax)
    (h : d.Writes st.mem st.cnt text m') :
    Emits { st with cur := { st.cur with s := s, ap := ap } } text m'
      (conversion fmtFp true st (d.bytes ++ s)) := by
  obtain ⟨b, u, hb, hdigit, hstar, -⟩ := d.prec_bytes s
  obtain ⟨a, t, ha, hplain⟩ := d.conv_bytes s
  have hap' : st.cur.ap = d.width.words ++ (d.prec.elim [] Amount.words ++ (d.argWords ++ ap)) := by
    rw [hap, Directive.words, List.append_assoc, List.append_assoc]
  have hwidth := @readWidth_wide { st.cur with s := d.width.bytes ++ b :: u } u
    (d.prec.elim [] Amount.words ++ (d.argWords ++ ap)) d.fl d.width b d.wide hdigit hstar
    (hb ▸ d.position_prec s) rfl hl10n hap'
  have hprec := d.readPrec_bytes (c := { st.cur with
    s := b :: u, ap := d.prec.elim [] Amount.words ++ (d.argWords ++ ap) }) hplain
    (ha ▸ d.position_conv s) (by rw [← ha, ← hb]) hl10n rfl
  have hmachine := machine_bytes d.conv s
  rw [ha] at hmachine
  have hflags := d.readFlags_eq s
  rw [hb] at hflags
  have hemit : Emits { st with cur := { st.cur with s := s, ap := ap } } text m' _ :=
    emit_emits fmtFp hcnt h
  unfold conversion
  rw [d.position_bytes s]
  dsimp only
  rw [hflags]
  dsimp only
  rw [hwidth]
  dsimp only
  rw [hprec]
  dsimp only
  rw [hmachine]
  dsimp only
  rw [fetch, if_pos rfl, Directive.popArg_words]
  exact hemit

/-- Without a FILE, the first conversion is the end. -/
theorem conversion_null (hl10n : st.cur.l10n = false) :
    ∃ c, c.ap = st.cur.ap ∧ c.nlType = st.cur.nlType ∧ c.nlArg = st.cur.nlArg
      ∧ conversion fmtFp false st (d.bytes ++ s) = .error ⟨0, none, { st with cur := c }⟩ := by
  obtain ⟨b, u, hb, hdigit, hstar, -⟩ := d.prec_bytes s
  obtain ⟨a, t, ha, hplain⟩ := d.conv_bytes s
  obtain ⟨w, hwidth⟩ := @readWidth_null { st.cur with s := d.width.bytes ++ b :: u } u d.fl d.width
    b hdigit hstar (hb ▸ d.position_prec s) rfl hl10n
  obtain ⟨p, xp, hprec⟩ := d.readPrec_null (c := { st.cur with s := b :: u }) hplain
    (ha ▸ d.position_conv s) (by rw [← ha, ← hb]) hl10n
  have hmachine := machine_bytes d.conv s
  rw [ha] at hmachine
  have hflags := d.readFlags_eq s
  rw [hb] at hflags
  refine ⟨{ st.cur with s := a :: t }, rfl, rfl, rfl, ?_⟩
  unfold conversion
  rw [d.position_bytes s]
  dsimp only
  rw [hflags]
  dsimp only
  rw [hwidth]
  dsimp only
  rw [hprec]
  dsimp only
  rw [hmachine]
  rfl

end

/-! ## The loop -/

def bytesOf (is : List Item) : List UInt8 := is.flatMap Item.bytes

def wordsOf (is : List Item) : List Word := is.flatMap Item.words

theorem percents_of_ne {c : UInt8} {s : List UInt8} (hc : c ≠ 37) :
    percents (c :: s) = (0, c :: s) := by
  unfold percents
  split
  · rename_i heq
    exact absurd (List.cons.inj heq).1 hc
  · rfl

theorem percents_conv (d : Directive) (s : List UInt8) :
    percents (37 :: (d.bytes ++ s)) = (0, 37 :: (d.bytes ++ s)) := by
  obtain ⟨b, u, hb, hne⟩ := d.bytes_ne_percent s
  rw [hb]
  unfold percents
  split
  · rename_i heq
    exact absurd (List.cons.inj (List.cons.inj heq).2).1 hne
  · rfl

/-- The format `is` goes on with `is'` behind the `l` characters and `%%` in front, which
write `u`. -/
structure Skips (is : List Item) (u : List UInt8) (is' : List Item) : Prop where
  front : ∃ js, is = js ++ is' ∧ js.length = u.length
  words : wordsOf is' = wordsOf is
  writes : ∀ {m m' : Mem} {cnt : Nat} {t : List UInt8}, Writes m cnt is t m' →
    ∃ t', t = u ++ t' ∧ Writes m (cnt + u.length) is' t' m'

theorem Skips.nil (is : List Item) : Skips is [] is where
  front := ⟨[], rfl, rfl⟩
  words := rfl
  writes h := ⟨_, rfl, h⟩

theorem Skips.char {c : UInt8} {hc : c ≠ 37} {is is' : List Item} {u : List UInt8}
    (h : Skips is u is') : Skips (.char c hc :: is) (c :: u) is' where
  front := by
    obtain ⟨js, rfl, hlen⟩ := h.front
    exact ⟨.char c hc :: js, rfl, congrArg (· + 1) hlen⟩
  words := h.words
  writes hw := by
    cases hw with
    | char hw =>
        obtain ⟨t', rfl, hrest⟩ := h.writes hw
        refine ⟨t', rfl, ?_⟩
        rwa [List.length_cons, Nat.add_comm u.length, ← Nat.add_assoc]

theorem Skips.percent {is is' : List Item} {u : List UInt8} (h : Skips is u is') :
    Skips (.percent :: is) (37 :: u) is' where
  front := by
    obtain ⟨js, rfl, hlen⟩ := h.front
    exact ⟨.percent :: js, rfl, congrArg (· + 1) hlen⟩
  words := h.words
  writes hw := by
    cases hw with
    | percent hw =>
        obtain ⟨t', rfl, hrest⟩ := h.writes hw
        refine ⟨t', rfl, ?_⟩
        rwa [List.length_cons, Nat.add_comm u.length, ← Nat.add_assoc]

theorem percents_items (is : List Item) : ∃ n is', percents (bytesOf is) = (n, bytesOf is')
    ∧ Skips is (List.replicate n 37) is'
    ∧ ∀ j ≤ n, (bytesOf is).take j = List.replicate j 37 := by
  induction is with
  | nil => exact ⟨0, [], rfl, .nil [], by simp⟩
  | cons i is ih =>
      cases i with
      | char c hc => exact ⟨0, .char c hc :: is, percents_of_ne hc, .nil _, by simp⟩
      | conv d => exact ⟨0, .conv d :: is, percents_conv d _, .nil _, by simp⟩
      | percent =>
          obtain ⟨n, is', hn, hskips, htake⟩ := ih
          refine ⟨n + 1, is', ?_, hskips.percent, ?_⟩
          · change percents (37 :: 37 :: bytesOf is) = _
            rw [percents, hn]
          · intro j hj
            change (37 :: 37 :: bytesOf is).take j = _
            match j with
            | 0 => rfl
            | 1 => rfl
            | j + 2 =>
                rw [List.take_succ_cons, List.take_succ_cons, htake j (by omega)]
                rfl

theorem literal_of_percents {s : List UInt8} (is : List Item) (h : bytesOf is = 37 :: s) :
    ∃ l is', literal (bytesOf is) = (l, bytesOf is') ∧ Skips is ((bytesOf is).take l) is'
      ∧ ((bytesOf is).take l).length = l := by
  obtain ⟨n, is', hn, hskips, htake⟩ := percents_items is
  have htake := htake n (Nat.le_refl n)
  rw [← htake] at hskips
  refine ⟨n, is', ?_, hskips, by rw [htake, List.length_replicate]⟩
  rw [h] at hn ⊢
  simp [literal, hn]

theorem literal_items (is : List Item) : ∃ l is', literal (bytesOf is) = (l, bytesOf is')
    ∧ Skips is ((bytesOf is).take l) is' ∧ ((bytesOf is).take l).length = l := by
  induction is with
  | nil => exact ⟨0, [], rfl, .nil [], rfl⟩
  | cons i is ih =>
      cases i with
      | char c hc =>
          obtain ⟨l, is', hl, hskips, hlen⟩ := ih
          refine ⟨l + 1, is', ?_, hskips.char, congrArg (· + 1) hlen⟩
          change literal (c :: bytesOf is) = _
          rw [literal] at hl ⊢
          rw [List.takeWhile_cons_of_pos (by simpa using hc),
            List.dropWhile_cons_of_pos (by simpa using hc), List.length_cons]
          simp only [Prod.mk.injEq] at hl ⊢
          exact ⟨by omega, hl.2⟩
      | percent => exact literal_of_percents (.percent :: is) rfl
      | conv d => exact literal_of_percents (.conv d :: is) rfl

section

variable (fmtFp : List Word → Int → Int → Flags → UInt8 → List (List UInt8) × Int)

/-- What `r` leaves of a run from `st` on that writes `t`, if there is room for it in an
int. -/
def Prints (st : Core) (t : List UInt8) (m' : Mem) (ap : List Word) (r : Result) : Prop :=
  if st.cnt + t.length ≤ intMax then
    r.ret = ↑(st.cnt + t.length) ∧ r.errno = none
      ∧ r.core.out.flatten = st.out.flatten ++ t ∧ r.core.mem = m' ∧ r.core.cur.ap = ap
  else
    r.ret = -1 ∧ r.errno = some EOVERFLOW
      ∧ ∃ u, u <+: t ∧ r.core.out.flatten = st.out.flatten ++ u

variable {st st' : Core} {m' : Mem} {ap : List Word} {r : Result}

/-- What goes out first goes on with what goes out then. -/
theorem Prints.after {u t : List UInt8} (h : Prints st' t m' ap r)
    (hcnt : st'.cnt = st.cnt + u.length) (hout : st'.out.flatten = st.out.flatten ++ u) :
    Prints st (u ++ t) m' ap r := by
  have hlen : st.cnt + (u ++ t).length = st'.cnt + t.length := by
    rw [hcnt, List.length_append]
    omega
  unfold Prints at h ⊢
  rw [hlen]
  split
  · rename_i hfits
    rw [if_pos hfits, hout, List.append_assoc] at h
    exact h
  · rename_i hfits
    rw [if_neg hfits, hout] at h
    obtain ⟨hret, herrno, v, hv, hr⟩ := h
    exact ⟨hret, herrno, u ++ v, List.prefix_append_right_inj u |>.mpr hv,
      by rw [hr, List.append_assoc]⟩

theorem prints_overflow {t : List UInt8} (hlong : ¬st.cnt + t.length ≤ intMax)
    (hout : st'.out.flatten = st.out.flatten) : Prints st t m' ap (fail EOVERFLOW st') := by
  unfold Prints
  rw [if_neg hlong]
  exact ⟨rfl, rfl, [], List.nil_prefix, by simpa [fail] using hout⟩

theorem loop_error {f : Bool} (h : turn fmtFp f st = .error r) : loop fmtFp f st = r := by
  rw [loop]
  split
  · rename_i r' hr'
    exact Except.error.inj (hr'.symm.trans h)
  · rename_i st' hst'
    exact absurd (hst'.symm.trans h) (by simp)

theorem loop_ok {f : Bool} (h : turn fmtFp f st = .ok st') :
    loop fmtFp f st = loop fmtFp f st' := by
  rw [loop]
  split
  · rename_i r' hr'
    exact absurd (hr'.symm.trans h) (by simp)
  · rename_i st'' hst''
    rw [Except.ok.inj (hst''.symm.trans h)]

theorem bytesOf_eq_nil {is : List Item} : bytesOf is = [] ↔ is = [] := by
  constructor
  · intro h
    cases is with
    | nil => rfl
    | cons i is => cases i <;> simp [bytesOf, Item.bytes] at h
  · rintro rfl
    rfl

/-- The turn in front of `is`: literal text, a conversion or the end. -/
theorem turn_cases (f : Bool) {is : List Item} (hs : st.cur.s = bytesOf is)
    (hcnt : st.cnt ≤ intMax) :
    ∃ (u : List UInt8) (is' : List Item), Skips is u is'
      ∧ (intMax < st.cnt + u.length ∧ turn fmtFp f st = .error (fail EOVERFLOW st)
        ∨ st.cnt + u.length ≤ intMax ∧ u ≠ [] ∧ turn fmtFp f st = .ok { st with
            cur := { st.cur with s := bytesOf is' }
            cnt := st.cnt + u.length
            out := st.out ++ output f u }
        ∨ (∃ d js, is = .conv d :: js ∧ turn fmtFp f st
            = conversion fmtFp f { st with out := st.out ++ output f [] } (d.bytes ++ bytesOf js))
        ∨ is = [] ∧ turn fmtFp f st = .error (finish f st)) := by
  by_cases hnil : is = []
  · subst hnil
    refine ⟨[], [], .nil [], .inr (.inr (.inr ⟨rfl, ?_⟩))⟩
    exact if_pos hs
  · have hne : st.cur.s ≠ [] := fun h => hnil (bytesOf_eq_nil.mp (hs.symm.trans h))
    obtain ⟨l, is', hl, hskips, hlen⟩ := literal_items is
    refine ⟨_, is', hskips, ?_⟩
    rw [turn, if_neg hne, hs, hl, hlen]
    dsimp only
    by_cases hfits : st.cnt + l ≤ intMax
    · rw [if_neg (by omega)]
      by_cases hzero : l = 0
      · subst hzero
        refine .inr (.inr (.inl ?_))
        cases is with
        | nil => exact absurd rfl hnil
        | cons i js =>
            cases i with
            | conv d => exact ⟨d, js, rfl, by simp [bytesOf, Item.bytes]⟩
            | char c hc =>
                have hfst := congrArg Prod.fst hl
                simp [bytesOf, Item.bytes, literal, hc] at hfst
            | percent =>
                have hfst := congrArg Prod.fst hl
                simp [bytesOf, Item.bytes, literal, percents] at hfst
      · refine .inr (.inl ⟨hfits, ?_, by rw [if_pos hzero]⟩)
        intro h
        rw [h] at hlen
        exact hzero hlen.symm
    · exact .inl ⟨by omega, if_pos (by omega)⟩

/-- The loop writes what the format says, from any point of it on. -/
theorem loop_prints (is : List Item) : ∀ {st : Core} {t : List UInt8}, st.cur.s = bytesOf is →
    st.cur.l10n = false → st.cur.ap = wordsOf is ++ ap → st.cnt ≤ intMax →
    Writes st.mem st.cnt is t m' → Prints st t m' ap (loop fmtFp true st) := by
  induction hn : is.length using Nat.strong_induction_on generalizing is with
  | h n ih =>
      subst hn
      intro st t hs hl10n hap hcnt hw
      obtain ⟨u, is', hskips, hturn⟩ := turn_cases fmtFp true hs hcnt
      rcases hturn with ⟨hlong, hturn⟩ | ⟨hfits, hne, hturn⟩ | ⟨d, js, rfl, hturn⟩ | ⟨rfl, hturn⟩
      · obtain ⟨t', rfl, -⟩ := hskips.writes hw
        rw [loop_error fmtFp hturn]
        exact prints_overflow (by rw [List.length_append]; omega) rfl
      · obtain ⟨t', rfl, hrest⟩ := hskips.writes hw
        obtain ⟨front, rfl, hfront⟩ := hskips.front
        have hpos := List.length_pos_iff.mpr hne
        rw [loop_ok fmtFp hturn]
        have hnext := @ih is'.length (by rw [List.length_append]; omega) is' rfl
          { st with
            cur := { st.cur with s := bytesOf is' }
            cnt := st.cnt + u.length
            out := st.out ++ output true u } t' rfl hl10n (hskips.words ▸ hap) hfits hrest
        exact hnext.after rfl (by simp [output])
      · cases hw with
        | @conv _ m₁ _ _ _ _ t₁ t₂ hd hrest =>
            have hwords : st.cur.ap = d.words ++ (wordsOf js ++ ap) := by
              rw [hap, ← List.append_assoc]
              rfl
            have hemits := @conversion_emits fmtFp
              { st with out := st.out ++ output true [] } d (bytesOf js) (wordsOf js ++ ap) _ _
              hl10n hwords hcnt hd
            rw [Emits] at hemits
            dsimp only at hemits
            by_cases hfits : st.cnt + t₁.length ≤ intMax
            · rw [if_pos hfits] at hemits
              obtain ⟨cs, hcs, hok⟩ := hemits
              rw [loop_ok fmtFp (hturn.trans hok)]
              have hnext := @ih js.length (Nat.lt_succ_self _) js rfl
                { st with
                  cur := { st.cur with s := bytesOf js, ap := wordsOf js ++ ap }
                  cnt := st.cnt + t₁.length
                  mem := m₁
                  out := st.out ++ output true [] ++ cs } t₂ rfl hl10n rfl hfits hrest
              exact hnext.after rfl (by simp [output, hcs])
            · rw [if_neg hfits] at hemits
              rw [loop_error fmtFp (hturn.trans hemits)]
              exact prints_overflow (by rw [List.length_append]; omega) (by simp [output])
      · cases hw with
        | nil =>
            rw [loop_error fmtFp hturn]
            unfold Prints
            rw [if_pos (by simpa using hcnt)]
            refine ⟨by simp [finish], rfl, by simp [finish], rfl, ?_⟩
            exact hap

/-- The pass without a FILE changes nothing, and fails only where the format is too long. -/
theorem loop_null (is : List Item) : ∀ {st : Core} {m : Mem} {t : List UInt8},
    st.cur.s = bytesOf is → st.cur.l10n = false → st.cnt ≤ intMax → Writes m st.cnt is t m' →
    (loop fmtFp false st).core.cur.ap = st.cur.ap ∧ (loop fmtFp false st).core.mem = st.mem
      ∧ (loop fmtFp false st).core.out.flatten = st.out.flatten
      ∧ ((loop fmtFp false st).ret = 0 ∨ (loop fmtFp false st).ret = -1
        ∧ (loop fmtFp false st).errno = some EOVERFLOW ∧ ¬st.cnt + t.length ≤ intMax) := by
  induction hn : is.length using Nat.strong_induction_on generalizing is with
  | h n ih =>
      subst hn
      intro st m t hs hl10n hcnt hw
      obtain ⟨u, is', hskips, hturn⟩ := turn_cases fmtFp false hs hcnt
      rcases hturn with ⟨hlong, hturn⟩ | ⟨hfits, hne, hturn⟩ | ⟨d, js, rfl, hturn⟩ | ⟨rfl, hturn⟩
      · obtain ⟨t', rfl, -⟩ := hskips.writes hw
        rw [loop_error fmtFp hturn]
        exact ⟨rfl, rfl, rfl, .inr ⟨rfl, rfl, by rw [List.length_append]; omega⟩⟩
      · obtain ⟨t', rfl, hrest⟩ := hskips.writes hw
        obtain ⟨front, rfl, hfront⟩ := hskips.front
        have hpos := List.length_pos_iff.mpr hne
        rw [loop_ok fmtFp hturn, List.length_append, ← Nat.add_assoc]
        obtain ⟨hap, hmem, hout, hret⟩ := @ih is'.length (by rw [List.length_append]; omega) is' rfl
          { st with
            cur := { st.cur with s := bytesOf is' }
            cnt := st.cnt + u.length
            out := st.out ++ output false u } m t' rfl hl10n hfits hrest
        exact ⟨hap, hmem, by simpa [output] using hout, hret⟩
      · obtain ⟨c, hap, -, -, herror⟩ := @conversion_null fmtFp
          { st with out := st.out ++ output false [] } d (bytesOf js) hl10n
        rw [loop_error fmtFp (hturn.trans herror)]
        exact ⟨hap, rfl, by simp [output], .inl rfl⟩
      · rw [loop_error fmtFp hturn]
        simp [finish, hl10n]

/-- Before anything is written. -/
def start (fmt : List UInt8) (ap : List Word) (m : Mem) : Core :=
  ⟨⟨fmt, false, ap, fun _ => none, fun _ => .zero⟩, 0, m, []⟩

theorem vfprintf_prints {is : List Item} {m : Mem} {t : List UInt8} (h : Writes m 0 is t m') :
    Prints (start (bytesOf is) (wordsOf is ++ ap) m) t m' ap
      (vfprintf fmtFp (bytesOf is) (wordsOf is ++ ap) m) := by
  have hzero : (0 : Nat) ≤ intMax := Nat.zero_le _
  have hnull := @loop_null fmtFp m' is (start (bytesOf is) (wordsOf is ++ ap) m) m t rfl rfl
    hzero h
  have hprints := fun nlType nlArg => @loop_prints fmtFp m' ap is
    ⟨⟨bytesOf is, false, wordsOf is ++ ap, nlType, nlArg⟩, 0, m, []⟩ t rfl rfl rfl hzero h
  have hv : vfprintf fmtFp (bytesOf is) (wordsOf is ++ ap) m
      = let r := loop fmtFp false (start (bytesOf is) (wordsOf is ++ ap) m)
        if r.ret < 0 then { r with ret := -1 }
        else loop fmtFp true
          ⟨⟨bytesOf is, false, r.core.cur.ap, r.core.cur.nlType, r.core.cur.nlArg⟩, 0,
            r.core.mem, []⟩ := rfl
  rw [hv]
  revert hnull
  generalize loop fmtFp false (start (bytesOf is) (wordsOf is ++ ap) m) = r
  rintro ⟨hap, hmem, hout, hret⟩
  dsimp only
  rcases hret with hret | ⟨hret, herrno, hlong⟩
  · have hpass := hprints r.core.cur.nlType r.core.cur.nlArg
    rw [if_neg (by omega), hap, hmem]
    unfold Prints at hpass ⊢
    exact hpass
  · unfold Prints
    rw [if_neg hlong, if_pos (by omega), hout]
    exact ⟨rfl, herrno, [], List.nil_prefix, (List.append_nil _).symm⟩

end

/-- `vfprintf` writes what the format says, one piece after the other, stores what its
`%n` say and returns how long it is. What does not fit an int is cut off, and fails. -/
theorem vfprintf_writes (fmtFp : List Word → Int → Int → Flags → UInt8 → List (List UInt8) × Int)
    {is : List Item} {m m' : Mem} {t : List UInt8} (ap : List Word) (h : Writes m 0 is t m') :
    if t.length ≤ intMax then
      (vfprintf fmtFp (bytesOf is) (wordsOf is ++ ap) m).ret = t.length
        ∧ (vfprintf fmtFp (bytesOf is) (wordsOf is ++ ap) m).errno = none
        ∧ (vfprintf fmtFp (bytesOf is) (wordsOf is ++ ap) m).core.out.flatten = t
        ∧ (vfprintf fmtFp (bytesOf is) (wordsOf is ++ ap) m).core.mem = m'
    else
      (vfprintf fmtFp (bytesOf is) (wordsOf is ++ ap) m).ret = -1
        ∧ (vfprintf fmtFp (bytesOf is) (wordsOf is ++ ap) m).errno = some EOVERFLOW
        ∧ (vfprintf fmtFp (bytesOf is) (wordsOf is ++ ap) m).core.out.flatten <+: t := by
  have hprints := @vfprintf_prints fmtFp m' ap is m t h
  unfold Prints at hprints
  simp only [start, Nat.zero_add, List.flatten_nil, List.nil_append] at hprints
  split
  · rename_i hfits
    rw [if_pos hfits] at hprints
    obtain ⟨hret, herrno, hout, hmem, -⟩ := hprints
    exact ⟨hret, herrno, hout, hmem⟩
  · rename_i hlong
    rw [if_neg hlong] at hprints
    obtain ⟨hret, herrno, u, hu, hout⟩ := hprints
    exact ⟨hret, herrno, hout ▸ hu⟩

/-- `%d`, without anything between. -/
def Directive.plain (v : BitVec 64) : Directive where
  flags := []
  width := .digits ⟨[], by simp, Nat.zero_le _⟩
  prec := none
  conv := .signed .int false
  arg := v
  wide := by simp [Amount.Wide]

theorem Directive.text_plain : (Directive.plain 42).text = [52, 50] := by
  simp [text, plain, left, zero, sign, body, fl, precision, signedValue, Amount.value, fill,
    numeral, digits, digit, Flags.none, value, Size.bits]

theorem vfprintf_writes_decimal :
    (vfprintf (fun _ _ _ _ _ => ([], 0)) [97, 37, 100] [42, 0] (fun _ => 0)).ret = 3
      ∧ (vfprintf (fun _ _ _ _ _ => ([], 0)) [97, 37, 100] [42, 0]
          (fun _ => 0)).core.out.flatten = [97, 52, 50] := by
  have h : Writes (fun _ => 0) 0 [.char 97 (by decide), .conv (.plain 42)] [97, 52, 50]
      (fun _ => 0) := by
    have hd : (Directive.plain 42).Writes (fun _ => 0) 1 (Directive.plain 42).text
        (fun _ => 0) := ⟨rfl, rfl⟩
    rw [Directive.text_plain] at hd
    exact .char (.conv hd (.nil _ _))
  have hw := vfprintf_writes (fun _ _ _ _ _ => ([], 0)) [0] h
  rw [if_pos (by decide)] at hw
  exact ⟨hw.1, hw.2.2.1⟩

end Printf

end Shitos
