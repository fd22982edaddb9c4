import Shitos.Ext2Remove

/-!
# Clients of a volume

Whatever a client makes of the answers, as long as it keeps to the contract a volume
answers its calls as the nodes of a file system would (`clients_served`). No name ever
leads to an inode that is not in use, and each node stays of its type (`World`).

The volume gives up when an allocation fails, which it reports, and when the last block
of a directory is given back, after which the directory's size is wrong (`Lost`).
-/

namespace Shitos

namespace Ext2

/-! ## Nodes stay in order -/

section Tidy

variable {A A' : Nodes} {t d : Nat} {n : Node} {op : Op} {reply : Reply} {name : List UInt8}
  {names : List UInt8 → Option Nat} {change : Node → Node}

/-- A node that is of its type may be put anywhere, if its names lead to nodes. -/
theorem Nodes.Tidy.update (h : A.Tidy) (hn : n.Typed)
    (hclosed : ∀ names, n.body = .dir names → ∀ name u, names name = some u → u = t ∨ A u ≠ none) :
    Nodes.Tidy (Function.update A t (some n)) := by
  have hsome : ∀ u, u = t ∨ A u ≠ none → Function.update A t (some n) u ≠ none := by
    rintro u hu
    by_cases hut : u = t
    · subst hut
      simp
    · simpa [hut] using hu
  constructor
  · intro u n' hu
    by_cases hut : u = t
    · subst hut
      obtain rfl : n = n' := by simpa using hu
      exact hn
    · exact h.typed u n' (by simpa [hut] using hu)
  · rintro e names name u ⟨n', hn', hb⟩ hname
    refine hsome u ?_
    by_cases het : e = t
    · subst het
      obtain rfl : n = n' := by simpa using hn'
      exact hclosed names hb name u hname
    · exact Or.inr (h.closed e names name u ⟨n', by simpa [het] using hn', hb⟩ hname)

/-- Changes that leave the type and the body alone. -/
theorem Nodes.Tidy.edit (h : A.Tidy) (hty : ∀ n, n.Typed → (change n).Typed)
    (hbody : ∀ n, (change n).body = n.body) : (A.edit t change).Tidy := by
  cases hn : A t with
  | none =>
      have hsame : A.edit t change = A := by
        unfold Nodes.edit
        rw [hn]
        exact Function.update_eq_self_iff.mpr hn.symm
      rwa [hsame]
  | some n =>
      rw [edit_eq hn]
      refine h.update (hty n (h.typed t n hn)) fun names hb name u hu => Or.inr ?_
      exact h.closed t names name u ⟨n, hn, (hbody n).symm.trans hb⟩ hu

/-- A directory with one name changed. -/
theorem Nodes.Tidy.setName (h : A.Tidy) (hd : A.IsDir d names) {o : Option Nat}
    (ho : ∀ t, o = some t → A t ≠ none) : (A.setName d name o).Tidy := by
  obtain ⟨n, hn, hb⟩ := hd
  rw [setName_eq hn hb]
  refine h.update ?_ fun names' hb' name' u hu => Or.inr ?_
  · have hty := h.typed d n hn
    unfold Node.Typed at hty ⊢
    rw [hb] at hty
    exact hty
  · obtain rfl := Body.dir.inj hb'
    by_cases hname : name' = name
    · subst hname
      exact ho u (by simpa using hu)
    · exact h.closed d names name' u ⟨n, hn, hb⟩ (by simpa [hname] using hu)

/-- A new node, with its name. -/
theorem Nodes.Tidy.made (h : A.Tidy) (hd : A.IsDir d names) (ht : A t = none) (hn : n.Typed)
    (hclosed : ∀ names, n.body = .dir names → ∀ name u, names name = some u → u = t ∨ A u ≠ none) :
    Nodes.Tidy (Function.update (A.setName d name (some t)) t (some n)) := by
  obtain ⟨nd, hnd, hb⟩ := hd
  have hne : d ≠ t := by
    rintro rfl
    rw [ht] at hnd
    cases hnd
  have hnd' : Function.update A t (some n) d = some nd := (Function.update_of_ne hne _ _).trans hnd
  have h' : (Nodes.setName (Function.update A t (some n)) d name (some t)).Tidy := by
    refine (h.update hn hclosed).setName ⟨nd, hnd', hb⟩ fun u hu => ?_
    obtain rfl := Option.some.inj hu
    simp
  rw [setName_eq hnd' hb, Function.update_comm hne.symm] at h'
  rwa [setName_eq hnd hb]

theorem typed_newNode {mode : Nat} (h : mode &&& 0xf000 ≠ 0xa000) (t d : Nat) :
    (newNode mode t d).Typed := by
  unfold newNode
  by_cases hdir : mode &&& 0xf000 = 0x4000
  · rw [if_pos hdir]
    exact (and_typeMask mode).trans hdir
  · rw [if_neg hdir]
    refine ⟨?_, ?_⟩
    · rw [and_typeMask]
      exact hdir
    · rw [and_typeMask]
      exact h

/-- The type stays if the permissions are set. -/
theorem and_or_typeMask {mode : Nat} (h : mode < 2 ^ 12) (old : Nat) :
    (old &&& 0xf000 ||| mode) &&& 0xf000 = old &&& 0xf000 := by
  refine Nat.eq_of_testBit_eq fun i => ?_
  have hmask : (0xf000 : Nat).testBit i = true → 12 ≤ i := by
    intro hi
    by_contra hlt
    have hall : ∀ i < 12, (0xf000 : Nat).testBit i = false := by decide
    rw [hall i (Nat.lt_of_not_le hlt)] at hi
    cases hi
  simp only [Nat.testBit_and, Nat.testBit_or]
  cases hm : (0xf000 : Nat).testBit i with
  | false => simp
  | true =>
      have hlow : mode.testBit i = false :=
        Nat.testBit_lt_two_pow (h.trans_le (Nat.pow_le_pow_right (by decide) (hmask hm)))
      simp [hlow]

/-- Calls keep the nodes in order. -/
theorem Step.tidy (h : A.Tidy) (hl : Legal A op) (hs : Step A op reply A') : A'.Tidy := by
  cases hs with
  | read | missing | found | readlink | unlinkMissing | linkDir => exact h
  | @write t off sz buf bytes hf =>
      obtain ⟨n, hn, hb⟩ := hf
      rw [Nodes.setBody, edit_eq hn]
      refine h.update ?_ fun names hb' => by cases hb'
      have hty := h.typed t n hn
      unfold Node.Typed at hty ⊢
      rw [hb] at hty
      exact hty
  | @mknod d t mode name ht =>
      obtain ⟨⟨names, hd, -⟩, hmode⟩ := hl
      obtain ⟨nd, hnd, -⟩ := id hd
      refine h.made hd ht (typed_newNode hmode t d) fun names' hb name' u hu => ?_
      unfold newNode at hb
      split at hb
      · obtain rfl := Body.dir.inj hb
        unfold dotNames at hu
        split at hu
        · exact Or.inl (Option.some.inj hu).symm
        · split at hu
          · obtain rfl := Option.some.inj hu
            exact Or.inr (by simp [hnd])
          · cases hu
      · cases hb
  | unlink hd => exact h.setName hd (by simp)
  | @link d t name hnd =>
      obtain ⟨ht, names, hd, -⟩ := hl
      refine (h.setName hd ?_).edit (fun n hn => hn) fun n => rfl
      rintro u hu
      obtain rfl := Option.some.inj hu
      exact ht
  | @symlink d t name target ht =>
      obtain ⟨⟨names, hd, -⟩, hpos, hlen⟩ := hl
      refine h.made hd ht ⟨?_, hpos, ?_⟩ fun names' hb => by cases hb
      · exact (show 0xa1ff &&& 0xf000 = 0xa000 by decide)
      · omega
  | @chmod t mode =>
      obtain ⟨-, hmode⟩ := hl
      refine h.edit (fun n hn => ?_) fun n => rfl
      unfold Node.Typed at hn ⊢
      simp only [and_or_typeMask hmode]
      exact hn
  | chown => exact h.edit (fun n hn => hn) fun n => rfl

end Tidy

/-! ## Calls are answered -/

/-- The volume has the nodes `A`, which are in order, and is mounted to be written to. -/
structure World (p : Nat) (A : Nodes) (fs : Fs) : Prop where
  image : Image p A fs
  tidy : A.Tidy
  rw : fs.rw = true

/-- When the volume gives up: a failed allocation has been reported, or the last block of
a directory is given back. -/
def Lost (n : Nat) (op : Op) (fs : Fs) (res : Option (Reply × Fs)) : Prop :=
  (∃ reply fs', res = some (reply, fs') ∧ fs.critical < fs'.critical)
    ∨ ∃ d name, op = .unlink d name ∧ GivesBack n fs d name

section Answers

variable {p N : Nat} {A A' : Nodes} {fs fs' : Fs} {op : Op} {reply : Reply}

/-- A call that leaves the volume as it is. -/
theorem World.looked (W : World p A fs) (hexec : exec N fs op = some (reply, fs))
    (hs : Step A op reply A) : Answers contract (World p) (exec N) (Lost N) A fs op :=
  Or.inr ⟨reply, fs, A, hexec, hs, W⟩

/-- A call that does what it is for. -/
theorem World.changed (W : World p A fs) (hl : Legal A op)
    (hexec : exec N fs op = some (reply, fs')) (hs : Step A op reply A') (himage : Image p A' fs') (hrw : fs'.rw = true) :
    Answers contract (World p) (exec N) (Lost N) A fs op :=
  Or.inr ⟨reply, fs', A', hexec, hs, himage, hs.tidy W.tidy hl, hrw⟩

/-- A call that does what it is for if no allocation fails. -/
theorem World.done (W : World p A fs) (hl : Legal A op) (hexec : exec N fs op = some (reply, fs'))
    (hle : fs.critical ≤ fs'.critical) (h : fs'.critical = fs.critical →
      fs'.rw = true ∧ ∃ A', Step A op reply A' ∧ Image p A' fs') :
    Answers contract (World p) (exec N) (Lost N) A fs op := by
  rcases Nat.lt_or_eq_of_le hle with hlt | heq
  · exact Or.inl (Or.inl ⟨reply, fs', hexec, hlt⟩)
  · obtain ⟨hrw, A', hs, himage⟩ := h heq.symm
    exact W.changed hl hexec hs himage hrw

/-- Each legal call is answered as the contract has it. -/
theorem World.answers (W : World p A fs) (hl : Legal A op) (hN : 2 ^ 32 ≤ N) :
    Answers contract (World p) (exec N) (Lost N) A fs op := by
  have I := W.image
  have hrw := W.rw
  cases op with
  | read t off sz buf =>
      obtain ⟨bytes, hf, hpos, hsz, hlt⟩ := hl
      exact W.looked (by simp [exec, I.read hf hpos hsz hlt]) (.read hf)
  | write t off sz buf =>
      obtain ⟨bytes, hf, hsz, hlt⟩ := id hl
      obtain ⟨fs', hcall, hformat, hle, h⟩ := I.write hrw hf hsz hlt hN buf
      exact W.done hl (by simp [exec, hcall]) hle fun hc =>
        ⟨hformat.rw.trans hrw, _, .write hf, h hc⟩
  | finddir d name =>
      obtain ⟨names, hd, h0⟩ := hl
      obtain ⟨hmissing, hfound⟩ := I.finddir hd h0 hN
      cases hname : names name with
      | none => exact W.looked (by simp [exec, hmissing hname]) (.missing hd hname)
      | some t =>
          obtain ⟨n, hn⟩ := Option.ne_none_iff_exists'.mp (W.tidy.closed d names name t hd hname)
          obtain ⟨sz, hsz, hcall⟩ := hfound t n hname hn
          exact W.looked (by simp [exec, hcall]) (.found hd hname hn hsz)
  | readlink t sz buf =>
      obtain ⟨target, ht, hsz⟩ := hl
      obtain ⟨n, hn, hb⟩ := id ht
      have hty := W.tidy.typed t n hn
      unfold Node.Typed at hty
      rw [hb] at hty
      exact W.looked (by simp [exec, I.readlink ht hty.2.1 hty.2.2 hsz]) (.readlink ht)
  | mknod d name mode =>
      obtain ⟨⟨names, hd, hnew, hname⟩, -⟩ := id hl
      obtain ⟨r, fs', hcall, hle, h⟩ := I.mknod hrw hd hnew hname hN mode
      refine W.done hl (by simp [exec, hcall]; rfl) hle fun hc => ?_
      obtain ⟨rfl, hrw', t, ht, himage⟩ := h hc
      exact ⟨hrw'.trans hrw, _, .mknod ht, himage⟩
  | unlink d name =>
      obtain ⟨names, hd, h0, hfile⟩ := id hl
      cases hname : names name with
      | none =>
          exact W.looked (by simp [exec, I.unlink_missing hrw hd h0 hname hN])
            (.unlinkMissing hd hname)
      | some t =>
          obtain ⟨n, hn⟩ := Option.ne_none_iff_exists'.mp (W.tidy.closed d names name t hd hname)
          obtain ⟨hb, hlinks⟩ := hfile t n hname hn
          by_cases hback : GivesBack N fs d name
          · exact Or.inl (Or.inr ⟨d, name, rfl, hback⟩)
          · obtain ⟨fs', hcall, hrw', hle, h⟩ := I.unlink hrw hd h0 hname hn (W.tidy.typed t n hn)
              hb hlinks hN hback
            exact W.done hl (by simp [exec, hcall]) hle fun hc =>
              ⟨hrw', _, .unlink hd hname, h hc⟩
  | link d name t =>
      obtain ⟨ht, names, hd, hnew, hname⟩ := id hl
      obtain ⟨n, hn⟩ := Option.ne_none_iff_exists'.mp ht
      have hty := W.tidy.typed t n hn
      by_cases hdir : ∃ names, n.body = .dir names
      · obtain ⟨names', hb⟩ := hdir
        exact W.looked (by simp [exec, I.link_dir hrw hn hty hb]) (.linkDir ⟨n, hn, hb⟩)
      · obtain ⟨r, fs', hcall, hrw', hle, h⟩ := I.link hrw hd hnew hname hn hty
          (fun names' hb => hdir ⟨names', hb⟩) hN
        refine W.done hl (by simp [exec, hcall]; rfl) hle fun hc => ?_
        obtain ⟨rfl, himage⟩ := h hc
        refine ⟨hrw', _, .link ?_, himage⟩
        rintro names' ⟨n', hn', hb⟩
        obtain rfl := Option.some.inj (hn.symm.trans hn')
        exact hdir ⟨names', hb⟩
  | symlink d name target =>
      obtain ⟨⟨names, hd, hnew, hname⟩, -, hlen⟩ := id hl
      obtain ⟨r, fs', hcall, hle, h⟩ := I.symlink hrw hd hnew hname hlen hN
      refine W.done hl (by simp [exec, hcall]; rfl) hle fun hc => ?_
      obtain ⟨rfl, hrw', t, ht, himage⟩ := h hc
      exact ⟨hrw'.trans hrw, _, .symlink ht, himage⟩
  | chmod t mode =>
      obtain ⟨ht, hmode⟩ := id hl
      obtain ⟨n, hn⟩ := Option.ne_none_iff_exists'.mp ht
      obtain ⟨fs', hcall, hrw', himage⟩ := I.chmod hrw hn hmode
      exact W.changed hl (by simp [exec, hcall]) .chmod himage hrw'
  | chown t uid gid =>
      obtain ⟨n, hn⟩ := Option.ne_none_iff_exists'.mp hl
      obtain ⟨fs', hcall, hrw', himage⟩ := I.chown hrw hn uid gid
      exact W.changed hl (by simp [exec, hcall]) .chown himage hrw'

/-- **A volume serves its clients.** A client that makes legal calls only is answered as
the nodes of a file system would answer it, one call after the other, until the volume
gives up. -/
theorem clients_served (W : World p A fs) {c : Client Op Reply} (hc : c.Legal contract A)
    (hN : 2 ^ 32 ≤ N) : Attended contract (World p) (exec N) (Lost N) c A fs :=
  attended_of_step (fun _ _ _ W hl => W.answers hl hN) c W hc

end Answers

/-! ## A client -/

/-- A volume with one directory, of number 2. -/
abbrev rootFs : Fs := (writeInode freshFs (newIno 0x41ed) 2).2

def rootNode : Node := ⟨0x41ed, 0, 0, 1, .dir fun _ => none⟩

def rootNodes : Nodes := Function.update (fun _ => none) 2 (some rootNode)

theorem rootFs_world : World 256 rootNodes rootFs where
  image := by
    have hempty : Image 256 (fun _ => none) freshFs := by
      refine ⟨⟨freshFs_oneGroup, ?_, ?_, ?_, ?_⟩, fun t n hn => by cases hn⟩
      all_goals
        rintro t ⟨n, hn, -⟩
        cases hn
    have hattrs : Attrs (newIno 0x41ed) rootNode := by
      refine ⟨iMode_newIno _, (owner_newIno _).1, (owner_newIno _).2, iLinksCount_newIno _⟩
    exact (hempty.saved_blank (by decide) rfl ⟨by decide, by decide +kernel⟩ (by decide +kernel)
      (blank_newIno _) hattrs (Or.inr ⟨by decide, rfl⟩)).1
  tidy := by
    have hempty : Nodes.Tidy fun _ => none := by
      refine ⟨fun t n hn => ?_, fun d names name t hd => ?_⟩
      · cases hn
      · obtain ⟨n, hn, -⟩ := hd
        cases hn
    refine hempty.update rfl fun names hb name u hu => ?_
    obtain rfl := Body.dir.inj hb
    cases hu
  rw := (writeInode_sameMount ..).rw

/-- Makes a file, looks it up, writes to it and reads what it has written. -/
def makeAndFill : Client Op Reply :=
  .call (.mknod 2 [97] 0x81a4) fun _ =>
    .call (.finddir 2 [97]) fun
      | .node (some node) =>
          .call (.write node.inode 0 3 fun _ => 7) fun _ =>
            .call (.read node.inode 0 3 fun _ => 0) fun _ => .stop
      | _ => .stop

theorem makeAndFill_legal : makeAndFill.Legal contract rootNodes := by
  have hroot : rootNodes.IsDir 2 fun _ => none := ⟨rootNode, Function.update_self .., rfl⟩
  refine ⟨⟨⟨_, hroot, rfl, by decide, by decide, by decide⟩, by decide⟩, fun o A₁ hs₁ => ?_⟩
  cases hs₁ with
  | @mknod d t mode name ht =>
  have hne : 2 ≠ t := by
    rintro rfl
    cases ht
  have hd₁ : Nodes.IsDir (Function.update (rootNodes.setName 2 [97] (some t)) t
      (some (newNode 0x81a4 t 2))) 2 (Function.update (fun _ => none) [97] (some t)) := by
    rw [@setName_eq rootNodes 2 rootNode [97] _ (Function.update_self ..) rfl]
    exact ⟨_, by rw [Function.update_of_ne hne, Function.update_self], rfl⟩
  refine ⟨⟨_, hd₁, by decide⟩, fun o A₂ hs₂ => ?_⟩
  cases hs₂ with
  | missing => trivial
  | @found _ u sz _ names n hd hname hu hsz =>
  obtain rfl := IsDir.unique hd hd₁
  obtain rfl : t = u := by simpa using hname
  obtain rfl : newNode 0x81a4 t 2 = n := by simpa using hu
  by_cases hbad : t = badIno
  · simp only [Node.stat, if_pos hbad]
    trivial
  have hnode : newNode 0x81a4 t 2 = ⟨0x81a4, 0, 0, 1, .file []⟩ := rfl
  rw [hnode] at hu ⊢
  have hstat : Node.stat ⟨0x81a4, 0, 0, 1, .file []⟩ [97] t sz
      = some ⟨t, [97], 0o644, sz, 0, 0, 1, 8⟩ := if_neg hbad
  rw [hstat]
  refine ⟨⟨[], ⟨_, hu, rfl⟩, by decide, by decide⟩, fun o A₃ hs₃ => ?_⟩
  cases hs₃ with
  | @write _ _ _ _ bytes hf =>
  refine ⟨⟨overwrite bytes 0 3 fun _ => 7, ?_, Or.inr ?_, by decide, by decide⟩,
    fun _ _ _ => trivial⟩
  · rw [Nodes.setBody, edit_eq hu]
    exact ⟨_, Function.update_self .., rfl⟩
  · rw [overwrite_length]
    omega

/-- A client of the volume with one directory. -/
theorem clients_served_rootFs :
    Attended contract (World 256) (exec (2 ^ 32)) (Lost (2 ^ 32)) makeAndFill rootNodes rootFs :=
  clients_served rootFs_world makeAndFill_legal (Nat.le_refl _)

end Ext2

end Shitos
