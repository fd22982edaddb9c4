import Shitos.Ext2Tail
import Shitos.Ext2Write

/-!
# Inodes side by side

An operation on one inode writes its home block, which it shares with other
inodes, and its own blocks. An inode that lies apart from these is left alone.
-/

namespace Shitos

namespace Ext2

open PtrTree

/-- Inode `no` as the device has it. -/
def fileOf (fs : Fs) (no : Nat) : File := ⟨fs, diskInode fs no, no, []⟩

/-- A copy of the inode in memory does not matter for its blocks. -/
theorem Dense.of_agree {p n : Nat} {f : File} (D : Dense p n f) {ino : Mem} {got : List Nat}
    (h : Agree ino f.ino 0 128) : Dense p n ⟨f.fs, ino, f.no, got⟩ := by
  have hat : ∀ x, (tree p).Valid x → File.at ⟨f.fs, ino, f.no, got⟩ x = f.at x :=
    node_congr (fun r (hr : r < 15) => rd32_congr (h.mono (Nat.zero_le _) (by omega)))
      fun _ _ _ _ _ => rfl
  have hrun : BitRun [] true ∅ f.fs f.fs := BitRun.refl f.fs
  refine ⟨D.toOwned.run hrun rfl hat, filled_congr D.filled hat, ?_, D.small, D.limit⟩
  exact (rd32_congr (h.mono (Nat.zero_le _) (by omega))).trans D.count

/-- Inode `t` lies apart from the file: in no block of it, and in another place
if it is in the same home block. -/
structure Apart (p : Nat) (f : File) (t : Nat) : Prop where
  homed : Homed f.fs t
  taken : Taken f.fs (home f.fs t)
  slot : home f.fs t = home f.fs f.no → homeOff f.fs t + f.fs.inodeSz ≤ homeOff f.fs f.no
    ∨ homeOff f.fs f.no + f.fs.inodeSz ≤ homeOff f.fs t
  block : ∀ x, (tree p).Valid x → f.at x ≠ 0 → f.at x ≠ home f.fs t

/-- Inode `t` is as it was, and as much in use. -/
structure Untouched (fs fs' : Fs) (t : Nat) : Prop where
  inode : Agree (diskInode fs' t) (diskInode fs t) 0 fs.inodeSz
  bits : ∀ n < capacity .inode fs, usedBit .inode fs' n = usedBit .inode fs n

section Apart

variable {p t : Nat} {f f' : File} {bs new : List Nat} {v : Bool} {S : Set Nat}

/-- What is written to the blocks of the file, and of its home block in its own
place only, leaves an inode that lies apart alone. -/
theorem Apart.untouched (A : Apart p f t) (hr : BitRun bs v S f.fs f'.fs)
    (hS : S ⊆ {b | b ∈ new} ∪ span p f) (hnew : home f.fs t ∉ new)
    (hslot : ∀ i < f.fs.blockSz,
      ¬(homeOff f.fs f.no ≤ i ∧ i < homeOff f.fs f.no + f.fs.inodeSz) →
        blk f'.fs (home f.fs f.no) i = blk f.fs (home f.fs f.no) i) :
    Untouched f.fs f'.fs t := by
  refine ⟨?_, hr.inodeBits⟩
  by_cases heq : home f.fs t = home f.fs f.no
  · intro i _ hi
    have hfits := A.homed.fits
    have hapart := A.slot heq
    rw [diskInode, diskInode, hr.format.home, hr.format.homeOff, heq]
    exact hslot _ (by omega) (by omega)
  · refine hr.diskInode A.homed fun hm => ?_
    rcases hS hm with hm | hm | ⟨x, hx, h0, hm⟩
    · exact hnew hm
    · exact heq hm
    · exact A.block x hx h0 hm

theorem Changed.untouched (h : Changed p new f f') (A : Apart p f t) :
    Untouched f.fs f'.fs t :=
  A.untouched h.run (fun _ hb => hb) (A.taken.not_mem h.run) h.home.slot

/-- Giving one block back and saving the inode leaves an inode that lies apart
alone. -/
theorem Unlinked.untouched {y : Pos} (h : Unlinked p f y f') (O : Owned p f)
    (hy : (tree p).Valid y) (h0 : f.at y ≠ 0) (A : Apart p f t) :
    Untouched f.fs f'.save.2.fs t := by
  have hb := O.block y hy h0
  have V : Volume f'.fs := O.volume.of_given h.run fun b hmem => by
    rw [List.mem_singleton.mp hmem]
    exact ⟨hb.inVol, hb.notBook⟩
  have H : Homed f'.fs f'.no := by
    rw [h.no]
    exact O.homed.of_sameFormat h.run.format
  have hhome : Ext2.home f'.fs f'.no = Ext2.home f.fs f.no := by
    rw [h.no]
    exact h.run.format.home
  have hoff : homeOff f'.fs f'.no = homeOff f.fs f.no := by
    rw [h.no]
    exact h.run.format.homeOff
  have hsave := @writeInode_run _ _ false V H f'.ino
  rw [hhome] at hsave
  refine @Apart.untouched p t f f'.save.2 _ [] _ _ A (h.run.trans hsave) ?_
    List.not_mem_nil fun i hi hslot => ?_
  · rintro b (hm | hm)
    · exact Or.inr (own_subset_span p f hm)
    · exact Or.inr (Or.inl hm)
  · have hkept := (HomeKept.save V H f'.ino).1.slot i
    rw [hhome, hoff, h.run.format.blockSz, h.run.format.inodeSz] at hkept
    exact (hkept hi hslot).trans (h.home i hi)

end Apart

/-! ## An inode without tables on a full volume -/

/-- The pointers of inode 1 that are in use lead to the blocks from 9 on. -/
theorem fullFs_owned {tab : Nat → Nat → Nat}
    (h : ∀ r < 15, iBlock (diskInode (fullFs tab) 1) r ≠ 0 →
      r < 12 ∧ iBlock (diskInode (fullFs tab) 1) r = 9 + r) :
    Owned 256 (fileOf (fullFs tab) 1) ∧ ∀ x, (tree 256).Valid x →
      (fileOf (fullFs tab) 1).at x ≠ 0 → 9 ≤ (fileOf (fullFs tab) 1).at x := by
  have htab : ∀ r, 12 ≤ r → r < 15 → iBlock (fileOf (fullFs tab) 1).ino r = 0 := fun r hr hlt => by
    by_contra h0
    have := (h r hlt h0).1
    omega
  refine ⟨Owned.direct (show 1024 / 4 = 256 by decide) fullFs_volume fullFs_homed (fun _ => ?_)
    htab (fun r hr h0 => ?_) fun r hr q hq h0 heq => ?_, fun x hx h0 => ?_⟩
  · show usedBit .block (fullFs tab) (home (fullFs tab) 1) = true
    rw [fullFs_home]
    exact fullFs_used (by decide)
  · rw [show iBlock (fileOf (fullFs tab) 1).ino r = 9 + r from (h r (by omega) h0).2]
    refine ⟨fullFs_inVol (by omega) (by omega), ?_, ?_, ?_, fullFs_used (by omega)⟩
    · rw [show bookBlocks (fileOf (fullFs tab) 1).fs = [1, 2, 3, 4] from fullFs_bookBlocks]
      simp only [List.mem_cons, List.not_mem_nil, or_false]
      omega
    · rw [show home (fileOf (fullFs tab) 1).fs (fileOf (fullFs tab) 1).no = 5 from fullFs_home]
      omega
    · rw [show capacity .block (fileOf (fullFs tab) 1).fs = 1024 from fullFs_capacity]
      omega
  · have h₁ := (h r (by omega) h0).2
    have h₂ := (h q (by omega) (heq ▸ h0)).2
    change iBlock (diskInode (fullFs tab) 1) r = iBlock (diskInode (fullFs tab) 1) q at heq
    omega
  · obtain ⟨hxe, hlt⟩ := at_direct htab x hx h0
    rw [hxe] at h0 ⊢
    have := (h x.root (by omega) h0).2
    show 9 ≤ iBlock (diskInode (fullFs tab) 1) x.root
    omega

end Ext2

end Shitos
