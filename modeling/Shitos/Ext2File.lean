import Shitos.Ext2Bytes

/-!
# Inodes that account for their blocks

`Backed p n f` is an inode that has no tables but those its content needs. It
either is dense, or the volume has run out of blocks while it was growing. Then
there may be tables that no content needs yet, and no more content comes.
Either way its blocks are paid for from the supply (`Edited.wrote`).
-/

namespace Shitos

namespace Ext2

open PtrTree

/-- The first `n` content blocks are there and no others, and `i_blocks` counts
them. Unless the volume is full there are no tables but those they need. -/
structure Backed (p n : Nat) (f : File) : Prop extends Mapped p n f where
  next : Filled (tree p) (iBlock f.ino) (entry f.fs) (need p n) ∨ Full f.fs

/-- What a write of a range does to the file, besides its bytes. -/
structure Wrote (p n m size : Nat) (f f' : File) : Prop where
  backed : Backed p m f'
  le : n ≤ m
  changed : ∃ new, Changed p new f f'
  fields : ∀ i, i < 4 ∨ 8 ≤ i ∧ i < 28 ∨ 32 ≤ i ∧ i < 40 ∨ 100 ≤ i → f'.ino i = f.ino i
  size : iSize f'.ino = max (iSize f.ino) size
  room : supply f'.fs + need p m ≤ supply f.fs + need p n

section Backed

variable {p n m : Nat} {f f' : File} {size : Nat}

theorem Dense.backed (D : Dense p n f) : Backed p n f := ⟨D.mapped, Or.inl D.filled⟩

theorem Backed.dense (H : Backed p n f) (h : ¬Full f.fs) : Dense p n f :=
  ⟨H.toOwned, H.next.resolve_right h, H.count, H.small, H.limit⟩

theorem Edited.wrote (h : Edited p n m size f f') (H : Backed p n f) : Wrote p n m size f f' :=
  have hpaid := h.paid H.next
  ⟨⟨h.mapped, hpaid.1⟩, h.le, h.changed, h.fields, h.size, hpaid.2⟩

end Backed

end Ext2

end Shitos
