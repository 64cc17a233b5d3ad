import Oifs.Chunk
import Oifs.Outcome

namespace Oifs

open Outcome

/-! What the stores of a call leave alone, whether it succeeds or fails. -/

section Frame

variable {R : Volume → Prop} (hblock : ∀ v b f, R v → R (Volume.setBlock v b f))
  (hmark : ∀ v b n, R v → R { Volume.setMark v b true with freeBlockHint := n })

include hblock hmark

theorem allocateBlock_keeps : Keeps R Volume.allocateBlock := by
  intro v hv
  unfold Volume.allocateBlock
  split
  next => exact hv
  next bit _ =>
    dsimp only
    split
    next => exact hv
    next => exact hblock _ _ _ (hmark _ _ _ hv)

theorem allocAndZeroBlock_keeps : Keeps R Volume.allocAndZeroBlock :=
  (allocateBlock_keeps hblock hmark).bind fun _ =>
    (Keeps.modify fun v hv => hblock v _ _ hv).bind fun _ => Keeps.pure _

theorem getOrAllocIndirectChild_keeps (parent idx : Nat) (allocate inner : Bool) :
    Keeps R (Volume.getOrAllocIndirectChild parent idx allocate inner) := by
  refine Keeps.get.bind fun v => ?_
  dsimp only
  split
  next => exact Keeps.throw _
  next =>
    split
    next => exact Keeps.throw _
    next =>
      split
      next =>
        have hlink : ∀ child : Nat, Keeps R (do
            modify (·.writeBlockPtr parent idx child)
            return child : DiskM Nat) := fun child =>
          (Keeps.modify fun v hv => hblock v _ _ hv).bind fun _ => Keeps.pure _
        split
        next => exact (allocAndZeroBlock_keeps hblock hmark).bind hlink
        next => exact (allocateBlock_keeps hblock hmark).bind hlink
      next => exact Keeps.pure _

omit hblock hmark in
theorem checkedSlot_keeps (i : Inode) (s : Nat) (text : String) : Keeps R (do
    let w ← get
    if i.slot s ≠ 0 ∧ !w.isDataBlock (i.slot s) then throw (.io text)
    else return (i.slot s, i) : DiskM (Nat × Inode)) := by
  refine Keeps.get.bind fun v => ?_
  split
  next => exact Keeps.throw _
  next => exact Keeps.pure _

theorem ensureRoot_keeps (i : Inode) (s : Nat) (allocate : Bool) :
    Keeps R (Volume.ensureRoot i s allocate) := by
  unfold Volume.ensureRoot
  split
  next => exact (allocAndZeroBlock_keeps hblock hmark).bind fun _ => checkedSlot_keeps _ _ _
  next => exact checkedSlot_keeps _ _ _

/-- What stores to blocks and marks keep, the search for a block keeps. -/
theorem getOrAllocBlock_keeps (i : Inode) (idx : Nat) (allocate : Bool) :
    Keeps R (Volume.getOrAllocBlock i idx allocate) := by
  have hlevel : ∀ (parent k : Nat) (inner : Bool) (j : Inode), Keeps R (do
      return (← Volume.getOrAllocIndirectChild parent k allocate inner, j) :
        DiskM (Nat × Inode)) := fun parent k inner j =>
    (getOrAllocIndirectChild_keeps hblock hmark parent k allocate inner).bind fun _ => Keeps.pure _
  unfold Volume.getOrAllocBlock
  split
  next =>
    split
    next => exact (allocateBlock_keeps hblock hmark).bind fun _ => checkedSlot_keeps _ _ _
    next => exact checkedSlot_keeps _ _ _
  next =>
    refine (ensureRoot_keeps hblock hmark i 10 allocate).bind fun r => ?_
    dsimp only
    split
    next => exact Keeps.pure _
    next => exact hlevel _ _ _ _
  next =>
    refine (ensureRoot_keeps hblock hmark i 11 allocate).bind fun r => ?_
    dsimp only
    split
    next => exact Keeps.pure _
    next =>
      refine (getOrAllocIndirectChild_keeps hblock hmark _ _ _ _).bind fun sib => ?_
      split
      next => exact Keeps.pure _
      next => exact hlevel _ _ _ _
  next =>
    refine (ensureRoot_keeps hblock hmark i 12 allocate).bind fun r => ?_
    dsimp only
    split
    next => exact Keeps.pure _
    next =>
      refine (getOrAllocIndirectChild_keeps hblock hmark _ _ _ _).bind fun dib => ?_
      split
      next => exact Keeps.pure _
      next =>
        refine (getOrAllocIndirectChild_keeps hblock hmark _ _ _ _).bind fun sib => ?_
        split
        next => exact Keeps.pure _
        next => exact hlevel _ _ _ _
  next => exact Keeps.throw _

theorem writeBufferAtOffset_keeps (i : Inode) (off : Nat) (data : List UInt8) :
    Keeps R (Volume.writeBufferAtOffset i off data) := by
  induction i, off, data using Volume.writeBufferAtOffset.induct with
  | case1 i off data hempty =>
    rw [Volume.writeBufferAtOffset, if_pos hempty]
    exact Keeps.pure _
  | case2 i off data hempty ih =>
    rw [Volume.writeBufferAtOffset, if_neg hempty]
    refine (getOrAllocBlock_keeps hblock hmark i _ true).bind fun r => ?_
    refine Keeps.bind (Keeps.modify fun v hv => hblock v _ _ hv) fun _ => ?_
    exact ih r.2

end Frame

theorem writeInodeInternal_keeps {R : Volume → Prop}
    (hinode : ∀ v f, R v → R { v with inode := f }) (id : Nat) (i : Inode) :
    Keeps R (Volume.writeInodeInternal id i) := by
  intro v hv
  have hruns : Runs R (Volume.writeInodeInternal id i) v fun _ _ => True := by
    refine Runs.get_bind ?_
    split
    next => exact Runs.throw hv
    next => exact (Runs.set (hinode _ _ hv)).mono fun _ _ _ _ => trivial
  exact hruns.final

end Oifs
