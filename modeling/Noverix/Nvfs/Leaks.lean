/-
  What a failed call leaves in the bitmap.  As long as the bitmap itself can be
  read and written, most exits of `nvfs_write`, `nvfs_append` and `nvfs_mkdir`
  give back the blocks they have marked.  Four do not: the inode that new blocks
  are for could not be written, a directory's new block could not be written,
  the directory it was for could not be written, and the inode to be freed again
  could not be read.
-/

import Noverix.Nvfs.FaultCalls
import Noverix.Nvfs.ReadBack

namespace Noverix.Nvfs

open Lib

variable {m : List Note} {x : Note} {f : Nat → Sector} {start j k i : Nat} {t : UInt32} {X Y : Vol}
  {s : State}

variable {D : Device} {g : Globals} {V W : Vol}

/-- Freeing an inode again: its blocks are free afterwards, unless it could not be read. -/
theorem Freed.bit (h : Freed D g i start k j V m W)
    (hserved : BitmapServed D g) :
    m = [Note.unread j] ∧ W.bit = V.bit ∨
      m = [] ∧ ∀ b, W.bit b = (V.bit b && !decide (start ≤ b ∧ b < start + k)) := by
  rcases h with ⟨rfl, rfl⟩ | ⟨rfl, X, hc, hclear, hW⟩
  · exact .inl ⟨rfl, rfl⟩
  have hbit : W.bit = X.bit := by
    rcases hW with rfl | rfl
    · rfl
    · rfl
  refine .inr ⟨rfl, fun b => ?_⟩
  rw [hbit]
  by_cases hb : start ≤ b ∧ b < start + k
  · rw [hclear hserved b (mem_range'_1.mpr hb), decide_eq_true hb, Bool.not_true,
      Bool.and_false]
  rw [hc.other b (mt mem_range'_1.mp hb), decide_eq_false hb, Bool.not_false,
    Bool.and_true]

end Noverix.Nvfs
