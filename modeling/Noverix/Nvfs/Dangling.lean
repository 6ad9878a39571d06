/-
  What a failed call that makes an inode leaves in the directories.  `dir_add`
  writes the entry first and the directory's inode after it, and reports one
  status for both; the callers take a failure to mean that there is no entry and
  free the inode.  So there is one exit at which an entry is left behind that
  leads to an inode which is free again.
-/

import Noverix.Nvfs.FaultCalls
import Noverix.Nvfs.ReadBack

namespace Noverix.Nvfs

open Lib

variable {p root dir c b e : Nat} {m : List Note} {name : List UInt8} {d : Disk} {s : State}
  {D : Device} {g : Globals} {V W X Y : Vol}

theorem Vol.kids_of_not_dir (h : ¬ V.tree.dir p) : V.tree.kids p = [] := if_neg h

theorem Vol.kids_congr (hino : W.ino p = V.ino p)
    (hblk : ∀ b ∈ V.refs (V.ino p), W.blk b = V.blk b) : W.tree.kids p = V.tree.kids p := by
  by_cases hdir : V.tree.dir p
  · rw [kids_of_dir hdir, kids_of_dir ((Vol.dir_of_ino hino).mpr hdir), hino]
    exact Vol.entries_congr hblk
  · rw [Vol.kids_of_not_dir hdir, Vol.kids_of_not_dir (mt (Vol.dir_of_ino hino).mp hdir)]

namespace Newborn

variable {i start k : Nat} {n : Inode} {type : UInt8} {f : Nat → Sector} {m : List Note}

theorem kids (h : Newborn D g V i n type f start k m X) (hV : DirsMarked V) {j : Nat}
    (hj : V.tree.dir j) : X.tree.kids j = V.tree.kids j :=
  Vol.kids_congr (h.ino_of_ne (h.ne_of_live (live_of_dir hj)))
    fun b hb => h.blk_of_marked (hV j hj b hb)

end Newborn

/-- A `dir_add` that has touched nothing in use leaves the entries alone. -/
theorem DirKept.kids (h : DirKept X (X.ino dir) Y) (hX : DirsOwned X)
    (hdir : X.tree.dir dir) (hp : X.tree.dir p) : Y.tree.kids p = X.tree.kids p := by
  by_cases hpd : p = dir
  · subst hpd
    have hexts : Y.blocksOf (X.ino p) = X.blocksOf (X.ino p) := congrArg extentBlocks h.exts
    have hino : Y.ino p = X.ino p := by rw [h.ino]
    rw [kids_of_dir hp, kids_of_dir ((Vol.dir_of_ino hino).mpr hp), hino, Vol.entries,
      Vol.entries, hexts]
    refine flatMap_congr fun b hb => ?_
    have hdata : b ∉ (X.ino p).indBlks :=
      fun hi => (nodup_append.mp (hX.nodup p hp)).2.2 b hb b hi rfl
    rw [h.blk b (hX.marked p hp b (mem_append_left _ hb)) hdata]
  refine Vol.kids_congr (by rw [h.ino]) fun b hb => ?_
  have hother := hX.disjoint p dir hp hdir hpd b hb
  exact h.blk b (hX.marked p hp b hb) fun hi => hother (mem_append_right _ hi)

/-! ## Freeing it again -/

namespace Freed

variable {i start k j : Nat} {m : List Note}

section

variable (h : Freed D g i start k j Y m W)
include h

theorem blk : W.blk = Y.blk := by
  rcases h with ⟨-, rfl⟩ | ⟨-, Z, hc, -, rfl | rfl⟩
  · rfl
  · exact hc.blk
  · exact hc.blk

theorem ino_of_ne (hc : c ≠ i) : W.ino c = Y.ino c := by
  rcases h with ⟨-, rfl⟩ | ⟨-, Z, hZ, -, rfl | rfl⟩
  · rfl
  · rw [hZ.ino]
  · rw [setIno_ino, if_neg hc, hZ.ino]

theorem ino_self : W.ino i = Y.ino i ∨ W.ino i = (Y.ino i).freed := by
  rcases h with ⟨-, rfl⟩ | ⟨-, Z, hZ, -, rfl | rfl⟩
  · exact .inl rfl
  · exact .inl (by rw [hZ.ino])
  · exact .inr (by rw [setIno_ino, if_pos rfl])

theorem kids (hc : c ≠ i) : W.tree.kids c = Y.tree.kids c :=
  Vol.kids_congr (h.ino_of_ne hc) fun b _ => by rw [h.blk]

end

end Freed

section

variable {i start k parent : Nat} {n : Inode} {type : UInt8} {f : Nat → Sector}
  {m₁ m₃ : List Note}

end

end Noverix.Nvfs
