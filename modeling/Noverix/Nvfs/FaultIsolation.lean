/-
  What a fault does not spread to.  A call that fails may leave marks, an entry or an
  inode behind.  But it writes to free blocks and to those of its own directory only, so
  whatever cannot be read or written, the other inodes in use keep their data.
-/

import Noverix.Nvfs.Dangling

namespace Noverix.Nvfs

open Lib

variable {D : Device} {g g' : Globals} {V W X : Vol} {m : List Note} {r : Bool} {t : UInt32}
  {i j p start k : Nat}

theorem Spares.unchanged (h : Spares V W) (hmarked : ∀ b ∈ V.refs (V.ino j), V.bit b = true) :
    Unchanged V W j :=
  ⟨congrFun h.ino j, fun _ b hb => h.blk b (hmarked b hb)⟩

/-- `dir_add` writes to the directory's own blocks and to free ones. -/
theorem Added.unchanged {nd : Mem} (h : Added D g V p nd t r m W) (hdir : r = true → V.tree.dir p)
    (hj : j ≠ p) (hmarked : ∀ b ∈ V.refs (V.ino j), V.bit b = true)
    (hother : V.tree.dir p → ∀ b ∈ V.refs (V.ino p), b ∉ V.refs (V.ino j)) :
    Unchanged V W j := by
  have hkept : ∀ {X}, V.tree.dir p → DirKept V (V.ino p) X → Unchanged V X j := fun hp hX =>
    ⟨congrFun hX.ino j, fun _ b hb =>
      hX.blk b (hmarked b hb) fun hi => hother hp b (mem_append_right _ hi) hb⟩
  have hslot : ∀ {b s}, V.tree.dir p → b ∈ V.blocksOf (V.ino p) → Unchanged V (V.setBlk b s) j := by
    refine fun hp hb => ⟨rfl, fun _ c hc => update_of_ne ?_ ..⟩
    rintro rfl
    exact hother hp _ (mem_append_left _ hb) hc
  have hself : ∀ {X n}, Unchanged V X j → Unchanged V (X.setIno p n) j := fun hX =>
    ⟨(update_of_ne hj ..).trans hX.ino, hX.blk⟩
  cases h with
  | untouched => exact ⟨rfl, fun _ _ _ => rfl⟩
  | kept hp _ hX _ => exact hkept hp hX
  | lost hp _ _ hX _ => exact hkept hp hX
  | unsaved hp hb _ => exact hslot hp hb
  | slot hb _ => exact hself (hslot (hdir rfl) hb)
  | @grown b ok n' _ X _ _ hfree _ hext _ =>
    refine hself ⟨?_, fun _ c hc => ?_⟩
    · rw [hext.ino]
      exact congrFun Vol.markIf_ino j
    have hne : c ≠ b := by
      rintro rfl
      exact absurd (hfree.symm.trans (hmarked c hc)) (by decide)
    have hbit : (V.markIf b ok).bit c = true := by
      rw [Vol.markIf_bit, hmarked c hc, Bool.true_or]
    rw [hext.blk hbit fun hi => hother (hdir rfl) c (mem_append_right _ hi) hc, setBlk_blk,
      if_neg hne]
    exact congrFun Vol.markIf_blk c

theorem Freed.unchanged {c : Nat} (h : Freed D g i start k c V m W) (hj : j ≠ i) :
    Unchanged V W j := by
  rcases h with ⟨-, rfl⟩ | ⟨-, X, hc, -, rfl | rfl⟩
  · exact ⟨rfl, fun _ _ _ => rfl⟩
  · exact ⟨congrFun hc.ino j, fun _ b _ => congrFun hc.blk b⟩
  · exact ⟨(update_of_ne hj ..).trans (congrFun hc.ino j), fun _ b _ => congrFun hc.blk b⟩

theorem Created.unchanged {name : List UInt8} {type : UInt8} {f : Nat → Sector}
    (h : Created D g V p name type f k t r m g' W) (hown : BlocksOwned V)
    (hgrew : Note.tableGrew ∉ m) (hlive : V.tree.live j)
    (hj : ∀ q i, Note.target q i ∈ m → j ≠ q) : Unchanged V W j := by
  have hmarked := hown.marked j hlive
  have hadded : ∀ {i n start m₁ m₂ r X Y}, Newborn D g V i n type f start k m₁ X → j ≠ p →
      (r = true → X.tree.dir p) → Added D g X p (direntBytes name i) t r m₂ Y → Unchanged V Y j := by
    intro i n start m₁ m₂ r X Y hborn hjp hdir hadd
    have hji := hborn.ne_of_live hlive
    have hrefs := hborn.refs_of_ne hji hmarked
    have hnew : Unchanged V X j :=
      ⟨hborn.ino_of_ne hji, fun _ b hb => hborn.blk_of_marked (hmarked b hb)⟩
    refine hnew.trans (hadd.unchanged hdir hjp (fun b hb => ?_) fun hp b hb => ?_)
    · rw [hrefs] at hb
      exact hborn.bit_of_marked (hmarked b hb)
    · -- the directory is empty if it is the new inode
      rw [hrefs]
      rcases hborn.refs_of_dir hown.dirsMarked hp with ⟨hnil, -⟩ | ⟨heq, hp'⟩
      · rw [hnil] at hb
        cases hb
      · rw [heq] at hb
        exact hown.disjoint p j (live_of_dir hp') hlive hjp.symm b hb
  cases h with
  | grew h _ => exact absurd h hgrew
  | noInode _ hs _ => exact hs.unchanged hmarked
  | undone _ h =>
    refine ⟨h.ino j ?_, fun _ b hb => h.blk b (hmarked b hb)⟩
    rintro rfl
    exact hlive h.dead
  | refused hborn hadd hfreed =>
    exact (hadded hborn (hj _ _ mem_cons_self) (fun h => by cases h) hadd).trans
      (hfreed.unchanged (hborn.ne_of_live hlive))
  | entered hborn hdir hadd => exact hadded hborn (hj _ _ mem_cons_self) (fun _ => hdir) hadd

end Noverix.Nvfs
