/-
  The volume as the driver's address computations find it (`rawView`), whatever
  the numbers in its variables are, and the functions that only read, on a
  device that may fail.  Where the sectors that store the namespace do not fail
  (`Served`), `dir_find` and `find_parent` compute what they look for.
-/

import Noverix.Lib.Faults
import Noverix.Nvfs.Namespace

namespace Noverix.Nvfs

open Lib
open Lib.DiskProg (must must_bind must_mono)

variable {i b max dir : Nat} {n : Inode} {bs : List Nat} {name : List UInt8}

/-- The volume as the driver finds it on a disk. -/
def rawView (g : Globals) (d : Disk) : Vol where
  sb := d (u32 (g.nvfsOffset + 1))
  bit b := bitAt (d (bitmapSector g b)).byte (b % bitsPerSec)
  ino i :=
    if i < g.sbInodeCount then (Inode.load (d (inodeSector g i)).byte (inodeOffset i)).capExtents
    else Inode.blank
  blk b := d (blockSector g b)

section

variable {D : Device} {g : Globals} {d : Disk}

theorem rawView_ino (i : Nat) : (rawView g d).ino i =
    if i < g.sbInodeCount then (Inode.load (d (inodeSector g i)).byte (inodeOffset i)).capExtents
    else Inode.blank := rfl

theorem rawView_live_lt (h : (rawView g d).tree.live i) : i < g.sbInodeCount := by
  by_contra hi
  refine h ?_
  rw [rawView_ino, if_neg hi]
  rfl

@[simp] theorem must_setErrno {e : NvfsErr} {Q : Unit → Globals → Disk → Prop} :
    must D (setErrno e) Q g d ↔ Q () g d := .rfl

/-! ## Blocks and inodes -/

theorem must_readBlock_raw {Q : Option Sector → Globals → Disk → Prop}
    (hbad : D.bad (blockSector g b) → Q none g d) (hok : Q (some ((rawView g d).blk b)) g d) :
    must D (readBlock b) Q g d := ⟨hbad, fun _ => hok⟩

theorem must_inodeRead_raw {Q : Option Inode → Globals → Disk → Prop}
    (hbad : (i < g.sbInodeCount → D.bad (inodeSector g i)) → Q none g d)
    (hok : i < g.sbInodeCount → Q (some ((rawView g d).ino i)) g d) :
    must D (inodeRead i) Q g d := by
  unfold inodeRead
  rw [must_bind, must_getState]
  by_cases hi : g.sbInodeCount ≤ i
  · rw [if_pos hi]
    exact hbad fun h => absurd h (Nat.not_lt.mpr hi)
  have hread := hok (not_le.mp hi)
  rw [rawView_ino, if_pos (not_le.mp hi)] at hread
  rw [if_neg hi, must_bind]
  exact ⟨fun h => hbad fun _ => h, fun _ => hread⟩

variable {Q : Option (List Extent) → Globals → Disk → Prop}

theorem must_indirectReadExtents_raw
    (hbad : D.bad (blockSector g b) → Q none g d)
    (hok : Q (some ((range (min max nvfsIndirectEnts)).map
      fun i => loadExtent ((rawView g d).blk b).byte (i * nvfsExtentSize))) g d) :
    must D (indirectReadExtents b max) Q g d := by
  unfold indirectReadExtents
  rw [must_bind]
  exact must_readBlock_raw hbad hok

theorem must_extentLoadAll_raw
    (hbad : (∃ b ∈ n.indBlks, D.bad (blockSector g b)) → Q none g d)
    (hok : Q (some ((rawView g d).extList n)) g d) : must D (extentLoadAll n) Q g d := by
  unfold extentLoadAll
  by_cases h : n.extentCount.toNat ≤ nvfsDirectExtents
  · have hlist : (rawView g d).extList n
        = (range (min n.extentCount.toNat nvfsDirectExtents)).map n.ext := by
      unfold Vol.extList
      rw [Nat.sub_eq_zero_of_le h]
      simp
    rw [if_pos h, DiskProg.must_pure, ← hlist]
    exact hok
  have hmem : (n.ext nvfsDirectExtents).start.toNat ∈ n.indBlks := by
    unfold Inode.indBlks
    rw [if_pos (not_le.mp h)]
    exact mem_singleton_self _
  rw [if_neg h, must_bind]
  refine must_indirectReadExtents_raw (fun hb => hbad ⟨_, hmem, hb⟩) ?_
  rw [indirect_min]
  exact hok

theorem must_extentReadBlocks_raw {remain : Nat} {buf : List UInt8}
    (hbuf : buf.length ≤ remain) :
    must D (extentReadBlocks remain bs buf) (fun r _ _ => r = none ∨
      r = some ((buf ++ bs.flatMap fun b => ((rawView g d).blk b).bytes).take remain)) g d := by
  induction bs generalizing buf with
  | nil =>
    refine .inr ?_
    simp [take_of_length_le hbuf]
  | cons b bs ih =>
    unfold extentReadBlocks
    by_cases hlt : buf.length < remain
    · have hcopy : (range (min nvfsSectorSize (remain - buf.length))).map
          ((rawView g d).blk b).byte = ((rawView g d).blk b).bytes.take (remain - buf.length) := by
        unfold Sector.bytes
        rw [← map_take, take_range, Nat.min_comm]
      rw [if_pos hlt, must_bind]
      refine must_readBlock_raw (fun _ => Or.inl rfl) ?_
      simp only [hcopy]
      refine must_mono (fun r _ _ h => ?_) (ih ?_)
      · rwa [flatMap_cons, ← take_append_take_append hbuf]
      · rw [length_append, length_take]
        omega
    have heq : remain = buf.length := by omega
    rw [if_neg hlt, heq, List.take_left]
    exact .inr rfl

theorem must_extentRead_raw :
    must D (extentRead n max) (fun r _ _ => r = none ∨ r = some ((rawView g d).content n max))
      g d := by
  unfold extentRead
  rw [must_bind]
  exact must_extentLoadAll_raw (fun _ => Or.inl rfl) (must_extentReadBlocks_raw (Nat.zero_le _))

/-! ## Lookup -/

/-- Inode `i` or one of its blocks may fail to be read. -/
def Unread (D : Device) (g : Globals) (V : Vol) (i : Nat) : Prop :=
  D.bad (inodeSector g i) ∨ ∃ b ∈ V.refs (V.ino i), D.bad (blockSector g b)

theorem must_dirFindBlocks_raw (hn : NulFree name) :
    must D (dirFindBlocks name bs) (fun r _ _ =>
      r = none ∧ (∃ b ∈ bs, D.bad (blockSector g b)) ∨
        r = lookup (bs.flatMap fun b => sectorEntries ((rawView g d).blk b)) name) g d := by
  induction bs with
  | nil => exact .inr rfl
  | cons b bs ih =>
    unfold dirFindBlocks
    rw [must_bind]
    refine must_readBlock_raw (fun hbad => ?_) ?_
    · exact .inl ⟨rfl, b, mem_cons_self, hbad⟩
    · unfold lookup at ih ⊢
      rw [flatMap_cons, find?_append, find_sectorEntries _ hn]
      cases hf : findSlot ((rawView g d).blk b) name with
      | some e =>
        simp only [hf]
        exact .inr rfl
      | none =>
        simp only [hf]
        refine must_mono (fun r _ _ h => ?_) ih
        rcases h with ⟨hr, c, hc, hbad⟩ | hr
        · exact .inl ⟨hr, c, mem_cons_of_mem _ hc, hbad⟩
        · exact .inr hr

theorem must_dirFind_raw (hn : NulFree name) :
    must D (dirFind dir name) (fun r _ _ => r = none ∧ Unread D g (rawView g d) dir ∨
      r = if ((rawView g d).ino dir).type = nvfsTypeDir
        then lookup ((rawView g d).entries ((rawView g d).ino dir)) name else none) g d := by
  unfold dirFind
  rw [must_bind]
  refine must_inodeRead_raw (fun hbad => ?_) fun hdir => ?_
  · by_cases hdir : dir < g.sbInodeCount
    · exact .inl ⟨rfl, .inl (hbad hdir)⟩
    have hblank : (rawView g d).ino dir = Inode.blank := by rw [rawView_ino, if_neg hdir]
    refine .inr ?_
    rw [hblank]
    rfl
  · by_cases ht : ((rawView g d).ino dir).type = nvfsTypeDir
    · simp only [ht, ne_eq, not_true_eq_false, if_false, if_true]
      rw [must_bind]
      refine must_extentLoadAll_raw ?_ ?_
      · rintro ⟨b, hb, hbad⟩
        exact .inl ⟨rfl, .inr ⟨b, mem_append_right _ hb, hbad⟩⟩
      · refine must_mono (fun r _ _ h => ?_) (must_dirFindBlocks_raw hn)
        rcases h with ⟨hr, b, hb, hbad⟩ | hr
        · exact .inl ⟨hr, .inr ⟨b, mem_append_left _ hb, hbad⟩⟩
        · exact .inr hr
    simp only [ne_eq, ht, not_false_eq_true, if_true, if_false]
    exact .inr rfl

/-! ## Parents -/

theorem must_anySlot_raw {p : Nat → Bool} (hp : p 0 = false)
    (hbs : ∀ b ∈ bs, ¬ D.bad (blockSector g b)) :
    must D (anySlot p bs) (fun r _ _ =>
      r = (bs.flatMap fun b => sectorEntries ((rawView g d).blk b)).any fun e => p e.2) g d := by
  induction bs with
  | nil => exact rfl
  | cons b bs ih =>
    unfold anySlot
    rw [must_bind]
    refine must_readBlock_raw (fun h => absurd h (hbs b mem_cons_self)) ?_
    rw [flatMap_cons, List.any_append, ← any_slotInode hp]
    simp only
    cases (range direntsPerSec).any fun e => p (slotInode ((rawView g d).blk b) e) with
    | true => exact rfl
    | false => exact ih fun c hc => hbs c (mem_cons_of_mem _ hc)

end

/-- The sectors that store the namespace do not fail. -/
structure Served (D : Device) (g : Globals) (d : Disk) : Prop where
  inodes : ∀ i, i < g.sbInodeCount → ¬ D.bad (inodeSector g i)
  blocks : ∀ i, (rawView g d).tree.dir i →
    ∀ b ∈ (rawView g d).refs ((rawView g d).ino i), ¬ D.bad (blockSector g b)

namespace Served

variable {D : Device} {g : Globals} {d : Disk} (h : Served D g d)

include h

theorem not_unread (hi : (rawView g d).tree.dir i) : ¬ Unread D g (rawView g d) i := by
  rintro (hbad | ⟨b, hb, hbad⟩)
  · exact h.inodes i (rawView_live_lt (live_of_dir hi)) hbad
  · exact h.blocks i hi b hb hbad

theorem must_inodeRead (hi : i < g.sbInodeCount)
    {Q : Option Inode → Globals → Disk → Prop} (hok : Q (some ((rawView g d).ino i)) g d) :
    must D (inodeRead i) Q g d :=
  must_inodeRead_raw (fun hbad => absurd (hbad hi) (h.inodes i hi)) fun _ => hok

theorem must_extentLoadAll (hi : (rawView g d).tree.dir i)
    {Q : Option (List Extent) → Globals → Disk → Prop}
    (hok : Q (some ((rawView g d).extList ((rawView g d).ino i))) g d) :
    must D (extentLoadAll ((rawView g d).ino i)) Q g d := by
  refine must_extentLoadAll_raw ?_ hok
  rintro ⟨b, hb, hbad⟩
  exact absurd hbad (h.blocks i hi b (mem_append_right _ hb))

variable {Q : Option Nat → Globals → Disk → Prop}

theorem must_dirFind (hdir : (rawView g d).tree.dir dir) (hn : NulFree name)
    (hok : Q (lookup ((rawView g d).tree.kids dir) name) g d) :
    must D (dirFind dir name) Q g d := by
  refine must_of_readOnly (readOnly_dirFind _ _) (must_dirFind_raw hn) fun r hr => ?_
  have htype : ((rawView g d).ino dir).type = nvfsTypeDir := hdir
  rw [if_pos htype, ← kids_of_dir hdir] at hr
  rcases hr with ⟨-, hbad⟩ | rfl
  · exact absurd hbad (h.not_unread hdir)
  · exact hok

theorem must_findParentLoop (hcount : g.sbInodeCount ≤ 2 ^ 31) (h0 : i ≠ 0)
    {is : List Nat} (his : ∀ j ∈ is, j < g.sbInodeCount) :
    must D (findParentLoop i is)
      (fun r _ _ => r = is.find? (hasEntryFor (rawView g d) i)) g d := by
  induction is with
  | nil => exact rfl
  | cons j is ih =>
    have hj := his j mem_cons_self
    have ih' := ih fun k hk => his k (mem_cons_of_mem _ hk)
    unfold findParentLoop
    rw [must_bind, find?_cons]
    refine h.must_inodeRead hj ?_
    unfold hasEntryFor at ih' ⊢
    by_cases ht : ((rawView g d).ino j).type = nvfsTypeDir
    · simp only [ht, ne_eq, not_true_eq_false, ↓reduceIte, decide_true, Bool.true_and]
      rw [must_bind]
      refine h.must_extentLoadAll ht ?_
      simp only
      rw [must_bind]
      refine must_of_readOnly (readOnly_anySlot _ _) (must_anySlot_raw
        (by simpa using Ne.symm h0) fun b hb => h.blocks j ht b (mem_append_left _ hb))
        fun r hr => ?_
      have hany : r = ((rawView g d).entries ((rawView g d).ino j)).any fun e => e.2 == i := hr
      rw [← hany]
      cases r with
      | true => exact asInt_of_lt (by omega)
      | false => exact ih'
    simp only [ne_eq, ht, not_false_eq_true, ↓reduceIte, decide_false, Bool.false_and]
    exact ih'

theorem must_findParent (hcount : g.sbInodeCount ≤ 2 ^ 31)
    (hok : Q (if i = 0 then none
      else (range g.sbInodeCount).find? (hasEntryFor (rawView g d) i)) g d) :
    must D (findParent i) Q g d := by
  refine must_of_readOnly (readOnly_findParent i) (R := fun r => r = if i = 0 then none
    else (range g.sbInodeCount).find? (hasEntryFor (rawView g d) i)) ?_ fun r hr => hr ▸ hok
  unfold findParent
  by_cases h0 : i = 0
  · rw [if_pos h0, if_pos h0]
    exact rfl
  rw [if_neg h0, if_neg h0, must_bind, must_getState]
  exact h.must_findParentLoop hcount h0 fun j hj => mem_range.mp hj

end Served

end Noverix.Nvfs
