/-
  The driver as a machine: its state is its variables and the disk, its steps
  are the public calls, and a run is any sequence of calls.  The main result is
  the step lemma of block ownership (`step_kept`): a call that finds a free
  inode slot when it needs one keeps `Owned` and the superblock, whether it
  succeeds or fails.
-/

import Noverix.Lib.Runs
import Noverix.Nvfs.Calls

namespace Noverix.Nvfs

open Lib
open Lib.DiskProg (wp wp_bind wp_mono)

variable {op : Op} {s : State} {V W : Vol} {i parent : Nat} {name : List UInt8} {r : Bool}

/-! ## The machine -/

/-- What follows the last slash of a path. -/
def lastComponent (path : List UInt8) : List UInt8 :=
  ((pathBuf path).reverse.takeWhile (· != slash)).reverse

/-- A path the calls can take: `resolve_path` copies the last component, unchecked,
    into a buffer for names. -/
structure Path where
  bytes : List UInt8
  fits : (lastComponent bytes).length ≤ nvfsMaxName

/-- The variables of the driver and its disk. -/
structure State where
  g : Globals
  d : Disk

/-- The public calls. -/
inductive Op where
  | read (path : Path) (max : UInt32)
  | write (env : Env) (path : Path) (data : Mem) (size : UInt32)
  | append (env : Env) (path : Path) (data : Mem) (size : UInt32)
  | delete (env : Env) (path : Path)
  | mkdir (env : Env) (path : Path)
  | rmdir (env : Env) (path : Path)
  | chdir (path : Path)
  | list (ci : Inode) (path : Path)

/-- The program of a call; its value is whether the call returned success. -/
def Op.prog : Op → NvfsM Bool
  | .read path max => do
    let r ← nvfsRead path.bytes max.toNat
    return r.isSome
  | .write env path data size => nvfsWrite env path.bytes data size.toNat
  | .append env path data size => nvfsAppend env path.bytes data size.toNat
  | .delete env path => nvfsDelete env path.bytes
  | .mkdir env path => nvfsMkdir env path.bytes
  | .rmdir env path => nvfsRmdir env path.bytes
  | .chdir path => do
    let r ← nvfsChdir path.bytes
    return r.isSome
  | .list ci path => nvfsList ci path.bytes

/-- A call on a disk of 32768 sectors. -/
def step (op : Op) (s : State) : State :=
  let r := DiskProg.run 32768 op.prog s.g s.d
  ⟨r.2.1, r.2.2⟩

/-- The call runs `inode_alloc`: it makes a directory, or writes to a name that does
    not exist. -/
def Op.Allocates (op : Op) (s : State) : Prop :=
  match op with
  | .write _ path _ _ => ∃ parent name,
      val 32768 (resolveNamed path.bytes) s.g s.d = some (parent, name) ∧
      val 32768 (dirFind parent name) s.g s.d = none
  | .mkdir _ path => ∃ parent name,
      val 32768 (resolveNamed path.bytes) s.g s.d = some (parent, name)
  | _ => False

/-- The call overwrites inode `i`, which exists. -/
def Op.Overwrites (op : Op) (s : State) (i : Nat) : Prop :=
  match op with
  | .write _ path _ _ => ∃ parent name, target s.g s.d path.bytes = some (parent, name, i)
  | _ => False

/-- If the call runs `inode_alloc`, the table has a free slot. -/
def SlotAvailable (ib : Nat) (op : Op) (s : State) : Prop :=
  op.Allocates s → FreeSlot ib (vol ib s.d)

theorem step_of_wp {Q : Globals → Disk → Prop}
    (h : wp 32768 (fun _ => True) op.prog (fun _ g d => Q g d) s.g s.d) :
    Q (step op s).g (step op s).d := wp_sound h

/-! ## Ownership -/

section

variable {ib : Nat} {P : Inode → Bool} {g : Globals} {d : Disk}

theorem Geometry.withCwd (hg : Geometry ib g) (c : Nat) :
    Geometry ib { g with nvfsCwd := c } :=
  ⟨hg.mounted, hg.offset, hg.bitmapStart, hg.bitmapSectors, hg.inodeStart, hg.dataStart,
    hg.inodeBlocks, hg.inodeCount, hg.lo, hg.hi⟩

/-- The directory that `nvfs_chdir` goes to. -/
def chdirTarget (g : Globals) (d : Disk) (path : List UInt8) : Option Nat :=
  if g.mounted then
    if path.takeWhile (· != 0) = [] then some nvfsRootInode
    else
      match val 32768 (resolvePath path) g d with
      | none => none
      | some (parent, name) =>
        if name = [] then some parent
        else
          match val 32768 (dirFind parent name) g d with
          | none => none
          | some inum =>
            match val 32768 (inodeRead inum) g d with
            | none => none
            | some inode => if inode.type ≠ nvfsTypeDir then none else some inum
  else none

theorem wp_nvfsChdir {C : Disk → Prop} {Q : Option Nat → Globals → Disk → Prop}
    {path : List UInt8} :
    wp 32768 C (nvfsChdir path) Q g d ↔
      match chdirTarget g d path with
      | none => Q none g d
      | some c => Q (some c) { g with nvfsCwd := c } d := by
  unfold nvfsChdir chdirTarget
  rw [wp_bind, DiskProg.wp_getState]
  split
  · split
    · rfl
    rw [wp_bind, wp_readOnly (readOnly_resolvePath _)]
    cases val 32768 (resolvePath path) g d with
    | none => rfl
    | some r =>
      simp only
      split
      · rfl
      rw [wp_bind, wp_readOnly (readOnly_dirFind _ _)]
      cases val 32768 (dirFind r.1 r.2) g d with
      | none => rfl
      | some inum =>
        simp only
        rw [wp_bind, wp_readOnly (readOnly_inodeRead _)]
        cases val 32768 (inodeRead inum) g d with
        | none => rfl
        | some inode =>
          simp only
          split <;> rfl
  · rfl

/-- What a call that rewrites inodes keeps: every block has one owner, and the
    superblock stays. -/
structure Kept (P : Inode → Bool) (ib : Nat) (V W : Vol) : Prop where
  owned : Owned P ib W
  sb : W.sb = V.sb

theorem Rewrites.kept (hV : Owned P ib V) (h : Rewrites P ib i V W) :
    Kept P ib V W := ⟨hV.rewrites h, h.frame.sb⟩

theorem Kept.trans {X : Vol} (h : Kept P ib V W) (h' : Kept P ib W X) : Kept P ib V X :=
  ⟨h'.owned, h'.sb.trans h.sb⟩

theorem Kept.sector {d d' : Disk} (h : Kept P ib (vol ib d) (vol ib d')) : d' 1 = d 1 := h.sb

theorem Made.kept (hP : Counts P) {size : Nat} {type : UInt8} {f : Nat → Sector} (hV : Owned P ib V)
    (h : Made ib V parent name type size f r W) : Kept P ib V W := by
  rcases h with ⟨-, ⟨i, hundone⟩, -⟩ | ⟨-, i, n, start, V', hborn, -, -, -, ht, -, h⟩
  · exact hundone.rewrites.kept hV
  have hkept := (hborn.rewrites hV).kept hV
  have hV' := hkept.owned
  have hp : P (V'.ino parent) = true := hP.live _ (by rw [ht]; decide)
  refine hkept.trans ?_
  rcases h with (⟨b, e, -, hedit⟩ | ⟨-, b, extra, hgrown⟩) | ⟨-, hlost⟩
  · exact (hedit.rewrites hP.byType hV' hp).kept hV'
  · exact (hgrown.rewrites hP.byType hV' hp).kept hV'
  · exact (hlost.rewrites hP.byType hV' hp).kept hV'

theorem Removed.kept (hP : Counts P) (hV : Owned P ib V) (hlive : (V.ino i).type ≠ 0)
    (h : Removed V parent name i r W) :
    Kept P ib V W := by
  have hkept := (Rewrites.free (hP.live _ hlive)).kept hV
  rcases h with ⟨-, rfl, -⟩ | ⟨-, ht, b, e, -, hedit⟩
  · exact hkept
  have hp := hP.live _ (by rw [ht]; decide)
  exact hkept.trans ((hedit.rewrites hP.byType hkept.owned hp).kept hkept.owned)

section

variable (hP : Counts P) (hg : Geometry ib g) (hV : Owned P ib (vol ib d))
include hP hg hV

theorem shadowWrite_kept (hi : i < 4 * ib) (hp : P ((vol ib d).ino i) = true) (data : Mem)
    (size ticks : Nat) : wp 32768 (fun _ => True) (shadowWrite i ((vol ib d).ino i) data size ticks)
      (fun _ g' d' => Geometry ib g' ∧ Kept P ib (vol ib d) (vol ib d')) g d := by
  refine wp_mono (fun _ _ => trivial) ?_
    (shadowWrite_spec hg hV.table hi (hV.refsData hp) data size ticks)
  rintro r g' d' ⟨rfl, ⟨-, h, -⟩ | ⟨-, h⟩⟩
  · exact ⟨hg, (Rewrites.of_scratch (i := 0) hV h).kept hV⟩
  · exact ⟨hg, (h.rewrites hP.byType hV hp).kept hV⟩

theorem freeAndUnlink_kept (h0 : i ≠ 0) (hi : i < 4 * ib) (hlive : ((vol ib d).ino i).type ≠ 0)
    (ticks : Nat) : wp 32768 (fun _ => True) (freeAndUnlink parent name i ticks)
      (fun _ g' d' => Geometry ib g' ∧ Kept P ib (vol ib d) (vol ib d')) g d := by
  refine wp_mono (fun _ _ => trivial) ?_
    (freeAndUnlink_spec hP hg hV h0 hi hlive ticks)
  rintro r g' d' ⟨rfl, h, -⟩
  exact ⟨hg, h.kept hP hV hlive⟩

end

theorem step_kept (hP : Counts P) (hg : Geometry ib s.g)
    (hV : Owned P ib (vol ib s.d)) (hslot : SlotAvailable ib op s)
    (hover : ∀ i, op.Overwrites s i → P ((vol ib s.d).ino i) = true) :
    Geometry ib (step op s).g ∧ Kept P ib (vol ib s.d) (vol ib (step op s).d) := by
  obtain ⟨g, d⟩ := s
  refine step_of_wp (Q := fun g' d' => Geometry ib g' ∧ Kept P ib (vol ib d) (vol ib d')) ?_
  have hsame : Geometry ib g ∧ Kept P ib (vol ib d) (vol ib d) := ⟨hg, hV, rfl⟩
  cases op with
  | read path max =>
    simp only [Op.prog, wp_bind, wp_readOnly (readOnly_nvfsRead _ _)]
    exact hsame
  | list ci path =>
    rw [Op.prog, wp_readOnly (readOnly_nvfsList _ _)]
    exact hsame
  | chdir path =>
    simp only [Op.prog, wp_bind, wp_nvfsChdir]
    cases chdirTarget g d path.bytes with
    | none => exact hsame
    | some c => exact ⟨hg.withCwd c, hV, rfl⟩
  | mkdir env path =>
    rw [Op.prog, wp_nvfsMkdir]
    cases hres : val 32768 (resolveNamed path.bytes) g d with
    | none => exact hsame
    | some r =>
      refine wp_mono (fun _ _ => trivial) ?_
        (createDir_spec hP hg hV (hslot ⟨r.1, r.2, hres⟩) (resolveNamed_nulFree hres) env)
      rintro _ g' d' ⟨rfl, hmade⟩
      exact ⟨hg, hmade.kept hP hV⟩
  | write env path data size =>
    rw [Op.prog, wp_nvfsWrite hg]
    cases hres : val 32768 (resolveNamed path.bytes) g d with
    | none => exact hsame
    | some r =>
      simp only
      cases hfind : val 32768 (dirFind r.1 r.2) g d with
      | none =>
        refine wp_mono (fun _ _ => trivial) ?_
          (createFile_spec hP hg hV (hslot ⟨r.1, r.2, hres, hfind⟩)
            (resolveNamed_nulFree hres) env data size.toNat)
        rintro _ g' d' ⟨rfl, hmade⟩
        exact ⟨hg, hmade.kept hP hV⟩
      | some i =>
        cases ht : target g d path.bytes with
        | none => exact hsame
        | some t =>
          obtain ⟨-, -, -, -, hi⟩ := target_spec hg ht
          exact shadowWrite_kept hP hg hV hi (hover t.2.2 ⟨_, _, ht⟩) _ _ _
  | append env path data size =>
    rw [Op.prog, wp_nvfsAppend hP hg hV]
    cases ht : target g d path.bytes with
    | none => exact hsame
    | some t =>
      obtain ⟨-, -, -, -, hi⟩ := target_spec hg ht
      simp only
      split
      · exact hsame
      next htype =>
      have hp := hP.live ((vol ib d).ino t.2.2) (by rw [not_not.mp htype]; decide)
      cases env.heap with
      | none => exact hsame
      | some heap => exact shadowWrite_kept hP hg hV hi hp _ _ _
  | delete env path =>
    rw [Op.prog, wp_nvfsDelete hg]
    cases ht : target g d path.bytes with
    | none => exact hsame
    | some t =>
      obtain ⟨-, -, -, h0, hi⟩ := target_spec hg ht
      simp only
      split
      · exact hsame
      next htype =>
      have hlive : ((vol ib d).ino t.2.2).type ≠ 0 := by rw [not_not.mp htype]; decide
      exact freeAndUnlink_kept hP hg hV h0 hi hlive _
  | rmdir env path =>
    rw [Op.prog, wp_nvfsRmdir hg]
    cases ht : target g d path.bytes with
    | none => exact hsame
    | some t =>
      obtain ⟨-, -, -, h0, hi⟩ := target_spec hg ht
      simp only
      split
      · exact hsame
      next htype =>
      split
      · exact hsame
      have hlive : ((vol ib d).ino t.2.2).type ≠ 0 := by rw [not_not.mp htype]; decide
      exact freeAndUnlink_kept hP hg hV h0 hi hlive _

end

end Noverix.Nvfs
