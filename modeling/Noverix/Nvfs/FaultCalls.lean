/-
  The calls that take blocks, on a device that may fail: `nvfs_write`,
  `nvfs_append` and `nvfs_mkdir`.  Each changes nothing, replaces an inode
  (`Shadowed`) or makes one (`Created`); both say in what order the volume was
  changed and what was noted on the way, so that what a failed or a successful
  call leaves behind can be read off them (`Outcome`).
-/

import Noverix.Nvfs.FaultDir
import Noverix.Nvfs.Intact

namespace Noverix.Nvfs

open Lib
open Lib.DiskProg (must must_bind must_mono)

variable {D : Device} {g : Globals} {d : Disk}

/-! ## Replacing an inode -/

theorem HoldsRun.stamp {n : Inode} {start k : Nat} (h : HoldsRun n start k) (t : UInt32) :
    HoldsRun (n.stamp t) start k := ⟨h.count, h.blocks⟩

/-- How the shadow-paging update of inode `i`, whose record was `n`, ends. -/
inductive Shadowed (D : Device) (g : Globals) (V : Vol) (i : Nat) (n : Inode) (data : Mem)
    (size : Nat) (t : UInt32) : Bool → List Note → Vol → Prop where
  | unread : Shadowed D g V i n data size t false [] V
  | noRoom {m W} : OnlyMarks m → Spares V W → (BitmapServed D g → W.bit = V.bit) →
      Shadowed D g V i n data size t false m W
  | unsaved {start n' m W} : Stored g V n data size start n' m W →
      (BitmapServed D g → AllMarked start (blocksFor size) m) →
      Shadowed D g V i n data size t false (m ++ [Note.unsaved (blocksFor size)]) W
  | replaced {start n' m X W} : Stored g V n data size start n' m X →
      (BitmapServed D g → AllMarked start (blocksFor size) m) →
      Cleared (V.refs n) (X.setIno i (n'.stamp t)) W →
      Shadowed D g V i n data size t true m W

theorem Cleared.mono {as bs : List Nat} {V W : Vol} (h : Cleared as V W) (hs : as ⊆ bs) :
    Cleared bs V W :=
  ⟨h.sb, h.ino, h.blk, fun b hb => h.other b fun ha => hb (hs ha), h.le⟩

theorem must_freeOld (hg : Regular g) {V : Vol} {n : Inode}
    (hrefs : ∀ b ∈ V.refs n, b < bitmapBits g) :
    must D (freeOld (V.extList n) (oldIndBlk n)) (fun _ g' d' => g' = g ∧
      Cleared (V.refs n) (view g d) (view g d')) g d := by
  unfold freeOld
  rw [must_bind]
  refine must_mono ?_
    (must_bitmapClear hg fun b hb => hrefs b (mem_append_left _ hb))
  rintro _ g' d' ⟨rfl, hc, -⟩
  have hc' : Cleared (V.refs n) (view g' d) (view g' d') := hc.mono fun b hb =>
    mem_append_left _ hb
  by_cases hind : oldIndBlk n = 0
  · simp only [hind, ne_eq, not_true_eq_false, if_false]
    exact ⟨rfl, hc'⟩
  have hmem : oldIndBlk n ∈ n.indBlks := by
    unfold oldIndBlk Inode.indBlks at *
    by_cases h13 : nvfsDirectExtents < n.extentCount.toNat
    · rw [if_pos h13, if_pos h13]
      exact mem_singleton_self _
    · rw [if_neg h13] at hind
      exact absurd rfl hind
  simp only [ne_eq, hind, not_false_eq_true, if_true]
  rw [must_bind]
  refine must_bitmapSet hg (hrefs _ (mem_append_right _ hmem)) (fun _ => ⟨rfl, hc'⟩)
    fun d'' hd'' => ⟨rfl, ?_⟩
  have hlast : Cleared [oldIndBlk n] (view g' d') (view g' d'') := by
    rw [hd'']
    exact Cleared.setBit _ _
  refine (hc.trans hlast).mono fun b hb => ?_
  rcases mem_append.mp hb with hb | hb
  · exact mem_append_left _ hb
  · rw [mem_singleton.mp hb]
    exact mem_append_right _ hmem

theorem must_shadowWrite (hg : Regular g) {i : Nat} {n : Inode}
    (hrefs : ∀ b ∈ (view g d).refs n, b < bitmapBits g) (data : Mem) {size : Nat}
    (hfit : RunsFit D g d (blocksFor size)) (ticks : Nat) :
    (shadowWriteNoted i n data size ticks).must D (fun r m g' d' => g' = g ∧
      Shadowed D g (view g d) i n data size (nowSec ticks) r m (view g d')) g d := by
  unfold shadowWriteNoted
  rw [must_lifted]
  refine must_extentLoadAll hg (fun b hb => hrefs b (mem_append_right _ hb))
    (fun _ => ⟨rfl, .unread⟩) ?_
  simp only
  rw [Noted.must_bind]
  refine Noted.must_mono ?_ (must_extentWrite hg n data hfit)
  rintro r m g' d1 ⟨rfl, hnone, hsome⟩
  cases r with
  | none =>
    obtain ⟨hm, hspares, hkept⟩ := hnone rfl
    refine ⟨rfl, ?_⟩
    show Shadowed D g' (view g' d) i n data size (nowSec ticks) false (m ++ []) (view g' d1)
    rw [append_nil]
    exact .noRoom hm hspares hkept
  | some n' =>
    obtain ⟨start, hstored, hall⟩ := hsome n' rfl
    rw [must_lifted]
    refine must_inodeWrite hg (fun _ => ⟨rfl, .unsaved hstored hall⟩) fun _ d2 hd2 => ?_
    have hino : view g' d2 = (view g' d1).setIno i (n'.stamp (nowSec ticks)) := by
      have hcap := Inode.stamp_capExtents n' (nowSec ticks)
      rw [hstored.run.capExtents] at hcap
      rw [hd2, ← hcap]
      rfl
    rw [if_pos rfl, must_lifted]
    refine must_mono ?_ (must_freeOld hg hrefs)
    rintro _ g'' d3 ⟨rfl, hc⟩
    rw [hino] at hc
    refine ⟨rfl, ?_⟩
    show Shadowed D g'' (view g'' d) i n data size (nowSec ticks) true (m ++ []) (view g'' d3)
    rw [append_nil]
    exact .replaced hstored hall hc

theorem Shadowed.unchanged {V W : Vol} {i size : Nat} {n : Inode} {data : Mem} {t : UInt32}
    {m : List Note} (h : Shadowed D g V i n data size t true m W) (hV : BlocksOwned V) {j : Nat}
    (hj : j ≠ i) : Unchanged V W j := by
  cases h with
  | replaced hstored _ hc =>
    refine ⟨?_, fun hlive b hb => ?_⟩
    · rw [hc.ino, setIno_ino, if_neg hj, hstored.filling.ino]
    · rw [hc.blk]
      exact (hstored.filling.spares hstored.free).blk b (hV.marked j hlive b hb)

/-! ## Making an inode -/

/-- The free inode `i` has been given the record `n`, which holds a run of blocks that were
    free, filled with `f`. -/
structure Newborn (D : Device) (g : Globals) (V : Vol) (i : Nat) (n : Inode) (type : UInt8)
    (f : Nat → Sector) (start k : Nat) (m : List Note) (X : Vol) : Prop where
  pos : i ≠ 0
  lt : i < g.sbInodeCount
  dead : (V.ino i).type = 0
  type_eq : n.type = type
  leaf : type = nvfsTypeDir → n.extentCount = 0
  run : HoldsRun n start k
  fits : start + k ≤ bitmapBits g
  free : FreeRun V start k
  filling : Filling (V.setIno i n) f start k m X
  marks : BitmapServed D g → AllMarked start k m

/-- The inode `i` that was taken is without extents again, and all else that was in use is as
    it was. -/
structure Retracted (D : Device) (g : Globals) (V : Vol) (i : Nat) (W : Vol) : Prop where
  dead : (V.ino i).type = 0
  ino : ∀ j, j ≠ i → W.ino j = V.ino j
  empty : (W.ino i).extentCount = 0
  bit : ∀ b, V.bit b = true → W.bit b = true
  blk : ∀ b, V.bit b = true → W.blk b = V.blk b
  marks : BitmapServed D g → W.bit = V.bit

/-- How a call that makes an inode and enters it in directory `parent` ends. -/
inductive Created (D : Device) (g : Globals) (V : Vol) (parent : Nat) (name : List UInt8)
    (type : UInt8) (f : Nat → Sector) (k : Nat) (t : UInt32) :
    Bool → List Note → Globals → Vol → Prop where
  /-- The inode table has grown. -/
  | grew {r m g' W} : Note.tableGrew ∈ m → NoneFree D g V →
      Created D g V parent name type f k t r m g' W
  /-- There is no free inode, or it could not be written. -/
  | noInode {c W} : (g.sbInodeCount = 4 * g.sbInodeBlocks → c = g.sbInodeCount) →
      Spares V W → (BitmapServed D g → W.bit = V.bit) →
      Created D g V parent name type f k t false [] { g with sbInodeCount := c } W
  /-- The data or the record of the inode could not be written. -/
  | undone {i m W} : (∀ x ∈ m, (∃ b ok, x = Note.marked b ok) ∨ x = Note.unread 0) →
      Retracted D g V i W →
      Created D g V parent name type f k t false (Note.target parent i :: m) g W
  /-- `dir_add` failed, and the inode was freed, or not. -/
  | refused {i n start m₁ m₂ m₃ X Y W} : Newborn D g V i n type f start k m₁ X →
      Added D g X parent (direntBytes name i) t false m₂ Y → Freed D g i start k k Y m₃ W →
      Created D g V parent name type f k t false (Note.target parent i :: (m₁ ++ (m₂ ++ m₃))) g W
  /-- The inode is there and has its entry. -/
  | entered {i n start m₁ m₂ X W} : Newborn D g V i n type f start k m₁ X →
      X.tree.dir parent → Added D g X parent (direntBytes name i) t true m₂ W →
      Created D g V parent name type f k t true (Note.target parent i :: (m₁ ++ m₂)) g W

theorem Filling.setIno {V W : Vol} {f : Nat → Sector} {start j : Nat} {m : List Note}
    (h : Filling V f start j m W) (i : Nat) (n : Inode) :
    Filling (V.setIno i n) f start j m (W.setIno i n) where
  sb := h.sb
  ino := by
    funext c
    rw [setIno_ino, setIno_ino, h.ino]
  blk := h.blk
  bit := h.bit
  notes := h.notes
  noted := h.noted

theorem Vol.dir_of_ino {V W : Vol} {p : Nat} (h : W.ino p = V.ino p) : W.tree.dir p ↔ V.tree.dir p := by
  show (W.ino p).type = nvfsTypeDir ↔ (V.ino p).type = nvfsTypeDir
  rw [h]

namespace Newborn

variable {V X : Vol} {i : Nat} {n : Inode} {type : UInt8} {f : Nat → Sector} {start k : Nat}
  {m : List Note}

section

variable (h : Newborn D g V i n type f start k m X)
include h

theorem ino_self : X.ino i = n := by
  rw [h.filling.ino, setIno_ino, if_pos rfl]

theorem ino_of_ne {j : Nat} (hj : j ≠ i) : X.ino j = V.ino j := by
  rw [h.filling.ino, setIno_ino, if_neg hj]

theorem bit (b : Nat) : X.bit b = (V.bit b || decide (Note.marked b true ∈ m)) := h.filling.bit b

theorem bit_of_marked {b : Nat} (hb : V.bit b = true) :
    X.bit b = true := by rw [h.bit, hb, Bool.true_or]

theorem not_mem {b : Nat} (hb : V.bit b = true) : ¬ (start ≤ b ∧ b < start + k) := by
  rintro ⟨h1, h2⟩
  rw [h.free b h1 h2] at hb
  cases hb

theorem blk_of_marked {b : Nat} (hb : V.bit b = true) : X.blk b = V.blk b := by
  rw [h.filling.blk, if_neg (h.not_mem hb)]
  rfl

theorem refs_of_ne {j : Nat} (hj : j ≠ i) (hmarked : ∀ b ∈ V.refs (V.ino j), V.bit b = true) :
    X.refs (X.ino j) = V.refs (V.ino j) := by
  rw [h.ino_of_ne hj]
  exact refs_congr fun b hb => h.blk_of_marked (hmarked b (mem_append_right _ hb))

theorem ne_of_live {j : Nat} (hj : V.tree.live j) : j ≠ i := by
  rintro rfl
  exact hj h.dead

theorem count_of_dir (hdir : X.tree.dir i) : (X.ino i).extentCount = 0 := by
  have htype : (X.ino i).type = nvfsTypeDir := hdir
  rw [h.ino_self] at htype ⊢
  exact h.leaf (h.type_eq ▸ htype)

theorem count_le (hV : ∀ j, (V.ino j).extentCount.toNat ≤ 14) (j : Nat) :
    (X.ino j).extentCount.toNat ≤ 14 := by
  by_cases hji : j = i
  · rw [hji, h.ino_self]
    exact Nat.le_trans h.run.count (by decide)
  · rw [h.ino_of_ne hji]
    exact hV j

theorem dir_of_ne {j : Nat} (hj : j ≠ i) :
    X.tree.dir j ↔ V.tree.dir j := Vol.dir_of_ino (h.ino_of_ne hj)

theorem refs_of_dir (hV : DirsMarked V) {j : Nat} (hj : X.tree.dir j) :
    X.refs (X.ino j) = [] ∧ j = i ∨ X.refs (X.ino j) = V.refs (V.ino j) ∧ V.tree.dir j := by
  by_cases hji : j = i
  · refine .inl ⟨refs_of_count_zero ?_, hji⟩
    rw [hji] at hj ⊢
    exact h.count_of_dir hj
  · have hdir := (h.dir_of_ne hji).mp hj
    exact .inr ⟨h.refs_of_ne hji (hV j hdir), hdir⟩

theorem dirsMarked (hV : DirsMarked V) : DirsMarked X := by
  intro j hj b hb
  rcases h.refs_of_dir hV hj with ⟨hnil, -⟩ | ⟨heq, hdir⟩
  · rw [hnil] at hb
    cases hb
  · rw [heq] at hb
    exact h.bit_of_marked (hV j hdir b hb)

end

end Newborn

/-- How a call ends: it is refused, or replaces an inode, or makes one. -/
inductive Outcome (D : Device) (g : Globals) (V : Vol) :
    Bool → List Note → Globals → Vol → Prop where
  | refused {m} : (∀ x ∈ m, ∃ p i, x = Note.target p i) → Outcome D g V false m g V
  | replaced {parent i name data size t r m g' W} : V.tree.dir parent →
      lookup (V.entries (V.ino parent)) name = some i → i < g.sbInodeCount →
      ((∀ b ∈ V.refs (V.ino i), b < bitmapBits g) →
        g' = g ∧ Shadowed D g V i (V.ino i) data size t r m W) →
      Outcome D g V r (Note.target parent i :: m) g' W
  | created {parent name type f k t r m g' W} : NulFree name →
      type = nvfsTypeDir ∨ type = nvfsTypeFile →
      Created D g V parent name type f k t r m g' W → Outcome D g V r m g' W

theorem dir_of_found {V : Vol} {parent i : Nat} {name : List UInt8}
    (h : some i = none ∧ Unread D g V parent ∨ some i =
      if (V.ino parent).type = nvfsTypeDir then lookup (V.entries (V.ino parent)) name else none) :
    V.tree.dir parent ∧ lookup (V.entries (V.ino parent)) name = some i := by
  rcases h with ⟨h, -⟩ | h
  · cases h
  by_cases hdir : (V.ino parent).type = nvfsTypeDir
  · rw [if_pos hdir] at h
    exact ⟨hdir, h.symm⟩
  · rw [if_neg hdir] at h
    cases h

/-- The directory has an entry with the name, and it leads to the regular file `i`. -/
structure FoundFile (g : Globals) (V : Vol) (q : Nat × List UInt8) (i : Nat) : Prop where
  dir : V.tree.dir q.1
  entry : lookup (V.entries (V.ino q.1)) q.2 = some i
  lt : i < g.sbInodeCount
  file : (V.ino i).type = nvfsTypeFile

/-- `nvfs_append` is refused, or replaces the file it has found by what its buffer holds. -/
theorem must_nvfsAppend_cases (hg : Regular g) (hV : DirsMarked (view g d)) {env : Env}
    {path : List UInt8} {data : Mem} {size : Nat} {P : Nat × List UInt8 → Prop}
    (hP : must D (resolveNamed path) (fun r _ _ => ∀ q, r = some q → P q) g d)
    {Q : Bool → List Note → Globals → Disk → Prop}
    (hrefused : ∀ m, (∀ x ∈ m, ∃ p i, x = Note.target p i) → Q false m g d)
    (hfound : ∀ q i heap, FoundFile g (view g d) q i → P q → ∀ buf,
      ((∀ b ∈ (view g d).refs ((view g d).ino i), b < bitmapBits g) →
        buf = (appended (view g d) ((view g d).ino i) heap data size).1) →
      (shadowWriteNoted i ((view g d).ino i) buf
        (appended (view g d) ((view g d).ino i) heap data size).2 (env.ticks 0)).must D
        (fun r m g' d' => Q r (Note.target q.1 i :: m) g' d') g d) :
    (nvfsAppendNoted env path data size).must D Q g d := by
  have hnone : Q false [] g d := hrefused [] fun x hx => by cases hx
  have hat : ∀ p i, Q false [Note.target p i] g d := fun p i =>
    hrefused _ fun _ hx => ⟨p, i, mem_singleton.mp hx⟩
  unfold nvfsAppendNoted
  rw [must_lifted]
  have hres := must_and hP (must_resolveNamed path)
  refine must_of_readOnly (readOnly_resolveNamed _) hres fun r hr => ?_
  cases r with
  | none => exact hnone
  | some q =>
    have hname : NulFree q.2 := hr.2 q rfl
    simp only
    rw [must_lifted]
    refine must_of_readOnly (readOnly_dirFind _ _)
      (must_dirFind hg hname fun hdir b hb => view_bit_lt (hV q.1 hdir b hb)) fun r hfind => ?_
    cases r with
    | none => exact hnone
    | some i =>
      obtain ⟨hdir, hentry⟩ := dir_of_found hfind
      simp only
      rw [Noted.must_bind, must_note, must_lifted]
      refine must_inodeRead hg (fun _ => hat q.1 i) fun hi => ?_
      simp only
      by_cases hfile : ((view g d).ino i).type = nvfsTypeFile
      · rw [if_neg (not_not_intro hfile)]
        cases env.heap with
        | none => exact hat q.1 i
        | some heap =>
          simp only
          rw [must_lifted]
          refine must_of_readOnly (readOnly_extentRead _ _) (must_extentRead hg)
            fun r hcontent => ?_
          cases r with
          | none => exact hat q.1 i
          | some content =>
            refine hfound q i heap ⟨hdir, hentry, hi, hfile⟩ (hr.1 q rfl) _ fun hrefs => ?_
            rw [hcontent content rfl hrefs]
            rfl
      · rw [if_pos hfile]
        exact hat q.1 i

section

variable (hg : Regular g) (hcover : Covers D g) (hV : DirsMarked (view g d))
include hg hcover

include hV

end

/-! ## Calls on a failing disk -/

/-- The calls, with notes where they take blocks. -/
def Op.noted : Op → NotedM Bool
  | .write env path data size => nvfsWriteNoted env path.bytes data size.toNat
  | .append env path data size => nvfsAppendNoted env path.bytes data size.toNat
  | .mkdir env path => nvfsMkdirNoted env path.bytes
  | op => lift op.prog

theorem Op.noted_erase (op : Op) : op.noted.erase = op.prog := by
  cases op with
  | write env path data size => exact nvfsWriteNoted_erase _ _ _ _
  | append env path data size => exact nvfsAppendNoted_erase _ _ _ _
  | mkdir env path => exact nvfsMkdirNoted_erase _ _
  | read | delete | rmdir | chdir | list => exact erase_lift _

/-- Whether the call returns success, when sectors fail. -/
def Op.returns (op : Op) (fl : Faults) (s : State) : Bool := (DiskProg.exec fl op.prog s.g s.d).1

/-- The state the call leaves, when sectors fail. -/
def Op.leaves (op : Op) (fl : Faults) (s : State) : State :=
  ⟨(DiskProg.exec fl op.prog s.g s.d).2.1, (DiskProg.exec fl op.prog s.g s.d).2.2⟩

/-- The notes taken during the call, when sectors fail. -/
def Op.notes (op : Op) (fl : Faults) (s : State) : List Note :=
  (DiskProg.exec fl op.noted.prog s.g s.d).1.2

theorem Op.of_may (op : Op) (s : State) {fl0 : Faults} (h0 : fl0.Fits D)
    {Q : Bool → Globals → Disk → Prop} (h : may D op.prog Q s.g s.d) :
    ∃ fl : Faults, fl.Fits D ∧ Q (op.returns fl s) (op.leaves fl s).g (op.leaves fl s).d :=
  DiskProg.may_exec h0 h

/-- The pattern on it in which access `k` fails, if it is to that sector, and no other. -/
def failsAt (k bad : Nat) : Faults := fun j l => decide (32768 ≤ l) || (j == k && l == bad)

section

variable {D : Device} (hok : ∀ l, l < 32768 → D.ok l) (hbad : ∀ l, 32768 ≤ l → D.bad l)
  {Q : Bool → Globals → Disk → Prop}
include hok hbad

end

end Noverix.Nvfs
