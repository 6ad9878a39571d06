/-
  The public calls on volumes.  A call resolves its path, which changes
  nothing, and then makes, replaces or removes one inode and edits one
  directory.  For each call there is one specification: what the volume is
  like when the call returns, and, for the calls that make or remove an inode,
  on every volume a power failure can leave.
-/

import Noverix.Nvfs.DirUpdate

namespace Noverix.Nvfs

open Lib
open Lib.DiskProg (wp wp_bind wp_mono wp_pure)

variable {ib : Nat} {g : Globals} {d : Disk} {P : Inode → Bool}

/-! ## Names -/

theorem upperByte_eq_iff {b c : UInt8} (hb : b < 65) : upperByte c = b ↔ c = b := by
  unfold upperByte
  split
  · next hc =>
    have hsub : (c - 32).toNat = c.toNat - 32 :=
      UInt8.toNat_sub_of_le c 32 (UInt8.le_trans (by decide) hc.1)
    have h97 : 97 ≤ c.toNat := hc.1
    have hb : b.toNat < 65 := hb
    constructor
    · intro heq
      rw [heq] at hsub
      omega
    · intro heq
      rw [heq] at h97
      omega
  · rfl

theorem mem_toUpper_iff {b : UInt8} (hb : b < 65) {s : List UInt8} : b ∈ toUpper s ↔ b ∈ s := by
  unfold toUpper
  rw [mem_map]
  constructor
  · rintro ⟨c, hc, heq⟩
    rw [← (upperByte_eq_iff hb).mp heq]
    exact hc
  · intro hmem
    exact ⟨b, hmem, (upperByte_eq_iff hb).mpr rfl⟩

theorem NulFree.toUpper {name : List UInt8} (h : NulFree name) : NulFree (toUpper name) := by
  rintro c hc rfl
  exact h 0 ((mem_toUpper_iff (by decide)).mp hc) rfl

variable {r : Nat × List UInt8}

theorem resolveLoop_nulFree {cs : List UInt8} (hcs : NulFree cs) {cur : Nat} {seg : List UInt8}
    (hseg : NulFree seg)
    (h : val 32768 (resolveLoop cur seg cs) g d = some r) : NulFree r.2 := by
  induction cs generalizing cur seg with
  | nil =>
    unfold resolveLoop resolveLast at h
    split at h
    · rw [val_bind (readOnly_findParent _)] at h
      cases hp : val 32768 (findParent cur) g d with
      | none =>
        rw [hp] at h
        exact absurd h (by intro h; cases h)
      | some p =>
        rw [hp] at h
        cases h
        exact fun c hc => absurd hc (by simp)
    split at h
    · cases h
      exact fun c hc => absurd hc (by simp)
    cases h
    exact hseg.toUpper
  | cons c cs ih =>
    have hcs' : NulFree cs := fun b hb => hcs b (mem_cons_of_mem _ hb)
    have hempty : NulFree ([] : List UInt8) := fun b hb => absurd hb (by simp)
    unfold resolveLoop at h
    split at h
    · split at h
      · exact ih hcs' hempty h
      have hro : DiskProg.ReadOnly (resolveComponent cur seg) := readOnly_resolveComponent _ _
      rw [val_bind hro] at h
      cases hn : val 32768 (resolveComponent cur seg) g d with
      | none =>
        rw [hn] at h
        exact absurd h (by intro h; cases h)
      | some next =>
        rw [hn] at h
        exact ih hcs' hempty h
    refine ih hcs' (fun b hb => ?_) h
    rcases mem_append.mp hb with hb | hb
    · exact hseg b hb
    rw [mem_singleton.mp hb]
    exact hcs c mem_cons_self

theorem pathBuf_nulFree (path : List UInt8) : NulFree (pathBuf path) := fun c hc =>
  nulFree_takeWhile path c (mem_of_mem_take hc)

variable {path : List UInt8}

theorem resolvePath_nulFree
    (h : val 32768 (resolvePath path) g d = some r) : NulFree r.2 := by
  have hbuf := pathBuf_nulFree path
  have hempty : NulFree ([] : List UInt8) := fun b hb => absurd hb (by simp)
  unfold resolvePath at h
  rw [val_bind_getState] at h
  cases hp : pathBuf path with
  | nil =>
    rw [hp] at h
    cases h
    exact hempty
  | cons c cs =>
    rw [hp] at h hbuf
    simp only at h
    split at h
    · exact resolveLoop_nulFree (fun b hb => hbuf b (mem_cons_of_mem _ hb)) hempty h
    · exact resolveLoop_nulFree hbuf hempty h

variable {name : List UInt8}

theorem resolveNamed_nulFree {parent : Nat}
    (h : val 32768 (resolveNamed path) g d = some (parent, name)) : NulFree name := by
  unfold resolveNamed at h
  rw [val_bind_getState] at h
  split at h
  · rw [val_bind (readOnly_resolvePath _)] at h
    cases hr : val 32768 (resolvePath path) g d with
    | none =>
      rw [hr] at h
      exact absurd h (by intro h; cases h)
    | some r =>
      rw [hr] at h
      simp only at h
      split at h
      · exact absurd h (by intro h; cases h)
      obtain ⟨-, rfl⟩ := Prod.mk.inj (some.inj h)
      exact resolvePath_nulFree hr
  · exact absurd h (by intro h; cases h)

/-- `dir_find` never returns the root: zero marks a free slot. -/
theorem dirFind_ne_zero {dir i : Nat}
    (h : val 32768 (dirFind dir name) g d = some i) : i ≠ 0 := by
  have hloop : ∀ bs, val 32768 (dirFindBlocks name bs) g d = some i → i ≠ 0 := by
    intro bs
    induction bs with
    | nil =>
      intro h
      cases h
    | cons b bs ih =>
      intro h
      unfold dirFindBlocks at h
      rw [val_bind (readOnly_readBlock _)] at h
      cases hr : val 32768 (readBlock b) g d with
      | none =>
        rw [hr] at h
        cases h
      | some tmp =>
        rw [hr] at h
        simp only at h
        cases hf : findSlot tmp name with
        | none =>
          rw [hf] at h
          exact ih h
        | some e =>
          rw [hf] at h
          have hused := find?_some hf
          simp only [Bool.and_eq_true, bne_iff_ne] at hused
          have hi : asInt (slotInode tmp e) = some i := h
          rw [← (asInt_eq_some.mp hi).2]
          exact hused.1
  unfold dirFind at h
  rw [val_bind (readOnly_inodeRead _)] at h
  cases hr : val 32768 (inodeRead dir) g d with
  | none =>
    rw [hr] at h
    cases h
  | some n =>
    rw [hr] at h
    simp only at h
    split at h
    · cases h
    rw [val_bind (readOnly_extentLoadAll _)] at h
    cases hl : val 32768 (extentLoadAll n) g d with
    | none =>
      rw [hl] at h
      cases h
    | some cache =>
      rw [hl] at h
      exact hloop _ h

/-! ## Making an inode -/

/-- A notion of inodes that count which looks at the type alone and includes the
    live ones. -/
structure Counts (P : Inode → Bool) : Prop where
  byType : ByType P
  live : ∀ n : Inode, n.type ≠ 0 → P n = true

theorem counts_anyInode : Counts anyInode := ⟨byType_anyInode, fun _ _ => rfl⟩

theorem counts_live : Counts Inode.live := ⟨byType_live, fun n h => by simpa [Inode.live] using h⟩

/-- The free inode `i` has been given the record `n`, which holds a run of
    blocks that were free, filled with `f`. -/
structure Born (ib : Nat) (V : Vol) (i : Nat) (n : Inode) (start k : Nat) (f : Nat → Sector)
    (V' : Vol) : Prop where
  pos : i ≠ 0
  lt : i < 4 * ib
  dead : (V.ino i).type = 0
  run : HoldsRun n start k
  fits : start + k ≤ 32726
  free : FreeRun V start k
  eq : V' = (V.fill start k f).setIno i n

namespace Born

variable {V V' : Vol} {i start k : Nat} {n : Inode} {f : Nat → Sector}

section

variable (h : Born ib V i n start k f V')
include h

theorem ino_self : V'.ino i = n := by
  rw [h.eq, setIno_ino, if_pos rfl]

theorem frame : Frame ∅ {i} V V' := by
  rw [h.eq]
  exact ((Frame.fill h.free f).mono (le_refl _) (Set.empty_subset _)).trans (Frame.setIno _ _ _)

theorem marked {b : Nat} (h1 : start ≤ b) (h2 : b < start + k) : V'.bit b = true := by
  rw [h.eq, setIno_bit, Vol.fill_bit, decide_eq_true ⟨h1, h2⟩, Bool.or_true]

theorem rewrites (hV : Owned P ib V) : Rewrites P ib i V V' := by
  have hsub : ∀ b ∈ V'.holds P i, start ≤ b ∧ b < start + k := by
    intro b hb
    unfold Vol.holds at hb
    split at hb
    · rw [h.ino_self, h.run.refs, mem_range'_1] at hb
      exact hb
    · cases hb
  refine ⟨h.frame.mono (Set.empty_subset _) (le_refl _), ?_, ?_, ?_, ?_⟩
  · intro b hb
    obtain ⟨h1, h2⟩ := hsub b hb
    have := h.fits
    exact ⟨hV.lo_of_free (h.free b h1 h2), by omega⟩
  · intro b hb
    obtain ⟨h1, h2⟩ := hsub b hb
    exact h.marked h1 h2
  · intro b hb
    obtain ⟨h1, h2⟩ := hsub b hb
    exact .inl (h.free b h1 h2)
  · unfold Vol.holds
    split
    · rw [h.ino_self, h.run.refs]
      exact nodup_range'
    · exact nodup_nil

end

end Born

/-- The inode `i` taken by a call that failed is free again. -/
structure Undone (ib : Nat) (V : Vol) (i : Nat) (V' : Vol) : Prop where
  pos : i ≠ 0
  lt : i < 4 * ib
  dead : (V.ino i).type = 0
  frame : Frame ∅ {i} V V'
  dead' : (V'.ino i).type = 0
  empty : (V'.ino i).extentCount = 0

variable {i : Nat}

theorem Undone.rewrites {V V' : Vol} (h : Undone ib V i V') : Rewrites P ib i V V' := by
  have hnone : V'.holds P i = [] := by
    unfold Vol.holds
    rw [refs_of_count_zero h.empty, ite_self]
  refine ⟨h.frame.mono (Set.empty_subset _) (le_refl _), ?_, ?_, ?_, ?_⟩ <;> simp [hnone]

variable {n : Inode} {f : Nat → Sector}
  {i start k : Nat}

theorem Born.undone {V V' W : Vol}
    (h : Born ib V i n start k f V') (hf : Frame ∅ ∅ V' W) :
    Undone ib V i ((W.clear (W.refs (W.ino i))).setIno i (W.ino i).freed) := by
  have hino : W.ino i = n := (hf.ino i (notMem_empty i)).trans h.ino_self
  have hframe := h.frame.trans (hf.mono (le_refl _) (Set.empty_subset _))
  refine ⟨h.pos, h.lt, h.dead, ⟨hframe.sb, fun j hj => ?_, fun b hb hb' => ?_, fun b hb hb' => ?_⟩,
    ?_, ?_⟩
  · exact (setIno_of_ne hj _).trans (hframe.ino j hj)
  · rw [setIno_bit, Vol.clear_bit_of_not_mem, hframe.bit b hb hb']
    rw [hino, h.run.refs, mem_range'_1]
    rintro ⟨h1, h2⟩
    rw [h.free b h1 h2] at hb
    cases hb
  · exact hframe.blk b hb hb'
  · rw [setIno_ino, if_pos rfl]
    rfl
  · rw [setIno_ino, if_pos rfl]
    rfl

/-- Why `dir_add` refuses to add an entry: not a directory, the name is taken, or
    there is no room. -/
def AddRefused (V : Vol) (dir : Nat) (name : List UInt8) : Prop :=
  (V.ino dir).type ≠ nvfsTypeDir ∨ lookup (V.entries (V.ino dir)) name ≠ none ∨
    FullDir V (V.ino dir) ∧ NoRoom V (V.ino dir)

/-- Why a call that makes an inode fails: there is no room for the data, or the
    directory refuses the entry. -/
def NotMade (ib : Nat) (V : Vol) (parent : Nat) (name : List UInt8) (size : Nat)
    (f : Nat → Sector) : Prop :=
  ¬ HasRoom V size ∨
    ∃ i n start V', Born ib V i n start (blocksFor size) f V' ∧ AddRefused V' parent name

/-- The result of a call that makes an inode: it is undone, or the inode is there
    and its directory has been given the entry. -/
def Made (ib : Nat) (V : Vol) (parent : Nat) (name : List UInt8) (type : UInt8) (size : Nat)
    (f : Nat → Sector) (r : Bool) (W : Vol) : Prop :=
  r = false ∧ (∃ i, Undone ib V i W) ∧ NotMade ib V parent name size f ∨
  r = true ∧ ∃ i n start V', Born ib V i n start (blocksFor size) f V' ∧ n.type = type ∧
    n.size = UInt32.ofNat size ∧ (size = 0 → n.extentCount = 0) ∧
    (V'.ino parent).type = nvfsTypeDir ∧
    lookup (V'.entries (V'.ino parent)) name = none ∧
    (DirAdded ib V' parent (direntBytes name i) W ∨
      FullDir V' (V'.ino parent) ∧ DirLost V' parent W)

variable {V : Vol}

theorem Owned.dirRefs (hP : Counts P) (hV : Owned P ib V) {dir : Nat}
    (ht : (V.ino dir).type = nvfsTypeDir) : ∀ c ∈ V.refs
    (V.ino dir), InData ib c ∧ V.bit c = true := by
  intro c hc
  have hmem : c ∈ V.holds P dir := by
    rw [holds_pos (hP.live _ (by rw [ht]; decide))]
    exact hc
  exact ⟨hV.inData dir c hmem, hV.marked dir c hmem⟩

/-- The common end of the calls: enter the new inode in its directory, or free it. -/
theorem enterNew_spec (hP : Counts P) (hg : Geometry ib g) {parent i size start : Nat}
    (hn : NulFree name) {type : UInt8}
    (hV : Owned P ib V) (hnt : n.type = type) (hsize : n.size = UInt32.ofNat size) (hcount : size = 0 → n.extentCount = 0)
    (hborn : Born ib V i n start (blocksFor size) f (vol ib d)) (ticks : Nat) :
    wp 32768 (fun _ => True) (enterNew parent name i ticks)
      (fun r g' d' => g' = g ∧ Made ib V parent name type size f r (vol ib d')) g d := by
  have hV' : Owned P ib (vol ib d) := hV.rewrites (hborn.rewrites hV)
  unfold enterNew
  refine (wp_bind).mpr (wp_mono (fun _ _ => trivial) ?_
    (dirAdd_spec hg hV'.table hn (hV'.dirRefs hP) i ticks))
  rintro r g' (d' : Disk) ⟨rfl, ⟨rfl, hframe, hwhy⟩ | ⟨rfl, hdir, ht, hl, h⟩⟩
  · -- `dir_add` refused: the inode and its blocks are given back
    have hino : (vol ib d').ino i = n := (hframe.ino i (notMem_empty i)).trans hborn.ino_self
    have hin : ∀ b ∈ (vol ib d').refs ((vol ib d').ino i), InData ib b := by
      intro b hb
      rw [hino, hborn.run.refs, mem_range'_1] at hb
      have := hborn.fits
      exact ⟨hV.lo_of_free (hborn.free b hb.1 hb.2), by omega⟩
    rw [if_neg Bool.false_ne_true]
    refine (wp_bind).mpr (wp_mono (fun _ _ => trivial) ?_
      (inodeFree_spec hg hborn.pos hborn.lt hin))
    rintro _ g'' d'' ⟨rfl, -, hd''⟩
    rw [wp_pure, hd'']
    exact ⟨rfl, .inl ⟨rfl, ⟨i, hborn.undone hframe⟩, .inr ⟨i, n, start, _, hborn, hwhy⟩⟩⟩
  · exact ⟨rfl, .inr ⟨rfl, i, n, start, _, hborn, hnt, hsize, hcount, ht, hl, h⟩⟩

theorem Born.blank {V W : Vol} (h1 : i ≠ 0)
    (h2 : i < 4 * ib) (h3 : (V.ino i).type = 0) (hn : n.extentCount = 0) (hW : W = V.setIno i n) :
    Born ib V i n 0 0 f W :=
  ⟨h1, h2, h3, HoldsRun.of_empty hn, by omega, fun b _ hb => by omega, by rw [hW, Vol.fill_zero]⟩

theorem Born.written {d' : Disk} {n n' : Inode}
    (h1 : i ≠ 0) (h2 : i < 4 * ib) (h3 : (V.ino i).type = 0) (hrun : HoldsRun n' start k)
    (hend : start + k ≤ 32726) (hfree : FreeRun (V.setIno i n) start k)
    (hd' : vol ib d' = (V.setIno i n).fill start k f) :
    Born ib V i n' start k f (vol ib (d'.setIno i n')) := by
  refine ⟨h1, h2, h3, hrun, hend, hfree, ?_⟩
  rw [vol_setIno h2, hrun.capExtents, hd']
  apply Vol.ext <;> try rfl
  funext j
  simp only [setIno_ino, Vol.fill_ino]
  by_cases hj : j = i <;> simp [hj]

section

variable (hP : Counts P) (hg : Geometry ib g) (hV : Owned P ib (vol ib d))
  (hslot : FreeSlot ib (vol ib d))
include hP hg hV hslot

variable {parent : Nat} {name : List UInt8}

theorem createFile_spec (hn : NulFree name) (env : Env)
    (data : Mem) (size : Nat) :
    wp 32768 (fun _ => True) (createFile env parent name data size)
      (fun r g' d' => g' = g ∧ Made ib (vol ib d) parent name nvfsTypeFile size
        (extentChunk data size) r (vol ib d')) g d := by
  unfold createFile
  refine (wp_bind).mpr (wp_mono (fun _ _ => trivial) ?_ (inodeAlloc_spec hg hslot _ _))
  rintro r g' (d' : Disk) ⟨rfl, i, rfl, h1, h2, h3, hd'⟩
  have hborn := Born.blank (f := extentChunk data size) (by omega) h2 h3 rfl hd'
  have hV' : Owned P ib (vol ib d') := hV.rewrites (hborn.rewrites hV)
  simp only
  refine (wp_bind).mpr (wp_mono (fun _ _ => trivial) ?_
    (extentWrite_spec hg hV'.table _ data size))
  rintro r g'' (d'' : Disk) ⟨rfl, hr⟩
  cases r with
  | none =>
    -- no room for the data: the inode is given back
    have hino : (vol ib d'').ino i = freshInode nvfsTypeFile (nowSec (env.ticks 0)) :=
      (hr.1.ino i (notMem_empty i)).trans hborn.ino_self
    have hnone : (vol ib d'').refs ((vol ib d'').ino i) = [] := by
      rw [hino]
      exact refs_of_count_zero rfl
    have hroom : ¬ HasRoom (vol ib d) size := fun hroom => hr.2.2 (by
      rw [hd']
      exact hroom)
    simp only [wp_bind]
    refine wp_mono (fun _ _ => trivial) ?_ (inodeFree_spec hg hborn.pos hborn.lt (by
      rw [hnone]
      exact fun b hb => absurd hb (by simp)))
    rintro _ g3 d3 ⟨rfl, -, hd3⟩
    rw [wp_setErrno, wp_pure, hd3]
    exact ⟨rfl, .inl ⟨rfl, ⟨i, hborn.undone hr.1⟩, .inl hroom⟩⟩
  | some n' =>
    obtain ⟨htype, hsize, hcount, start, hrun, hend, hfree, hd''⟩ := hr
    rw [hd'] at hfree hd''
    have hborn' := Born.written hborn.pos h2 h3 hrun hend hfree hd''
    simp only
    rw [wp_bind, wp_inodeWrite hg h2]
    refine ⟨trivial, ?_⟩
    rw [if_pos rfl]
    exact enterNew_spec hP hg hn hV htype hsize hcount hborn' _

theorem createDir_spec (hn : NulFree name) (env : Env) :
    wp 32768 (fun _ => True) (createDir env parent name)
      (fun r g' d' => g' = g ∧ Made ib (vol ib d) parent name nvfsTypeDir 0
        (fun _ => Sector.zero) r (vol ib d')) g d := by
  have hzero : blocksFor 0 = 0 := by decide
  unfold createDir
  refine (wp_bind).mpr (wp_mono (fun _ _ => trivial) ?_ (inodeAlloc_spec hg hslot _ _))
  rintro r g' (d' : Disk) ⟨rfl, i, rfl, h1, h2, h3, hd'⟩
  simp only
  rw [wp_bind, wp_inodeWrite hg h2]
  have hborn : ∀ n : Inode, n.extentCount = 0 → Born ib (vol ib d) i n 0 (blocksFor 0)
      (fun _ => Sector.zero) (vol ib (d'.setIno i n)) := by
    intro n hn0
    rw [hzero]
    exact Born.written (by omega) h2 h3 (HoldsRun.of_empty hn0) (by omega)
      (fun b _ hb => by omega) (hd'.trans Vol.fill_zero.symm)
  have hb := hborn
    { size := 0, type := nvfsTypeDir, ctime := ctimeOf (nowSec (env.ticks 1)),
      extentCount := 0, extents := env.stack, mtime := nowSec (env.ticks 1) } rfl
  refine ⟨trivial, ?_⟩
  rw [if_pos rfl]
  exact enterNew_spec hP hg hn hV rfl rfl (fun _ => rfl) hb _

end

/-! ## Removing an inode -/

/-- Inode `i` is free, and its entry, if `dir_remove` found it, is gone. -/
def Removed (V : Vol) (parent : Nat) (name : List UInt8) (i : Nat) (r : Bool) (W : Vol) : Prop :=
  r = false ∧ W = (V.clear (V.refs (V.ino i))).setIno i (V.ino i).freed ∧
    ((W.ino parent).type ≠ nvfsTypeDir ∨
      ∀ b ∈ W.blocksOf (W.ino parent), findSlot (W.blk b) name = none) ∨
  r = true ∧
    (((V.clear (V.refs (V.ino i))).setIno i (V.ino i).freed).ino parent).type = nvfsTypeDir ∧
    DirRemoved ((V.clear (V.refs (V.ino i))).setIno i (V.ino i).freed) parent name W

variable {parent i : Nat}

/-- The common end of `nvfs_delete` and `nvfs_rmdir`. -/
theorem freeAndUnlink_spec (hP : Counts P) (hg : Geometry ib g) (hV : Owned P ib (vol ib d))
    (h0 : i ≠ 0) (hi : i < 4 * ib)
    (hlive : ((vol ib d).ino i).type ≠ 0) (ticks : Nat) :
    wp 32768 (fun _ => True) (freeAndUnlink parent name i ticks)
      (fun r g' d' => g' = g ∧ Removed (vol ib d) parent name i r (vol ib d') ∧
        (r = true → DirRemovedFirst (((vol ib d).clear ((vol ib d).refs ((vol ib d).ino i))).setIno i
          ((vol ib d).ino i).freed) parent name (vol ib d'))) g d := by
  have hp := hP.live _ hlive
  unfold freeAndUnlink
  refine (wp_bind).mpr (wp_mono (fun _ _ => trivial) ?_
    (inodeFree_spec hg h0 hi (hV.refsData hp)))
  rintro r g' (d' : Disk) ⟨rfl, rfl, hd'⟩
  have hV' : Owned P ib (vol ib d') := by
    rw [hd']
    exact hV.rewrites (Rewrites.free hp)
  rw [if_pos rfl]
  refine (wp_bind).mpr (wp_mono (fun _ _ => trivial) ?_ (dirRemove_spec hg (fun ht =>
    hV'.refsData (hP.live _ (by rw [ht]; decide))) ticks))
  rintro r g'' d'' ⟨rfl, ⟨rfl, rfl, hwhy⟩ | ⟨rfl, ht, h⟩⟩
  · exact ⟨rfl, .inl ⟨rfl, hd', hwhy⟩, fun hr => by cases hr⟩
  · rw [hd'] at h ht
    exact ⟨rfl, .inr ⟨rfl, ht, h.removed⟩, fun _ => h⟩

/-! ## The calls after path resolution -/

/-- The existing inode a path names, with the directory and the name it is found
    under. -/
def target (g : Globals) (d : Disk) (path : List UInt8) : Option (Nat × List UInt8 × Nat) :=
  match val 32768 (resolveNamed path) g d with
  | none => none
  | some (parent, name) =>
    match val 32768 (dirFind parent name) g d with
    | none => none
    | some inum =>
      match val 32768 (inodeRead inum) g d with
      | none => none
      | some _ => some (parent, name, inum)

theorem target_spec (hg : Geometry ib g) {path name : List UInt8}
    (h : target g d path = some (parent, name, i)) :
    val 32768 (resolveNamed path) g d = some (parent, name) ∧
      val 32768 (dirFind parent name) g d = some i ∧ NulFree name ∧ i ≠ 0 ∧ i < 4 * ib := by
  unfold target at h
  cases hres : val 32768 (resolveNamed path) g d with
  | none =>
    rw [hres] at h
    cases h
  | some r =>
    rw [hres] at h
    simp only at h
    cases hfind : val 32768 (dirFind r.1 r.2) g d with
    | none =>
      rw [hfind] at h
      cases h
    | some inum =>
      rw [hfind] at h
      simp only at h
      cases hread : val 32768 (inodeRead inum) g d with
      | none =>
        rw [hread] at h
        cases h
      | some n =>
        rw [hread] at h
        cases h
        exact ⟨rfl, hfind, resolveNamed_nulFree hres, dirFind_ne_zero hfind,
          (inodeRead_eq_some hg hread).1⟩

section

variable {C : Disk → Prop} {Q : Bool → Globals → Disk → Prop}
  {path : List UInt8}

/-- The prologue of the calls on an existing name leads to the target. -/
theorem wp_onExisting {α : Type} (hg : Geometry ib g) {fail : α}
    {k : Nat → List UInt8 → Nat → Inode → NvfsM α} {Q : α → Globals → Disk → Prop} :
    wp 32768 C (onExisting fail path k) Q g d ↔
      match target g d path with
      | none => Q fail g d
      | some (parent, name, i) => wp 32768 C (k parent name i ((vol ib d).ino i)) Q g d := by
  unfold onExisting target
  rw [wp_bind, wp_readOnly (readOnly_resolveNamed _)]
  cases val 32768 (resolveNamed path) g d with
  | none => rfl
  | some r =>
    simp only
    rw [wp_bind, wp_readOnly (readOnly_dirFind _ _)]
    cases val 32768 (dirFind r.1 r.2) g d with
    | none => rfl
    | some inum =>
      simp only
      rw [wp_bind, wp_readOnly (readOnly_inodeRead _)]
      cases hread : val 32768 (inodeRead inum) g d with
      | none => rfl
      | some n =>
        obtain ⟨-, rfl⟩ := inodeRead_eq_some hg hread
        rfl

variable {env : Env}
  {data : Mem} {size : Nat}

theorem wp_nvfsWrite (hg : Geometry ib g) :
    wp 32768 C (nvfsWrite env path data size) Q g d ↔
      match val 32768 (resolveNamed path) g d with
      | none => Q false g d
      | some (parent, name) =>
        match val 32768 (dirFind parent name) g d with
        | none => wp 32768 C (createFile env parent name data size) Q g d
        | some _ =>
          match target g d path with
          | none => Q false g d
          | some (_, _, i) =>
            wp 32768 C (shadowWrite i ((vol ib d).ino i) data size (env.ticks 0)) Q g d := by
  unfold nvfsWrite target
  rw [wp_bind, wp_readOnly (readOnly_resolveNamed _)]
  cases val 32768 (resolveNamed path) g d with
  | none => rfl
  | some r =>
    simp only
    rw [wp_bind, wp_readOnly (readOnly_dirFind _ _)]
    cases val 32768 (dirFind r.1 r.2) g d with
    | none => rfl
    | some inum =>
      simp only
      rw [wp_bind, wp_readOnly (readOnly_inodeRead _)]
      cases hread : val 32768 (inodeRead inum) g d with
      | none => rfl
      | some n =>
        obtain ⟨-, rfl⟩ := inodeRead_eq_some hg hread
        rfl

/-- The data and size that `nvfs_append` writes in place of the file. -/
def appended (V : Vol) (n : Inode) (heap data : Mem) (size : Nat) : Mem × Nat :=
  (appendBuf heap (V.content n (min n.size.toNat 4096)) (min n.size.toNat 4096)
      (min size (4096 - min n.size.toNat 4096)) data,
    min n.size.toNat 4096 + min size (4096 - min n.size.toNat 4096))

theorem wp_nvfsAppend (hP : Counts P) (hg : Geometry ib g) (hV : Owned P ib (vol ib d)) :
    wp 32768 C (nvfsAppend env path data size) Q g d ↔
      match target g d path with
      | none => Q false g d
      | some (_, _, i) =>
        if ((vol ib d).ino i).type ≠ nvfsTypeFile then Q false g d
        else
          match env.heap with
          | none => Q false g d
          | some heap =>
            wp 32768 C
              (shadowWrite i ((vol ib d).ino i)
                (appended (vol ib d) ((vol ib d).ino i) heap data size).1
                (appended (vol ib d) ((vol ib d).ino i) heap data size).2 (env.ticks 0))
              Q g d := by
  unfold nvfsAppend
  rw [wp_onExisting hg]
  cases target g d path with
  | none => rfl
  | some t =>
    simp only
    split
    · rfl
    next htype =>
    have hp := hP.live ((vol ib d).ino t.2.2) (by rw [not_not.mp htype]; decide)
    cases env.heap with
    | none => rfl
    | some heap =>
      simp only
      rw [wp_bind, wp_readOnly (readOnly_extentRead _ _),
        val_extentRead hg (hV.refsData hp)]
      rfl

theorem wp_nvfsDelete (hg : Geometry ib g) :
    wp 32768 C (nvfsDelete env path) Q g d ↔
      match target g d path with
      | none => Q false g d
      | some (parent, name, i) =>
        if ((vol ib d).ino i).type ≠ nvfsTypeFile then Q false g d
        else wp 32768 C (freeAndUnlink parent name i (env.ticks 0)) Q g d := by
  unfold nvfsDelete
  rw [wp_onExisting hg]
  cases target g d path with
  | none => rfl
  | some t =>
    simp only
    split <;> rfl

theorem wp_nvfsRmdir (hg : Geometry ib g) :
    wp 32768 C (nvfsRmdir env path) Q g d ↔
      match target g d path with
      | none => Q false g d
      | some (parent, name, i) =>
        if ((vol ib d).ino i).type ≠ nvfsTypeDir then Q false g d
        else if val 32768 (dirEmpty i) g d = false then Q false g d
        else wp 32768 C (freeAndUnlink parent name i (env.ticks 0)) Q g d := by
  unfold nvfsRmdir
  rw [wp_onExisting hg]
  cases target g d path with
  | none => rfl
  | some t =>
    simp only
    split
    · rfl
    rw [wp_bind, wp_readOnly (readOnly_dirEmpty _)]
    cases val 32768 (dirEmpty t.2.2) g d <;> rfl

theorem wp_nvfsMkdir :
    wp 32768 C (nvfsMkdir env path) Q g d ↔
      match val 32768 (resolveNamed path) g d with
      | none => Q false g d
      | some (parent, name) => wp 32768 C (createDir env parent name) Q g d := by
  unfold nvfsMkdir
  rw [wp_bind, wp_readOnly (readOnly_resolveNamed _)]
  cases val 32768 (resolveNamed path) g d <;> rfl

end

end Noverix.Nvfs
