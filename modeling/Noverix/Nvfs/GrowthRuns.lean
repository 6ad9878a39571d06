/-
  Runs that run out of inodes.  As long as the table only grows by the block
  right behind it, no inode shares a sector with a block in use
  (`reach_separate`); as long as it does not grow, the volume can be mounted
  again (`reach_remounts`).

  Nothing in the driver makes the table grow that way.  `outgrown` is reached
  by making 127 directories, each in the one before, and then writing one file:
  the new inodes then lie in the block of the root directory, and the
  superblock no longer passes the checks of `nvfs_mount`.
-/

import Mathlib.Data.Finset.Card
import Noverix.Nvfs.Growth
import Noverix.Nvfs.ReadBack
import Noverix.Nvfs.Superblock

namespace Noverix.Nvfs

open Lib
open Lib.DiskProg (wp wp_mono wp_bind)

variable {ib b i k : Nat} {d : Disk} {s : State} {op : Op} {V : Vol} {n : Inode}

/-! ## Inodes and data in separate sectors -/

/-- No inode number is stored in the sector of a block that an inode in use refers to. -/
def Separate (s : State) : Prop :=
  ∀ i, i < s.g.sbInodeCount → ∀ j, ((vol s.g.sbInodeBlocks s.d).ino j).type ≠ 0 →
    ∀ b ∈ (vol 32 s.d).refs ((vol s.g.sbInodeBlocks s.d).ino j),
      inodeSector s.g i ≠ blockSector s.g b

/-- If the call grows the inode table, it does so by the block behind the table. -/
def GrowsInPlace (op : Op) (s : State) : Prop :=
  op.Allocates s → ¬ FreeSlot s.g.sbInodeBlocks (vol s.g.sbInodeBlocks s.d) →
    ∀ b, val 32768 (bitmapFind 1) s.g s.d = some b → b < 32726 → b + 32 = s.g.sbInodeBlocks

theorem vol_blk_of_inData (h : InData ib b) :
    (vol 32 d).blk b = (vol ib d).blk b := by
  obtain ⟨hlo, hhi⟩ := h
  rw [vol_blk, vol_blk, if_pos ⟨by omega, hhi⟩, if_pos ⟨hlo, hhi⟩]

theorem Owned.separate (hg : Geometry ib s.g)
    (hV : Owned Inode.live ib (vol ib s.d)) : Separate s := by
  intro i hi j hlive b hb
  rw [hg.inodeBlocks] at hlive hb
  rw [hg.inodeCount] at hi
  have hp := counts_live.live _ hlive
  have hrefs : (vol 32 s.d).refs ((vol ib s.d).ino j) = (vol ib s.d).refs ((vol ib s.d).ino j) :=
    refs_congr fun c hc => vol_blk_of_inData (hV.indData hp c hc)
  rw [hrefs] at hb
  obtain ⟨hlo, hhi⟩ := hV.refsData hp b hb
  rw [hg.inodeSector hi, hg.blockSector (by omega)]
  omega

/-- One step of such a run: ownership carries over to the table of the size it then has. -/
theorem step_growsInPlace (hg : Geometry ib s.g)
    (hV : Owned anyInode ib (vol ib s.d)) (hgrow : GrowsInPlace op s) :
    ∃ ib', Geometry ib' (step op s).g ∧ Owned anyInode ib' (vol ib' (step op s).d) := by
  have hib := hg.inodeBlocks
  by_cases hslot : SlotAvailable ib op s
  · obtain ⟨hg', hkept⟩ := step_kept counts_anyInode hg hV hslot fun _ _ => rfl
    exact ⟨ib, hg', hkept.owned⟩
  obtain ⟨ha, hno⟩ := Classical.not_imp.mp hslot
  by_cases hfound : ∃ b, val 32768 (bitmapFind 1) s.g s.d = some b ∧ b < 32726
  · obtain ⟨b, hfind, hb⟩ := hfound
    have hin := hgrow ha (by rw [hib]; exact hno) b hfind hb
    rw [hib] at hin
    exact ⟨ib + 1, step_expanded counts_anyInode hg hV ha hno hfind hb hin⟩
  obtain ⟨hsame, hvol⟩ := step_noRoom counts_anyInode hg hV ha hno
    fun b hfind hb => hfound ⟨b, hfind, hb⟩
  refine ⟨ib, ?_, ?_⟩
  · rw [hsame]
    exact hg
  · rw [hvol]
    exact hV

/-- In a run in which the table only grows by the block behind it, no inode is stored in
    a sector that a file, a directory or an indirect block uses. -/
theorem reach_separate {s₀ s : State} (h0 : Start s₀) (h : Reach step GrowsInPlace s₀ s) :
    Separate s := by
  have hinv : ∃ ib, Geometry ib s.g ∧ Owned anyInode ib (vol ib s.d) := by
    refine h.invariant (fun s => ∃ ib, Geometry ib s.g ∧ Owned anyInode ib (vol ib s.d))
      ⟨32, h0.owned.1, h0.owned.2.1⟩ ?_
    rintro op s ⟨ib, hg, hV⟩ hgrow
    exact step_growsInPlace hg hV hgrow
  obtain ⟨ib, hg, hV⟩ := hinv
  exact hV.of_anyInode.separate hg

/-- Making a directory on the empty volume takes a free slot. -/
theorem reach_separate_mkdir :
    Start emptyState ∧ Reach step GrowsInPlace emptyState (step (.mkdir idle pathA) emptyState) ∧
      Separate (step (.mkdir idle pathA) emptyState) := by
  have hgrow : GrowsInPlace (.mkdir idle pathA) emptyState := by
    intro _ hno
    rw [start_emptyState.owned.1.inodeBlocks] at hno
    exact absurd freeSlot_emptyState hno
  have hreach : Reach step GrowsInPlace emptyState (step (.mkdir idle pathA) emptyState) :=
    Reach.next _ Reach.start hgrow
  exact ⟨start_emptyState, hreach, reach_separate start_emptyState hreach⟩

/-! ## Mounting again -/

/-- Mounting the disk, attached as drive `dr` of channel `ch`, gives a driver with
    variables `g` the layout that the running one has. -/
def RemountsAt (s : State) (ch dr : Nat) (g : Globals) : Prop :=
  (nvfsMount (onlyDrive ch dr s.d) g).1 = true ∧
    (nvfsMount (onlyDrive ch dr s.d) g).2.sbBitmapStart = s.g.sbBitmapStart ∧
    (nvfsMount (onlyDrive ch dr s.d) g).2.sbBitmapSectors = s.g.sbBitmapSectors ∧
    (nvfsMount (onlyDrive ch dr s.d) g).2.sbInodeStart = s.g.sbInodeStart ∧
    (nvfsMount (onlyDrive ch dr s.d) g).2.sbInodeCount = s.g.sbInodeCount ∧
    (nvfsMount (onlyDrive ch dr s.d) g).2.sbDataStart = s.g.sbDataStart ∧
    (nvfsMount (onlyDrive ch dr s.d) g).2.sbInodeBlocks = s.g.sbInodeBlocks

/-- The call does not grow the inode table: it needs no inode, finds one, or there is no
    block to grow by. -/
def GrowsNot (op : Op) (s : State) : Prop :=
  op.Allocates s → FreeSlot s.g.sbInodeBlocks (vol s.g.sbInodeBlocks s.d) ∨
    ∀ b, val 32768 (bitmapFind 1) s.g s.d = some b → ¬ b < 32726

/-- Such a call leaves the layout of mknvfs.py alone, in memory and on disk. -/
theorem step_growsNot (hg : Geometry 32 s.g)
    (hV : Owned anyInode 32 (vol 32 s.d)) (hgrow : GrowsNot op s) :
    Geometry 32 (step op s).g ∧ Owned anyInode 32 (vol 32 (step op s).d) ∧
      (step op s).d 1 = s.d 1 := by
  by_cases hslot : SlotAvailable 32 op s
  · obtain ⟨hg', hkept⟩ := step_kept counts_anyInode hg hV hslot fun _ _ => rfl
    exact ⟨hg', hkept.owned, hkept.sector⟩
  obtain ⟨ha, hno⟩ := Classical.not_imp.mp hslot
  have hfull := (hgrow ha).resolve_left (by rw [hg.inodeBlocks]; exact hno)
  obtain ⟨hsame, hvol⟩ := step_noRoom counts_anyInode hg hV ha hno hfull
  have hsector : (step op s).d 1 = s.d 1 := congrArg Vol.sb hvol
  rw [hsame, hvol]
  exact ⟨hg, hV, hsector⟩

/-- In a run in which the table does not grow, the volume can be mounted again at any
    time, with the layout the driver has. -/
theorem reach_remounts {s₀ s : State} (h0 : Start s₀) (h : Reach step GrowsNot s₀ s)
    {ch dr : Nat} (hch : ch < 2) (hdr : dr < 2) (g : Globals) : RemountsAt s ch dr g := by
  have hinv : Geometry 32 s.g ∧ Owned anyInode 32 (vol 32 s.d) ∧ IsSuperblock 32 (s.d 1) := by
    refine h.invariant
      (fun s => Geometry 32 s.g ∧ Owned anyInode 32 (vol 32 s.d) ∧ IsSuperblock 32 (s.d 1))
      h0.owned ?_
    rintro op s ⟨hg, hV, hsb⟩ hgrow
    obtain ⟨hg', hV', hsector⟩ := step_growsNot hg hV hgrow
    refine ⟨hg', hV', ?_⟩
    rw [hsector]
    exact hsb
  obtain ⟨hg, -, hsb⟩ := hinv
  have hnew := hsb.geometry g ch dr
  unfold RemountsAt
  rw [nvfsMount_onlyDrive hsb g hch hdr]
  exact ⟨rfl, hnew.bitmapStart.trans hg.bitmapStart.symm,
    hnew.bitmapSectors.trans hg.bitmapSectors.symm, hnew.inodeStart.trans hg.inodeStart.symm,
    hnew.inodeCount.trans hg.inodeCount.symm, hnew.dataStart.trans hg.dataStart.symm,
    hnew.inodeBlocks.trans hg.inodeBlocks.symm⟩

/-- The empty volume with a directory can be mounted again. -/
theorem reach_remounts_mkdir :
    Reach step GrowsNot emptyState (step (.mkdir idle pathA) emptyState) ∧
      RemountsAt (step (.mkdir idle pathA) emptyState) 0 1 bootGlobals := by
  have hgrow : GrowsNot (.mkdir idle pathA) emptyState := by
    intro _
    rw [start_emptyState.owned.1.inodeBlocks]
    exact .inl freeSlot_emptyState
  have hreach : Reach step GrowsNot emptyState (step (.mkdir idle pathA) emptyState) :=
    Reach.next _ Reach.start hgrow
  exact ⟨hreach, reach_remounts start_emptyState hreach (by decide) (by decide) bootGlobals⟩

/-! ## Directories inside directories -/

/-- Make a directory `p` in the current directory and go there, `k` times over. -/
def descendInto (p : Path) : Nat → State
  | 0 => emptyState
  | k + 1 => step (.chdir p) (step (.mkdir idle p) (descendInto p k))

/-- The same with the name `A`. -/
def descend (k : Nat) : State := descendInto pathA k

/-- The inodes in use. -/
def inUse (V : Vol) : Finset Nat := (Finset.range 128).filter fun i => (V.ino i).type ≠ 0

/-- The volume after `k` rounds: each took an inode and the next block, the first of
    them for a directory that keeps it. -/
structure Nested (k : Nat) (V : Vol) : Prop where
  bits : ∀ b, V.bit b = decide (b < k)
  used : (inUse V).card = k + 1
  first : 0 < k → ∃ i, V.tree.dir i ∧ (V.ino i).indBlks = [] ∧ 0 ∈ V.blocksOf (V.ino i)

theorem blocksOf_of_count_zero (h : n.extentCount = 0) : V.blocksOf n = [] :=
  (append_eq_nil_iff.mp (refs_of_count_zero (V := V) h)).1

theorem indBlks_of_count_zero (h : n.extentCount = 0) : n.indBlks = [] :=
  if_neg (by rw [h]; decide)

section

variable {V W : Vol} {k cwd : Nat} {name : List UInt8} {f : Nat → Sector} {r : Bool}

theorem Born.nested_bit {V' : Vol} {start k' : Nat} (hnest : Nested k V)
    (hzero : k' = 0) (hborn : Born 32 V i n start k' f V') (c : Nat) :
    V'.bit c = decide (c < k) := by
  rw [hborn.eq, setIno_bit, Vol.fill_bit, hzero, decide_eq_false (by omega), Bool.or_false]
  exact hnest.bits c

/-- Making a directory in an empty one succeeds: the new inode has no blocks, and the
    directory is given the next block for the entry. -/
theorem Made.grown (hV : Owned Inode.live 32 V) (hs : TreeShaped V cwd) (hk : k < 32726)
    (hnest : Nested k V) (hempty : (V.ino cwd).extentCount = 0) (hn : NulFree name)
    (h : Made 32 V cwd name nvfsTypeDir 0 f r W) :
    ∃ i n start V' s, Born 32 V i n start 0 f V' ∧ n.type = nvfsTypeDir ∧ n.extentCount = 0 ∧
      DirGrown 32 V' cwd k [] s W ∧ Linked V cwd (nameKey name) i n W := by
  have hd : V.tree.dir cwd := hs.cwd
  have hzero : blocksFor 0 = 0 := by decide
  have hnext : V.bit k = false := by rw [hnest.bits, decide_eq_false (by omega)]
  rcases h with ⟨-, -, hno | ⟨i, n, start, V', hborn, hrefused⟩⟩ | ⟨-, i, n, start, V', hborn, hnt,
    -, hcount, ht, -, hadd⟩
  · exact absurd (Or.inl rfl) hno
  · -- an empty directory on a volume with free blocks takes the entry
    exfalso
    have hpi : cwd ≠ i := fun heq => live_of_dir hd (heq ▸ hborn.dead)
    have hu : Unchanged V V' cwd := (hborn.rewrites hV).unchanged hV hpi
    rcases hrefused with htype | hlook | ⟨-, hroom⟩
    · exact htype (hu.dir.mpr hd)
    · rw [Vol.entries, blocksOf_of_count_zero (by rw [hu.ino]; exact hempty)] at hlook
      exact hlook rfl
    · exact hborn.not_noRoom hpi (by rw [hempty]; decide) hk hnext (by omega) hroom
  have hpi : cwd ≠ i := fun heq => live_of_dir hd (heq ▸ hborn.dead)
  have hu : Unchanged V V' cwd := (hborn.rewrites hV).unchanged hV hpi
  have hempty' : (V'.ino cwd).extentCount = 0 := by rw [hu.ino]; exact hempty
  rcases hadd with (⟨b, e, -, hedit⟩ | ⟨hfull, b, extra, hgrown⟩) | ⟨-, hlost⟩
  · exfalso
    have hb := hedit.1
    rw [blocksOf_of_count_zero hempty'] at hb
    cases hb
  · have hlinked := hborn.linked hV (by have := hborn.lt; omega) hd hn (fun _ => hzero)
      (.inr ⟨hfull, b, extra, hgrown⟩)
    obtain rfl := hgrown.direct (by rw [hempty']; decide)
    have hbit : ∀ c, V'.bit c = decide (c < k) := hborn.nested_bit hnest hzero
    -- the block taken is the first free one
    have hb : b = k := by
      have hfree := (hgrown.fresh b (mem_cons_self ..)).2.1
      rw [hbit, decide_eq_false_iff_not] at hfree
      by_contra hne
      have hset := hgrown.first k (by omega)
      rw [hbit, decide_eq_true_iff] at hset
      omega
    subst hb
    rw [hzero] at hborn
    exact ⟨i, n, start, V', _, hborn, hnt, hcount rfl, hgrown, hlinked⟩
  exfalso
  have hc := hlost.count
  rw [hempty'] at hc
  cases hc

theorem Linked.inUse_eq {key : List UInt8} (hi : i < 128)
    (hnt : n.type = nvfsTypeDir) (hd : V.tree.dir cwd) (h : Linked V cwd key i n W) :
    inUse W = insert i (inUse V) := by
  have hlive : n.type ≠ 0 := by rw [hnt]; decide
  ext j
  simp only [inUse, Finset.mem_filter, Finset.mem_range, Finset.mem_insert]
  have hiff : (W.ino j).type ≠ 0 ↔ (V.ino j).type ≠ 0 ∨ j = i := h.live_iff hd hlive j
  rw [hiff]
  constructor
  · rintro ⟨hj, hold | rfl⟩
    · exact .inr ⟨hj, hold⟩
    · exact .inl rfl
  · rintro (rfl | ⟨hj, hold⟩)
    · exact ⟨hi, .inr rfl⟩
    · exact ⟨hj, .inl hold⟩

theorem Made.nested (hV : Owned Inode.live 32 V) (hs : TreeShaped V cwd) (hk : k < 32726)
    (hnest : Nested k V) (hempty : (V.ino cwd).extentCount = 0) (hn : NulFree name)
    (h : Made 32 V cwd name nvfsTypeDir 0 f r W) :
    Nested (k + 1) W ∧ ∃ i n, n.type = nvfsTypeDir ∧ n.extentCount = 0 ∧
      Linked V cwd (nameKey name) i n W := by
  obtain ⟨i, n, start, V', s, hborn, hnt, hcount, hgrown, hlinked⟩ :=
    h.grown hV hs hk hnest hempty hn
  have hpi : cwd ≠ i := fun heq => live_of_dir hs.cwd (heq ▸ hborn.dead)
  have hempty' : (V'.ino cwd).extentCount = 0 := by
    rw [((hborn.rewrites hV).unchanged hV hpi).ino]
    exact hempty
  refine ⟨⟨fun c => ?_, ?_, fun _ => ?_⟩, i, n, hnt, hcount, hlinked⟩
  · by_cases hc : c = k
    · rw [hc, (hgrown.fresh k (mem_cons_self ..)).2.2, decide_eq_true (by omega)]
    rw [hgrown.bit c (by simpa using hc), hborn.nested_bit hnest rfl]
    exact decide_eq_decide.mpr (by omega)
  · have hnew : i ∉ inUse V := fun hmem => (Finset.mem_filter.mp hmem).2 hborn.dead
    rw [hlinked.inUse_eq hborn.lt hnt hs.cwd, Finset.card_insert_of_notMem hnew, hnest.used]
  · by_cases hk0 : k = 0
    · refine ⟨cwd, hlinked.dir, ?_, ?_⟩
      · rw [hgrown.indBlks, indBlks_of_count_zero hempty']
        rfl
      · rw [hgrown.blocks, hk0]
        exact mem_append_right _ (mem_singleton_self 0)
    obtain ⟨j, hj, hind, hmem⟩ := hnest.first (by omega)
    have hji : j ≠ i := fun heq => live_of_dir hj (heq ▸ hborn.dead)
    have hjc : j ≠ cwd := by
      rintro rfl
      rw [blocksOf_of_count_zero hempty] at hmem
      cases hmem
    have hsame := hlinked.other j hji hjc
    refine ⟨j, hsame.dir.mpr hj, by rw [hsame.ino]; exact hind, ?_⟩
    unfold Vol.blocksOf at hmem ⊢
    rw [hsame.extList (live_of_dir hj)]
    exact hmem

end

theorem Nested.freeSlot (h : Nested k V) (hroot : V.tree.dir 0) (hk : k < 127) :
    FreeSlot 32 V := by
  by_contra hno
  have hall : inUse V = Finset.range 128 := by
    refine Finset.filter_true_of_mem fun i hi ht => ?_
    have h0 : i ≠ 0 := fun heq => live_of_dir hroot (heq ▸ ht)
    exact hno ⟨i, by omega, by have := Finset.mem_range.mp hi; omega, ht⟩
  have hcard := h.used
  rw [hall, Finset.card_range] at hcard
  omega

theorem Nested.not_freeSlot (h : Nested 127 V) : ¬ FreeSlot 32 V := by
  rintro ⟨i, -, hi, ht⟩
  have hall : inUse V = Finset.range 128 :=
    Finset.eq_of_subset_of_card_le (Finset.filter_subset _ _) (by rw [h.used, Finset.card_range])
  have hmem : i ∈ inUse V := by
    rw [hall]
    exact Finset.mem_range.mpr (by omega)
  exact (Finset.mem_filter.mp hmem).2 ht

section

variable {s : State} {k : Nat}

/-- A path that is one name, as the driver stores it. -/
structure Simple (p : Path) : Prop where
  nulFree : NulFree p.bytes
  noSlash : slash ∉ p.bytes
  short : p.bytes.length ≤ 255
  ne_nil : p.bytes ≠ []
  ne_dot : p.bytes ≠ [dot]
  ne_dots : p.bytes ≠ [dot, dot]
  upper : toUpper p.bytes = p.bytes

theorem simple_A : Simple pathA :=
  ⟨by simp [NulFree, pathA], by decide, by decide, by decide, by decide, by decide, rfl⟩

variable {p : Path} (hp : Simple p)
include hp

theorem resolvePath_simple :
    val 32768 (resolvePath p.bytes) s.g s.d = some (s.g.nvfsCwd, p.bytes) := by
  rw [resolvePath_name hp.nulFree hp.noSlash hp.short hp.ne_nil hp.ne_dot hp.ne_dots, hp.upper]

theorem resolveNamed_simple (hg : Geometry 32 s.g) :
    val 32768 (resolveNamed p.bytes) s.g s.d = some (s.g.nvfsCwd, p.bytes) := by
  rw [resolveNamed_name hg hp.nulFree hp.noSlash hp.short hp.ne_nil hp.ne_dot hp.ne_dots, hp.upper]

theorem step_mkdir_nested (h : WellFormed s) (hnest : Nested k (vol 32 s.d))
    (hempty : ((vol 32 s.d).ino s.g.nvfsCwd).extentCount = 0) (hk : k < 127) :
    WellFormed (step (.mkdir idle p) s) ∧ (step (.mkdir idle p) s).g = s.g ∧
      Nested (k + 1) (vol 32 (step (.mkdir idle p) s).d) ∧
      ∃ i n, n.type = nvfsTypeDir ∧ n.extentCount = 0 ∧ Linked (vol 32 s.d) s.g.nvfsCwd
        (nameKey p.bytes) i n (vol 32 (step (.mkdir idle p) s).d) := by
  have hslot := hnest.freeSlot h.tree.shaped.root_dir hk
  refine ⟨step_wellFormed h (fun _ => hslot) (fun _ hi => hi.elim) trivial, ?_⟩
  refine step_of_wp (Q := fun g' d' => g' = s.g ∧ Nested (k + 1) (vol 32 d') ∧
    ∃ i n, n.type = nvfsTypeDir ∧ n.extentCount = 0 ∧
      Linked (vol 32 s.d) s.g.nvfsCwd (nameKey p.bytes) i n (vol 32 d')) ?_
  rw [Op.prog, wp_nvfsMkdir, resolveNamed_simple hp h.geometry]
  refine wp_mono (fun _ _ => trivial) ?_
    (createDir_spec counts_live h.geometry h.owned hslot hp.nulFree idle)
  rintro r g' d' ⟨rfl, hmade⟩
  exact ⟨rfl, hmade.nested h.owned h.tree (by omega) hnest hempty hp.nulFree⟩

theorem step_chdir_nested (h : WellFormed s) (hd : (vol 32 s.d).tree.dir i)
    (hmem : (nameKey p.bytes, i) ∈ (vol 32 s.d).tree.kids s.g.nvfsCwd) :
    WellFormed (step (.chdir p) s) ∧
      (step (.chdir p) s).g.nvfsCwd = i ∧ (step (.chdir p) s).d = s.d := by
  have hg := h.geometry
  have hfind := (dirFind_iff hg h.owned h.tree.shaped h.tree.cwd hp.nulFree).mpr hmem
  have htarget : chdirTarget s.g s.d p.bytes = some i := by
    have htype : ((vol 32 s.d).ino i).type = nvfsTypeDir := hd
    have hcut : p.bytes.takeWhile (· != 0) = p.bytes :=
      List.takeWhile_eq_self_iff.mpr fun c hc => by simpa using hp.nulFree c hc
    unfold chdirTarget
    rw [if_pos hg.mounted, hcut, if_neg hp.ne_nil, resolvePath_simple hp]
    simp only
    rw [if_neg hp.ne_nil, hfind]
    simp only
    rw [val_inodeRead hg (vol_dir_lt hd)]
    simp only
    rw [if_neg (not_not.mpr htype)]
  refine ⟨step_wellFormed h (fun ha => ha.elim) (fun _ hi => hi.elim) trivial, ?_⟩
  refine step_of_wp (Q := fun g' d' => g'.nvfsCwd = i ∧ d' = s.d) ?_
  simp only [Op.prog, wp_bind, wp_nvfsChdir, htarget]
  exact ⟨rfl, rfl⟩

end

theorem Linked.pathTo {V W : Vol} {parent i j : Nat} {key : List UInt8} {n : Inode}
    {names : List (List UInt8)} (hd : V.tree.dir parent) (h : Linked V parent key i n W)
    (hpath : V.tree.PathTo nvfsRootInode names j) : W.tree.PathTo nvfsRootInode names j := by
  have hne : ∀ p, V.tree.dir p → p ≠ i := fun p hp heq => h.dead (heq ▸ live_of_dir hp)
  refine hpath.mono (fun p hp => (h.dir_iff hd p (hne p hp)).mpr hp) fun p hp e he => ?_
  by_cases hpp : p = parent
  · subst hpp
    exact h.added.mem_iff.mpr (mem_cons_of_mem _ he)
  · rw [h.kids_of_ne p hpp (hne p hp)]
    exact he

theorem nested_emptyState : Nested 0 (vol 32 emptyState.d) := by
  obtain ⟨hbits, hroot, -, hfree⟩ := emptyState_vol
  refine ⟨fun b => ?_, ?_, fun h => absurd h (by decide)⟩
  · rw [hbits, decide_eq_false (by omega)]
  · have hset : inUse (vol 32 emptyState.d) = {0} := by
      ext j
      simp only [inUse, Finset.mem_filter, Finset.mem_range, Finset.mem_singleton]
      refine ⟨fun ⟨_, ht⟩ => ?_, ?_⟩
      · by_contra hj
        exact ht (hfree j hj)
      · rintro rfl
        rw [hroot]
        decide
    rw [hset, Finset.card_singleton]

/-- The state after `k` rounds, by induction on the rounds. -/
theorem descendInto_spec {p : Path} (hp : Simple p) (hk : k ≤ 127) :
    WellFormed (descendInto p k) ∧ Nested k (vol 32 (descendInto p k).d) ∧
      ((vol 32 (descendInto p k).d).ino (descendInto p k).g.nvfsCwd).extentCount = 0 ∧
      (vol 32 (descendInto p k).d).tree.PathTo nvfsRootInode
        (replicate k (nameKey p.bytes)) (descendInto p k).g.nvfsCwd := by
  induction k with
  | zero => exact ⟨wellFormed_emptyState, nested_emptyState, emptyState_vol.2.2.1 _, .root⟩
  | succ k ih =>
    obtain ⟨hwf, hnest, hempty, hpath⟩ := ih (by omega)
    obtain ⟨hwf1, hg1, hnest1, i, n, hnt, hcount, hlinked⟩ :=
      step_mkdir_nested hp hwf hnest hempty (by omega)
    obtain ⟨hwf2, hcwd, hdisk⟩ := step_chdir_nested hp hwf1 (hlinked.dir_self hnt)
      (hg1 ▸ hlinked.mem_self)
    unfold descendInto
    rw [hdisk, hcwd, hlinked.ino, List.replicate_succ']
    exact ⟨hwf2, hnest1, hcount,
      .down (hlinked.pathTo hwf.tree.cwd hpath) hlinked.dir hlinked.mem_self⟩

theorem descend_spec (hk : k ≤ 127) :
    WellFormed (descend k) ∧ Nested k (vol 32 (descend k).d) ∧
      ((vol 32 (descend k).d).ino (descend k).g.nvfsCwd).extentCount = 0 ∧
      (vol 32 (descend k).d).tree.PathTo nvfsRootInode (replicate k [65])
        (descend k).g.nvfsCwd :=
  descendInto_spec simple_A hk

theorem reach_descend (k : Nat) : Reach step (fun _ _ => True) emptyState (descend k) := by
  induction k with
  | zero => exact .start
  | succ k ih => exact .next _ (.next _ ih trivial) trivial

/-! ## One file more -/

/-- All inodes are in use, and a file of 2 GiB is written in the last directory. -/
def outgrown : State := step (.write idle pathA (fun _ => 0) 0x80000000) (descend 127)

/-- A call that fails to store the data of a new file, after the table has grown for its
    inode: the old inodes keep their records. -/
theorem wp_createFile_outgrown {g : Globals} (hg : Geometry 32 g)
    (hV : Owned Inode.live 32 (vol 32 d)) (hno : ¬ FreeSlot 32 (vol 32 d))
    (hfind : val 32768 (bitmapFind 1) g d = some b) (hb : b < 32726)
    (h0 : (vol 32 d).bit 0 = true) (env : Env) (parent : Nat) (name : List UInt8) (data : Mem) :
    wp 32768 (fun _ => True) (createFile env parent name data (0x80000000 : UInt32).toNat)
      (fun _ g' d' => g' = g.expanded ∧
        ∀ j < 128, (vol 33 d').ino j = (vol 32 d).ino j) g d := by
  have hg' : Geometry 33 g.expanded := hg.expanded (by omega)
  have hold : ∀ j < 128, (vol 33 (d.expanded 32 b)).ino j = (vol 32 d).ino j := fun j hj =>
    expanded_ino (by omega) (by omega) (by omega)
  have htable : ∀ c, c + 32 < 33 → (vol 33 (d.expanded 32 b)).bit c = true := fun c hc => by
    rw [expanded_bit (by omega)]
    have hc0 : c = 0 := by omega
    rw [hc0, h0, ite_self]
  unfold createFile
  rw [wp_bind, wp_inodeAlloc_full hg (fun _ => hV.lo_of_free) hno, hfind]
  simp only
  rw [if_pos hb]
  cases hslot : (range' (4 * 32) 4).find?
      fun i => ((vol (32 + 1) (d.expanded 32 b)).ino i).type = 0 with
  | none => exact ⟨rfl, hold⟩
  | some i =>
    have hi := mem_range'_1.mp (mem_of_find?_eq_some hslot)
    have hvol : vol 33 ((d.expanded 32 b).setIno i (freshInode nvfsTypeFile (nowSec (env.ticks 0))))
        = (vol 33 (d.expanded 32 b)).setIno i
          (freshInode nvfsTypeFile (nowSec (env.ticks 0))).capExtents :=
      vol_setIno (by omega) _
    simp only
    rw [wp_bind]
    refine wp_mono (fun _ _ => trivial) ?_ (extentWrite_spec hg' ?_ _ data _)
    · -- there is no room for the data: the inode is given back
      rintro (_ | n) g' d' ⟨rfl, hw⟩
      · obtain ⟨hframe, -, -⟩ := hw
        have hino : ∀ j, (vol 33 d').ino j = if j = i then
            (freshInode nvfsTypeFile (nowSec (env.ticks 0))).capExtents
            else (vol 33 (d.expanded 32 b)).ino j := fun j => by
          rw [hframe.ino j (notMem_empty j), hvol, setIno_ino]
        have hself : (vol 33 d').ino i = freshInode nvfsTypeFile (nowSec (env.ticks 0)) :=
          (hino i).trans (if_pos rfl)
        have hrefs : (vol 33 d').refs ((vol 33 d').ino i) = [] :=
          refs_of_count_zero (by rw [hself]; rfl)
        simp only
        rw [wp_bind]
        refine wp_mono (fun _ _ => trivial) ?_ (inodeFree_spec hg' (by omega)
          (by omega : i < 4 * 33) fun c hc => by rw [hrefs] at hc; cases hc)
        rintro r g' d'' ⟨rfl, -, hd''⟩
        refine ⟨rfl, fun j hj => ?_⟩
        rw [hd'', setIno_of_ne (by omega), Vol.clear_ino, hino, if_neg (by omega)]
        exact hold j hj
      · obtain ⟨-, -, -, start, -, hend, -⟩ := hw
        have hblocks : blocksFor (0x80000000 : UInt32).toNat = 4194304 := by decide
        omega
    · rw [hvol]
      exact htable

/-- The write grows the table and leaves the inodes in use alone. -/
theorem step_write_outgrown (h : WellFormed s) (hnest : Nested 127 (vol 32 s.d))
    (hempty : ((vol 32 s.d).ino s.g.nvfsCwd).extentCount = 0) :
    Geometry 33 (step (.write idle pathA (fun _ => 0) 0x80000000) s).g ∧
      ∀ j < 128, (vol 33 (step (.write idle pathA (fun _ => 0) 0x80000000) s).d).ino j
        = (vol 32 s.d).ino j := by
  have hg := h.geometry
  have hnone : val 32768 (dirFind s.g.nvfsCwd [65]) s.g s.d = none := by
    cases hf : val 32768 (dirFind s.g.nvfsCwd [65]) s.g s.d with
    | none => rfl
    | some i =>
      have hmem := (dirFind_iff hg h.owned h.tree.shaped h.tree.cwd simple_A.nulFree).mp hf
      rw [kids_of_dir h.tree.cwd, Vol.entries, blocksOf_of_count_zero hempty] at hmem
      cases hmem
  obtain ⟨b, hb, hfind⟩ := bitmapFind_of_free hg (by decide : 127 + max 1 1 ≤ 32768)
    fun i hi => by rw [hnest.bits, decide_eq_false (by omega)]
  refine step_of_wp (Q := fun g' d' => Geometry 33 g' ∧
    ∀ j < 128, (vol 33 d').ino j = (vol 32 s.d).ino j) ?_
  have hres : val 32768 (resolveNamed pathA.bytes) s.g s.d = some (s.g.nvfsCwd, [65]) :=
    resolveNamed_simple simple_A hg
  rw [Op.prog, wp_nvfsWrite hg, hres]
  simp only
  rw [hnone]
  refine wp_mono (fun _ _ => trivial) ?_ (wp_createFile_outgrown hg h.owned
    hnest.not_freeSlot hfind (by omega) (by rw [hnest.bits]; rfl) _ _ _ _)
  rintro r g' d' ⟨rfl, hino⟩
  exact ⟨hg.expanded (by decide), hino⟩

theorem outgrown_spec : Geometry 33 outgrown.g ∧
    ∀ j < 128, (vol 33 outgrown.d).ino j = (vol 32 (descend 127).d).ino j := by
  obtain ⟨hwf, hnest, hempty, -⟩ := descend_spec le_rfl
  exact step_write_outgrown hwf hnest hempty

/-- Inode 128 is now stored in the block of a directory. -/
theorem outgrown_not_separate : Start emptyState ∧
    Reach step (fun _ _ => True) emptyState outgrown ∧ ¬ Separate outgrown := by
  refine ⟨start_emptyState, .next _ (reach_descend 127) trivial, fun hsep => ?_⟩
  obtain ⟨hg, hino⟩ := outgrown_spec
  obtain ⟨hwf, hnest, -⟩ := descend_spec (Nat.le_refl 127)
  obtain ⟨j, hd, hind, hmem⟩ := hnest.first (by decide)
  have hj : j < 128 := vol_dir_lt hd
  have hrec := hino j hj
  refine hsep 128 ?_ j ?_ 0 ?_ ?_
  · rw [hg.inodeCount]
    decide
  · rw [hg.inodeBlocks, hrec]
    exact live_of_dir hd
  · rw [hg.inodeBlocks, hrec,
      refs_congr (W := vol 32 outgrown.d) (V := vol 32 (descend 127).d) (by rw [hind]; simp)]
    exact mem_append_left _ hmem
  · rw [hg.inodeSector (by decide), hg.blockSector (by decide)]

/-! ## Mounting what has grown -/

/-- The volume cannot be mounted with the layout it now has, wherever its drive is
    attached: the table ends behind the start of the data. -/
theorem outgrown_not_remounts : Start emptyState ∧
    Reach step (fun _ _ => True) emptyState outgrown ∧
      ∀ ch dr g, ¬ RemountsAt outgrown ch dr g := by
  refine ⟨start_emptyState, .next _ (reach_descend 127) trivial, fun ch dr g hre => ?_⟩
  obtain ⟨hok, h1, h2, h3, h4, h5, h6⟩ := hre
  have hg := outgrown_spec.1
  have hlayout := layoutOk_of_mountLoop hok
  unfold layoutOk at hlayout
  rw [show mountLoop (onlyDrive ch dr outgrown.d) g mountProbes
    = nvfsMount (onlyDrive ch dr outgrown.d) g from rfl, h1, h2, h3, h4, h5, h6, hg.bitmapStart,
    hg.bitmapSectors, hg.inodeStart, hg.inodeCount, hg.dataStart, hg.inodeBlocks] at hlayout
  contradiction

end Noverix.Nvfs
