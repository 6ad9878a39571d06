/-
  What can be read after a write or a deletion.  Reading a path finds its inode
  through the tree and returns the first bytes of the inode's blocks.  A call
  that makes, replaces or removes a file changes no directory, so paths resolve
  as before, and it leaves the blocks of all other files alone.
-/

import Noverix.Nvfs.TreeRuns

namespace Noverix.Nvfs

open Lib
open Lib.DiskProg (wp wp_mono)

variable {g g' : Globals} {d d' : Disk}

/-! ## Content -/

/-- The first `max` bytes of what `extent_write` stores. -/
def writtenBytes (data : Mem) (size max : Nat) : List UInt8 :=
  ((List.range (blocksFor size)).flatMap fun j => (extentChunk data size j).bytes).take
    (min (UInt32.ofNat size).toNat max)

variable {n : Inode} {data : Mem}

/-- An inode that holds the blocks `extent_write` filled has that content. -/
theorem content_of_run {V : Vol} {start size : Nat}
    (hrun : HoldsRun n start (blocksFor size)) (hsize : n.size = UInt32.ofNat size)
    (hblk : ∀ b, start ≤ b → b < start + blocksFor size →
      V.blk b = extentChunk data size (b - start)) (max : Nat) :
    V.content n max = writtenBytes data size max := by
  -- the blocks in order, as pieces of the data
  have hbytes : ((range' start (blocksFor size)).flatMap fun b => (V.blk b).bytes)
      = (range (blocksFor size)).flatMap fun j => (extentChunk data size j).bytes := by
    rw [List.range'_eq_map_range, List.flatMap_map]
    refine flatMap_congr fun j hj => ?_
    have hj := mem_range.mp hj
    rw [hblk (start + j) (by omega) (by omega), Nat.add_sub_cancel_left]
  unfold Vol.content writtenBytes
  rw [hrun.blocks, hbytes, hsize]

/-- Unless the number of blocks overflows, what is stored is the data. -/
theorem writtenBytes_eq {size : Nat} (hle : size ≤ 2 ^ 32 - 512) (max : Nat) :
    writtenBytes data size max = (range (min size max)).map data := by
  have hword : UInt32.size = 2 ^ 32 := rfl
  have hk : blocksFor size = (size + 511) / 512 := by
    unfold blocksFor
    simp only [nvfsSectorSize]
    rw [u32_of_lt (by omega)]
    omega
  have hlen : (UInt32.ofNat size).toNat = size := toNat_ofNat_of_lt' (by omega)
  unfold writtenBytes
  rw [hlen]
  by_cases hone : size < 512
  · -- one short block, padded with zeros, or none
    by_cases h0 : size = 0
    · subst h0
      simp [hk]
    have h1 : blocksFor size = 1 := by omega
    rw [h1, List.range_one, flatMap_singleton]
    unfold Sector.bytes
    rw [← map_take, take_range]
    refine (map_congr_left fun k hk => ?_).trans (by
      rw [show min (min size max) nvfsSectorSize = min size max by
        simp only [nvfsSectorSize]; omega])
    have hk := mem_range.mp hk
    unfold extentChunk
    simp only [nvfsSectorSize] at hk ⊢
    rw [byte_ofMem (by omega), if_pos (by omega)]
    congr 1
    omega
  -- whole blocks
  have hchunk : ∀ j, (extentChunk data size j).bytes
      = ((range 512).map (j * 512 + ·)).map data := by
    intro j
    unfold Sector.bytes extentChunk
    rw [map_map]
    refine map_congr_left fun k hk => ?_
    have hk := mem_range.mp hk
    simp only [nvfsSectorSize] at hk ⊢
    rw [byte_ofMem hk, if_pos (by omega)]
    show data (j * min 512 size + k) = data (j * 512 + k)
    rw [Nat.min_eq_left (by omega)]
  simp only [hchunk]
  rw [← List.map_flatMap, range_flatMap_rows, ← map_take, take_range]
  congr 2
  omega

theorem Replaced.content {V W : Vol} {i size : Nat} {data : Mem} (h : Replaced V i data size W)
    (max : Nat) : (W.ino i).type = (V.ino i).type ∧
      W.content (W.ino i) max = writtenBytes data size max := by
  obtain ⟨start, n, l, hrun, htype, hsize, -, -, -, hW⟩ := h
  have hino : W.ino i = n := by rw [hW, Vol.clear_ino, setIno_ino, if_pos rfl]
  rw [hino]
  refine ⟨htype, content_of_run hrun hsize (fun b h1 h2 => ?_) max⟩
  rw [hW, Vol.clear_blk, setIno_blk, Vol.fill_blk, if_pos ⟨h1, h2⟩]

/-! ## Reading a path -/

theorem val_nvfsRead (hg : Geometry 32 g) (hV : Owned Inode.live 32 (vol 32 d))
    (path : List UInt8) (max : Nat) :
    val 32768 (nvfsRead path max) g d =
      match target g d path with
      | none => none
      | some (_, _, i) =>
        if ((vol 32 d).ino i).type = nvfsTypeFile then
          some ((vol 32 d).content ((vol 32 d).ino i) max)
        else none := by
  refine (wp_readOnly (C := fun _ => True) (readOnly_nvfsRead path max)
    (Q := fun r _ _ => r = _)).mp ?_
  unfold nvfsRead
  rw [wp_onExisting hg]
  cases target g d path with
  | none => rfl
  | some t =>
    simp only
    by_cases ht : ((vol 32 d).ino t.2.2).type = nvfsTypeFile
    · have hp : Inode.live ((vol 32 d).ino t.2.2) = true :=
        counts_live.live _ (by rw [ht]; decide)
      simp only [ht, ne_eq, not_true_eq_false, ↓reduceIte]
      rw [wp_readOnly (readOnly_extentRead _ _), val_extentRead hg (hV.refsData hp)]
    simp only [ht, ne_eq, not_false_eq_true, ↓reduceIte]
    rfl

variable {parent i : Nat}

/-- In a tree, a path names an inode when it resolves to a directory with an entry
    for the inode. -/
theorem target_iff (h : WellFormed ⟨g, d⟩) {path name : List UInt8} :
    target g d path = some (parent, name, i) ↔
      val 32768 (resolveNamed path) g d = some (parent, name) ∧
        (nameKey name, i) ∈ (vol 32 d).tree.kids parent := by
  have hg : Geometry 32 g := h.geometry
  constructor
  · intro ht
    exact ⟨(target_spec hg ht).1, (target_tree h ht).2⟩
  · rintro ⟨hres, hmem⟩
    have hd := resolveNamed_dir hg h.owned h.tree.shaped.root_dir h.tree.cwd hres
    have hfind := (dirFind_iff hg h.owned h.tree.shaped hd (resolveNamed_nulFree hres)).mpr hmem
    have hi := vol_live_lt (h.tree.shaped.kid_live parent i ⟨hd, _, hmem⟩)
    unfold target
    rw [hres]
    simp only
    rw [hfind]
    simp only
    rw [val_inodeRead hg hi]

/-! ## Changes of files -/

variable {V W : Vol}

theorem SameTree.sameDirs (h : SameTree V W) : SameDirs V W :=
  ⟨fun _ => by rw [h.tree], fun _ _ _ _ _ => by rw [h.tree]⟩

theorem sameDirs_of_file
    (hother : ∀ j ≠ i, j ≠ parent → Unchanged V W j) (hd : V.tree.dir parent)
    (hd' : W.tree.dir parent) (hdi : ¬ V.tree.dir i) (hdi' : ¬ W.tree.dir i)
    (hkids : ∀ x j, j ≠ i → ((x, j) ∈ W.tree.kids parent ↔ (x, j) ∈ V.tree.kids parent)) :
    SameDirs V W := by
  refine ⟨fun j => ?_, fun p x j hp hj => ?_⟩
  · by_cases hji : j = i
    · exact iff_of_false (hji ▸ hdi') (hji ▸ hdi)
    by_cases hjp : j = parent
    · exact iff_of_true (hjp ▸ hd') (hjp ▸ hd)
    · exact (hother j hji hjp).dir
  · by_cases hpp : p = parent
    · subst hpp
      exact hkids x j fun heq => hdi (heq ▸ hj)
    · rw [(hother p (fun heq => hdi (heq ▸ hp)) hpp).kids]

variable {key : List UInt8}

theorem Entered.sameDirs
    (hd : V.tree.dir parent) (hn : n.type = nvfsTypeFile) (h : Entered V parent key i n W) :
    SameDirs V W := by
  refine sameDirs_of_file h.other hd h.dir (fun hdir => h.dead (live_of_dir hdir)) ?_
    fun x j hji => ?_
  · show (W.ino i).type ≠ nvfsTypeDir
    rw [h.ino, hn]
    decide
  · rw [h.added.mem_iff, mem_cons]
    exact ⟨fun hm => hm.resolve_left fun heq => hji (Prod.mk.inj heq).2, .inr⟩

theorem Unlinked.sameDirs (hd : V.tree.dir parent)
    (hdi : ¬ V.tree.dir i) (h : Unlinked V parent key i W) : SameDirs V W := by
  refine sameDirs_of_file h.other hd h.dir hdi (fun hdir => h.gone (live_of_dir hdir))
    fun x j hji => ?_
  rw [h.removed.mem_iff, mem_cons]
  exact ⟨.inr, fun hm => hm.resolve_left fun heq => hji (Prod.mk.inj heq).2⟩

section

variable (h : WellFormed ⟨g, d⟩) (h' : WellFormed ⟨g', d'⟩) (hcwd : g'.nvfsCwd = g.nvfsCwd)
  (hdirs : SameDirs (vol 32 d) (vol 32 d'))
include h h' hcwd hdirs

variable {path name : List UInt8} {parent j : Nat}

theorem target_iff_of_sameDirs :
    target g' d' path = some (parent, name, j) ↔
      val 32768 (resolveNamed path) g d = some (parent, name) ∧
        (nameKey name, j) ∈ (vol 32 d').tree.kids parent := by
  rw [target_iff h', hdirs.resolveNamed h.geometry h.owned h.tree.shaped h'.geometry h'.owned
    h'.tree.shaped h.tree.cwd hcwd path]

/-- A file that neither state's change touches is read the same under its path. -/
theorem read_same
    (ht : target g d path = some (parent, name, j))
    (hmem : (nameKey name, j) ∈ (vol 32 d').tree.kids parent)
    (hfile : ((vol 32 d).ino j).type = nvfsTypeFile) (hj : Unchanged (vol 32 d) (vol 32 d') j)
    (max : Nat) : val 32768 (nvfsRead path max) g' d' = val 32768 (nvfsRead path max) g d := by
  have hlive : (vol 32 d).tree.live j := by
    show ((vol 32 d).ino j).type ≠ 0
    rw [hfile]
    decide
  have ht' : target g' d' path = some (parent, name, j) :=
    (target_iff_of_sameDirs h h' hcwd hdirs).mpr ⟨((target_iff h).mp ht).1, hmem⟩
  rw [val_nvfsRead h.geometry h.owned, val_nvfsRead h'.geometry h'.owned, ht, ht']
  simp only
  rw [hj.content hlive max, hj.ino]

end

theorem read_none (h : WellFormed ⟨g, d⟩) {path : List UInt8}
    (hno : ∀ parent name j, target g d path = some (parent, name, j) →
      ((vol 32 d).ino j).type ≠ nvfsTypeFile) (max : Nat) :
    val 32768 (nvfsRead path max) g d = none := by
  rw [val_nvfsRead h.geometry h.owned]
  cases ht : target g d path with
  | none => rfl
  | some t => exact if_neg (hno _ _ _ ht)

/-! ## The calls -/

/-- What `nvfs_read` returns for a path. -/
def readFile (s : State) (path : Path) (max : Nat) : Option (List UInt8) :=
  val 32768 (nvfsRead path.bytes max) s.g s.d

/-- The existing inode a path names. -/
def names (s : State) (path : Path) : Option Nat := (target s.g s.d path.bytes).map (·.2.2)

/-- The path names the regular file `j`. -/
def NamesFile (s : State) (path : Path) (j : Nat) : Prop :=
  names s path = some j ∧ ((vol 32 s.d).ino j).type = nvfsTypeFile

/-- The call returned success. -/
def Succeeds (op : Op) (s : State) : Prop := val 32768 op.prog s.g s.d = true

variable {s : State} {op : Op}

theorem step_of_wp_succeeds {Q : Globals → Disk → Prop}
    (hok : Succeeds op s)
    (h : wp 32768 (fun _ => True) op.prog (fun r g d => r = true → Q g d) s.g s.d) :
    Q (step op s).g (step op s).d := wp_sound h hok

/-- A successful write from `s` to the volume `W`: the path gets a new file, or the
    file it names gets new content. -/
inductive Wrote (s : State) (p : Path) (data : Mem) (size : Nat) (W : Vol) : Prop where
  | made {parent : Nat} {name : List UInt8} {i : Nat} {n : Inode} {start : Nat} {V' : Vol}
      (named : val 32768 (resolveNamed p.bytes) s.g s.d = some (parent, name))
      (new : target s.g s.d p.bytes = none)
      (born : Born 32 (vol 32 s.d) i n start (blocksFor size) (extentChunk data size) V')
      (type : n.type = nvfsTypeFile) (nsize : n.size = UInt32.ofNat size)
      (entered : Entered (vol 32 s.d) parent (nameKey name) i n W) (same : Unchanged V' W i)
  | replaced {parent : Nat} {name : List UInt8} {i : Nat}
      (named : target s.g s.d p.bytes = some (parent, name, i))
      (rep : Replaced (vol 32 s.d) i data size W)

/-- A successful deletion, from `s` to the volume `W`, of the file `i` with the entry
    `name` in directory `parent`. -/
structure Deleted (s : State) (p : Path) (parent : Nat) (name : List UInt8) (i : Nat) (W : Vol) :
    Prop where
  named : target s.g s.d p.bytes = some (parent, name, i)
  type : ((vol 32 s.d).ino i).type = nvfsTypeFile
  unlinked : Unlinked (vol 32 s.d) parent (nameKey name) i W

variable {env : Env} {p : Path}

/-- A write that succeeds makes a file, or replaces the content of one. -/
theorem write_outcome (h : WellFormed s)
    {n : UInt32} (hslot : SlotAvailable 32 (.write env p data n) s)
    (hok : Succeeds (.write env p data n) s) :
    (step (.write env p data n) s).g = s.g ∧
      Wrote s p data n.toNat (vol 32 (step (.write env p data n) s).d) := by
  obtain ⟨g, d⟩ := s
  have hg : Geometry 32 g := h.geometry
  refine step_of_wp_succeeds (Q := fun g' d' => g' = g ∧ Wrote ⟨g, d⟩ p data n.toNat (vol 32 d'))
    hok ?_
  rw [Op.prog, wp_nvfsWrite hg]
  cases hres : val 32768 (resolveNamed p.bytes) g d with
  | none => exact fun hr => by cases hr
  | some r =>
    simp only
    cases hfind : val 32768 (dirFind r.1 r.2) g d with
    | none =>
      -- a path that names nothing yet is created under its last name
      have hd := resolveNamed_dir hg h.owned h.tree.shaped.root_dir h.tree.cwd hres
      have hn := resolveNamed_nulFree hres
      have hnone : target g d p.bytes = none := by
        unfold target
        rw [hres]
        simp only
        rw [hfind]
      refine wp_mono (fun _ _ => trivial) ?_ (createFile_spec counts_live hg h.owned
        (hslot ⟨r.1, r.2, hres, hfind⟩) hn env data n.toNat)
      rintro b g' d' ⟨rfl, hmade⟩ rfl
      obtain ⟨i, m, start, V', hborn, hmt, hsize, -, hentered, hu⟩ := hmade.entered h.owned
        h.tree.treelike (fun i hi => live_lt hi) (by decide) hd
        (h.tree.treelike.not_saturated h.extents (fun i hi => live_lt hi) hd) hn
        fun hdir => absurd hdir (by decide)
      exact ⟨rfl, .made hres hnone hborn hmt hsize hentered hu⟩
    | some i =>
      cases ht : target g d p.bytes with
      | none => exact fun hr => by cases hr
      | some t =>
        obtain ⟨-, -, -, -, hi⟩ := target_spec hg ht
        obtain ⟨hd, hmem⟩ := target_tree h ht
        have hlive := h.tree.shaped.kid_live t.1 t.2.2 ⟨hd, _, hmem⟩
        refine wp_mono (fun _ _ => trivial) ?_ (shadowWrite_spec hg h.owned.table hi
          (h.owned.refsData (counts_live.live _ hlive)) data n.toNat (env.ticks 0))
        rintro b g' d' ⟨rfl, ⟨rfl, -⟩ | ⟨-, hrep⟩⟩ hr
        · cases hr
        · exact ⟨rfl, .replaced ht hrep⟩

/-- A deletion that succeeds unlinks the file that the path names. -/
theorem delete_outcome (h : WellFormed s)
    (hok : Succeeds (.delete env p) s) :
    (step (.delete env p) s).g = s.g ∧
      ∃ parent name i, Deleted s p parent name i (vol 32 (step (.delete env p) s).d) := by
  obtain ⟨g, d⟩ := s
  have hg : Geometry 32 g := h.geometry
  refine step_of_wp_succeeds (Q := fun g' d' => g' = g ∧
    ∃ parent name i, Deleted ⟨g, d⟩ p parent name i (vol 32 d')) hok ?_
  rw [Op.prog, wp_nvfsDelete hg]
  cases ht : target g d p.bytes with
  | none => exact fun hr => by cases hr
  | some t =>
    obtain ⟨-, -, hn, -, -⟩ := target_spec hg ht
    obtain ⟨hd, hfind⟩ := h.coherent.target ht
    simp only
    split
    · exact fun hr => by cases hr
    next htype =>
    refine wp_mono (fun _ _ => trivial) ?_
      (freeAndUnlink_unlinked h.coherent hd hn hfind (env.ticks 0))
    rintro b g' d' ⟨-, rfl, hun⟩ -
    exact ⟨rfl, t.1, t.2.1, t.2.2, ht, not_not.mp htype, hun⟩

/-! ## Calls that succeed -/

theorem namesFile_of_read (h : WellFormed s) {max : Nat} {bytes : List UInt8}
    (hr : readFile s p max = some bytes) : ∃ j, NamesFile s p j := by
  by_contra hno
  have hnone : readFile s p max = none := by
    refine read_none h (fun parent name j ht hj => hno ⟨j, ?_, hj⟩) max
    unfold names
    rw [ht]
    rfl
  rw [hnone] at hr
  cases hr

theorem succeeds_of_wp
    (h : wp 32768 (fun _ => True) op.prog (fun r _ _ => r = true) s.g s.d) : Succeeds op s :=
  wp_sound h

theorem Born.not_noRoom {V V' : Vol} {i start k parent c : Nat} {f : Nat → Sector}
    (h : Born 32 V i n start k f V') (hpi : parent ≠ i)
    (hcount : (V.ino parent).extentCount.toNat ≠ 13) (hc : c < 32726) (hfree : V.bit c = false)
    (hout : ¬ (start ≤ c ∧ c < start + k)) : ¬ NoRoom V' (V'.ino parent) := by
  rintro (hall | ⟨h13, -⟩)
  · have hset := hall c hc
    rw [h.eq, setIno_bit, Vol.fill_bit, hfree, decide_eq_false hout] at hset
    cases hset
  · rw [h.frame.ino parent (by simpa using hpi)] at h13
    exact hcount h13

theorem delete_succeeds (h : WellFormed s) {j : Nat}
    (hp : NamesFile s p j) : Succeeds (.delete env p) s := by
  obtain ⟨g, d⟩ := s
  have hg : Geometry 32 g := h.geometry
  obtain ⟨hname, hj⟩ := hp
  obtain ⟨t, ht, rfl⟩ := map_eq_some_iff.mp hname
  obtain ⟨-, -, hn, -, -⟩ := target_spec hg ht
  obtain ⟨hd, hfind⟩ := h.coherent.target ht
  have ht' : target g d p.bytes = some t := ht
  refine succeeds_of_wp ?_
  rw [Op.prog, wp_nvfsDelete hg, ht']
  simp only
  rw [if_neg (not_not.mpr hj)]
  refine wp_mono (fun _ _ => trivial) ?_
    (freeAndUnlink_unlinked h.coherent hd hn hfind (env.ticks 0))
  exact fun r g' d' hun => hun.1

/-! ## What is read afterwards -/

section

variable {s s' : State} {p q : Path} {data : Mem} {size : Nat}

section

variable (h : WellFormed s) (h' : WellFormed s') (hg : s'.g = s.g)
include h h' hg

theorem Wrote.read_self
    (hfile : ∀ parent name i, target s.g s.d p.bytes = some (parent, name, i) →
      ((vol 32 s.d).ino i).type = nvfsTypeFile)
    (hle : size ≤ 2 ^ 32 - 512) (hw : Wrote s p data size (vol 32 s'.d)) (max : Nat) :
    readFile s' p max = some ((range (min size max)).map data) := by
  have hcwd : s'.g.nvfsCwd = s.g.nvfsCwd := by rw [hg]
  unfold readFile
  rw [val_nvfsRead h'.geometry h'.owned]
  cases hw with
  | @made parent name i n start V' named new born type nsize entered same =>
    have hd := resolveNamed_dir h.geometry h.owned h.tree.shaped.root_dir h.tree.cwd named
    have ht' : target s'.g s'.d p.bytes = some (parent, name, i) :=
      (target_iff_of_sameDirs h h' hcwd (entered.sameDirs hd type)).mpr
        ⟨named, entered.added.mem_iff.mpr (mem_cons_self ..)⟩
    have hlive : V'.tree.live i := by
      show (V'.ino i).type ≠ 0
      rw [born.ino_self, type]
      decide
    rw [ht']
    simp only
    rw [entered.ino, if_pos type, ← entered.ino, same.content hlive, born.ino_self]
    rw [← writtenBytes_eq hle]
    refine congrArg some (content_of_run born.run nsize (fun b h1 h2 => ?_) max)
    rw [born.eq, setIno_blk, Vol.fill_blk, if_pos ⟨h1, h2⟩]
  | @replaced parent name i named rep =>
    have hi := hfile _ _ _ named
    have htree := rep.sameTree h.owned hi
    have ht' : target s'.g s'.d p.bytes = some (parent, name, i) := by
      refine (target_iff_of_sameDirs h h' hcwd htree.sameDirs).mpr ?_
      rw [htree.tree]
      exact (target_iff h).mp named
    obtain ⟨htype, hcontent⟩ := rep.content max
    rw [ht']
    simp only
    rw [if_pos (htype.trans hi), hcontent, writtenBytes_eq hle]

theorem Wrote.read_other
    (hfile : ∀ parent name i, target s.g s.d p.bytes = some (parent, name, i) →
      ((vol 32 s.d).ino i).type = nvfsTypeFile)
    (hw : Wrote s p data size (vol 32 s'.d)) {parent j : Nat} {name : List UInt8}
    (hq : target s.g s.d q.bytes = some (parent, name, j))
    (hj : ((vol 32 s.d).ino j).type = nvfsTypeFile) (hne : names s p ≠ some j) (max : Nat) :
    readFile s' q max = readFile s q max := by
  have hcwd : s'.g.nvfsCwd = s.g.nvfsCwd := by rw [hg]
  obtain ⟨hd, hmem⟩ := target_tree h hq
  cases hw with
  | @made pp pname i n start V' named new born type nsize entered same =>
    have hpd := resolveNamed_dir h.geometry h.owned h.tree.shaped.root_dir h.tree.cwd named
    have hlive := h.tree.shaped.kid_live parent j ⟨hd, _, hmem⟩
    have hji : j ≠ i := fun heq => entered.dead (heq ▸ hlive)
    have hjp : j ≠ pp := fun heq => by
      have hdir : ((vol 32 s.d).ino j).type = nvfsTypeDir := heq ▸ hpd
      rw [hj] at hdir
      contradiction
    refine read_same h h' hcwd (entered.sameDirs hpd type) hq ?_ hj (entered.other j hji hjp) max
    -- the entry is still there: the only entry added is that of the new file
    by_cases hpp : parent = pp
    · exact hpp ▸ entered.added.mem_iff.mpr (mem_cons_of_mem _ (hpp ▸ hmem))
    have hpi : parent ≠ i := fun heq => entered.dead (live_of_dir (heq ▸ hd))
    rw [(entered.other parent hpi hpp).kids]
    exact hmem
  | @replaced pp pname i named rep =>
    have hi := hfile _ _ _ named
    have htree := rep.sameTree h.owned hi
    have hji : j ≠ i := fun heq => hne (by
      unfold names
      rw [named, heq]
      rfl)
    have hrew := rep.rewrites counts_live.byType h.owned
      (counts_live.live _ (by rw [hi]; decide))
    refine read_same h h' hcwd htree.sameDirs hq ?_ hj (hrew.unchanged h.owned hji) max
    rw [htree.tree]
    exact hmem

end

section

variable {parent i : Nat} {name : List UInt8} (h : WellFormed s) (h' : WellFormed s')
  (hg : s'.g = s.g) (hw : Deleted s p parent name i (vol 32 s'.d))

include h hw

theorem Deleted.dir : (vol 32 s.d).tree.dir parent := (target_tree h hw.named).1

theorem Deleted.sameDirs : SameDirs (vol 32 s.d) (vol 32 s'.d) :=
  hw.unlinked.sameDirs (hw.dir h) fun hdir => by
    have hdir : ((vol 32 s.d).ino i).type = nvfsTypeDir := hdir
    rw [hw.type] at hdir
    contradiction

theorem Deleted.kids {pq j : Nat} {x : List UInt8} (hd : (vol 32 s.d).tree.dir pq) :
    (x, j) ∈ (vol 32 s'.d).tree.kids pq ↔
      (x, j) ∈ (vol 32 s.d).tree.kids pq ∧ ¬ (pq = parent ∧ x = nameKey name) := by
  by_cases hpp : pq = parent
  · subst hpp
    have hperm := hw.unlinked.removed
    have hnodup := (hperm.map Prod.fst).nodup_iff.mp (h.tree.shaped.names_nodup pq hd)
    rw [map_cons, nodup_cons] at hnodup
    rw [hperm.mem_iff, mem_cons, Prod.mk.injEq]
    constructor
    · intro hm
      exact ⟨.inr hm, fun hx => hnodup.1 (mem_map.mpr ⟨_, hm, hx.2⟩)⟩
    · rintro ⟨heq | hm, hno⟩
      · exact absurd ⟨rfl, heq.1⟩ hno
      · exact hm
  have hpi : pq ≠ i := fun heq => by
    have hdir : ((vol 32 s.d).ino i).type = nvfsTypeDir := heq ▸ hd
    rw [hw.type] at hdir
    contradiction
  rw [(hw.unlinked.other pq hpi hpp).kids]
  exact ⟨fun hm => ⟨hm, fun hx => hpp hx.1⟩, fun hm => hm.1⟩

include h' hg

theorem Deleted.target_iff {pq j : Nat} {x : List UInt8} :
    target s'.g s'.d q.bytes = some (pq, x, j) ↔
      target s.g s.d q.bytes = some (pq, x, j) ∧ ¬ (pq = parent ∧ nameKey x = nameKey name) := by
  have hcwd : s'.g.nvfsCwd = s.g.nvfsCwd := by rw [hg]
  rw [target_iff_of_sameDirs h h' hcwd (hw.sameDirs h), Nvfs.target_iff h, and_assoc]
  refine and_congr_right fun hres => ?_
  exact hw.kids h (resolveNamed_dir h.geometry h.owned h.tree.shaped.root_dir h.tree.cwd hres)

theorem Deleted.read_self (max : Nat) : readFile s' p max = none := by
  refine read_none h' (fun pq x j ht => ?_) max
  obtain ⟨ht, hno⟩ := (hw.target_iff h h' hg).mp ht
  have heq := some.inj (ht.symm.trans hw.named)
  simp only [Prod.mk.injEq] at heq
  exact absurd ⟨heq.1, by rw [heq.2.1]⟩ hno

/-- Every other path reads as before the deletion, or fails as before. -/
theorem Deleted.read_other (hne : names s q ≠ names s p) (max : Nat) :
    readFile s' q max = readFile s q max := by
  have hcwd : s'.g.nvfsCwd = s.g.nvfsCwd := by rw [hg]
  by_cases hread : ∃ pq x j, target s.g s.d q.bytes = some (pq, x, j) ∧
      ((vol 32 s.d).ino j).type = nvfsTypeFile
  · obtain ⟨pq, x, j, ht, hj⟩ := hread
    obtain ⟨hd, hmem⟩ := target_tree h ht
    have hji : j ≠ i := fun heq => hne (by
      unfold names
      rw [ht, hw.named, heq]
      rfl)
    have hjp : j ≠ parent := fun heq => by
      have hdir : ((vol 32 s.d).ino j).type = nvfsTypeDir := heq ▸ hw.dir h
      rw [hj] at hdir
      contradiction
    refine read_same h h' hcwd (hw.sameDirs h) ht ?_ hj (hw.unlinked.other j hji hjp) max
    refine (hw.kids h hd).mpr ⟨hmem, fun heq => hji ?_⟩
    -- one name, one entry
    have hmem' := (target_tree h hw.named).2
    rw [heq.1, heq.2] at hmem
    have hnodup := h.tree.shaped.names_nodup parent (hw.dir h)
    exact (Prod.mk.inj (List.inj_on_of_nodup_map hnodup hmem hmem' rfl)).2
  -- nothing to read before, and no path names more than before
  have hbefore : readFile s q max = none :=
    read_none h (fun pq x j ht hj => hread ⟨pq, x, j, ht, hj⟩) max
  rw [hbefore]
  refine read_none h' (fun pq x j ht hj => ?_) max
  obtain ⟨ht, -⟩ := (hw.target_iff h h' hg).mp ht
  refine hread ⟨pq, x, j, ht, ?_⟩
  have hlive : (vol 32 s'.d).tree.live j := by
    show ((vol 32 s'.d).ino j).type ≠ 0
    rw [hj]
    decide
  by_cases hjp : j = parent
  · have hdir : ((vol 32 s'.d).ino j).type = nvfsTypeDir := hjp ▸ hw.unlinked.dir
    rw [hj] at hdir
    contradiction
  rw [← (hw.unlinked.other j (fun heq => hw.unlinked.gone (heq ▸ hlive)) hjp).ino]
  exact hj

end

end

/-- A regular file written is read back, and a file deleted is gone; both leave what
    the other paths read alone. -/
theorem read_after {s : State} (h : WellFormed s) :
    (∀ (env : Env) (p : Path) (data : Mem) (n : UInt32), n.toNat ≤ 2 ^ 32 - 512 →
      SlotAvailable 32 (.write env p data n) s → Op.WritesFiles (.write env p data n) s →
      Succeeds (.write env p data n) s →
        (∀ max, readFile (step (.write env p data n) s) p max
          = some ((List.range (min n.toNat max)).map data)) ∧
        ∀ q j, NamesFile s q j → names s p ≠ some j → ∀ max,
          readFile (step (.write env p data n) s) q max = readFile s q max) ∧
    ∀ (env : Env) (p : Path), Succeeds (.delete env p) s →
      (∀ max, readFile (step (.delete env p) s) p max = none) ∧
      ∀ q, names s q ≠ names s p → ∀ max,
        readFile (step (.delete env p) s) q max = readFile s q max := by
  constructor
  · intro env p data n hle hslot hfile hok
    have h' := step_wellFormed h hslot hfile trivial
    obtain ⟨hg, hw⟩ := write_outcome h hslot hok
    have hfile' : ∀ parent name i, target s.g s.d p.bytes = some (parent, name, i) →
        ((vol 32 s.d).ino i).type = nvfsTypeFile := fun parent name i ht =>
      hfile i ⟨parent, name, ht⟩
    refine ⟨hw.read_self h h' hg hfile' hle, fun q j hq hne max => ?_⟩
    obtain ⟨hname, hj⟩ := hq
    obtain ⟨t, ht, rfl⟩ := map_eq_some_iff.mp hname
    exact hw.read_other h h' hg hfile' ht hj hne max
  · intro env p hok
    have h' : WellFormed (step (.delete env p) s) :=
      step_wellFormed h (fun ha => ha.elim) (fun _ hi => hi.elim) trivial
    obtain ⟨hg, parent, name, i, hw⟩ := delete_outcome h hok
    exact ⟨hw.read_self h h' hg, fun q hne => hw.read_other h h' hg hne⟩

/-! ## An example -/

/-- The five bytes `1 2 3 4 5`. -/
def fiveBytes : Mem := fun k => UInt8.ofNat (k + 1)

/-- The file `A` with five bytes on the empty volume. -/
def oneFile : State := step (.write idle pathA fiveBytes 5) emptyState

theorem oneFile_succeeds : Succeeds (.write idle pathA fiveBytes 5) emptyState := by
  unfold Succeeds
  decide +kernel

theorem oneFile_slot : SlotAvailable 32 (.write idle pathA fiveBytes 5) emptyState := fun _ =>
  freeSlot_emptyState

theorem oneFile_new : ∀ i, ¬ Op.Overwrites (.write idle pathA fiveBytes 5) emptyState i := by
  rintro i ⟨parent, name, ht⟩
  have hmem : (nameKey name, i) ∈ (vol 32 emptyState.d).tree.kids parent :=
    (target_tree wellFormed_emptyState ht).2
  rw [emptyState_kids] at hmem
  cases hmem

theorem wellFormed_oneFile : WellFormed oneFile :=
  step_wellFormed wellFormed_emptyState oneFile_slot (fun i hi => absurd hi (oneFile_new i)) trivial

theorem oneFile_spec : oneFile.g.nvfsCwd = 0 ∧ IsSuperblock 32 (oneFile.d 1) ∧
    readFile oneFile pathA 9 = some [1, 2, 3, 4, 5] := by
  obtain ⟨hgeo, hV, hsb⟩ := start_emptyState.owned
  have hwf := wellFormed_emptyState
  obtain ⟨hg, hw⟩ := write_outcome hwf oneFile_slot oneFile_succeeds
  obtain ⟨-, hkept⟩ := step_kept counts_live hgeo hV.of_anyInode oneFile_slot
    fun i hi => absurd hi (oneFile_new i)
  have hsector : oneFile.d 1 = emptyState.d 1 := hkept.sector
  refine ⟨congrArg Globals.nvfsCwd hg, by rw [hsector]; exact hsb, ?_⟩
  refine (hw.read_self hwf wellFormed_oneFile hg ?_ (by decide) 9).trans (by decide)
  exact fun parent name i ht => absurd ⟨parent, name, ht⟩ (oneFile_new i)

/-- The file is read back, and it is gone once it is deleted. -/
theorem read_after_oneFile :
    readFile oneFile pathA 9 = some [1, 2, 3, 4, 5] ∧
      readFile (step (.delete idle pathA) oneFile) pathA 9 = none := by
  have hread := ((read_after wellFormed_emptyState).1 idle pathA fiveBytes 5 (by decide) oneFile_slot
    (fun i hi => absurd hi (oneFile_new i)) oneFile_succeeds).1 9
  obtain ⟨j, hj⟩ := namesFile_of_read wellFormed_oneFile hread
  have hdelete := (read_after wellFormed_oneFile).2 idle pathA (delete_succeeds wellFormed_oneFile hj)
  exact ⟨hread.trans (by decide), hdelete.1 9⟩

end Noverix.Nvfs
