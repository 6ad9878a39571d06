/-
  What the calls do to the directory tree.  An inode that a call does not
  rewrite keeps its record and its blocks (`Unchanged`), hence its entries and
  its content; `dir_add` and `dir_remove` add and remove one entry.  A call
  that makes an inode adds a leaf to the tree, a call that removes one takes a
  leaf away, and the others leave the tree alone, so each keeps the namespace
  in shape (`TreeShaped`).
-/

import Mathlib.Data.List.Perm.Subperm
import Noverix.Nvfs.Namespace
import Noverix.Nvfs.Runs

namespace Noverix.Nvfs

open Lib
open Lib.DiskProg (wp)

variable {ib : Nat} {g : Globals} {d : Disk} {V W X : Vol}

/-! ## Inodes that are left alone -/

/-- Inode `j` has the same record and, if it is in use, the same blocks with the same
    content. -/
structure Unchanged (V W : Vol) (j : Nat) : Prop where
  ino : W.ino j = V.ino j
  blk : V.tree.live j → ∀ b ∈ V.refs (V.ino j), W.blk b = V.blk b

namespace Unchanged

variable {j : Nat}

section

variable (h : Unchanged V W j)
include h

theorem refs (hj : V.tree.live j) : W.refs (W.ino j) = V.refs (V.ino j) := by
  rw [h.ino]
  exact refs_congr fun b hb => h.blk hj b (mem_append_right _ hb)

theorem live : W.tree.live j ↔ V.tree.live j := by
  show (W.ino j).type ≠ 0 ↔ (V.ino j).type ≠ 0
  rw [h.ino]

theorem dir : W.tree.dir j ↔ V.tree.dir j := by
  show (W.ino j).type = nvfsTypeDir ↔ (V.ino j).type = nvfsTypeDir
  rw [h.ino]

theorem trans (h' : Unchanged W X j) : Unchanged V X j := by
  refine ⟨h'.ino.trans h.ino, fun hj b hb => ?_⟩
  have hb' : b ∈ W.refs (W.ino j) := by
    rw [h.refs hj]
    exact hb
  exact (h'.blk (h.live.mpr hj) b hb').trans (h.blk hj b hb)

theorem extList (hj : V.tree.live j) : W.extList (W.ino j) = V.extList (V.ino j) := by
  rw [h.ino]
  exact extList_congr fun b hb => h.blk hj b (mem_append_right _ hb)

theorem kids : W.tree.kids j = V.tree.kids j := by
  by_cases hd : V.tree.dir j
  · rw [kids_of_dir hd, kids_of_dir (h.dir.mpr hd), h.ino]
    exact Vol.entries_congr fun b hb => h.blk (live_of_dir hd) b hb
  have hV : V.tree.kids j = [] := if_neg hd
  have hW : W.tree.kids j = [] := if_neg fun hd' => hd (h.dir.mp hd')
  rw [hV, hW]

theorem fullDir (hj : V.tree.live j) (hfull : FullDir W (W.ino j)) : FullDir V (V.ino j) := by
  intro b hb
  have hb' : b ∈ W.blocksOf (W.ino j) := by
    unfold Vol.blocksOf at hb ⊢
    rw [h.extList hj]
    exact hb
  rw [← h.blk hj b (mem_append_left _ hb)]
  exact hfull b hb'

theorem content (hj : V.tree.live j) (max : Nat) :
    W.content (W.ino j) max = V.content (V.ino j) max := by
  rw [h.ino]
  exact Vol.content_congr (fun b hb => h.blk hj b hb) max

end

end Unchanged

section

variable (hV : Owned Inode.live ib V)
include hV

theorem Frame.unchanged (h : Frame ∅ ∅ V W) (j : Nat) : Unchanged V W j := by
  refine ⟨h.ino j (notMem_empty j), fun hj b hb => ?_⟩
  have hmem : b ∈ V.holds Inode.live j := by
    rw [holds_pos (counts_live.live _ hj)]
    exact hb
  exact h.blk b (hV.marked j b hmem) (notMem_empty b)

theorem Rewrites.unchanged {i j : Nat} (h : Rewrites Inode.live ib i V W) (hj : j ≠ i) :
    Unchanged V W j := by
  refine ⟨h.frame.ino j hj, fun hlive b hb => ?_⟩
  have hmem : b ∈ V.holds Inode.live j := by
    rw [holds_pos (counts_live.live _ hlive)]
    exact hb
  exact h.frame.blk b (hV.marked j b hmem) fun hb' => hV.disjoint j i hj b hmem hb'

/-! ## Entries added and removed -/

theorem Owned.refs_nodup {j : Nat} (hj : V.tree.live j) : (V.refs (V.ino j)).Nodup := by
  have h := hV.nodup j
  rwa [holds_pos (counts_live.live _ hj)] at h

omit hV in
theorem perm_within {α : Type} {l1 l2 m1 m2 : List α} {x : α} :
    (l1 ++ (m1 ++ x :: m2) ++ l2).Perm (x :: (l1 ++ (m1 ++ m2) ++ l2)) := by
  have hmid : l1 ++ (m1 ++ x :: m2) ++ l2 = (l1 ++ m1) ++ x :: (m2 ++ l2) := by simp
  have hold : l1 ++ (m1 ++ m2) ++ l2 = (l1 ++ m1) ++ (m2 ++ l2) := by simp
  rw [hmid, hold]
  exact perm_middle

/-- A directory that `dir_add` has changed has one entry more. -/
theorem DirAdded.kids {dir i : Nat} {name : List UInt8} (hd : V.tree.dir dir) (hn : NulFree name)
    (h0 : i ≠ 0) (hi : i < 2 ^ 32) (h : DirAdded ib V dir (direntBytes name i) W) :
    W.tree.dir dir ∧ (W.tree.kids dir).Perm ((nameKey name, i) :: V.tree.kids dir) ∧
      ∀ e ∈ W.extList (W.ino dir), e ∈ V.extList (V.ino dir) ∨ 0 < e.count.toNat := by
  have hnd := hV.refs_nodup (live_of_dir hd)
  rcases h with ⟨b, e, hfree, hedit⟩ | ⟨-, b, extra, hgrown⟩
  · -- a slot of an old block
    have hd' : W.tree.dir dir := hedit.type.trans hd
    refine ⟨hd', ?_, fun e he => .inl ?_⟩
    · obtain ⟨l1, l2, h1, h2⟩ := hedit.entries hnd
      obtain ⟨m1, m2, h3, h4⟩ := sectorEntries_putSlot hfree hn h0 hi
      rw [kids_of_dir hd, kids_of_dir hd', h1, h2, h3, h4]
      exact perm_within
    · rw [(hedit.exts hnd).1] at he
      exact he
  -- the first slot of a new block
  have hd' : W.tree.dir dir := hgrown.type.trans hd
  refine ⟨hd', ?_, fun e he => ?_⟩
  · have hold : (V.blocksOf (V.ino dir)).flatMap (fun c => sectorEntries (W.blk c))
        = V.entries (V.ino dir) := flatMap_congr fun c hc => by
      have hmem : c ∈ V.holds Inode.live dir := by
        rw [holds_pos (counts_live.live _ (live_of_dir hd))]
        exact mem_append_left _ hc
      rw [hgrown.frame.blk c (hV.marked dir c hmem) (notMem_empty c)]
    have hnew : sectorEntries (W.blk b) = [(nameKey name, i)] := by
      rw [hgrown.blk]
      exact sectorEntries_putSlot_zero hn h0 hi
    rw [kids_of_dir hd, kids_of_dir hd', Vol.entries, hgrown.blocks, flatMap_append,
      hold, flatMap_singleton, hnew]
    exact List.perm_append_singleton _ _
  · rw [hgrown.exts] at he
    rcases mem_append.mp he with he | he
    · exact .inl he
    rw [mem_singleton.mp he]
    exact .inr Nat.zero_lt_one

/-- A directory that `dir_remove` has changed lacks the entry that `dir_find` finds. -/
theorem DirRemovedFirst.kids {dir i : Nat} {name : List UInt8} (hd : V.tree.dir dir)
    (hn : NulFree name) (hfind : lookup (V.tree.kids dir) name = some i)
    (h : DirRemovedFirst V dir name W) :
    W.tree.dir dir ∧ (V.tree.kids dir).Perm ((nameKey name, i) :: W.tree.kids dir) ∧
      W.extList (W.ino dir) = V.extList (V.ino dir) := by
  have hnd := hV.refs_nodup (live_of_dir hd)
  obtain ⟨b, e, hs, hedit⟩ := h
  obtain ⟨-, hslot⟩ := findSlot_of_findSome? hs
  have hd' : W.tree.dir dir := hedit.type.trans hd
  have hname : slotName (V.blk b) e = nameKey name := by
    have hmatch := find?_some hslot
    rw [Bool.and_eq_true] at hmatch
    exact (slotMatch_iff _ _ hn).mp hmatch.2
  -- both searches stop at the same slot
  have hi : slotInode (V.blk b) e = i := by
    have hfirst : (V.tree.kids dir).find? (fun x => x.1 == nameKey name)
        = some (slotName (V.blk b) e, slotInode (V.blk b) e) := by
      rw [kids_of_dir hd, Vol.entries, List.find?_flatMap]
      have hmap : ∀ bs : List Nat, bs.findSome? (fun c => (sectorEntries (V.blk c)).find?
          fun x => x.1 == nameKey name) = (bs.findSome? fun c =>
            (findSlot (V.blk c) name).map (Prod.mk c)).map
              fun be => (slotName (V.blk be.1) be.2, slotInode (V.blk be.1) be.2) := by
        intro bs
        induction bs with
        | nil => rfl
        | cons c bs ih =>
          rw [findSome?_cons, findSome?_cons, find_sectorEntries _ hn, ih]
          cases findSlot (V.blk c) name <;> rfl
      rw [hmap, hs]
      rfl
    unfold lookup at hfind
    rw [hfirst] at hfind
    exact (asInt_eq_some.mp hfind).2
  refine ⟨hd', ?_, (hedit.exts hnd).1⟩
  obtain ⟨l1, l2, h1, h2⟩ := hedit.entries hnd
  obtain ⟨m1, m2, h3, h4⟩ := sectorEntries_clearSlot hslot
  rw [kids_of_dir hd, kids_of_dir hd', h1, h2, h3, h4, hname, hi]
  exact perm_within

end

/-! ## The shape of the namespace -/

/-- The namespace is a tree with inode 0 as its root, and the current directory is
    one of its directories. -/
structure TreeShaped (V : Vol) (cwd : Nat) : Prop where
  shaped : V.tree.Shaped 0
  cwd : V.tree.dir cwd

/-- The same where the names in a directory may repeat. -/
structure Treelike (V : Vol) (cwd : Nat) : Prop where
  rooted : V.tree.Rooted 0
  cwd : V.tree.dir cwd

/-- Every extent of a directory has a block: `dir_add` makes them one block long. -/
def Solid (V : Vol) : Prop := ∀ i, V.tree.dir i → ∀ e ∈ V.extList (V.ino i), 0 < e.count.toNat

/-- Directory `dir` has no free slot and counts fourteen extents, as many as `inode_read` lets
    it have: a block that is added is not found again. -/
def Saturated (V : Vol) (dir : Nat) : Prop :=
  FullDir V (V.ino dir) ∧ (V.ino dir).extentCount.toNat = 14

variable {cwd : Nat}

theorem TreeShaped.treelike (h : TreeShaped V cwd) : Treelike V cwd := ⟨h.shaped.rooted, h.cwd⟩

theorem Treelike.treeShaped (h : Treelike V cwd) (hnames : V.tree.NamesDiffer) :
    TreeShaped V cwd :=
  ⟨h.rooted.shaped hnames, h.cwd⟩

theorem Vol.length_extList (V : Vol) {n : Inode} (h : n.extentCount.toNat ≤ 14) :
    (V.extList n).length = n.extentCount.toNat := by
  unfold Vol.extList
  simp only [length_append, length_map, length_range, nvfsDirectExtents,
    nvfsIndirectEnts, nvfsSectorSize, nvfsExtentSize]
  omega

/-- A directory of a table with 128 inodes does not fill fourteen extents: its
    entries lead to different inodes. -/
theorem Treelike.not_saturated {cwd dir : Nat} (h : Treelike V cwd) (hsolid : Solid V)
    (hlt : ∀ i, V.tree.live i → i < 128) (hd : V.tree.dir dir) : ¬ Saturated V dir := by
  rintro ⟨hfull, hcount⟩
  have hexts := V.length_extList (Nat.le_of_eq hcount)
  have hblocks : ∀ es : List Extent, (∀ e ∈ es, 0 < e.count.toNat) →
      es.length ≤ (extentBlocks es).length := by
    intro es hes
    induction es with
    | nil => exact le_rfl
    | cons e es ih =>
      have he := hes e mem_cons_self
      have ih' := ih fun e' he' => hes e' (mem_cons_of_mem _ he')
      unfold extentBlocks at ih' ⊢
      rw [flatMap_cons, length_append, length_map, length_range,
        length_cons]
      omega
  -- 224 entries, all to different inodes below 128
  have hlong : 16 * 14 ≤ (V.entries (V.ino dir)).length := by
    have h1 := hblocks _ (hsolid dir hd)
    rw [hfull.entries_length]
    unfold Vol.blocksOf
    omega
  have hsub : (V.tree.kids dir).map Prod.snd ⊆ range 128 := by
    intro i hi
    exact mem_range.mpr (hlt i (h.rooted.kid_live dir i (Tree.child_iff.mpr ⟨hd, hi⟩)))
  have hshort := (List.subperm_of_subset (h.rooted.kids_nodup dir hd) hsub).length_le
  rw [length_map, length_range, kids_of_dir hd] at hshort
  omega

/-! ## Making an inode -/

/-- Inode `i` has been made, with the record `n`, and directory `parent` has been given an
    entry for it. -/
structure Linked (V : Vol) (parent : Nat) (key : List UInt8) (i : Nat) (n : Inode) (W : Vol) :
    Prop where
  dead : ¬ V.tree.live i
  ino : W.ino i = n
  other : ∀ j, j ≠ i → j ≠ parent → Unchanged V W j
  dir : W.tree.dir parent
  added : (W.tree.kids parent).Perm ((key, i) :: V.tree.kids parent)
  leaf : W.tree.kids i = []
  extents : ∀ e ∈ W.extList (W.ino parent), e ∈ V.extList (V.ino parent) ∨ 0 < e.count.toNat

/-- The same under a name that was free. -/
structure Entered (V : Vol) (parent : Nat) (key : List UInt8) (i : Nat) (n : Inode) (W : Vol) :
    Prop extends Linked V parent key i n W where
  newName : key ∉ (V.tree.kids parent).map Prod.fst

variable {name : List UInt8} {es : List Entry}

theorem mem_of_lookup_ne_none (h : lookup es name ≠ none) :
    nameKey name ∈ es.map Prod.fst := by
  by_contra hno
  have hf : (es.find? fun e => e.1 == nameKey name) = none :=
    find?_eq_none.mpr fun e he hk => hno (mem_map.mpr ⟨e, he, eq_of_beq hk⟩)
  refine h ?_
  unfold lookup
  rw [hf]
  rfl

theorem not_mem_of_lookup_none
    (hsmall : ∀ e ∈ es, e.2 < 2 ^ 31) (h : lookup es name = none) :
    nameKey name ∉ es.map Prod.fst := by
  intro hm
  obtain ⟨e, he, hkey⟩ := mem_map.mp hm
  unfold lookup at h
  cases hf : es.find? fun e => e.1 == nameKey name with
  | none => exact absurd (find?_eq_none.mp hf e he) (by simp [hkey])
  | some e' =>
    rw [hf, bind_some, asInt_of_lt (hsmall e' (mem_of_find?_eq_some hf))] at h
    cases h

theorem DirAdded.rewrites {parent : Nat} {nd : Mem} (hV : Owned Inode.live ib V)
    (hd : V.tree.dir parent) (h : DirAdded ib V parent nd W) :
    Rewrites Inode.live ib parent V W := by
  have hp : Inode.live (V.ino parent) = true := counts_live.live _ (live_of_dir hd)
  rcases h with ⟨b, e, -, hedit⟩ | ⟨-, b, extra, hgrown⟩
  · exact hedit.rewrites counts_live.byType hV hp
  · exact hgrown.rewrites counts_live.byType hV hp

variable {n : Inode}

theorem Born.leaf {V' : Vol} {i start k : Nat} {f : Nat → Sector}
    (hborn : Born ib V i n start k f V') (htype : n.type = nvfsTypeDir → k = 0) :
    V'.tree.kids i = [] := by
  by_cases ht : n.type = nvfsTypeDir
  · have hdi : V'.tree.dir i := by
      show (V'.ino i).type = nvfsTypeDir
      rw [hborn.ino_self, ht]
    rw [kids_of_dir hdi, Vol.entries, hborn.ino_self, hborn.run.blocks, htype ht]
    rfl
  refine if_neg ?_
  rw [hborn.ino_self]
  exact ht

theorem Born.linked {V' : Vol} {parent i start k : Nat} {name : List UInt8} {n : Inode}
    {f : Nat → Sector} (hV : Owned Inode.live ib V) (hi : i < 2 ^ 32) (hd : V.tree.dir parent)
    (hn : NulFree name) (hborn : Born ib V i n start k f V')
    (htype : n.type = nvfsTypeDir → k = 0)
    (h : DirAdded ib V' parent (direntBytes name i) W) :
    Linked V parent (nameKey name) i n W := by
  have hdead : ¬ V.tree.live i := not_not_intro hborn.dead
  have hpi : parent ≠ i := fun heq => hdead (heq ▸ live_of_dir hd)
  have hV' : Owned Inode.live ib V' := hV.rewrites (hborn.rewrites hV)
  have hborn_other : ∀ j ≠ i, Unchanged V V' j := fun j hj =>
    (hborn.rewrites hV).unchanged hV hj
  have hd' : V'.tree.dir parent := (hborn_other parent hpi).dir.mpr hd
  have hrew := h.rewrites hV' hd'
  have hkids := (hborn_other parent hpi).kids
  obtain ⟨hdW, hadded, hexts⟩ := h.kids hV' hd' hn hborn.pos hi
  have hself : Unchanged V' W i := hrew.unchanged hV' hpi.symm
  refine ⟨hdead, hself.ino.trans hborn.ino_self, fun j hji hjp => ?_, hdW, hkids ▸ hadded, ?_,
    fun e he => ?_⟩
  · exact (hborn_other j hji).trans (hrew.unchanged hV' hjp)
  · rw [hself.kids]
    exact hborn.leaf htype
  · rw [← (hborn_other parent hpi).extList (live_of_dir hd)]
    exact hexts e he

section

variable {cwd parent i : Nat} {key : List UInt8} {n : Inode} (hd : V.tree.dir parent)

include hd

theorem Linked.live_iff (h : Linked V parent key i n W) (hlive : n.type ≠ 0) (j : Nat) :
    W.tree.live j ↔ V.tree.live j ∨ j = i := by
  by_cases hji : j = i
  · subst hji
    refine iff_of_true ?_ (Or.inr rfl)
    show (W.ino j).type ≠ 0
    rw [h.ino]
    exact hlive
  by_cases hjp : j = parent
  · subst hjp
    exact iff_of_true (live_of_dir h.dir) (.inl (live_of_dir hd))
  rw [(h.other j hji hjp).live]
  exact ⟨.inl, fun hj => hj.resolve_right hji⟩

theorem Linked.dir_iff (h : Linked V parent key i n W) (j : Nat) (hji : j ≠ i) :
    W.tree.dir j ↔ V.tree.dir j := by
  by_cases hjp : j = parent
  · subst hjp
    exact iff_of_true h.dir hd
  · exact (h.other j hji hjp).dir

omit hd in
theorem Linked.kids_of_ne (h : Linked V parent key i n W) (j : Nat) (hjp : j ≠ parent)
    (hji : j ≠ i) : W.tree.kids j = V.tree.kids j := (h.other j hji hjp).kids

omit hd in
theorem Linked.dir_self (h : Linked V parent key i n W) (hn : n.type = nvfsTypeDir) :
    W.tree.dir i := by
  show (W.ino i).type = nvfsTypeDir
  rw [h.ino, hn]

omit hd in
theorem Linked.mem_self (h : Linked V parent key i n W) : (key, i) ∈ W.tree.kids parent :=
  h.added.mem_iff.mpr mem_cons_self

theorem Linked.treelike (hs : Treelike V cwd) (hlive : n.type ≠ 0)
    (h : Linked V parent key i n W) : Treelike W cwd := by
  refine ⟨hs.rooted.add (h.live_iff hd hlive) (h.dir_iff hd) h.kids_of_ne h.added h.leaf hd h.dead,
    ?_⟩
  exact (h.dir_iff hd cwd fun heq => h.dead (heq ▸ live_of_dir hs.cwd)).mpr hs.cwd

theorem Linked.solid (hs : Solid V) (hn : n.type = nvfsTypeDir → n.extentCount = 0)
    (h : Linked V parent key i n W) : Solid W := by
  intro j hj e he
  by_cases hji : j = i
  · -- a new directory has no extents
    subst hji
    have hnt : n.type = nvfsTypeDir := by
      rw [← h.ino]
      exact hj
    rw [h.ino, Vol.extList_of_count_zero (hn hnt)] at he
    cases he
  by_cases hjp : j = parent
  · subst hjp
    rcases h.extents e he with hold | hpos
    · exact hs j hd e hold
    · exact hpos
  have hu := h.other j hji hjp
  rw [hu.extList (live_of_dir (hu.dir.mp hj))] at he
  exact hs j (hu.dir.mp hj) e he

theorem Entered.namesDiffer (hnames : V.tree.NamesDiffer) (h : Entered V parent key i n W) :
    W.tree.NamesDiffer :=
  hnames.add (h.toLinked.dir_iff hd) h.toLinked.kids_of_ne h.added h.leaf h.newName

end

/-- A call that makes an inode in a directory of the tree that is not saturated adds a leaf. -/
theorem Made.entered {parent cwd size : Nat} {name : List UInt8} {type : UInt8} {f : Nat → Sector}
    (hV : Owned Inode.live ib V) (hs : Treelike V cwd) (hlt : ∀ i, V.tree.live i → i < 128)
    (hib : 4 * ib ≤ 128) (hd : V.tree.dir parent) (hsat : ¬ Saturated V parent)
    (hn : NulFree name) (htype : type = nvfsTypeDir → size = 0)
    (h : Made ib V parent name type size f true W) :
    ∃ i n start V', Born ib V i n start (blocksFor size) f V' ∧ n.type = type ∧
      n.size = UInt32.ofNat size ∧ (size = 0 → n.extentCount = 0) ∧
      Entered V parent (nameKey name) i n W ∧ Unchanged V' W i := by
  rcases h with ⟨h, -⟩ | ⟨-, i, n, start, V', hborn, hnt, hsize, hcount, ht, hl, h⟩
  · cases h
  have hi := hborn.lt
  have hpi : parent ≠ i := by
    rintro rfl
    exact live_of_dir hd hborn.dead
  have hV' : Owned Inode.live ib V' := hV.rewrites (hborn.rewrites hV)
  have hu : Unchanged V V' parent := (hborn.rewrites hV).unchanged hV hpi
  have hzero : n.type = nvfsTypeDir → blocksFor size = 0 := fun hdir => by
    rw [htype (hnt ▸ hdir)]
    decide
  rcases h with h | ⟨hfull, hlost⟩
  · have hsmall : ∀ e ∈ V.tree.kids parent, e.2 < 2 ^ 31 := fun e he => by
      have := hlt e.2 (hs.rooted.kid_live parent e.2 ⟨hd, e.1, he⟩)
      omega
    have hnew : nameKey name ∉ (V.tree.kids parent).map Prod.fst := by
      rw [← hu.kids, kids_of_dir ht]
      rw [← hu.kids, kids_of_dir ht] at hsmall
      exact not_mem_of_lookup_none hsmall hl
    exact ⟨i, n, start, V', hborn, hnt, hsize, hcount,
      ⟨hborn.linked hV (by omega) hd hn hzero h, hnew⟩,
      (h.rewrites hV' ht).unchanged hV' hpi.symm⟩
  refine absurd ⟨hu.fullDir (live_of_dir hd) hfull, ?_⟩ hsat
  rw [← hu.ino]
  exact hlost.count

theorem DirLost.kids {dir : Nat} (h : DirLost V dir W) (hV : Owned Inode.live ib V)
    (hd : V.tree.dir dir) : W.tree.kids dir = V.tree.kids dir := by
  have hdW : W.tree.dir dir := h.type.trans hd
  have hblocks : W.blocksOf (W.ino dir) = V.blocksOf (V.ino dir) := by
    unfold Vol.blocksOf
    rw [h.exts]
  rw [kids_of_dir hd, kids_of_dir hdW, Vol.entries, Vol.entries, hblocks]
  refine flatMap_congr fun b hb => ?_
  -- the blocks with the entries are not the indirect one, which has changed
  have hrefs := hV.refs_nodup (live_of_dir hd)
  have hnot : b ∉ (V.ino dir).indBlks := fun hind =>
    (nodup_append.mp hrefs).2.2 b hb b hind rfl
  have hmem : b ∈ V.holds Inode.live dir := by
    rw [holds_pos (counts_live.live _ (live_of_dir hd))]
    exact mem_append_left _ hb
  rw [h.frame.blk b (hV.marked dir b hmem) hnot]

/-- There are `k` free blocks in a row, and one more. -/
def RoomBeside (V : Vol) (k : Nat) : Prop :=
  ∃ start, start + k ≤ 32726 ∧ FreeRun V start k ∧
    ∃ b, b < 32726 ∧ V.bit b = false ∧ ¬ (start ≤ b ∧ b < start + k)

/-- A name that is new is to be entered in a saturated directory, for an inode of `size` bytes,
    and there are blocks for both. -/
structure EntryLost (V : Vol) (parent : Nat) (name : List UInt8) (size : Nat) : Prop where
  new : lookup (V.tree.kids parent) name = none
  saturated : Saturated V parent
  beside : RoomBeside V (blocksFor size)

theorem RoomBeside.hasRoom {size : Nat} (h : RoomBeside V (blocksFor size)) : HasRoom V size := by
  obtain ⟨s, hs, hfree, b, hb, hbit, -⟩ := h
  refine .inr ⟨by omega, ?_⟩
  rcases Nat.eq_zero_or_pos (blocksFor size) with hzero | hpos
  · rw [hzero]
    refine ⟨b, hb, fun c h1 h2 => ?_⟩
    rw [show c = b by omega]
    exact hbit
  · rw [Nat.max_eq_right hpos]
    exact ⟨s, hs, hfree⟩

/-- Whichever run is taken, a block is left. -/
theorem RoomBeside.left {k start : Nat} (h : RoomBeside V k) :
    ∃ b, b < 32726 ∧ V.bit b = false ∧ ¬ (start ≤ b ∧ b < start + k) := by
  obtain ⟨s, hs, hfree, b, hb, hbit, hout⟩ := h
  by_cases hin : start ≤ b ∧ b < start + k
  · -- then the runs differ, and an end of the other one is outside
    rcases Nat.lt_or_ge s start with hlt | hge
    · exact ⟨s, by omega, hfree s (by omega) (by omega), by omega⟩
    · exact ⟨s + k - 1, by omega, hfree (s + k - 1) (by omega) (by omega), by omega⟩
  · exact ⟨b, hb, hbit, hin⟩

section

variable {parent size : Nat} {name : List UInt8} {type : UInt8} {f : Nat → Sector} {r : Bool}
  (hV : Owned Inode.live ib V) (hd : V.tree.dir parent)
include hV hd

/-- In a saturated directory the inode is made, and its entry is lost. -/
theorem Made.dirLost (hsat : Saturated V parent) (hcap : (W.ino parent).extentCount.toNat ≤ 14)
    (h : Made ib V parent name type size f true W) :
    ∃ i n start V', Born ib V i n start (blocksFor size) f V' ∧ n.type = type ∧
      lookup (V.tree.kids parent) name = none ∧ DirLost V' parent W := by
  rcases h with ⟨h, -⟩ | ⟨-, i, n, start, V', hborn, hnt, -, -, ht, hl, h⟩
  · cases h
  have hpi : parent ≠ i := by
    rintro rfl
    exact live_of_dir hd hborn.dead
  have hu : Unchanged V V' parent := (hborn.rewrites hV).unchanged hV hpi
  rw [← kids_of_dir ht, hu.kids] at hl
  refine ⟨i, n, start, V', hborn, hnt, hl, ?_⟩
  rcases h with (⟨b, e, hslot, hedit⟩ | ⟨-, b, extra, hgrown⟩) | ⟨hfull, hlost⟩
  · -- there is no free slot
    have hb : b ∈ V.blocksOf (V.ino parent) := by
      unfold Vol.blocksOf
      rw [← hu.extList (live_of_dir hd)]
      exact hedit.1
    rw [hu.blk (live_of_dir hd) b (mem_append_left _ hb), hsat.1 b hb] at hslot
    cases hslot
  · -- and no room for another extent
    have hlong := congrArg List.length hgrown.exts
    rw [length_append, V'.length_extList (by rw [hu.ino, hsat.2]), W.length_extList hcap, hu.ino,
      hsat.2, length_singleton] at hlong
    omega
  · exact hlost

theorem Made.not_rooted (hs : V.tree.Rooted 0) (hsat : Saturated V parent) (hlive : type ≠ 0)
    (htype : type = nvfsTypeDir → size = 0) (hcap : (W.ino parent).extentCount.toNat ≤ 14)
    (h : Made ib V parent name type size f true W) : ¬ W.tree.Rooted 0 := by
  intro hrooted
  obtain ⟨i, n, start, V', hborn, hnt, -, hlost⟩ := h.dirLost hV hd hsat hcap
  have hpi : parent ≠ i := by
    rintro rfl
    exact live_of_dir hd hborn.dead
  have hV' : Owned Inode.live ib V' := hV.rewrites (hborn.rewrites hV)
  have hu : ∀ j ≠ i, Unchanged V V' j := fun j hj => (hborn.rewrites hV).unchanged hV hj
  have hd' : V'.tree.dir parent := (hu parent hpi).dir.mpr hd
  have hrew : Rewrites Inode.live ib parent V' W :=
    hlost.rewrites counts_live.byType hV' (counts_live.live _ (live_of_dir hd'))
  have hself : Unchanged V' W i := hrew.unchanged hV' hpi.symm
  have hlive' : W.tree.live i := by
    show (W.ino i).type ≠ 0
    rw [hself.ino, hborn.ino_self, hnt]
    exact hlive
  have hdead : ∀ q y, V.tree.dir q → (y, i) ∉ V.tree.kids q := fun q y hq hy =>
    hs.kid_live q i ⟨hq, y, hy⟩ hborn.dead
  -- the new inode is in no directory
  obtain ⟨p, hp, x, hx⟩ := hrooted.parent i hlive' hborn.pos
  by_cases hpi' : p = i
  · rw [hpi', hself.kids, hborn.leaf fun hdir => by rw [htype (hnt ▸ hdir)]; decide] at hx
    cases hx
  by_cases hpp : p = parent
  · rw [hpp, hlost.kids hV' hd', (hu parent hpi).kids] at hx
    exact hdead _ _ hd hx
  · have hpW := hrew.unchanged hV' hpp
    rw [hpW.kids, (hu p hpi').kids] at hx
    exact hdead _ _ ((hu p hpi').dir.mp (hpW.dir.mp hp)) hx

/-- Such a call returns success exactly if the entry is lost. -/
theorem Made.entryLost_iff (hsat : Saturated V parent)
    (hcap : (W.ino parent).extentCount.toNat ≤ 14) (h : Made ib V parent name type size f r W) :
    r = true ↔ EntryLost V parent name size := by
  constructor
  · rintro rfl
    obtain ⟨i, n, start, V', hborn, -, hl, hlost⟩ := h.dirLost hV hd hsat hcap
    obtain ⟨b, hb, hbit⟩ := hlost.fresh
    rw [hborn.eq, setIno_bit, Vol.fill_bit, Bool.or_eq_false_iff, decide_eq_false_iff_not] at hbit
    exact ⟨hl, hsat, start, hborn.fits, hborn.free, b, hb, hbit.1, hbit.2⟩
  · intro hloses
    rcases h with ⟨-, -, hwhy⟩ | ⟨hr, -⟩
    · exfalso
      rcases hwhy with hno | ⟨i, n, start, V', hborn, hrefused⟩
      · exact hno hloses.beside.hasRoom
      have hpi : parent ≠ i := by
        rintro rfl
        exact live_of_dir hd hborn.dead
      have hu : Unchanged V V' parent := (hborn.rewrites hV).unchanged hV hpi
      have hd' : V'.tree.dir parent := hu.dir.mpr hd
      rcases hrefused with hno | hname | ⟨-, hall | ⟨hcount, -⟩⟩
      · exact hno hd'
      · rw [← kids_of_dir hd', hu.kids] at hname
        exact hname hloses.new
      · obtain ⟨b, hb, hbit, hout⟩ := @RoomBeside.left _ _ start hloses.beside
        have hset := hall b hb
        rw [hborn.eq, setIno_bit, Vol.fill_bit, hbit, Bool.false_or, decide_eq_true_eq] at hset
        exact hout hset
      · rw [hu.ino, hsat.2] at hcount
        omega
    · exact hr

end

/-! ## Changes that the tree does not show -/

/-- The same tree, with the same extents of the directories. -/
structure SameTree (V W : Vol) : Prop where
  tree : W.tree = V.tree
  extents : ∀ j, V.tree.dir j → W.extList (W.ino j) = V.extList (V.ino j)

/-- An inode that changes without a trace in the tree: it is no directory before and
    after, and in use after if it was before. -/
theorem sameTree_of_each (h : ∀ j, Unchanged V W j ∨
    (W.tree.live j ↔ V.tree.live j) ∧ ¬ V.tree.dir j ∧ ¬ W.tree.dir j) : SameTree V W := by
  refine ⟨Tree.ext (funext fun j => ?_) (funext fun j => ?_) (funext fun j => ?_), fun j hj => ?_⟩
  · rcases h j with hu | ⟨hlive, -, -⟩
    · exact propext hu.live
    · exact propext hlive
  · rcases h j with hu | ⟨-, hd, hd'⟩
    · exact propext hu.dir
    · exact propext (iff_of_false hd' hd)
  · rcases h j with hu | ⟨-, hd, hd'⟩
    · exact hu.kids
    have hV : V.tree.kids j = [] := if_neg hd
    have hW : W.tree.kids j = [] := if_neg hd'
    rw [hV, hW]
  · rcases h j with hu | ⟨-, hd, -⟩
    · exact hu.extList (live_of_dir hj)
    · exact absurd hj hd

theorem Treelike.congr (hs : Treelike V cwd) (h : SameTree V W) : Treelike W cwd :=
  ⟨h.tree ▸ hs.rooted, h.tree ▸ hs.cwd⟩

theorem Solid.congr (hs : Solid V) (h : SameTree V W) : Solid W := by
  intro j hj e he
  rw [h.tree] at hj
  rw [h.extents j hj] at he
  exact hs j hj e he

theorem TreeShaped.congr {cwd : Nat} (hs : TreeShaped V cwd) (h : SameTree V W) :
    TreeShaped W cwd :=
  (hs.treelike.congr h).treeShaped (h.tree ▸ hs.shaped.names_nodup)

theorem Frame.sameTree (hV : Owned Inode.live ib V) (h : Frame ∅ ∅ V W) : SameTree V W :=
  sameTree_of_each fun j => .inl (h.unchanged hV j)

variable {i : Nat}

theorem Undone.sameTree (hV : Owned Inode.live ib V) (h : Undone ib V i W) :
    SameTree V W := by
  have hdead : ∀ X : Vol, (X.ino i).type = 0 → ¬ X.tree.live i ∧ ¬ X.tree.dir i := fun X hX =>
    ⟨not_not_intro hX, fun hd => live_of_dir hd hX⟩
  refine sameTree_of_each fun j => ?_
  by_cases hj : j = i
  · subst hj
    exact .inr ⟨iff_of_false (hdead W h.dead').1 (hdead V h.dead).1, (hdead V h.dead).2,
      (hdead W h.dead').2⟩
  · exact .inl (h.rewrites.unchanged hV hj)

theorem Replaced.sameTree {i size : Nat} {data : Mem} (hV : Owned Inode.live ib V)
    (hi : (V.ino i).type = nvfsTypeFile) (h : Replaced V i data size W) : SameTree V W := by
  have hlive : V.tree.live i := by
    show (V.ino i).type ≠ 0
    rw [hi]
    decide
  have htype : (W.ino i).type = nvfsTypeFile := by
    obtain ⟨start, n, l, -, hnt, -, -, -, -, rfl⟩ := h
    rw [Vol.clear_ino, setIno_ino, if_pos rfl, hnt, hi]
  have hfile : ∀ X : Vol, (X.ino i).type = nvfsTypeFile → ¬ X.tree.dir i := fun X hX hd => by
    have hd' : (X.ino i).type = nvfsTypeDir := hd
    rw [hX] at hd'
    contradiction
  refine sameTree_of_each fun j => ?_
  by_cases hj : j = i
  · subst hj
    refine .inr ⟨iff_of_true ?_ hlive, hfile V hi, hfile W htype⟩
    show (W.ino j).type ≠ 0
    rw [htype]
    decide
  · exact .inl ((h.rewrites counts_live.byType hV (counts_live.live _ hlive)).unchanged hV hj)

/-! ## Removing an inode -/

/-- Inode `i` is free and its entry in directory `parent` is gone. -/
structure Unlinked (V : Vol) (parent : Nat) (key : List UInt8) (i : Nat) (W : Vol) : Prop where
  gone : ¬ W.tree.live i
  other : ∀ j, j ≠ i → j ≠ parent → Unchanged V W j
  dir : W.tree.dir parent
  removed : (V.tree.kids parent).Perm ((key, i) :: W.tree.kids parent)
  extents : W.extList (W.ino parent) = V.extList (V.ino parent)

theorem findSlot_of_mem (hn : NulFree name)
    (h : (nameKey name, i) ∈ V.entries n) :
    ∃ b ∈ V.blocksOf n, findSlot (V.blk b) name ≠ none := by
  obtain ⟨b, hb, he⟩ := mem_flatMap.mp h
  refine ⟨b, hb, fun hnone => ?_⟩
  have hfind := find_sectorEntries (V.blk b) hn
  rw [hnone, map_none, find?_eq_none] at hfind
  exact hfind _ he (by simp)

theorem Removed.unlinked {cwd parent i : Nat} {r : Bool}
    (hV : Owned Inode.live ib V) (hs : Treelike V cwd) (hd : V.tree.dir parent)
    (hn : NulFree name) (hfind : lookup (V.tree.kids parent) name = some i)
    (h : Removed V parent name i r W)
    (hfirst : r = true → DirRemovedFirst
      ((V.clear (V.refs (V.ino i))).setIno i (V.ino i).freed) parent name W) :
    r = true ∧ Unlinked V parent (nameKey name) i W := by
  have hmem := mem_of_lookup hfind
  have hchild : V.tree.Child parent i := ⟨hd, _, hmem⟩
  have hlive : V.tree.live i := hs.rooted.kid_live parent i hchild
  have hpi : parent ≠ i := by
    rintro rfl
    exact hs.rooted.acyclic parent (Relation.TransGen.single hchild)
  -- after `inode_free`: only inode `i` has changed
  have hrew : Rewrites Inode.live ib i V ((V.clear (V.refs (V.ino i))).setIno i (V.ino i).freed) :=
    Rewrites.free (counts_live.live _ hlive)
  have hgone : (((V.clear (V.refs (V.ino i))).setIno i (V.ino i).freed).ino i).type = 0 := by
    rw [setIno_ino, if_pos rfl]
    rfl
  unfold Removed at h
  generalize (V.clear (V.refs (V.ino i))).setIno i (V.ino i).freed = V1 at h hrew hgone hfirst
  have hV1 : Owned Inode.live ib V1 := hV.rewrites hrew
  have hu : ∀ j ≠ i, Unchanged V V1 j := fun j hj => hrew.unchanged hV hj
  have hd1 : V1.tree.dir parent := (hu parent hpi).dir.mpr hd
  have hkids : V1.tree.kids parent = V.tree.kids parent := (hu parent hpi).kids
  rcases h with ⟨-, rfl, hwhy⟩ | ⟨hr, -, -⟩
  · -- the entry is there, so `dir_remove` does not fail
    exfalso
    rcases hwhy with ht | hnone
    · exact ht hd1
    rw [← hkids, kids_of_dir hd1] at hmem
    obtain ⟨b, hb, hne⟩ := findSlot_of_mem hn hmem
    exact hne (hnone b hb)
  have hrem := hfirst hr
  rw [← hkids] at hfind
  obtain ⟨hdW, hperm, hexts⟩ := hrem.kids hV1 hd1 hn hfind
  have hp : Inode.live (V1.ino parent) = true := counts_live.live _ (live_of_dir hd1)
  obtain ⟨b, e, -, hedit⟩ := hrem
  have hrew' := hedit.rewrites counts_live.byType hV1 hp
  rw [hkids] at hperm
  refine ⟨hr, fun hl => ?_, fun j hji hjp => ?_, hdW, hperm, ?_⟩
  · exact (hrew'.unchanged hV1 hpi.symm).live.mp hl hgone
  · exact (hu j hji).trans (hrew'.unchanged hV1 hjp)
  · rw [hexts]
    exact (hu parent hpi).extList (live_of_dir hd)

section

variable {cwd parent i : Nat} {key : List UInt8} (hd : V.tree.dir parent)
  (h : Unlinked V parent key i W)

include hd h

theorem Unlinked.live_iff (j : Nat) : W.tree.live j ↔ V.tree.live j ∧ j ≠ i := by
  by_cases hji : j = i
  · exact iff_of_false (hji ▸ h.gone) fun hj => hj.2 hji
  by_cases hjp : j = parent
  · subst hjp
    exact iff_of_true (live_of_dir h.dir) ⟨live_of_dir hd, hji⟩
  rw [(h.other j hji hjp).live]
  exact ⟨fun hj => ⟨hj, hji⟩, fun hj => hj.1⟩

theorem Unlinked.dir_iff (j : Nat) : W.tree.dir j ↔ V.tree.dir j ∧ j ≠ i := by
  by_cases hji : j = i
  · exact iff_of_false (fun hj => h.gone (hji ▸ live_of_dir hj)) fun hj => hj.2 hji
  by_cases hjp : j = parent
  · subst hjp
    exact iff_of_true h.dir ⟨hd, hji⟩
  rw [(h.other j hji hjp).dir]
  exact ⟨fun hj => ⟨hj, hji⟩, fun hj => hj.1⟩

omit hd in
theorem Unlinked.kids_of_ne (j : Nat) (hjp : j ≠ parent) (hji : j ≠ i) :
    W.tree.kids j = V.tree.kids j := (h.other j hji hjp).kids

theorem Unlinked.treelike (hs : Treelike V cwd) (hcwd : i ≠ cwd) (hleaf : ∀ j, ¬ V.tree.Child i j) :
    Treelike W cwd := by
  have hchild : V.tree.Child parent i := ⟨hd, key, h.removed.mem_iff.mpr mem_cons_self⟩
  have hroot : i ≠ 0 := fun heq => hs.rooted.kid_ne_root parent (heq ▸ hchild)
  refine ⟨hs.rooted.remove (h.live_iff hd) (h.dir_iff hd) h.kids_of_ne h.removed hleaf hd hroot,
    (h.dir_iff hd cwd).mpr ⟨hs.cwd, hcwd.symm⟩⟩

theorem Unlinked.solid (hs : Solid V) : Solid W := by
  intro j hj e he
  obtain ⟨hdj, hji⟩ := (h.dir_iff hd j).mp hj
  by_cases hjp : j = parent
  · subst hjp
    rw [h.extents] at he
    exact hs j hd e he
  rw [(h.other j hji hjp).extList (live_of_dir hdj)] at he
  exact hs j hdj e he

theorem Unlinked.namesDiffer (hnames : V.tree.NamesDiffer) : W.tree.NamesDiffer :=
  hnames.remove (h.dir_iff hd) h.kids_of_ne h.removed

end

end Noverix.Nvfs
