/-
  Each call keeps the namespace in shape, whether it succeeds or fails: one
  lemma for each kind of change (making, replacing, removing an inode, changing
  the directory), assembled into the step lemma of the driver.
-/

import Noverix.Nvfs.Ownership
import Noverix.Nvfs.TreeOps

namespace Noverix.Nvfs

open Lib
open Lib.DiskProg (wp wp_mono wp_bind)

variable {s : State} {W : Vol} {i parent : Nat} {path name : List UInt8} {op : Op}

/-- A state with the layout of mknvfs.py in which blocks are owned once, the namespace is a
    tree, and every extent of a directory has a block. -/
structure WellFormed (s : State) : Prop where
  geometry : Geometry 32 s.g
  owned : Owned Inode.live 32 (vol 32 s.d)
  tree : TreeShaped (vol 32 s.d) s.g.nvfsCwd
  extents : Solid (vol 32 s.d)

/-- The call does not write to a directory: if it overwrites an inode, that is a
    regular file. -/
def Op.WritesFiles (op : Op) (s : State) : Prop :=
  ∀ i, op.Overwrites s i → ((vol 32 s.d).ino i).type = nvfsTypeFile

/-- The call does not remove the current directory. -/
def Op.KeepsCwd (op : Op) (s : State) : Prop :=
  match op with
  | .rmdir _ path => ∀ parent name i,
      target s.g s.d path.bytes = some (parent, name, i) → i ≠ s.g.nvfsCwd
  | _ => True

/-- The call is `nvfs_rmdir` of the current directory, which is empty. -/
def Op.RemovesCwd (op : Op) (s : State) : Prop :=
  match op with
  | .rmdir _ path => (∃ parent name,
      target s.g s.d path.bytes = some (parent, name, s.g.nvfsCwd)) ∧
      (vol 32 s.d).tree.kids s.g.nvfsCwd = []
  | _ => False

/-- The call is to make an inode, for which the directory `parent` is to get the entry `name`. -/
def Op.Enters (op : Op) (s : State) (parent : Nat) (name : List UInt8) (size : Nat) : Prop :=
  match op with
  | .mkdir _ path =>
      val 32768 (resolveNamed path.bytes) s.g s.d = some (parent, name) ∧ size = 0
  | .write _ path _ n =>
      val 32768 (resolveNamed path.bytes) s.g s.d = some (parent, name) ∧ size = n.toNat
  | _ => False

/-- The entry of the inode that the call makes is lost. -/
def Op.LosesEntry (op : Op) (s : State) : Prop :=
  ∃ parent name size, op.Enters s parent name size ∧ EntryLost (vol 32 s.d) parent name size

/-- The same as `WellFormed` where the names in a directory may repeat, as on an image
    packed from names that agree in their first 27 characters, and extents may be empty. -/
structure Coherent (s : State) : Prop where
  geometry : Geometry 32 s.g
  owned : Owned Inode.live 32 (vol 32 s.d)
  tree : Treelike (vol 32 s.d) s.g.nvfsCwd

theorem WellFormed.coherent (h : WellFormed s) : Coherent s :=
  ⟨h.geometry, h.owned, h.tree.treelike⟩

/-- The volume `W` is a tree with the current directory `cwd` in it; if names differed on `V`
    or extents had blocks, so they do on `W`. -/
def StaysTree (V W : Vol) (cwd : Nat) : Prop :=
  Treelike W cwd ∧ (V.tree.NamesDiffer → W.tree.NamesDiffer) ∧ (Solid V → Solid W)

theorem SameTree.staysTree {V : Vol} {cwd : Nat} (hs : Treelike V cwd) (h : SameTree V W) :
    StaysTree V W cwd :=
  ⟨hs.congr h, fun hnames => h.tree ▸ hnames, fun hsolid => hsolid.congr h⟩

section

variable {g : Globals} {d : Disk} {C : Disk → Prop}

theorem live_lt (h : (vol 32 d).tree.live i) : i < 128 := vol_live_lt h

theorem Coherent.target (h : Coherent ⟨g, d⟩) (ht : target g d path = some (parent, name, i)) :
    (vol 32 d).tree.dir parent ∧ lookup ((vol 32 d).tree.kids parent) name = some i := by
  obtain ⟨hres, hfind, hn, -, -⟩ := target_spec h.geometry ht
  have hd := resolveNamed_dir h.geometry h.owned h.tree.rooted.root_dir h.tree.cwd hres
  exact ⟨hd, (dirFind_eq_lookup h.geometry h.owned hd hn).symm.trans hfind⟩

theorem target_tree (h : WellFormed ⟨g, d⟩) (ht : target g d path = some (parent, name, i)) :
    (vol 32 d).tree.dir parent ∧ (nameKey name, i) ∈ (vol 32 d).tree.kids parent := by
  obtain ⟨hd, hfind⟩ := h.coherent.target ht
  exact ⟨hd, mem_of_lookup hfind⟩

section

variable (h : Coherent ⟨g, d⟩)
include h

theorem Made.staysTree {size : Nat} {type : UInt8} {f : Nat → Sector} {r : Bool}
    (hd : (vol 32 d).tree.dir parent) (hn : NulFree name) (hlive : type ≠ 0)
    (htype : type = nvfsTypeDir → size = 0) (hcap : (W.ino parent).extentCount.toNat ≤ 14)
    (hkept : ¬ EntryLost (vol 32 d) parent name size)
    (hm : Made 32 (vol 32 d) parent name type size f r W) :
    StaysTree (vol 32 d) W g.nvfsCwd := by
  cases r with
  | false =>
    rcases hm with ⟨-, ⟨i, hundone⟩, -⟩ | ⟨h, -⟩
    · exact (hundone.sameTree h.owned).staysTree h.tree
    · cases h
  | true =>
    have hsat : ¬ Saturated (vol 32 d) parent := fun hsat =>
      hkept ((hm.entryLost_iff h.owned hd hsat hcap).mp rfl)
    obtain ⟨i, n, start, V', -, hnt, -, hcount, hentered, -⟩ :=
      hm.entered h.owned h.tree (fun i hi => live_lt hi) (by decide) hd hsat hn htype
    exact ⟨hentered.toLinked.treelike hd h.tree (hnt ▸ hlive), fun hnames =>
      hentered.namesDiffer hd hnames, fun hsolid =>
      hentered.toLinked.solid hd hsolid fun hdir => hcount (htype (hnt ▸ hdir))⟩

theorem shadowWrite_tree (hi : i < 128) (hfile : ((vol 32 d).ino i).type = nvfsTypeFile)
    (data : Mem) (size ticks : Nat) :
    wp 32768 (fun _ => True) (shadowWrite i ((vol 32 d).ino i) data size ticks)
      (fun _ g' d' => StaysTree (vol 32 d) (vol 32 d') g'.nvfsCwd) g d := by
  have hp : Inode.live ((vol 32 d).ino i) = true := counts_live.live _ (by rw [hfile]; decide)
  refine wp_mono (fun _ _ => trivial) ?_ (shadowWrite_spec h.geometry h.owned.table
    (by omega) (h.owned.refsData hp) data size ticks)
  rintro r g' d' ⟨rfl, ⟨-, hframe, -⟩ | ⟨-, hrep⟩⟩
  · exact (hframe.sameTree h.owned).staysTree h.tree
  · exact (hrep.sameTree h.owned hfile).staysTree h.tree

section

variable (hd : (vol 32 d).tree.dir parent) (hn : NulFree name)
  (hfind : lookup ((vol 32 d).tree.kids parent) name = some i)
include hd hn hfind

theorem freeAndUnlink_unlinked (ticks : Nat) :
    wp 32768 (fun _ => True) (freeAndUnlink parent name i ticks)
      (fun r g' d' => r = true ∧ g' = g ∧
        Unlinked (vol 32 d) parent (nameKey name) i (vol 32 d')) g d := by
  have hchild : (vol 32 d).tree.Child parent i := ⟨hd, _, mem_of_lookup hfind⟩
  have hlive := h.tree.rooted.kid_live parent i hchild
  have h0 : i ≠ 0 := fun heq => h.tree.rooted.kid_ne_root parent (heq ▸ hchild)
  refine wp_mono (fun _ _ => trivial) ?_ (freeAndUnlink_spec counts_live h.geometry
    h.owned h0 (vol_live_lt hlive) hlive ticks)
  rintro r g' d' ⟨rfl, hrem, hfirst⟩
  obtain ⟨hr, hun⟩ := hrem.unlinked h.owned h.tree hd hn hfind hfirst
  exact ⟨hr, rfl, hun⟩

theorem freeAndUnlink_tree (hcwd : i ≠ g.nvfsCwd) (hleaf : ∀ j, ¬ (vol 32 d).tree.Child i j)
    (ticks : Nat) : wp 32768 (fun _ => True) (freeAndUnlink parent name i ticks)
      (fun _ g' d' => StaysTree (vol 32 d) (vol 32 d') g'.nvfsCwd) g d := by
  refine wp_mono (fun _ _ => trivial) ?_ (freeAndUnlink_unlinked h hd hn hfind ticks)
  rintro r g' d' ⟨-, rfl, hun⟩
  exact ⟨hun.treelike hd h.tree hcwd hleaf, hun.namesDiffer hd, hun.solid hd⟩

end

theorem chdirTarget_dir {c : Nat} (hc : chdirTarget g d path = some c) : (vol 32 d).tree.dir c := by
  have hg := h.geometry
  have hroot := h.tree.rooted.root_dir
  unfold chdirTarget at hc
  rw [if_pos hg.mounted] at hc
  split at hc
  · cases hc
    exact hroot
  cases hres : val 32768 (resolvePath path) g d with
  | none =>
    rw [hres] at hc
    cases hc
  | some r =>
    have hdir := resolvePath_dir hg h.owned hroot h.tree.cwd hres
    rw [hres] at hc
    simp only at hc
    split at hc
    · cases hc
      exact hdir
    cases hfind : val 32768 (dirFind r.1 r.2) g d with
    | none =>
      rw [hfind] at hc
      cases hc
    | some inum =>
      rw [hfind] at hc
      simp only at hc
      cases hread : val 32768 (inodeRead inum) g d with
      | none =>
        rw [hread] at hc
        cases hc
      | some n =>
        obtain ⟨-, rfl⟩ := inodeRead_eq_some hg hread
        rw [hread] at hc
        simp only at hc
        split at hc
        · cases hc
        next htype =>
        cases hc
        exact not_not.mp htype

theorem dirEmpty_iff_kids (hdir : (vol 32 d).tree.dir i) :
    val 32768 (dirEmpty i) g d = true ↔ (vol 32 d).tree.kids i = [] := by
  rw [kids_of_dir hdir]
  exact val_dirEmpty h.geometry (live_lt (live_of_dir hdir)) (h.owned.dirData hdir)

theorem rmdir_unlinked (env : Env) (ht : target g d path = some (parent, name, i))
    (hdir : (vol 32 d).tree.dir i) (hempty : val 32768 (dirEmpty i) g d = true) :
    wp 32768 (fun _ => True) (nvfsRmdir env path) (fun r g' d' => r = true ∧ g' = g ∧
      Unlinked (vol 32 d) parent (nameKey name) i (vol 32 d')) g d := by
  obtain ⟨-, -, hn, -, -⟩ := target_spec h.geometry ht
  obtain ⟨hd, hfind⟩ := h.target ht
  have hg : Geometry 32 g := h.geometry
  have htype : ((vol 32 d).ino i).type = nvfsTypeDir := hdir
  rw [wp_nvfsRmdir hg, ht]
  simp only [htype, hempty, ne_eq, not_true_eq_false, ↓reduceIte, Bool.false_eq_true]
  exact freeAndUnlink_unlinked h hd hn hfind _

end

end

/-- A call on a coherent state that loses no entry ends in a coherent state, with names that
    differ if they did, and extents that have blocks if they had. -/
theorem step_staysTree (h : Coherent s) (hslot : SlotAvailable 32 op s)
    (hfile : op.WritesFiles s) (hcwd : ¬ op.RemovesCwd s) (hentry : ¬ op.LosesEntry s) :
    Coherent (step op s) ∧
      ((vol 32 s.d).tree.NamesDiffer → (vol 32 (step op s).d).tree.NamesDiffer) ∧
      (Solid (vol 32 s.d) → Solid (vol 32 (step op s).d)) := by
  obtain ⟨g, d⟩ := s
  obtain ⟨hgeo, hkept⟩ := step_kept counts_live h.geometry h.owned hslot fun i hi =>
    counts_live.live _ (by rw [hfile i hi]; decide)
  suffices htree : StaysTree (vol 32 d) (vol 32 (step op ⟨g, d⟩).d) (step op ⟨g, d⟩).g.nvfsCwd from
    ⟨⟨hgeo, hkept.owned, htree.1⟩, htree.2⟩
  refine step_of_wp (Q := fun g' d' => StaysTree (vol 32 d) (vol 32 d') g'.nvfsCwd) ?_
  have hg : Geometry 32 g := h.geometry
  have hsame : StaysTree (vol 32 d) (vol 32 d) g.nvfsCwd := ⟨h.tree, id, id⟩
  have hresolve : ∀ {path : List UInt8} {r : Nat × List UInt8},
      val 32768 (resolveNamed path) g d = some r → (vol 32 d).tree.dir r.1 := fun hres =>
    resolveNamed_dir hg h.owned h.tree.rooted.root_dir h.tree.cwd hres
  cases op with
  | read path max =>
    simp only [Op.prog, wp_bind, wp_readOnly (readOnly_nvfsRead _ _)]
    exact hsame
  | list ci path =>
    rw [Op.prog, wp_readOnly (readOnly_nvfsList _ _)]
    exact hsame
  | chdir path =>
    simp only [Op.prog, wp_bind, wp_nvfsChdir]
    cases hc : chdirTarget g d path.bytes with
    | none => exact hsame
    | some c => exact ⟨⟨h.tree.rooted, chdirTarget_dir h hc⟩, id, id⟩
  | mkdir env path =>
    rw [Op.prog, wp_nvfsMkdir]
    cases hres : val 32768 (resolveNamed path.bytes) g d with
    | none => exact hsame
    | some r =>
      refine wp_mono (fun _ _ => trivial) ?_ (createDir_spec counts_live hg h.owned
        (hslot ⟨r.1, r.2, hres⟩) (resolveNamed_nulFree hres) env)
      rintro _ g' d' ⟨rfl, hmade⟩
      exact hmade.staysTree h (hresolve hres) (resolveNamed_nulFree hres) (by decide)
        (fun _ => rfl) (vol_count ..) fun hloses => hentry ⟨r.1, r.2, 0, ⟨hres, rfl⟩, hloses⟩
  | write env path data size =>
    rw [Op.prog, wp_nvfsWrite hg]
    cases hres : val 32768 (resolveNamed path.bytes) g d with
    | none => exact hsame
    | some r =>
      simp only
      cases hfind : val 32768 (dirFind r.1 r.2) g d with
      | none =>
        refine wp_mono (fun _ _ => trivial) ?_ (createFile_spec counts_live hg
          h.owned (hslot ⟨r.1, r.2, hres, hfind⟩) (resolveNamed_nulFree hres) env data
          size.toNat)
        rintro _ g' d' ⟨rfl, hmade⟩
        exact hmade.staysTree h (hresolve hres) (resolveNamed_nulFree hres) (by decide)
          (fun hdir => absurd hdir (by decide)) (vol_count ..)
          fun hloses => hentry ⟨r.1, r.2, _, ⟨hres, rfl⟩, hloses⟩
      | some i =>
        cases ht : target g d path.bytes with
        | none => exact hsame
        | some t =>
          obtain ⟨-, -, -, -, hi⟩ := target_spec hg ht
          exact shadowWrite_tree h hi (hfile t.2.2 ⟨_, _, ht⟩) _ _ _
  | append env path data size =>
    rw [Op.prog, wp_nvfsAppend counts_live hg h.owned]
    cases ht : target g d path.bytes with
    | none => exact hsame
    | some t =>
      obtain ⟨-, -, -, -, hi⟩ := target_spec hg ht
      simp only
      split
      · exact hsame
      next htype =>
      cases env.heap with
      | none => exact hsame
      | some heap => exact shadowWrite_tree h hi (not_not.mp htype) _ _ _
  | delete env path =>
    rw [Op.prog, wp_nvfsDelete hg]
    cases ht : target g d path.bytes with
    | none => exact hsame
    | some t =>
      obtain ⟨-, -, hn, -, -⟩ := target_spec hg ht
      obtain ⟨hd, hfind⟩ := h.target ht
      simp only
      split
      · exact hsame
      next htype =>
      -- a file is a leaf, and not the current directory
      have hnd : ¬ (vol 32 d).tree.dir t.2.2 := fun hdir => by
        have hdir' : ((vol 32 d).ino t.2.2).type = nvfsTypeDir := hdir
        rw [not_not.mp htype] at hdir'
        contradiction
      exact freeAndUnlink_tree h hd hn hfind (fun heq => hnd (heq ▸ h.tree.cwd))
        (fun j hj => hnd hj.1) _
  | rmdir env path =>
    rw [Op.prog]
    cases ht : target g d path.bytes with
    | none =>
      rw [wp_nvfsRmdir hg, ht]
      exact hsame
    | some t =>
      obtain ⟨hd, -⟩ := h.target ht
      obtain ⟨-, -, -, -, hi⟩ := target_spec hg ht
      by_cases htype : (vol 32 d).tree.dir t.2.2 ∧ val 32768 (dirEmpty t.2.2) g d = true
      · -- the directory goes, so it is not the current one
        have hrm := rmdir_unlinked h env ht htype.1 htype.2
        have hnone := (dirEmpty_iff_kids h htype.1).mp htype.2
        have hne : t.2.2 ≠ g.nvfsCwd := by
          intro heq
          rw [heq] at hnone
          exact hcwd ⟨⟨t.1, t.2.1, by rw [ht, ← heq]⟩, hnone⟩
        refine wp_mono (fun _ _ => trivial) ?_ hrm
        rintro r g' d' ⟨-, rfl, hun⟩
        refine ⟨hun.treelike hd h.tree hne fun j hj => ?_, hun.namesDiffer hd, hun.solid hd⟩
        obtain ⟨-, x, hx⟩ := hj
        rw [hnone] at hx
        cases hx
      rw [wp_nvfsRmdir hg, ht]
      simp only
      split
      · exact hsame
      next hdir =>
      split
      · exact hsame
      · next hempty => exact absurd ⟨not_not.mp hdir, by simpa using hempty⟩ htype

/-- With extents that have blocks no directory is saturated. -/
theorem Coherent.not_losesEntry (h : Coherent s) (hsolid : Solid (vol 32 s.d)) :
    ¬ op.LosesEntry s := by
  have hparent : ∀ {path : List UInt8} {r : Nat × List UInt8} {size : Nat},
      val 32768 (resolveNamed path) s.g s.d = some r → ¬ EntryLost (vol 32 s.d) r.1 r.2 size := by
    intro path r size hres hloses
    have hd := resolveNamed_dir h.geometry h.owned h.tree.rooted.root_dir h.tree.cwd hres
    exact h.tree.not_saturated hsolid (fun i hi => live_lt hi) hd hloses.saturated
  rintro ⟨parent, name, size, henters, hloses⟩
  cases op with
  | mkdir env path => exact hparent henters.1 hloses
  | write env path data n => exact hparent henters.1 hloses
  | _ => exact henters

theorem step_coherent (h : Coherent s) (hsolid : Solid (vol 32 s.d)) (hslot : SlotAvailable 32 op s)
    (hfile : op.WritesFiles s) (hcwd : ¬ op.RemovesCwd s) :
    Coherent (step op s) ∧ Solid (vol 32 (step op s).d) := by
  obtain ⟨hc, -, hs⟩ := step_staysTree h hslot hfile hcwd (h.not_losesEntry hsolid)
  exact ⟨hc, hs hsolid⟩

theorem Op.KeepsCwd.not_removesCwd (h : op.KeepsCwd s) :
    ¬ op.RemovesCwd s := by
  cases op with
  | rmdir env path =>
    rintro ⟨⟨parent, name, ht⟩, -⟩
    exact h parent name _ ht rfl
  | _ => exact id

theorem step_wellFormed (h : WellFormed s) (hslot : SlotAvailable 32 op s)
    (hfile : op.WritesFiles s) (hcwd : op.KeepsCwd s) : WellFormed (step op s) := by
  obtain ⟨hc, hnames, hsolid⟩ := step_staysTree h.coherent hslot hfile hcwd.not_removesCwd
    (h.coherent.not_losesEntry h.extents)
  exact ⟨hc.geometry, hc.owned, hc.tree.treeShaped (hnames h.tree.shaped.names_nodup),
    hsolid h.extents⟩

/-- A call that loses its entry leaves an inode in use that no directory has. -/
theorem not_rooted_of_losesEntry (h : Coherent s) (hslot : SlotAvailable 32 op s)
    (hloses : op.LosesEntry s) : ¬ (vol 32 (step op s).d).tree.Rooted 0 := by
  obtain ⟨g, d⟩ := s
  have hg : Geometry 32 g := h.geometry
  obtain ⟨parent, name, size, henters, hl⟩ := hloses
  have hparent : ∀ {path : List UInt8}, val 32768 (resolveNamed path) g d = some (parent, name) →
      (vol 32 d).tree.dir parent := fun hres =>
    resolveNamed_dir hg h.owned h.tree.rooted.root_dir h.tree.cwd hres
  refine step_of_wp (Q := fun _ d' => ¬ (vol 32 d').tree.Rooted 0) ?_
  cases op with
  | mkdir env path =>
    obtain ⟨hres, rfl⟩ := henters
    have hd := hparent hres
    rw [Op.prog, wp_nvfsMkdir, hres]
    refine wp_mono (fun _ _ => trivial) ?_ (createDir_spec counts_live hg h.owned
      (hslot ⟨parent, name, hres⟩) (resolveNamed_nulFree hres) env)
    rintro r g' d' ⟨-, hmade⟩
    have hr := (hmade.entryLost_iff h.owned hd hl.saturated (vol_count ..)).mpr hl
    subst hr
    exact hmade.not_rooted h.owned hd h.tree.rooted hl.saturated (by decide) (fun _ => rfl)
      (vol_count ..)
  | write env path data n =>
    obtain ⟨hres, rfl⟩ := henters
    have hd := hparent hres
    have hn := resolveNamed_nulFree hres
    have hfind : val 32768 (dirFind parent name) g d = none :=
      (dirFind_eq_lookup hg h.owned hd hn).trans hl.new
    rw [Op.prog, wp_nvfsWrite hg, hres]
    simp only [hfind]
    refine wp_mono (fun _ _ => trivial) ?_ (createFile_spec counts_live hg
      h.owned (hslot ⟨parent, name, hres, hfind⟩) hn env data n.toNat)
    rintro r g' d' ⟨-, hmade⟩
    have hr := (hmade.entryLost_iff h.owned hd hl.saturated (vol_count ..)).mpr hl
    subst hr
    exact hmade.not_rooted h.owned hd h.tree.rooted hl.saturated (by decide)
      (fun hdir => absurd hdir (by decide)) (vol_count ..)
  | _ => exact henters.elim

/-- Each call, successful or not, leaves the namespace a tree, unless it makes an inode whose
    entry goes to a directory that has no free slot and counts fourteen extents. -/
theorem step_treeShaped_iff {op : Op} {s : State} (hg : Geometry 32 s.g)
    (hV : Owned Inode.live 32 (vol 32 s.d)) (h : TreeShaped (vol 32 s.d) s.g.nvfsCwd)
    (hslot : SlotAvailable 32 op s) (hfile : op.WritesFiles s) (hcwd : op.KeepsCwd s) :
    TreeShaped (vol 32 (step op s).d) (step op s).g.nvfsCwd ↔ ¬ op.LosesEntry s := by
  have hc : Coherent s := ⟨hg, hV, h.treelike⟩
  constructor
  · intro htree hloses
    exact not_rooted_of_losesEntry hc hslot hloses htree.shaped.rooted
  · intro hkept
    obtain ⟨hc', hnames, -⟩ := step_staysTree hc hslot hfile hcwd.not_removesCwd hkept
    exact hc'.tree.treeShaped (hnames h.shaped.names_nodup)

/-! ## The empty volume -/

theorem emptyState_kids (i : Nat) : (vol 32 emptyState.d).tree.kids i = [] := by
  obtain ⟨-, -, hcount, -⟩ := emptyState_vol
  show (if _ then (vol 32 emptyState.d).entries ((vol 32 emptyState.d).ino i) else []) = []
  have hnone := refs_of_count_zero (V := vol 32 emptyState.d) (hcount i)
  have hblocks : (vol 32 emptyState.d).blocksOf ((vol 32 emptyState.d).ino i) = [] :=
    (append_eq_nil_iff.mp hnone).1
  rw [Vol.entries, hblocks]
  split <;> rfl

/-- A volume with nothing but the root. -/
theorem treeShaped_of_bare {V : Vol} (hroot : V.tree.dir 0) (hlive : ∀ i, V.tree.live i → i = 0)
    (hkids : ∀ i, V.tree.kids i = []) : TreeShaped V 0 := by
  refine ⟨Tree.Rooted.shaped ?_ fun p _ => by rw [hkids]; exact nodup_nil, hroot⟩
  apply Tree.rooted_of_flat
  · exact fun i => ⟨fun hi => hlive i (live_of_dir hi), fun hi => hi ▸ hroot⟩
  · intro i
    rw [hkids]
    refine ⟨fun hi => .inl (hlive i hi), ?_⟩
    rintro (rfl | hi)
    · exact live_of_dir hroot
    · cases hi
  all_goals
    rw [hkids]
    simp

theorem wellFormed_emptyState : WellFormed emptyState := by
  obtain ⟨hg, hV, -⟩ := start_emptyState.owned
  obtain ⟨-, hroot, hcount, hfree⟩ := emptyState_vol
  have hlive : ∀ i, (vol 32 emptyState.d).tree.live i → i = 0 := fun i hi => by
    by_contra h0
    exact hi (hfree i h0)
  refine ⟨hg, hV.of_anyInode, treeShaped_of_bare hroot hlive emptyState_kids, fun i _ e he => ?_⟩
  rw [Vol.extList_of_count_zero (hcount i)] at he
  cases he

/-- Making a directory `A` in the empty volume. -/
theorem step_treeShaped_iff_mkdir :
    TreeShaped (vol 32 (step (.mkdir idle pathA) emptyState).d)
      (step (.mkdir idle pathA) emptyState).g.nvfsCwd := by
  have h := wellFormed_emptyState
  exact (@step_treeShaped_iff (.mkdir idle pathA) emptyState h.geometry h.owned h.tree
    (fun _ => freeSlot_emptyState) (fun _ h => h.elim) trivial).mpr
    (h.coherent.not_losesEntry h.extents)

/-! ## A root with fourteen empty extents -/

/-- Thirteen extents without blocks, and an indirect block. -/
def hollowRoot : Inode :=
  { freshInode nvfsTypeDir 0 with
    extentCount := 14
    extents := fun j => if j.val = 13 then ⟨5, 1⟩ else Extent.zero }

/-- The empty volume with that root; the indirect block is marked and holds zeros. -/
def hollow : State :=
  ⟨emptyState.g, ((emptyState.d.setIno 0 hollowRoot).setBit 5 true).setBlk 5 Sector.zero⟩

theorem hollow_vol : vol 32 hollow.d
    = (((vol 32 emptyState.d).setIno 0 hollowRoot).setBit 5 true).setBlk 5 Sector.zero := by
  show vol 32 (((emptyState.d.setIno 0 hollowRoot).setBit 5 true).setBlk 5 Sector.zero) = _
  rw [vol_setBlk (by decide) (by decide), vol_setBit (by decide), vol_setIno (by decide)]
  rfl

theorem hollow_ino (i : Nat) : (vol 32 hollow.d).ino i
    = if i = 0 then hollowRoot else (vol 32 emptyState.d).ino i := by
  rw [hollow_vol, Vol.setBlk_ino, Vol.setBit_ino, setIno_ino]

theorem hollow_bit (b : Nat) : (vol 32 hollow.d).bit b = decide (b = 5) := by
  rw [hollow_vol, setBlk_bit, setBit_bit, setIno_bit, emptyState_vol.1]
  by_cases hb : b = 5 <;> simp [hb]

theorem hollow_blocksOf : (vol 32 hollow.d).blocksOf hollowRoot = [] := by
  refine List.flatMap_eq_nil_iff.mpr fun e he => ?_
  have hnone : e.count.toNat = 0 := by
    rcases mem_append.mp he with he | he <;> obtain ⟨j, hj, rfl⟩ := mem_map.mp he
    · have hlt : j < 13 := mem_range.mp hj
      interval_cases j <;> rfl
    · have hlt : j < 1 := mem_range.mp hj
      interval_cases j
      rw [hollow_vol, setBlk_blk, if_pos (by decide)]
      decide +kernel
  rw [hnone]
  rfl

theorem hollow_live {i : Nat} (hi : (vol 32 hollow.d).tree.live i) : i = 0 := by
  by_contra h0
  refine hi ?_
  rw [hollow_ino, if_neg h0]
  exact emptyState_vol.2.2.2 i h0

theorem hollow_kids (i : Nat) : (vol 32 hollow.d).tree.kids i = [] := by
  show (if _ then (vol 32 hollow.d).entries ((vol 32 hollow.d).ino i) else []) = []
  split
  · next hi =>
    rw [hollow_live (live_of_dir hi), hollow_ino, if_pos rfl, Vol.entries, hollow_blocksOf]
    rfl
  · rfl

theorem hollow_tree : TreeShaped (vol 32 hollow.d) hollow.g.nvfsCwd := by
  refine treeShaped_of_bare ?_ (fun i hi => hollow_live hi) hollow_kids
  show ((vol 32 hollow.d).ino 0).type = nvfsTypeDir
  rw [hollow_ino, if_pos rfl]
  rfl

theorem hollow_owned : Owned Inode.live 32 (vol 32 hollow.d) := by
  have hrefs : (vol 32 hollow.d).refs hollowRoot = [5] := by
    rw [Vol.refs, hollow_blocksOf]
    rfl
  have hholds : ∀ i, (vol 32 hollow.d).holds Inode.live i = if i = 0 then [5] else [] := by
    intro i
    unfold Vol.holds
    rw [hollow_ino]
    by_cases hi : i = 0
    · rw [if_pos hi, if_pos hi, hrefs, if_pos (by decide)]
    · have hdead : Inode.live ((vol 32 emptyState.d).ino i) = false := by
        simp [Inode.live, emptyState_vol.2.2.2 i hi]
      rw [if_neg hi, if_neg hi, hdead]
      rfl
  have hmem : ∀ {i b}, b ∈ (vol 32 hollow.d).holds Inode.live i → i = 0 ∧ b = 5 := by
    intro i b hb
    rw [hholds] at hb
    split at hb
    · next hi => exact ⟨hi, mem_singleton.mp hb⟩
    · cases hb
  refine ⟨fun i b hb => ?_, fun i b hb => ?_, fun i => ?_, fun i j hij b hb hb' => ?_,
    fun b hb => by omega⟩
  · rw [(hmem hb).2]
    exact ⟨by decide, by decide⟩
  · rw [(hmem hb).2, hollow_bit]
    rfl
  · rw [hholds]
    split <;> simp
  · exact hij ((hmem hb).1.trans (hmem hb').1.symm)

/-- Making a directory there leaves an inode in use without an entry. -/
theorem hollow_not_treeShaped :
    Geometry 32 hollow.g ∧ Owned Inode.live 32 (vol 32 hollow.d) ∧
      TreeShaped (vol 32 hollow.d) hollow.g.nvfsCwd ∧ SlotAvailable 32 (.mkdir idle pathA) hollow ∧
      ¬ TreeShaped (vol 32 (step (.mkdir idle pathA) hollow).d)
        (step (.mkdir idle pathA) hollow).g.nvfsCwd := by
  have hslot : FreeSlot 32 (vol 32 hollow.d) := by
    refine ⟨1, by decide, by decide, ?_⟩
    rw [hollow_ino, if_neg (by decide)]
    exact emptyState_vol.2.2.2 1 (by decide)
  have hg : Geometry 32 hollow.g := wellFormed_emptyState.geometry
  have hc : Coherent hollow := ⟨hg, hollow_owned, hollow_tree.treelike⟩
  have hloses : Op.LosesEntry (.mkdir idle pathA) hollow := by
    refine ⟨0, [65], 0, ⟨rfl, rfl⟩, ?_, ⟨?_, ?_⟩, 0, by decide, ?_, 0, by decide, ?_, ?_⟩
    · rw [hollow_kids]
      rfl
    · rw [hollow_ino, if_pos rfl]
      intro b hb
      rw [hollow_blocksOf] at hb
      cases hb
    · rw [hollow_ino, if_pos rfl]
      rfl
    · intro b h1 h2
      have hzero : blocksFor 0 = 0 := by decide
      omega
    · rw [hollow_bit]
      rfl
    · have hzero : blocksFor 0 = 0 := by decide
      omega
  refine ⟨hg, hollow_owned, hollow_tree, fun _ => hslot, fun htree => ?_⟩
  exact not_rooted_of_losesEntry hc (fun _ => hslot) hloses htree.shaped.rooted

end Noverix.Nvfs
