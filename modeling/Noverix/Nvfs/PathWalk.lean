/-
  Path resolution as a walk in the tree of directories.

  A path is a list of components between slashes.  The components before the
  last slash are walked one after another, from the root or from the current
  directory, and the last one is the name, unless it is empty or stands for a
  directory itself (`Means`).  `resolve_path` reads the characters one by one and
  searches the disk; where the sectors of the namespace do not fail it computes
  the same.
-/

import Noverix.Nvfs.GrowthRuns
import Noverix.Nvfs.Intact

namespace Noverix.Nvfs

open Lib
open Lib.DiskProg (must exec must_bind)

/-! ## Walking in a tree -/

/-- A stored name is that of a component: both are upper-cased and cut. -/
def SameName (x comp : List UInt8) : Prop := nameKey (toUpper x) = nameKey (toUpper comp)

/-- One component leads from directory `cur` to directory `j`. -/
def StepsTo (T : Tree (List UInt8) Nat) (cur : Nat) (comp : List UInt8) (j : Nat) : Prop :=
  if comp = [] ∨ comp = [dot] then j = cur
  else if comp = [dot, dot] then T.Child j cur
  else T.dir j ∧ ∃ x, (x, j) ∈ T.kids cur ∧ SameName x comp

/-- The components lead from directory `cur` to directory `j`, one after another, where `R` says
    where a single one leads. -/
inductive Walks (R : Nat → List UInt8 → Nat → Prop) : Nat → List (List UInt8) → Nat → Prop
  | nil (cur : Nat) : Walks R cur [] cur
  | cons {cur i j : Nat} {comp : List UInt8} {comps : List (List UInt8)} :
      R cur comp i → Walks R i comps j → Walks R cur (comp :: comps) j

/-- The last component, in directory `j`: an empty one and `.` denote `j`, `..` denotes its
    parent, anything else is a name in `j`. -/
def Denotes (T : Tree (List UInt8) Nat) (j : Nat) (last : List UInt8) (parent : Nat)
    (name : List UInt8) : Prop :=
  if last = [] ∨ last = [dot] then parent = j ∧ name = []
  else if last = [dot, dot] then T.Child parent j ∧ name = []
  else parent = j ∧ name = toUpper last

/-- What a list of components stands for, from directory `cur` on. -/
def Leaves (T : Tree (List UInt8) Nat) (R : Nat → List UInt8 → Nat → Prop) (cur : Nat)
    (comps : List (List UInt8)) (parent : Nat) (name : List UInt8) : Prop :=
  ∃ j, Walks R cur comps.dropLast j ∧ Denotes T j (comps.getLastD []) parent name

/-- The components of a path. -/
def components (path : List UInt8) : List (List UInt8) := path.splitOn slash

/-- Where a path starts. -/
def startOf (cwd : Nat) (path : List UInt8) : Nat :=
  if path.head? = some slash then nvfsRootInode else cwd

/-- The directory and the name that a path stands for. -/
def Means (T : Tree (List UInt8) Nat) (cwd : Nat) (path : List UInt8) (parent : Nat)
    (name : List UInt8) : Prop :=
  Leaves T (StepsTo T) (startOf cwd path) (components path) parent name

section

variable {T : Tree (List UInt8) Nat} {R : Nat → List UInt8 → Nat → Prop} {cur j parent : Nat}
  {name : List UInt8}

theorem walks_nil_iff : Walks R cur [] j ↔ j = cur := by
  constructor
  · rintro ⟨⟩
    rfl
  · rintro rfl
    exact .nil _

variable {comps : List (List UInt8)}
  {comp : List UInt8}

theorem walks_cons_iff :
    Walks R cur (comp :: comps) j ↔ ∃ i, R cur comp i ∧ Walks R i comps j := by
  constructor
  · rintro (_ | ⟨hstep, hwalk⟩)
    exact ⟨_, hstep, hwalk⟩
  · rintro ⟨i, hstep, hwalk⟩
    exact .cons hstep hwalk

theorem leaves_singleton {last : List UInt8} :
    Leaves T R cur [last] parent name ↔ Denotes T cur last parent name := by
  constructor
  · rintro ⟨j, ⟨⟩, h⟩
    exact h
  · exact fun h => ⟨cur, .nil cur, h⟩

theorem leaves_cons (hne : comps ≠ []) :
    Leaves T R cur (comp :: comps) parent name ↔
      ∃ i, R cur comp i ∧ Leaves T R i comps parent name := by
  obtain ⟨c, cs, rfl⟩ := List.exists_cons_of_ne_nil hne
  unfold Leaves
  rw [List.dropLast_cons_of_ne_nil hne, List.getLastD_cons, List.getLastD_cons, List.getLastD_cons]
  simp only [walks_cons_iff]
  constructor
  · rintro ⟨j, ⟨i, hstep, hwalk⟩, hlast⟩
    exact ⟨i, hstep, j, hwalk, hlast⟩
  · rintro ⟨i, hstep, j, hwalk, hlast⟩
    exact ⟨j, ⟨i, hstep, hwalk⟩, hlast⟩

end

theorem slash_notMem_components {path comp : List UInt8} (h : comp ∈ components path) :
    slash ∉ comp := by
  unfold components List.splitOn at h
  induction path generalizing comp with
  | nil =>
    rw [List.splitOnP_nil, mem_singleton] at h
    rw [h]
    exact not_mem_nil
  | cons c cs ih =>
    rw [List.splitOnP_cons_eq_if_modifyHead] at h
    split at h
    · rcases mem_cons.mp h with rfl | h
      · exact not_mem_nil
      · exact ih h
    next hc =>
    obtain ⟨hd, tl, hsplit⟩ := List.exists_cons_of_ne_nil
      (List.splitOnP_ne_nil (fun x => x == slash) cs)
    rw [hsplit] at h ih
    rw [List.modifyHead_cons] at h
    rcases mem_cons.mp h with rfl | h
    · rw [mem_cons, not_or]
      exact ⟨fun heq => hc (by simp [heq]), ih mem_cons_self⟩
    · exact ih (mem_cons_of_mem _ h)

/-- One component as the driver looks it up: the key of the upper-cased component is compared
    with the stored names. -/
def Enters (T : Tree (List UInt8) Nat) (cur : Nat) (comp : List UInt8) (j : Nat) : Prop :=
  if comp = [] ∨ comp = [dot] then j = cur
  else if comp = [dot, dot] then T.Child j cur
  else T.dir j ∧ (nameKey (toUpper comp), j) ∈ T.kids cur

section

variable {T : Tree (List UInt8) Nat} {cur j : Nat} {comp : List UInt8}

theorem enters_empty : Enters T cur [] j ↔ j = cur := Iff.of_eq (if_pos (Or.inl rfl))

theorem leaves_skip {comps : List (List UInt8)} {parent : Nat} {name : List UInt8}
    (hne : comps ≠ []) :
    Leaves T (Enters T) cur ([] :: comps) parent name ↔
      Leaves T (Enters T) cur comps parent name := by
  rw [leaves_cons hne]
  simp only [enters_empty, exists_eq_left]

theorem Enters.dir (h : Enters T cur comp j) (hcur : T.dir cur) : T.dir j := by
  unfold Enters at h
  split at h
  · exact h ▸ hcur
  split at h
  · exact h.1
  · exact h.1

end

/-- The names in the directories are upper case and have at most 27 characters, as the driver
    and the formatter write them. -/
def NamesStored (T : Tree (List UInt8) Nat) : Prop :=
  ∀ p x i, (x, i) ∈ T.kids p → toUpper x = x ∧ x.length ≤ nvfsMaxName

variable {T : Tree (List UInt8) Nat}

theorem NamesStored.mem_iff (h : NamesStored T) {p i : Nat}
    {comp : List UInt8} :
    (nameKey (toUpper comp), i) ∈ T.kids p ↔ ∃ x, (x, i) ∈ T.kids p ∧ SameName x comp := by
  constructor
  · intro hmem
    obtain ⟨hupper, hlen⟩ := h p _ i hmem
    refine ⟨_, hmem, ?_⟩
    unfold SameName
    rw [hupper]
    exact take_of_length_le hlen
  · rintro ⟨x, hmem, hsame⟩
    obtain ⟨hupper, hlen⟩ := h p x i hmem
    have hx : nameKey (toUpper x) = x := by
      rw [hupper]
      exact take_of_length_le hlen
    rw [← hsame, hx]
    exact hmem

/-- Where the stored names are as the driver writes them, it compares names as it should. -/
theorem NamesStored.enters_eq (h : NamesStored T) :
    Enters T = StepsTo T := by
  funext cur comp j
  unfold Enters StepsTo
  rw [h.mem_iff]

/-! ## The driver's walk -/

/-- A volume is mounted whose namespace, as the driver finds it, is a tree with the current
    directory in it, and inode numbers fit an `int`. -/
structure TreeOnDisk (s : State) : Prop where
  mounted : s.g.mounted = true
  count : s.g.sbInodeCount ≤ 2 ^ 31
  shaped : (rawView s.g s.d).tree.Shaped nvfsRootInode
  cwd : (rawView s.g s.d).tree.dir s.g.nvfsCwd

section

variable {s : State}

theorem IntactState.rawView_tree (h : IntactState s) :
    (rawView s.g s.d).tree = (view s.g s.d).tree :=
  h.regular.rawView_tree fun _ hi => h.refs_lt (live_of_dir hi)

theorem IntactState.treeOnDisk (h : IntactState s) : TreeOnDisk s where
  mounted := h.regular.mounted
  count := Nat.le_of_lt h.regular.count_lt
  shaped := h.rawView_tree ▸ h.shaped
  cwd := h.rawView_tree ▸ h.cwd

theorem WellFormed.rawView_tree (h : WellFormed s) :
    (rawView s.g s.d).tree = (vol 32 s.d).tree := h.intact.rawView_tree.trans h.view_tree

/-- A device whose first 32768 sectors do not fail serves the namespace of a volume with the
    layout of mknvfs.py. -/
theorem WellFormed.served_of (h : WellFormed s) {D : Device} (hbad : ∀ l, D.bad l → 32768 ≤ l) :
    Served D s.g s.d := by
  have hg := h.geometry
  refine ⟨fun i hi hfail => ?_, fun i hi b hb hfail => ?_⟩
  · have hle : 32768 ≤ inodeSector s.g i := hbad _ hfail
    rw [hg.inodeCount] at hi
    rw [hg.inodeSector hi] at hle
    omega
  · rw [h.rawView_tree] at hi
    have hrefs := h.intact.regular.rawView_entries (h.intact.refs_lt
      (h.view_tree ▸ live_of_dir hi))
    rw [h.intact.regular.rawView_ino, hrefs.1, h.view_refs (live_of_dir hi),
      WellFormed.holds_eq (live_of_dir hi)] at hb
    have hdata := (h.owned.dirData hi b hb).2
    have hle : 32768 ≤ blockSector s.g b := hbad _ hfail
    rw [hg.blockSector (by omega)] at hle
    omega

theorem WellFormed.served (h : WellFormed s) : Served (Faults.none 32768).device s.g s.d :=
  h.served_of (none_fits 32768).of_device.2

end

namespace TreeOnDisk

variable {s : State} {D : Device} (hs : TreeOnDisk s) (hserved : Served D s.g s.d)

include hs

theorem kid_lt {p i : Nat} {x : List UInt8} (hp : (rawView s.g s.d).tree.dir p)
    (hx : (x, i) ∈ (rawView s.g s.d).tree.kids p) : i < s.g.sbInodeCount :=
  rawView_live_lt (hs.shaped.kid_live p i ⟨hp, x, hx⟩)

include hserved

theorem must_dirFind {p : Nat} (hp : (rawView s.g s.d).tree.dir p) {name : List UInt8}
    (hn : NulFree name) {Q : Option Nat → Globals → Disk → Prop}
    (hok : ∀ r, (∀ i, r = some i ↔ (nameKey name, i) ∈ (rawView s.g s.d).tree.kids p) →
      Q r s.g s.d) : must D (dirFind p name) Q s.g s.d := by
  refine hserved.must_dirFind hp hn (hok _ fun i => ?_)
  refine lookup_eq_some_iff (hs.shaped.names_nodup p hp) fun e he => ?_
  have hlt := hs.kid_lt hp he
  have hcount := hs.count
  omega

theorem must_findParent (i : Nat) {Q : Option Nat → Globals → Disk → Prop}
    (hok : ∀ r, (∀ p, r = some p ↔ (rawView s.g s.d).tree.Child p i) → Q r s.g s.d) :
    must D (findParent i) Q s.g s.d := by
  refine hserved.must_findParent hs.count (hok _ fun p => ?_)
  by_cases h0 : i = 0
  · rw [if_pos h0, h0]
    exact iff_of_false (by simp) (hs.shaped.kid_ne_root p)
  rw [if_neg h0]
  exact find_hasEntryFor_iff hs.shaped.parent_unique fun h =>
    rawView_live_lt (live_of_dir h.1)

variable {cur : Nat}

theorem must_resolveComponent (hcur : (rawView s.g s.d).tree.dir cur)
    {comp : List UInt8} (hn : NulFree comp) (h0 : comp ≠ [])
    {Q : Option Nat → Globals → Disk → Prop}
    (hok : ∀ r, (∀ j, r = some j ↔ Enters (rawView s.g s.d).tree cur comp j) → Q r s.g s.d) :
    must D (resolveComponent cur comp) Q s.g s.d := by
  unfold resolveComponent
  unfold Enters at hok
  by_cases h2 : comp = [dot, dot]
  · subst h2
    rw [if_pos rfl, must_bind]
    refine hs.must_findParent hserved cur fun r hr => ?_
    cases r with
    | none => exact hok none hr
    | some p => exact hok (some p) hr
  by_cases h1 : comp = [dot]
  · subst h1
    rw [if_neg (by decide), if_pos rfl]
    refine hok _ fun j => ?_
    simp [eq_comm]
  rw [if_neg h2, if_neg h1, must_bind]
  simp only [h0, h1, h2, or_self, if_false] at hok
  refine hs.must_dirFind hserved hcur hn.toUpper fun r hr => ?_
  -- an entry of the right name may be one of a file
  cases r with
  | none =>
    refine hok none fun j => iff_of_false nofun ?_
    rintro ⟨-, hmem⟩
    exact absurd ((hr j).mpr hmem) nofun
  | some i =>
    have hmem := (hr i).mp rfl
    simp only
    rw [must_bind]
    refine hserved.must_inodeRead (hs.kid_lt hcur hmem) ?_
    by_cases ht : ((rawView s.g s.d).ino i).type = nvfsTypeDir
    · simp only [ht, ne_eq, not_true_eq_false, if_false]
      refine hok (some i) fun j => ?_
      rw [← hr j]
      refine ⟨fun h => ⟨?_, h⟩, And.right⟩
      cases h
      exact ht
    simp only [ht, ne_eq, not_false_eq_true, if_true]
    refine hok none fun j => iff_of_false nofun ?_
    rintro ⟨hdir, hj⟩
    obtain rfl := some.inj ((hr j).mpr hj)
    exact ht hdir

theorem must_resolveLast (name : List UInt8) :
    must D (resolveLast cur name) (fun r _ _ => ∀ parent n, r = some (parent, n) ↔
      Denotes (rawView s.g s.d).tree cur name parent n) s.g s.d := by
  unfold resolveLast Denotes
  by_cases h2 : name = [dot, dot]
  · subst h2
    rw [if_pos rfl, must_bind]
    refine hs.must_findParent hserved cur fun r hr => ?_
    cases r with
    | none =>
      refine fun parent n => iff_of_false nofun ?_
      rintro ⟨hchild, -⟩
      exact absurd ((hr parent).mpr hchild) nofun
    | some p =>
      refine fun parent n => ?_
      show some (p, []) = some (parent, n) ↔ (rawView s.g s.d).tree.Child parent cur ∧ n = []
      rw [← hr parent]
      simp [eq_comm]
  by_cases h1 : name = [dot]
  · subst h1
    rw [if_neg (by decide), if_pos rfl]
    refine fun parent n => ?_
    simp [eq_comm]
  rw [if_neg h2, if_neg h1]
  refine fun parent n => ?_
  by_cases h0 : name = []
  · subst h0
    simp [toUpper, eq_comm]
  · simp [h0, h1, h2, eq_comm]

/-- The component loop: `seg` is what has been read of the component. -/
theorem must_resolveLoop {cs : List UInt8} (hcs : NulFree cs)
    (hcur : (rawView s.g s.d).tree.dir cur) {seg : List UInt8} (hseg : NulFree seg)
    (hslash : slash ∉ seg) :
    must D (resolveLoop cur seg cs) (fun r _ _ => ∀ parent name, r = some (parent, name) ↔
      Leaves (rawView s.g s.d).tree (Enters (rawView s.g s.d).tree) cur (components (seg ++ cs))
        parent name) s.g s.d := by
  unfold components
  induction cs generalizing cur seg with
  | nil =>
    unfold resolveLoop
    rw [append_nil, List.splitOn_eq_singleton hslash]
    simp only [leaves_singleton]
    exact hs.must_resolveLast hserved seg
  | cons c cs ih =>
    have hcs' : NulFree cs := fun x hx => hcs x (mem_cons_of_mem _ hx)
    have hne := List.splitOn_ne_nil slash cs
    unfold resolveLoop
    by_cases hc : c = slash
    · subst hc
      rw [if_pos rfl, List.splitOn_append_cons_self_of_not_mem hslash]
      by_cases h0 : seg = []
      · subst h0
        rw [if_pos rfl]
        simp only [leaves_skip hne]
        exact ih hcs' hcur nulFree_nil not_mem_nil
      rw [if_neg h0, must_bind]
      simp only [leaves_cons hne]
      refine hs.must_resolveComponent hserved hcur hseg h0 fun r hr => ?_
      cases r with
      | none =>
        refine fun parent name => iff_of_false nofun ?_
        rintro ⟨i, hstep, -⟩
        exact absurd ((hr i).mpr hstep) nofun
      | some next =>
        have hstep := (hr next).mp rfl
        refine DiskProg.must_mono (fun r _ _ h parent name => ?_)
          (ih hcs' (hstep.dir hcur) nulFree_nil not_mem_nil)
        rw [h parent name, nil_append]
        constructor
        · exact fun hl => ⟨next, hstep, hl⟩
        · rintro ⟨i, hi, hl⟩
          obtain rfl := some.inj ((hr i).mpr hi)
          exact hl
    rw [if_neg hc, List.append_cons seg c cs]
    refine ih hcs' hcur (fun x hx => ?_) fun hx => ?_
    · rcases mem_append.mp hx with hx | hx
      · exact hseg x hx
      rw [mem_singleton.mp hx]
      exact hcs c mem_cons_self
    · rcases mem_append.mp hx with hx | hx
      · exact hslash hx
      · exact hc (mem_singleton.mp hx).symm

theorem must_resolvePath {path : List UInt8} (hn : NulFree path) (hlen : path.length ≤ 255) :
    must D (resolvePath path) (fun r _ _ => ∀ parent name, r = some (parent, name) ↔
      Leaves (rawView s.g s.d).tree (Enters (rawView s.g s.d).tree) (startOf s.g.nvfsCwd path)
        (components path) parent name) s.g s.d := by
  unfold resolvePath startOf
  rw [must_bind, must_getState, pathBuf_eq hn hlen]
  cases path with
  | nil =>
    refine fun parent name => ?_
    show some (s.g.nvfsCwd, []) = some (parent, name) ↔
      Leaves _ _ s.g.nvfsCwd [[]] parent name
    rw [leaves_singleton]
    unfold Denotes
    simp [eq_comm]
  | cons c cs =>
    have hcs : NulFree cs := fun x hx => hn x (mem_cons_of_mem _ hx)
    simp only [head?_cons, Option.some.injEq]
    by_cases hc : c = slash
    · subst hc
      have hsplit : components (slash :: cs) = [] :: components cs :=
        List.splitOn_append_cons_self_of_not_mem (not_mem_nil (a := slash)) cs
      have hne : components cs ≠ [] := List.splitOn_ne_nil slash cs
      simp only [if_true, hsplit, leaves_skip hne]
      exact hs.must_resolveLoop hserved hcs hs.shaped.root_dir nulFree_nil not_mem_nil
    simp only [hc, if_false]
    exact hs.must_resolveLoop hserved hn hs.cwd nulFree_nil not_mem_nil

end TreeOnDisk

/-- A path that `resolve_path` and its callers have room for. -/
structure FitsBuffers (path : List UInt8) : Prop where
  nulFree : NulFree path
  length : path.length ≤ 255
  last : ((components path).getLastD []).length ≤ nvfsMaxName

/-- `resolve_path` succeeds with a directory and a name exactly when walking in the tree leads
    to them. -/
theorem resolve_path_walks {s : State} {fl : Faults} (hs : TreeOnDisk s)
    (hserved : Served fl.device s.g s.d) (hnames : NamesStored (rawView s.g s.d).tree)
    {path : List UInt8} (hpath : FitsBuffers path) (parent : Nat) (name : List UInt8) :
    (exec fl (resolvePath path) s.g s.d).1 = some (parent, name) ↔
      Means (rawView s.g s.d).tree s.g.nvfsCwd path parent name := by
  unfold Means
  rw [← hnames.enters_eq]
  exact must_sound fl.device_fits
    (hs.must_resolvePath hserved hpath.nulFree hpath.length) parent name

/-- The path `/a/../B`. -/
def upPath : List UInt8 := [slash, 97, slash, dot, dot, slash, 66]

/-- Down to the directory `A` and up again. -/
theorem means_upPath {T : Tree (List UInt8) Nat} {i cwd : Nat} (hroot : T.dir nvfsRootInode)
    (hdir : T.dir i) (hmem : ([65], i) ∈ T.kids nvfsRootInode) :
    Means T cwd upPath nvfsRootInode [66] := by
  show Leaves _ _ nvfsRootInode [[], [97], [dot, dot], [66]] _ _
  rw [leaves_cons (by decide)]
  exact ⟨nvfsRootInode, rfl, (leaves_cons (by decide)).mpr ⟨i, ⟨hdir, [65], hmem, rfl⟩,
    (leaves_cons (by decide)).mpr ⟨nvfsRootInode, ⟨hroot, [65], hmem⟩,
      leaves_singleton.mpr ⟨rfl, rfl⟩⟩⟩⟩

theorem namesStored_linked {V W : Vol} {i : Nat} {n : Inode} (hV : ∀ p, V.tree.kids p = [])
    (h : Linked V nvfsRootInode [65] i n W) : NamesStored W.tree := by
  intro p x j hmem
  by_cases hp : p = nvfsRootInode
  · have hkids := h.added
    rw [hV] at hkids
    rw [hp, List.perm_singleton.mp hkids] at hmem
    cases List.mem_singleton.mp hmem
    decide
  by_cases hpi : p = i
  · rw [hpi, h.leaf] at hmem
    cases hmem
  · rw [h.kids_of_ne p hp hpi, hV] at hmem
    cases hmem

/-- The directory `A` is made, and `/a/../B` is a name in the root. -/
theorem resolve_path_walks_upPath : ∃ s, s = step (.mkdir idle pathA) emptyState ∧
    Means (rawView s.g s.d).tree s.g.nvfsCwd upPath nvfsRootInode [66] ∧
      (exec (Faults.none 32768) (resolvePath upPath) s.g s.d).1 = some (nvfsRootInode, [66]) := by
  obtain ⟨hwf, -, -, i, n, hn, -, hlinked⟩ := step_mkdir_nested simple_A wellFormed_emptyState
    nested_emptyState (emptyState_vol.2.2.1 _) (by decide)
  generalize step (.mkdir idle pathA) emptyState = s at hwf hlinked
  have hmeans : Means (rawView s.g s.d).tree s.g.nvfsCwd upPath nvfsRootInode [66] := by
    rw [hwf.rawView_tree]
    exact means_upPath hlinked.dir (hlinked.dir_self hn) hlinked.mem_self
  refine ⟨s, rfl, hmeans, (resolve_path_walks hwf.intact.treeOnDisk hwf.served ?_
    ⟨by simp [NulFree, upPath, slash, dot], by decide, by decide⟩ _ _).mpr hmeans⟩
  rw [hwf.rawView_tree]
  exact namesStored_linked emptyState_kids hlinked

end Noverix.Nvfs
