/-
  The directory tree on a volume (`Vol.tree`), and what the driver's searches
  compute on it: `dir_find` finds the entry with a name, `dir_empty` looks for
  entries, `find_parent` finds the directory that holds an inode.  On a tree of
  the right shape these are the entry, the emptiness and the parent, whatever
  the order of the entries; so path resolution depends only on the directories
  (`SameDirs.resolvePath`).
-/

import Mathlib.Data.List.TakeWhile
import Noverix.Lib.Tree
import Noverix.Nvfs.Calls

namespace Noverix.Nvfs

open Lib
open Lib.DiskProg (wp)

variable {V W : Vol} {i cur j parent : Nat} {n : Inode} {e : Entry} {es : List Entry}
  {name comp cs path seg : List UInt8} {r : Nat × List UInt8}
  {ib : Nat} {g g' : Globals} {d d' : Disk}

/-- The directory tree on a volume. -/
def Vol.tree (V : Vol) : Tree (List UInt8) Nat where
  live i := (V.ino i).type ≠ 0
  dir i := (V.ino i).type = nvfsTypeDir
  kids i := if (V.ino i).type = nvfsTypeDir then V.entries (V.ino i) else []

theorem Vol.kids_of_dir (h : V.tree.dir i) :
    V.tree.kids i = V.entries (V.ino i) := if_pos h

theorem Vol.live_of_dir (h : V.tree.dir i) : V.tree.live i := by
  intro h0
  have hd : (V.ino i).type = nvfsTypeDir := h
  rw [h0] at hd
  contradiction

theorem Vol.tree_congr (hino : W.ino = V.ino)
    (hentries : ∀ i, V.tree.dir i → W.entries (V.ino i) = V.entries (V.ino i)) :
    W.tree = V.tree := by
  apply Tree.ext
  · funext i
    show ((W.ino i).type ≠ 0) = _
    rw [hino]
    rfl
  · funext i
    show ((W.ino i).type = nvfsTypeDir) = _
    rw [hino]
    rfl
  · funext i
    show (if (W.ino i).type = nvfsTypeDir then W.entries (W.ino i) else []) = _
    rw [hino]
    by_cases hdir : (V.ino i).type = nvfsTypeDir
    · rw [if_pos hdir, Vol.kids_of_dir hdir, hentries i hdir]
    rw [if_neg hdir]
    exact (if_neg hdir).symm

theorem vol_live_lt (h : (vol ib d).tree.live i) : i < 4 * ib := by
  by_contra hge
  refine h ?_
  rw [vol_ino, if_neg hge]
  rfl

theorem vol_dir_lt (h : (vol ib d).tree.dir i) : i < 4 * ib :=
  vol_live_lt (Vol.live_of_dir h)

theorem Owned.dirData (h : Owned Inode.live ib V) (hi : V.tree.dir i) :
    ∀ b ∈ V.refs (V.ino i), InData ib b :=
  h.refsData (counts_live.live _ (Vol.live_of_dir hi))

/-! ## Searches -/

/-- The entry loop of `dir_empty` and `find_parent` looks at the used slots. -/
theorem val_anySlot (hg : Geometry ib g) {p : Nat → Bool} (hp : p 0 = false)
    (hdata : ∀ b ∈ (vol ib d).refs n, InData ib b) :
    val 32768 (anySlot p (extentBlocks ((vol ib d).extList n))) g d
      = ((vol ib d).entries n).any fun e => p e.2 := by
  have hloop : ∀ bs : List Nat, (∀ b ∈ bs, InData ib b) → val 32768 (anySlot p bs) g d
      = (bs.flatMap fun b => sectorEntries ((vol ib d).blk b)).any fun e => p e.2 := by
    intro bs hbs
    induction bs with
    | nil => rfl
    | cons b bs ih =>
      unfold anySlot
      rw [val_bind (readOnly_readBlock _), val_readBlock hg (hbs b mem_cons_self),
        flatMap_cons, List.any_append, ← any_slotInode hp]
      simp only
      cases (range direntsPerSec).any fun e => p (slotInode ((vol ib d).blk b) e) with
      | true => rfl
      | false => exact ih fun c hc => hbs c (mem_cons_of_mem _ hc)
  exact hloop _ fun b hb => hdata b (mem_append_left _ hb)

theorem Vol.entries_ne_zero (he : e ∈ V.entries n) : e.2 ≠ 0 := by
  obtain ⟨b, -, hb⟩ := mem_flatMap.mp he
  obtain ⟨k, -, hk⟩ := mem_filterMap.mp hb
  unfold slotEntry at hk
  split at hk
  · cases hk
  next h0 =>
  cases hk
  exact h0

theorem val_dirEmpty (hg : Geometry ib g) (hi : i < 4 * ib)
    (hdata : ∀ b ∈ (vol ib d).refs ((vol ib d).ino i), InData ib b) :
    val 32768 (dirEmpty i) g d = true ↔ (vol ib d).entries ((vol ib d).ino i) = [] := by
  unfold dirEmpty
  rw [val_bind (readOnly_inodeRead _), val_inodeRead hg hi]
  simp only
  rw [val_bind (readOnly_extentLoadAll _),
    val_extentLoadAll hg fun b hb => hdata b (mem_append_right _ hb)]
  simp only
  rw [val_bind (readOnly_anySlot _ _), val_anySlot hg (by decide) hdata, val_pure]
  cases hes : (vol ib d).entries ((vol ib d).ino i) with
  | nil => simp
  | cons e es =>
    have hne : e.2 ≠ 0 := Vol.entries_ne_zero (hes ▸ mem_cons_self)
    simp [hne]

/-- What `find_parent` looks for: a directory with an entry for inode `i`. -/
def hasEntryFor (V : Vol) (i p : Nat) : Bool :=
  decide ((V.ino p).type = nvfsTypeDir) && (V.entries (V.ino p)).any fun e => e.2 == i

variable {p : Nat}

theorem hasEntryFor_iff : hasEntryFor V i p = true ↔ V.tree.Child p i := by
  unfold hasEntryFor
  rw [Bool.and_eq_true, decide_eq_true_eq, List.any_eq_true]
  constructor
  · rintro ⟨hp, e, he, hei⟩
    refine ⟨hp, e.1, ?_⟩
    rw [Vol.kids_of_dir hp, ← show e.2 = i by simpa using hei]
    exact he
  · rintro ⟨hp, x, hx⟩
    rw [Vol.kids_of_dir hp] at hx
    exact ⟨hp, (x, i), hx, by simp⟩

/-- Where parents are unique, the search over the table finds the parent. -/
theorem find_hasEntryFor_iff {p count : Nat}
    (hunique : ∀ p q i, V.tree.Child p i → V.tree.Child q i → p = q)
    (hlt : V.tree.Child p i → p < count) :
    (range count).find? (hasEntryFor V i) = some p ↔ V.tree.Child p i := by
  constructor
  · intro h
    exact hasEntryFor_iff.mp (find?_some h)
  · intro h
    -- some directory is found, and there is only one
    cases hf : (range count).find? (hasEntryFor V i) with
    | none =>
      exact absurd (hasEntryFor_iff.mpr h)
        (find?_eq_none.mp hf p (mem_range.mpr (hlt h)))
    | some q =>
      have hq := hasEntryFor_iff.mp (find?_some hf)
      rw [hunique p q i h hq]

theorem val_findParent (hg : Geometry ib g) (hV : Owned Inode.live ib (vol ib d)) (i : Nat) :
    val 32768 (findParent i) g d = if i = 0 then none
      else (range (4 * ib)).find? (hasEntryFor (vol ib d) i) := by
  have hhi := hg.hi
  unfold findParent
  by_cases h0 : i = 0
  · rw [if_pos h0, if_pos h0]
    rfl
  rw [if_neg h0, if_neg h0, val_bind_getState, hg.inodeCount]
  -- the loop over the table is a search for the first directory with the entry
  have hloop : ∀ is : List Nat, (∀ j ∈ is, j < 4 * ib) →
      val 32768 (findParentLoop i is) g d = is.find? (hasEntryFor (vol ib d) i) := by
    intro is his
    induction is with
    | nil => rfl
    | cons j is ih =>
      have hj := his j mem_cons_self
      have ih' := ih fun k hk => his k (mem_cons_of_mem _ hk)
      unfold findParentLoop
      rw [val_bind (readOnly_inodeRead _), val_inodeRead hg hj, find?_cons]
      unfold hasEntryFor at ih' ⊢
      by_cases ht : ((vol ib d).ino j).type = nvfsTypeDir
      · have hdata := hV.dirData ht
        simp only [ht, ne_eq, not_true_eq_false, ↓reduceIte, decide_true, Bool.true_and]
        rw [val_bind (readOnly_extentLoadAll _),
          val_extentLoadAll hg fun b hb => hdata b (mem_append_right _ hb)]
        simp only
        rw [val_bind (readOnly_anySlot _ _), val_anySlot hg (by simpa using Ne.symm h0) hdata]
        cases ((vol ib d).entries ((vol ib d).ino j)).any fun e => e.2 == i with
        | true => exact asInt_of_lt (by omega)
        | false => exact ih'
      simp only [ne_eq, ht, not_false_eq_true, ↓reduceIte, decide_false, Bool.false_and]
      exact ih'
  exact hloop _ fun j hj => mem_range.mp hj

/-! ## Searches on a tree of the right shape -/

theorem mem_of_lookup (h : lookup es name = some i) : (nameKey name, i) ∈ es := by
  obtain ⟨e, he, hi⟩ := bind_eq_some_iff.mp h
  have hkey : e.1 = nameKey name := by simpa using find?_some he
  have hval : e.2 = i := (asInt_eq_some.mp hi).2
  rw [← hkey, ← hval]
  exact mem_of_find?_eq_some he

theorem lookup_eq_some_iff (hnd : (es.map Prod.fst).Nodup)
    (hsmall : ∀ e ∈ es, e.2 < 2 ^ 31) :
    lookup es name = some i ↔ (nameKey name, i) ∈ es := by
  constructor
  · exact mem_of_lookup
  · intro h
    unfold lookup
    induction es with
    | nil => cases h
    | cons e es ih =>
      rw [map_cons, nodup_cons] at hnd
      rw [find?_cons]
      rcases mem_cons.mp h with rfl | h
      · have hi := hsmall (nameKey name, i) mem_cons_self
        simp only [beq_self_eq_true, bind_some]
        exact asInt_of_lt hi
      -- a later entry has the name, so this one has not
      have hne : (e.1 == nameKey name) = false := by
        rw [beq_eq_false_iff_ne]
        intro heq
        exact hnd.1 (heq ▸ mem_map.mpr ⟨_, h, rfl⟩)
      rw [hne]
      exact ih hnd.2 (fun e' he' => hsmall e' (mem_cons_of_mem _ he')) h

section

variable (hg : Geometry ib g) (hV : Owned Inode.live ib (vol ib d))
include hg hV

theorem dirFind_eq_lookup (hp : (vol ib d).tree.dir p) (hn : NulFree name) :
    val 32768 (dirFind p name) g d = lookup ((vol ib d).tree.kids p) name := by
  have hd : ((vol ib d).ino p).type = nvfsTypeDir := hp
  rw [val_dirFind hg p hn fun _ => hV.dirData hp, if_pos hd, Vol.kids_of_dir hp]

theorem findParent_dir (h : val 32768 (findParent i) g d = some p) : (vol ib d).tree.dir p := by
  rw [val_findParent hg hV] at h
  split at h
  · cases h
  · exact (hasEntryFor_iff.mp (find?_some h)).1

end

section

variable (hg : Geometry ib g) (hV : Owned Inode.live ib (vol ib d))
  (hs : (vol ib d).tree.Shaped 0)
  {p : Nat}

include hg in
theorem kids_small (hs : (vol ib d).tree.Rooted 0) (hp : (vol ib d).tree.dir p)
    (he : e ∈ (vol ib d).tree.kids p) : e.2 < 2 ^ 31 := by
  have hlt := vol_live_lt (hs.kid_live p e.2 ⟨hp, e.1, he⟩)
  have hhi := hg.hi
  omega

include hg hV hs

theorem dirFind_iff (hp : (vol ib d).tree.dir p) (hn : NulFree name) :
    val 32768 (dirFind p name) g d = some i ↔ (nameKey name, i) ∈ (vol ib d).tree.kids p := by
  rw [dirFind_eq_lookup hg hV hp hn]
  exact lookup_eq_some_iff (hs.names_nodup p hp) fun e he => kids_small hg hs.rooted hp he

theorem findParent_iff :
    val 32768 (findParent i) g d = some p ↔ (vol ib d).tree.Child p i := by
  rw [val_findParent hg hV]
  by_cases h0 : i = 0
  · rw [if_pos h0, h0]
    exact iff_of_false (by simp) (hs.kid_ne_root p)
  rw [if_neg h0]
  exact find_hasEntryFor_iff hs.parent_unique fun h => vol_dir_lt h.1

end

/-! ## Path resolution -/

/-- One path component leads from directory `cur` to directory `j`. -/
def Leads (V : Vol) (cur : Nat) (comp : List UInt8) (j : Nat) : Prop :=
  if comp = [dot, dot] then V.tree.Child j cur
  else if comp = [dot] then j = cur
  else V.tree.dir j ∧ (nameKey (toUpper comp), j) ∈ V.tree.kids cur

theorem Leads.dir (h : Leads V cur comp j)
    (hcur : V.tree.dir cur) : V.tree.dir j := by
  unfold Leads at h
  split at h
  · exact h.1
  split at h
  · exact h ▸ hcur
  · exact h.1

theorem resolveLoop_noSlash (hcs : slash ∉ cs) (cur : Nat) (seg : List UInt8) :
    resolveLoop cur seg cs = resolveLast cur (seg ++ cs) := by
  induction cs generalizing seg with
  | nil => rw [append_nil, resolveLoop]
  | cons c cs ih =>
    have hc : c ≠ slash := fun h => hcs (h ▸ mem_cons_self ..)
    rw [resolveLoop, if_neg hc, ih fun h => hcs (mem_cons_of_mem _ h),
      append_assoc, singleton_append]

theorem pathBuf_eq (hn : NulFree path) (hlen : path.length ≤ 255) :
    pathBuf path = path := by
  unfold pathBuf
  have hall : ∀ c ∈ path, (c != 0) = true := fun c hc => by simpa using hn c hc
  rw [List.takeWhile_eq_self_iff.mpr hall, take_of_length_le hlen]

theorem resolveLoop_name (hslash : slash ∉ name) (h1 : name ≠ [dot])
    (h2 : name ≠ [dot, dot]) (cur : Nat) :
    val 32768 (resolveLoop cur [] name) g d = some (cur, toUpper name) := by
  rw [resolveLoop_noSlash hslash, nil_append, resolveLast, if_neg h2, if_neg h1]
  rfl

theorem resolvePath_name (hn : NulFree name) (hslash : slash ∉ name)
    (hlen : name.length ≤ 255) (h0 : name ≠ []) (h1 : name ≠ [dot]) (h2 : name ≠ [dot, dot]) :
    val 32768 (resolvePath name) g d = some (g.nvfsCwd, toUpper name) := by
  have hbuf := pathBuf_eq hn hlen
  obtain ⟨c, cs, rfl⟩ := List.exists_cons_of_ne_nil h0
  have hc : c ≠ slash := fun h => hslash (h ▸ mem_cons_self ..)
  unfold resolvePath
  rw [hbuf, val_bind DiskProg.ReadOnly.getState]
  show val 32768 (if c = slash then _ else _) g d = _
  rw [if_neg hc]
  exact resolveLoop_name hslash h1 h2 _

theorem resolvePath_rooted (hn : NulFree name) (hslash : slash ∉ name)
    (hlen : name.length ≤ 254) (h1 : name ≠ [dot]) (h2 : name ≠ [dot, dot]) :
    val 32768 (resolvePath (slash :: name)) g d = some (nvfsRootInode, toUpper name) := by
  have hbuf : pathBuf (slash :: name) = slash :: name := by
    refine pathBuf_eq (fun c hc => ?_) (by simp only [length_cons]; omega)
    rcases mem_cons.mp hc with rfl | hc
    · decide
    · exact hn c hc
  unfold resolvePath
  rw [hbuf, val_bind DiskProg.ReadOnly.getState]
  show val 32768 (if slash = slash then _ else _) g d = _
  rw [if_pos rfl]
  exact resolveLoop_name hslash h1 h2 _

/-- The calls that take a name find the one left over. -/
theorem resolveNamed_of_resolvePath (hg : Geometry ib g) (h0 : name ≠ [])
    (h : val 32768 (resolvePath path) g d = some (parent, toUpper name)) :
    val 32768 (resolveNamed path) g d = some (parent, toUpper name) := by
  have hup : toUpper name ≠ [] := fun h => h0 (List.map_eq_nil_iff.mp h)
  unfold resolveNamed
  rw [val_bind DiskProg.ReadOnly.getState]
  show val 32768 (if g.mounted then _ else _) g d = _
  rw [if_pos hg.mounted, val_bind (readOnly_resolvePath _), h]
  simp only
  rw [if_neg hup]
  rfl

theorem resolveNamed_name (hg : Geometry ib g) (hn : NulFree name)
    (hslash : slash ∉ name) (hlen : name.length ≤ 255) (h0 : name ≠ []) (h1 : name ≠ [dot])
    (h2 : name ≠ [dot, dot]) :
    val 32768 (resolveNamed name) g d = some (g.nvfsCwd, toUpper name) :=
  resolveNamed_of_resolvePath hg h0 (resolvePath_name hn hslash hlen h0 h1 h2)

section

variable (hg : Geometry ib g) (hV : Owned Inode.live ib (vol ib d))
  (hs : (vol ib d).tree.Shaped 0)

include hg hV hs

theorem resolveComponent_iff (hcur : (vol ib d).tree.dir cur) (hn : NulFree comp) :
    val 32768 (resolveComponent cur comp) g d = some j ↔ Leads (vol ib d) cur comp j := by
  unfold resolveComponent Leads
  by_cases hdd : comp = [dot, dot]
  · rw [if_pos hdd, if_pos hdd, val_bind (readOnly_findParent _), ← findParent_iff hg hV hs]
    cases val 32768 (findParent cur) g d <;> rfl
  rw [if_neg hdd, if_neg hdd]
  by_cases hd : comp = [dot]
  · rw [if_pos hd, if_pos hd, val_pure, some_inj, eq_comm]
  rw [if_neg hd, if_neg hd, val_bind (readOnly_dirFind _ _),
    ← dirFind_iff hg hV hs hcur hn.toUpper]
  cases hf : val 32768 (dirFind cur (toUpper comp)) g d with
  | none =>
    simp only [reduceCtorEq, and_false, iff_false]
    intro h
    cases h
  | some i =>
    -- an entry leads to an inode of the table, so the inode is read
    have hmem := (dirFind_iff hg hV hs hcur hn.toUpper).mp hf
    have hi := vol_live_lt (hs.kid_live cur i ⟨hcur, _, hmem⟩)
    simp only
    rw [val_bind (readOnly_inodeRead _), val_inodeRead hg hi]
    simp only [some_inj]
    by_cases ht : ((vol ib d).ino i).type = nvfsTypeDir
    · simp only [ht, ne_eq, not_true_eq_false, ↓reduceIte]
      rw [val_pure, some_inj]
      exact ⟨fun h => ⟨h ▸ ht, h⟩, fun h => h.2⟩
    simp only [ne_eq, ht, not_false_eq_true, ↓reduceIte]
    refine iff_of_false (fun h => by cases h) ?_
    rintro ⟨hj, rfl⟩
    exact ht hj

end

section

variable (hg : Geometry ib g) (hV : Owned Inode.live ib (vol ib d))

include hg hV

theorem resolveComponent_dir (hcur : (vol ib d).tree.dir cur)
    (h : val 32768 (resolveComponent cur comp) g d = some j) : (vol ib d).tree.dir j := by
  unfold resolveComponent at h
  split at h
  · rw [val_bind (readOnly_findParent _)] at h
    cases hp : val 32768 (findParent cur) g d with
    | none =>
      rw [hp] at h
      cases h
    | some p =>
      rw [hp] at h
      cases h
      exact findParent_dir hg hV hp
  split at h
  · cases h
    exact hcur
  rw [val_bind (readOnly_dirFind _ _)] at h
  cases hf : val 32768 (dirFind cur (toUpper comp)) g d with
  | none =>
    rw [hf] at h
    cases h
  | some i =>
    rw [hf] at h
    simp only at h
    rw [val_bind (readOnly_inodeRead _)] at h
    cases hread : val 32768 (inodeRead i) g d with
    | none =>
      rw [hread] at h
      cases h
    | some n =>
      obtain ⟨-, rfl⟩ := inodeRead_eq_some hg hread
      rw [hread] at h
      simp only at h
      split at h
      · cases h
      next htype =>
      cases h
      exact not_not.mp htype

theorem resolveLoop_dir (hcur : (vol ib d).tree.dir cur)
    (h : val 32768 (resolveLoop cur seg cs) g d = some r) : (vol ib d).tree.dir r.1 := by
  induction cs generalizing cur seg with
  | nil =>
    unfold resolveLoop resolveLast at h
    split at h
    · rw [val_bind (readOnly_findParent _)] at h
      cases hp : val 32768 (findParent cur) g d with
      | none =>
        rw [hp] at h
        cases h
      | some p =>
        rw [hp] at h
        cases h
        exact findParent_dir hg hV hp
    split at h
    · cases h
      exact hcur
    cases h
    exact hcur
  | cons c cs ih =>
    unfold resolveLoop at h
    split at h
    · split at h
      · exact ih hcur h
      rw [val_bind (readOnly_resolveComponent cur seg)] at h
      cases hn : val 32768 (resolveComponent cur seg) g d with
      | none =>
        rw [hn] at h
        cases h
      | some next =>
        rw [hn] at h
        exact ih (resolveComponent_dir hg hV hcur hn) h
    · exact ih hcur h

section

variable (hroot : (vol ib d).tree.dir 0) (hcwd : (vol ib d).tree.dir g.nvfsCwd)
include hroot hcwd

theorem resolvePath_dir (h : val 32768 (resolvePath path) g d = some r) :
    (vol ib d).tree.dir r.1 := by
  unfold resolvePath at h
  rw [val_bind_getState] at h
  cases hp : pathBuf path with
  | nil =>
    rw [hp] at h
    cases h
    exact hcwd
  | cons c cs =>
    rw [hp] at h
    simp only at h
    split at h
    · exact resolveLoop_dir hg hV hroot h
    · exact resolveLoop_dir hg hV hcwd h

theorem resolveNamed_dir (h : val 32768 (resolveNamed path) g d = some (parent, name)) :
    (vol ib d).tree.dir parent := by
  unfold resolveNamed at h
  rw [val_bind_getState, hg.mounted, if_pos rfl, val_bind (readOnly_resolvePath _)] at h
  cases hr : val 32768 (resolvePath path) g d with
  | none =>
    rw [hr] at h
    cases h
  | some r =>
    rw [hr] at h
    simp only at h
    split at h
    · cases h
    obtain ⟨rfl, -⟩ := Prod.mk.inj (some.inj h)
    exact resolvePath_dir hg hV hroot hcwd hr

end

end

/-- Two volumes with the same directories under the same names; they may differ in
    their files. -/
structure SameDirs (V W : Vol) : Prop where
  dir : ∀ i, W.tree.dir i ↔ V.tree.dir i
  kids : ∀ p x i, V.tree.dir p → V.tree.dir i → ((x, i) ∈ W.tree.kids p ↔ (x, i) ∈ V.tree.kids p)

namespace SameDirs

theorem child (h : SameDirs V W) {p : Nat} (hi : V.tree.dir i) :
    W.tree.Child p i ↔ V.tree.Child p i := by
  unfold Tree.Child
  rw [h.dir p]
  exact and_congr_right fun hp => exists_congr fun x => h.kids p x i hp hi

theorem leads (h : SameDirs V W) (hcur : V.tree.dir cur) :
    Leads W cur comp j ↔ Leads V cur comp j := by
  unfold Leads
  split
  · exact h.child hcur
  split
  · rfl
  rw [h.dir j]
  exact and_congr_right fun hj => h.kids cur _ j hcur hj

variable (hg : Geometry ib g) (hV : Owned Inode.live ib (vol ib d))
  (hs : (vol ib d).tree.Shaped 0) (hg' : Geometry ib g') (hV' : Owned Inode.live ib (vol ib d'))
  (hs' : (vol ib d').tree.Shaped 0) (h : SameDirs (vol ib d) (vol ib d'))

include hg hV hs hg' hV' hs' h

theorem resolveLoop (hcs : NulFree cs) (hcur : (vol ib d).tree.dir cur) (hseg : NulFree seg) :
    val 32768 (resolveLoop cur seg cs) g' d' = val 32768 (resolveLoop cur seg cs) g d := by
  induction cs generalizing cur seg with
  | nil =>
    have hparent : val 32768 (findParent cur) g' d' = val 32768 (findParent cur) g d := by
      ext p
      exact (findParent_iff hg' hV' hs').trans
        ((h.child hcur).trans (findParent_iff hg hV hs).symm)
    unfold Nvfs.resolveLoop resolveLast
    split
    · rw [val_bind (readOnly_findParent _), val_bind (readOnly_findParent _), hparent]
      cases val 32768 (findParent cur) g d <;> rfl
    · split <;> rfl
  | cons c cs ih =>
    have hcs' : NulFree cs := fun b hb => hcs b (mem_cons_of_mem _ hb)
    have hempty : NulFree ([] : List UInt8) := fun b hb => by cases hb
    unfold Nvfs.resolveLoop
    split
    · split
      · exact ih hcs' hcur hempty
      have hcomp : val 32768 (resolveComponent cur seg) g' d'
          = val 32768 (resolveComponent cur seg) g d := by
        ext j
        exact (resolveComponent_iff hg' hV' hs' ((h.dir cur).mpr hcur) hseg).trans
          ((h.leads hcur).trans (resolveComponent_iff hg hV hs hcur hseg).symm)
      rw [val_bind (readOnly_resolveComponent cur seg),
        val_bind (readOnly_resolveComponent cur seg), hcomp]
      cases hn : val 32768 (resolveComponent cur seg) g d with
      | none => rfl
      | some next =>
        have hlead := (resolveComponent_iff hg hV hs hcur hseg).mp hn
        exact ih hcs' (hlead.dir hcur) hempty
    refine ih hcs' hcur fun b hb => ?_
    rcases mem_append.mp hb with hb | hb
    · exact hseg b hb
    rw [mem_singleton.mp hb]
    exact hcs c mem_cons_self

theorem resolvePath (hcwd : (vol ib d).tree.dir g.nvfsCwd) (heq : g'.nvfsCwd = g.nvfsCwd)
    (path : List UInt8) :
    val 32768 (resolvePath path) g' d' = val 32768 (resolvePath path) g d := by
  have hbuf := pathBuf_nulFree path
  have hempty : NulFree ([] : List UInt8) := fun b hb => by cases hb
  unfold Nvfs.resolvePath
  rw [val_bind_getState, val_bind_getState, heq]
  cases hp : pathBuf path with
  | nil => rfl
  | cons c cs =>
    rw [hp] at hbuf
    simp only
    split
    · exact h.resolveLoop hg hV hs hg' hV' hs' (fun b hb => hbuf b (mem_cons_of_mem _ hb))
        hs.root_dir hempty
    · exact h.resolveLoop hg hV hs hg' hV' hs' hbuf hcwd hempty

theorem resolveNamed (hcwd : (vol ib d).tree.dir g.nvfsCwd) (heq : g'.nvfsCwd = g.nvfsCwd)
    (path : List UInt8) :
    val 32768 (resolveNamed path) g' d' = val 32768 (resolveNamed path) g d := by
  unfold Nvfs.resolveNamed
  rw [val_bind_getState, val_bind_getState, hg.mounted, hg'.mounted, if_pos rfl,
    val_bind (readOnly_resolvePath _), val_bind (readOnly_resolvePath _),
    h.resolvePath hg hV hs hg' hV' hs' hcwd heq]
  cases val 32768 (Nvfs.resolvePath path) g d with
  | none => rfl
  | some r =>
    simp only
    split <;> rfl

end SameDirs

export Vol (kids_of_dir live_of_dir)

end Noverix.Nvfs
