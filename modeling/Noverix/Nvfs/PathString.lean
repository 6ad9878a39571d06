/-
  The absolute path of a directory, as `nvfs_path_string` writes it, and its way
  back through `nvfs_chdir`.

  The string is built from at most 16 components of at most 27 characters, into
  a buffer whose size is taken as an `int`.  Within these bounds it is the
  absolute path.  `nvfs_chdir` then walks all its components; it comes to the
  directory again if and only if every name on the way is one that a component
  of a path can spell (`Plain`).
-/

import Noverix.Nvfs.FaultDir
import Noverix.Nvfs.GrowthRuns
import Noverix.Nvfs.PathWalk

namespace Noverix.Nvfs

open Lib
open Lib.DiskProg (must exec must_bind must_mono)

/-! ## The text -/

/-- The absolute path with the given names. -/
def absolutePath (names : List (List UInt8)) : List UInt8 := slash :: [slash].intercalate names

theorem putName_eq (limit : Int) (out name : List UInt8) :
    putName limit out name = out ++ name.take (limit - out.length).toNat := by
  induction name generalizing out with
  | nil => rw [List.take_nil, append_nil, putName]
  | cons c cs ih =>
    unfold putName
    split
    · next hroom =>
      have hm : (limit - out.length).toNat = (limit - (out ++ [c]).length).toNat + 1 := by
        rw [length_append, length_singleton]
        omega
      rw [ih, hm, take_succ_cons, append_assoc]
      rfl
    · next hfull =>
      rw [show (limit - out.length).toNat = 0 by omega, take_zero, append_nil]

/-- As much of the text is written as there is room for. -/
theorem putNames_eq (limit : Int) (out : List UInt8) (names : List (List UInt8)) :
    putNames limit out names
      = out ++ ([slash].intercalate names).take (limit - out.length).toNat := by
  induction names generalizing out with
  | nil => rw [List.intercalate_nil, List.take_nil, append_nil, putNames]
  | cons name names ih =>
    unfold putNames
    split
    · next hroom =>
      cases names with
      | nil =>
        rw [List.intercalate_singleton]
        exact putName_eq limit out name
      | cons n ns =>
        rw [List.intercalate_cons_cons, append_assoc, putName_eq]
        by_cases hlt : name.length < (limit - out.length).toNat
        · -- the component is complete, and a slash follows
          have hm : (limit - out.length).toNat - name.length
              = (limit - (out ++ name ++ [slash]).length).toNat + 1 := by
            simp only [length_append, length_singleton]
            omega
          have hname : name.take (limit - out.length).toNat = name :=
            take_of_length_le (by omega)
          rw [hname, if_pos ⟨cons_ne_nil _ _, by rw [length_append]; omega⟩, ih,
            List.take_append, hname, hm]
          simp only [append_assoc, singleton_append, take_succ_cons]
        · have hfull : ¬ ((out ++ name.take (limit - out.length).toNat).length : Int) < limit := by
            rw [length_append, length_take]
            omega
          rw [if_neg fun h => hfull h.2, putNames, if_neg hfull,
            List.take_append_of_le_length (by omega)]
    · next hfull =>
      rw [show (limit - out.length).toNat = 0 by omega, take_zero, append_nil]

theorem length_intercalate_slash (names : List (List UInt8)) :
    ([slash].intercalate names).length = (names.map List.length).sum + (names.length - 1) := by
  induction names with
  | nil => rfl
  | cons name names ih =>
    cases names with
    | nil => simp
    | cons n ns =>
      rw [List.intercalate_cons_cons, length_append, length_append, ih]
      simp only [map_cons, List.sum_cons, length_cons, length_nil]
      omega

variable {names : List (List UInt8)}

theorem intercalate_eq_nil (h : [slash].intercalate names = []) :
    ∀ x ∈ names, x = [] := by
  cases names with
  | nil => exact nofun
  | cons name names =>
    cases names with
    | nil =>
      rw [List.intercalate_singleton] at h
      exact fun x hx => (mem_singleton.mp hx).trans h
    | cons n ns =>
      simp at h

/-- The components that `nvfs_path_string` keeps of a path: the last 16, cut to 27 characters. -/
def keptNames (names : List (List UInt8)) : List (List UInt8) :=
  (names.drop (names.length - maxComponents)).map (List.take nvfsMaxName)

section

variable {names : List (List UInt8)}

theorem sum_take_le (names : List (List UInt8)) :
    ((names.map (List.take nvfsMaxName)).map List.length).sum ≤ (names.map List.length).sum := by
  induction names with
  | nil => exact le_rfl
  | cons name names ih =>
    simp only [map_cons, List.sum_cons, length_take]
    omega

theorem length_le_of_sum_take
    (h : (names.map List.length).sum
      ≤ ((names.map (List.take nvfsMaxName)).map List.length).sum) :
    ∀ x ∈ names, x.length ≤ nvfsMaxName := by
  induction names with
  | nil => exact nofun
  | cons name names ih =>
    have hle := sum_take_le names
    simp only [map_cons, List.sum_cons, length_take] at h
    intro x hx
    rcases mem_cons.mp hx with rfl | hx
    · omega
    · exact ih (by omega) x hx

theorem keptNames_eq (hdepth : names.length ≤ maxComponents)
    (hlen : ∀ x ∈ names, x.length ≤ nvfsMaxName) : keptNames names = names := by
  unfold keptNames
  rw [Nat.sub_eq_zero_of_le hdepth, drop_zero]
  conv_rhs => rw [← List.map_id names]
  exact map_congr_left fun x hx => take_of_length_le (hlen x hx)

/-- A text of the kept components is long enough only if nothing was dropped or cut. -/
theorem fits_of_length_le (h : ([slash].intercalate names).length
      ≤ ([slash].intercalate (keptNames names)).length) :
    names.length ≤ maxComponents ∧ ∀ x ∈ names, x.length ≤ nvfsMaxName := by
  rw [length_intercalate_slash, length_intercalate_slash] at h
  unfold keptNames at h
  have hcut := sum_take_le (names.drop (names.length - maxComponents))
  have hdrop : ((names.drop (names.length - maxComponents)).map List.length).sum
      ≤ (names.map List.length).sum := by
    conv_rhs => rw [← List.take_append_drop (names.length - maxComponents) names]
    rw [map_append, List.sum_append]
    omega
  rw [length_map, List.length_drop] at h
  have hdepth : names.length ≤ maxComponents := by
    simp only [maxComponents] at h hcut hdrop ⊢
    omega
  refine ⟨hdepth, length_le_of_sum_take ?_⟩
  rw [Nat.sub_eq_zero_of_le hdepth, drop_zero] at h
  omega

end

/-! ## The names on the way up -/

theorem Vol.kids_nulFree {V : Vol} {p i : Nat} {x : List UInt8} (h : (x, i) ∈ V.tree.kids p) :
    NulFree x := by
  have hdir : V.tree.dir p := by
    by_contra hdir
    rw [show V.tree.kids p = [] from if_neg hdir] at h
    cases h
  rw [kids_of_dir hdir] at h
  obtain ⟨b, -, hb⟩ := mem_flatMap.mp h
  obtain ⟨e, -, he⟩ := mem_filterMap.mp hb
  unfold slotEntry at he
  split at he
  · cases he
  · cases he
    exact slotName_nulFree _ _

theorem pathTo_nulFree {V : Vol} {i : Nat}
    (h : V.tree.PathTo nvfsRootInode names i) : ∀ x ∈ names, NulFree x := by
  induction h with
  | root => exact nofun
  | down _ _ hx ih =>
    intro y hy
    rcases mem_append.mp hy with hy | hy
    · exact ih y hy
    · rw [mem_singleton.mp hy]
      exact Vol.kids_nulFree hx

theorem nulFree_intercalate (h : ∀ x ∈ names, NulFree x) :
    NulFree ([slash].intercalate names) := by
  induction names with
  | nil => exact nofun
  | cons name names ih =>
    have hname := h name mem_cons_self
    cases names with
    | nil =>
      rw [List.intercalate_singleton]
      exact hname
    | cons n ns =>
      rw [List.intercalate_cons_cons]
      intro c hc
      rcases mem_append.mp hc with hc | hc
      · rcases mem_append.mp hc with hc | hc
        · exact hname c hc
        · rw [mem_singleton.mp hc]
          decide
      · exact ih (fun x hx => h x (mem_cons_of_mem _ hx)) c hc

namespace TreeOnDisk

variable {s : State} {D : Device} (hs : TreeOnDisk s) (hserved : Served D s.g s.d)
  {Q : Option (List UInt8) → Globals → Disk → Prop}

theorem must_findNameBlocks {cur : Nat} (h0 : cur ≠ 0) {bs : List Nat}
    (hbs : ∀ b ∈ bs, ¬ D.bad (blockSector s.g b))
    (hok : Q (((bs.flatMap fun b => sectorEntries ((rawView s.g s.d).blk b)).find?
      fun e => e.2 == cur).map fun e => e.1.take nvfsMaxName) s.g s.d) :
    must D (findNameBlocks cur bs) Q s.g s.d := by
  induction bs with
  | nil => exact hok
  | cons b bs ih =>
    have hname : nameOfInode ((rawView s.g s.d).blk b) cur
        = ((sectorEntries ((rawView s.g s.d).blk b)).find? fun e => e.2 == cur).map
            fun e => e.1.take nvfsMaxName := by
      rw [find_sectorEntries_inode _ h0, Option.map_map]
      rfl
    unfold findNameBlocks
    rw [must_bind]
    refine must_readBlock_raw (fun h => absurd h (hbs b mem_cons_self)) ?_
    rw [flatMap_cons, find?_append] at hok
    simp only [hname]
    cases hf : (sectorEntries ((rawView s.g s.d).blk b)).find? fun e => e.2 == cur with
    | some e =>
      rw [hf] at hok
      exact hok
    | none =>
      rw [hf, none_or] at hok
      exact ih (fun c hc => hbs c (mem_cons_of_mem _ hc)) hok

include hs hserved

theorem must_findName {p i : Nat} {x : List UInt8} (hp : (rawView s.g s.d).tree.dir p)
    (hx : (x, i) ∈ (rawView s.g s.d).tree.kids p)
    (hok : Q (some (x.take nvfsMaxName)) s.g s.d) : must D (findName p i) Q s.g s.d := by
  have hchild : (rawView s.g s.d).tree.Child p i := ⟨hp, x, hx⟩
  have h0 : i ≠ nvfsRootInode := fun heq => hs.shaped.kid_ne_root p (heq ▸ hchild)
  have hfind : ((rawView s.g s.d).tree.kids p).find? (fun e => e.2 == i) = some (x, i) := by
    cases hf : ((rawView s.g s.d).tree.kids p).find? fun e => e.2 == i with
    | none => exact absurd (find?_eq_none.mp hf _ hx) (by simp)
    | some e =>
      have hi : e.2 = i := by simpa using find?_some hf
      have hmem : (e.1, i) ∈ (rawView s.g s.d).tree.kids p :=
        hi ▸ mem_of_find?_eq_some hf
      rw [← hs.shaped.rooted.entry_unique hp hmem hx, ← hi]
  unfold findName
  rw [must_bind]
  refine hserved.must_inodeRead (rawView_live_lt (live_of_dir hp)) ?_
  simp only
  rw [must_bind]
  refine hserved.must_extentLoadAll hp ?_
  simp only
  refine must_findNameBlocks h0
    (fun b hb => hserved.blocks p hp b (mem_append_left _ hb)) ?_
  rw [kids_of_dir hp] at hfind
  unfold Vol.entries Vol.blocksOf at hfind
  rw [hfind]
  exact hok

variable {names : List (List UInt8)} {rounds : Nat}

/-- Climbing from a node collects the components that are kept of its path. -/
theorem must_climb {i : Nat}
    (hpath : (rawView s.g s.d).tree.PathTo nvfsRootInode names i) {found : List (List UInt8)}
    (hfound : found.length ≤ maxComponents)
    (hrounds : maxComponents < rounds + found.length) :
    must D (climb rounds i found) (fun r _ _ => r = some
      ((names.drop (names.length - (maxComponents - found.length))).map (List.take nvfsMaxName)
        ++ found)) s.g s.d := by
  obtain ⟨rounds, rfl⟩ : ∃ k, rounds = k + 1 := ⟨rounds - 1, by omega⟩
  induction hpath generalizing found rounds with
  | root =>
    unfold climb
    rw [if_neg fun h => h.1 rfl, List.drop_nil]
    exact rfl
  | @down names p i x _ hp hx ih =>
    have hchild : (rawView s.g s.d).tree.Child p i := ⟨hp, x, hx⟩
    have h0 : i ≠ nvfsRootInode := fun heq => hs.shaped.kid_ne_root p (heq ▸ hchild)
    unfold climb
    by_cases hroom : found.length < maxComponents
    · rw [if_pos ⟨h0, hroom⟩, must_bind]
      refine hs.must_findParent hserved i fun r hr => ?_
      rw [(hr p).mpr hchild]
      simp only
      rw [must_bind]
      refine hs.must_findName hserved hp hx ?_
      simp only
      obtain ⟨k, rfl⟩ : ∃ k, rounds = k + 1 := ⟨rounds - 1, by omega⟩
      have hdrop : (names ++ [x]).drop
            ((names ++ [x]).length - (maxComponents - found.length))
          = names.drop (names.length - (maxComponents - (x.take nvfsMaxName :: found).length))
            ++ [x] := by
        have hk : (names ++ [x]).length - (maxComponents - found.length)
            = names.length - (maxComponents - (x.take nvfsMaxName :: found).length) := by
          simp only [length_append, length_cons, length_nil]
          omega
        rw [hk, List.drop_append_of_le_length (Nat.sub_le ..)]
      have hfound' : (x.take nvfsMaxName :: found).length ≤ maxComponents := hroom
      refine must_mono (fun r _ _ h => ?_)
        (ih hfound' k (by simp only [length_cons]; omega))
      rw [h, hdrop, map_append, append_assoc]
      rfl
    · rw [if_neg fun h => hroom h.2]
      have hzero : maxComponents - found.length = 0 := by omega
      rw [hzero, Nat.sub_zero, List.drop_length]
      exact rfl

theorem must_nvfsPathString {i : Nat}
    (hpath : (rawView s.g s.d).tree.PathTo nvfsRootInode names i) {size : UInt32}
    (hsize : 2 ≤ size.toNat) (hrounds : maxComponents < rounds) :
    must D (nvfsPathString rounds i size) (fun r _ _ =>
      r = some (some (putNames (textLimit size) [slash] (keptNames names)))) s.g s.d := by
  unfold nvfsPathString
  rw [if_neg (by rw [UInt32.lt_iff_toNat_lt]; exact Nat.not_lt.mpr hsize)]
  by_cases h0 : i = nvfsRootInode
  · subst h0
    rw [if_pos rfl, hpath.unique hs.shaped.rooted .root]
    exact rfl
  rw [if_neg h0, must_bind]
  have hnone : ([] : List (List UInt8)).length ≤ maxComponents := Nat.zero_le _
  have hclimb := hs.must_climb hserved hpath hnone hrounds
  refine must_mono (fun r _ _ h => ?_) hclimb
  rw [h, append_nil]
  exact rfl

end TreeOnDisk

/-! ## The way back -/

section

variable {T : Tree (List UInt8) Nat} {R : Nat → List UInt8 → Nat → Prop} {cur i j : Nat}
  {comps : List (List UInt8)} {comp : List UInt8}

theorem walks_append_iff {rest : List (List UInt8)} :
    Walks R cur (comps ++ rest) j ↔ ∃ i, Walks R cur comps i ∧ Walks R i rest j := by
  induction comps generalizing cur with
  | nil => simp only [nil_append, walks_nil_iff, exists_eq_left]
  | cons c cs ih =>
    rw [cons_append, walks_cons_iff]
    simp only [ih, walks_cons_iff]
    constructor
    · rintro ⟨k, hk, i, hi, hj⟩
      exact ⟨i, ⟨k, hk, hi⟩, hj⟩
    · rintro ⟨i, ⟨k, hk, hi⟩, hj⟩
      exact ⟨k, hk, i, hi, hj⟩

theorem walks_snoc_iff :
    Walks R cur (comps ++ [comp]) j ↔ ∃ i, Walks R cur comps i ∧ R i comp j := by
  rw [walks_append_iff]
  simp only [walks_cons_iff, walks_nil_iff, exists_eq_right']

/-- Where `nvfs_chdir` goes from what `resolve_path` leaves. -/
def Lands (T : Tree (List UInt8) Nat) (parent : Nat) (name : List UInt8) (j : Nat) : Prop :=
  if name = [] then j = parent else T.dir j ∧ (nameKey name, j) ∈ T.kids parent

theorem enters_iff_lands : Enters T i comp j ↔
    ∃ parent name, Denotes T i comp parent name ∧ Lands T parent name j := by
  unfold Enters Denotes Lands
  by_cases h1 : comp = [] ∨ comp = [dot]
  · simp only [if_pos h1]
    constructor
    · rintro rfl
      exact ⟨j, [], ⟨rfl, rfl⟩, by rw [if_pos rfl]⟩
    · rintro ⟨parent, name, ⟨rfl, rfl⟩, h⟩
      rwa [if_pos rfl] at h
  simp only [if_neg h1]
  by_cases h2 : comp = [dot, dot]
  · simp only [if_pos h2]
    constructor
    · exact fun h => ⟨j, [], ⟨h, rfl⟩, by rw [if_pos rfl]⟩
    · rintro ⟨parent, name, ⟨hchild, rfl⟩, h⟩
      exact h ▸ hchild
  simp only [if_neg h2]
  have hne : toUpper comp ≠ [] := fun h => h1 (.inl (List.map_eq_nil_iff.mp h))
  constructor
  · exact fun h => ⟨i, _, ⟨rfl, rfl⟩, by rw [if_neg hne]; exact h⟩
  · rintro ⟨parent, name, ⟨rfl, rfl⟩, h⟩
    rwa [if_neg hne] at h

theorem walks_iff_lands (hne : comps ≠ []) : Walks (Enters T) cur comps j ↔
    ∃ parent name, Leaves T (Enters T) cur comps parent name ∧ Lands T parent name j := by
  have hlast : comps.dropLast ++ [comps.getLastD []] = comps := by
    rw [List.getLastD_eq_getLast?, List.getLast?_eq_getLast_of_ne_nil hne]
    exact List.dropLast_append_getLast hne
  unfold Leaves
  conv_lhs => rw [← hlast, walks_snoc_iff]
  simp only [enters_iff_lands]
  constructor
  · rintro ⟨i, hwalk, parent, name, hden, hland⟩
    exact ⟨parent, name, ⟨i, hwalk, hden⟩, hland⟩
  · rintro ⟨parent, name, ⟨i, hwalk, hden⟩, hland⟩
    exact ⟨i, hwalk, parent, name, hden, hland⟩

theorem Walks.dir (h : Walks (Enters T) cur comps j) (hcur : T.dir cur) : T.dir j := by
  induction h with
  | nil => exact hcur
  | cons hstep _ ih => exact ih (hstep.dir hcur)

theorem Leaves.dir {parent : Nat} {name : List UInt8}
    (h : Leaves T (Enters T) cur comps parent name) (hcur : T.dir cur) : T.dir parent := by
  obtain ⟨j, hwalk, hden⟩ := h
  have hj := hwalk.dir hcur
  unfold Denotes at hden
  split at hden
  · exact hden.1 ▸ hj
  split at hden
  · exact hden.1.1
  · exact hden.1 ▸ hj

end

variable {s : State}

/-- `nvfs_chdir` goes where the components of its path lead. -/
theorem TreeOnDisk.must_nvfsChdir {D : Device} (hs : TreeOnDisk s)
    (hserved : Served D s.g s.d) {path : List UInt8} (hn : NulFree path) (h0 : path ≠ [])
    (hlen : path.length ≤ 255) :
    must D (nvfsChdir path) (fun r g' _ => (∀ j, r = some j ↔
      Walks (Enters (rawView s.g s.d).tree) (startOf s.g.nvfsCwd path) (components path) j) ∧
      ∀ j, r = some j → g'.nvfsCwd = j) s.g s.d := by
  have hstart : (rawView s.g s.d).tree.dir (startOf s.g.nvfsCwd path) := by
    unfold startOf
    split
    · exact hs.shaped.root_dir
    · exact hs.cwd
  have hall : path.takeWhile (· != 0) = path :=
    List.takeWhile_eq_self_iff.mpr fun c hc => by simpa using hn c hc
  have hcomps : components path ≠ [] := List.splitOn_ne_nil slash path
  unfold nvfsChdir
  rw [must_bind, must_getState, if_pos hs.mounted, hall, if_neg h0,
    must_bind]
  have hboth := must_and (hs.must_resolvePath hserved hn hlen) (Nvfs.must_resolvePath path)
  refine must_of_readOnly (readOnly_resolvePath path) hboth fun r hr => ?_
  obtain ⟨hr, hname⟩ := hr
  simp only [walks_iff_lands hcomps]
  cases r with
  | none =>
    refine ⟨fun j => iff_of_false nofun ?_, nofun⟩
    rintro ⟨parent, name, hleaves, -⟩
    exact absurd ((hr parent name).mpr hleaves) nofun
  | some r =>
    obtain ⟨parent, name⟩ := r
    have hleaves := (hr parent name).mp rfl
    have hiff : ∀ j, (∃ parent name, Leaves (rawView s.g s.d).tree
          (Enters (rawView s.g s.d).tree) (startOf s.g.nvfsCwd path) (components path) parent name ∧
        Lands (rawView s.g s.d).tree parent name j) ↔
          Lands (rawView s.g s.d).tree parent name j := by
      intro j
      constructor
      · rintro ⟨p, n, h, hland⟩
        obtain ⟨rfl, rfl⟩ := Prod.mk.inj (some.inj ((hr p n).mpr h))
        exact hland
      · exact fun hland => ⟨parent, name, hleaves, hland⟩
    simp only [hiff]
    by_cases hempty : name = []
    · subst hempty
      unfold Lands
      simp only [if_true]
      refine ⟨fun j => ?_, fun j h => some.inj h⟩
      exact ⟨fun h => (some.inj h).symm, fun h => h ▸ rfl⟩
    unfold Lands
    simp only [if_neg hempty]
    rw [must_bind]
    have hparent := hleaves.dir hstart
    refine hs.must_dirFind hserved hparent (hname _ rfl) fun r hfind => ?_
    cases r with
    | none =>
      refine ⟨fun j => iff_of_false nofun ?_, nofun⟩
      rintro ⟨-, hmem⟩
      exact absurd ((hfind j).mpr hmem) nofun
    | some i =>
      have hmem := (hfind i).mp rfl
      simp only
      rw [must_bind]
      refine hserved.must_inodeRead (hs.kid_lt hparent hmem) ?_
      by_cases ht : ((rawView s.g s.d).ino i).type = nvfsTypeDir
      · simp only [ht, ne_eq, not_true_eq_false, if_false]
        refine ⟨fun j => ?_, fun j h => some.inj h⟩
        rw [← hfind j]
        refine ⟨fun h => ⟨?_, h⟩, And.right⟩
        cases h
        exact ht
      · simp only [ht, ne_eq, not_false_eq_true, if_true]
        refine ⟨fun j => iff_of_false nofun ?_, nofun⟩
        rintro ⟨hdir, hj⟩
        obtain rfl := some.inj ((hfind j).mpr hj)
        exact ht hdir

/-! ## Names that a path can spell -/

/-- A name that a component of a path can spell: it is not taken for a directory itself, holds
    no slash, and is what the driver makes of it. -/
structure Plain (x : List UInt8) : Prop where
  ne_nil : x ≠ []
  ne_dot : x ≠ [dot]
  ne_dots : x ≠ [dot, dot]
  slash : slash ∉ x
  upper : toUpper x = x

theorem upperByte_idem (c : UInt8) : upperByte (upperByte c) = upperByte c := by
  unfold upperByte
  split
  · next hc =>
      have hsub : (c - 32).toNat = c.toNat - 32 :=
        UInt8.toNat_sub_of_le c 32 (UInt8.le_trans (by decide) hc.1)
      have h122 : c.toNat ≤ 122 := hc.2
      refine if_neg fun h => ?_
      have h97 : 97 ≤ (c - 32).toNat := h.1
      omega
  · rfl

variable {comp : List UInt8}

theorem toUpper_eq_dot : toUpper comp = [dot] ↔ comp = [dot] := by
  unfold toUpper
  rw [List.map_eq_singleton_iff]
  simp only [upperByte_eq_iff (show dot < 65 by decide)]
  constructor
  · rintro ⟨c, rfl, rfl⟩
    rfl
  · rintro rfl
    exact ⟨_, rfl, rfl⟩

theorem toUpper_eq_dots : toUpper comp = [dot, dot] ↔ comp = [dot, dot] := by
  unfold toUpper
  rw [List.map_eq_cons_iff]
  simp only [List.map_eq_singleton_iff, upperByte_eq_iff (show dot < 65 by decide)]
  constructor
  · rintro ⟨c, l, rfl, rfl, e, rfl, rfl⟩
    rfl
  · rintro rfl
    exact ⟨_, _, rfl, rfl, _, rfl, rfl⟩

theorem nameKey_eq_iff {name x : List UInt8} (hx : x.length < nvfsMaxName) :
    nameKey name = x ↔ name = x := by
  constructor
  · intro h
    have hlen := congrArg List.length h
    rw [nameKey_length] at hlen
    simp only [nvfsMaxName] at hx
    rw [← h]
    exact (take_of_length_le (by simp only [nvfsMaxName]; omega)).symm
  · rintro rfl
    exact take_of_length_le (Nat.le_of_lt hx)

theorem plain_nameKey (h0 : comp ≠ []) (h1 : comp ≠ [dot])
    (h2 : comp ≠ [dot, dot]) (hslash : slash ∉ comp) : Plain (nameKey (toUpper comp)) where
  ne_nil h := h0 (List.map_eq_nil_iff.mp ((nameKey_eq_iff (by decide)).mp h))
  ne_dot h := h1 (toUpper_eq_dot.mp ((nameKey_eq_iff (by decide)).mp h))
  ne_dots h := h2 (toUpper_eq_dots.mp ((nameKey_eq_iff (by decide)).mp h))
  slash h := hslash ((mem_toUpper_iff (by decide)).mp (mem_of_mem_take h))
  upper := by
    unfold nameKey toUpper
    rw [map_take, map_map]
    exact congrArg _ (map_congr_left fun c _ => upperByte_idem c)

section

variable {T : Tree (List UInt8) Nat} {cur j : Nat}

/-- Every name on the way to the node is of this kind. -/
def PlainPath (T : Tree (List UInt8) Nat) (i : Nat) : Prop :=
  ∀ names, T.PathTo nvfsRootInode names i → ∀ x ∈ names, Plain x

theorem Enters.plainPath (hT : T.Rooted nvfsRootInode) {comp : List UInt8}
    (hslash : Nvfs.slash ∉ comp) (hdir : T.dir cur) (hcur : PlainPath T cur)
    (h : Enters T cur comp j) : PlainPath T j := by
  unfold Enters at h
  by_cases h1 : comp = [] ∨ comp = [dot]
  · rw [if_pos h1] at h
    exact h ▸ hcur
  by_cases h2 : comp = [dot, dot]
  · -- the way to the parent is a part of the way to the child
    rw [if_neg h1, if_pos h2] at h
    obtain ⟨hj, x, hx⟩ := h
    exact fun names hpath y hy =>
      hcur _ (.down hpath hj hx) y (mem_append_left _ hy)
  rw [if_neg h1, if_neg h2] at h
  obtain ⟨-, hmem⟩ := h
  intro names hpath y hy
  cases hpath with
  | root => cases hy
  | down hpath hp hx =>
    obtain rfl := hT.parent_unique _ _ _ ⟨hp, _, hx⟩ ⟨hdir, _, hmem⟩
    rcases mem_append.mp hy with hy | hy
    · exact hcur _ hpath y hy
    · rw [mem_singleton.mp hy, hT.entry_unique hp hx hmem]
      exact plain_nameKey (fun h => h1 (Or.inl h)) (fun h => h1 (Or.inr h)) h2 hslash

theorem Walks.plainPath (hT : T.Rooted nvfsRootInode) {comps : List (List UInt8)}
    (hslash : ∀ c ∈ comps, Nvfs.slash ∉ c) (hdir : T.dir cur) (hcur : PlainPath T cur)
    (h : Walks (Enters T) cur comps j) : PlainPath T j := by
  induction h with
  | nil => exact hcur
  | cons hstep _ ih =>
    refine ih (fun c hc => hslash c (mem_cons_of_mem _ hc)) (hstep.dir hdir) ?_
    exact hstep.plainPath hT (hslash _ mem_cons_self) hdir hcur

variable {names : List (List UInt8)}

theorem walks_of_plain (hpath : T.PathTo nvfsRootInode names j)
    (hdir : T.dir j) (hplain : ∀ x ∈ names, Plain x ∧ x.length ≤ nvfsMaxName) :
    Walks (Enters T) nvfsRootInode names j := by
  induction hpath with
  | root => exact .nil _
  | @down names p j x _ hp hx ih =>
    rw [walks_snoc_iff]
    refine ⟨p, ih hp fun y hy => hplain y (mem_append_left _ hy), ?_⟩
    obtain ⟨hx', hlen⟩ := hplain x (mem_append_right _ (mem_singleton_self x))
    unfold Enters
    rw [if_neg fun h => h.elim hx'.ne_nil hx'.ne_dot, if_neg hx'.ne_dots, hx'.upper]
    refine ⟨hdir, ?_⟩
    rw [show nameKey x = x from take_of_length_le hlen]
    exact hx

theorem components_absolutePath (h : ∀ x ∈ names, Nvfs.slash ∉ x)
    (hne : names ≠ []) : components (absolutePath names) = [] :: names := by
  unfold components absolutePath
  rw [show Nvfs.slash :: [Nvfs.slash].intercalate names
      = [] ++ Nvfs.slash :: [Nvfs.slash].intercalate names from rfl,
    List.splitOn_append_cons_self_of_not_mem not_mem_nil, List.splitOn_intercalate _ h hne]

/-- An absolute path leads back to its directory exactly if it can be spelled. -/
theorem walks_absolutePath_iff (hT : T.Rooted nvfsRootInode)
    (hpath : T.PathTo nvfsRootInode names j) (hdir : T.dir j)
    (hlen : ∀ x ∈ names, x.length ≤ nvfsMaxName) :
    Walks (Enters T) nvfsRootInode (components (absolutePath names)) j ↔ ∀ x ∈ names, Plain x := by
  constructor
  · intro h
    have hroot : PlainPath T nvfsRootInode := fun names hnames => by
      rw [hnames.unique hT .root]
      exact nofun
    exact h.plainPath hT (fun c hc => slash_notMem_components hc) hT.root_dir hroot names hpath
  · intro h
    by_cases hne : names = []
    · subst hne
      rw [show components (absolutePath []) = [[], []] from rfl, hpath.eq_root]
      exact .cons (enters_empty.mpr rfl) (.cons (enters_empty.mpr rfl) (.nil _))
    rw [components_absolutePath (fun x hx => (h x hx).slash) hne]
    exact .cons (enters_empty.mpr rfl)
      (walks_of_plain hpath hdir fun x hx => ⟨h x hx, hlen x hx⟩)

end

/-! ## The round trip -/

/-- `nvfs_path_string` writes the absolute path, and `nvfs_chdir` leads back along it. -/
def RoundTrip (fl : Faults) (s : State) (d : Nat) (names : List (List UInt8)) (size : UInt32) :
    Prop :=
  (∀ rounds, maxComponents < rounds →
    (exec fl (nvfsPathString rounds d size) s.g s.d).1 = some (some (absolutePath names))) ∧
  ((absolutePath names).length ≤ 255 →
    (exec fl (nvfsChdir (absolutePath names)) s.g s.d).1 = some d ∧
      (exec fl (nvfsChdir (absolutePath names)) s.g s.d).2.1.nvfsCwd = d)

section

variable {s : State} {fl : Faults} {d : Nat} {names : List (List UInt8)} {size : UInt32}

theorem textLimit_of_lt (h : size.toNat < 2 ^ 31) : textLimit size = size.toNat - 1 := by
  unfold textLimit
  rw [if_pos h]

theorem textLimit_neg (h : ¬ size.toNat < 2 ^ 31) : textLimit size ≤ 0 := by
  have hlt := size.toNat_lt
  unfold textLimit
  rw [if_neg h]
  omega

theorem length_absolutePath (names : List (List UInt8)) :
    (absolutePath names).length = ([slash].intercalate names).length + 1 := rfl

theorem putNames_eq_iff (hsize : (absolutePath names).length < size.toNat)
    (hint : size.toNat < 2 ^ 31) :
    putNames (textLimit size) [slash] (keptNames names) = absolutePath names ↔
      names.length ≤ maxComponents ∧ ∀ x ∈ names, x.length ≤ nvfsMaxName := by
  constructor
  · intro h
    have hlen := congrArg List.length (putNames_eq (textLimit size) [slash] (keptNames names))
    rw [h, length_absolutePath, length_append, length_singleton, length_take] at hlen
    exact fits_of_length_le (by omega)
  · rintro ⟨hdepth, hlen⟩
    rw [length_absolutePath] at hsize
    rw [keptNames_eq hdepth hlen, textLimit_of_lt hint, putNames_eq, take_of_length_le]
    · rfl
    · rw [length_singleton]
      omega

section

variable (hs : TreeOnDisk s) (hserved : Served fl.device s.g s.d)
  (hpath : (rawView s.g s.d).tree.PathTo nvfsRootInode names d)
include hs hserved hpath

theorem chdir_absolutePath_iff (hdir : (rawView s.g s.d).tree.dir d)
    (hlen : (absolutePath names).length ≤ 255) (hnames : ∀ x ∈ names, x.length ≤ nvfsMaxName) :
    ((exec fl (nvfsChdir (absolutePath names)) s.g s.d).1 = some d ∧
      (exec fl (nvfsChdir (absolutePath names)) s.g s.d).2.1.nvfsCwd = d) ↔
        ∀ x ∈ names, Plain x := by
  have hnul : NulFree (absolutePath names) := by
    intro c hc
    rcases mem_cons.mp hc with rfl | hc
    · decide
    · exact nulFree_intercalate (pathTo_nulFree hpath) c hc
  obtain ⟨hwalk, hcwd⟩ := must_sound fl.device_fits
    (hs.must_nvfsChdir hserved hnul (cons_ne_nil _ _) hlen)
  rw [← walks_absolutePath_iff hs.shaped.rooted hpath hdir hnames, hwalk d]
  exact ⟨And.left, fun h => ⟨h, hcwd d ((hwalk d).mpr h)⟩⟩

theorem exec_nvfsPathString (hsize : (absolutePath names).length < size.toNat) {rounds : Nat}
    (hrounds : maxComponents < rounds) : (exec fl (nvfsPathString rounds d size) s.g s.d).1
      = some (some (putNames (textLimit size) [slash] (keptNames names))) := by
  rw [length_absolutePath] at hsize
  exact must_sound fl.device_fits
    (hs.must_nvfsPathString hserved hpath (by omega) hrounds)

end

/-- The round trip works for a directory at most 16 deep, a size that is not negative as an
    `int`, and names that can be spelled. -/
theorem path_round_trip_iff (hs : TreeOnDisk s) (hserved : Served fl.device s.g s.d)
    (hpath : (rawView s.g s.d).tree.PathTo nvfsRootInode names d)
    (hdir : (rawView s.g s.d).tree.dir d) (hsize : (absolutePath names).length < size.toNat) :
    RoundTrip fl s d names size ↔
      names.length ≤ maxComponents ∧ (names ≠ [] → size.toNat < 2 ^ 31) ∧
        (∀ x ∈ names, x.length ≤ nvfsMaxName) ∧
        ((absolutePath names).length ≤ 255 → ∀ x ∈ names, Plain x) := by
  have htext : ∀ rounds, maxComponents < rounds →
      (exec fl (nvfsPathString rounds d size) s.g s.d).1
        = some (some (putNames (textLimit size) [slash] (keptNames names))) := fun _ hr =>
    exec_nvfsPathString hs hserved hpath hsize hr
  constructor
  · rintro ⟨hstring, hchdir⟩
    have heq : putNames (textLimit size) [slash] (keptNames names) = absolutePath names := by
      have h := (htext (maxComponents + 1) (Nat.lt_succ_self _)).symm.trans
        (hstring _ (Nat.lt_succ_self _))
      exact Option.some.inj (Option.some.inj h)
    by_cases hint : size.toNat < 2 ^ 31
    · obtain ⟨hdepth, hnames⟩ := (putNames_eq_iff hsize hint).mp heq
      exact ⟨hdepth, fun _ => hint, hnames, fun hlen =>
        (chdir_absolutePath_iff hs hserved hpath hdir hlen hnames).mp (hchdir hlen)⟩
    -- only the first slash is written, so there is no name, or an empty one
    have hlimit := textLimit_neg hint
    rw [putNames_eq, show (textLimit size - [slash].length).toNat = 0 by simp; omega] at heq
    have hnil : [slash].intercalate names = [] := (List.cons.inj heq).2.symm
    have hempty : ∀ x ∈ names, x = [] := intercalate_eq_nil hnil
    have hnames : ∀ x ∈ names, x.length ≤ nvfsMaxName := fun x hx => by
      rw [hempty x hx]
      exact Nat.zero_le _
    have hlen : (absolutePath names).length ≤ 255 := by
      rw [length_absolutePath, hnil]
      decide
    have hplain := (chdir_absolutePath_iff hs hserved hpath hdir hlen hnames).mp (hchdir hlen)
    obtain rfl : names = [] := List.eq_nil_iff_forall_not_mem.mpr fun x hx =>
      (hplain x hx).ne_nil (hempty x hx)
    exact ⟨Nat.zero_le _, fun h => absurd rfl h, nofun, fun _ => nofun⟩
  · rintro ⟨hdepth, hint, hnames, hplain⟩
    refine ⟨fun rounds hr => ?_, fun hlen =>
      (chdir_absolutePath_iff hs hserved hpath hdir hlen hnames).mpr (hplain hlen)⟩
    rw [htext rounds hr]
    by_cases hne : names = []
    · subst hne
      rfl
    · rw [(putNames_eq_iff hsize (hint hne)).mpr ⟨hdepth, hnames⟩]

end

/-! ## Directories inside directories -/

theorem WellFormed.raw_cwd (h : WellFormed s)
    (hpath : (vol 32 s.d).tree.PathTo nvfsRootInode names s.g.nvfsCwd) :
    (rawView s.g s.d).tree.PathTo nvfsRootInode names s.g.nvfsCwd ∧
      (rawView s.g s.d).tree.dir s.g.nvfsCwd := by
  rw [h.rawView_tree]
  exact ⟨hpath, h.tree.cwd⟩

/-- A directory one level deep. -/
theorem path_round_trip_iff_inA :
    RoundTrip (Faults.none 32768) (descend 1) (descend 1).g.nvfsCwd [[65]] 64 := by
  obtain ⟨hwf, -, -, hpath⟩ := descend_spec (k := 1) (by decide)
  obtain ⟨hpath, hdir⟩ := hwf.raw_cwd hpath
  refine (path_round_trip_iff hwf.intact.treeOnDisk hwf.served hpath hdir (by decide)).mpr
    ⟨by decide, fun _ => by decide, by decide, fun _ x hx => ?_⟩
  rw [mem_singleton.mp hx]
  exact ⟨by decide, by decide, by decide, by decide, by decide⟩

/-- The string of a directory 17 levels deep lacks the first component. -/
theorem path_string_drops_component :
    TreeOnDisk (descend 17) ∧ Served (Faults.none 32768).device (descend 17).g (descend 17).d ∧
      (rawView (descend 17).g (descend 17).d).tree.PathTo nvfsRootInode (List.replicate 17 [65])
        (descend 17).g.nvfsCwd ∧
      (rawView (descend 17).g (descend 17).d).tree.dir (descend 17).g.nvfsCwd ∧
      (absolutePath (List.replicate 17 [65])).length < (64 : UInt32).toNat ∧
      (exec (Faults.none 32768) (nvfsPathString 17 (descend 17).g.nvfsCwd 64) (descend 17).g
          (descend 17).d).1 = some (some (absolutePath (List.replicate 16 [65]))) ∧
      absolutePath (List.replicate 16 [65]) ≠ absolutePath (List.replicate 17 [65]) := by
  obtain ⟨hwf, -, -, hpath⟩ := descend_spec (k := 17) (by decide)
  have hs := hwf.intact.treeOnDisk
  obtain ⟨hpath, hdir⟩ := hwf.raw_cwd hpath
  have hroom : (absolutePath (List.replicate 17 [65])).length < (64 : UInt32).toNat := by decide
  have hlast : putNames (textLimit 64) [slash] (keptNames (List.replicate 17 [65]))
      = absolutePath (List.replicate 16 [65]) := by decide
  refine ⟨hs, hwf.served, hpath, hdir, hroom, ?_, by decide⟩
  rw [exec_nvfsPathString hs hwf.served hpath hroom (by decide), hlast]

end Noverix.Nvfs
