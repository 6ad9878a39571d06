/-
  Overwriting or extending a file is atomic with respect to power failures.
  `shadowWrite` fills free blocks, then points the inode at them in one sector
  write, then frees the old blocks.  So whatever prefix of the sector writes
  reached the disk, the volume is the old one (up to blocks nobody refers to)
  or one in which the file has its new content; mounting it again and reading
  any path tells the two apart and nothing else.
-/

import Noverix.Nvfs.ReadBack

namespace Noverix.Nvfs

open Lib
open Lib.DiskProg (wp)

/-! ## What a power failure leaves -/

/-- The call writes or appends to the path. -/
def Op.Updates (op : Op) (f : Path) : Prop :=
  match op with
  | .write _ path _ _ => path = f
  | .append _ path _ _ => path = f
  | _ => False

section

variable {g : Globals} {d : Disk}

/-- A program that comes down to `shadowWrite`, cut anywhere: the old volume, or the
    new content both there and at the end. -/
theorem shadowWrite_cut (h : WellFormed ⟨g, d⟩) {i : Nat} (hi : i < 128)
    (hfile : ((vol 32 d).ino i).type = nvfsTypeFile) (data : Mem) (size ticks : Nat)
    (prog : NvfsM Bool)
    (hprog : ∀ C Q, wp 32768 C (shadowWrite i ((vol 32 d).ino i) data size ticks) Q g d →
      wp 32768 C prog Q g d) :
    (DiskProg.run 32768 prog g d).2.1 = g ∧ ∀ k,
      Frame ∅ ∅ (vol 32 d) (vol 32 (cut 32768 prog g d k)) ∨
      Replaced (vol 32 d) i data size (vol 32 (cut 32768 prog g d k)) ∧
        Replaced (vol 32 d) i data size (vol 32 (DiskProg.run 32768 prog g d).2.2) := by
  have hp : Inode.live ((vol 32 d).ino i) = true := counts_live.live _ (by rw [hfile]; decide)
  have hspec := hprog _ _ (wp_run
    (shadowWrite_spec h.geometry h.owned.table hi (h.owned.refsData hp) data size ticks))
  obtain ⟨⟨hvars, hend⟩, hran⟩ := wp_sound hspec
  refine ⟨hvars, fun k => ?_⟩
  rcases wp_cut hspec (.inl (Frame.refl _ _ _)) k with hframe | ⟨hval, hrep⟩
  · exact .inl hframe
  -- the program returned success, so it ended with the new content
  refine .inr ⟨hrep, ?_⟩
  rcases hend with ⟨hfalse, -⟩ | ⟨-, hrep'⟩
  · have htrue : (DiskProg.run 32768 prog g d).1 = true := by
      rw [← hval]
      show _ = (DiskProg.run 32768 (shadowWrite i ((vol 32 d).ino i) data size ticks) g d).1
      rw [hran]
    rw [hfalse] at htrue
    cases htrue
  · exact hrep'

/-- The same for the calls that update an existing file, which change no variable. -/
theorem update_cut {s : State} (h : WellFormed s) {op : Op} {f : Path} {i : Nat}
    (hop : op.Updates f) (hf : NamesFile s f i) :
    ∃ data size, (step op s).g = s.g ∧ ∀ k,
      Frame ∅ ∅ (vol 32 s.d) (vol 32 (cut 32768 op.prog s.g s.d k)) ∨
      Replaced (vol 32 s.d) i data size (vol 32 (cut 32768 op.prog s.g s.d k)) ∧
        Replaced (vol 32 s.d) i data size (vol 32 (step op s).d) := by
  obtain ⟨g, d⟩ := s
  have hg : Geometry 32 g := h.geometry
  obtain ⟨hname, hfile⟩ := hf
  obtain ⟨t, ht, rfl⟩ := map_eq_some_iff.mp hname
  have ht : target g d f.bytes = some t := ht
  obtain ⟨hres, hfind, -, -, hi⟩ := target_spec hg ht
  cases op with
  | write env path data size =>
    obtain rfl : path = f := hop
    have hprog : ∀ C Q, wp 32768 C (shadowWrite t.2.2 ((vol 32 d).ino t.2.2) data size.toNat
        (env.ticks 0)) Q g d → wp 32768 C (Op.write env path data size).prog Q g d := by
      intro C Q hw
      show wp 32768 C (nvfsWrite env path.bytes data size.toNat) Q g d
      rw [wp_nvfsWrite hg, hres]
      simp only
      rw [hfind, ht]
      exact hw
    exact ⟨_, _, shadowWrite_cut h hi hfile _ _ _ _ hprog⟩
  | append env path data size =>
    obtain rfl : path = f := hop
    cases hheap : env.heap with
    | none =>
      -- `kmalloc` fails before anything is written
      have hnone : wp 32768 (fun d' => Frame ∅ ∅ (vol 32 d) (vol 32 d'))
          (nvfsAppend env path.bytes data size.toNat) (fun _ g' _ => g' = g) g d := by
        rw [wp_nvfsAppend counts_live hg h.owned, ht]
        simp only
        rw [if_neg (not_not.mpr hfile), hheap]
        trivial
      exact ⟨data, 0, wp_sound hnone, fun k =>
        Or.inl (wp_cut hnone (Frame.refl _ _ _) k)⟩
    | some heap =>
      have hprog : ∀ C Q, wp 32768 C (shadowWrite t.2.2 ((vol 32 d).ino t.2.2)
          (appended (vol 32 d) ((vol 32 d).ino t.2.2) heap data size.toNat).1
          (appended (vol 32 d) ((vol 32 d).ino t.2.2) heap data size.toNat).2
          (env.ticks 0)) Q g d → wp 32768 C (Op.append env path data size).prog Q g d := by
        intro C Q hw
        show wp 32768 C (nvfsAppend env path.bytes data size.toNat) Q g d
        rw [wp_nvfsAppend counts_live hg h.owned, ht]
        simp only
        rw [if_neg (not_not.mpr hfile), hheap]
        exact hw
      exact ⟨_, _, shadowWrite_cut h hi hfile _ _ _ _ hprog⟩
  | _ => exact hop.elim

end

/-! ## Reading after a remount -/

/-- The driver with another current directory. -/
def State.inDir (s : State) (c : Nat) : State := ⟨{ s.g with nvfsCwd := c }, s.d⟩

variable {s : State}

theorem State.inDir_of_eq {c : Nat} (h : s.g.nvfsCwd = c) : s.inDir c = s := by
  subst h
  rfl

theorem WellFormed.inDir {s : State} (h : WellFormed s) {c : Nat}
    (hc : (vol 32 s.d).tree.dir c) : WellFormed (s.inDir c) :=
  ⟨h.geometry.withCwd c, h.owned, ⟨h.tree.shaped, hc⟩, h.extents⟩

section

variable {s t : State} {q : Path} {j : Nat}

theorem names_of_sameTree (h : WellFormed s) (h' : WellFormed t)
    (hcwd : t.g.nvfsCwd = s.g.nvfsCwd) (htree : SameTree (vol 32 s.d) (vol 32 t.d))
    (hq : names s q = some j) : names t q = some j := by
  obtain ⟨⟨parent, name, j⟩, ht, rfl⟩ := map_eq_some_iff.mp hq
  have ht' : target t.g t.d q.bytes = some (parent, name, j) := by
    refine (target_iff_of_sameDirs h h' hcwd htree.sameDirs).mpr ?_
    rw [htree.tree]
    exact (target_iff h).mp ht
  unfold names
  rw [ht']
  rfl

theorem readFile_of_names (h : WellFormed s) (hq : names s q = some j) (max : Nat) :
    readFile s q max =
      if ((vol 32 s.d).ino j).type = nvfsTypeFile then
        some ((vol 32 s.d).content ((vol 32 s.d).ino j) max)
      else none := by
  obtain ⟨⟨parent, name, j⟩, ht, rfl⟩ := map_eq_some_iff.mp hq
  show val 32768 (nvfsRead q.bytes max) s.g s.d = _
  rw [val_nvfsRead h.geometry h.owned, ht]

theorem readFile_of_sameTree (h : WellFormed s) (h' : WellFormed t)
    (hcwd : t.g.nvfsCwd = s.g.nvfsCwd) (htree : SameTree (vol 32 s.d) (vol 32 t.d))
    (hq : names s q = some j) (hj : Unchanged (vol 32 s.d) (vol 32 t.d) j) (max : Nat) :
    readFile t q max = readFile s q max := by
  have hlive : (vol 32 s.d).tree.live j := by
    obtain ⟨⟨parent, name, j⟩, ht, rfl⟩ := map_eq_some_iff.mp hq
    obtain ⟨hd, hmem⟩ := target_tree h ht
    exact h.tree.shaped.kid_live parent j ⟨hd, _, hmem⟩
  rw [readFile_of_names h hq, readFile_of_names h' (names_of_sameTree h h' hcwd htree hq),
    hj.content hlive max, hj.ino]

end

variable {i : Nat}

theorem update_wellFormed (h : WellFormed s) {op : Op} {f : Path}
    (hop : op.Updates f) (hf : NamesFile s f i) : WellFormed (step op s) := by
  obtain ⟨hname, hfile⟩ := hf
  obtain ⟨t, ht, rfl⟩ := map_eq_some_iff.mp hname
  cases op with
  | write env path data size =>
    obtain rfl : path = f := hop
    refine step_wellFormed h ?_ ?_ trivial
    · -- the name exists, so no inode is allocated
      rintro ⟨parent, name, hres, hfind⟩
      obtain ⟨hres', hfind', -⟩ := target_spec h.geometry ht
      rw [hres] at hres'
      cases hres'
      rw [hfind] at hfind'
      cases hfind'
    · rintro j ⟨parent, name, ht'⟩
      rw [ht] at ht'
      cases ht'
      exact hfile
  | append env path data size =>
    exact step_wellFormed h (fun ha => ha.elim) (fun _ hi => hi.elim) trivial
  | _ => exact hop.elim

/-- The volume in which the power failed, and what it takes to mount it. -/
theorem update_cut_volume (h : WellFormed s) (hsb : IsSuperblock 32 (s.d 1))
    (hfile : ((vol 32 s.d).ino i).type = nvfsTypeFile) (d' : Disk) {data : Mem} {size : Nat}
    (hcut : Frame ∅ ∅ (vol 32 s.d) (vol 32 d') ∨ Replaced (vol 32 s.d) i data size (vol 32 d')) :
    IsSuperblock 32 (d' 1) ∧ Owned Inode.live 32 (vol 32 d') ∧
      SameTree (vol 32 s.d) (vol 32 d') ∧ ∀ j ≠ i, Unchanged (vol 32 s.d) (vol 32 d') j := by
  have hp : Inode.live ((vol 32 s.d).ino i) = true := counts_live.live _ (by rw [hfile]; decide)
  have hsame : ∀ {B I : Set Nat}, Frame B I (vol 32 s.d) (vol 32 d') → IsSuperblock 32 (d' 1) := by
    intro B I hframe
    have hsector : d' 1 = s.d 1 := hframe.sb
    rw [hsector]
    exact hsb
  rcases hcut with hframe | hrep
  · exact ⟨hsame hframe, h.owned.rewrites (Rewrites.of_scratch (i := 0) h.owned hframe),
      hframe.sameTree h.owned, fun j _ => hframe.unchanged h.owned j⟩
  have hrew := hrep.rewrites counts_live.byType h.owned hp
  exact ⟨hsame hrew.frame, h.owned.rewrites hrew, hrep.sameTree h.owned hfile,
    fun j hj => hrew.unchanged h.owned hj⟩

/-- Power fails anywhere in a write or an append to the regular file `i`, and the disk is
    mounted again.  From every directory `c` (the root, where a mount puts the driver, or the
    one the call was made in), the paths of the file all read as before the call, or all read
    as after it; the other files read as before; and blocks are still owned once. -/
theorem update_atomic {s : State} (h : WellFormed s) (hsb : IsSuperblock 32 (s.d 1)) {op : Op}
    {f : Path} {i : Nat} (hop : op.Updates f) (hf : NamesFile s f i) (k : Nat) (g₀ : Globals)
    {ch dr : Nat} (hch : ch < 2) (hdr : dr < 2) :
    ∃ t : State, t.d = cut 32768 op.prog s.g s.d k ∧
      nvfsMount (onlyDrive ch dr t.d) g₀ = (true, t.g) ∧ t.g.nvfsCwd = nvfsRootInode ∧
      ((∀ c q max, (vol 32 s.d).tree.dir c → names (s.inDir c) q = some i →
          readFile (t.inDir c) q max = readFile (s.inDir c) q max) ∨
        ∀ c q max, (vol 32 s.d).tree.dir c → names (s.inDir c) q = some i →
          readFile (t.inDir c) q max = readFile ((step op s).inDir c) q max) ∧
      (∀ c q j max, (vol 32 s.d).tree.dir c → NamesFile (s.inDir c) q j → j ≠ i →
        readFile (t.inDir c) q max = readFile (s.inDir c) q max) ∧
      Owned Inode.live 32 (vol 32 t.d) := by
  obtain ⟨data, size, -, hcut⟩ := update_cut h hop hf
  have hcut := hcut k
  generalize cut 32768 op.prog s.g s.d k = d' at hcut ⊢
  obtain ⟨hsb', howned, htree, hother⟩ := update_cut_volume h hsb hf.2 d' (hcut.imp id And.left)
  obtain ⟨t, htd, htg, hmount⟩ : ∃ t : State, t.d = d' ∧ t.g = mountedGlobals g₀ ch dr (d' 1) ∧
      nvfsMount (onlyDrive ch dr d') g₀ = (true, t.g) :=
    ⟨⟨mountedGlobals g₀ ch dr (d' 1), d'⟩, rfl, rfl, nvfsMount_onlyDrive hsb' g₀ hch hdr⟩
  subst htd
  have hwf : ∀ c, (vol 32 s.d).tree.dir c → WellFormed (t.inDir c) := fun c hc =>
    ⟨(htg ▸ hsb'.geometry g₀ ch dr).withCwd c, howned, TreeShaped.congr (h.inDir hc).tree htree,
      h.extents.congr htree⟩
  have hroot : t.g.nvfsCwd = nvfsRootInode := by rw [htg, mountedGlobals]
  refine ⟨t, rfl, hmount, hroot, ?_, ?_, howned⟩
  · rcases hcut with hframe | ⟨hrep, hdone⟩
    · left
      intro c q max hc hq
      exact readFile_of_sameTree (h.inDir hc) (hwf c hc) rfl htree hq (hframe.unchanged h.owned i) max
    -- both volumes hold the new content, though maybe in different blocks
    right
    intro c q max hc hq
    have hstep := update_wellFormed h hop hf
    obtain ⟨-, -, htree', -⟩ := update_cut_volume h hsb hf.2 (step op s).d (Or.inr hdone)
    have hc' : (vol 32 (step op s).d).tree.dir c := by
      rw [htree'.tree]
      exact hc
    have hdone_wf : WellFormed ((step op s).inDir c) := hstep.inDir hc'
    rw [readFile_of_names (hwf c hc) (names_of_sameTree (h.inDir hc) (hwf c hc) rfl htree hq),
      readFile_of_names hdone_wf (names_of_sameTree (h.inDir hc) hdone_wf rfl htree' hq)]
    show (if ((vol 32 t.d).ino i).type = nvfsTypeFile then _ else none)
      = if ((vol 32 (step op s).d).ino i).type = nvfsTypeFile then _ else none
    rw [(hrep.content max).1, (hdone.content max).1]
    exact if_congr Iff.rfl
      (congrArg some ((hrep.content max).2.trans (hdone.content max).2.symm)) rfl
  · intro c q j max hc hq hj
    exact readFile_of_sameTree (h.inDir hc) (hwf c hc) rfl htree hq.1 (hother j hj) max

/-- Writing the file `A` again, on the volume where it has five bytes, cut after the first
    sector write and mounted on the first drive. -/
theorem update_atomic_oneFile :
    ∃ t : State, t.d = cut 32768 (Op.write idle pathA fiveBytes 3).prog oneFile.g oneFile.d 1 ∧
      nvfsMount (onlyDrive 0 0 t.d) bootGlobals = (true, t.g) ∧
      (readFile t pathA 9 = some [1, 2, 3, 4, 5] ∨
        readFile t pathA 9 = readFile (step (.write idle pathA fiveBytes 3) oneFile) pathA 9) := by
  have hwf := wellFormed_oneFile
  obtain ⟨hcwd, hsb, hread⟩ := oneFile_spec
  obtain ⟨j, hj⟩ := namesFile_of_read hwf hread
  obtain ⟨t, ht, hmount, hroot, hreads, -⟩ := @update_atomic oneFile hwf hsb
    (.write idle pathA fiveBytes 3) pathA j rfl hj 1 bootGlobals 0 0 (by decide) (by decide)
  have hdir := hwf.tree.shaped.root_dir
  have hone : oneFile.inDir 0 = oneFile := State.inDir_of_eq hcwd
  have ht0 : t.inDir 0 = t := State.inDir_of_eq hroot
  have hname : names (oneFile.inDir 0) pathA = some j := by
    rw [hone]
    exact hj.1
  refine ⟨t, ht, hmount, ?_⟩
  rcases hreads with hold | hnew
  · have h := hold 0 pathA 9 hdir hname
    rw [ht0, hone, hread] at h
    exact .inl h
  have h := hnew 0 pathA 9 hdir hname
  have hstep : (step (.write idle pathA fiveBytes 3) oneFile).g.nvfsCwd = 0 := by
    obtain ⟨-, -, hvars, -⟩ := @update_cut oneFile hwf (.write idle pathA fiveBytes 3) pathA j rfl
      hj
    rw [hvars]
    exact hcwd
  rw [ht0, State.inDir_of_eq hstep] at h
  exact .inr h

end Noverix.Nvfs
