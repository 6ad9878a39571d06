/-
  The prompt of the shell (kernel/kernel.c): the path of the current directory, as
  `nvfs_path_string` writes it to the array `prompt`, and two characters behind it.
-/

import Noverix.Nvfs.PathString

namespace Noverix.Shell

open Lib Nvfs
open Lib.DiskProg (exec)

/-- The indices of `prompt` that one round of `shell_main` stores to: the path with its zero, then
    `$`, a space and a zero over the first zero. -/
def promptStores (fl : Faults) (rounds : Nat) (s : State) : List Nat :=
  match (exec fl (nvfsPathString rounds s.g.nvfsCwd 256) s.g s.d).1 with
  | some (some text) =>
    let p := (text.takeWhile (· != 0)).length
    List.range (text.length + 1) ++ [p, p + 1, p + 2]
  | _ => [0, 1, 2]

variable {s : State} {fl : Faults} {names : List (List UInt8)} {rounds : Nat}

/-- The names that are kept have no NUL, so the first zero is where the path ends. -/
theorem promptStores_eq (hs : TreeOnDisk s) (hserved : Served fl.device s.g s.d)
    (hpath : (rawView s.g s.d).tree.PathTo nvfsRootInode names s.g.nvfsCwd)
    (hrounds : maxComponents < rounds) {n : Nat}
    (hn : n = min (absolutePath (keptNames names)).length 255) :
    promptStores fl rounds s = range (n + 1) ++ [n, n + 1, n + 2] := by
  have hkept : ∀ x ∈ keptNames names, NulFree x := by
    intro x hx c hc
    obtain ⟨y, hy, rfl⟩ := mem_map.mp hx
    exact pathTo_nulFree hpath y (List.mem_of_mem_drop hy) c (mem_of_mem_take hc)
  have hexec := must_sound fl.device_fits
    (hs.must_nvfsPathString hserved hpath (by decide : 2 ≤ (256 : UInt32).toNat) hrounds)
  rw [putNames_eq, show (textLimit 256 - ([slash] : List UInt8).length).toNat = 254 from rfl]
    at hexec
  have hcut : ([slash] ++ ([slash].intercalate (keptNames names)).take 254).takeWhile (· != 0)
      = [slash] ++ ([slash].intercalate (keptNames names)).take 254 := by
    refine List.takeWhile_eq_self_iff.mpr fun c hc => ?_
    rcases mem_cons.mp hc with rfl | hc
    · decide
    · simpa using nulFree_intercalate hkept c (mem_of_mem_take hc)
  have hlen : ([slash] ++ ([slash].intercalate (keptNames names)).take 254).length = n := by
    rw [length_append, length_singleton, length_take, hn, length_absolutePath]
    omega
  simp only [promptStores, hexec, hcut, hlen]

/-- The prompt stays in its array exactly if the path has at most 253 characters. -/
theorem prompt_inside_iff (s : State) (fl : Faults) (names : List (List UInt8)) (rounds : Nat)
    (hs : TreeOnDisk s) (hserved : Served fl.device s.g s.d)
    (hpath : (rawView s.g s.d).tree.PathTo nvfsRootInode names s.g.nvfsCwd)
    (hrounds : maxComponents < rounds) :
    (∀ i ∈ promptStores fl rounds s, i < 256) ↔
      (absolutePath (keptNames names)).length ≤ 253 := by
  rw [promptStores_eq hs hserved hpath hrounds rfl]
  constructor
  · intro h
    have := h _ (mem_append_right _ (mem_cons_of_mem _ (mem_cons_of_mem _ mem_cons_self)))
    omega
  · intro h i hi
    simp only [mem_append, mem_range, mem_cons, not_mem_nil, or_false] at hi
    omega

/-- In `/A`. -/
theorem prompt_inside_iff_inA : TreeOnDisk (descend 1) ∧
    ∀ i ∈ promptStores (Faults.none 32768) 17 (descend 1), i < 256 := by
  obtain ⟨hwf, -, -, hpath⟩ := descend_spec (k := 1) (by decide)
  exact ⟨hwf.intact.treeOnDisk, (prompt_inside_iff (descend 1) (Faults.none 32768) [[65]] 17
    hwf.intact.treeOnDisk hwf.served (hwf.raw_cwd hpath).1 (by decide)).mpr (by decide)⟩

/-- A name of 27 characters. -/
def longName : Path := ⟨List.replicate 27 65, by decide⟩

/-- In the tenth directory of that name, each in the one before, `prompt[256]` is stored to. -/
theorem prompt_overruns : TreeOnDisk (descendInto longName 10) ∧
    Served (Faults.none 32768).device (descendInto longName 10).g (descendInto longName 10).d ∧
    256 ∈ promptStores (Faults.none 32768) 17 (descendInto longName 10) := by
  have hsimple : Simple longName :=
    ⟨by simp [NulFree, longName], by decide, by decide, by decide, by decide, by decide, by decide⟩
  obtain ⟨hwf, -, -, hpath⟩ := descendInto_spec hsimple (k := 10) (by decide)
  have hlen : 255 = min (absolutePath (keptNames (List.replicate 10 (nameKey
      longName.bytes)))).length 255 := by decide +kernel
  refine ⟨hwf.intact.treeOnDisk, hwf.served, ?_⟩
  rw [promptStores_eq hwf.intact.treeOnDisk hwf.served (hwf.raw_cwd hpath).1 (by decide) hlen]
  exact mem_append_right _ (mem_cons_of_mem _ mem_cons_self)

end Noverix.Shell
