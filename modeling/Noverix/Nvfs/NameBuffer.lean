/-
  The array that `resolve_path` writes a name to.

  The calls that take a path give `resolve_path` an array of `NVFS_MAX_NAME + 1`
  characters.  It copies what follows the last slash, up to the 255 characters
  its own buffer holds, and then upper-cases or clears the copy.  The programs
  below note every index of that array they write; without the notes they are
  the programs of `Directory` and `Api`.
-/

import Mathlib.Data.List.TakeWhile
import Noverix.Lib.Faults
import Noverix.Nvfs.Runs

namespace Noverix.Nvfs

open Lib
open Lib.DiskProg (getState setState exec must_mono must_of_forall bind_assoc)

/-- A driver function that notes the indices written to the caller's array of characters. -/
abbrev NameM (α : Type) := Noted Globals Sector Event Nat α

/-! ## Path resolution -/

/-- The indices `to_upper` writes: those of lower-case letters. -/
def lowerAt (name : List UInt8) : List Nat :=
  (List.range name.length).filter fun i => 97 ≤ name.getD i 0 ∧ name.getD i 0 ≤ 122

/-- The last component is copied with a terminating zero; a name that stands for a directory is
    then made empty. -/
def resolveLastNoted (cur : Nat) (name : List UInt8) : NameM (Option (Nat × List UInt8)) := do
  notes (List.range (name.length + 1))
  if name = [dot, dot] then
    match ← lift (findParent cur) with
    | none =>
      lift (setErrno .path)
      return none
    | some p =>
      notes [0]
      return some (p, [])
  else if name = [dot] then
    notes [0]
    return some (cur, [])
  else
    notes (lowerAt name)
    return some (cur, toUpper name)

def resolveLoopNoted (cur : Nat) (seg : List UInt8) :
    List UInt8 → NameM (Option (Nat × List UInt8))
  | [] => resolveLastNoted cur seg
  | c :: cs => do
    if c = slash then
      if seg = [] then
        resolveLoopNoted cur [] cs
      else
        match ← lift (resolveComponent cur seg) with
        | none => return none
        | some next => resolveLoopNoted next [] cs
    else
      resolveLoopNoted cur (seg ++ [c]) cs

def resolvePathNoted (path : List UInt8) : NameM (Option (Nat × List UInt8)) := do
  let g ← lift getState
  match pathBuf path with
  | [] =>
    notes [0]
    return some (g.nvfsCwd, [])
  | c :: cs =>
    if c = slash then resolveLoopNoted nvfsRootInode [] cs
    else resolveLoopNoted g.nvfsCwd [] (c :: cs)

section

theorem resolveLastNoted_erase (cur : Nat) (name : List UInt8) :
    (resolveLastNoted cur name).erase = resolveLast cur name := by
  unfold resolveLastNoted resolveLast
  rw [erase_notes_bind]
  split
  · refine erase_option (erase_lifted fun _ => rfl) fun p => ?_
    exact erase_notes_bind _ _
  split
  · exact erase_notes_bind _ _
  · exact erase_notes_bind _ _

theorem resolveLoopNoted_erase (cur : Nat) (seg cs : List UInt8) :
    (resolveLoopNoted cur seg cs).erase = resolveLoop cur seg cs := by
  induction cs generalizing cur seg with
  | nil => exact resolveLastNoted_erase cur seg
  | cons c cs ih =>
    unfold resolveLoopNoted resolveLoop
    split
    · split
      · exact ih cur []
      refine erase_option rfl fun next => ?_
      exact ih next []
    · exact ih cur (seg ++ [c])

theorem resolvePathNoted_erase (path : List UInt8) :
    (resolvePathNoted path).erase = resolvePath path := by
  unfold resolvePathNoted resolvePath
  refine erase_lifted fun g => ?_
  cases pathBuf path with
  | nil => exact erase_notes_bind _ _
  | cons c cs =>
    by_cases hc : c = slash
    · simp only [hc, if_true]
      exact resolveLoopNoted_erase _ _ _
    simp only [hc, if_false]
    exact resolveLoopNoted_erase _ _ _

end

/-! ## The indices written -/

/-- What follows the last slash. -/
def behindSlash (s : List UInt8) : List UInt8 := (s.reverse.takeWhile (· != slash)).reverse

theorem behindSlash_slash (pre post : List UInt8) :
    behindSlash (pre ++ slash :: post) = behindSlash post := by
  unfold behindSlash
  rw [List.reverse_append, List.reverse_cons, append_assoc, List.takeWhile_append]
  split
  · next hall =>
    rw [(List.takeWhile_prefix _).eq_of_length hall]
    simp
  · rfl

theorem behindSlash_of_not_mem {s : List UInt8} (h : slash ∉ s) : behindSlash s = s := by
  unfold behindSlash
  rw [List.takeWhile_eq_self_iff.mpr fun c hc => ?_, List.reverse_reverse]
  rw [bne_iff_ne]
  rintro rfl
  exact h (List.mem_reverse.mp hc)

section

variable {D : Device} {g : Globals} {d : Disk}

/-- All indices noted are in the array exactly if the name fits, or nothing was resolved. -/
def InArray (name : List UInt8) (r : Option (Nat × List UInt8)) (m : List Nat) : Prop :=
  (∀ i ∈ m, i < nvfsMaxName + 1) ↔ name.length ≤ nvfsMaxName ∨ r = none

theorem inArray_of_copy {name : List UInt8} {r : Option (Nat × List UInt8)} {m : List Nat}
    (hm : ∀ i ∈ m, i ≤ name.length) (hshort : r = none → name.length ≤ nvfsMaxName) :
    InArray name r (range (name.length + 1) ++ m) := by
  unfold InArray
  rw [or_iff_left_of_imp hshort]
  constructor
  · intro hall
    have hlast := hall name.length (mem_append_left _ (mem_range.mpr (Nat.lt_succ_self _)))
    omega
  · intro hlen i hi
    rcases mem_append.mp hi with hi | hi
    · have := mem_range.mp hi
      omega
    have := hm i hi
    omega

theorem must_resolveLastNoted (cur : Nat) (name : List UInt8) :
    Noted.must D (resolveLastNoted cur name) (fun r m _ _ => InArray name r m) g d := by
  unfold resolveLastNoted
  rw [Noted.must_bind, must_notes]
  split
  · next hdots =>
    have hlen : name.length ≤ nvfsMaxName := by
      rw [hdots]
      decide
    rw [must_lifted]
    refine must_mono (fun r _ _ _ => ?_) (must_of_forall fun _ _ _ => trivial)
    cases r with
    | none =>
      rw [must_lifted]
      exact inArray_of_copy (fun i hi => absurd hi not_mem_nil) fun _ => hlen
    | some p =>
      rw [Noted.must_bind, must_notes]
      exact inArray_of_copy (fun i hi => by simp at hi; omega) fun h => by cases h
  split
  · rw [Noted.must_bind, must_notes]
    exact inArray_of_copy (fun i hi => by simp at hi; omega) fun h => by cases h
  rw [Noted.must_bind, must_notes]
  refine inArray_of_copy (fun i hi => ?_) fun h => by cases h
  rw [append_nil] at hi
  exact Nat.le_of_lt (mem_range.mp (List.mem_of_mem_filter hi))

theorem must_resolveLoopNoted (cur : Nat) (seg cs : List UInt8) (hseg : slash ∉ seg) :
    Noted.must D (resolveLoopNoted cur seg cs)
      (fun r m _ _ => InArray (behindSlash (seg ++ cs)) r m) g d := by
  induction cs generalizing cur seg g d with
  | nil =>
    rw [append_nil, behindSlash_of_not_mem hseg]
    exact must_resolveLastNoted cur seg
  | cons c cs ih =>
    unfold resolveLoopNoted
    split
    · next hc =>
      rw [hc, behindSlash_slash]
      split
      · exact ih cur [] not_mem_nil
      rw [must_lifted]
      refine must_mono (fun r _ _ _ => ?_)
        (must_of_forall fun _ _ _ => trivial)
      cases r with
      | none => exact iff_of_true (fun i hi => absurd hi not_mem_nil) (.inr rfl)
      | some next => exact ih next [] not_mem_nil
    next hc =>
    have hlist : seg ++ c :: cs = (seg ++ [c]) ++ cs := by simp
    rw [hlist]
    refine ih cur (seg ++ [c]) fun hmem => ?_
    rcases mem_append.mp hmem with hmem | hmem
    · exact hseg hmem
    · exact hc (mem_singleton.mp hmem).symm

theorem must_resolvePathNoted (path : List UInt8) :
    Noted.must D (resolvePathNoted path) (fun r m _ _ => InArray (lastComponent path) r m) g d := by
  have hlast : lastComponent path = behindSlash (pathBuf path) := rfl
  unfold resolvePathNoted
  rw [must_lifted, must_getState, hlast]
  cases pathBuf path with
  | nil => exact iff_of_true (fun i hi => by simp at hi; omega) (.inl (by decide))
  | cons c cs =>
    by_cases hc : c = slash
    · simp only [hc, if_true]
      rw [← nil_append (slash :: cs), behindSlash_slash]
      exact must_resolveLoopNoted _ [] cs not_mem_nil
    simp only [hc, if_false]
    exact must_resolveLoopNoted _ [] (c :: cs) not_mem_nil

end

/-- Under every fault pattern, the indices `resolve_path` writes are in the array exactly if the
    last component fits, or the directories before it could not be walked. -/
theorem resolvePathNoted_iff (fl : Faults) (g : Globals) (d : Disk) (path : List UInt8) :
    (∀ i ∈ (exec fl (resolvePathNoted path).prog g d).1.2, i < nvfsMaxName + 1) ↔
      (lastComponent path).length ≤ nvfsMaxName ∨ (exec fl (resolvePath path) g d).1 = none := by
  have h := must_sound fl.device_fits
    (must_resolvePathNoted (D := fl.device) (g := g) (d := d) path)
  rw [← resolvePathNoted_erase, exec_erase]
  exact h

/-! ## The calls -/

/-- The calls that take a path. -/
inductive PathCall where
  | list (ci : Inode)
  | read (max : Nat)
  | write (env : Env) (data : Mem) (size : Nat)
  | delete (env : Env)
  | mkdir (env : Env)
  | rmdir (env : Env)
  | chdir
  | append (env : Env) (data : Mem) (size : Nat)

/-- The program of a call; its value is whether the call returned success. -/
def PathCall.prog (path : List UInt8) : PathCall → NvfsM Bool
  | .list ci => nvfsList ci path
  | .read max => do
    let r ← nvfsRead path max
    return r.isSome
  | .write env data size => nvfsWrite env path data size
  | .delete env => nvfsDelete env path
  | .mkdir env => nvfsMkdir env path
  | .rmdir env => nvfsRmdir env path
  | .chdir => do
    let r ← nvfsChdir path
    return r.isSome
  | .append env data size => nvfsAppend env path data size

/-- The prologue of the calls that need a name, then the rest of the call. -/
def namedNoted {α : Type} (fail : α) (path : List UInt8) (k : Nat → List UInt8 → NvfsM α) :
    NameM α := do
  let g ← lift getState
  if g.mounted then
    match ← resolvePathNoted path with
    | none => return fail
    | some (parent, name) =>
      if name = [] then
        lift (setErrno .path)
        return fail
      else
        lift (k parent name)
  else
    lift (setErrno .noMount)
    return fail

/-- The rest of the calls on an existing name. -/
def existing {α : Type} (fail : α) (k : Nat → List UInt8 → Nat → Inode → NvfsM α) (parent : Nat)
    (name : List UInt8) : NvfsM α := do
  match ← dirFind parent name with
  | none => return fail
  | some inum =>
    match ← inodeRead inum with
    | none =>
      setErrno .io
      return fail
    | some inode => k parent name inum inode

def nvfsReadNoted (path : List UInt8) (max : Nat) : NameM (Option (List UInt8)) :=
  namedNoted none path <| existing none fun _ _ _ inode => do
    if inode.type ≠ nvfsTypeFile then
      setErrno .notFile
      return none
    else
      extentRead inode max

def nvfsDeleteNoted (env : Env) (path : List UInt8) : NameM Bool :=
  namedNoted false path <| existing false fun parent name inum inode => do
    if inode.type ≠ nvfsTypeFile then
      setErrno .notFile
      return false
    else
      freeAndUnlink parent name inum (env.ticks 0)

def nvfsRmdirNoted (env : Env) (path : List UInt8) : NameM Bool :=
  namedNoted false path <| existing false fun parent name inum inode => do
    if inode.type ≠ nvfsTypeDir then
      setErrno .notDir
      return false
    else if ← dirEmpty inum then
      freeAndUnlink parent name inum (env.ticks 0)
    else
      setErrno .dirBusy
      return false

def appendNamed (env : Env) (data : Mem) (size : Nat) : Nat → List UInt8 → NvfsM Bool :=
  existing false fun _ _ inum inode => do
    if inode.type ≠ nvfsTypeFile then
      setErrno .notFile
      return false
    else
      match env.heap with
      | none =>
        setErrno .io
        return false
      | some heap =>
        let old := min inode.size.toNat 4096
        let add := min size (4096 - old)
        match ← extentRead inode old with
        | none =>
          setErrno .io
          return false
        | some content =>
          shadowWrite inum inode (appendBuf heap content old add data) (old + add)
            (env.ticks 0)

def writeNamed (env : Env) (data : Mem) (size : Nat) (parent : Nat) (name : List UInt8) :
    NvfsM Bool := do
  match ← dirFind parent name with
  | some inum =>
    match ← inodeRead inum with
    | none =>
      setErrno .io
      return false
    | some inode => shadowWrite inum inode data size (env.ticks 0)
  | none => createFile env parent name data size

/-- What `nvfs_chdir` does with a path that is not empty. -/
def chdirResolved (g : Globals) (parent : Nat) (name : List UInt8) : NvfsM (Option Nat) := do
  if name = [] then
    setState { g with nvfsCwd := parent }
    return some parent
  else
    match ← dirFind parent name with
    | none => return none
    | some inum =>
      match ← inodeRead inum with
      | none =>
        setErrno .io
        return none
      | some inode =>
        if inode.type ≠ nvfsTypeDir then
          setErrno .notDir
          return none
        else
          setState { g with nvfsCwd := inum }
          return some inum

def nvfsChdirNoted (path : List UInt8) : NameM (Option Nat) := do
  let g ← lift getState
  if g.mounted then
    if path.takeWhile (· != 0) = [] then
      lift (setState { g with nvfsCwd := nvfsRootInode })
      return some nvfsRootInode
    else
      match ← resolvePathNoted path with
      | none => return none
      | some (parent, name) => lift (chdirResolved g parent name)
  else
    lift (setErrno .noMount)
    return none

/-- The directory a resolved path names. -/
def listResolved (parent : Nat) (name : List UInt8) : NvfsM (Option Nat) := do
  if name = [] then
    return some parent
  else
    match ← dirFind parent name with
    | none => return none
    | some inum =>
      match ← inodeRead inum with
      | none => return none
      | some inode => if inode.type ≠ nvfsTypeDir then return none else return some inum

def listTargetNoted (path : List UInt8) : NameM (Option Nat) := do
  let g ← lift getState
  if path.takeWhile (· != 0) = [] then
    return some g.nvfsCwd
  else
    match ← resolvePathNoted path with
    | none => return none
    | some (parent, name) => lift (listResolved parent name)

/-- What `nvfs_list` prints, if it has a directory. -/
def listAt (ci : Inode) : Option Nat → NvfsM Bool
  | none => return false
  | some dirInode => do
    match ← inodeRead dirInode with
    | none => return false
    | some inode =>
      match ← extentLoadAll inode with
      | none => return false
      | some cache => listBlocks ci (extentBlocks cache)

def nvfsListNoted (ci : Inode) (path : List UInt8) : NameM Bool := do
  let g ← lift getState
  if g.mounted then
    let target ← listTargetNoted path
    lift (listAt ci target)
  else
    lift (setErrno .noMount)
    return false

/-- The call with notes. -/
def PathCall.noted (path : List UInt8) : PathCall → NameM Bool
  | .list ci => nvfsListNoted ci path
  | .read max => do
    let r ← nvfsReadNoted path max
    return r.isSome
  | .write env data size => namedNoted false path (writeNamed env data size)
  | .delete env => nvfsDeleteNoted env path
  | .mkdir env => namedNoted false path (createDir env)
  | .rmdir env => nvfsRmdirNoted env path
  | .chdir => do
    let r ← nvfsChdirNoted path
    return r.isSome
  | .append env data size => namedNoted false path (appendNamed env data size)

/-! ## Without the notes -/

section

variable {α : Type}

theorem namedNoted_erase (fail : α) (path : List UInt8)
    (k : Nat → List UInt8 → NvfsM α) : (namedNoted fail path k).erase = (do
      let r ← resolveNamed path
      r.elim (return fail) fun r => k r.1 r.2) := by
  unfold namedNoted resolveNamed
  rw [Noted.erase_bind, erase_lift]
  show _ = ((getState.bind _).bind _ : NvfsM α)
  rw [bind_assoc]
  refine congrArg (DiskProg.bind getState) (funext fun g => ?_)
  cases g.mounted with
  | false => rfl
  | true =>
    show (resolvePathNoted path >>= _ : NameM α).erase = _
    rw [Noted.erase_bind, resolvePathNoted_erase]
    show _ = (((resolvePath path).bind _).bind _ : NvfsM α)
    rw [bind_assoc]
    refine congrArg (DiskProg.bind _) (funext fun r => ?_)
    cases r with
    | none => rfl
    | some r =>
      obtain ⟨parent, name⟩ := r
      by_cases hname : name = []
      · simp only [hname, if_true]
        rfl
      simp only [hname, if_false]
      exact erase_lift _

theorem existing_erase (fail : α) (path : List UInt8)
    (k : Nat → List UInt8 → Nat → Inode → NvfsM α) :
    (namedNoted fail path (existing fail k)).erase = onExisting fail path k := by
  rw [namedNoted_erase]
  unfold onExisting existing
  refine congrArg (DiskProg.bind _) (funext fun r => ?_)
  cases r with
  | none => rfl
  | some r => rfl

theorem nvfsChdirNoted_erase (path : List UInt8) :
    (nvfsChdirNoted path).erase = nvfsChdir path := by
  unfold nvfsChdirNoted nvfsChdir
  refine erase_lifted fun g => ?_
  by_cases hm : g.mounted = true
  · rw [if_pos hm, if_pos hm]
    by_cases hpath : path.takeWhile (· != 0) = []
    · rw [if_pos hpath, if_pos hpath]
      rfl
    rw [if_neg hpath, if_neg hpath]
    refine erase_bind_eq (resolvePathNoted_erase path) fun r => ?_
    cases r with
    | none => rfl
    | some r => exact erase_lift _
  rw [if_neg hm, if_neg hm]
  rfl

theorem listTargetNoted_erase (path : List UInt8) :
    (listTargetNoted path).erase = listTarget path := by
  unfold listTargetNoted listTarget
  refine erase_lifted fun g => ?_
  by_cases hpath : path.takeWhile (· != 0) = []
  · simp only [hpath, if_true]
    rfl
  simp only [hpath, if_false]
  refine erase_bind_eq (resolvePathNoted_erase path) fun r => ?_
  cases r with
  | none => rfl
  | some r => exact erase_lift _

theorem nvfsListNoted_erase (ci : Inode) (path : List UInt8) :
    (nvfsListNoted ci path).erase = nvfsList ci path := by
  unfold nvfsListNoted nvfsList
  refine erase_lifted fun g => ?_
  cases g.mounted with
  | false => rfl
  | true =>
    refine erase_bind_eq (listTargetNoted_erase path) fun r => ?_
    rw [erase_lift]
    cases r with
    | none => rfl
    | some i => rfl

theorem PathCall.noted_erase (call : PathCall) (path : List UInt8) :
    (call.noted path).erase = call.prog path := by
  cases call with
  | list ci => exact nvfsListNoted_erase ci path
  | read max => exact erase_bind_eq (existing_erase none path _) fun _ => rfl
  | write env data size =>
    refine (namedNoted_erase false path _).trans ?_
    refine congrArg (DiskProg.bind _) (funext fun r => ?_)
    cases r with
    | none => rfl
    | some r => rfl
  | delete env => exact existing_erase false path _
  | mkdir env =>
    refine (namedNoted_erase false path _).trans ?_
    refine congrArg (DiskProg.bind _) (funext fun r => ?_)
    cases r with
    | none => rfl
    | some r => rfl
  | rmdir env => exact existing_erase false path _
  | chdir => exact erase_bind_eq (nvfsChdirNoted_erase path) fun _ => rfl
  | append env data size => exact existing_erase false path _

end

/-! ## All calls -/

/-- The call returns, or goes on, without `resolve_path`. -/
def PathCall.Skips (g : Globals) (path : List UInt8) : PathCall → Prop
  | .list _ => g.mounted = false ∨ path.takeWhile (· != 0) = []
  | .chdir => g.mounted = false ∨ path.takeWhile (· != 0) = []
  | _ => g.mounted = false

section

variable {fl : Faults} {g : Globals} {d : Disk} {path : List UInt8}

theorem namedNoted_notes {α : Type} (fail : α) (k : Nat → List UInt8 → NvfsM α) :
    (exec fl (namedNoted fail path k).prog g d).1.2
      = if g.mounted then (exec fl (resolvePathNoted path).prog g d).1.2 else [] := by
  unfold namedNoted
  rw [exec_getState_bind]
  cases g.mounted with
  | false => exact (silent_lift _).bind (fun _ => silent_pure _) fl g d
  | true =>
    refine exec_bind_silent fl _ (fun r => ?_) g d
    cases r with
    | none => exact silent_pure _
    | some r =>
      obtain ⟨parent, name⟩ := r
      by_cases hname : name = []
      · simp only [hname, if_true]
        exact (silent_lift _).bind fun _ => silent_pure _
      simp only [hname, if_false]
      exact silent_lift _

theorem nvfsChdirNoted_notes : (exec fl (nvfsChdirNoted path).prog g d).1.2
    = if g.mounted = true ∧ path.takeWhile (· != 0) ≠ [] then
        (exec fl (resolvePathNoted path).prog g d).1.2
      else [] := by
  unfold nvfsChdirNoted
  rw [exec_getState_bind]
  cases g.mounted with
  | false => exact (silent_lift _).bind (fun _ => silent_pure _) fl g d
  | true =>
    by_cases hpath : path.takeWhile (· != 0) = []
    · simp only [hpath, if_true, ne_eq, not_true_eq_false, and_false, if_false]
      exact (silent_lift _).bind (fun _ => silent_pure _) fl g d
    simp only [hpath, if_true, ne_eq, not_false_eq_true, and_self, if_false]
    refine exec_bind_silent fl _ (fun r => ?_) g d
    cases r with
    | none => exact silent_pure _
    | some r => exact silent_lift _

theorem nvfsListNoted_notes (ci : Inode) : (exec fl (nvfsListNoted ci path).prog g d).1.2
    = if g.mounted = true ∧ path.takeWhile (· != 0) ≠ [] then
        (exec fl (resolvePathNoted path).prog g d).1.2
      else [] := by
  unfold nvfsListNoted
  rw [exec_getState_bind]
  cases g.mounted with
  | false => exact (silent_lift _).bind (fun _ => silent_pure _) fl g d
  | true =>
    refine (exec_bind_silent fl _ (fun r => silent_lift _) g d).trans ?_
    unfold listTargetNoted
    rw [exec_getState_bind]
    by_cases hpath : path.takeWhile (· != 0) = []
    · simp only [hpath, if_true, ne_eq, not_true_eq_false, and_false, if_false]
      rfl
    simp only [hpath, if_true, ne_eq, not_false_eq_true, and_self, if_false]
    refine exec_bind_silent fl _ (fun r => ?_) g d
    cases r with
    | none => exact silent_pure _
    | some r => exact silent_lift _

/-- A call writes to the array what `resolve_path` writes, if it gets there. -/
theorem PathCall.notes_eq (call : PathCall) :
    (call.Skips g path ∧ (exec fl (call.noted path).prog g d).1.2 = []) ∨
    (¬ call.Skips g path ∧
      (exec fl (call.noted path).prog g d).1.2 = (exec fl (resolvePathNoted path).prog g d).1.2) := by
  have hnamed : ∀ {m : List Nat},
      m = (if g.mounted then (exec fl (resolvePathNoted path).prog g d).1.2 else []) →
      (g.mounted = false ∧ m = []) ∨
        (¬ g.mounted = false ∧ m = (exec fl (resolvePathNoted path).prog g d).1.2) := by
    rintro m rfl
    cases g.mounted with
    | false => exact .inl ⟨rfl, rfl⟩
    | true => exact .inr ⟨by decide, rfl⟩
  have hpath : ∀ {m : List Nat},
      m = (if g.mounted = true ∧ path.takeWhile (· != 0) ≠ [] then
        (exec fl (resolvePathNoted path).prog g d).1.2 else []) →
      ((g.mounted = false ∨ path.takeWhile (· != 0) = []) ∧ m = []) ∨
        (¬ (g.mounted = false ∨ path.takeWhile (· != 0) = []) ∧
          m = (exec fl (resolvePathNoted path).prog g d).1.2) := by
    rintro m rfl
    split
    · next h =>
      refine .inr ⟨?_, rfl⟩
      rintro (hoff | hempty)
      · exact absurd (h.1.symm.trans hoff) (by decide)
      · exact h.2 hempty
    next h =>
    refine .inl ⟨?_, rfl⟩
    by_contra hno
    rw [not_or] at hno
    exact h ⟨Bool.eq_true_of_not_eq_false hno.1, hno.2⟩
  cases call with
  | list ci => exact hpath (nvfsListNoted_notes ci)
  | read max =>
    exact hnamed ((exec_bind_silent fl _ (fun _ => silent_pure _) g d).trans
      (namedNoted_notes none _))
  | write env data size => exact hnamed (namedNoted_notes false _)
  | delete env => exact hnamed (namedNoted_notes false _)
  | mkdir env => exact hnamed (namedNoted_notes false _)
  | rmdir env => exact hnamed (namedNoted_notes false _)
  | chdir =>
    exact hpath ((exec_bind_silent fl _ (fun _ => silent_pure _) g d).trans
      nvfsChdirNoted_notes)
  | append env data size => exact hnamed (namedNoted_notes false _)

theorem PathCall.inArray_iff (call : PathCall) :
    (∀ i ∈ (exec fl (call.noted path).prog g d).1.2, i < nvfsMaxName + 1) ↔
      call.Skips g path ∨ (lastComponent path).length ≤ nvfsMaxName ∨
        (exec fl (resolvePath path) g d).1 = none := by
  obtain ⟨hskip, heq⟩ | ⟨hno, heq⟩ :
      (call.Skips g path ∧ (exec fl (call.noted path).prog g d).1.2 = []) ∨ _ := call.notes_eq
  · rw [heq]
    exact iff_of_true (fun i hi => absurd hi not_mem_nil) (.inl hskip)
  · rw [heq, resolvePathNoted_iff, or_iff_right hno]

end

/-- For every call, every path of any length and every pattern of sector failures: the indices
    that `resolve_path` writes in the caller's array are all below `NVFS_MAX_NAME + 1` exactly if
    it is not called, the last component has at most `NVFS_MAX_NAME` characters, or the
    directories before it cannot be walked.  Without its notes of the indices, the program is
    that of the call. -/
theorem name_buffer_iff (call : PathCall) (path : List UInt8) (fl : Faults) (g : Globals)
    (d : Disk) :
    (call.noted path).erase = call.prog path ∧
    ((∀ i ∈ (exec fl (call.noted path).prog g d).1.2, i < nvfsMaxName + 1) ↔
      call.Skips g path ∨ (lastComponent path).length ≤ nvfsMaxName ∨
        (exec fl (resolvePath path) g d).1 = none) :=
  ⟨call.noted_erase path, call.inArray_iff⟩

/-- A name of 28 characters. -/
def longName : List UInt8 := List.replicate 28 65

/-- `nvfs_mkdir` of it on a mounted volume writes behind the end of the array. -/
theorem name_buffer_overflow :
    ∃ i ∈ (exec (Faults.none 4100)
      ((PathCall.mkdir ⟨fun _ => 0, fun _ => Extent.zero, none⟩).noted longName).prog
      oneSectorGlobals fun _ => Sector.zero).1.2, ¬ i < nvfsMaxName + 1 := by
  by_contra hnone
  have hall : ∀ i ∈ (exec (Faults.none 4100)
      ((PathCall.mkdir ⟨fun _ => 0, fun _ => Extent.zero, none⟩).noted longName).prog
      oneSectorGlobals fun _ => Sector.zero).1.2, i < nvfsMaxName + 1 := fun i hi => by
    by_contra hlt
    exact hnone ⟨i, hi, hlt⟩
  have hfound : (exec (Faults.none 4100) (resolvePath longName) oneSectorGlobals
      fun _ => Sector.zero).1 = some (0, longName) := rfl
  rcases (PathCall.inArray_iff _).mp hall with hskip | hlen | hfail
  · have hmounted : oneSectorGlobals.mounted = false := hskip
    exact absurd hmounted (by decide)
  · exact absurd hlen (by decide)
  rw [hfound] at hfail
  cases hfail

end Noverix.Nvfs
