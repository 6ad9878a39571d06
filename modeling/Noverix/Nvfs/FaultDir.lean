/-
  Directories on a device that may fail.  `dir_find` finds the entry it looks
  for or stumbles over a block it cannot read.  `dir_add` has more ways to end
  than its result tells (`Added`): it may leave everything in use alone, give
  up a block it has marked, leave an entry behind whose directory it could not
  write, or succeed, in a free slot or with a new block whose marks may or may
  not have been stored.
-/

import Noverix.Nvfs.FaultIO

namespace Noverix.Nvfs

open Lib
open Lib.DiskProg (must must_bind must_of_forall)

variable {D : Device} {g : Globals} {d : Disk}

/-! ## Names -/

theorem must_resolveLoop {cs : List UInt8} (hcs : NulFree cs) {cur : Nat} {seg : List UInt8}
    (hseg : NulFree seg) :
    must D (resolveLoop cur seg cs) (fun r _ _ => ∀ p, r = some p → NulFree p.2) g d := by
  induction cs generalizing cur seg with
  | nil =>
    unfold resolveLoop resolveLast
    split
    · rw [must_bind]
      refine must_of_forall fun r g d => ?_
      cases r with
      | none => exact fun _ h => by cases h
      | some p =>
        rintro _ ⟨⟩
        exact nulFree_nil
    split
    · rintro _ ⟨⟩
      exact nulFree_nil
    rintro _ ⟨⟩
    exact hseg.toUpper
  | cons c cs ih =>
    have hcs' : NulFree cs := fun x hx => hcs x (mem_cons_of_mem _ hx)
    unfold resolveLoop
    split
    · split
      · exact ih hcs' nulFree_nil
      rw [must_bind]
      refine must_of_readOnly (readOnly_resolveComponent _ _) (R := fun _ => True)
        (must_of_forall fun _ _ _ => trivial) fun r _ => ?_
      cases r with
      | none => exact fun _ h => by cases h
      | some next => exact ih hcs' nulFree_nil
    refine ih hcs' fun x hx => ?_
    rcases mem_append.mp hx with hx | hx
    · exact hseg x hx
    rw [mem_singleton.mp hx]
    exact hcs c mem_cons_self

theorem must_resolvePath (path : List UInt8) :
    must D (resolvePath path) (fun r _ _ => ∀ p, r = some p → NulFree p.2) g d := by
  have hbuf := pathBuf_nulFree path
  unfold resolvePath
  rw [must_bind, must_getState]
  cases hb : pathBuf path with
  | nil =>
    rintro _ ⟨⟩
    exact nulFree_nil
  | cons c cs =>
    rw [hb] at hbuf
    simp only
    split
    · exact must_resolveLoop (fun x hx => hbuf x (mem_cons_of_mem _ hx)) nulFree_nil
    · exact must_resolveLoop hbuf nulFree_nil

theorem must_resolveNamed (path : List UInt8) :
    must D (resolveNamed path) (fun r _ _ => ∀ p, r = some p → NulFree p.2) g d := by
  unfold resolveNamed
  rw [must_bind, must_getState]
  split
  · rw [must_bind]
    refine must_of_readOnly (readOnly_resolvePath _) (must_resolvePath path) fun r hr => ?_
    cases r with
    | none => exact fun _ h => by cases h
    | some p =>
      simp only
      split
      · exact fun _ h => by cases h
      rintro _ ⟨⟩
      exact hr p rfl
  · exact fun _ h => by cases h

/-! ## Lookup -/

variable {dir : Nat} {name : List UInt8}

theorem must_dirFind (hg : Regular g) (hn : NulFree name)
    (hdata : ((view g d).ino dir).type = nvfsTypeDir →
      ∀ b ∈ (view g d).refs ((view g d).ino dir), b < bitmapBits g) :
    must D (dirFind dir name) (fun r _ _ => r = none ∧ Unread D g (view g d) dir ∨
      r = if ((view g d).ino dir).type = nvfsTypeDir
        then lookup ((view g d).entries ((view g d).ino dir)) name else none) g d := by
  have hraw : must D (dirFind dir name) _ g d := must_dirFind_raw hn
  unfold Unread at hraw ⊢
  rw [hg.rawView_ino] at hraw
  by_cases ht : ((view g d).ino dir).type = nvfsTypeDir
  · obtain ⟨hrefs, hentries⟩ := hg.rawView_entries (hdata ht)
    rw [hrefs, hentries] at hraw
    exact hraw
  rw [if_neg ht] at hraw ⊢
  exact DiskProg.must_mono (fun r _ _ h => .inr (h.elim And.left id)) hraw

/-! ## Recording a block -/

/-- How `dir_add_extent` records block `b` in the inode `n`. -/
inductive Extended (D : Device) (g : Globals) (V : Vol) (n : Inode) (b : Nat) :
    Inode → List Note → Vol → Prop where
  | direct : n.extentCount.toNat < 13 → Extended D g V n b (n.addDirect b) [] V
  | indirect {ind ok s} : n.extentCount.toNat = 13 → ind < bitmapBits g → V.bit ind = false →
      D.ok (blockSector g ind) → loadExtent s.byte 0 = oneBlock b →
      Extended D g V n b (n.addIndirect ind) [Note.marked ind ok]
        ((if ok then V.setBit ind true else V).setBlk ind s)
  | later {s} : n.extentCount.toNat = 14 →
      loadExtent s.byte 0 = loadExtent (V.blk (n.ext 13).start.toNat).byte 0 →
      Extended D g V n b n.addLater [] (V.setBlk (n.ext 13).start.toNat s)

variable {n : Inode}

theorem Inode.indBlks_of_count (h : n.extentCount.toNat = 14) :
    n.indBlks = [(n.ext 13).start.toNat] := if_pos (by simp only [nvfsDirectExtents]; omega)

theorem Inode.indBlks_of_le (h : n.extentCount.toNat ≤ 13) : n.indBlks = [] :=
  if_neg (by simp only [nvfsDirectExtents]; omega)

/-- The volume with block `b` marked, if that worked. -/
def Vol.markIf (V : Vol) (b : Nat) (ok : Bool) : Vol := if ok then V.setBit b true else V

section

variable {V : Vol} {b : Nat} {ok : Bool}

@[simp] theorem Vol.markIf_ino : (V.markIf b ok).ino = V.ino := by cases ok <;> rfl

@[simp] theorem Vol.markIf_blk : (V.markIf b ok).blk = V.blk := by cases ok <;> rfl

theorem Vol.markIf_bit (c : Nat) :
    (V.markIf b ok).bit c = (V.bit c || (decide (c = b) && ok)) := by
  cases ok with
  | false => simp [markIf]
  | true =>
    unfold markIf
    rw [if_pos rfl, setBit_bit]
    by_cases hc : c = b <;> simp [hc]

theorem Touched.markIf {W : Vol} (h : Touched V b W) : Touched V b (W.markIf b ok) := by
  cases ok with
  | false => exact h
  | true => exact h.setBit true

end

namespace Extended

variable {V W : Vol} {n n' : Inode} {b : Nat} {m : List Note}

section

variable (h : Extended D g V n b n' m W)
include h

theorem onlyMarks : OnlyMarks m := by
  intro x hx
  cases h with
  | direct _ => cases hx
  | indirect _ _ _ _ _ => exact ⟨_, _, mem_singleton.mp hx⟩
  | later _ _ => cases hx

theorem ino : W.ino = V.ino := by
  cases h with
  | direct _ => rfl
  | indirect _ _ _ _ _ => exact Vol.markIf_ino
  | later _ _ => rfl

theorem bit (c : Nat) : W.bit c = (V.bit c || decide (Note.marked c true ∈ m)) := by
  cases h with
  | direct _ => simp
  | @indirect ind ok s _ _ _ _ _ =>
    refine (Vol.markIf_bit c).trans ?_
    cases ok <;> simp
  | later _ _ => simp

theorem blk {c : Nat} (hc : V.bit c = true) (hn : c ∉ n.indBlks) : W.blk c = V.blk c := by
  cases h with
  | direct _ => rfl
  | @indirect ind ok s _ _ hfree _ _ =>
    have hne : c ≠ ind := by
      rintro rfl
      rw [hfree] at hc
      cases hc
    rw [setBlk_blk, if_neg hne]
    exact congrFun Vol.markIf_blk c
  | later h14 _ =>
    rw [Inode.indBlks_of_count h14, mem_singleton] at hn
    rw [setBlk_blk, if_neg hn]

theorem extList_old : W.extList n = V.extList n := by
  cases h with
  | direct _ => rfl
  | indirect h13 _ _ _ _ =>
    refine extList_congr fun c hc => ?_
    rw [Inode.indBlks_of_le (by omega)] at hc
    cases hc
  | later h14 hs =>
    have hcount : n.addLater.capExtents.extentCount = n.extentCount :=
      UInt32.toNat_inj.mp ((Inode.addLater_count h14).trans h14.symm)
    have hexts : n.addLater.capExtents.extents = n.extents := by
      rw [Inode.capExtents_extents]
      simp only [Inode.addLater]
    rw [← Vol.extList_inode hcount hexts]
    refine Vol.extList_addLater h14 ?_
    rw [setBlk_blk, if_pos rfl]
    exact hs

/-- With room for the extent, the inode written has one block more; the notes name its indirect
    block if that is new. -/
theorem extList_new (hg : Regular g) (hc : n.extentCount.toNat ≤ 13) :
    W.extList n'.capExtents = V.extList n ++ [oneBlock b] ∧
      ∀ c, c ∈ n'.capExtents.indBlks ↔ ∃ ok, Note.marked c ok ∈ m := by
  have hbits := hg.bits_lt
  cases h with
  | direct hlt =>
    have hle : (n.addDirect b).extentCount.toNat ≤ 13 := by
      rw [Inode.addDirect_count hlt]
      omega
    rw [capExtents_of_le (by omega), Inode.indBlks_of_le hle]
    refine ⟨Vol.extList_addDirect hlt _ _, fun c => ?_⟩
    simp
  | @indirect ind ok s h13 hlt _ _ hs =>
    have hcap : (n.addIndirect ind).capExtents = n.addIndirect ind :=
      capExtents_of_le (by rfl)
    rw [hcap, (Inode.indBlks_addIndirect h13 (by omega)).1]
    refine ⟨Vol.extList_addIndirect h13 (by omega) ?_, fun c => ?_⟩
    · rw [setBlk_blk, if_pos rfl]
      exact hs
    · simp [eq_comm]
  | later h14 _ => omega

theorem extList_lost (hc : n.extentCount.toNat = 14) :
    W.extList n'.capExtents = V.extList n ∧ n'.capExtents.indBlks = n.indBlks ∧ m = [] := by
  cases h with
  | direct hlt => omega
  | indirect h13 _ _ _ _ => omega
  | later h14 hs =>
    refine ⟨Vol.extList_addLater h14 ?_, Inode.indBlks_addLater h14, rfl⟩
    rw [setBlk_blk, if_pos rfl]
    exact hs

theorem type : n'.capExtents.type = n.type := by
  rw [Inode.capExtents_type]
  cases h with
  | direct _ => simp only [Inode.addDirect, Inode.setExt]
  | indirect _ _ _ _ _ => simp only [Inode.addIndirect, Inode.setExt]
  | later _ _ => simp only [Inode.addLater]

theorem mem_refs (hg : Regular g) (hb : b < bitmapBits g) (hc : n.extentCount.toNat ≤ 13) (c : Nat) :
    c ∈ W.refs n'.capExtents ↔ c ∈ V.refs n ∨ c = b ∨ ∃ ok, Note.marked c ok ∈ m := by
  have hbits := hg.bits_lt
  obtain ⟨hexts, hind⟩ := h.extList_new hg hc
  rw [Vol.refs, mem_append, hind, Vol.blocksOf, hexts, extentBlocks_append,
    extentBlocks_oneBlock (by omega), mem_append, mem_singleton, Vol.refs,
    Inode.indBlks_of_le hc, append_nil, or_assoc]
  rfl

theorem refs_lost (hc : n.extentCount.toNat = 14) : W.refs n'.capExtents = V.refs n ∧ m = [] := by
  obtain ⟨hexts, hind, hm⟩ := h.extList_lost hc
  refine ⟨?_, hm⟩
  rw [Vol.refs, Vol.blocksOf, hexts, hind]
  rfl

theorem count_new (hc : n.extentCount.toNat ≤ 13) :
    n'.capExtents.extentCount.toNat = n.extentCount.toNat + 1 := by
  cases h with
  | direct hlt =>
    have hcount := Inode.addDirect_count hlt b
    rw [capExtents_of_le (by omega), hcount]
  | @indirect ind _ _ h13 _ _ _ _ =>
    rw [capExtents_of_le (n := n.addIndirect ind) le_rfl, h13]
    rfl
  | later h14 _ => omega

theorem count_lost (hc : n.extentCount.toNat = 14) : n'.capExtents.extentCount.toNat = 14 := by
  cases h with
  | direct hlt => omega
  | indirect h13 _ _ _ _ => omega
  | later h14 _ => exact Inode.addLater_count h14

variable {c : Nat} {ok : Bool}

theorem served (hc : Note.marked c ok ∈ m) : D.ok (blockSector g c) := by
  cases h with
  | direct _ => cases hc
  | indirect _ _ _ hok _ =>
    cases mem_singleton.mp hc
    exact hok
  | later _ _ => cases hc

theorem free (hc : Note.marked c ok ∈ m) : V.bit c = false := by
  cases h with
  | direct _ => cases hc
  | indirect _ _ hfree _ _ =>
    cases mem_singleton.mp hc
    exact hfree
  | later _ _ => cases hc

end

end Extended

theorem Vol.markIf_setBlk (V : Vol) (b : Nat) (ok : Bool) (s t : Sector) :
    ((V.setBlk b s).markIf b ok).setBlk b t = (V.markIf b ok).setBlk b t := by
  apply Vol.ext
  · cases ok <;> rfl
  · cases ok <;> rfl
  · cases ok <;> rfl
  · funext c
    rw [setBlk_blk, setBlk_blk, markIf_blk, markIf_blk, setBlk_blk]
    by_cases hc : c = b
    · rw [if_pos hc, if_pos hc]
    · rw [if_neg hc, if_neg hc, if_neg hc]

variable {b : Nat}

theorem must_dirAddExtent (hg : Regular g) (hcap : n.extentCount.toNat ≤ 14)
    (hind : ∀ c ∈ n.indBlks, c < bitmapBits g) :
    (dirAddExtentNoted n b).must D (fun r m g' d' => g' = g ∧
      (r = none → OnlyMarks m ∧ Spared D g d d') ∧
      (∀ n', r = some n' → Extended D g (view g d) n b n' m (view g d') ∧
        (BitmapServed D g → ∀ c ok, Note.marked c ok ∈ m → ok = true))) g d := by
  have hkeep : ∀ m, OnlyMarks m → OnlyMarks m ∧ Spared D g d d :=
    fun m hm => ⟨hm, Spares.refl _, fun _ => rfl⟩
  have hnil : OnlyMarks [] := fun x hx => by cases hx
  unfold dirAddExtentNoted
  rcases Nat.lt_trichotomy n.extentCount.toNat 13 with hlt | heq | hgt
  · rw [if_neg (by simp only [nvfsDirectExtents]; omega), must_lift]
    unfold dirAddExtent
    rw [if_pos hlt]
    refine ⟨rfl, fun h => (by cases h), ?_⟩
    intro n' hn'
    obtain rfl := some.inj hn'
    exact ⟨.direct hlt, fun _ c ok h => by cases h⟩
  · -- the thirteenth extent: a block for the indirect ones comes first
    rw [if_pos heq, Noted.must_bind]
    unfold indirectAllocNoted
    rw [must_lifted]
    refine must_of_readOnly (readOnly_bitmapFind _) (must_bitmapFind hg (by omega)) fun r hr => ?_
    cases r with
    | none => exact ⟨rfl, fun _ => hkeep _ hnil, fun _ h => by cases h⟩
    | some ind =>
      obtain ⟨hlt, hfree, -⟩ := hr ind rfl
      rw [must_lifted]
      refine must_writeBlock hg hlt (fun _ => ?_) fun d₁ hd₁ _ => ?_
      · exact ⟨rfl, fun _ => hkeep _ hnil, fun _ h => by cases h⟩
      · -- whether or not the mark is stored, the extents are written next
        have hrest : ∀ ok d₂, view g d₂ = (view g d₁).markIf ind ok →
            (BitmapServed D g → ok = true) →
            (do
              if ← lift (indirectWriteExtents ind (fun _ => ⟨UInt32.ofNat b, 1⟩) 1) then
                return some { n.setExt nvfsDirectExtents
                    ⟨UInt32.ofNat ind, nvfsIndirectMarker⟩ with
                  extentCount := UInt32.ofNat (nvfsDirectExtents + 1)
                  size := n.size + UInt32.ofNat nvfsSectorSize }
              else
                lift (setErrno .io)
                let _ ← lift (bitmapSet ind false)
                return none : NotedM (Option Inode)).must D (fun r m g' d' => g' = g ∧
              (r = none → OnlyMarks ([Note.marked ind ok] ++ m) ∧
                Spared D g d d') ∧
              (∀ n', r = some n' →
                Extended D g (view g d) n b n' ([Note.marked ind ok] ++ m) (view g d') ∧
                (BitmapServed D g → ∀ c ok', Note.marked c ok' ∈ [Note.marked ind ok] ++ m →
                  ok' = true))) g d₂ := by
          intro ok d₂ hd₂ hserved
          have htouched : Touched (view g d) ind (view g d₂) := by
            rw [hd₂, hd₁]
            exact ((Touched.refl hfree).setBlk _).markIf
          rw [must_lifted]
          unfold indirectWriteExtents
          refine must_writeBlock hg hlt (fun _ => ?_) fun d₃ hd₃ hok₃ => ?_
          · rw [if_neg Bool.false_ne_true, must_lifted, must_setErrno,
              must_lifted]
            refine must_unmark hg rfl rfl hlt htouched fun _ d₄ h₄ hserved₄ => ?_
            refine ⟨rfl, fun _ => ⟨fun x hx => ⟨ind, ok, ?_⟩, h₄.spares, hserved₄⟩,
              fun _ h => by cases h⟩
            simpa using hx
          · rw [if_pos rfl, Noted.must_pure]
            refine ⟨rfl, fun h => (by cases h), ?_⟩
            intro n' hn'
            obtain rfl := some.inj hn'
            refine ⟨?_, fun hs c ok' hm => ?_⟩
            · rw [hd₃, hd₂, hd₁, Vol.markIf_setBlk]
              exact .indirect heq hlt hfree hok₃ (loadExtent_indirect _ (by decide))
            · simp only [append_nil, mem_singleton, Note.marked.injEq] at hm
              rw [hm.2]
              exact hserved hs
        rw [if_pos rfl, must_lifted]
        refine must_bitmapSet hg hlt (fun hbad => ?_) fun d₂ hd₂ => ?_
        · exact hrest false d₁ rfl fun hs => absurd hbad (hs.not_bad hg hlt)
        · exact hrest true d₂ hd₂ fun _ => rfl
  -- one more extent in the indirect block there is
  have h14 : n.extentCount.toNat = 14 := by omega
  have hin : (n.ext 13).start.toNat < bitmapBits g := hind _ (by
    rw [Inode.indBlks_of_count h14]
    exact mem_singleton_self _)
  rw [if_neg (by simp only [nvfsDirectExtents]; omega), must_lift]
  unfold dirAddExtent
  rw [if_neg (by simp only [nvfsDirectExtents]; omega),
    if_neg (by simp only [nvfsDirectExtents]; omega)]
  simp only [nvfsDirectExtents]
  rw [DiskProg.must_bind]
  refine must_indirectReadExtents hg hin (fun _ => ?_) ?_
  · exact ⟨rfl, fun _ => hkeep _ hnil, fun _ h => by cases h⟩
  · simp only
    rw [if_neg (by simp only [nvfsIndirectEnts, nvfsSectorSize, nvfsExtentSize]; omega),
      DiskProg.must_bind]
    unfold indirectWriteExtents
    refine must_writeBlock hg hin (fun _ => ?_) fun d' hd' _ => ?_
    · exact ⟨rfl, fun _ => hkeep _ hnil, fun _ h => by cases h⟩
    · rw [if_pos rfl]
      refine ⟨rfl, fun h => (by cases h), ?_⟩
      intro n' hn'
      obtain rfl := some.inj hn'
      refine ⟨?_, fun _ c ok h => by cases h⟩
      rw [hd']
      refine .later h14 ((loadExtent_indirect _ (by omega)).trans ?_)
      rw [if_neg (by omega)]
      rfl

/-! ## Adding an entry -/

/-- Everything in use in `V` is as it was, but that the indirect block of `n` may have got
    extents that `n` does not count. -/
structure DirKept (V : Vol) (n : Inode) (W : Vol) : Prop where
  ino : W.ino = V.ino
  bit : ∀ b, V.bit b = true → W.bit b = true
  blk : ∀ b, V.bit b = true → b ∉ n.indBlks → W.blk b = V.blk b
  exts : W.extList n = V.extList n

variable {V W : Vol}

theorem Spares.dirKept (h : Spares V W)
    (hind : ∀ b ∈ n.indBlks, V.bit b = true) : DirKept V n W :=
  ⟨h.ino, h.bit, fun b hb _ => h.blk b hb, extList_congr fun b hb => h.blk b (hind b hb)⟩

/-- The note of the mark of a directory's new block. -/
def markNote (n : Inode) (b : Nat) (ok : Bool) : List Note :=
  if ok = true ∨ n.extentCount.toNat ≤ nvfsDirectExtents then [Note.marked b ok] else []

variable {ok : Bool}

theorem must_noteMark
    {Q : Unit → List Note → Globals → Disk → Prop} :
    (noteMark n b ok).must D Q g d ↔ Q () (markNote n b ok) g d := by
  unfold noteMark markNote
  split
  · exact .rfl
  · exact .rfl

theorem markNote_onlyMarks (n : Inode) (b : Nat) (ok : Bool) : OnlyMarks (markNote n b ok) := by
  intro x hx
  unfold markNote at hx
  split at hx
  · exact ⟨b, ok, mem_singleton.mp hx⟩
  · cases hx

theorem OnlyMarks.append {m m' : List Note} (h : OnlyMarks m) (h' : OnlyMarks m') :
    OnlyMarks (m ++ m') := fun x hx => (mem_append.mp hx).elim (h x) (h' x)

/-- How `dir_add` ends: with its result, its notes, and the volume it leaves. -/
inductive Added (D : Device) (g : Globals) (V : Vol) (dir : Nat) (nd : Mem) (t : UInt32) :
    Bool → List Note → Vol → Prop where
  /-- Nothing has been written. -/
  | untouched : Added D g V dir nd t false [] V
  /-- Nothing in use has changed, and what was marked is given back. -/
  | kept {m W} : (V.ino dir).type = nvfsTypeDir → OnlyMarks m → DirKept V (V.ino dir) W →
      (BitmapServed D g → W.bit = V.bit) → Added D g V dir nd t false m W
  /-- Nothing in use has changed, but a block that was marked is not given back. -/
  | lost {m x W} : (V.ino dir).type = nvfsTypeDir → OnlyMarks m →
      x = Note.blockUnwritten ∨ x = Note.blockUnsaved → DirKept V (V.ino dir) W →
      (BitmapServed D g → ∃ b, V.bit b = false ∧ W.bit b = true) →
      Added D g V dir nd t false (m ++ [x]) W
  /-- The entry is there, in a free slot, but the directory's inode could not be written. -/
  | unsaved {b e} : (V.ino dir).type = nvfsTypeDir → b ∈ V.blocksOf (V.ino dir) →
      freeSlot (V.blk b) = some e →
      Added D g V dir nd t false [Note.entryUnsaved] (V.setBlk b (putSlot (V.blk b) e nd))
  /-- The entry is in a free slot. -/
  | slot {b e} : b ∈ V.blocksOf (V.ino dir) → freeSlot (V.blk b) = some e →
      Added D g V dir nd t true []
        ((V.setBlk b (putSlot (V.blk b) e nd)).setIno dir ((V.ino dir).stamp t))
  /-- The entry is in a new block. -/
  | grown {b ok n' m W} : FullDir V (V.ino dir) → b < bitmapBits g → V.bit b = false →
      D.ok (blockSector g b) →
      Extended D g ((V.markIf b ok).setBlk b (putSlot Sector.zero 0 nd)) (V.ino dir) b n' m W →
      (BitmapServed D g → ok = true ∧ ∀ c ok', Note.marked c ok' ∈ m → ok' = true) →
      Added D g V dir nd t true (markNote (V.ino dir) b ok ++ m)
        (W.setIno dir (n'.capExtents.stamp t))

theorem view_count (i : Nat) : ((view g d).ino i).extentCount.toNat ≤ 14 := by
  rw [view_ino]
  split
  · exact Inode.capExtents_count _
  · decide

variable {nd : Mem}

/-- The new block is filled, the directory gets an extent for it, and its inode is written. -/
theorem must_dirAddFill (hg : Regular g) {V : Vol} {dir b ticks : Nat}
    (hn : V.ino dir = n)
    (htype : (V.ino dir).type = nvfsTypeDir)
    (hcap : n.extentCount.toNat ≤ 14) (hind : ∀ c ∈ n.indBlks, V.bit c = true)
    (hlt : ∀ c, V.bit c = true → c < bitmapBits g) (hfull : FullDir V n) (hb : b < bitmapBits g)
    (hfree : V.bit b = false) (hd : view g d = V.markIf b ok)
    (hserved : BitmapServed D g → ok = true) :
    (dirAddFillNoted dir n nd ticks b).must D (fun r m g' d' => g' = g ∧
      Added D g V dir nd (nowSec ticks) r (markNote n b ok ++ m) (view g d')) g d := by
  have h1 : Touched V b (view g d) := hd ▸ (Touched.refl hfree).markIf
  have hmark : BitmapServed D g → (view g d).bit b = true := by
    intro hs
    rw [hd, Vol.markIf_bit, hserved hs]
    simp
  unfold dirAddFillNoted
  rw [must_lifted]
  refine must_writeBlock hg hb (fun _ => ?_) fun d2 hd2 hok2 => ?_
  · refine ⟨rfl, .lost htype (markNote_onlyMarks n b ok) (Or.inl rfl) ?_ fun hs => ?_⟩
    · rw [hn]
      exact h1.spares.dirKept hind
    · exact ⟨b, hfree, hmark hs⟩
  · have h2 : Touched V b (view g d2) := hd2 ▸ h1.setBlk _
    rw [if_pos rfl, Noted.must_bind]
    refine Noted.must_mono ?_ (must_dirAddExtent hg hcap fun c hc => hlt c (hind c hc))
    rintro r m g' d3 ⟨rfl, hnone, hsome⟩
    cases r with
    | none =>
      -- the new block is given back
      obtain ⟨hm, hspares, hkept⟩ := hnone rfl
      have hall := h2.spares.trans hspares
      have hback : ∀ d4, (view g' d4).ino = (view g' d3).ino →
          (view g' d4).blk = (view g' d3).blk →
          (∀ c ≠ b, (view g' d4).bit c = (view g' d3).bit c) →
          (BitmapServed D g' → (view g' d4).bit b = false) →
          Added D g' V dir nd (nowSec ticks) false
            (markNote n b ok ++ (m ++ [])) (view g' d4) := by
        intro d4 hino hblk hbit hclear
        have hspares4 : Spares V (view g' d4) := by
          refine ⟨hino.trans hall.ino, fun c hc => ?_, fun c hc => ?_⟩
          · rw [hbit c (h1.ne hc)]
            exact hall.bit c hc
          · rw [hblk]
            exact hall.blk c hc
        refine .kept htype ((markNote_onlyMarks n b ok).append (by rwa [append_nil]))
          (by rw [hn]; exact hspares4.dirKept hind) fun hs => funext fun c => ?_
        by_cases hc : c = b
        · rw [hc, hclear hs, hfree]
        · rw [hbit c hc, hkept hs, h2.bit c hc]
      rw [must_lifted]
      refine must_bitmapSet hg hb (fun hbad => ?_) fun d4 hd4 => ?_
      · exact ⟨rfl, hback d3 rfl rfl (fun _ _ => rfl)
          fun hs => absurd hbad (hs.not_bad hg hb)⟩
      · refine ⟨rfl, hback d4 (by rw [hd4]; rfl) (by rw [hd4]; rfl) ?_ ?_⟩
        · intro c hc
          rw [hd4, setBit_bit, if_neg hc]
        · intro _
          rw [hd4, setBit_bit, if_pos rfl]
    | some n' =>
      obtain ⟨hext, hall⟩ := hsome n' rfl
      rw [must_lifted]
      refine must_inodeWrite hg (fun _ => ?_) fun _ d4 hd4 => ?_
      · refine ⟨rfl, (append_assoc (markNote n b ok) m [Note.blockUnsaved]) ▸
          .lost htype ((markNote_onlyMarks n b ok).append hext.onlyMarks) (Or.inr rfl) ?_
            fun hs => ⟨b, hfree, ?_⟩⟩
        · rw [hn]
          refine ⟨hext.ino.trans h2.ino, fun c hc => ?_, fun c hc hci => ?_, ?_⟩
          · rw [hext.bit, h2.spares.bit c hc, Bool.true_or]
          · rw [hext.blk (h2.spares.bit c hc) hci, h2.spares.blk c hc]
          · rw [hext.extList_old]
            exact extList_congr fun c hc => h2.spares.blk c (hind c hc)
        · have hb2 : (view g' d2).bit b = true := by
            rw [hd2]
            exact hmark hs
          rw [hext.bit, hb2, Bool.true_or]
      · have hino : view g' d4
            = (view g' d3).setIno dir (n'.capExtents.stamp (nowSec ticks)) := by
          rw [hd4, ← stamp_capExtents]
          rfl
        rw [hd2, hd] at hext
        refine ⟨rfl, ?_⟩
        show Added D g' V dir nd (nowSec ticks) true
          (markNote n b ok ++ (m ++ [])) (view g' d4)
        rw [append_nil, hino]
        subst hn
        exact .grown hfull hb hfree hok2 hext fun hs => ⟨hserved hs, hall hs⟩

theorem must_dirAddGrow (hg : Regular g)
    (htype : ((view g d).ino dir).type = nvfsTypeDir)
    (hind : ∀ c ∈ ((view g d).ino dir).indBlks, (view g d).bit c = true)
    (hfull : FullDir (view g d) ((view g d).ino dir)) (nd : Mem) (ticks : Nat) :
    (dirAddGrowNoted dir ((view g d).ino dir) nd ticks).must D (fun r m g' d' => g' = g ∧
      Added D g (view g d) dir nd (nowSec ticks) r m (view g d')) g d := by
  unfold dirAddGrowNoted
  rw [must_lifted]
  refine must_of_readOnly (readOnly_bitmapFind _) (must_bitmapFind hg (by omega)) fun r hr => ?_
  cases r with
  | none => exact ⟨rfl, .untouched⟩
  | some b =>
    obtain ⟨hb, hfree, -⟩ := hr b rfl
    rw [must_lifted]
    refine must_bitmapSet hg hb (fun hbad => ?_) fun d1 hd1 => ?_
    · rw [Noted.must_bind, must_noteMark]
      exact must_dirAddFill hg rfl htype (view_count dir) hind (fun _ => view_bit_lt) hfull hb
        hfree rfl fun hs => absurd hbad (hs.not_bad hg hb)
    · rw [Noted.must_bind, must_noteMark]
      exact must_dirAddFill hg rfl htype (view_count dir) hind (fun _ => view_bit_lt) hfull hb
        hfree hd1 fun _ => rfl

theorem must_dirAddBlocks (hg : Regular g) {ticks : Nat}
    {full : NotedM Bool} {bs : List Nat} (hbs : ∀ b ∈ bs, b < bitmapBits g)
    {Q : Bool → List Note → Globals → Disk → Prop} (hfail : Q false [] g d)
    (hunsaved : ∀ b ∈ bs, ∀ e, freeSlot ((view g d).blk b) = some e → ∀ d',
      view g d' = (view g d).setBlk b (putSlot ((view g d).blk b) e nd) →
      Q false [Note.entryUnsaved] g d')
    (hslot : ∀ b ∈ bs, ∀ e, freeSlot ((view g d).blk b) = some e → ∀ d',
      view g d' = ((view g d).setBlk b (putSlot ((view g d).blk b) e nd)).setIno dir
        (n.stamp (nowSec ticks)).capExtents → Q true [] g d')
    (hfull : (∀ b ∈ bs, freeSlot ((view g d).blk b) = none) → full.must D Q g d) :
    (dirAddBlocksNoted dir n nd ticks full bs).must D Q g d := by
  induction bs with
  | nil => exact hfull fun b hb => by cases hb
  | cons b bs ih =>
    have hb := hbs b mem_cons_self
    unfold dirAddBlocksNoted
    rw [must_lifted]
    refine must_readBlock hg hb (fun _ => hfail) ?_
    cases hf : freeSlot ((view g d).blk b) with
    | none =>
      simp only [hf]
      refine ih (fun c hc => hbs c (mem_cons_of_mem _ hc))
        (fun c hc => hunsaved c (mem_cons_of_mem _ hc))
        (fun c hc => hslot c (mem_cons_of_mem _ hc)) fun hrest => hfull fun c hc => ?_
      rcases mem_cons.mp hc with rfl | hc
      · exact hf
      · exact hrest c hc
    | some e =>
      simp only [hf]
      rw [must_lifted]
      refine must_writeBlock hg hb (fun _ => hfail) fun d' hd' _ => ?_
      rw [if_pos rfl, must_lifted]
      refine must_inodeWrite hg (fun _ => ?_) fun _ d'' hd'' => ?_
      · exact hunsaved b mem_cons_self e hf d' hd'
      · refine hslot b mem_cons_self e hf d'' ?_
        rw [hd'', hd']
        rfl

/-- `dir_add`: when it succeeds, the directory is one, and the name was not found in it. -/
theorem must_dirAdd (hg : Regular g) (hn : NulFree name)
    (hdata : ((view g d).ino dir).type = nvfsTypeDir →
      ∀ c ∈ (view g d).refs ((view g d).ino dir), (view g d).bit c = true) (child ticks : Nat) :
    (dirAddNoted dir name child ticks).must D (fun r m g' d' => g' = g ∧
      Added D g (view g d) dir (direntBytes name child) (nowSec ticks) r m (view g d') ∧
      (r = true → ((view g d).ino dir).type = nvfsTypeDir ∧ dir < g.sbInodeCount ∧
        (Unread D g (view g d) dir ∨
          lookup ((view g d).entries ((view g d).ino dir)) name = none))) g d := by
  -- the ways to fail before anything is written
  have hkept : g = g ∧ Added D g (view g d) dir (direntBytes name child) (nowSec ticks) false []
      (view g d) ∧ (false = true → ((view g d).ino dir).type = nvfsTypeDir ∧
        dir < g.sbInodeCount ∧ (Unread D g (view g d) dir ∨
          lookup ((view g d).entries ((view g d).ino dir)) name = none)) :=
    ⟨rfl, .untouched, fun h => by cases h⟩
  unfold dirAddNoted
  rw [must_lifted]
  refine must_inodeRead hg (fun _ => hkept) fun hdir => ?_
  by_cases ht : ((view g d).ino dir).type = nvfsTypeDir
  · have hd := hdata ht
    have hlt : ∀ b ∈ (view g d).refs ((view g d).ino dir), b < bitmapBits g :=
      fun b hb => view_bit_lt (hd b hb)
    have hind : ∀ c ∈ ((view g d).ino dir).indBlks, (view g d).bit c = true :=
      fun c hc => hd c (mem_append_right _ hc)
    simp only
    rw [if_neg (not_not_intro ht), must_lifted]
    refine must_of_readOnly (readOnly_dirFind _ _) (must_dirFind hg hn fun _ => hlt) fun r hr => ?_
    cases r with
    | some i => exact hkept
    | none =>
      have hnew : Unread D g (view g d) dir ∨
          lookup ((view g d).entries ((view g d).ino dir)) name = none := by
        rw [if_pos ht] at hr
        rcases hr with ⟨-, h⟩ | h
        · exact .inl h
        · exact .inr h.symm
      simp only
      rw [must_lifted]
      refine must_extentLoadAll hg (fun b hb => hlt b (mem_append_right _ hb))
        (fun _ => hkept) ?_
      refine must_dirAddBlocks hg (fun b hb => hlt b (mem_append_left _ hb)) hkept ?_ ?_ ?_
      · intro b hb e he d' hd'
        refine ⟨rfl, ?_, fun h => by cases h⟩
        rw [hd']
        exact .unsaved ht hb he
      · intro b hb e he d' hd'
        have hcap : (((view g d).ino dir).stamp (nowSec ticks)).capExtents
            = ((view g d).ino dir).stamp (nowSec ticks) :=
          capExtents_of_le (view_count dir)
        refine ⟨rfl, ?_, fun _ => ⟨ht, hdir, hnew⟩⟩
        rw [hd', hcap]
        exact .slot hb he
      · intro hfull
        refine Noted.must_mono ?_ (must_dirAddGrow hg ht hind hfull (direntBytes name child) ticks)
        rintro r m g' d' ⟨rfl, hadd⟩
        exact ⟨rfl, hadd, fun _ => ⟨ht, hdir, hnew⟩⟩
  simp only
  rw [if_pos ht]
  exact hkept

end Noverix.Nvfs
