/-
  The page frame allocator (kernel/memory/pfa.c).

  A bitmap has one bit for each frame of 4096 bytes.  `alloc_frame` takes the
  first frame whose bit is clear, `alloc_frames` the first run.  Every function
  holds `pfa_lock` from its first look at the bitmap to its last, so a call is
  one step.
-/

import Noverix.Lib.Bits
import Mathlib.Data.Finset.Card
import Mathlib.Order.Interval.Finset.Nat

namespace Noverix.Memory

open Lib

/-! ## The model -/

abbrev frameSize : Nat := 4096

abbrev maxMemory : Nat := 1024 * 1024 * 1024

/-- `FRAME(addr)`. -/
def frameOf (addr : UInt32) : Nat := addr.toNat / frameSize

/-- `ADDR(frame)`. -/
def addrOf (frame : Nat) : UInt32 := UInt32.ofNat (frame * frameSize)

/-- `bitmap` and `total_frames`. -/
structure Pfa where
  bitmap : Mem
  totalFrames : Nat

namespace Pfa

def setBit (p : Pfa) (frame : Nat) : Pfa := { p with bitmap := putBit p.bitmap frame true }

def clearBit (p : Pfa) (frame : Nat) : Pfa := { p with bitmap := putBit p.bitmap frame false }

def testBit (p : Pfa) (frame : Nat) : Bool := bitAt p.bitmap frame

def markFrame (p : Pfa) (addr : UInt32) : Pfa :=
  if frameOf addr < p.totalFrames then p.setBit (frameOf addr) else p

/-- `for (a = lo; a < hi; a += FRAME_SIZE) mark_frame(a)`, for `lo` and `hi` on frame
    boundaries. -/
def markRange (p : Pfa) (lo hi : Nat) : Pfa :=
  (List.range' (lo / frameSize) ((hi - lo) / frameSize)).foldl (fun p k => p.markFrame (addrOf k)) p

/-- `kernel_end`, the end of the kernel rounded up to a frame. -/
def kernelEnd (bssEnd : UInt32) : UInt32 := (bssEnd + 4096 - 1) &&& ~~~ (4096 - 1)

/-- `pfa_init`.  The bitmap is in the bss and starts out clear. -/
def init (detectedRam bssEnd : UInt32) : Pfa :=
  let ram := if maxMemory < detectedRam.toNat then maxMemory else detectedRam.toNat
  let p : Pfa := ⟨fun _ => 0, ram / frameSize⟩
  let p := p.markRange 0 (kernelEnd bssEnd).toNat
  let p := p.markFrame 0x00090000
  let p := p.markFrame 0x000A0000
  p.markRange 0x000A0000 0x00100000

/-- `alloc_frame`: the address, 0 if there is no free frame. -/
def allocFrame (p : Pfa) : UInt32 × Pfa :=
  match (List.range p.totalFrames).find? fun i => !p.testBit i with
  | some i => (addrOf i, p.setBit i)
  | none => (0, p)

def freeFrame (p : Pfa) (addr : UInt32) : Pfa :=
  if addr = 0 then p
  else if frameOf addr < p.totalFrames then p.clearBit (frameOf addr)
  else p

def getFreeFrameCount (p : Pfa) : Nat := (List.range p.totalFrames).countP fun i => !p.testBit i

/-- Whether the `count` frames from `start` on are free. -/
def runFree (p : Pfa) (start count : Nat) : Bool :=
  (List.range count).all fun j => !p.testBit (start + j)

/-- `alloc_frames`: the address, 0 if there is no free run. -/
def allocFrames (p : Pfa) (count : UInt32) : UInt32 × Pfa :=
  if count = 0 ∨ p.totalFrames < count.toNat then (0, p)
  else
    match (List.range (p.totalFrames - count.toNat + 1)).find? fun start =>
        p.runFree start count.toNat with
    | some start =>
      (addrOf start, (List.range count.toNat).foldl (fun p j => p.setBit (start + j)) p)
    | none => (0, p)

/-- `free_frames`; `start + j` is a 32-bit sum. -/
def freeFrames (p : Pfa) (addr count : UInt32) : Pfa :=
  (List.range count.toNat).foldl (fun p j =>
    if (frameOf addr + j) % 2 ^ 32 < p.totalFrames then p.clearBit ((frameOf addr + j) % 2 ^ 32)
    else p) p

/-! ## Bits -/

variable (p : Pfa) (f g : Nat)

theorem testBit_setBit : (p.setBit g).testBit f = if f = g then true else p.testBit f :=
  bitAt_putBit ..

theorem testBit_clearBit : (p.clearBit g).testBit f = if f = g then false else p.testBit f :=
  bitAt_putBit ..

end Pfa

variable {f : Nat}

theorem addrOf_toNat (h : f < 2 ^ 20) : (addrOf f).toNat = f * 4096 := by
  have hword : UInt32.size = 2 ^ 32 := rfl
  show (UInt32.ofNat (f * 4096)).toNat = f * 4096
  exact toNat_ofNat_of_lt' (by omega)

@[simp] theorem frameOf_addrOf (h : f < 2 ^ 20) : frameOf (addrOf f) = f := by
  rw [frameOf, addrOf_toNat h]
  exact Nat.mul_div_cancel f (by decide)

namespace Pfa

variable {p : Pfa} {f T : Nat}
  {step : Pfa → Nat → Pfa}

/-- A loop over frames that sets (`v = true`) or clears their bits, as seen below `T`. -/
theorem foldl_bits {ks : List Nat} (target : Nat → Nat) (v : Bool)
    (hstep : ∀ p k, k ∈ ks → p.totalFrames = T → (step p k).totalFrames = T ∧
      ∀ f < T, (step p k).testBit f = if f = target k then v else p.testBit f)
    (hp : p.totalFrames = T) :
    (ks.foldl step p).totalFrames = T ∧
      ∀ f < T, (ks.foldl step p).testBit f = if f ∈ ks.map target then v else p.testBit f := by
  induction ks generalizing p with
  | nil => exact ⟨hp, fun f _ => by simp⟩
  | cons k ks ih =>
    obtain ⟨htotal, hbits⟩ := hstep p k mem_cons_self hp
    obtain ⟨htotal', hbits'⟩ :=
      ih (fun p k' hk' => hstep p k' (mem_cons_of_mem _ hk')) htotal
    refine ⟨htotal', fun f hf => ?_⟩
    rw [foldl_cons, hbits' f hf, hbits f hf]
    by_cases hk : f = target k <;> by_cases hks : f ∈ ks.map target <;> simp [hk, hks]

theorem markFrame_spec (addr : UInt32) (hp : p.totalFrames = T) :
    (p.markFrame addr).totalFrames = T ∧
      ∀ f < T, (p.markFrame addr).testBit f = if f = frameOf addr then true else p.testBit f := by
  unfold markFrame
  split
  · exact ⟨hp, fun f _ => testBit_setBit ..⟩
  refine ⟨hp, fun f hf => ?_⟩
  rw [if_neg (by omega)]

theorem markRange_spec (lo hi : Nat) (hp : p.totalFrames = T) (hhi : hi < 2 ^ 32) :
    (p.markRange lo hi).totalFrames = T ∧ ∀ f < T, (p.markRange lo hi).testBit f =
      if lo / 4096 ≤ f ∧ f < lo / 4096 + (hi - lo) / 4096 then true else p.testBit f := by
  have hmark : ∀ (p : Pfa) k, k ∈ range' (lo / 4096) ((hi - lo) / 4096) → p.totalFrames = T →
      (p.markFrame (addrOf k)).totalFrames = T ∧ ∀ f, f < T →
        (p.markFrame (addrOf k)).testBit f = if f = id k then true else p.testBit f := by
    intro p k hk hp
    obtain ⟨hlo, hk'⟩ := mem_range'_1.mp hk
    obtain ⟨h1, h2⟩ := markFrame_spec (addrOf k) hp
    refine ⟨h1, fun f hf => ?_⟩
    rw [h2 f hf, frameOf_addrOf (by omega)]
    rfl
  obtain ⟨htotal, hbits⟩ := foldl_bits id true hmark hp
  refine ⟨htotal, fun f hf => ?_⟩
  show (List.foldl _ p _).testBit f = _
  rw [hbits f hf]
  simp only [List.map_id, mem_range'_1]

/-- The number of frames that hold the kernel. -/
def kernelFrames (bssEnd : UInt32) : Nat := (kernelEnd bssEnd).toNat / 4096

/-- A frame that `pfa_init` reserves, if there is memory for it. -/
def Reserved (bssEnd : UInt32) (f : Nat) : Prop :=
  f < kernelFrames bssEnd ∨ f = 0x90 ∨ (0xA0 ≤ f ∧ f < 0x100)

instance (bssEnd : UInt32) (f : Nat) : Decidable (Reserved bssEnd f) :=
  inferInstanceAs (Decidable (_ ∨ _))

/-- The number of frames that `pfa_init` takes into account. -/
def ramFrames (detectedRam : UInt32) : Nat :=
  (if maxMemory < detectedRam.toNat then maxMemory else detectedRam.toNat) / 4096

theorem ramFrames_le (detectedRam : UInt32) : ramFrames detectedRam ≤ 2 ^ 18 := by
  unfold ramFrames
  have hmax : maxMemory = 1073741824 := rfl
  split <;> omega

theorem init_spec (detectedRam bssEnd : UInt32) :
    (init detectedRam bssEnd).totalFrames = ramFrames detectedRam ∧
      ∀ f, f < ramFrames detectedRam →
        (init detectedRam bssEnd).testBit f = decide (Reserved bssEnd f) := by
  have hblank : (⟨fun _ => 0, ramFrames detectedRam⟩ : Pfa).totalFrames = ramFrames detectedRam := rfl
  obtain ⟨h1, b1⟩ := markRange_spec 0 _ hblank (kernelEnd bssEnd).toNat_lt
  obtain ⟨h2, b2⟩ := markFrame_spec 0x00090000 h1
  obtain ⟨h3, b3⟩ := markFrame_spec 0x000A0000 h2
  obtain ⟨h4, b4⟩ := markRange_spec 0x000A0000 0x00100000 h3 (by decide)
  refine ⟨h4, fun f hf => ?_⟩
  refine (b4 f hf).trans ?_
  rw [b3 f hf, b2 f hf, b1 f hf]
  have hclear : (⟨fun _ => 0, ramFrames detectedRam⟩ : Pfa).testBit f = false := by
    show BitVec.getLsbD (0 : UInt8).toBitVec (f % 8) = false
    simp
  have h90 : frameOf 0x00090000 = 0x90 := by decide
  have hA0 : frameOf 0x000A0000 = 0xA0 := by decide
  rw [hclear, h90, hA0, Bool.eq_iff_iff, decide_eq_true_iff]
  unfold Reserved kernelFrames
  split_ifs
  · exact iff_of_true rfl (by omega)
  · exact iff_of_true rfl (by omega)
  · exact iff_of_true rfl (by omega)
  · exact iff_of_true rfl (by omega)
  · exact iff_of_false (by decide) (by omega)

/-! ## What the calls do -/

/-- The frames `[start, start + n)` were free, and are taken. -/
structure Took (p : Pfa) (start n : Nat) (q : Pfa) : Prop where
  pos : 0 < n
  fits : start + n ≤ p.totalFrames
  free : ∀ f, start ≤ f → f < start + n → p.testBit f = false
  total : q.totalFrames = p.totalFrames
  bits : ∀ f, f < p.totalFrames →
    q.testBit f = if start ≤ f ∧ f < start + n then true else p.testBit f

/-- The frames `[start, start + n)` are given back. -/
structure Gave (p : Pfa) (start n : Nat) (q : Pfa) : Prop where
  total : q.totalFrames = p.totalFrames
  bits : ∀ f, f < p.totalFrames →
    q.testBit f = if start ≤ f ∧ f < start + n then false else p.testBit f

/-- There are `n > 0` consecutive free frames. -/
def HasRun (p : Pfa) (n : Nat) : Prop :=
  0 < n ∧ ∃ start, start + n ≤ p.totalFrames ∧
    ∀ f, start ≤ f → f < start + n → p.testBit f = false

variable {start n : Nat}

theorem runFree_iff :
    p.runFree start n = true ↔ ∀ f, start ≤ f → f < start + n → p.testBit f = false := by
  unfold runFree
  rw [List.all_eq_true]
  constructor
  · intro h f hlo hhi
    have hj := h (f - start) (mem_range.mpr (by omega))
    rw [Nat.add_sub_cancel' hlo] at hj
    simpa using hj
  · intro h j hj
    have hj' := mem_range.mp hj
    simpa using h (start + j) (by omega) (by omega)

theorem allocFrame_spec (p : Pfa) :
    (∃ i q, p.allocFrame = (addrOf i, q) ∧ Took p i 1 q ∧ ∀ j < i, p.testBit j = true) ∨
    (p.allocFrame = (0, p) ∧ ∀ f < p.totalFrames, p.testBit f = true) := by
  unfold allocFrame
  cases hfind : (range p.totalFrames).find? fun i => !p.testBit i with
  | none =>
    refine .inr ⟨rfl, fun f hf => ?_⟩
    simpa using find?_eq_none.mp hfind f (mem_range.mpr hf)
  | some i =>
    obtain ⟨hfree, hi, hbefore⟩ := find?_range_eq_some.mp hfind
    have hi' := mem_range.mp hi
    refine .inl ⟨i, p.setBit i, rfl, ⟨Nat.one_pos, hi', fun f hlo hhi => ?_, rfl, fun f _ => ?_⟩,
      fun j hj => ?_⟩
    · obtain rfl : f = i := by omega
      simpa using hfree
    · rw [testBit_setBit]
      split_ifs <;> first | rfl | omega
    · simpa using hbefore j hj

theorem mem_run :
    f ∈ (range n).map (start + ·) ↔ start ≤ f ∧ f < start + n := by
  rw [mem_map]
  constructor
  · rintro ⟨j, hj, rfl⟩
    have hj' := mem_range.mp hj
    exact ⟨Nat.le_add_right .., by omega⟩
  · rintro ⟨hlo, hhi⟩
    exact ⟨f - start, mem_range.mpr (by omega), Nat.add_sub_cancel' hlo⟩

theorem foldl_run {v : Bool}
    (hstep : ∀ q k, k ∈ range n → q.totalFrames = p.totalFrames →
      (step q k).totalFrames = p.totalFrames ∧ ∀ f, f < p.totalFrames →
        (step q k).testBit f = if f = start + k then v else q.testBit f) :
    ((range n).foldl step p).totalFrames = p.totalFrames ∧
      ∀ f < p.totalFrames, ((range n).foldl step p).testBit f =
        if start ≤ f ∧ f < start + n then v else p.testBit f := by
  obtain ⟨htotal, hbits⟩ := foldl_bits (start + ·) v hstep rfl
  refine ⟨htotal, fun f hf => (hbits f hf).trans ?_⟩
  simp only [mem_run]

/-- `alloc_frames` takes a free run, or there is none. -/
theorem allocFrames_spec (p : Pfa) (count : UInt32) :
    (∃ start q, p.allocFrames count = (addrOf start, q) ∧ Took p start count.toNat q) ∨
    (p.allocFrames count = (0, p) ∧ ¬ p.HasRun count.toNat) := by
  have hzero : count = 0 ↔ count.toNat = 0 := by
    rw [← UInt32.toNat_inj]
    exact .rfl
  unfold allocFrames
  split
  · next hbad =>
    refine .inr ⟨rfl, ?_⟩
    rintro ⟨hpos, start, hfits, -⟩
    rw [hzero] at hbad
    omega
  next hgood =>
  rw [hzero, not_or] at hgood
  cases hfind : (range (p.totalFrames - count.toNat + 1)).find? fun start =>
      p.runFree start count.toNat with
  | none =>
    refine .inr ⟨rfl, ?_⟩
    rintro ⟨-, start, hfits, hfree⟩
    have hno := find?_eq_none.mp hfind start (mem_range.mpr (by omega))
    exact hno (runFree_iff.mpr hfree)
  | some start =>
    obtain ⟨hfree, hstart, -⟩ := find?_range_eq_some.mp hfind
    have hstart' := mem_range.mp hstart
    have hset : ∀ (q : Pfa) k, k ∈ range count.toNat → q.totalFrames = p.totalFrames →
        (q.setBit (start + k)).totalFrames = p.totalFrames ∧ ∀ f, f < p.totalFrames →
          (q.setBit (start + k)).testBit f = if f = start + k then true else q.testBit f :=
      fun q k _ hq => ⟨hq, fun f _ => testBit_setBit ..⟩
    obtain ⟨htotal, hbits⟩ := foldl_run hset
    exact .inl ⟨start, _, rfl, by omega, by omega, runFree_iff.mp hfree, htotal, hbits⟩

theorem freeFrame_spec {addr : UInt32} (hpos : 0 < frameOf addr)
    (hf : frameOf addr < p.totalFrames) :
    Gave p (frameOf addr) 1 (p.freeFrame addr) := by
  have hne : addr ≠ 0 := by
    rintro rfl
    contradiction
  rw [freeFrame, if_neg hne, if_pos hf]
  refine ⟨rfl, fun g _ => ?_⟩
  rw [testBit_clearBit]
  split_ifs <;> first | rfl | omega

theorem freeFrames_spec {addr count : UInt32} (hp : p.totalFrames ≤ 2 ^ 18)
    (hfits : ∀ k < count.toNat, frameOf addr + k < p.totalFrames) :
    Gave p (frameOf addr) count.toNat (p.freeFrames addr count) := by
  have hclear : ∀ (q : Pfa) k, k ∈ range count.toNat → q.totalFrames = p.totalFrames →
      (if (frameOf addr + k) % 2 ^ 32 < q.totalFrames
        then q.clearBit ((frameOf addr + k) % 2 ^ 32) else q).totalFrames = p.totalFrames ∧
      ∀ f, f < p.totalFrames →
        (if (frameOf addr + k) % 2 ^ 32 < q.totalFrames
          then q.clearBit ((frameOf addr + k) % 2 ^ 32) else q).testBit f =
        if f = frameOf addr + k then false else q.testBit f := by
    intro q k hk hq
    have hk' := hfits k (mem_range.mp hk)
    rw [mod_eq_of_lt (by omega : frameOf addr + k < 2 ^ 32), if_pos (by omega)]
    exact ⟨hq, fun f _ => testBit_clearBit ..⟩
  obtain ⟨htotal, hbits⟩ := foldl_run hclear
  exact ⟨htotal, hbits⟩

/-! ## Counting -/

theorem getFreeFrameCount_eq_card : p.getFreeFrameCount
    = ((Finset.range p.totalFrames).filter fun f => ¬ p.testBit f = true).card := by
  show (range p.totalFrames).countP _ = _
  rw [List.countP_eq_length_filter]
  show _ = (Finset.filter _ (Finset.range p.totalFrames)).val.card
  rw [Finset.filter_val, Finset.range_val, Multiset.range, Multiset.filter_coe, Multiset.coe_card]
  simp only [Bool.not_eq_true, Bool.decide_eq_false]

theorem getFreeFrameCount_add_card :
    p.getFreeFrameCount + ((Finset.range p.totalFrames).filter (p.testBit ·)).card
      = p.totalFrames := by
  have hsum := Finset.card_filter_add_card_filter_not (s := Finset.range p.totalFrames)
    fun f => p.testBit f = true
  rw [Finset.card_range] at hsum
  rw [getFreeFrameCount_eq_card]
  omega

/-- The frames that are free. -/
def freeFrameSet (p : Pfa) : Set Nat := {f | f < p.totalFrames ∧ p.testBit f = false}

theorem getFreeFrameCount_le_one_iff :
    p.getFreeFrameCount ≤ 1 ↔ ∀ f ∈ p.freeFrameSet, ∀ g ∈ p.freeFrameSet, f = g := by
  rw [getFreeFrameCount_eq_card, Finset.card_le_one]
  simp only [Finset.mem_filter, Finset.mem_range, Bool.not_eq_true]
  rfl

/-! ## Free frames at the end -/

/-- The frames below `n` are taken, the others free. -/
structure FreeFrom (p : Pfa) (n : Nat) : Prop where
  total : p.totalFrames ≤ 2 ^ 18
  used : ∀ f, f < n → f < p.totalFrames → p.testBit f = true
  free : ∀ f, n ≤ f → f < p.totalFrames → p.testBit f = false

variable {n : Nat}

theorem freeFrom_init {detectedRam bssEnd : UInt32} (hlow : 0x100 ≤ kernelFrames bssEnd) :
    FreeFrom (init detectedRam bssEnd) (kernelFrames bssEnd) := by
  obtain ⟨htotal, hbits⟩ := init_spec detectedRam bssEnd
  refine ⟨htotal ▸ ramFrames_le detectedRam, fun f hf hlt => ?_, fun f hf hlt => ?_⟩
  · rw [hbits f (htotal ▸ hlt)]
    exact decide_eq_true (.inl hf)
  · rw [hbits f (htotal ▸ hlt), decide_eq_false_iff_not]
    unfold Reserved
    omega

theorem FreeFrom.allocFrame (h : FreeFrom p n) (hn : n < p.totalFrames) :
    p.allocFrame.1 = addrOf n ∧ p.allocFrame.2.totalFrames = p.totalFrames ∧
      FreeFrom p.allocFrame.2 (n + 1) := by
  rcases p.allocFrame_spec with ⟨i, q, heq, htook, hfirst⟩ | ⟨-, hnone⟩
  · have hfits := htook.fits
    obtain rfl : i = n := by
      rcases Nat.lt_trichotomy i n with hlt | heq | hgt
      · have hfree := htook.free i le_rfl (Nat.lt_succ_self i)
        rw [h.used i hlt (by omega)] at hfree
        contradiction
      · exact heq
      have hset := hfirst n hgt
      rw [h.free n le_rfl hn] at hset
      contradiction
    rw [heq]
    refine ⟨rfl, htook.total, htook.total ▸ h.total, fun f hf hlt => ?_, fun f hf hlt => ?_⟩
    · rw [htook.total] at hlt
      rw [htook.bits f hlt]
      split
      · rfl
      · exact h.used f (by omega) hlt
    · rw [htook.total] at hlt
      rw [htook.bits f hlt, if_neg (by omega)]
      exact h.free f (by omega) hlt
  have hset := hnone n hn
  rw [h.free n le_rfl hn] at hset
  contradiction

theorem FreeFrom.freeFrame (h : FreeFrom p (n + 1)) (hpos : 0 < n) (hn : n < p.totalFrames) :
    (p.freeFrame (addrOf n)).totalFrames = p.totalFrames ∧ FreeFrom (p.freeFrame (addrOf n)) n := by
  have htotal := h.total
  have hframe : frameOf (addrOf n) = n := frameOf_addrOf (by omega)
  have hgave := @freeFrame_spec p (addrOf n) (by omega) (by omega)
  rw [hframe] at hgave
  refine ⟨hgave.total, hgave.total ▸ htotal, fun f hf hlt => ?_, fun f hf hlt => ?_⟩
  · rw [hgave.total] at hlt
    rw [hgave.bits f hlt, if_neg (by omega)]
    exact h.used f (by omega) hlt
  · rw [hgave.total] at hlt
    rw [hgave.bits f hlt]
    split
    · rfl
    · exact h.free f (by omega) hlt

end Pfa

end Noverix.Memory
