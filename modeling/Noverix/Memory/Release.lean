/-
  Giving back the frames of a directory (the loops of free_task_resources in
  kernel/elf.c and of task_kill in kernel/task.c).

  The loops compare the entries of the directory with those of the kernel's as
  32-bit words.  A present entry that differs is taken for the task's own: its
  table is freed, with every page in it.
-/

import Noverix.Memory.Tables

namespace Noverix.Memory

open Lib

/-! ## Sets of frames given back -/

namespace Pfa

variable {p q r : Pfa} {G H : Set Nat}

/-- The frames of `G` are free, the others as they were. -/
structure GaveSet (p : Pfa) (G : Set Nat) (q : Pfa) : Prop where
  total : q.totalFrames = p.totalFrames
  bits : ∀ f, f < p.totalFrames → (q.testBit f = true ↔ p.testBit f = true ∧ f ∉ G)

theorem GaveSet.trans (h : p.GaveSet G q) (h' : q.GaveSet H r) :
    p.GaveSet {f | f ∈ G ∨ f ∈ H} r := by
  refine ⟨h'.total.trans h.total, fun f hf => ?_⟩
  rw [h'.bits f (h.total ▸ hf), h.bits f hf, and_assoc]
  exact and_congr_right fun _ => not_or.symm

theorem GaveSet.congr (h : p.GaveSet G q) (hset : ∀ f, f ∈ H ↔ f ∈ G) : p.GaveSet H q :=
  ⟨h.total, fun f hf => by rw [h.bits f hf, hset f]⟩

theorem GaveSet.of_gave {start n : Nat} (h : p.Gave start n q) :
    p.GaveSet {f | start ≤ f ∧ f < start + n} q := by
  refine ⟨h.total, fun f hf => ?_⟩
  rw [h.bits f hf]
  by_cases hin : start ≤ f ∧ f < start + n
  · rw [if_pos hin]
    exact iff_of_false (by decide) fun hout => hout.2 hin
  rw [if_neg hin]
  exact ⟨fun htaken => ⟨htaken, hin⟩, fun htaken => htaken.1⟩

end Pfa

namespace Vm

variable {s s' s'' : Vm} {G H : Set Nat}

/-- The frames of `G` are given back, and nothing else happens. -/
structure Gives (s : Vm) (G : Set Nat) (s' : Vm) : Prop where
  mem : s'.mem = s.mem
  kernelDir : s'.kernelDir = s.kernelDir
  pfa : s.pfa.GaveSet G s'.pfa

theorem Gives.trans (h : s.Gives G s') (h' : s'.Gives H s'') : s.Gives {f | f ∈ G ∨ f ∈ H} s'' :=
  ⟨h'.mem.trans h.mem, h'.kernelDir.trans h.kernelDir, h.pfa.trans h'.pfa⟩

theorem Gives.congr (h : s.Gives G s') (hset : ∀ f, f ∈ H ↔ f ∈ G) : s.Gives H s' :=
  ⟨h.mem, h.kernelDir, h.pfa.congr hset⟩

theorem gives_none (hG : ∀ f, f ∉ G) : s.Gives G s :=
  ⟨rfl, rfl, rfl, fun f _ => ⟨fun htaken => ⟨htaken, hG f⟩, fun htaken => htaken.1⟩⟩

/-- `free_frame` of the start of a frame; it does nothing for address 0. -/
theorem gives_freeFrame (s : Vm) {a : Nat} (haligned : a % 4096 = 0) (hlt : a < 2 ^ 32) :
    s.Gives {f | f ≠ 0 ∧ f * 4096 = a} (s.freeFrame a) := by
  have hword : (UInt32.ofNat a).toNat = a := toNat_ofNat_of_lt' hlt
  have hframe : frameOf (UInt32.ofNat a) = a / 4096 := by
    unfold frameOf
    rw [hword]
  refine ⟨rfl, rfl, ?_⟩
  show s.pfa.GaveSet _ (s.pfa.freeFrame (UInt32.ofNat a))
  rcases Nat.eq_zero_or_pos a with rfl | hpos
  · refine ⟨rfl, fun f _ => ⟨fun htaken => ⟨htaken, fun hf => hf.1 ?_⟩, fun htaken => htaken.1⟩⟩
    have hzero := hf.2
    omega
  by_cases hfits : a / 4096 < s.pfa.totalFrames
  · have hgave := @Pfa.freeFrame_spec s.pfa (UInt32.ofNat a) (by omega) (by omega)
    refine (Pfa.GaveSet.of_gave hgave).congr fun f => ?_
    show f ≠ 0 ∧ f * 4096 = a ↔ frameOf (UInt32.ofNat a) ≤ f ∧ f < frameOf (UInt32.ofNat a) + 1
    omega
  -- past the end of memory
  have hne : UInt32.ofNat a ≠ 0 := fun heq => by
    rw [heq] at hword
    exact absurd hword (by show ¬ (0 = a); omega)
  have hsame : s.pfa.freeFrame (UInt32.ofNat a) = s.pfa := by
    unfold Pfa.freeFrame
    rw [if_neg hne, if_neg (by omega)]
  rw [hsame]
  refine ⟨rfl, fun f hf => ⟨fun htaken => ⟨htaken, fun hin => ?_⟩, fun htaken => htaken.1⟩⟩
  have heq := hin.2
  omega

theorem gives_freeFrames (s : Vm) {st n : Nat} (hn : n < 2 ^ 32)
    (hfits : st + n ≤ s.pfa.totalFrames)
    (htotal : s.pfa.totalFrames ≤ 2 ^ 18) :
    s.Gives {f | st ≤ f ∧ f < st + n} (s.freeFrames (st * 4096) n) := by
  rcases Nat.eq_zero_or_pos n with rfl | hpos
  · exact gives_none fun f hf => by
      have hlo := hf.1
      have hhi := hf.2
      omega
  have hframe : frameOf (UInt32.ofNat (st * 4096)) = st := frameOf_addrOf (by omega)
  have hcount : (UInt32.ofNat n).toNat = n := toNat_ofNat_of_lt' hn
  have hgave := @Pfa.freeFrames_spec s.pfa (UInt32.ofNat (st * 4096)) (UInt32.ofNat n) htotal (by
    rw [hcount, hframe]
    omega)
  rw [hcount, hframe] at hgave
  exact ⟨rfl, rfl, Pfa.GaveSet.of_gave hgave⟩

/-- A loop whose rounds each give frames back.  What a round gives depends on memory, that no round
    changes. -/
theorem gives_foldl {α : Type*} {step : Vm → α → Vm} {G : α → Set Nat} {l : List α}
    (hstep : ∀ (s' : Vm) x, x ∈ l → s'.mem = s.mem → s'.kernelDir = s.kernelDir →
      s'.Gives (G x) (step s' x)) :
    s.Gives {f | ∃ x ∈ l, f ∈ G x} (l.foldl step s) := by
  induction l generalizing s with
  | nil => exact gives_none fun f ⟨x, hx, _⟩ => not_mem_nil hx
  | cons x l ih =>
    have hfirst := hstep s x mem_cons_self rfl rfl
    have hrest := @ih (step s x) fun s' y hy hmem hkernel =>
      hstep s' y (mem_cons_of_mem x hy) (hmem.trans hfirst.mem)
        (hkernel.trans hfirst.kernelDir)
    refine (hfirst.trans hrest).congr fun f => ?_
    exact List.exists_mem_cons_iff ..

/-! ## A directory -/

/-- The frame of a table and of the pages in it. -/
def tableFrames (m : Mem) (pt : Nat) : Set Nat :=
  {f | f ≠ 0 ∧ (f * 4096 = pt ∨
    ∃ j, j < 1024 ∧ entry m pt j % 2 = 1 ∧ f * 4096 = entry m pt j / 4096 * 4096)}

/-- The frames that are freed with a directory: its own, and those of the tables whose entries
    differ from the kernel's. -/
def dirFrames (s : Vm) (dir : Nat) : Set Nat :=
  {f | (f ≠ 0 ∧ f * 4096 = dir) ∨
    ∃ i, i < 1024 ∧ entry s.mem dir i ≠ entry s.mem s.kernelDir i ∧ entry s.mem dir i % 2 = 1 ∧
      f ∈ tableFrames s.mem (entry s.mem dir i / 4096 * 4096)}

theorem gives_table (s : Vm) {pt : Nat} (haligned : pt % 4096 = 0) (hlt : pt < 2 ^ 32) :
    s.Gives (tableFrames s.mem pt) (((range 1024).foldl (fun s j =>
      if entry s.mem pt j % 2 = 0 then s
      else s.freeFrame (entry s.mem pt j / 4096 * 4096)) s).freeFrame pt) := by
  have hloop := @gives_foldl s Nat (fun s j =>
      if entry s.mem pt j % 2 = 0 then s else s.freeFrame (entry s.mem pt j / 4096 * 4096))
    (fun j => {f | entry s.mem pt j % 2 = 1 ∧ f ≠ 0 ∧ f * 4096 = entry s.mem pt j / 4096 * 4096})
    (range 1024) fun s' j _ hmem _ => by
      rw [hmem]
      by_cases heven : entry s.mem pt j % 2 = 0
      · rw [if_pos heven]
        exact gives_none fun f hf => by
          have hodd := hf.1
          omega
      rw [if_neg heven]
      have hentry := entry_lt s.mem pt j
      refine (gives_freeFrame s' (Nat.mul_mod_left ..) (by omega)).congr fun f => ?_
      exact ⟨fun hf => hf.2, fun hf => ⟨by omega, hf⟩⟩
  refine (hloop.trans (gives_freeFrame _ haligned hlt)).congr fun f => ?_
  constructor
  · rintro ⟨hpos, heq | ⟨j, hj, hodd, heq⟩⟩
    · exact .inr ⟨hpos, heq⟩
    · exact .inl ⟨j, mem_range.mpr hj, hodd, hpos, heq⟩
  · rintro (⟨j, hj, hodd, hpos, heq⟩ | ⟨hpos, heq⟩)
    · exact ⟨hpos, .inr ⟨j, mem_range.mp hj, hodd, heq⟩⟩
    · exact ⟨hpos, .inl heq⟩

theorem gives_freeDir (s : Vm) {dir : Nat} (haligned : dir % 4096 = 0) (hlt : dir < 2 ^ 32) :
    s.Gives (s.dirFrames dir) (s.freeDir dir) := by
  unfold freeDir
  refine ((@gives_foldl s Nat _ (fun i => {f | entry s.mem dir i ≠ entry s.mem s.kernelDir i ∧
    entry s.mem dir i % 2 = 1 ∧ f ∈ tableFrames s.mem (entry s.mem dir i / 4096 * 4096)})
    (range 1024) fun s' i _ hmem hkernel => ?_).trans
    (gives_freeFrame _ haligned hlt)).congr fun f => ?_
  · simp only
    rw [hmem, hkernel]
    by_cases hsame : entry s.mem dir i = entry s.mem s.kernelDir i
    · rw [if_pos hsame]
      exact gives_none fun f hf => hf.1 hsame
    rw [if_neg hsame]
    by_cases heven : entry s.mem dir i % 2 = 0
    · rw [if_pos heven]
      exact gives_none fun f hf => by
        have hodd := hf.2.1
        omega
    rw [if_neg heven]
    have hentry := entry_lt s.mem dir i
    refine (hmem ▸ gives_table s' (Nat.mul_mod_left ..) (by omega)).congr fun f => ?_
    exact ⟨fun hf => hf.2.2, fun hf => ⟨hsame, by omega, hf⟩⟩
  · constructor
    · rintro (hdir | ⟨i, hi, hentry⟩)
      · exact .inr hdir
      · exact .inl ⟨i, mem_range.mpr hi, hentry⟩
    · rintro (⟨i, hi, hentry⟩ | hdir)
      · exact .inr ⟨i, mem_range.mp hi, hentry⟩
      · exact .inl hdir

end Vm

end Noverix.Memory
