/-
  The receive path of the network card (kernel/drivers/rtl8139.c).

  The card writes each packet into a ring of 8192 bytes, behind a header with a
  status and a length, and moves the register CBR past it; `rtl8139_recv` walks
  the headers from `rx_offset` to CBR and copies the first packet it accepts.  It
  reads CBR again after each entry.  The ring stays as it was when the call began;
  the lines on the serial port and the acknowledged interrupts are left out.
-/

import Noverix.Elf.Image
import Noverix.Lib.Ring
import Mathlib.Logic.Function.Iterate

namespace Noverix.Drivers.Rtl8139

open Lib Elf

/-! ## The model -/

abbrev rxBufSize : Nat := 8192

/-- What a call of `rtl8139_recv` works on: the driver's read offset, the caller's `buf` and
    `*len`, the register CAPR, and the entry that this call copied last. -/
structure Rx where
  rxOffset : Nat
  buf : Mem
  len : Nat
  capr : Nat
  copied : Option Nat

/-- The header at `off`: its status. -/
def status (ring : Mem) (off : Nat) : Nat := load16 ring off

/-- The header at `off`: its length, of the packet and its checksum. -/
def pktLen (ring : Mem) (off : Nat) : Nat := load16 ring (off + 2)

/-- The offset after an entry of length `n`, which is padded to a multiple of 4. -/
def advance (off n : Nat) : Nat := (off + 4 + n + 3) / 4 * 4 % rxBufSize

/-- `lib_memcpy(buf + dst, src + off, n)`. -/
def copyBytes (buf : Mem) (dst : Nat) (src : Mem) (off n : Nat) : Mem := fun k =>
  if dst ≤ k ∧ k < dst + n then src (off + (k - dst)) else buf k

/-- The length is one that the driver does not believe. -/
def Malformed (ring : Mem) (off : Nat) : Prop := pktLen ring off < 4 ∨ 0x2000 < pktLen ring off

instance : Decidable (Malformed ring off) := inferInstanceAs (Decidable (_ ∨ _))

/-- The entry passes both tests: `RX_STAT_OK` is set, and the length makes sense. -/
def Good (ring : Mem) (off : Nat) : Prop := ¬Malformed ring off ∧ status ring off % 2 = 1

instance : Decidable (Good ring off) := inferInstanceAs (Decidable (_ ∧ _))

/-- The bytes that are copied of a good entry. -/
def dataLen (ring : Mem) (off : Nat) : Nat := min (pktLen ring off - 4) 1514

/-- The copy of a good entry: in two parts if it passes the end of the ring. -/
def copyData (ring : Mem) (off : Nat) (buf : Mem) : Mem :=
  let dataOff := (off + 4) % rxBufSize
  let n := dataLen ring off
  -- the second part is looked for at the beginning of the ring
  if dataOff + n ≤ rxBufSize then copyBytes buf 0 ring dataOff n
  else
    let first := rxBufSize - dataOff
    copyBytes (copyBytes buf 0 ring dataOff first) first ring 0 (n - first)

/-- Where the entry at `off` ends, as the loop sees it. -/
def next (ring : Mem) (off : Nat) : Nat :=
  -- after a malformed length the driver tries again 8 bytes on
  if Malformed ring off then advance off 4 else advance off (pktLen ring off)

/-- One pass of the loop, to the write of CAPR. -/
def step (ring : Mem) (s : Rx) : Rx :=
  let s' := { s with
    rxOffset := next ring s.rxOffset
    capr := (next ring s.rxOffset + rxBufSize - 16) % rxBufSize }
  if Good ring s.rxOffset then
    { s' with
      buf := copyData ring s.rxOffset s.buf
      len := dataLen ring s.rxOffset
      copied := some s.rxOffset }
  else s'

/-- `rtl8139_recv`: `cbr` are the values that CBR is read with, one before each pass.  No result
    means that the loop is still running after `fuel` passes. -/
def recv (ring : Mem) (cbr : Nat → Nat) : Nat → Rx → Option (Int × Rx)
  | 0, _ => none
  | fuel + 1, s =>
    if s.rxOffset = cbr 0 then some (-1, s)
    -- `*len` is tested after every entry, whether this call has set it or not
    else if 0 < (step ring s).len then some (0, step ring s)
    else recv ring (fun i => cbr (i + 1)) fuel (step ring s)

/-! ## One pass -/

variable {ring : Mem} {s : Rx}

theorem step_rxOffset (ring : Mem) (s : Rx) :
    (step ring s).rxOffset = next ring s.rxOffset := by
  unfold step
  split <;> rfl

theorem step_of_not_good (h : ¬Good ring s.rxOffset) :
    (step ring s).len = s.len ∧ (step ring s).copied = s.copied := by
  unfold step
  rw [if_neg h]
  exact ⟨rfl, rfl⟩

theorem step_of_good (h : Good ring s.rxOffset) :
    (step ring s).len = dataLen ring s.rxOffset ∧ (step ring s).copied = some s.rxOffset ∧
      (step ring s).buf = copyData ring s.rxOffset s.buf := by
  unfold step
  rw [if_pos h]
  exact ⟨rfl, rfl, rfl⟩

/-- The copy takes the ring to be circular: after its last byte comes its first. -/
theorem copyData_apply (ring : Mem) (off : Nat) (buf : Mem) {k : Nat} (hk : k < dataLen ring off) :
    copyData ring off buf k = ring ((off + 4 + k) % rxBufSize) := by
  have hmax : dataLen ring off ≤ 1514 := Nat.min_le_right _ _
  unfold copyData rxBufSize
  by_cases hfit : (off + 4) % 8192 + dataLen ring off ≤ 8192
  · simp only [if_pos hfit, copyBytes]
    rw [if_pos ⟨Nat.zero_le _, by omega⟩]
    exact congrArg ring (by omega)
  simp only [if_neg hfit, copyBytes]
  -- the second part of the copy begins where the ring ends
  by_cases hfirst : k < 8192 - (off + 4) % 8192
  · rw [if_neg (by omega), if_pos ⟨Nat.zero_le _, by omega⟩]
    exact congrArg ring (by omega)
  rw [if_pos ⟨by omega, by omega⟩]
  exact congrArg ring (by omega)

theorem recv_of_good (cbr : Nat → Nat) (fuel : Nat) (hcbr : s.rxOffset ≠ cbr 0)
    (hgood : Good ring s.rxOffset) (hlen : 0 < dataLen ring s.rxOffset) :
    recv ring cbr (fuel + 1) s = some (0, step ring s) := by
  have hpos : 0 < (step ring s).len := (step_of_good hgood).1 ▸ hlen
  rw [recv, if_neg hcbr, if_pos hpos]

/-! ## Packets at the end of the ring

The card is set up not to wrap: a packet that starts in the ring is stored in one piece, past
the 8192 bytes where it has to be. -/

/-- The card stored a packet of `n` bytes at `off`. -/
structure Stored (ring : Mem) (off n : Nat) (packet : Mem) : Prop where
  off_lt : off < rxBufSize
  size : 1 ≤ n ∧ n ≤ 1514
  ok : status ring off % 2 = 1
  len : pktLen ring off = n + 4
  bytes : ∀ k < n, ring (off + 4 + k) = packet k

theorem Stored.good {off n : Nat} {packet : Mem} (h : Stored ring off n packet) :
    Good ring off ∧ dataLen ring off = n := by
  have hsize := h.size
  have hlen := h.len
  refine ⟨⟨fun hbad => ?_, h.ok⟩, ?_⟩
  · unfold Malformed at hbad
    omega
  · unfold dataLen
    omega

/-- A packet comes back as it was stored exactly if the bytes that the card put behind the ring
    are also at its beginning, where the driver looks for them. -/
theorem recv_intact_iff {cbr : Nat → Nat} {n : Nat} {packet : Mem}
    (h : Stored ring s.rxOffset n packet) (hcbr : s.rxOffset ≠ cbr 0) :
    (∃ fuel s', recv ring cbr fuel s = some (0, s') ∧ s'.len = n ∧ ∀ k < n, s'.buf k = packet k) ↔
      ∀ k < n, rxBufSize ≤ s.rxOffset + 4 + k →
        ring (s.rxOffset + 4 + k - rxBufSize) = packet k := by
  obtain ⟨hgood, hn⟩ := h.good
  obtain ⟨hlen, -, hbuf⟩ := step_of_good hgood
  have hoff := h.off_lt
  have hle := h.size
  have hcopy : ∀ k < n, (step ring s).buf k = ring ((s.rxOffset + 4 + k) % rxBufSize) :=
    fun k hk => hbuf ▸ copyData_apply ring _ _ (hn.symm ▸ hk)
  unfold rxBufSize at *
  have hrun := fun fuel => recv_of_good cbr fuel hcbr hgood (by omega)
  constructor
  · rintro ⟨_ | fuel, s', hret, -, hbytes⟩ k hk hpast
    · cases hret
    obtain rfl : step ring s = s' := by
      rw [hrun fuel] at hret
      exact congrArg Prod.snd (Option.some.inj hret)
    rw [← hbytes k hk, hcopy k hk]
    exact congrArg ring (by omega)
  · intro hsame
    refine ⟨1, step ring s, hrun 0, hlen.trans hn, fun k hk => ?_⟩
    rw [hcopy k hk]
    by_cases hpast : 8192 ≤ s.rxOffset + 4 + k
    · rw [← hsame k hk hpast]
      exact congrArg ring (by omega)
    rw [← h.bytes k hk]
    exact congrArg ring (by omega)

/-- A ring with a packet of 1 byte at 0, and then one of 8 bytes at 8184, whose last four are
    behind the ring. -/
def crossing : Mem := fun i =>
  if i = 0 ∨ i = 8184 then 1 else if i = 2 then 5 else if i = 8186 then 12
  else if 8192 ≤ i then 0xAA else 0

/-- A call by a caller whose `*len` is `len`. -/
def Rx.at (off len : Nat) : Rx := ⟨off, fun _ => 0, len, 0, none⟩

/-- A ring with a packet of 8 bytes at 8184, whose last four are also at the beginning, then an
    entry with a bad status at 8 and a packet of 2 bytes at 20. -/
def mirrored : Mem := fun i =>
  if i = 8184 ∨ i = 20 then 1 else if i = 8186 then 12 else if i = 10 then 5 else if i = 22 then 6
  else if i % 8192 < 4 then 0xAA else 0

theorem recv_intact_iff_mirrored :
    ∃ fuel s', recv mirrored (fun _ => 32) fuel (Rx.at 8184 0) = some (0, s') ∧ s'.len = 8 ∧
      ∀ k < 8, s'.buf k = mirrored (8188 + k) := by
  have hsame : ∀ k < 8, 8192 ≤ 8188 + k → mirrored (8188 + k - 8192) = mirrored (8188 + k) := by
    decide
  exact (recv_intact_iff (s := Rx.at 8184 0) ⟨by decide, by decide, by decide, by decide,
    fun k _ => rfl⟩ (by decide)).mpr hsame

/-- The caller gets the beginning of the old packet in place of the end of the new one. -/
theorem recv_spliced :
    Stored crossing 8184 8 (fun k => crossing (8188 + k)) ∧
      ∃ s', recv crossing (fun _ => 8) 1 (Rx.at 8184 0) = some (0, s') ∧ s'.len = 8 ∧
        s'.buf 4 = 1 ∧ crossing (8188 + 4) = 0xAA :=
  ⟨⟨by decide, by decide, by decide, by decide, fun k _ => congrArg crossing (by omega)⟩,
    _, rfl, rfl, rfl, rfl⟩

/-! ## What a result of 0 means -/

/-- The call copied a good entry, and `*len` is the length of its packet. -/
def Meaningful (ring : Mem) (s' : Rx) : Prop :=
  ∃ off, s'.copied = some off ∧ Good ring off ∧ s'.len = pktLen ring off - 4 ∧
    ∀ k < s'.len, s'.buf k = ring ((off + 4 + k) % rxBufSize)

/-- The entry at `off` is a good one with data. -/
def HasData (ring : Mem) (off : Nat) : Prop := Good ring off ∧ 0 < dataLen ring off

/-- The first entry with data on the walk from `off` is the one after `i` entries. -/
def FirstData (ring : Mem) (off i : Nat) : Prop :=
  HasData ring ((next ring)^[i] off) ∧ ∀ j < i, ¬HasData ring ((next ring)^[j] off)

theorem FirstData.unique {off i j : Nat} (hi : FirstData ring off i) (hj : FirstData ring off j) :
    i = j := by
  rcases Nat.lt_trichotomy i j with hlt | heq | hlt
  · exact absurd hi.1 (hj.2 i hlt)
  · exact heq
  · exact absurd hj.1 (hi.2 j hlt)

theorem FirstData.succ {off i : Nat} (h : FirstData ring (next ring off) i)
    (hno : ¬HasData ring off) : FirstData ring off (i + 1) := by
  refine ⟨h.1, fun j hj => ?_⟩
  cases j with
  | zero => exact hno
  | succ j => exact h.2 j (by omega)

/-- A call whose `*len` is 0, or that begins at a good entry, returns 0 only with the first entry
    with data. -/
theorem recv_copied {cbr : Nat → Nat} {s' : Rx} {fuel : Nat}
    (hstart : s.len = 0 ∨ Good ring s.rxOffset) (hrun : recv ring cbr fuel s = some (0, s')) :
    ∃ i, FirstData ring s.rxOffset i ∧ s'.copied = some ((next ring)^[i] s.rxOffset) ∧
      s'.len = dataLen ring ((next ring)^[i] s.rxOffset) ∧
      ∀ k < s'.len, s'.buf k = ring (((next ring)^[i] s.rxOffset + 4 + k) % rxBufSize) := by
  induction fuel generalizing s cbr with
  | zero => cases hrun
  | succ fuel ih =>
    rw [recv] at hrun
    split at hrun
    · cases hrun
    split at hrun
    next hpos =>
      obtain rfl : step ring s = s' := congrArg Prod.snd (some.inj hrun)
      have hgood : Good ring s.rxOffset := by
        by_contra hbad
        rw [(step_of_not_good hbad).1] at hpos
        exact hstart.elim (fun hzero => by omega) hbad
      obtain ⟨hlen, hcopied, hbuf⟩ := step_of_good hgood
      refine ⟨0, ⟨⟨hgood, hlen ▸ hpos⟩, fun j hj => by omega⟩, hcopied, hlen, fun k hk => ?_⟩
      rw [hbuf]
      exact copyData_apply ring _ _ (hlen ▸ hk)
    -- a good entry without data leaves `*len` at 0, like every entry that is passed over
    next hzero =>
      obtain ⟨i, hfirst, hrest⟩ := ih (.inl (by omega)) hrun
      rw [step_rxOffset] at hfirst hrest
      refine ⟨i + 1, hfirst.succ fun hdata => hzero ?_, hrest⟩
      rw [(step_of_good hdata.1).1]
      exact hdata.2

/-- A result of 0 is a packet exactly if `*len` was 0 or the call began at a good entry, and the
    first entry with data from there on is not longer than a frame. -/
theorem recv_meaningful_iff (cbr : Nat → Nat) (fuel : Nat) {s s' : Rx} (hnone : s.copied = none)
    (hrun : recv ring cbr fuel s = some (0, s')) :
    Meaningful ring s' ↔ (s.len = 0 ∨ Good ring s.rxOffset) ∧
      ∀ i, FirstData ring s.rxOffset i → pktLen ring ((next ring)^[i] s.rxOffset) ≤ 1518 := by
  constructor
  · rintro ⟨off, hcopied, hgood, hlen, hbuf⟩
    have hstart : s.len = 0 ∨ Good ring s.rxOffset := by
      by_contra hbad
      obtain ⟨hpos, hbad⟩ := not_or.mp hbad
      obtain ⟨hkept, hstill⟩ := step_of_not_good hbad
      -- the first entry is passed over, and the old `*len` ends the call
      cases fuel with
      | zero => cases hrun
      | succ fuel =>
        rw [recv, if_pos (by omega : 0 < (step ring s).len)] at hrun
        split at hrun
        · cases hrun
        obtain rfl : step ring s = s' := congrArg Prod.snd (Option.some.inj hrun)
        rw [hstill, hnone] at hcopied
        cases hcopied
    refine ⟨hstart, fun j hj => ?_⟩
    obtain ⟨i, hfirst, hcopied', hlen', -⟩ := recv_copied hstart hrun
    obtain rfl := hfirst.unique hj
    rw [hcopied, Option.some.injEq] at hcopied'
    subst hcopied'
    unfold dataLen at hlen'
    omega
  · rintro ⟨hstart, hshort⟩
    obtain ⟨i, hfirst, hcopied, hlen, hbuf⟩ := recv_copied hstart hrun
    have hle := hshort i hfirst
    refine ⟨_, hcopied, hfirst.1.1, ?_, hbuf⟩
    rw [hlen]
    unfold dataLen
    omega

/-- The call passes over the entry with a bad status at 8 to the packet at 20. -/
theorem recv_meaningful_iff_mirrored : ∃ s', recv mirrored (fun _ => 32) 2 (Rx.at 8 0) = some (0, s') ∧
    s'.copied = some 20 ∧ Meaningful mirrored s' := by
  have hnext : next mirrored 8 = 20 := by decide
  have hdata : HasData mirrored 20 := by
    unfold HasData
    decide
  have hbad : ¬HasData mirrored 8 := by
    unfold HasData
    decide
  have hfirst : FirstData mirrored 8 1 :=
    ⟨(congrArg (HasData mirrored) hnext).mpr hdata, fun j hj => by
      obtain rfl : j = 0 := by omega
      exact hbad⟩
  refine ⟨_, rfl, rfl, (recv_meaningful_iff (fun _ => 32) 2 (s := Rx.at 8 0) rfl rfl).mpr
    ⟨.inl rfl, fun i hi => ?_⟩⟩
  obtain rfl := hfirst.unique hi
  decide

/-- A ring of zeros: every length is malformed. -/
def zeros : Mem := fun _ => 0

/-- The first header is malformed, nothing is copied, and the caller is told of 60 bytes. -/
theorem recv_stale_len :
    ∃ s', recv zeros (fun _ => 16) 1 (Rx.at 0 60) = some (0, s') ∧ s'.copied = none ∧
      s'.len = 60 ∧ ¬Meaningful zeros s' := by
  refine ⟨_, rfl, rfl, rfl, ?_⟩
  rintro ⟨off, hcopied, -⟩
  exact absurd hcopied (by simp [step, Good, Malformed, pktLen, load16, zeros, Rx.at])

/-! ## Whether the loop ends -/

/-- The entry at `off` ends a call in which nothing was left in `*len`. -/
def Ends (ring : Mem) (c off : Nat) : Prop := off = c ∨ Good ring off ∧ 0 < dataLen ring off

variable {c : Nat}

theorem ends_of_recv (fuel : Nat) (hrun : (recv ring (fun _ => c) fuel s).isSome) :
    (∃ i, Ends ring c ((next ring)^[i] s.rxOffset)) ∨ 0 < s.len ∧ ¬Good ring s.rxOffset := by
  induction fuel generalizing s with
  | zero => cases hrun
  | succ fuel ih =>
    by_cases hend : Ends ring c s.rxOffset
    · exact .inl ⟨0, hend⟩
    obtain ⟨hoff, hdata⟩ := not_or.mp hend
    by_cases hpos : 0 < (step ring s).len
    · by_cases hgood : Good ring s.rxOffset
      · exact absurd ⟨hgood, (step_of_good hgood).1 ▸ hpos⟩ hdata
      · exact .inr ⟨(step_of_not_good hgood).1 ▸ hpos, hgood⟩
    rw [recv, if_neg hoff, if_neg hpos] at hrun
    obtain ⟨i, hi⟩ := (ih hrun).resolve_right fun hlen => hpos hlen.1
    rw [step_rxOffset] at hi
    exact .inl ⟨i + 1, hi⟩

theorem recv_of_ends (h : (∃ i, Ends ring c ((next ring)^[i] s.rxOffset)) ∨
      0 < s.len ∧ ¬Good ring s.rxOffset) : ∃ fuel, (recv ring (fun _ => c) fuel s).isSome := by
  -- one pass is enough if it leaves something in `*len`
  have hone : ∀ {s : Rx}, s.rxOffset = c ∨ 0 < (step ring s).len →
      ∃ fuel, (recv ring (fun _ => c) fuel s).isSome := by
    intro s hs
    refine ⟨1, ?_⟩
    rw [recv]
    split
    · rfl
    next hoff =>
    rw [if_pos (hs.resolve_left hoff)]
    rfl
  rcases h with ⟨i, hi⟩ | ⟨hlen, hbad⟩
  · induction i generalizing s with
    | zero => exact hone (hi.imp_right fun ⟨hgood, hdata⟩ => (step_of_good hgood).1 ▸ hdata)
    | succ i ih =>
      by_cases hs : s.rxOffset = c ∨ 0 < (step ring s).len
      · exact hone hs
      obtain ⟨hoff, hpos⟩ := not_or.mp hs
      obtain ⟨fuel, hrun⟩ := ih (s := step ring s) (by rwa [step_rxOffset])
      refine ⟨fuel + 1, ?_⟩
      rwa [recv, if_neg hoff, if_neg hpos]
  · exact hone (.inr ((step_of_not_good hbad).1 ▸ hlen))

/-- The walk goes from one offset that is a multiple of 4 to the next. -/
theorem next_mem (ring : Mem) (off : Nat) :
    next ring off ∈ (Finset.range 2048).image (4 * ·) := by
  have hadvance : ∀ n, advance off n ∈ (Finset.range 2048).image (4 * ·) := by
    intro n
    refine Finset.mem_image.mpr ⟨advance off n / 4, Finset.mem_range.mpr ?_, ?_⟩
    · unfold advance rxBufSize
      omega
    · show 4 * (advance off n / 4) = advance off n
      unfold advance rxBufSize
      omega
  unfold next
  split
  · exact hadvance 4
  · exact hadvance _

/-- The loop ends exactly if the walk from `rx_offset` meets CBR or a good entry with data within
    2048 entries, as many as there are offsets, or the first entry is not good and `*len` was
    not 0. -/
theorem recv_ends_iff (ring : Mem) (c : Nat) (s : Rx) :
    (∃ fuel, (recv ring (fun _ => c) fuel s).isSome) ↔
      (∃ i ≤ 2048, Ends ring c ((next ring)^[i] s.rxOffset)) ∨
        0 < s.len ∧ ¬Good ring s.rxOffset := by
  have hcard : ((Finset.range 2048).image (4 * ·)).card ≤ 2048 :=
    Finset.card_image_le.trans_eq (Finset.card_range 2048)
  refine ⟨fun ⟨fuel, hrun⟩ => (ends_of_recv fuel hrun).imp_left fun hmeets => ?_,
    fun h => recv_of_ends (h.imp_left fun ⟨i, hi⟩ => ⟨i, hi.2⟩)⟩
  obtain ⟨i, hi, hends⟩ := exists_iterate_le_card (next_mem ring) hmeets
  exact ⟨i, hi.trans hcard, hends⟩

/-- In a ring of zeros the offset moves by 8 and steps over a CBR of 4, again and again. -/
theorem recv_zeros_runs :
    ¬∃ fuel, (recv zeros (fun _ => 4) fuel (Rx.at 0 0)).isSome := by
  have hnext : ∀ off, next zeros off = advance off 4 := fun _ => rfl
  have hwalk : ∀ i, (next zeros)^[i] 0 % 8 = 0 := by
    intro i
    induction i with
    | zero => rfl
    | succ i ih =>
      rw [Function.iterate_succ_apply', hnext]
      unfold advance rxBufSize
      omega
  rintro ⟨fuel, hrun⟩
  obtain ⟨i, hi | ⟨hgood, -⟩⟩ | ⟨hlen, -⟩ := ends_of_recv fuel hrun
  · have height := hwalk i
    rw [show (next zeros)^[i] 0 = 4 from hi] at height
    cases height
  · exact hgood.1 (.inl (by decide : 0 < 4))
  · cases hlen

/-! ## Draining the ring -/

/-- The entries `(status, length)` that the card wrote from `off` on; CBR is behind the last. -/
def Laid (ring : Mem) (c : Nat) : Nat → List (Nat × Nat) → Prop
  | off, [] => off = c
  | off, (st, n) :: es => status ring off = st ∧ pktLen ring off = n ∧ 5 ≤ n ∧ n ≤ 1518 ∧
      Laid ring c (advance off n) es

/-- The bytes of the ring that entries take. -/
def taken : List (Nat × Nat) → Nat
  | [] => 0
  | e :: es => (4 + e.2 + 3) / 4 * 4 + taken es

/-- Calls of `rtl8139_recv`, each with `*len = 0`, until one returns -1; the lengths that the
    calls before it returned with 0. -/
inductive Drained (ring : Mem) (c : Nat) : Rx → List Nat → Rx → Prop
  | empty {s s' : Rx} (fuel : Nat) :
      recv ring (fun _ => c) fuel { s with len := 0 } = some (-1, s') → Drained ring c s [] s'
  | packet {s s₁ s' : Rx} {lens : List Nat} (fuel : Nat) :
      recv ring (fun _ => c) fuel { s with len := 0 } = some (0, s₁) →
      Drained ring c s₁ lens s' → Drained ring c s (s₁.len :: lens) s'

/-- An entry that is not good makes no difference to the caller. -/
theorem Drained.skip {s' : Rx} {lens : List Nat} (hoff : s.rxOffset ≠ c)
    (hbad : ¬Good ring s.rxOffset) (h : Drained ring c (step ring { s with len := 0 }) lens s') :
    Drained ring c s lens s' := by
  have hrun : ∀ fuel, recv ring (fun _ => c) (fuel + 1) { s with len := 0 } =
      recv ring (fun _ => c) fuel { step ring { s with len := 0 } with len := 0 } := by
    intro fuel
    rw [recv, if_neg hoff, step, if_neg hbad]
    rfl
  cases h with
  | empty fuel hret => exact .empty (fuel + 1) ((hrun fuel).trans hret)
  | packet fuel hret hrest => exact .packet (fuel + 1) ((hrun fuel).trans hret) hrest

theorem Laid.end_eq {c : Nat} : ∀ {es : List (Nat × Nat)} {off : Nat}, Laid ring c off es →
    off < rxBufSize → off % 4 = 0 → c = (off + taken es) % rxBufSize
  | [], off, h, hlt, _ => by
    rw [← show off = c from h]
    exact (mod_eq_of_lt hlt).symm
  | (st, n) :: es, off, h, hlt, halign => by
    obtain ⟨-, -, -, -, hrest⟩ := h
    have hnext : advance off n < rxBufSize ∧ advance off n % 4 = 0 := by
      unfold advance rxBufSize
      omega
    have hsum : taken ((st, n) :: es) = (4 + n + 3) / 4 * 4 + taken es := rfl
    rw [hrest.end_eq hnext.1 hnext.2, hsum]
    unfold advance rxBufSize
    omega

/-- The good entries come back in order, each with its length; the others are skipped, and in
    the end the driver has caught up with the card. -/
theorem drained_of_laid {c : Nat} (es : List (Nat × Nat)) (hlt : s.rxOffset < rxBufSize)
    (halign : s.rxOffset % 4 = 0) (hlaid : Laid ring c s.rxOffset es) (hroom : taken es < 8192) :
    ∃ s', Drained ring c s ((es.filter fun e => e.1 % 2 = 1).map fun e => e.2 - 4) s' ∧
      s'.rxOffset = c := by
  -- along the entries: each is either the next result or skipped
  induction es generalizing s with
  | nil =>
    have hoff : s.rxOffset = c := hlaid
    refine ⟨{ s with len := 0 }, .empty 1 ?_, hoff⟩
    rw [recv, if_pos hoff]
  | cons e es ih =>
    have hend := hlaid.end_eq hlt halign
    obtain ⟨hst, hlen, hmin, hmax, hrest⟩ := hlaid
    have hsum : taken (e :: es) = (4 + e.2 + 3) / 4 * 4 + taken es := rfl
    have hoff : s.rxOffset ≠ c := by
      unfold rxBufSize at *
      omega
    have hwell : ¬Malformed ring s.rxOffset := by
      unfold Malformed
      omega
    have hnext : (step ring { s with len := 0 }).rxOffset = advance s.rxOffset e.2 := by
      rw [step_rxOffset, next, if_neg hwell, hlen]
    have hadv : advance s.rxOffset e.2 < rxBufSize ∧ advance s.rxOffset e.2 % 4 = 0 := by
      unfold advance rxBufSize
      omega
    obtain ⟨s', hs', hc⟩ := @ih (step ring { s with len := 0 }) (hnext ▸ hadv.1) (hnext ▸ hadv.2)
      (hnext.symm ▸ hrest) (by omega)
    refine ⟨s', ?_, hc⟩
    by_cases hok : e.1 % 2 = 1
    · have hgood : Good ring s.rxOffset := ⟨hwell, hst.symm ▸ hok⟩
      have hdata : dataLen ring s.rxOffset = e.2 - 4 := by
        unfold dataLen
        omega
      have hmine := (step_of_good (s := { s with len := 0 }) hgood).1.trans hdata
      rw [List.filter_cons_of_pos (by simpa using hok), map_cons, ← hmine]
      exact .packet 1 (recv_of_good _ 0 hoff hgood (by rw [hdata]; omega)) hs'
    rw [List.filter_cons_of_neg (by simpa using hok)]
    exact hs'.skip hoff fun hgood => hok (hst ▸ hgood.2)

/-- Two packets come back, and the entry between them does not. -/
theorem drained_of_laid_mirrored :
    ∃ s', Drained mirrored 32 (Rx.at 8184 0) [8, 2] s' ∧ s'.rxOffset = 32 :=
  drained_of_laid [(1, 12), (0, 5), (1, 6)] (by decide) rfl
    ⟨rfl, rfl, by decide, by decide, rfl, rfl, by decide, by decide, rfl, rfl, by decide, by decide,
      rfl⟩ (by decide)

end Noverix.Drivers.Rtl8139
