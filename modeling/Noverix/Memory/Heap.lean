/-
  The kernel heap (kernel/memory/heap.c).

  The heap is two megabytes of memory at a fixed address, tiled by blocks with
  boundary tags.  `malloc` takes the first free block that is large enough and
  splits off what is left over; `free` joins a block with its free neighbours,
  the one in front found through its footer.

  Words are natural numbers below `2 ^ 32`; `hdr & ~1` is `hdr / 2 * 2`, and
  `hdr & 1` is `hdr % 2`.  Each function holds `heap_lock` throughout.
-/

import Noverix.Lib.Tags

namespace Noverix.Memory

open Lib

variable {size need a p : Nat} {m : Mem} {b : Block}

/-! ## The model -/

abbrev heapStart : Nat := 0x00800000

abbrev heapSize : Nat := 0x00200000

abbrev headerSize : Nat := 4

abbrev footerSize : Nat := 4

abbrev minBlock : Nat := headerSize + footerSize + 4

def setFooter (m : Mem) (addr size : Nat) : Mem :=
  store32 m (u32 (addr + size + 2 ^ 32 - footerSize)) size

def heapInit (m : Mem) : Mem := setFooter (store32 m heapStart heapSize) heapStart heapSize

/-- `(size + ALIGN - 1) & ~(ALIGN - 1)`. -/
def roundUp (size : Nat) : Nat := u32 (size + 3) / 4 * 4

/-- `HEADER_SIZE + size + FOOTER_SIZE`, at least `MIN_BLOCK`. -/
def needOf (size : Nat) : Nat :=
  let need := u32 (headerSize + size + footerSize)
  if need < minBlock then minBlock else need

/-- The stores that split a block: `need` bytes in use, `remaining` free. -/
def splitBlock (m : Mem) (addr need remaining : Nat) : Mem :=
  let m := store32 m addr (need / 2 * 2 + 1)
  let m := setFooter m addr need
  let m := store32 m (u32 (addr + need)) remaining
  setFooter m (u32 (addr + need)) remaining

/-- The loop of `malloc_impl`.  `none`: a block size is corrupt, and the machine halts. -/
def mallocLoop (m : Mem) (need addr : Nat) : Option (Nat × Mem) :=
  if addr < heapStart + heapSize then
    let hdr := load32 m addr
    let blockSize := hdr / 2 * 2
    if blockSize = 0 ∨ heapSize < blockSize then none
    else if hdr % 2 = 0 ∧ need ≤ blockSize then
      let remaining := blockSize - need
      if minBlock ≤ remaining then
        some (addr + headerSize, splitBlock m addr need remaining)
      else
        some (addr + headerSize,
          setFooter (store32 m addr (blockSize / 2 * 2 + 1)) addr blockSize)
    else mallocLoop m need (addr + blockSize)
  else some (0, m)
termination_by heapStart + heapSize - addr
decreasing_by omega

/-- `malloc_impl`: the pointer, 0 on failure, and the memory. -/
def mallocImpl (m : Mem) (size : Nat) : Option (Nat × Mem) :=
  if size = 0 then some (0, m)
  else if heapSize < size then some (0, m)
  else mallocLoop m (needOf (roundUp size)) heapStart

/-- The part of `free_impl` that joins the block with the one behind it; the size then. -/
def mergeNext (m : Mem) (addr size : Nat) : Nat × Mem :=
  let nextAddr := u32 (addr + size)
  if heapStart ≤ nextAddr ∧ nextAddr < heapStart + heapSize then
    let nextHdr := load32 m nextAddr
    let nextSize := nextHdr / 2 * 2
    if minBlock ≤ nextSize ∧ nextSize < heapSize ∧ nextHdr % 2 = 0 then
      let size := u32 (size + nextSize)
      (size, setFooter (store32 m addr size) addr size)
    else (size, m)
  else (size, m)

/-- The part of `free_impl` that joins the block with the one in front of it. -/
def mergePrev (m : Mem) (addr size : Nat) : Mem :=
  if heapStart + minBlock < addr then
    let prevSize := load32 m (addr - footerSize)
    if minBlock ≤ prevSize ∧ prevSize < heapSize then
      let prevAddr := addr - prevSize
      if heapStart ≤ prevAddr ∧ prevAddr < addr then
        if load32 m prevAddr % 2 = 0 then
          let size := u32 (size + prevSize)
          setFooter (store32 m prevAddr size) prevAddr size
        else m
      else m
    else m
  else m

/-- `(unsigned int)ptr - HEADER_SIZE`. -/
def blockOf (ptr : Nat) : Nat := u32 (ptr + 2 ^ 32 - headerSize)

def freeImpl (m : Mem) (ptr : Nat) : Mem :=
  if ptr = 0 then m
  else
    let addr := blockOf ptr
    if addr < heapStart ∨ heapStart + heapSize ≤ addr then m
    else
      let hdr := load32 m addr
      let size := hdr / 2 * 2
      if hdr % 2 = 0 then m
      else
        let m := setFooter (store32 m addr size) addr size
        let r := mergeNext m addr size
        mergePrev r.2 addr r.1

def reallocImpl (m : Mem) (ptr size : Nat) : Option (Nat × Mem) :=
  if ptr = 0 then mallocImpl m size
  else if size = 0 then some (0, freeImpl m ptr)
  else
    let addr := blockOf ptr
    if addr < heapStart ∨ heapStart + heapSize ≤ addr then some (0, m)
    else
      let hdr := load32 m addr
      let oldSize := hdr / 2 * 2
      if hdr % 2 = 0 then some (0, m)
      else
        let oldDataSize := u32 (oldSize + 2 ^ 32 - headerSize - footerSize)
        let size := roundUp size
        let newNeed := needOf size
        if newNeed ≤ oldSize then
          let remaining := oldSize - newNeed
          if minBlock ≤ remaining then some (ptr, splitBlock m addr newNeed remaining)
          else some (ptr, m)
        else
          match mallocImpl m size with
          | none => none
          | some (newPtr, m) =>
            if newPtr = 0 then some (0, m)
            else
              let copySize := if oldDataSize < size then oldDataSize else size
              some (newPtr, freeImpl (copyBytes m newPtr ptr copySize) ptr)

def callocImpl (m : Mem) (num size : Nat) : Option (Nat × Mem) :=
  if num = 0 ∨ size = 0 then some (0, m)
  else if 0xFFFFFFFF / size < num then some (0, m)
  else
    let total := u32 (num * size)
    match mallocImpl m total with
    | none => none
    | some (ptr, m) => if ptr = 0 then some (0, m) else some (ptr, fillBytes m ptr 0 total)

/-! ## Tags -/

section

variable {a size need : Nat}

theorem roundUp_spec (size : Nat) : roundUp size % 4 = 0 ∧ roundUp size < 2 ^ 32 := by
  have := u32_lt (size + 3)
  unfold roundUp
  omega

theorem roundUp_of_le (h : size ≤ heapSize) : size ≤ roundUp size ∧ roundUp size ≤ heapSize := by
  have hsize : heapSize = 0x200000 := rfl
  unfold roundUp
  rw [u32_of_lt (by omega)]
  omega

theorem needOf_spec (h : size % 4 = 0) : minBlock ≤ needOf size ∧ needOf size % 4 = 0 := by
  have hmin : minBlock = 12 := rfl
  show minBlock ≤ (if u32 (4 + size + 4) < minBlock then minBlock else u32 (4 + size + 4)) ∧
    (if u32 (4 + size + 4) < minBlock then minBlock else u32 (4 + size + 4)) % 4 = 0
  unfold u32
  split <;> omega

theorem le_needOf (size : Nat) (h : size + 8 < 2 ^ 32) : size + 8 ≤ needOf size := by
  show size + 8 ≤ if u32 (4 + size + 4) < minBlock then minBlock else u32 (4 + size + 4)
  rw [u32_of_lt (by omega)]
  split <;> omega

theorem setFooter_eq_putTags {hdr : Nat} (m : Mem) (used : Bool) (ha : a + size ≤ 2 ^ 32)
    (hmin : 12 ≤ size) (hhdr : hdr = size + used.toNat) :
    setFooter (store32 m a hdr) a size = putTags m a ⟨size, used⟩ := by
  have haddr : u32 (a + size + 2 ^ 32 - footerSize) = a + size - 4 := by
    show (a + size + 2 ^ 32 - 4) % 2 ^ 32 = _
    omega
  rw [hhdr]
  unfold setFooter putTags
  rw [haddr]
  rfl

end

/-! ## Splitting -/

/-- What becomes of a block of `size` bytes of which `need` are taken. -/
def carve (size need : Nat) : List Block :=
  if minBlock ≤ size - need then [⟨need, true⟩, ⟨size - need, false⟩] else [⟨size, true⟩]

theorem extent_carve (h : need ≤ size) : extent (carve size need) = size := by
  unfold carve
  split
  · show need + (size - need + 0) = size
    omega
  · rfl

theorem usedAt_carve (a size need : Nat) : usedAt a (carve size need) = [a + 4] := by
  unfold carve
  split <;> rfl

theorem carve_eq_cons (h : need ≤ size) :
    ∃ n rest, carve size need = ⟨n, true⟩ :: rest ∧ need ≤ n ∧ n ≤ size := by
  unfold carve
  split
  · exact ⟨need, _, rfl, le_rfl, h⟩
  · exact ⟨size, _, rfl, h, le_rfl⟩

section

variable {m : Mem} {a size need : Nat}

theorem splitBlock_spec (hmin : minBlock ≤ need) (haligned : need % 4 = 0)
    (hrest : minBlock ≤ size - need) (hsize : size % 4 = 0) (hend : a + size ≤ 2 ^ 31) :
    Chain (splitBlock m a need (size - need)) a (carve size need) ∧
      SameOutside m (splitBlock m a need (size - need)) a (a + size) ∧
      ∀ i, a + 4 ≤ i → i < a + need - 4 → splitBlock m a need (size - need) i = m i := by
  have hmin' : 12 ≤ need := hmin
  have hrest' : 12 ≤ size - need := hrest
  have heq : splitBlock m a need (size - need)
      = putTags (putTags m a ⟨need, true⟩) (a + need) ⟨size - need, false⟩ := by
    have hmark : need / 2 * 2 + 1 = need + true.toNat := by
      show _ = need + 1
      omega
    show setFooter (store32 (setFooter (store32 m a (need / 2 * 2 + 1)) a need) (u32 (a + need))
      (size - need)) (u32 (a + need)) (size - need) = _
    rw [u32_of_lt (by omega), setFooter_eq_putTags m true (by omega) hmin' hmark]
    exact setFooter_eq_putTags _ false (by omega) hrest' rfl
  rw [heq]
  refine ⟨?_, ?_, fun i hlo hhi => ?_⟩
  · unfold carve
    rw [if_pos hrest]
    refine chain_putTags_pair (tagged_putTags hmin' haligned ?_) hrest' ?_ ?_
    · show need + 1 < 2 ^ 32
      omega
    · show (size - need) % 4 = 0
      omega
    · show size - need + 0 < 2 ^ 32
      omega
  · have h1 := (sameOutside_putTags (m := m) (a := a) (b := ⟨need, true⟩) hmin').mono
      le_rfl (show a + need ≤ a + size by omega)
    have h2 := (sameOutside_putTags (m := putTags m a ⟨need, true⟩) (a := a + need)
      (b := ⟨size - need, false⟩) hrest').mono (show a ≤ a + need by omega)
      (show a + need + (size - need) ≤ a + size by omega)
    exact h1.trans h2
  · rw [sameOutside_putTags hrest' i (.inl (by omega))]
    unfold putTags
    rw [store32_of_disjoint _ (.inl hhi), store32_of_disjoint _ (.inr hlo)]

theorem takeBlock_spec (hmin : minBlock ≤ size) (haligned : size % 4 = 0)
    (hend : a + size ≤ 2 ^ 31) :
    Chain (setFooter (store32 m a (size / 2 * 2 + 1)) a size) a [⟨size, true⟩] ∧
      SameOutside m (setFooter (store32 m a (size / 2 * 2 + 1)) a size) a (a + size) := by
  have hmin' : 12 ≤ size := hmin
  have hmark : size / 2 * 2 + 1 = size + true.toNat := by
    show _ = size + 1
    omega
  rw [setFooter_eq_putTags m true (by omega) hmin' hmark]
  refine ⟨⟨tagged_putTags hmin' haligned ?_, trivial⟩, sameOutside_putTags hmin'⟩
  show size + 1 < 2 ^ 32
  omega

end

/-! ## malloc -/

/-- A block too small for the request, or in use. -/
def Unfit (need : Nat) (b : Block) : Prop := b.used = true ∨ b.size < need

theorem header_spec (h : Tagged m a b) :
    load32 m a / 2 * 2 = b.size ∧ (load32 m a % 2 = 0 ↔ b.used = false) := by
  refine ⟨h.sizeAt_eq, ?_⟩
  have haligned := h.aligned
  rw [h.header]
  unfold Block.header
  cases b.used with
  | false =>
    show (b.size + 0) % 2 = 0 ↔ _
    exact iff_of_true (by omega) rfl
  | true =>
    show (b.size + 1) % 2 = 0 ↔ _
    exact iff_of_false (by omega) (by decide)

/-- First fit: the loop walks the chain to the first free block that is large enough. -/
theorem mallocLoop_spec {bs : List Block} (hmin : minBlock ≤ need)
    (haligned : need % 4 = 0) (hc : Chain m a bs) (hend : a + extent bs = heapStart + heapSize)
    (hlow : heapStart ≤ a) :
    (mallocLoop m need a = some (0, m) ∧ ∀ b ∈ bs, Unfit need b) ∨
    ∃ pre b post m', bs = pre ++ [b] ++ post ∧ b.used = false ∧ need ≤ b.size ∧
      (∀ c ∈ pre, Unfit need c) ∧ mallocLoop m need a = some (a + extent pre + headerSize, m') ∧
      Splice m m' a pre [b] (carve b.size need) post := by
  have hstart : heapStart = 0x800000 := rfl
  have hsize : heapSize = 0x200000 := rfl
  induction bs generalizing a with
  | nil =>
    refine .inl ⟨?_, fun b hb => absurd hb not_mem_nil⟩
    rw [extent_nil] at hend
    rw [mallocLoop, if_neg (by omega)]
  | cons b bs ih =>
    obtain ⟨hb, hbs⟩ := hc
    rw [extent_cons] at hend
    obtain ⟨hword, hfree⟩ := header_spec hb
    have hb12 := hb.min
    have hbal := hb.aligned
    rw [mallocLoop, if_pos (by omega)]
    simp only [hword]
    rw [if_neg (by omega)]
    by_cases hfit : load32 m a % 2 = 0 ∧ need ≤ b.size
    · rw [if_pos hfit]
      refine .inr ⟨[], b, bs, ?_⟩
      have hext : extent (carve b.size need) = extent [b] := extent_carve hfit.2
      by_cases hrest : minBlock ≤ b.size - need
      · rw [if_pos hrest]
        obtain ⟨h1, h2, -⟩ := splitBlock_spec (m := m) (a := a) hmin haligned hrest hbal (by omega)
        exact ⟨_, rfl, hfree.mp hfit.1, hfit.2, fun c hc => absurd hc not_mem_nil, rfl,
          hext, h2, h1⟩
      rw [if_neg hrest]
      obtain ⟨h1, h2⟩ := takeBlock_spec (m := m) (a := a) (show minBlock ≤ b.size from hb12) hbal
        (by omega)
      have hcarve : carve b.size need = [⟨b.size, true⟩] := if_neg hrest
      refine ⟨_, rfl, hfree.mp hfit.1, hfit.2, fun c hc => absurd hc not_mem_nil, rfl,
        hext, h2, ?_⟩
      rw [hcarve]
      exact h1
    rw [if_neg hfit]
    have hunfit : Unfit need b := by
      by_cases hused : b.used = true
      · exact .inl hused
      refine .inr ?_
      have heven := hfree.mpr (by simpa using hused)
      by_contra hge
      exact hfit ⟨heven, by omega⟩
    rcases ih hbs (by omega) (by omega) with ⟨heq, hall⟩ |
      ⟨pre, c, post, m', rfl, hc1, hc2, hpre, heq, hsp⟩
    · exact .inl ⟨heq, forall_mem_cons.mpr ⟨hunfit, hall⟩⟩
    refine .inr ⟨b :: pre, c, post, m', rfl, hc1, hc2,
      forall_mem_cons.mpr ⟨hunfit, hpre⟩, ?_, hsp.cons⟩
    rw [heq, extent_cons, Nat.add_assoc a]

/-! ## The heap as a whole -/

/-- The heap consists of the blocks `bs`, and `out` are the payloads of those in use. -/
structure Heap (m : Mem) (out : List Nat) (bs : List Block) : Prop where
  chain : Chain m heapStart bs
  covers : extent bs = heapSize
  used : out.Perm (usedAt heapStart bs)

section

variable {m m' : Mem} {out : List Nat} {bs pre mid mid' post : List Block} {p r : Nat}

section

variable (h : Heap m out (pre ++ mid ++ post)) (hs : Splice m m' heapStart pre mid mid' post)
include h hs

theorem Heap.splice (rest : List Nat)
    (hout : out.Perm (usedAt (heapStart + extent pre) mid ++ rest)) :
    Heap m' (usedAt (heapStart + extent pre) mid' ++ rest) (pre ++ mid' ++ post) := by
  obtain ⟨rest', hold, hnew⟩ := hs.usedAt_perm
  have hrest : rest.Perm rest' :=
    (List.perm_append_left_iff _).mp (hout.symm.trans (h.used.trans hold))
  exact ⟨hs.apply h.chain, hs.extent_eq.trans h.covers, (hrest.append_left _).trans hnew.symm⟩

theorem Heap.untouched (hp : p ∈ out) (hmid : p ∉ usedAt (heapStart + extent pre) mid) :
    Untouched m m' p :=
  hs.untouched h.chain (h.used.mem_iff.mp hp) hmid

end

theorem Heap.nodup (h : Heap m out bs) : out.Nodup := by
  rw [h.used.nodup_iff]
  exact h.chain.usedAt_spaced.2.imp fun hlt => Nat.ne_of_lt hlt.1

theorem Heap.block_of_mem (h : Heap m out bs) (hp : p ∈ out) :
    ∃ pre b post, bs = pre ++ [b] ++ post ∧ b.used = true ∧ p = heapStart + extent pre + 4 :=
  mem_usedAt.mp (h.used.mem_iff.mp hp)

theorem Heap.splice_free (h : Heap m out (pre ++ mid ++ post))
    (hs : Splice m m' heapStart pre mid mid' post)
    (hmid : usedAt (heapStart + extent pre) mid = [])
    (hmid' : usedAt (heapStart + extent pre) mid' = []) :
    Heap m' out (pre ++ mid' ++ post) ∧ ∀ p ∈ out, Untouched m m' p := by
  refine ⟨?_, fun p hp => h.untouched hs hp ?_⟩
  · have hnew := h.splice hs out (by rw [hmid]; exact .refl out)
    rw [hmid'] at hnew
    exact hnew
  · rw [hmid]
    exact not_mem_nil

end

/-! ## free -/

section

variable {m : Mem} {out : List Nat} {bs pre post : List Block} {size : Nat}

theorem freeBlock_spec (m : Mem) (pre post : List Block) {mid : List Block}
    (hsize : size = extent mid) (hmin : 12 ≤ size)
    (haligned : size % 4 = 0) (hend : extent pre + size ≤ heapSize) :
    setFooter (store32 m (heapStart + extent pre) size) (heapStart + extent pre) size
        = putTags m (heapStart + extent pre) ⟨size, false⟩ ∧
      Splice m (putTags m (heapStart + extent pre) ⟨size, false⟩) heapStart pre mid [⟨size, false⟩]
        post := by
  have hstart : heapStart = 0x800000 := rfl
  have hheap : heapSize = 0x200000 := rfl
  refine ⟨setFooter_eq_putTags m false (by omega) hmin rfl, splice_putTags hsize hmin haligned ?_⟩
  show size + 0 < 2 ^ 32
  omega

section

variable (h : Heap m out (pre ++ [⟨size, false⟩] ++ post))
include h

theorem mergeNext_spec :
    (mergeNext m (heapStart + extent pre) size = (size, m) ∧ ∀ c ∈ post.head?, c.used = true) ∨
    ∃ c post' m', post = c :: post' ∧ c.used = false ∧
      mergeNext m (heapStart + extent pre) size = (size + c.size, m') ∧
      m' = putTags m (heapStart + extent pre) ⟨size + c.size, false⟩ ∧
      Splice m m' heapStart pre [⟨size, false⟩, c] [⟨size + c.size, false⟩] post' := by
  have hstart : heapStart = 0x800000 := rfl
  have hheap : heapSize = 0x200000 := rfl
  have hext := h.covers
  rw [extent_append, extent_append, extent_one] at hext
  have hsize : 12 ≤ size := h.chain.tagged_of_mem.min
  have haligned : size % 4 = 0 := h.chain.tagged_of_mem.aligned
  have hnext : u32 (heapStart + extent pre + size) = heapStart + extent pre + size :=
    u32_of_lt (by omega)
  unfold mergeNext
  rw [hnext]
  cases post with
  | nil =>
    rw [extent_nil] at hext
    refine .inl ⟨?_, fun c hc => absurd hc (by simp)⟩
    rw [if_neg (by omega)]
  | cons c post =>
    rw [extent_cons] at hext
    have hc : Tagged m (heapStart + extent pre + size) c := by
      have hchain := h.chain
      rw [chain_append, extent_append] at hchain
      exact (Nat.add_assoc .. ▸ hchain.2.1)
    obtain ⟨hword, hfree⟩ := header_spec hc
    have hc12 := hc.min
    have hcal := hc.aligned
    rw [if_pos (by omega)]
    simp only [hword]
    by_cases hused : c.used = true
    · refine .inl ⟨?_, fun d hd => ?_⟩
      · rw [if_neg]
        rintro ⟨-, -, heven⟩
        rw [hfree.mp heven] at hused
        cases hused
      · obtain rfl : c = d := by simpa using hd
        exact hused
    have hfalse : c.used = false := by simpa using hused
    have hsum : u32 (size + c.size) = size + c.size := u32_of_lt (by omega)
    obtain ⟨htags, hs⟩ := freeBlock_spec m pre post
      (show size + c.size = extent [⟨size, false⟩, c] from rfl) (by omega) (by omega) (by omega)
    rw [if_pos ⟨hc12, by omega, hfree.mpr hfalse⟩, hsum, htags]
    exact .inr ⟨c, post, _, rfl, hfalse, rfl, rfl, hs⟩

/-- `free_impl` joins the freed block with a free one in front of it, unless that one starts
    the heap and has the smallest size. -/
theorem mergePrev_spec :
    (mergePrev m (heapStart + extent pre) size = m ∧
      ∀ c ∈ pre.getLast?, c.used = true ∨ (pre = [c] ∧ c.size = minBlock)) ∨
    ∃ pre' c m', pre = pre' ++ [c] ∧ c.used = false ∧ minBlock < extent pre ∧
      mergePrev m (heapStart + extent pre) size = m' ∧
      m' = putTags m (heapStart + extent pre') ⟨size + c.size, false⟩ ∧
      Splice m m' heapStart pre' [c, ⟨size, false⟩] [⟨size + c.size, false⟩] post := by
  have hheap : heapSize = 0x200000 := rfl
  have hblock : minBlock = 12 := rfl
  have hext := h.covers
  rw [extent_append, extent_append, extent_one] at hext
  have hsize : 12 ≤ size := h.chain.tagged_of_mem.min
  have haligned : size % 4 = 0 := h.chain.tagged_of_mem.aligned
  unfold mergePrev
  rcases List.eq_nil_or_concat pre with rfl | ⟨pre', c, rfl⟩
  · refine .inl ⟨?_, fun c hc => absurd hc (by simp)⟩
    rw [extent_nil, if_neg (by omega)]
  rw [List.concat_eq_append] at h hext ⊢
  have hc : Tagged m (heapStart + extent pre') c := by
    have hchain := h.chain
    rw [append_assoc, chain_append] at hchain
    exact hchain.1.tagged_last
  obtain ⟨hword, hfree⟩ := header_spec hc
  have hc12 := hc.min
  have hcal := hc.aligned
  have hone : extent [c] = c.size := rfl
  rw [extent_append, hone] at hext ⊢
  by_cases hfirst : heapStart + minBlock < heapStart + (extent pre' + c.size)
  · have hfoot : load32 m (heapStart + (extent pre' + c.size) - footerSize) = c.size := by
      rw [← Nat.add_assoc]
      exact hc.footer
    have haddr : heapStart + (extent pre' + c.size) - c.size = heapStart + extent pre' := by omega
    rw [if_pos hfirst]
    simp only [hfoot, haddr]
    rw [if_pos ⟨hc12, by omega⟩, if_pos ⟨by omega, by omega⟩]
    by_cases hused : c.used = true
    · refine .inl ⟨?_, fun d hd => ?_⟩
      · rw [if_neg]
        intro heven
        rw [hfree.mp heven] at hused
        cases hused
      · obtain rfl : c = d := by simpa using hd
        exact .inl hused
    have hfalse : c.used = false := by simpa using hused
    have hsum : u32 (size + c.size) = size + c.size := u32_of_lt (by omega)
    have hmid : size + c.size = extent [c, ⟨size, false⟩] := Nat.add_comm ..
    obtain ⟨htags, hs⟩ := freeBlock_spec m pre' post hmid (by omega) (by omega) (by omega)
    rw [if_pos (hfree.mpr hfalse), hsum, htags]
    exact .inr ⟨pre', c, _, rfl, hfalse, by omega, rfl, rfl, hs⟩
  rw [if_neg hfirst]
  refine .inl ⟨rfl, fun d hd => .inr ?_⟩
  obtain rfl : c = d := by simpa using hd
  -- the block in front is all there is in front
  have hnil : pre' = [] := by
    cases pre' with
    | nil => rfl
    | cons d ds =>
      have hd : Tagged m heapStart d := h.chain.1
      have hd12 := hd.min
      rw [extent_cons] at hfirst
      omega
  subst hnil
  rw [extent_nil] at hfirst
  exact ⟨rfl, by omega⟩

end

theorem Heap.header_of_mem (h : Heap m out (pre ++ [b] ++ post))
    (hused : b.used = true) (hp : p = heapStart + extent pre + 4) :
    p ≠ 0 ∧ blockOf p = heapStart + extent pre ∧
      extent pre + b.size + extent post = heapSize ∧
      load32 m (heapStart + extent pre) / 2 * 2 = b.size ∧
      load32 m (heapStart + extent pre) % 2 ≠ 0 ∧ 12 ≤ b.size ∧ b.size % 4 = 0 := by
  have hstart : heapStart = 0x800000 := rfl
  have hheap : heapSize = 0x200000 := rfl
  have hext := h.covers
  have hone : extent [b] = b.size := rfl
  rw [extent_append, extent_append, hone] at hext
  have htag := h.chain.tagged_of_mem
  obtain ⟨hword, hfree⟩ := header_spec htag
  have hmin := htag.min
  refine ⟨by omega, ?_, hext, hword, fun heven => ?_, hmin, htag.aligned⟩
  · show (p + 2 ^ 32 - 4) % 2 ^ 32 = _
    omega
  · rw [hfree.mp heven] at hused
    cases hused

theorem freeImpl_of_used {addr : Nat} (size' : Nat) (m' : Mem) (hne : p ≠ 0)
    (haddr : blockOf p = addr)
    (hin : heapStart ≤ addr ∧ addr < heapStart + heapSize) (hsize : load32 m addr / 2 * 2 = size)
    (hodd : load32 m addr % 2 ≠ 0)
    (hnext : mergeNext (setFooter (store32 m addr size) addr size) addr size = (size', m')) :
    freeImpl m p = mergePrev m' addr size' := by
  subst haddr hsize
  have hrange : ¬ (blockOf p < heapStart ∨ heapStart + heapSize ≤ blockOf p) := by omega
  unfold freeImpl
  rw [if_neg hne]
  rw [if_neg hrange]
  rw [if_neg hodd]
  show mergePrev (mergeNext (setFooter (store32 m (blockOf p) _) (blockOf p) _) (blockOf p) _).2
    (blockOf p) (mergeNext (setFooter (store32 m (blockOf p) _) (blockOf p) _) (blockOf p) _).1 = _
  rw [hnext]

/-- What is behind a freed block: a free neighbour is taken in. -/
def JoinsNext (post post' : List Block) : Prop :=
  post' = post ∧ (∀ c ∈ post.head?, c.used = true) ∨ ∃ c, post = c :: post' ∧ c.used = false

/-- What is in front of it: a free neighbour is taken in, unless it is the first block and has
    the smallest size. -/
def JoinsPrev (pre pre' : List Block) : Prop :=
  pre' = pre ∧ (∀ c ∈ pre.getLast?, c.used = true ∨ (pre = [c] ∧ c.size = minBlock)) ∨
    ∃ c, pre = pre' ++ [c] ∧ c.used = false ∧ minBlock < extent pre

/-- `free_impl` releases the block of an outstanding pointer and joins it with its neighbours.
    After it has marked the block, all it writes are the tags of free blocks, each over
    neighbouring blocks of the chain. -/
theorem freeImpl_blocks (h : Heap m out (pre ++ [b] ++ post))
    (hused : b.used = true) (haddr : p = heapStart + extent pre + 4) :
    ∃ pre' size' post', Heap (freeImpl m p) (out.erase p) (pre' ++ [⟨size', false⟩] ++ post') ∧
      JoinsPrev pre pre' ∧ JoinsNext post post' ∧
      (∀ q ∈ out, q ≠ p → Untouched m (freeImpl m p) q) ∧
      ∀ P : Mem → Prop, P (putTags m (heapStart + extent pre) ⟨b.size, false⟩) →
        (∀ (m : Mem) (front mid rest : List Block), front ++ mid ++ rest = pre ++ [b] ++ post →
          12 ≤ extent mid → P m → P (putTags m (heapStart + extent front) ⟨extent mid, false⟩)) →
        P (freeImpl m p) := by
  have hp : p ∈ out := h.used.mem_iff.mpr (mem_usedAt.mpr ⟨pre, b, post, rfl, hused, haddr⟩)
  obtain ⟨hne, hsub, hext, hword, hodd, hmin, haligned⟩ := h.header_of_mem hused haddr
  have hfreed := fun size' m' =>
    freeImpl_of_used size' m' hne hsub ⟨by omega, by omega⟩ hword hodd
  -- the block is marked free
  have hmid : usedAt (heapStart + extent pre) [b] = [p] := by
    rw [usedAt, if_pos hused, haddr]
    rfl
  obtain ⟨htags1, hs1⟩ := freeBlock_spec m pre post (show b.size = extent [b] from rfl) hmin haligned
    (by omega)
  rw [htags1] at hfreed
  obtain ⟨m1, hm1⟩ : ∃ m1, m1 = putTags m (heapStart + extent pre) ⟨b.size, false⟩ := ⟨_, rfl⟩
  rw [← hm1] at hs1 hfreed
  have h1 : Heap m1 (out.erase p) (pre ++ [⟨b.size, false⟩] ++ post) :=
    h.splice hs1 _ (by rw [hmid]; exact perm_cons_erase hp)
  have hu1 : ∀ q ∈ out, q ≠ p → Untouched m m1 q := fun q hq hqp =>
    h.untouched hs1 hq (by rw [hmid]; exact fun hmem => hqp (mem_singleton.mp hmem))
  -- it is joined with the one behind it
  obtain ⟨mid2, m2, post2, hmid2, hnext, hjoin, h2, hu2, hm2⟩ : ∃ mid2 m2 post2,
      [b] ++ post = mid2 ++ post2 ∧
      mergeNext m1 (heapStart + extent pre) b.size = (extent mid2, m2) ∧ JoinsNext post post2 ∧
      Heap m2 (out.erase p) (pre ++ [⟨extent mid2, false⟩] ++ post2) ∧
      (∀ q ∈ out.erase p, Untouched m1 m2 q) ∧
      (m2 = m1 ∨ m2 = putTags m1 (heapStart + extent pre) ⟨extent mid2, false⟩) := by
    rcases mergeNext_spec h1 with ⟨heq, hhead⟩ | ⟨c, post', m2, rfl, hc, heq, hm2, hs2⟩
    · exact ⟨[b], _, post, rfl, heq, .inl ⟨rfl, hhead⟩, h1, fun q _ => .refl m1 q, .inl rfl⟩
    have hlist : pre ++ [⟨b.size, false⟩] ++ c :: post' = pre ++ [⟨b.size, false⟩, c] ++ post' := by
      simp
    rw [hlist] at h1
    obtain ⟨h2, hu2⟩ := h1.splice_free hs2 (by simp [usedAt, hc]) rfl
    exact ⟨[b, c], m2, post', rfl, heq, .inr ⟨c, rfl, hc⟩, h2, hu2, .inr hm2⟩
  rw [hfreed _ _ hnext]
  have hmin2 : 12 ≤ extent mid2 := h2.chain.tagged_of_mem.min
  -- and with the one in front of it
  obtain ⟨pre3, mid3, hpre3, hjoin3, h3, hu3, hm3⟩ : ∃ pre3 mid3, pre = pre3 ++ mid3 ∧
      JoinsPrev pre pre3 ∧
      Heap (mergePrev m2 (heapStart + extent pre) (extent mid2)) (out.erase p)
        (pre3 ++ [⟨extent (mid3 ++ mid2), false⟩] ++ post2) ∧
      (∀ q ∈ out.erase p,
        Untouched m2 (mergePrev m2 (heapStart + extent pre) (extent mid2)) q) ∧
      (mergePrev m2 (heapStart + extent pre) (extent mid2) = m2 ∨
        mergePrev m2 (heapStart + extent pre) (extent mid2)
          = putTags m2 (heapStart + extent pre3) ⟨extent (mid3 ++ mid2), false⟩) := by
    rcases mergePrev_spec h2 with ⟨heq, hlast⟩ | ⟨pre', c, m3, rfl, hc, hlong, heq, hm3, hs3⟩
    · rw [heq]
      exact ⟨pre, [], (append_nil pre).symm, .inl ⟨rfl, hlast⟩, h2, fun q _ => .refl m2 q,
        .inl rfl⟩
    have hsum : extent mid2 + c.size = extent ([c] ++ mid2) := Nat.add_comm ..
    have hlist : pre' ++ [c] ++ [⟨extent mid2, false⟩] ++ post2
        = pre' ++ [c, ⟨extent mid2, false⟩] ++ post2 := by
      simp
    rw [hlist] at h2
    rw [hsum] at hm3 hs3
    obtain ⟨h3, hu3⟩ := h2.splice_free hs3 (by simp [usedAt, hc]) rfl
    rw [heq]
    exact ⟨pre', [c], rfl, .inr ⟨c, rfl, hc, hlong⟩, h3, hu3, .inr hm3⟩
  refine ⟨pre3, _, post2, h3, hjoin3, hjoin, fun q hq hqp => ?_, fun P h0 hput => ?_⟩
  · have hq' : q ∈ out.erase p := (List.mem_erase_of_ne hqp).mpr hq
    exact ((hu1 q hq hqp).trans (hu2 q hq')).trans (hu3 q hq')
  · have hp2 : P m2 := by
      rw [← hm1] at h0
      rcases hm2 with rfl | rfl
      · exact h0
      · exact hput m1 pre mid2 post2 (by rw [append_assoc, ← hmid2, append_assoc]) hmin2 h0
    rcases hm3 with heq | heq
    · rw [heq]
      exact hp2
    rw [heq]
    refine hput m2 pre3 (mid3 ++ mid2) post2 ?_ (by rw [extent_append]; omega) hp2
    rw [hpre3, append_assoc, append_assoc, append_assoc, append_assoc, hmid2]

theorem freeImpl_spec (h : Heap m out bs) (hp : p ∈ out) :
    ∃ bs', Heap (freeImpl m p) (out.erase p) bs' ∧
      ∀ q ∈ out, q ≠ p → Untouched m (freeImpl m p) q := by
  obtain ⟨pre, b, post, rfl, hused, haddr⟩ := h.block_of_mem hp
  obtain ⟨pre', size', post', hheap, -, -, hu, -⟩ := freeImpl_blocks h hused haddr
  exact ⟨_, hheap, hu⟩

end

/-! ## The other calls -/

section

variable {m m' : Mem} {out : List Nat} {bs : List Block} {p size : Nat}

/-- The capacity of the block with payload `p`. -/
def capacity (m : Mem) (p : Nat) : Nat := sizeAt m p - headerSize - footerSize

/-- `malloc_impl` carves the block it hands out from the first free one that is large enough, or
    changes nothing. -/
theorem mallocImpl_blocks (h : Heap m out bs) (size : Nat) :
    mallocImpl m size = some (0, m) ∨
    ∃ pre b post m', bs = pre ++ [b] ++ post ∧ b.used = false ∧ needOf (roundUp size) ≤ b.size ∧
      mallocImpl m size = some (heapStart + extent pre + 4, m') ∧ size ≤ heapSize ∧
      Splice m m' heapStart pre [b] (carve b.size (needOf (roundUp size))) post ∧
      Heap m' ((heapStart + extent pre + 4) :: out)
        (pre ++ carve b.size (needOf (roundUp size)) ++ post) ∧ ∀ q ∈ out, Untouched m m' q := by
  unfold mallocImpl
  split
  · exact .inl rfl
  split
  · exact .inl rfl
  next hpos hle =>
  obtain ⟨hmin, haligned⟩ := needOf_spec (roundUp_spec size).1
  have hend : heapStart + extent bs = heapStart + heapSize := by rw [h.covers]
  rcases mallocLoop_spec hmin haligned h.chain hend le_rfl with ⟨heq, -⟩ |
    ⟨pre, b, post, m', rfl, hfree, hfit, -, heq, hs⟩
  · exact .inl heq
  have hmid : usedAt (heapStart + extent pre) [b] = [] := by
    rw [usedAt, if_neg (by rw [hfree]; decide)]
    rfl
  have hnew := h.splice hs out (by rw [hmid]; exact .refl out)
  rw [usedAt_carve] at hnew
  refine .inr ⟨pre, b, post, m', rfl, hfree, hfit, heq, not_lt.mp hle, hs, hnew,
    fun q hq => ?_⟩
  exact h.untouched hs hq (by rw [hmid]; exact not_mem_nil)

theorem Heap.capacity_eq (h : Heap m out (pre ++ [b] ++ post))
    (haddr : p = heapStart + extent pre + 4) : capacity m p = b.size - 8 := by
  unfold capacity
  rw [haddr, h.chain.tagged_of_mem.sizeAt_eq]
  rfl

theorem Heap.carved_capacity (h : Heap m out (pre ++ carve size need ++ post))
    (hfit : need ≤ size) : need - 8 ≤ capacity m (heapStart + extent pre + 4) := by
  obtain ⟨n, rest, hcarve, hn, -⟩ := carve_eq_cons hfit
  have hlist : pre ++ carve size need ++ post = pre ++ [⟨n, true⟩] ++ (rest ++ post) := by
    rw [hcarve, append_assoc, append_assoc]
    rfl
  rw [hlist] at h
  rw [h.capacity_eq rfl]
  exact Nat.sub_le_sub_right hn 8

theorem mallocImpl_spec (h : Heap m out bs) (size : Nat) :
    mallocImpl m size = some (0, m) ∨
    ∃ r m' bs', mallocImpl m size = some (r, m') ∧ r ≠ 0 ∧ Heap m' (r :: out) bs' ∧
      (∀ q ∈ out, Untouched m m' q) ∧ size ≤ heapSize ∧ roundUp size ≤ capacity m' r := by
  rcases mallocImpl_blocks h size with heq | ⟨pre, b, post, m', rfl, -, hfit, heq, hle, -, hnew, hu⟩
  · exact .inl heq
  refine .inr ⟨_, m', _, heq, Nat.succ_ne_zero _, hnew, hu, hle, ?_⟩
  have hround := (roundUp_of_le hle).2
  have hcover := le_needOf (roundUp size) (by
    have hheap : heapSize = 0x200000 := rfl
    omega)
  have hcap := hnew.carved_capacity hfit
  omega

theorem mallocImpl_ok {m' : Mem} {r : Nat} (h : Heap m out bs)
    (heq : mallocImpl m size = some (r, m')) (hr : r ≠ 0) :
    (∃ bs', Heap m' (r :: out) bs') ∧ (∀ q ∈ out, Untouched m m' q) ∧ size ≤ heapSize ∧
      roundUp size ≤ capacity m' r := by
  rcases mallocImpl_spec h size with hfail | ⟨r', m'', bs', heq', -, hheap, hu, hle, hcap⟩
  · rw [hfail] at heq
    exact absurd (congrArg Prod.fst (some.inj heq)).symm hr
  obtain ⟨rfl, rfl⟩ := Prod.mk.inj (some.inj (heq'.symm.trans heq))
  exact ⟨⟨bs', hheap⟩, hu, hle, hcap⟩

theorem Heap.write (h : Heap m out bs) (hp : p ∈ out)
    (hsame : SameOutside m m' p (p + capacity m p)) :
    Heap m' out bs ∧ ∀ q ∈ out, q ≠ p → Untouched m m' q := by
  obtain ⟨pre, b, post, rfl, hused, haddr⟩ := h.block_of_mem hp
  have htag := h.chain.tagged_of_mem
  have hmin := htag.min
  have hcap : capacity m p = b.size - 4 - 4 := by
    unfold capacity
    rw [haddr, htag.sizeAt_eq]
  rw [hcap] at hsame
  have hmid : usedAt (heapStart + extent pre) [b] = [p] := by
    rw [usedAt, if_pos hused, haddr]
    rfl
  have hone : extent [b] = b.size := rfl
  have hs : Splice m m' heapStart pre [b] [b] post := by
    refine ⟨rfl, hsame.mono (by omega) (by omega), ?_, trivial⟩
    exact htag.congr fun i hi => hsame i (by omega)
  have hout : out.Perm ([p] ++ out.erase p) := perm_cons_erase hp
  constructor
  · have hnew := h.splice hs _ (by rw [hmid]; exact hout)
    rw [hmid] at hnew
    exact ⟨hnew.chain, hnew.covers, hout.trans hnew.used⟩
  · intro q hq hqp
    exact h.untouched hs hq (by rw [hmid]; exact fun hmem => hqp (mem_singleton.mp hmem))

end

end Noverix.Memory
