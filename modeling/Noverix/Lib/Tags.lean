/-
  Memory tiled by blocks with boundary tags.

  A block starts with a word that holds its size, with the lowest bit set if
  the block is in use, and ends with a word that holds its size.  `Chain m a bs`
  says that from address `a` on, memory `m` consists of the blocks `bs`, one
  behind the other.

  An allocator changes a chain by replacing some neighbouring blocks by others
  that cover the same bytes, and touches nothing else (`Splice`).  The blocks in
  use are listed by the addresses of their payloads (`usedAt`).
-/

import Noverix.Lib.Region

namespace Noverix.Lib

/-! ## Blocks -/

/-- A block: its size with both tags, and whether it is in use. -/
structure Block where
  size : Nat
  used : Bool
deriving DecidableEq

/-- The first word of a block. -/
def Block.header (b : Block) : Nat := b.size + b.used.toNat

/-- The block at `a`.  It has room for its tags and one more word. -/
structure Tagged (m : Mem) (a : Nat) (b : Block) : Prop where
  header : load32 m a = b.header
  footer : load32 m (a + b.size - 4) = b.size
  min : 12 ≤ b.size
  aligned : b.size % 4 = 0

/-- The bytes that blocks cover. -/
def extent : List Block → Nat
  | [] => 0
  | b :: bs => b.size + extent bs

/-- From `a` on, memory consists of these blocks. -/
def Chain (m : Mem) : Nat → List Block → Prop
  | _, [] => True
  | a, b :: bs => Tagged m a b ∧ Chain m (a + b.size) bs

/-- The payloads of the blocks in use. -/
def usedAt : Nat → List Block → List Nat
  | _, [] => []
  | a, b :: bs => if b.used then (a + 4) :: usedAt (a + b.size) bs else usedAt (a + b.size) bs

section

variable {m m' : Mem} {a p : Nat} {b : Block} {bs pre mid mid' post : List Block}

@[simp] theorem extent_nil : extent [] = 0 := rfl

@[simp] theorem extent_cons : extent (b :: bs) = b.size + extent bs := rfl

@[simp] theorem extent_one (size : Nat) (used : Bool) : extent [⟨size, used⟩] = size := rfl

@[simp] theorem extent_append : extent (pre ++ post) = extent pre + extent post := by
  induction pre with
  | nil => exact (Nat.zero_add _).symm
  | cons b pre ih =>
    rw [cons_append, extent_cons, extent_cons, ih, Nat.add_assoc]

theorem chain_cons : Chain m a (b :: bs) ↔ Tagged m a b ∧ Chain m (a + b.size) bs := .rfl

theorem chain_append :
    Chain m a (pre ++ post) ↔ Chain m a pre ∧ Chain m (a + extent pre) post := by
  induction pre generalizing a with
  | nil => exact (and_iff_right trivial).symm
  | cons b pre ih =>
    rw [cons_append, chain_cons, chain_cons, ih, extent_cons, Nat.add_assoc, and_assoc]

theorem Chain.tagged_last (h : Chain m a (pre ++ [b])) : Tagged m (a + extent pre) b :=
  (chain_append.mp h).2.1

theorem Tagged.congr (h : Tagged m a b)
    (hsame : ∀ i, a ≤ i ∧ i < a + 4 ∨ a + b.size - 4 ≤ i ∧ i < a + b.size → m' i = m i) :
    Tagged m' a b where
  header := by
    rw [← h.header]
    exact load32_congr fun i hlo hhi => hsame i (.inl ⟨hlo, hhi⟩)
  footer := by
    have hmin := h.min
    refine Eq.trans ?_ h.footer
    exact load32_congr fun i hlo hhi => hsame i (.inr ⟨hlo, by omega⟩)
  min := h.min
  aligned := h.aligned

theorem Chain.congr (h : Chain m a bs) (hsame : ∀ i, a ≤ i → i < a + extent bs → m' i = m i) :
    Chain m' a bs := by
  induction bs generalizing a with
  | nil => trivial
  | cons b bs ih =>
    obtain ⟨hb, hbs⟩ := h
    rw [extent_cons] at hsame
    have hmin := hb.min
    refine ⟨hb.congr fun i hi => hsame i (by omega) (by omega), ih hbs fun i hlo hhi => ?_⟩
    exact hsame i (by omega) (by omega)

/-! ## Blocks in use -/

theorem usedAt_append : usedAt a (pre ++ post) = usedAt a pre ++ usedAt (a + extent pre) post := by
  induction pre generalizing a with
  | nil => rfl
  | cons b pre ih =>
    rw [cons_append, usedAt, usedAt, ih, extent_cons, Nat.add_assoc]
    split <;> rfl

theorem mem_usedAt : p ∈ usedAt a bs ↔
    ∃ pre b post, bs = pre ++ [b] ++ post ∧ b.used = true ∧ p = a + extent pre + 4 := by
  constructor
  · intro h
    induction bs generalizing a with
    | nil => exact absurd h not_mem_nil
    | cons c bs ih =>
      have hcases : (c.used = true ∧ p = a + 4) ∨ p ∈ usedAt (a + c.size) bs := by
        rw [usedAt] at h
        split at h
        · next hused => exact (mem_cons.mp h).imp_left fun hp => ⟨hused, hp⟩
        · exact .inr h
      rcases hcases with ⟨hused, rfl⟩ | h
      · exact ⟨[], c, bs, rfl, hused, rfl⟩
      obtain ⟨pre, b, post, rfl, hused, rfl⟩ := ih h
      refine ⟨c :: pre, b, post, rfl, hused, ?_⟩
      rw [extent_cons, Nat.add_assoc a]
  · rintro ⟨pre, b, post, rfl, hused, rfl⟩
    rw [usedAt_append, usedAt_append, usedAt, if_pos hused]
    simp

/-- The size of the block with payload `p`, by its header. -/
def sizeAt (m : Mem) (p : Nat) : Nat := load32 m (p - 4) / 2 * 2

theorem Tagged.sizeAt_eq (h : Tagged m a b) : sizeAt m (a + 4) = b.size := by
  have haligned := h.aligned
  have hhdr := h.header
  unfold Block.header at hhdr
  unfold sizeAt
  rw [Nat.add_sub_cancel, hhdr]
  cases b.used with
  | false =>
    show (b.size + 0) / 2 * 2 = b.size
    omega
  | true =>
    show (b.size + 1) / 2 * 2 = b.size
    omega

/-- Blocks in use are listed upwards, each behind the end of the one before. -/
theorem Chain.usedAt_spaced (h : Chain m a bs) :
    (∀ p ∈ usedAt a bs, a + 4 ≤ p) ∧
      (usedAt a bs).Pairwise fun p q => p < q ∧ p + sizeAt m p ≤ q := by
  induction bs generalizing a with
  | nil => exact ⟨fun p hp => absurd hp not_mem_nil, .nil⟩
  | cons b bs ih =>
    obtain ⟨hb, hbs⟩ := h
    obtain ⟨hlow, hpair⟩ := ih hbs
    have hmin := hb.min
    have hsize := hb.sizeAt_eq
    rw [usedAt]
    split
    · refine ⟨fun p hp => ?_, List.pairwise_cons.mpr ⟨fun p hp => ?_, hpair⟩⟩
      · rcases mem_cons.mp hp with rfl | hp
        · exact le_rfl
        have := hlow p hp
        omega
      · have := hlow p hp
        omega
    refine ⟨fun p hp => ?_, hpair⟩
    have := hlow p hp
    omega

/-- A block in use is found through its payload: its tag is right in front. -/
theorem Chain.tagged_of_mem (h : Chain m a (pre ++ [b] ++ post)) :
    Tagged m (a + extent pre) b := by
  rw [append_assoc, chain_append] at h
  exact h.2.1

/-- The tags determine the block. -/
theorem Tagged.unique {c : Block} (hb : Tagged m a b) (hc : Tagged m a c) : b = c := by
  have hsize : b.size = c.size := by rw [← hb.sizeAt_eq, hc.sizeAt_eq]
  have hhdr : b.size + b.used.toNat = c.size + c.used.toNat := hb.header.symm.trans hc.header
  have hused : b.used = c.used := by
    have hbit : b.used.toNat = c.used.toNat := by omega
    revert hbit
    cases b.used <;> cases c.used <;> decide
  cases b
  cases c
  exact Block.mk.injEq .. ▸ ⟨hsize, hused⟩

theorem Chain.eq_nil (h : Chain m a bs) (hext : extent bs = 0) : bs = [] := by
  cases bs with
  | nil => rfl
  | cons b bs =>
    have hmin := h.1.min
    rw [extent_cons] at hext
    omega

/-- Memory determines the blocks that cover a region. -/
theorem Chain.unique {bs' : List Block} (h : Chain m a bs) (h' : Chain m a bs')
    (hext : extent bs = extent bs') : bs = bs' := by
  induction bs generalizing a bs' with
  | nil => exact (h'.eq_nil hext.symm).symm
  | cons b bs ih =>
    cases bs' with
    | nil => exact h.eq_nil hext
    | cons c bs' =>
      obtain rfl := h.1.unique h'.1
      rw [extent_cons, extent_cons] at hext
      rw [ih h.2 h'.2 (Nat.add_left_cancel hext)]

end

/-! ## Replacing blocks -/

/-- The blocks `mid` of the chain `pre ++ mid ++ post` at `a` are replaced by blocks `mid'`
    that cover the same bytes, and memory changes nowhere else. -/
structure Splice (m m' : Mem) (a : Nat) (pre mid mid' post : List Block) : Prop where
  covers : extent mid' = extent mid
  same : SameOutside m m' (a + extent pre) (a + extent pre + extent mid)
  chain : Chain m' (a + extent pre) mid'

/-- The payload at `p`, by the tag in front of it, is as it was. -/
structure Untouched (m m' : Mem) (p : Nat) : Prop where
  size : sizeAt m' p = sizeAt m p
  payload : ∀ i, p ≤ i → i < p + (sizeAt m p - 8) → m' i = m i

theorem Untouched.refl (m : Mem) (p : Nat) : Untouched m m p := ⟨rfl, fun _ _ _ => rfl⟩

theorem Untouched.trans {m m' m'' : Mem} {p : Nat} (h : Untouched m m' p)
    (h' : Untouched m' m'' p) : Untouched m m'' p where
  size := h'.size.trans h.size
  payload i hlo hhi := by
    rw [h'.payload i hlo (by rw [h.size]; exact hhi), h.payload i hlo hhi]

section

variable {m m' : Mem} {a p : Nat} {b : Block} {bs pre mid mid' post : List Block}

theorem Splice.apply (h : Splice m m' a pre mid mid' post) (hc : Chain m a (pre ++ mid ++ post)) :
    Chain m' a (pre ++ mid' ++ post) := by
  rw [chain_append, chain_append, extent_append] at hc ⊢
  obtain ⟨⟨hpre, -⟩, hpost⟩ := hc
  refine ⟨⟨hpre.congr fun i _ hhi => h.same i (.inl hhi), h.chain⟩, ?_⟩
  rw [h.covers]
  exact hpost.congr fun i hlo _ => h.same i (.inr (by omega))

theorem Splice.extent_eq (h : Splice m m' a pre mid mid' post) :
    extent (pre ++ mid' ++ post) = extent (pre ++ mid ++ post) := by
  rw [extent_append, extent_append, extent_append, extent_append, h.covers]

theorem Splice.cons (h : Splice m m' (a + b.size) pre mid mid' post) :
    Splice m m' a (b :: pre) mid mid' post where
  covers := h.covers
  same := by
    rw [extent_cons, ← Nat.add_assoc]
    exact h.same
  chain := by
    rw [extent_cons, ← Nat.add_assoc]
    exact h.chain

theorem usedAt_parts : usedAt a (pre ++ mid ++ post) =
    usedAt a pre ++ usedAt (a + extent pre) mid ++ usedAt (a + extent (pre ++ mid)) post := by
  rw [usedAt_append, usedAt_append]

theorem Chain.inside_of_mem (h : Chain m a bs) (hp : p ∈ usedAt a bs) :
    a + 4 ≤ p ∧ 12 ≤ sizeAt m p ∧ p - 4 + sizeAt m p ≤ a + extent bs := by
  obtain ⟨pre, b, post, rfl, -, rfl⟩ := mem_usedAt.mp hp
  have hb := h.tagged_of_mem
  have hmin := hb.min
  rw [hb.sizeAt_eq, extent_append, extent_append, extent_cons, extent_nil]
  omega

theorem Splice.untouched (h : Splice m m' a pre mid mid' post)
    (hc : Chain m a (pre ++ mid ++ post)) (hp : p ∈ usedAt a (pre ++ mid ++ post))
    (hmid : p ∉ usedAt (a + extent pre) mid) : Untouched m m' p := by
  rw [usedAt_parts, mem_append, mem_append] at hp
  rw [chain_append, chain_append] at hc
  obtain ⟨⟨hpre, -⟩, hpost⟩ := hc
  -- the whole block is on one side of what changes
  have hside : ∀ i, p - 4 ≤ i → i < p - 4 + sizeAt m p → m' i = m i := by
    intro i hlo hhi
    rcases hp with (hp | hp) | hp
    · have hin := hpre.inside_of_mem hp
      exact h.same i (.inl (by omega))
    · exact absurd hp hmid
    have hin := hpost.inside_of_mem hp
    rw [extent_append] at hin
    exact h.same i (.inr (by omega))
  have hmin : 12 ≤ sizeAt m p ∧ 4 ≤ p := by
    rcases hp with (hp | hp) | hp
    · have hin := hpre.inside_of_mem hp
      omega
    · exact absurd hp hmid
    have hin := hpost.inside_of_mem hp
    omega
  refine ⟨?_, fun i hlo hhi => hside i (by omega) (by omega)⟩
  have hheader : load32 m' (p - 4) = load32 m (p - 4) :=
    load32_congr fun i hlo hhi => hside i hlo (by omega)
  unfold sizeAt
  rw [hheader]

theorem Splice.usedAt_perm (h : Splice m m' a pre mid mid' post) :
    ∃ rest, (usedAt a (pre ++ mid ++ post)).Perm (usedAt (a + extent pre) mid ++ rest) ∧
      (usedAt a (pre ++ mid' ++ post)).Perm (usedAt (a + extent pre) mid' ++ rest) := by
  refine ⟨usedAt a pre ++ usedAt (a + extent (pre ++ mid)) post, ?_, ?_⟩
  · rw [usedAt_parts, append_assoc]
    exact List.perm_append_comm_assoc ..
  · have hext : extent (pre ++ mid') = extent (pre ++ mid) := by
      rw [extent_append, extent_append, h.covers]
    rw [usedAt_parts, append_assoc, hext]
    exact List.perm_append_comm_assoc ..

end

/-! ## Writing tags -/

/-- Write both tags of a block. -/
def putTags (m : Mem) (a : Nat) (b : Block) : Mem :=
  store32 (store32 m a b.header) (a + b.size - 4) b.size

section

variable {m : Mem} {a : Nat} {b c : Block}

theorem sameOutside_putTags (hmin : 12 ≤ b.size) :
    SameOutside m (putTags m a b) a (a + b.size) := by
  have h1 := (sameOutside_store32 m a b.header).mono le_rfl
    (show a + 4 ≤ a + b.size by omega)
  have h2 := (sameOutside_store32 (store32 m a b.header) (a + b.size - 4) b.size).mono
    (show a ≤ a + b.size - 4 by omega) (show a + b.size - 4 + 4 ≤ a + b.size by omega)
  exact h1.trans h2

theorem tagged_putTags (hmin : 12 ≤ b.size) (haligned : b.size % 4 = 0)
    (hsize : b.header < 2 ^ 32) : Tagged (putTags m a b) a b where
  header := by
    unfold putTags
    rw [load32_store32_disjoint _ (by omega), load32_store32_same, mod_eq_of_lt hsize]
  footer := by
    unfold putTags
    have hle : b.size ≤ b.header := Nat.le_add_right ..
    rw [load32_store32_same, mod_eq_of_lt (by omega)]
  min := hmin
  aligned := haligned

theorem splice_putTags {pre mid post : List Block} (hext : b.size = extent mid) (hmin : 12 ≤ b.size)
    (haligned : b.size % 4 = 0) (hsize : b.header < 2 ^ 32) :
    Splice m (putTags m (a + extent pre) b) a pre mid [b] post where
  covers := hext
  same := hext ▸ sameOutside_putTags hmin
  chain := ⟨tagged_putTags hmin haligned hsize, trivial⟩

theorem chain_putTags_pair (hb : Tagged m a b) (hc : 12 ≤ c.size)
    (haligned : c.size % 4 = 0) (hsize : c.header < 2 ^ 32) :
    Chain (putTags m (a + b.size) c) a [b, c] := by
  have hmin := hb.min
  refine ⟨hb.congr fun i hi => ?_, tagged_putTags hc haligned hsize, trivial⟩
  exact sameOutside_putTags hc i (.inl (by omega))

end

end Noverix.Lib
