import Mathlib.Algebra.Order.BigOperators.Group.List
import SovereignCore.Kv.Layout

/-!
# Addresses of single elements

`element_offset` adds six products in `usize`. Its layout was accepted with checked multiplications along one chain of
strides, from the element to the pool, and the address of an element in range is below the end of that chain. The
descriptor for the kernel narrows the three counts to 32 bits.

* `KvLayout.elementOffset` : the address, with the wrapping arithmetic of the release profile; `terms` : its products;
* `elementIndex` : the index of an element in the pool, so that an address is an index times the element width;
* `element_addresses` : nothing wraps, elements lie apart and in the pool;
* `KvLayoutDesc`, `KvLayout.toDesc` : the descriptor; `toDesc_exact_iff` : when it describes the pool.
-/

namespace SovereignCore.Kv

/-- `+` on a 64-bit target, without overflow checks. -/
def wrappingAdd (a b : Nat) : Nat := (a + b) % 2 ^ 64

/-- `*` on a 64-bit target, without overflow checks. -/
def wrappingMul (a b : Nat) : Nat := a * b % 2 ^ 64

/-- The coordinates of an element. -/
structure Coord where
  block : Nat
  layer : Nat
  isValue : Bool
  token : Nat
  head : Nat
  dim : Nat
  deriving DecidableEq, Repr

namespace KvLayout

/-- The assertions of `element_offset`. -/
structure Has (l : KvLayout) (x : Coord) : Prop where
  block : x.block < l.numBlocks
  layer : x.layer < l.numLayers
  token : x.token < l.blockSize
  head : x.head < l.numKvHeads
  dim : x.dim < l.headDim

instance (l : KvLayout) (x : Coord) : Decidable (l.Has x) :=
  decidable_of_iff (x.block < l.numBlocks ∧ x.layer < l.numLayers ∧ x.token < l.blockSize ∧ x.head < l.numKvHeads ∧
    x.dim < l.headDim) ⟨fun ⟨a, b, c, d, e⟩ => ⟨a, b, c, d, e⟩, fun h => ⟨h.1, h.2, h.3, h.4, h.5⟩⟩

def elementOffset (l : KvLayout) (x : Coord) : Option Nat :=
  if l.Has x then
    let sum := wrappingMul x.block l.blockStrideBytes
    let sum := wrappingAdd sum (wrappingMul x.layer l.layerStrideBytes)
    let sum := wrappingAdd sum (wrappingMul x.isValue.toNat l.kvPlaneStrideBytes)
    let sum := wrappingAdd sum (wrappingMul x.token l.tokenStrideBytes)
    let sum := wrappingAdd sum (wrappingMul x.head l.headStrideBytes)
    some (wrappingAdd sum (wrappingMul x.dim l.elementBytes))
  else none

/-- The products that `element_offset` adds, in its order. -/
def terms (l : KvLayout) (x : Coord) : List Nat :=
  [x.block * l.blockStrideBytes, x.layer * l.layerStrideBytes, x.isValue.toNat * l.kvPlaneStrideBytes,
    x.token * l.tokenStrideBytes, x.head * l.headStrideBytes, x.dim * l.elementBytes]

theorem mulOr_lt {a b n : Nat} {what : String} (h : mulOr a b what = .ok n) : n < 2 ^ 64 := by
  unfold mulOr checkedMul at h
  split at h
  · rename_i k hk
    split at hk
    · rename_i hlt
      cases hk
      cases h
      exact hlt
    · cases hk
  · cases h

/-- The heads of an accepted layout, and that every stride fits in 64 bits. -/
structure Checked (c : KvPoolConfig) (l : KvLayout) : Prop extends Of c l where
  head : l.headStrideBytes = c.headDim * l.elementBytes
  numKvHeads : l.numKvHeads = c.numKvHeads
  headDim : l.headDim = c.headDim
  token_lt : l.tokenStrideBytes < 2 ^ 64
  layer_lt : l.layerStrideBytes < 2 ^ 64
  block_lt : l.blockStrideBytes < 2 ^ 64
  total_lt : l.totalBytes < 2 ^ 64

theorem checked_of_fromConfig {c : KvPoolConfig} {l : KvLayout} (h : fromConfig c = .ok l) : Checked c l := by
  have ho := of_fromConfig h
  unfold fromConfig at h
  simp only [bind, Except.bind] at h
  repeat' split at h
  all_goals cases h
  rename_i e he _ hs hhead _ ht htoken _ hp hplane _ hl hlayer _ hb hblock _ htot htotal
  exact ⟨ho, mulOr_ok hhead, rfl, rfl, mulOr_lt htoken, mulOr_lt hlayer, mulOr_lt hblock, mulOr_lt htotal⟩

theorem elementBytes_pos {d : KvDType} {n : Nat} (h : d.elementBytes? = some n) : 0 < n := by
  cases d <;> cases h <;> decide

/-! ## Indices -/

def elementIndex (c : KvPoolConfig) (x : Coord) : Nat :=
  (planeIndex c x.block x.layer x.isValue x.token * c.numKvHeads + x.head) * c.headDim + x.dim

variable {c : KvPoolConfig} {l : KvLayout} {x y : Coord}

theorem Has.of (h : l.Has x) (ho : Checked c l) :
    x.block < c.numBlocks ∧ x.layer < c.numLayers ∧ x.token < c.blockSize ∧ x.head < c.numKvHeads ∧ x.dim < c.headDim :=
  ⟨ho.numBlocks ▸ h.block, ho.numLayers ▸ h.layer, ho.blockSize ▸ h.token, ho.numKvHeads ▸ h.head, ho.headDim ▸ h.dim⟩

theorem sum_terms (ho : Checked c l) (x : Coord) :
    (l.terms x).sum = elementIndex c x * l.elementBytes := by
  unfold terms elementIndex planeIndex
  simp only [List.sum_cons, List.sum_nil]
  rw [ho.block, ho.layer, ho.plane, ho.token, ho.head, KvPoolConfig.kvDim]
  ring

theorem elementIndex_inj (hl : x.layer < c.numLayers) (hl' : y.layer < c.numLayers) (ht : x.token < c.blockSize)
    (ht' : y.token < c.blockSize) (hh : x.head < c.numKvHeads) (hh' : y.head < c.numKvHeads) (hd : x.dim < c.headDim)
    (hd' : y.dim < c.headDim) (h : elementIndex c x = elementIndex c y) : x = y := by
  unfold elementIndex at h
  obtain ⟨h1, hdim⟩ := digits_inj hd hd' h
  obtain ⟨h2, hhead⟩ := digits_inj hh hh' h1
  obtain ⟨hblock, hlayer, hvalue, htoken⟩ := planeIndex_inj hl hl' ht ht' h2
  cases x
  cases y
  simp_all

theorem elementIndex_range (hl : x.layer < c.numLayers) (ht : x.token < c.blockSize) (hh : x.head < c.numKvHeads)
    (hd : x.dim < c.headDim) :
    x.block * (c.numLayers * 2 * c.blockSize * c.kvDim) ≤ elementIndex c x ∧
      elementIndex c x + 1 ≤ (x.block + 1) * (c.numLayers * 2 * c.blockSize * c.kvDim) := by
  obtain ⟨hlow, hhigh⟩ := planeIndex_range (b := x.block) x.isValue hl ht
  generalize hp : planeIndex c x.block x.layer x.isValue x.token = p at hlow hhigh
  have hrow : x.head * c.headDim + x.dim + 1 ≤ c.kvDim := by
    calc x.head * c.headDim + x.dim + 1 ≤ x.head * c.headDim + c.headDim := by omega
      _ = (x.head + 1) * c.headDim := by ring
      _ ≤ c.numKvHeads * c.headDim := Nat.mul_le_mul_right _ hh
  have hindex : elementIndex c x = p * c.kvDim + (x.head * c.headDim + x.dim) := by
    unfold elementIndex KvPoolConfig.kvDim
    rw [hp]
    ring
  rw [hindex]
  constructor
  · rw [← Nat.mul_assoc x.block]
    exact (Nat.mul_le_mul_right c.kvDim hlow).trans (Nat.le_add_right _ _)
  · calc p * c.kvDim + (x.head * c.headDim + x.dim) + 1 ≤ p * c.kvDim + c.kvDim := by omega
      _ = (p + 1) * c.kvDim := by ring
      _ ≤ (x.block + 1) * (c.numLayers * 2 * c.blockSize) * c.kvDim := Nat.mul_le_mul_right _ hhigh
      _ = (x.block + 1) * (c.numLayers * 2 * c.blockSize * c.kvDim) := Nat.mul_assoc _ _ _

/-! ## Addresses -/

theorem blockStride_eq (ho : Of c l) :
    l.blockStrideBytes = c.numLayers * 2 * c.blockSize * c.kvDim * l.elementBytes := by
  rw [ho.block, ho.layer, ho.plane, ho.token]
  ring

theorem terms_bounds (ho : Checked c l) (h : l.Has x) :
    x.block * l.blockStrideBytes ≤ (l.terms x).sum ∧
      (l.terms x).sum + l.elementBytes ≤ x.block * l.blockStrideBytes + l.blockStrideBytes ∧
      (l.terms x).sum + l.elementBytes ≤ l.totalBytes := by
  obtain ⟨hblock, hlayer, htoken, hhead, hdim⟩ := h.of ho
  obtain ⟨hlow, hhigh⟩ := elementIndex_range hlayer htoken hhead hdim
  have hend : (l.terms x).sum + l.elementBytes ≤ x.block * l.blockStrideBytes + l.blockStrideBytes := by
    rw [sum_terms ho, blockStride_eq ho.toOf]
    calc elementIndex c x * l.elementBytes + l.elementBytes = (elementIndex c x + 1) * l.elementBytes := by ring
      _ ≤ (x.block + 1) * (c.numLayers * 2 * c.blockSize * c.kvDim) * l.elementBytes := Nat.mul_le_mul_right _ hhigh
      _ = _ := by ring
  refine ⟨?_, hend, hend.trans ?_⟩
  · rw [sum_terms ho, blockStride_eq ho.toOf, ← Nat.mul_assoc]
    exact Nat.mul_le_mul_right _ hlow
  · rw [ho.total, ← Nat.succ_mul]
    exact Nat.mul_le_mul_right _ hblock

theorem elementOffset_of_lt (h : l.Has x) (hlt : (l.terms x).sum < 2 ^ 64) : l.elementOffset x = some (l.terms x).sum := by
  unfold elementOffset wrappingAdd wrappingMul
  rw [if_pos h]
  unfold terms at hlt ⊢
  simp only [List.sum_cons, List.sum_nil] at hlt ⊢
  generalize x.block * l.blockStrideBytes = t1 at hlt ⊢
  generalize x.layer * l.layerStrideBytes = t2 at hlt ⊢
  generalize x.isValue.toNat * l.kvPlaneStrideBytes = t3 at hlt ⊢
  generalize x.token * l.tokenStrideBytes = t4 at hlt ⊢
  generalize x.head * l.headStrideBytes = t5 at hlt ⊢
  generalize x.dim * l.elementBytes = t6 at hlt ⊢
  simp (disch := omega) only [Nat.mod_eq_of_lt]
  congr 1
  omega

theorem Has.of_some {o : Nat} (h : l.elementOffset x = some o) : l.Has x := by
  unfold elementOffset at h
  split_ifs at h with hx
  exact hx

/-- For every accepted configuration: the address of an element in range is the sum of its products, none of which wraps,
nor does a sum of the first of them; different elements lie apart; every element lies in the pool and in its block, at
its head and dimension in its token plane. -/
theorem element_addresses (h : fromConfig c = .ok l) :
    (∀ x, l.Has x → l.elementOffset x = some (l.terms x).sum ∧ (∀ t ∈ l.terms x, t < 2 ^ 64) ∧
      ∀ n, ((l.terms x).take n).sum < 2 ^ 64) ∧
    (∀ x y o o', l.elementOffset x = some o → l.elementOffset y = some o' → x ≠ y →
      o + l.elementBytes ≤ o' ∨ o' + l.elementBytes ≤ o) ∧
    ∀ x o, l.elementOffset x = some o → 0 < l.elementBytes ∧ o + l.elementBytes ≤ l.totalBytes ∧ l.totalBytes < 2 ^ 64 ∧
      (∃ p, l.tokenPlaneOffset x.block x.layer x.isValue x.token = some p ∧
        o = p + x.head * l.headStrideBytes + x.dim * l.elementBytes) ∧
      ∃ b, l.blockOffset x.block = some b ∧ b ≤ o ∧ o + l.elementBytes ≤ b + l.blockStrideBytes := by
  have ho := checked_of_fromConfig h
  have hpos := elementBytes_pos ho.elem
  have htotal := ho.total_lt
  have hlt : ∀ x, l.Has x → (l.terms x).sum < 2 ^ 64 := by
    intro x hx
    obtain ⟨-, -, hend⟩ := terms_bounds ho hx
    omega
  have hsum : ∀ x o, l.elementOffset x = some o → l.Has x ∧ o = (l.terms x).sum := by
    intro x o hx
    have hhas := Has.of_some hx
    exact ⟨hhas, Option.some.inj (hx.symm.trans (elementOffset_of_lt hhas (hlt x hhas)))⟩
  refine ⟨fun x hx => ⟨elementOffset_of_lt hx (hlt x hx), fun t ht => ?_, fun n => ?_⟩, ?_, ?_⟩
  · exact (List.single_le_sum (fun _ _ => Nat.zero_le _) t ht).trans_lt (hlt x hx)
  · have hsplit : ((l.terms x).take n).sum + ((l.terms x).drop n).sum = (l.terms x).sum := by
      rw [← List.sum_append, List.take_append_drop]
    have := hlt x hx
    omega
  · intro x y o o' hx hy hne
    obtain ⟨hxl, rfl⟩ := hsum x o hx
    obtain ⟨hyl, rfl⟩ := hsum y o' hy
    obtain ⟨-, hxlayer, hxtoken, hxhead, hxdim⟩ := hxl.of ho
    obtain ⟨-, hylayer, hytoken, hyhead, hydim⟩ := hyl.of ho
    have hindex : elementIndex c x ≠ elementIndex c y := fun he =>
      hne (elementIndex_inj hxlayer hylayer hxtoken hytoken hxhead hyhead hxdim hydim he)
    rw [sum_terms ho, sum_terms ho, ← Nat.succ_mul, ← Nat.succ_mul]
    rcases Nat.lt_or_gt_of_ne hindex with hi | hi
    · exact Or.inl (Nat.mul_le_mul_right _ hi)
    · exact Or.inr (Nat.mul_le_mul_right _ hi)
  · intro x o hx
    obtain ⟨hhas, rfl⟩ := hsum x o hx
    obtain ⟨hlow, hhigh, hend⟩ := terms_bounds ho hhas
    refine ⟨hpos, hend, htotal, ⟨_, if_pos ⟨hhas.block, hhas.layer, hhas.token⟩, ?_⟩, _, if_pos hhas.block, hlow, hhigh⟩
    unfold terms
    simp only [List.sum_cons, List.sum_nil]
    omega

def tinyllama : KvPoolConfig := ⟨16, 16, 22, 4, 64, .bf16⟩

theorem element_addresses_tinyllama : ∃ l, fromConfig tinyllama = .ok l ∧
    l.elementOffset ⟨15, 21, true, 15, 3, 63⟩ = some 5767166 ∧ 5767166 + l.elementBytes ≤ l.totalBytes :=
  ⟨_, rfl, rfl, ((element_addresses (c := tinyllama) rfl).2.2 ⟨15, 21, true, 15, 3, 63⟩ 5767166 rfl).2.1⟩

end KvLayout

/-! ## The descriptor -/

structure KvLayoutDesc where
  blockStrideBytes : UInt64
  layerStrideBytes : UInt64
  kvPlaneStrideBytes : UInt64
  tokenStrideBytes : UInt64
  headStrideBytes : UInt64
  poolBytes : UInt64
  numBlocks : UInt32
  numLayers : UInt32
  blockSize : UInt32
  deriving DecidableEq, Repr

/-- `as u64` and `as u32` of `usize` values: the latter drops the upper half. -/
def KvLayout.toDesc (l : KvLayout) : KvLayoutDesc where
  blockStrideBytes := .ofNat l.blockStrideBytes
  layerStrideBytes := .ofNat l.layerStrideBytes
  kvPlaneStrideBytes := .ofNat l.kvPlaneStrideBytes
  tokenStrideBytes := .ofNat l.tokenStrideBytes
  headStrideBytes := .ofNat l.headStrideBytes
  poolBytes := .ofNat l.totalBytes
  numBlocks := .ofNat l.numBlocks
  numLayers := .ofNat l.numLayers
  blockSize := .ofNat l.blockSize

/-- The counts and strides of the descriptor multiply up to the pool. -/
structure KvLayoutDesc.Exact (d : KvLayoutDesc) : Prop where
  pool : d.numBlocks.toNat * d.blockStrideBytes.toNat = d.poolBytes.toNat
  block : d.numLayers.toNat * d.layerStrideBytes.toNat = d.blockStrideBytes.toNat
  layer : 2 * d.blockSize.toNat * d.tokenStrideBytes.toNat = d.layerStrideBytes.toNat

namespace KvLayout

/-- A count that lost its upper half gives the product only when it had none, or there is nothing to count. -/
theorem narrow_mul_iff (n stride : Nat) : n % 2 ^ 32 * stride = n * stride ↔ n < 2 ^ 32 ∨ stride = 0 := by
  constructor
  · intro h
    by_cases hz : stride = 0
    · exact Or.inr hz
    · have hmod := Nat.eq_of_mul_eq_mul_right (Nat.pos_of_ne_zero hz) h
      have := Nat.mod_lt n (show 0 < 2 ^ 32 by decide)
      omega
  · rintro (h | rfl)
    · rw [Nat.mod_eq_of_lt h]
    · rw [Nat.mul_zero, Nat.mul_zero]

/-- The descriptor of an accepted layout describes the pool if and only if each count that is multiplied with something
fits in 32 bits. -/
theorem toDesc_exact_iff {c : KvPoolConfig} {l : KvLayout} (h : fromConfig c = .ok l) :
    l.toDesc.Exact ↔ (c.numBlocks < 2 ^ 32 ∨ c.numLayers * c.blockSize * c.kvDim = 0) ∧
      (c.numLayers < 2 ^ 32 ∨ c.blockSize * c.kvDim = 0) ∧ (c.blockSize < 2 ^ 32 ∨ c.kvDim = 0) := by
  have ho := checked_of_fromConfig h
  have hpos := elementBytes_pos ho.elem
  have hexact : l.toDesc.Exact ↔ l.numBlocks % 2 ^ 32 * l.blockStrideBytes = l.totalBytes ∧
      l.numLayers % 2 ^ 32 * l.layerStrideBytes = l.blockStrideBytes ∧
      2 * (l.blockSize % 2 ^ 32) * l.tokenStrideBytes = l.layerStrideBytes := by
    have h64 : ∀ n, n < 2 ^ 64 → (UInt64.ofNat n).toNat = n := fun n hn => UInt64.toNat_ofNat_of_lt' hn
    have h32 : ∀ n, (UInt32.ofNat n).toNat = n % 2 ^ 32 := fun n => UInt32.toNat_ofNat'
    constructor
    · rintro ⟨h1, h2, h3⟩
      unfold toDesc at h1 h2 h3
      simp only [h32, h64 _ ho.token_lt, h64 _ ho.layer_lt, h64 _ ho.block_lt, h64 _ ho.total_lt] at h1 h2 h3
      exact ⟨h1, h2, h3⟩
    · rintro ⟨h1, h2, h3⟩
      constructor
      all_goals
        unfold toDesc
        simp only [h32, h64 _ ho.token_lt, h64 _ ho.layer_lt, h64 _ ho.block_lt, h64 _ ho.total_lt]
      · exact h1
      · exact h2
      · exact h3
  have htokenZero : l.tokenStrideBytes = 0 ↔ c.kvDim = 0 := by
    rw [ho.token, Nat.mul_eq_zero]
    omega
  have hlayerZero : l.layerStrideBytes = 0 ↔ c.blockSize * c.kvDim = 0 := by
    rw [ho.layer, ho.plane, Nat.mul_eq_zero, Nat.mul_eq_zero, Nat.mul_eq_zero, htokenZero]
    omega
  have hblockZero : l.blockStrideBytes = 0 ↔ c.numLayers * c.blockSize * c.kvDim = 0 := by
    rw [ho.block, Nat.mul_eq_zero, hlayerZero, ← Nat.mul_eq_zero, Nat.mul_assoc]
  have hlayerEq : 2 * (l.blockSize % 2 ^ 32) * l.tokenStrideBytes = l.layerStrideBytes ↔
      l.blockSize % 2 ^ 32 * l.tokenStrideBytes = l.blockSize * l.tokenStrideBytes := by
    rw [ho.layer, ho.plane, ho.blockSize, Nat.mul_assoc 2, Nat.mul_comm 2]
    exact Nat.mul_left_inj (by decide)
  rw [hexact, hlayerEq]
  refine and_congr ?_ (and_congr ?_ ?_)
  · rw [ho.total, ← ho.numBlocks, narrow_mul_iff, hblockZero]
  · rw [← hlayerZero, ← ho.numLayers, ← narrow_mul_iff, ho.block, ho.numLayers]
  · rw [narrow_mul_iff, htokenZero, ho.blockSize]

theorem toDesc_exact_tinyllama : ∃ l, fromConfig tinyllama = .ok l ∧ l.toDesc.Exact :=
  ⟨_, rfl, (toDesc_exact_iff (c := tinyllama) rfl).2 (by decide)⟩

/-- A pool of `2 ^ 32` blocks is accepted, and its descriptor has none. -/
theorem toDesc_drops_blocks : ∃ l, fromConfig ⟨2 ^ 32, 1, 1, 1, 1, .fp8⟩ = .ok l ∧ l.totalBytes = 2 ^ 33 ∧
    l.toDesc.numBlocks = 0 ∧ ¬ l.toDesc.Exact := by
  refine ⟨_, rfl, rfl, rfl, fun h => ?_⟩
  have hpool := h.pool
  revert hpool
  decide

end KvLayout

end SovereignCore.Kv
