import SovereignCore.Lib.Bytes

/-!
# KV pool layout: element types, strides, offsets

* `F32` : an `f32` is its bit pattern, nothing in this crate computes with its value; `f32ToBf16Bits`,
  `bf16BitsToF32`, `roundToDtype` : the rounding a pool of a given element type applies;
* `KvDType.encode?`, `KvDType.decode?` : the bytes of one stored element (`decode_encode`, `decode_zeros`), for the
  element types the host path can store;
* `KvLayout.fromConfig` : the strides, refused on a `usize` overflow; `tokenPlaneOffset`, `blockOffset` : `none` is a
  failed assertion;
* `planeIndex` : the index of a token plane, so that `tokenPlaneOffset = planeIndex * tokenStrideBytes`
  (`tokenPlaneOffset_eq`), with `planeIndex_inj` and `planeIndex_range` : planes do not overlap, and the planes of one block are
  one region.
-/

namespace SovereignCore.Kv

/-- `usize::checked_mul` on a 64-bit target. -/
def checkedMul (a b : Nat) : Option Nat := if a * b < 2 ^ 64 then some (a * b) else none

/-! ## Elements -/

/-- An `f32`, as its bits. -/
abbrev F32 : Type := UInt32

inductive KvDType where
  | fp4
  | fp8
  | bf16
  | fp16
  | fp32
  deriving DecidableEq, Repr

def f32ToBf16Bits (val : F32) : UInt16 :=
  let u := val
  let lsb := (u >>> 16) &&& 1
  let roundingBias := 0x7fff + lsb
  ((u + roundingBias) >>> 16).toUInt16

def bf16BitsToF32 (bits : UInt16) : F32 := bits.toUInt32 <<< 16

/-- `round_to_dtype_in_place` on one value; `none` for the element types it panics on. -/
def roundToDtype (dtype : KvDType) (x : F32) : Option F32 :=
  match dtype with
  | .fp32 => some x
  | .bf16 => some (bf16BitsToF32 (f32ToBf16Bits x))
  | _ => none

/-- What `write_token_kv` stores for one value of each element type it supports. -/
def KvDType.encode? : KvDType → Option (F32 → List UInt8)
  | .fp32 => some fun x => leBytes 4 x.toNat
  | .bf16 => some fun x => leBytes 2 (f32ToBf16Bits x).toNat
  | _ => none

/-- What `read_token_kv` reads back from the bytes of one element. -/
def KvDType.decode? : KvDType → Option (List UInt8 → F32)
  | .fp32 => some fun bs => UInt32.ofNat (leValue bs)
  | .bf16 => some fun bs => bf16BitsToF32 (UInt16.ofNat (leValue bs))
  | _ => none

theorem decode_encode {dtype : KvDType} {enc : F32 → List UInt8} {dec : List UInt8 → F32}
    (he : dtype.encode? = some enc) (hd : dtype.decode? = some dec) (x : F32) :
    roundToDtype dtype x = some (dec (enc x)) := by
  cases dtype with
  | fp32 =>
    obtain rfl := Option.some.inj he
    obtain rfl := Option.some.inj hd
    have h := leValue_leBytes 4 x.toNat (by simpa using x.toNat_lt)
    simp only [roundToDtype, h, UInt32.ofNat_toNat]
  | bf16 =>
    obtain rfl := Option.some.inj he
    obtain rfl := Option.some.inj hd
    have h := leValue_leBytes 2 (f32ToBf16Bits x).toNat (by simpa using (f32ToBf16Bits x).toNat_lt)
    simp only [roundToDtype, h, UInt16.ofNat_toNat]
  | fp4 => cases he
  | fp8 => cases he
  | fp16 => cases he

theorem decode_zeros {dtype : KvDType} {dec : List UInt8 → F32} (hd : dtype.decode? = some dec) (n : Nat) :
    dec (List.replicate n 0) = 0 := by
  cases dtype with
  | fp32 => obtain rfl := Option.some.inj hd; simp [leValue_replicate_zero]
  | bf16 => obtain rfl := Option.some.inj hd; simp [leValue_replicate_zero, bf16BitsToF32]
  | fp4 => cases hd
  | fp8 => cases hd
  | fp16 => cases hd

/-! ## Configuration and layout -/

structure KvPoolConfig where
  numBlocks : Nat
  blockSize : Nat
  numLayers : Nat
  numKvHeads : Nat
  headDim : Nat
  dtype : KvDType
  deriving DecidableEq, Repr

def KvPoolConfig.kvDim (c : KvPoolConfig) : Nat := c.numKvHeads * c.headDim

structure KvLayout where
  blockStrideBytes : Nat
  layerStrideBytes : Nat
  kvPlaneStrideBytes : Nat
  tokenStrideBytes : Nat
  headStrideBytes : Nat
  elementBytes : Nat
  totalBytes : Nat
  numBlocks : Nat
  numLayers : Nat
  blockSize : Nat
  numKvHeads : Nat
  headDim : Nat
  deriving DecidableEq, Repr

/-- The element width `from_config` uses; `Fp4` has none. -/
def KvDType.elementBytes? : KvDType → Option Nat
  | .bf16 => some 2
  | .fp16 => some 2
  | .fp32 => some 4
  | .fp8 => some 1
  | .fp4 => none

namespace KvLayout

def overflow (what : String) : String := "KV layout size overflow computing " ++ what

/-- One checked multiplication of `from_config`. -/
def mulOr (a b : Nat) (what : String) : Except String Nat :=
  match checkedMul a b with
  | some n => .ok n
  | none => .error (overflow what)

def fromConfig (config : KvPoolConfig) : Except String KvLayout := do
  let elementBytes ← match config.dtype.elementBytes? with
    | some n => Except.ok n
    | none => Except.error "Fp4 sub-byte stride requires packed layout"
  let headStrideBytes ← mulOr config.headDim elementBytes "head_stride_bytes"
  let tokenStrideBytes ← mulOr config.numKvHeads headStrideBytes "token_stride_bytes"
  let kvPlaneStrideBytes ← mulOr config.blockSize tokenStrideBytes "kv_plane_stride_bytes"
  let layerStrideBytes ← mulOr kvPlaneStrideBytes 2 "layer_stride_bytes"
  let blockStrideBytes ← mulOr config.numLayers layerStrideBytes "block_stride_bytes"
  let totalBytes ← mulOr config.numBlocks blockStrideBytes "total_bytes"
  return {
    blockStrideBytes, layerStrideBytes, kvPlaneStrideBytes, tokenStrideBytes, headStrideBytes, elementBytes, totalBytes
    numBlocks := config.numBlocks
    numLayers := config.numLayers
    blockSize := config.blockSize
    numKvHeads := config.numKvHeads
    headDim := config.headDim }

def tokenPlaneOffset (l : KvLayout) (block layer : Nat) (isValue : Bool) (token : Nat) : Option Nat :=
  if block < l.numBlocks ∧ layer < l.numLayers ∧ token < l.blockSize then
    some (block * l.blockStrideBytes + layer * l.layerStrideBytes + isValue.toNat * l.kvPlaneStrideBytes
      + token * l.tokenStrideBytes)
  else none

def blockOffset (l : KvLayout) (block : Nat) : Option Nat :=
  if block < l.numBlocks then some (block * l.blockStrideBytes) else none

/-! ## The strides of an accepted layout -/

theorem mulOr_ok {a b n : Nat} {what : String} (h : mulOr a b what = .ok n) : n = a * b := by
  unfold mulOr checkedMul at h
  split at h
  · rename_i k hk
    split at hk
    · cases hk; cases h; rfl
    · cases hk
  · cases h

/-- The strides are the products of `from_config`, and the shape is the configuration's. -/
structure Of (c : KvPoolConfig) (l : KvLayout) : Prop where
  elem : c.dtype.elementBytes? = some l.elementBytes
  token : l.tokenStrideBytes = c.kvDim * l.elementBytes
  plane : l.kvPlaneStrideBytes = c.blockSize * l.tokenStrideBytes
  layer : l.layerStrideBytes = l.kvPlaneStrideBytes * 2
  block : l.blockStrideBytes = c.numLayers * l.layerStrideBytes
  total : l.totalBytes = c.numBlocks * l.blockStrideBytes
  numBlocks : l.numBlocks = c.numBlocks
  numLayers : l.numLayers = c.numLayers
  blockSize : l.blockSize = c.blockSize

theorem of_fromConfig {c : KvPoolConfig} {l : KvLayout} (h : fromConfig c = .ok l) : Of c l := by
  unfold fromConfig at h
  simp only [bind, Except.bind] at h
  repeat' split at h
  all_goals cases h
  rename_i e he _ hs hhead _ ht htoken _ hp hplane _ hl hlayer _ hb hblock _ htot htotal
  refine ⟨he, ?_, mulOr_ok hplane, mulOr_ok hlayer, mulOr_ok hblock, mulOr_ok htotal, rfl, rfl, rfl⟩
  change ht = _
  rw [mulOr_ok htoken, mulOr_ok hhead, KvPoolConfig.kvDim, Nat.mul_assoc]

/-- Index of a token plane in the pool, in units of `tokenStrideBytes`. -/
def planeIndex (c : KvPoolConfig) (block layer : Nat) (isValue : Bool) (token : Nat) : Nat :=
  ((block * c.numLayers + layer) * 2 + isValue.toNat) * c.blockSize + token

theorem tokenPlaneOffset_eq {c : KvPoolConfig} {l : KvLayout} (h : Of c l) {block layer token : Nat} (isValue : Bool)
    (hb : block < c.numBlocks) (hl : layer < c.numLayers) (ht : token < c.blockSize) :
    l.tokenPlaneOffset block layer isValue token =
      some (planeIndex c block layer isValue token * l.tokenStrideBytes) := by
  unfold tokenPlaneOffset planeIndex
  rw [h.numBlocks, h.numLayers, h.blockSize, if_pos ⟨hb, hl, ht⟩, h.block, h.layer, h.plane]
  congr 1
  ring

theorem blockOffset_eq {c : KvPoolConfig} {l : KvLayout} (h : Of c l) {block : Nat} (hb : block < c.numBlocks) :
    l.blockOffset block = some (block * l.blockStrideBytes) := by
  unfold blockOffset
  rw [h.numBlocks, if_pos hb]

theorem blockOffset_some {l : KvLayout} {block o : Nat} (h : l.blockOffset block = some o) :
    o = block * l.blockStrideBytes := by
  unfold blockOffset at h
  split at h
  · exact (Option.some.inj h).symm
  · cases h

theorem digits_inj {x x' d d' n : Nat} (hd : d < n) (hd' : d' < n) (he : x * n + d = x' * n + d') : x = x' ∧ d = d' := by
  have hdd : d = d' := by
    have hm := congrArg (· % n) he
    simpa [Nat.mul_add_mod', Nat.mod_eq_of_lt hd, Nat.mod_eq_of_lt hd', Nat.add_comm] using hm
  subst hdd
  exact ⟨Nat.eq_of_mul_eq_mul_right (by omega) (Nat.add_right_cancel he), rfl⟩

theorem planeIndex_inj {c : KvPoolConfig} {b b' l l' t t' : Nat} {v v' : Bool} (hl : l < c.numLayers)
    (hl' : l' < c.numLayers) (ht : t < c.blockSize) (ht' : t' < c.blockSize)
    (h : planeIndex c b l v t = planeIndex c b' l' v' t') : b = b' ∧ l = l' ∧ v = v' ∧ t = t' := by
  unfold planeIndex at h
  obtain ⟨h1, rfl⟩ := digits_inj ht ht' h
  obtain ⟨h2, h3⟩ := digits_inj v.toNat_lt v'.toNat_lt h1
  obtain ⟨rfl, rfl⟩ := digits_inj hl hl' h2
  have hv : v = v' := by cases v <;> cases v' <;> first | rfl | cases h3
  exact ⟨rfl, rfl, hv, rfl⟩

theorem planeIndex_range {c : KvPoolConfig} {b l t : Nat} (v : Bool) (hl : l < c.numLayers) (ht : t < c.blockSize) :
    b * (c.numLayers * 2 * c.blockSize) ≤ planeIndex c b l v t ∧
      planeIndex c b l v t + 1 ≤ (b + 1) * (c.numLayers * 2 * c.blockSize) := by
  have hv := v.toNat_lt
  unfold planeIndex
  have e : ((b * c.numLayers + l) * 2 + v.toNat) * c.blockSize + t
      = b * (c.numLayers * 2 * c.blockSize) + ((l * 2 + v.toNat) * c.blockSize + t) := by ring
  have hlt : (l * 2 + v.toNat) * c.blockSize + t + 1 ≤ c.numLayers * 2 * c.blockSize := by
    calc (l * 2 + v.toNat) * c.blockSize + t + 1 ≤ (l * 2 + v.toNat) * c.blockSize + c.blockSize := by omega
      _ = (l * 2 + v.toNat + 1) * c.blockSize := by ring
      _ ≤ c.numLayers * 2 * c.blockSize := Nat.mul_le_mul_right _ (by omega)
  rw [e, Nat.succ_mul]
  omega

end KvLayout

end SovereignCore.Kv
