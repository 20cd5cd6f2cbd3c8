import SovereignCore.Kv.Layout
import SovereignCore.Lib.Paging

/-!
# The physical KV pool

`UnifiedKvTensorPool` is a buffer of bytes read through a layout. A method that asserts returns `none` where the
assertion fails.

* `copyBlock`, `zeroBlock`, `copyBlockDevice`, `writeTokenKv`, `readTokenKv`, `gatherLayerKv` : the source's methods;
* `row p b l t` : the K and V row a reader sees at token `t` of layer `l` of block `b` (`readTokenKv_eq`);
* `row_writeTokenKv`, `row_zeroBlock_self`, `row_zeroBlock_other`, `row_copyBlock` : what each write leaves at every row, which is where the
  offsets have to be disjoint;
* `gatherLayerKv_eq` : a gather is the concatenation of the table's rows.
-/

namespace SovereignCore.Kv

abbrev BlockId : Type := Nat

/-- A unified buffer: its length, its device address and its bytes. -/
structure Buffer where
  len : Nat
  deviceAddress : Nat
  bytes : Mem

structure BufferRegion where
  address : Nat
  offset : Nat
  len : Nat
  deriving DecidableEq, Repr

structure Fence where
  value : UInt64
  deriving DecidableEq, Repr

/-- The errors of `aien_platform`; `objectNotFound` carries the object's 32-byte id. -/
inductive PlatformError where
  | outOfMemory
  | deviceUnavailable
  | invalidLayout
  | queueFull
  | queueEmpty
  | taskRejected (msg : String)
  | objectNotFound (id : Vector UInt8 32)
  | accessDenied
  | hardwareFault (msg : String)
  | unsupportedOperation
  deriving DecidableEq, Repr

/-- The `Debug` text of an error. -/
def PlatformError.debug : PlatformError → String
  | outOfMemory => "OutOfMemory"
  | deviceUnavailable => "DeviceUnavailable"
  | invalidLayout => "InvalidLayout"
  | queueFull => "QueueFull"
  | queueEmpty => "QueueEmpty"
  | taskRejected msg => s!"TaskRejected({msg.quote})"
  | objectNotFound id => s!"ObjectNotFound(ObjectId({id.toList}))"
  | accessDenied => "AccessDenied"
  | hardwareFault msg => s!"HardwareFault({msg.quote})"
  | unsupportedOperation => "UnsupportedOperation"

/-- A device's `copy`: its answer, and the bytes it leaves in the buffer. -/
structure MemoryDevice where
  copy : BufferRegion → BufferRegion → Mem → Except PlatformError Fence × Mem

structure UnifiedKvTensorPool where
  config : KvPoolConfig
  layout : KvLayout
  buffer : Buffer
  layout_of : KvLayout.fromConfig config = .ok layout
  fits : layout.totalBytes ≤ buffer.len

namespace UnifiedKvTensorPool

def new (config : KvPoolConfig) (buffer : Buffer) : Except String UnifiedKvTensorPool :=
  match h : KvLayout.fromConfig config with
  | .error e => .error e
  | .ok layout =>
    if hlen : buffer.len < layout.totalBytes then
      .error s!"Buffer size {buffer.len} is smaller than required KV tensor pool size {layout.totalBytes}"
    else .ok ⟨config, layout, buffer, h, Nat.le_of_not_lt hlen⟩

def setBytes (p : UnifiedKvTensorPool) (bytes : Mem) : UnifiedKvTensorPool :=
  { p with buffer := { p.buffer with bytes } }

def blockRegion (p : UnifiedKvTensorPool) (blockId : BlockId) : Option BufferRegion := do
  let offset ← p.layout.blockOffset blockId
  return { address := p.buffer.deviceAddress + offset, offset, len := p.layout.blockStrideBytes }

def copyBlock (p : UnifiedKvTensorPool) (srcBlock dstBlock : BlockId) : Option UnifiedKvTensorPool :=
  if srcBlock = dstBlock then some p
  else do
    let srcOffset ← p.layout.blockOffset srcBlock
    let dstOffset ← p.layout.blockOffset dstBlock
    return p.setBytes (p.buffer.bytes.move srcOffset dstOffset p.layout.blockStrideBytes)

def zeroBlock (p : UnifiedKvTensorPool) (blockId : BlockId) : Option UnifiedKvTensorPool := do
  let offset ← p.layout.blockOffset blockId
  return p.setBytes (p.buffer.bytes.fill offset p.layout.blockStrideBytes 0)

def copyBlockDevice (p : UnifiedKvTensorPool) (device : MemoryDevice) (srcBlock dstBlock : BlockId) :
    Option (Except PlatformError Fence × UnifiedKvTensorPool) := do
  let srcRegion ← p.blockRegion srcBlock
  let dstRegion ← p.blockRegion dstBlock
  let (answer, bytes) := device.copy srcRegion dstRegion p.buffer.bytes
  return (answer, p.setBytes bytes)

/-- The K row and the V row are stored one after the other; the two planes are disjoint (`planeIndex_inj`), so the
element order of the source's loop makes no difference. -/
def writeTokenKv (p : UnifiedKvTensorPool) (blockId layerIdx tokenInBlock : Nat) (k v : List F32) :
    Option UnifiedKvTensorPool := do
  guard (k.length = p.config.kvDim)
  guard (v.length = p.config.kvDim)
  let kOffset ← p.layout.tokenPlaneOffset blockId layerIdx false tokenInBlock
  let vOffset ← p.layout.tokenPlaneOffset blockId layerIdx true tokenInBlock
  let enc ← p.config.dtype.encode?
  return p.setBytes ((p.buffer.bytes.store kOffset (k.flatMap enc)).store vOffset (v.flatMap enc))

def readRow (p : UnifiedKvTensorPool) (dec : List UInt8 → F32) (offset : Nat) : List F32 :=
  (List.range p.config.kvDim).map fun i =>
    dec (p.buffer.bytes.load (offset + p.layout.elementBytes * i) p.layout.elementBytes)

def readTokenKv (p : UnifiedKvTensorPool) (blockId layerIdx tokenInBlock : Nat) : Option (List F32 × List F32) := do
  let kOffset ← p.layout.tokenPlaneOffset blockId layerIdx false tokenInBlock
  let vOffset ← p.layout.tokenPlaneOffset blockId layerIdx true tokenInBlock
  let dec ← p.config.dtype.decode?
  return (p.readRow dec kOffset, p.readRow dec vOffset)

/-- The first `n` tokens of one block. -/
def readBlock (p : UnifiedKvTensorPool) (blk layerIdx n : Nat) : Option (List F32 × List F32) := do
  let rows ← (List.range n).mapM (p.readTokenKv blk layerIdx)
  return (rows.flatMap Prod.fst, rows.flatMap Prod.snd)

/-- The loop of `gather_layer_kv` over the rest of the block table. -/
def gatherFrom (p : UnifiedKvTensorPool) (totalTokens layerIdx : Nat) :
    List BlockId → Nat → Option (List F32 × List F32)
  | [], _ => some ([], [])
  | blk :: rest, tokensRead => do
    let tokensInThisBlock := min (totalTokens - tokensRead) p.config.blockSize
    let (k, v) ← p.readBlock blk layerIdx tokensInThisBlock
    let tokensRead := tokensRead + tokensInThisBlock
    if tokensRead ≥ totalTokens then return (k, v)
    else
      let (ks, vs) ← gatherFrom p totalTokens layerIdx rest tokensRead
      return (k ++ ks, v ++ vs)

def gatherLayerKv (p : UnifiedKvTensorPool) (blockTable : List BlockId) (totalTokens layerIdx : Nat) :
    Option (List F32 × List F32) :=
  p.gatherFrom totalTokens layerIdx blockTable 0

/-! ## Rows -/

theorem strides (p : UnifiedKvTensorPool) : KvLayout.Of p.config p.layout := KvLayout.of_fromConfig p.layout_of

def dec (p : UnifiedKvTensorPool) : List UInt8 → F32 := p.config.dtype.decode?.getD fun _ => 0

def planeRow (p : UnifiedKvTensorPool) (b l : Nat) (v : Bool) (t : Nat) : List F32 :=
  p.readRow p.dec (KvLayout.planeIndex p.config b l v t * p.layout.tokenStrideBytes)

/-- The K and V row at token `t` of layer `l` of block `b`. -/
def row (p : UnifiedKvTensorPool) (b l t : Nat) : List F32 × List F32 := (p.planeRow b l false t, p.planeRow b l true t)

def HostDtype (p : UnifiedKvTensorPool) : Prop := p.config.dtype = .fp32 ∨ p.config.dtype = .bf16

theorem HostDtype.codec {p : UnifiedKvTensorPool} (h : p.HostDtype) :
    ∃ enc, p.config.dtype.encode? = some enc ∧ p.config.dtype.decode? = some p.dec ∧
      (∀ x, (enc x).length = p.layout.elementBytes) ∧ ∀ x, roundToDtype p.config.dtype x = some (p.dec (enc x)) := by
  have helem := p.strides.elem
  unfold dec
  rcases h with h | h <;> rw [h] at helem ⊢ <;> obtain he := Option.some.inj helem
  · exact ⟨_, rfl, rfl, fun x => by rw [length_leBytes]; exact he, @decode_encode .fp32 _ _ rfl rfl⟩
  · exact ⟨_, rfl, rfl, fun x => by rw [length_leBytes]; exact he, @decode_encode .bf16 _ _ rfl rfl⟩

theorem readTokenKv_eq {p : UnifiedKvTensorPool} (hd : p.HostDtype) {b l t : Nat} (hb : b < p.config.numBlocks)
    (hl : l < p.config.numLayers) (ht : t < p.config.blockSize) : p.readTokenKv b l t = some (p.row b l t) := by
  obtain ⟨_, _, hdec, _⟩ := hd.codec
  unfold readTokenKv row planeRow
  rw [KvLayout.tokenPlaneOffset_eq p.strides false hb hl ht, KvLayout.tokenPlaneOffset_eq p.strides true hb hl ht, hdec]
  rfl

/-- The bytes of a plane, and so its row, survive a change of the buffer that does not touch them. -/
theorem planeRow_congr {p : UnifiedKvTensorPool} {bytes : Mem} {b b' l t : Nat} {v : Bool}
    (h : ∀ i < p.config.kvDim,
      bytes.load (KvLayout.planeIndex p.config b l v t * p.layout.tokenStrideBytes + p.layout.elementBytes * i)
          p.layout.elementBytes =
        p.buffer.bytes.load (KvLayout.planeIndex p.config b' l v t * p.layout.tokenStrideBytes
          + p.layout.elementBytes * i) p.layout.elementBytes) :
    (p.setBytes bytes).planeRow b l v t = p.planeRow b' l v t := by
  unfold planeRow readRow
  apply List.map_congr_left
  intro i hi
  exact congrArg p.dec (h i (List.mem_range.1 hi))

/-- Element `i` of a row lies inside its plane. -/
theorem element_in_plane (p : UnifiedKvTensorPool) {i : Nat} (hi : i < p.config.kvDim) :
    p.layout.elementBytes * i + p.layout.elementBytes ≤ p.layout.tokenStrideBytes := by
  rw [p.strides.token, ← Nat.mul_succ, Nat.mul_comm p.config.kvDim]
  exact Nat.mul_le_mul_left _ hi

theorem planeRow_store_other {p : UnifiedKvTensorPool} {n : Nat} {bs : List UInt8}
    (hlen : bs.length ≤ p.layout.tokenStrideBytes) {b l t : Nat} {v : Bool}
    (hne : KvLayout.planeIndex p.config b l v t ≠ n) :
    (p.setBytes (p.buffer.bytes.store (n * p.layout.tokenStrideBytes) bs)).planeRow b l v t = p.planeRow b l v t := by
  apply planeRow_congr
  intro i hi
  have hin := p.element_in_plane hi
  apply Mem.load_store_disjoint
  rcases Nat.lt_or_gt_of_ne hne with h | h
  · left
    have := Nat.mul_le_mul_right p.layout.tokenStrideBytes (Nat.succ_le_of_lt h)
    rw [Nat.succ_mul] at this
    omega
  · right
    have := Nat.mul_le_mul_right p.layout.tokenStrideBytes (Nat.succ_le_of_lt h)
    rw [Nat.succ_mul] at this
    omega

theorem planeRow_store_same {p : UnifiedKvTensorPool} {enc : F32 → List UInt8}
    (henc : ∀ x, (enc x).length = p.layout.elementBytes) {xs : List F32} (hxs : xs.length = p.config.kvDim)
    {b l t : Nat} {v : Bool} :
    (p.setBytes (p.buffer.bytes.store (KvLayout.planeIndex p.config b l v t * p.layout.tokenStrideBytes)
      (xs.flatMap enc))).planeRow b l v t = xs.map fun x => p.dec (enc x) := by
  unfold planeRow readRow
  apply List.ext_getElem
  · simp [setBytes, hxs]
  · intro i h1 h2
    have hi : i < xs.length := by simpa using h2
    simp only [List.getElem_map, List.getElem_range]
    exact congrArg p.dec (Mem.load_store_flatMap henc _ _ xs i hi)

def rounded (p : UnifiedKvTensorPool) (xs : List F32) : List F32 :=
  xs.map fun x => (roundToDtype p.config.dtype x).getD 0

theorem rounded_eq {p : UnifiedKvTensorPool} {enc : F32 → List UInt8}
    (h : ∀ x, roundToDtype p.config.dtype x = some (p.dec (enc x))) (xs : List F32) :
    p.rounded xs = xs.map fun x => p.dec (enc x) := by
  unfold rounded
  exact List.map_congr_left fun x _ => by rw [h]; rfl

theorem writeTokenKv_isSome {p : UnifiedKvTensorPool} (hd : p.HostDtype) {b l t : Nat} {k v : List F32}
    (hb : b < p.config.numBlocks) (hl : l < p.config.numLayers) (ht : t < p.config.blockSize)
    (hk : k.length = p.config.kvDim) (hv : v.length = p.config.kvDim) : ∃ p', p.writeTokenKv b l t k v = some p' := by
  obtain ⟨enc, he, _⟩ := hd.codec
  unfold writeTokenKv
  rw [KvLayout.tokenPlaneOffset_eq p.strides false hb hl ht, KvLayout.tokenPlaneOffset_eq p.strides true hb hl ht, he]
  simp [hk, hv]

/-- What a write leaves: the rounded row where it wrote, every other row as it was. -/
theorem row_writeTokenKv {p p' : UnifiedKvTensorPool} (hd : p.HostDtype) {b l t : Nat} {k v : List F32}
    (hb : b < p.config.numBlocks) (hl : l < p.config.numLayers) (ht : t < p.config.blockSize)
    (h : p.writeTokenKv b l t k v = some p') :
    p'.config = p.config ∧ p'.layout = p.layout ∧ p'.row b l t = (p.rounded k, p.rounded v) ∧
      ∀ b' l' t', l' < p.config.numLayers → t' < p.config.blockSize → (b', l', t') ≠ (b, l, t) →
        p'.row b' l' t' = p.row b' l' t' := by
  obtain ⟨enc, he, _, hlen, hround⟩ := hd.codec
  unfold writeTokenKv at h
  rw [KvLayout.tokenPlaneOffset_eq p.strides false hb hl ht, KvLayout.tokenPlaneOffset_eq p.strides true hb hl ht,
    he] at h
  by_cases hk : k.length = p.config.kvDim
  swap
  · simp [hk] at h
  by_cases hv : v.length = p.config.kvDim
  swap
  · simp [hk, hv] at h
  simp only [hk, hv, guard_true, Option.pure_def, Option.bind_eq_bind, Option.bind_some, Option.some.injEq] at h
  subst h
  have hw : ∀ xs : List F32, xs.length = p.config.kvDim → (xs.flatMap enc).length ≤ p.layout.tokenStrideBytes := by
    intro xs hxs
    rw [length_flatMap_width hlen, hxs, p.strides.token, Nat.mul_comm]
  -- the two stores, as two updates of the pool
  let q := p.setBytes (p.buffer.bytes.store (KvLayout.planeIndex p.config b l false t * p.layout.tokenStrideBytes)
    (k.flatMap enc))
  have hother : ∀ {b' l' t' : Nat} {x : Bool}, KvLayout.planeIndex p.config b' l' x t' ≠
      KvLayout.planeIndex p.config b l true t →
      (q.setBytes (q.buffer.bytes.store (KvLayout.planeIndex p.config b l true t * p.layout.tokenStrideBytes)
        (v.flatMap enc))).planeRow b' l' x t' = q.planeRow b' l' x t' :=
    fun hne => planeRow_store_other (p := q) (hw v hv) hne
  have hfirst : ∀ {b' l' t' : Nat} {x : Bool}, KvLayout.planeIndex p.config b' l' x t' ≠
      KvLayout.planeIndex p.config b l false t → q.planeRow b' l' x t' = p.planeRow b' l' x t' :=
    fun hne => planeRow_store_other (p := p) (hw k hk) hne
  refine ⟨rfl, rfl, Prod.ext ?_ ?_, fun b' l' t' hl' ht' hne => Prod.ext ?_ ?_⟩
  · refine (hother fun he => ?_).trans ?_
    · exact absurd (KvLayout.planeIndex_inj hl hl ht ht he).2.2.1 (by decide)
    · rw [rounded_eq hround]
      exact planeRow_store_same hlen hk
  · exact (planeRow_store_same (p := q) hlen hv).trans (rounded_eq hround v).symm
  · refine (hother fun he => ?_).trans (hfirst fun he => ?_)
    · exact absurd (KvLayout.planeIndex_inj hl' hl ht' ht he).2.2.1 (by decide)
    · obtain ⟨rfl, rfl, -, rfl⟩ := KvLayout.planeIndex_inj hl' hl ht' ht he
      exact hne rfl
  · refine (hother fun he => ?_).trans (hfirst fun he => ?_)
    · obtain ⟨rfl, rfl, -, rfl⟩ := KvLayout.planeIndex_inj hl' hl ht' ht he
      exact hne rfl
    · exact absurd (KvLayout.planeIndex_inj hl' hl ht' ht he).2.2.1 (by decide)

/-! ## Whole blocks -/

theorem blockStride_eq (p : UnifiedKvTensorPool) :
    p.layout.blockStrideBytes = p.config.numLayers * 2 * p.config.blockSize * p.layout.tokenStrideBytes := by
  rw [p.strides.block, p.strides.layer, p.strides.plane]
  ring

/-- The offset of a plane inside its block, and that the plane ends inside it. -/
theorem plane_in_block (p : UnifiedKvTensorPool) {l t : Nat} (v : Bool) (hl : l < p.config.numLayers)
    (ht : t < p.config.blockSize) : ∃ o, o + p.layout.tokenStrideBytes ≤ p.layout.blockStrideBytes ∧
      ∀ b, KvLayout.planeIndex p.config b l v t * p.layout.tokenStrideBytes = b * p.layout.blockStrideBytes + o := by
  refine ⟨((l * 2 + v.toNat) * p.config.blockSize + t) * p.layout.tokenStrideBytes, ?_, fun b => ?_⟩
  · have h := (KvLayout.planeIndex_range (c := p.config) (b := 0) v hl ht).2
    unfold KvLayout.planeIndex at h
    rw [Nat.zero_mul, Nat.zero_add, Nat.zero_add, Nat.one_mul] at h
    rw [p.blockStride_eq, ← Nat.succ_mul]
    exact Nat.mul_le_mul_right _ h
  · rw [p.blockStride_eq]
    unfold KvLayout.planeIndex
    ring

theorem block_disjoint {b b' n : Nat} (h : b ≠ b') : b' * n + n ≤ b * n ∨ b * n + n ≤ b' * n := by
  rcases Nat.lt_or_gt_of_ne h with h | h
  · right
    rw [← Nat.succ_mul]
    exact Nat.mul_le_mul_right n h
  · left
    rw [← Nat.succ_mul]
    exact Nat.mul_le_mul_right n h

theorem zeroBlock_isSome {p : UnifiedKvTensorPool} {b : Nat} (hb : b < p.config.numBlocks) :
    ∃ p', p.zeroBlock b = some p' := by
  unfold zeroBlock
  rw [KvLayout.blockOffset_eq p.strides hb]
  exact ⟨_, rfl⟩

theorem copyBlock_isSome {p : UnifiedKvTensorPool} {s d : Nat} (hs : s < p.config.numBlocks)
    (hd : d < p.config.numBlocks) : ∃ p', p.copyBlock s d = some p' := by
  unfold copyBlock
  rw [KvLayout.blockOffset_eq p.strides hs, KvLayout.blockOffset_eq p.strides hd]
  split <;> exact ⟨_, rfl⟩

theorem zeroBlock_some {p p' : UnifiedKvTensorPool} {b : Nat} (h : p.zeroBlock b = some p') :
    p' = p.setBytes (p.buffer.bytes.fill (b * p.layout.blockStrideBytes) p.layout.blockStrideBytes 0) := by
  simp only [zeroBlock, Option.bind_eq_bind, Option.bind_eq_some_iff, Option.pure_def, Option.some.injEq] at h
  obtain ⟨o, ho, rfl⟩ := h
  rw [KvLayout.blockOffset_some ho]

theorem copyBlock_some {p p' : UnifiedKvTensorPool} {s d : Nat} (hne : s ≠ d) (h : p.copyBlock s d = some p') :
    p' = p.setBytes (p.buffer.bytes.move (s * p.layout.blockStrideBytes) (d * p.layout.blockStrideBytes)
      p.layout.blockStrideBytes) := by
  simp only [copyBlock, if_neg hne, Option.bind_eq_bind, Option.bind_eq_some_iff, Option.pure_def,
    Option.some.injEq] at h
  obtain ⟨o, ho, o', ho', rfl⟩ := h
  rw [KvLayout.blockOffset_some ho, KvLayout.blockOffset_some ho']

theorem config_zeroBlock {p p' : UnifiedKvTensorPool} {b : Nat} (h : p.zeroBlock b = some p') :
    p'.config = p.config := by
  rw [zeroBlock_some h]
  rfl

theorem config_copyBlock {p p' : UnifiedKvTensorPool} {s d : Nat} (h : p.copyBlock s d = some p') :
    p'.config = p.config := by
  by_cases hne : s = d
  · rw [copyBlock, if_pos hne] at h
    rw [Option.some.inj h]
  · rw [copyBlock_some hne h]
    rfl

theorem row_zeroBlock_self {p p' : UnifiedKvTensorPool} (hd : p.HostDtype) {b : Nat} (h : p.zeroBlock b = some p')
    {l t : Nat} (hl : l < p.config.numLayers) (ht : t < p.config.blockSize) :
    p'.row b l t = (List.replicate p.config.kvDim 0, List.replicate p.config.kvDim 0) := by
  obtain ⟨_, _, hdec, _⟩ := hd.codec
  obtain rfl := zeroBlock_some h
  have hzero : ∀ v, (p.setBytes (p.buffer.bytes.fill (b * p.layout.blockStrideBytes) p.layout.blockStrideBytes 0)).planeRow
      b l v t = List.replicate p.config.kvDim 0 := by
    intro v
    obtain ⟨o, ho, hidx⟩ := p.plane_in_block v hl ht
    unfold planeRow readRow
    rw [List.eq_replicate_iff]
    refine ⟨by simp [setBytes], fun x hx => ?_⟩
    obtain ⟨i, hi, rfl⟩ := List.mem_map.1 hx
    have hin := p.element_in_plane (List.mem_range.1 hi)
    have hidx := hidx b
    change p.dec (Mem.load (Mem.fill _ _ _ 0) (KvLayout.planeIndex p.config b l v t * p.layout.tokenStrideBytes
      + p.layout.elementBytes * i) p.layout.elementBytes) = 0
    rw [Mem.load_fill (by omega) (by omega), decode_zeros hdec]
  exact Prod.ext (hzero false) (hzero true)

theorem row_zeroBlock_other {p p' : UnifiedKvTensorPool} {b : Nat} (h : p.zeroBlock b = some p') {l t : Nat}
    (hl : l < p.config.numLayers) (ht : t < p.config.blockSize) {b' : Nat} (hne : b' ≠ b) :
    p'.row b' l t = p.row b' l t := by
  obtain rfl := zeroBlock_some h
  have hkeep : ∀ v, (p.setBytes (p.buffer.bytes.fill (b * p.layout.blockStrideBytes)
      p.layout.blockStrideBytes 0)).planeRow b' l v t = p.planeRow b' l v t := by
    intro v
    obtain ⟨o, ho, hidx⟩ := p.plane_in_block v hl ht
    apply planeRow_congr
    intro i hi
    have hin := p.element_in_plane hi
    have hidx := hidx b'
    apply Mem.load_fill_disjoint
    rcases block_disjoint (n := p.layout.blockStrideBytes) hne with hd | hd
    · right; omega
    · left; omega
  exact Prod.ext (hkeep false) (hkeep true)

/-- A copied block reads as its source; every other block reads as before. -/
theorem row_copyBlock {p p' : UnifiedKvTensorPool} {s d : Nat} (h : p.copyBlock s d = some p') {l t : Nat}
    (hl : l < p.config.numLayers) (ht : t < p.config.blockSize) :
    p'.row d l t = p.row s l t ∧ ∀ b', b' ≠ d → p'.row b' l t = p.row b' l t := by
  by_cases hne : s = d
  · subst hne
    rw [copyBlock, if_pos rfl] at h
    obtain rfl := Option.some.inj h
    exact ⟨rfl, fun _ _ => rfl⟩
  obtain rfl := copyBlock_some hne h
  let bytes := p.buffer.bytes.move (s * p.layout.blockStrideBytes) (d * p.layout.blockStrideBytes)
    p.layout.blockStrideBytes
  have hcopy : ∀ v, (p.setBytes bytes).planeRow d l v t = p.planeRow s l v t := by
    intro v
    obtain ⟨o, ho, hidx⟩ := p.plane_in_block v hl ht
    apply planeRow_congr
    intro i hi
    have hin := p.element_in_plane hi
    rw [hidx d, hidx s, Nat.add_assoc, Nat.add_assoc]
    exact Mem.load_move (by omega)
  have hkeep : ∀ v b', b' ≠ d → (p.setBytes bytes).planeRow b' l v t = p.planeRow b' l v t := by
    intro v b' hne
    obtain ⟨o, ho, hidx⟩ := p.plane_in_block v hl ht
    apply planeRow_congr
    intro i hi
    have hin := p.element_in_plane hi
    have hidx := hidx b'
    apply Mem.load_move_disjoint
    rcases block_disjoint (n := p.layout.blockStrideBytes) hne with hx | hx
    · right; omega
    · left; omega
  exact ⟨Prod.ext (hcopy false) (hcopy true), fun b' hne => Prod.ext (hkeep false b' hne) (hkeep true b' hne)⟩

/-! ## Gathering -/

theorem readBlock_eq {p : UnifiedKvTensorPool} (hd : p.HostDtype) {b l : Nat} (hb : b < p.config.numBlocks)
    (hl : l < p.config.numLayers) {rows : List (List F32 × List F32)} (hlen : rows.length ≤ p.config.blockSize)
    (hrows : ∀ i x, rows[i]? = some x → p.row b l i = x) :
    p.readBlock b l rows.length = some (rows.flatMap Prod.fst, rows.flatMap Prod.snd) := by
  have hmap : (List.range rows.length).mapM (p.readTokenKv b l) = some rows := by
    have hread : ∀ i ∈ List.range rows.length, p.readTokenKv b l i = some (p.row b l i) := fun i hi =>
      readTokenKv_eq hd hb hl (Nat.lt_of_lt_of_le (List.mem_range.1 hi) hlen)
    have heq : (List.range rows.length).map (p.row b l) = rows := by
      apply List.ext_getElem?
      intro i
      rw [List.getElem?_map]
      cases hi : rows[i]? with
      | none => rw [List.getElem?_eq_none (by simpa using List.getElem?_eq_none_iff.1 hi)]; rfl
      | some x =>
        obtain ⟨hlt, -⟩ := List.getElem?_eq_some_iff.1 hi
        rw [List.getElem?_range hlt, Option.map_some, hrows i x hi]
    conv_rhs => rw [← heq]
    generalize List.range rows.length = idxs at hread
    induction idxs with
    | nil => rfl
    | cons i idxs ih =>
      rw [List.mapM_cons, hread i List.mem_cons_self, ih fun j hj => hread j (List.mem_cons_of_mem i hj)]
      rfl
  unfold readBlock
  rw [hmap]
  rfl

theorem gatherFrom_eq {p : UnifiedKvTensorPool} (hd : p.HostDtype) {l : Nat} (hl : l < p.config.numLayers)
    (hbs : 0 < p.config.blockSize) {total : Nat} : ∀ {ids : List BlockId} {rows : List (List F32 × List F32)}
    {tokensRead : Nat}, (∀ b ∈ ids, b < p.config.numBlocks) → tokensRead + rows.length = total →
    Reads p.config.blockSize (fun b t => p.row b l t) ids rows →
    p.gatherFrom total l ids tokensRead = some (rows.flatMap Prod.fst, rows.flatMap Prod.snd)
  | [], rows, _, _, _, hr => by
    have hnil : rows = [] := by
      cases rows with
      | nil => rfl
      | cons x xs =>
        obtain ⟨b, hb, -⟩ := hr 0 x rfl
        rw [List.getElem?_nil] at hb
        cases hb
    rw [hnil]
    rfl
  | blk :: ids, rows, tokensRead, hin, htot, hr => by
    obtain ⟨hfirst, hrest⟩ := hr.uncons hbs
    have htake : (rows.take p.config.blockSize).length = min (total - tokensRead) p.config.blockSize := by
      rw [List.length_take]
      omega
    have hblock : p.readBlock blk l (min (total - tokensRead) p.config.blockSize) =
        some ((rows.take p.config.blockSize).flatMap Prod.fst, (rows.take p.config.blockSize).flatMap Prod.snd) := by
      rw [← htake]
      refine readBlock_eq hd (hin blk List.mem_cons_self) hl (by rw [List.length_take]; omega) fun i x hx => ?_
      rw [List.getElem?_take] at hx
      split_ifs at hx with hi
      exact hfirst i x hi hx
    unfold gatherFrom
    dsimp only
    rw [hblock]
    simp only [Option.bind_eq_bind, Option.bind_some, Option.pure_def]
    split_ifs with hdone
    · rw [List.take_of_length_le (by omega)]
    · have hlen : tokensRead + min (total - tokensRead) p.config.blockSize +
          (rows.drop p.config.blockSize).length = total := by
        rw [List.length_drop]
        omega
      rw [gatherFrom_eq hd hl hbs (fun b hb => hin b (List.mem_cons_of_mem blk hb)) hlen hrest, Option.bind_some,
        ← List.flatMap_append, ← List.flatMap_append, List.take_append_drop]

/-- A gather over a table that reads as `rows` is their concatenation. -/
theorem gatherLayerKv_eq {p : UnifiedKvTensorPool} (hd : p.HostDtype) {l : Nat} (hl : l < p.config.numLayers)
    (hbs : 0 < p.config.blockSize) {ids : List BlockId} (hin : ∀ b ∈ ids, b < p.config.numBlocks)
    {rows : List (List F32 × List F32)} (hr : Reads p.config.blockSize (fun b t => p.row b l t) ids rows) :
    p.gatherLayerKv ids rows.length l = some (rows.flatMap Prod.fst, rows.flatMap Prod.snd) :=
  gatherFrom_eq hd hl hbs hin (Nat.zero_add _) hr

end UnifiedKvTensorPool

end SovereignCore.Kv
