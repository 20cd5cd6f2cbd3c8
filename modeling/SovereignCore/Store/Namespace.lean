import SovereignCore.Lib.Framed
import SovereignCore.Store.Identity
import SovereignCore.Lib.Text

/-!
# The identity of a namespace

`NamespaceFields::namespace_id`, `ComputeConfig::digest`, `digest_with_engine` and `EngineConfig::digest`
(`identity.rs`): everything that must be equal for stored bytes to be reused is hashed into one digest. A digest hashes a
domain, then its fields: fixed widths, a group behind a tag byte, strings behind their length. Floating-point fields are
their bits; the hash function is a parameter.

* `NamespaceFields`, `ComputeConfig`, `EngineIdentity`, `EngineConfig` : the fields;
* `putU8LenStr`, `putRequiredU8LenStr`, `putU16LenStr` : a string with its length, refused when it does not fit;
* `Identity`, `Identity.preimage`, `Identity.digest` : what is hashed, of the four kinds;
* `Identity.bytes`, `preimage_eq` : the accepted preimages as one concatenation;
* `Parts`, `identity_injective` : every field can be read off, so equal digests are of equal fields.
-/

namespace SovereignCore.Store

open Text

/-! ## Fields -/

inductive NamespaceError
  | fieldTooLong (field : String)
  | fieldEmpty (field : String)
  | invalidGeometry
  | tooManySegments
  deriving DecidableEq, Repr

inductive KvDtype
  | fp4
  | fp8
  | bf16
  | fp16
  | fp32
  deriving DecidableEq, Repr

def KvDtype.code : KvDtype → UInt8
  | fp4 => 1
  | fp8 => 2
  | bf16 => 3
  | fp16 => 4
  | fp32 => 5

inductive BackendFormat
  | hostPagedPoolV1
  | nativeF32DecodeStateV1
  deriving DecidableEq, Repr

def BackendFormat.code : BackendFormat → UInt8
  | hostPagedPoolV1 => 1
  | nativeF32DecodeStateV1 => 2

/-- Llama-3 RoPE scaling; the three factors are the bits of an `f64`. -/
structure RopeScaling where
  factor : UInt64
  lowFreqFactor : UInt64
  highFreqFactor : UInt64
  originalMaxPositionEmbeddings : UInt64
  deriving DecidableEq

/-- Byte strides of the pool layout. -/
structure LayoutStrides where
  headStride : UInt64
  tokenStride : UInt64
  kvPlaneStride : UInt64
  layerStride : UInt64
  blockStride : UInt64
  elementBytes : UInt64
  deriving DecidableEq

/-- Every input of the namespace id. -/
structure NamespaceFields where
  modelSha256 : Digest
  modelDigestKind : String
  modelId : String
  numLayers : UInt32
  numKvHeads : UInt32
  headDim : UInt32
  blockSize : UInt32
  /-- The bits of an `f32`. -/
  ropeTheta : UInt32
  ropeScaling : Option RopeScaling
  qkNorm : Bool
  dtype : KvDtype
  layout : LayoutStrides
  backendFormat : BackendFormat
  chunkTokens : UInt32
  sharingNamespace : String
  computeConfigDigest : Digest
  deriving DecidableEq

def maxSharingNamespaceBytes : Nat := 64

def maxArithIdBytes : Nat := 255

def maxChunkSegments : Nat := 119

def recordFormatVersion : UInt16 := 1

inductive HiddenAct
  | silu
  deriving DecidableEq, Repr

def HiddenAct.code : HiddenAct → UInt8
  | silu => 1

/-- Settings that change what the forward pass computes. -/
structure ComputeConfig where
  numHeads : UInt32
  hiddenDim : UInt64
  intermediateDim : UInt64
  vocabSize : UInt64
  /-- The bits of an `f32`. -/
  rmsNormEps : UInt32
  tieWordEmbeddings : Bool
  hiddenAct : HiddenAct
  arithId : String
  arithEpoch : UInt32
  deriving DecidableEq

/-- How the engine holds the weights it computes with. -/
inductive WeightFormat
  | asFile
  | bf16
  | fp8Experts
  | fp8All
  deriving DecidableEq, Repr

def WeightFormat.code : WeightFormat → UInt8
  | asFile => 1
  | bf16 => 2
  | fp8Experts => 3
  | fp8All => 4

/-- MoE shape and run-time numeric switches of the engine. -/
structure EngineConfig where
  numExperts : UInt32
  expertsPerToken : UInt32
  expertIntermediateDim : UInt64
  wholePromptPrefill : Bool
  deviceRouter : Bool
  matmulPath : String
  deriving DecidableEq

/-- The engine that computes the K/V. -/
structure EngineIdentity where
  weightFormat : WeightFormat
  engineBuildId : String
  roundingClass : String
  engineConfigDigest : Digest
  deriving DecidableEq

/-! ## What is hashed -/

/-- `AIEN-PKV-NS-V2` and a zero byte. -/
def nsDomain : List UInt8 := [65, 73, 69, 78, 45, 80, 75, 86, 45, 78, 83, 45, 86, 50, 0]

/-- `AIEN-PKV-CFG-V1` and a zero byte. -/
def cfgDomain : List UInt8 := [65, 73, 69, 78, 45, 80, 75, 86, 45, 67, 70, 71, 45, 86, 49, 0]

/-- `AIEN-PKV-CFG-V2` and a zero byte. -/
def cfgEngineDomain : List UInt8 := [65, 73, 69, 78, 45, 80, 75, 86, 45, 67, 70, 71, 45, 86, 50, 0]

/-- `AIEN-PKV-ENG-V1` and a zero byte. -/
def engDomain : List UInt8 := [65, 73, 69, 78, 45, 80, 75, 86, 45, 69, 78, 71, 45, 86, 49, 0]

def le16 (v : UInt16) : List UInt8 := leBytes 2 v.toNat

def le64 (v : UInt64) : List UInt8 := leBytes 8 v.toNat

/-- The bytes given to the hash so far. -/
abbrev Hasher := List UInt8

def putU8LenStr (h : Hasher) (name s : String) : Except NamespaceError Hasher :=
  if 2 ^ 8 ≤ (utf8 s).length then .error (.fieldTooLong name)
  else .ok (h ++ [.ofNat (utf8 s).length] ++ utf8 s)

/-- A required string: empty is refused, so an unknown value cannot alias. -/
def putRequiredU8LenStr (h : Hasher) (name s : String) : Except NamespaceError Hasher :=
  if s = "" then .error (.fieldEmpty name) else putU8LenStr h name s

def putU16LenStr (h : Hasher) (name s : String) : Except NamespaceError Hasher :=
  if 2 ^ 16 ≤ (utf8 s).length then .error (.fieldTooLong name)
  else .ok (h ++ le16 (.ofNat (utf8 s).length) ++ utf8 s)

def ComputeConfig.putFields (c : ComputeConfig) (h : Hasher) : Except NamespaceError Hasher := do
  let h := h ++ le32 c.numHeads
  let h := h ++ le64 c.hiddenDim
  let h := h ++ le64 c.intermediateDim
  let h := h ++ le64 c.vocabSize
  let h := h ++ le32 c.rmsNormEps
  let h := h ++ [c.tieWordEmbeddings.toUInt8]
  let h := h ++ [c.hiddenAct.code]
  if maxArithIdBytes < (utf8 c.arithId).length then .error (.fieldTooLong "arith_id") else
  let h ← putU8LenStr h "arith_id" c.arithId
  .ok (h ++ le32 c.arithEpoch)

/-- What `ComputeConfig::digest` hashes. -/
def ComputeConfig.preimage (c : ComputeConfig) : Except NamespaceError Hasher := c.putFields cfgDomain

/-- What `ComputeConfig::digest_with_engine` hashes. -/
def ComputeConfig.preimageWithEngine (c : ComputeConfig) (engine : EngineIdentity) : Except NamespaceError Hasher := do
  let h ← c.putFields cfgEngineDomain
  let h := h ++ [engine.weightFormat.code]
  let h ← putRequiredU8LenStr h "engine_build_id" engine.engineBuildId
  let h ← putRequiredU8LenStr h "rounding_class" engine.roundingClass
  .ok (h ++ engine.engineConfigDigest.toList)

/-- What `EngineConfig::digest` hashes. -/
def EngineConfig.preimage (c : EngineConfig) : Except NamespaceError Hasher :=
  let h := engDomain
  let h := h ++ le32 c.numExperts
  let h := h ++ le32 c.expertsPerToken
  let h := h ++ le64 c.expertIntermediateDim
  let h := h ++ [c.wholePromptPrefill.toUInt8]
  let h := h ++ [c.deviceRouter.toUInt8]
  putRequiredU8LenStr h "matmul_path" c.matmulPath

def NamespaceFields.checkGeometry (f : NamespaceFields) : Except NamespaceError Unit :=
  if f.blockSize = 0 ∨ f.chunkTokens = 0 ∨ f.numLayers = 0 ∨ f.numKvHeads = 0 ∨ f.headDim = 0 ∨
      f.chunkTokens.toNat % f.blockSize.toNat ≠ 0 then .error .invalidGeometry
  else
    let zeroBytes : Bool := match f.backendFormat with
      | .hostPagedPoolV1 => f.layout.blockStride = 0
      | .nativeF32DecodeStateV1 => f.layout.elementBytes = 0
    if zeroBytes then .error .invalidGeometry
    else if f.backendFormat = .hostPagedPoolV1 ∧ maxChunkSegments < f.chunkTokens.toNat / f.blockSize.toNat then
      .error .tooManySegments
    else .ok ()

def RopeScaling.put (h : Hasher) : Option RopeScaling → Hasher
  | none => h ++ [0]
  | some r =>
    let h := h ++ [1]
    let h := h ++ le64 r.factor
    let h := h ++ le64 r.lowFreqFactor
    let h := h ++ le64 r.highFreqFactor
    h ++ le64 r.originalMaxPositionEmbeddings

/-- What `NamespaceFields::namespace_id` hashes. -/
def NamespaceFields.preimage (f : NamespaceFields) : Except NamespaceError Hasher := do
  f.checkGeometry
  if maxSharingNamespaceBytes < (utf8 f.sharingNamespace).length then .error (.fieldTooLong "sharing_namespace") else
  let h := nsDomain
  let h := h ++ le16 recordFormatVersion
  let h := h ++ f.modelSha256.toList
  let h ← putU8LenStr h "model_digest_kind" f.modelDigestKind
  let h ← putU16LenStr h "model_id" f.modelId
  let h := [f.numLayers, f.numKvHeads, f.headDim, f.blockSize].foldl (fun h v => h ++ le32 v) h
  let h := h ++ le32 f.ropeTheta
  let h := RopeScaling.put h f.ropeScaling
  let h := h ++ [f.qkNorm.toUInt8]
  let h := h ++ [f.dtype.code]
  let l := f.layout
  let h := [l.headStride, l.tokenStride, l.kvPlaneStride, l.layerStride, l.blockStride, l.elementBytes].foldl
    (fun h v => h ++ le64 v) h
  let h := h ++ [f.backendFormat.code]
  let h := h ++ le32 f.chunkTokens
  let h ← putU16LenStr h "sharing_namespace" f.sharingNamespace
  .ok (h ++ f.computeConfigDigest.toList)

section Digests
variable (sha : List UInt8 → Digest)

def ComputeConfig.digest (c : ComputeConfig) : Except NamespaceError Digest := c.preimage.map sha

def ComputeConfig.digestWithEngine (c : ComputeConfig) (engine : EngineIdentity) : Except NamespaceError Digest :=
  (c.preimageWithEngine engine).map sha

def EngineConfig.digest (c : EngineConfig) : Except NamespaceError Digest := c.preimage.map sha

def NamespaceFields.namespaceId (f : NamespaceFields) : Except NamespaceError Digest := f.preimage.map sha

end Digests

/-! ## The parts of a preimage -/

theorem framed_le32 : Framed (fun _ => True) le32 := .of_width length_le32 fun _ _ => le32_inj

theorem framed_le64 : Framed (fun _ => True) le64 := by
  refine .of_width (fun v => length_leBytes 8 _) fun a b h => ?_
  have hv := congrArg leValue h
  unfold le64 at hv
  rw [leValue_leBytes _ _ a.toNat_lt, leValue_leBytes _ _ b.toNat_lt] at hv
  exact UInt64.toNat_inj.1 hv

theorem framed_digest : Framed (fun _ => True) fun d : Digest => d.toList :=
  .of_width (n := 32) (fun d => by simp) fun _ _ => Vector.toList_inj.1

theorem framed_code {α : Type} {code : α → UInt8} (h : ∀ a b, code a = code b → a = b) :
    Framed (fun _ => True) fun a => [code a] :=
  .of_width (fun _ => rfl) fun a b he => h a b (List.singleton_inj.1 he)

theorem framed_bool : Framed (fun _ => True) fun b : Bool => [b.toUInt8] := framed_code (by decide)

theorem framed_dtype : Framed (fun _ => True) fun d : KvDtype => [d.code] :=
  framed_code fun a b h => by cases a <;> cases b <;> first | rfl | exact absurd h (by decide)

theorem framed_backendFormat : Framed (fun _ => True) fun b : BackendFormat => [b.code] :=
  framed_code fun a b h => by cases a <;> cases b <;> first | rfl | exact absurd h (by decide)

theorem framed_hiddenAct : Framed (fun _ => True) fun a : HiddenAct => [a.code] := framed_code fun .silu .silu _ => rfl

theorem framed_weightFormat : Framed (fun _ => True) fun w : WeightFormat => [w.code] :=
  framed_code fun a b h => by cases a <;> cases b <;> first | rfl | exact absurd h (by decide)

def str8 (s : String) : List UInt8 := [.ofNat (utf8 s).length] ++ utf8 s

def str16 (s : String) : List UInt8 := le16 (.ofNat (utf8 s).length) ++ utf8 s

theorem framed_str8 : Framed (fun s => (utf8 s).length < 2 ^ 8) str8 := by
  have hlen : Framed (fun n => n < 2 ^ 8) fun n => [UInt8.ofNat n] := by
    intro a b u v ha hb h
    obtain ⟨hab, huv⟩ := List.cons.inj h
    have := congrArg UInt8.toNat hab
    rw [UInt8.toNat_ofNat', UInt8.toNat_ofNat', Nat.mod_eq_of_lt ha, Nat.mod_eq_of_lt hb] at this
    exact ⟨this, huv⟩
  exact hlen.counted fun _ _ => utf8_inj.1

theorem framed_str16 : Framed (fun s => (utf8 s).length < 2 ^ 16) str16 := by
  have hlen : Framed (fun n => n < 2 ^ 16) fun n => le16 (.ofNat n) := by
    intro a b u v ha hb h
    obtain ⟨hab, huv⟩ := List.append_inj h ((length_leBytes 2 _).trans (length_leBytes 2 _).symm)
    have hv : leValue (leBytes 2 (UInt16.ofNat a).toNat) = leValue (leBytes 2 (UInt16.ofNat b).toNat) :=
      congrArg leValue hab
    rw [UInt16.toNat_ofNat', UInt16.toNat_ofNat', Nat.mod_eq_of_lt ha, Nat.mod_eq_of_lt hb, leValue_leBytes _ _ ha,
      leValue_leBytes _ _ hb] at hv
    exact ⟨hv, huv⟩
  exact hlen.counted fun _ _ => utf8_inj.1

def ropeBytes : Option RopeScaling → List UInt8
  | none => [0]
  | some r => [1] ++ (le64 r.factor ++ (le64 r.lowFreqFactor ++ (le64 r.highFreqFactor ++
      le64 r.originalMaxPositionEmbeddings)))

theorem framed_rope : Framed (fun _ => True) ropeBytes := by
  intro a b u v _ _ h
  cases a with
  | none =>
    cases b with
    | none => exact ⟨rfl, (List.cons.inj h).2⟩
    | some r => exact absurd (List.cons.inj h).1 (by decide)
  | some r =>
    cases b with
    | none => exact absurd (List.cons.inj h).1 (by decide)
    | some r' =>
      simp only [ropeBytes, List.cons_append, List.nil_append, List.append_assoc, List.cons.injEq, true_and] at h
      obtain ⟨h1, h⟩ := framed_le64 trivial trivial h
      obtain ⟨h2, h⟩ := framed_le64 trivial trivial h
      obtain ⟨h3, h⟩ := framed_le64 trivial trivial h
      obtain ⟨h4, hend⟩ := framed_le64 trivial trivial h
      cases r
      cases r'
      exact ⟨by congr, hend⟩

/-! ## Preimages as concatenations -/

def ComputeConfig.bytes (c : ComputeConfig) : List UInt8 :=
  le32 c.numHeads ++ (le64 c.hiddenDim ++ (le64 c.intermediateDim ++ (le64 c.vocabSize ++ (le32 c.rmsNormEps ++
    ([c.tieWordEmbeddings.toUInt8] ++ ([c.hiddenAct.code] ++ (str8 c.arithId ++ le32 c.arithEpoch)))))))

def EngineIdentity.bytes (e : EngineIdentity) : List UInt8 :=
  [e.weightFormat.code] ++ (str8 e.engineBuildId ++ (str8 e.roundingClass ++ e.engineConfigDigest.toList))

def EngineConfig.bytes (c : EngineConfig) : List UInt8 :=
  le32 c.numExperts ++ (le32 c.expertsPerToken ++ (le64 c.expertIntermediateDim ++ ([c.wholePromptPrefill.toUInt8] ++
    ([c.deviceRouter.toUInt8] ++ str8 c.matmulPath))))

def LayoutStrides.bytes (l : LayoutStrides) : List UInt8 :=
  le64 l.headStride ++ (le64 l.tokenStride ++ (le64 l.kvPlaneStride ++ (le64 l.layerStride ++ (le64 l.blockStride ++
    le64 l.elementBytes))))

def NamespaceFields.bytes (f : NamespaceFields) : List UInt8 :=
  f.modelSha256.toList ++ (str8 f.modelDigestKind ++ (str16 f.modelId ++ (le32 f.numLayers ++ (le32 f.numKvHeads ++
    (le32 f.headDim ++ (le32 f.blockSize ++ (le32 f.ropeTheta ++ (ropeBytes f.ropeScaling ++ ([f.qkNorm.toUInt8] ++
    ([f.dtype.code] ++ (f.layout.bytes ++ ([f.backendFormat.code] ++ (le32 f.chunkTokens ++ (str16 f.sharingNamespace ++
    f.computeConfigDigest.toList))))))))))))))

variable {h h' : Hasher} {name s : String}

theorem putU8LenStr_ok : putU8LenStr h name s = .ok h' ↔ (utf8 s).length < 2 ^ 8 ∧ h ++ str8 s = h' := by
  rw [putU8LenStr, Result.guard_ok, not_le, str8, List.append_assoc, Except.ok.injEq]

theorem putRequiredU8LenStr_ok (hp : putRequiredU8LenStr h name s = .ok h') :
    (utf8 s).length < 2 ^ 8 ∧ h ++ str8 s = h' := by
  rw [putRequiredU8LenStr, Result.guard_ok] at hp
  exact putU8LenStr_ok.1 hp.2

theorem putU16LenStr_ok : putU16LenStr h name s = .ok h' ↔ (utf8 s).length < 2 ^ 16 ∧ h ++ str16 s = h' := by
  rw [putU16LenStr, Result.guard_ok, not_le, str16, List.append_assoc, Except.ok.injEq]

theorem putFields_ok {c : ComputeConfig} (hp : c.putFields h = .ok h') :
    (utf8 c.arithId).length < 2 ^ 8 ∧ h' = h ++ c.bytes := by
  simp only [ComputeConfig.putFields, Result.guard_ok, Result.bind_ok, putU8LenStr_ok] at hp
  obtain ⟨-, h₁, ⟨hlen, rfl⟩, hp⟩ := hp
  refine ⟨hlen, ?_⟩
  rw [← Except.ok.inj hp]
  simp only [ComputeConfig.bytes, List.append_assoc]

theorem preimageWithEngine_ok {c : ComputeConfig} {e : EngineIdentity} (hp : c.preimageWithEngine e = .ok h) :
    ((utf8 c.arithId).length < 2 ^ 8 ∧ (utf8 e.engineBuildId).length < 2 ^ 8 ∧ (utf8 e.roundingClass).length < 2 ^ 8) ∧
    h = cfgEngineDomain ++ (c.bytes ++ e.bytes) := by
  simp only [ComputeConfig.preimageWithEngine, Result.bind_ok] at hp
  obtain ⟨h₁, hfields, h₂, hbuild, h₃, hround, hp⟩ := hp
  obtain ⟨harith, rfl⟩ := putFields_ok hfields
  obtain ⟨hlen, rfl⟩ := putRequiredU8LenStr_ok hbuild
  obtain ⟨hlen', rfl⟩ := putRequiredU8LenStr_ok hround
  refine ⟨⟨harith, hlen, hlen'⟩, ?_⟩
  rw [← Except.ok.inj hp]
  simp only [EngineIdentity.bytes, List.append_assoc]

theorem engine_preimage_ok {c : EngineConfig} (hp : c.preimage = .ok h) :
    (utf8 c.matmulPath).length < 2 ^ 8 ∧ h = engDomain ++ c.bytes := by
  obtain ⟨hlen, rfl⟩ := putRequiredU8LenStr_ok hp
  refine ⟨hlen, ?_⟩
  simp only [EngineConfig.bytes, List.append_assoc]

theorem namespace_preimage_ok {f : NamespaceFields} (hp : f.preimage = .ok h) :
    ((utf8 f.modelDigestKind).length < 2 ^ 8 ∧ (utf8 f.modelId).length < 2 ^ 16 ∧
      (utf8 f.sharingNamespace).length < 2 ^ 16) ∧
    h = nsDomain ++ (le16 recordFormatVersion ++ f.bytes) := by
  simp only [NamespaceFields.preimage, Result.bind_ok, Result.guard_ok, putU8LenStr_ok, putU16LenStr_ok] at hp
  obtain ⟨-, -, -, h₁, ⟨hkind, rfl⟩, h₂, ⟨hid, rfl⟩, h₃, ⟨hshare, rfl⟩, hp⟩ := hp
  refine ⟨⟨hkind, hid, hshare⟩, ?_⟩
  rw [← Except.ok.inj hp]
  have hrope : ∀ (h : Hasher) (r : Option RopeScaling), RopeScaling.put h r = h ++ ropeBytes r := by
    intro h r
    cases r <;> simp [RopeScaling.put, ropeBytes]
  simp only [NamespaceFields.bytes, LayoutStrides.bytes, hrope, List.foldl_cons, List.foldl_nil, List.append_assoc]

/-! ## Every field can be read off -/

theorem framed_compute : Framed (fun c => (utf8 c.arithId).length < 2 ^ 8) ComputeConfig.bytes := by
  intro a b u v ha hb h
  simp only [ComputeConfig.bytes, List.append_assoc] at h
  obtain ⟨h1, h⟩ := framed_le32 trivial trivial h
  obtain ⟨h2, h⟩ := framed_le64 trivial trivial h
  obtain ⟨h3, h⟩ := framed_le64 trivial trivial h
  obtain ⟨h4, h⟩ := framed_le64 trivial trivial h
  obtain ⟨h5, h⟩ := framed_le32 trivial trivial h
  obtain ⟨h6, h⟩ := framed_bool trivial trivial h
  obtain ⟨h7, h⟩ := framed_hiddenAct trivial trivial h
  obtain ⟨h8, h⟩ := framed_str8 ha hb h
  obtain ⟨h9, hend⟩ := framed_le32 trivial trivial h
  cases a
  cases b
  exact ⟨by congr, hend⟩

theorem framed_engineIdentity :
    Framed (fun e => (utf8 e.engineBuildId).length < 2 ^ 8 ∧ (utf8 e.roundingClass).length < 2 ^ 8) EngineIdentity.bytes := by
  intro a b u v ha hb h
  simp only [EngineIdentity.bytes, List.append_assoc] at h
  obtain ⟨h1, h⟩ := framed_weightFormat trivial trivial h
  obtain ⟨h2, h⟩ := framed_str8 ha.1 hb.1 h
  obtain ⟨h3, h⟩ := framed_str8 ha.2 hb.2 h
  obtain ⟨h4, hend⟩ := framed_digest trivial trivial h
  cases a
  cases b
  exact ⟨by congr, hend⟩

theorem framed_engineConfig : Framed (fun c => (utf8 c.matmulPath).length < 2 ^ 8) EngineConfig.bytes := by
  intro a b u v ha hb h
  simp only [EngineConfig.bytes, List.append_assoc] at h
  obtain ⟨h1, h⟩ := framed_le32 trivial trivial h
  obtain ⟨h2, h⟩ := framed_le32 trivial trivial h
  obtain ⟨h3, h⟩ := framed_le64 trivial trivial h
  obtain ⟨h4, h⟩ := framed_bool trivial trivial h
  obtain ⟨h5, h⟩ := framed_bool trivial trivial h
  obtain ⟨h6, hend⟩ := framed_str8 ha hb h
  cases a
  cases b
  exact ⟨by congr, hend⟩

theorem framed_layout : Framed (fun _ => True) LayoutStrides.bytes := by
  intro a b u v _ _ h
  simp only [LayoutStrides.bytes, List.append_assoc] at h
  obtain ⟨h1, h⟩ := framed_le64 trivial trivial h
  obtain ⟨h2, h⟩ := framed_le64 trivial trivial h
  obtain ⟨h3, h⟩ := framed_le64 trivial trivial h
  obtain ⟨h4, h⟩ := framed_le64 trivial trivial h
  obtain ⟨h5, h⟩ := framed_le64 trivial trivial h
  obtain ⟨h6, hend⟩ := framed_le64 trivial trivial h
  cases a
  cases b
  exact ⟨by congr, hend⟩

theorem framed_namespace :
    Framed (fun f => (utf8 f.modelDigestKind).length < 2 ^ 8 ∧ (utf8 f.modelId).length < 2 ^ 16 ∧
      (utf8 f.sharingNamespace).length < 2 ^ 16) NamespaceFields.bytes := by
  intro a b u v ha hb h
  simp only [NamespaceFields.bytes, List.append_assoc] at h
  obtain ⟨h1, h⟩ := framed_digest trivial trivial h
  obtain ⟨h2, h⟩ := framed_str8 ha.1 hb.1 h
  obtain ⟨h3, h⟩ := framed_str16 ha.2.1 hb.2.1 h
  obtain ⟨h4, h⟩ := framed_le32 trivial trivial h
  obtain ⟨h5, h⟩ := framed_le32 trivial trivial h
  obtain ⟨h6, h⟩ := framed_le32 trivial trivial h
  obtain ⟨h7, h⟩ := framed_le32 trivial trivial h
  obtain ⟨h8, h⟩ := framed_le32 trivial trivial h
  obtain ⟨h9, h⟩ := framed_rope trivial trivial h
  obtain ⟨h10, h⟩ := framed_bool trivial trivial h
  obtain ⟨h11, h⟩ := framed_dtype trivial trivial h
  obtain ⟨h12, h⟩ := framed_layout trivial trivial h
  obtain ⟨h13, h⟩ := framed_backendFormat trivial trivial h
  obtain ⟨h14, h⟩ := framed_le32 trivial trivial h
  obtain ⟨h15, h⟩ := framed_str16 ha.2.2 hb.2.2 h
  obtain ⟨h16, hend⟩ := framed_digest trivial trivial h
  cases a
  cases b
  exact ⟨by congr, hend⟩

/-! ## Identities -/

/-- What a digest is taken of: the three kinds, the configuration in its two versions. -/
inductive Identity
  | namespaceId (f : NamespaceFields)
  | config (c : ComputeConfig)
  | configWithEngine (c : ComputeConfig) (e : EngineIdentity)
  | engine (c : EngineConfig)

namespace Identity

def preimage : Identity → Except NamespaceError Hasher
  | namespaceId f => f.preimage
  | config c => c.preimage
  | configWithEngine c e => c.preimageWithEngine e
  | engine c => c.preimage

def digest (sha : List UInt8 → Digest) : Identity → Except NamespaceError Digest
  | namespaceId f => f.namespaceId sha
  | config c => c.digest sha
  | configWithEngine c e => c.digestWithEngine sha e
  | engine c => c.digest sha

theorem digest_eq (sha : List UInt8 → Digest) (x : Identity) : x.digest sha = x.preimage.map sha := by
  cases x <;> rfl

def domain : Identity → List UInt8
  | namespaceId _ => nsDomain
  | config _ => cfgDomain
  | configWithEngine _ _ => cfgEngineDomain
  | engine _ => engDomain

/-- A preimage begins with its domain; the first fifteen bytes tell the domains apart. -/
theorem take_preimage {x : Identity} (hx : x.preimage = .ok h) : h.take 15 = x.domain.take 15 := by
  cases x with
  | namespaceId f =>
    rw [(namespace_preimage_ok hx).2]
    rfl
  | config c =>
    rw [(putFields_ok hx).2]
    rfl
  | configWithEngine c e =>
    rw [(preimageWithEngine_ok hx).2]
    rfl
  | engine c =>
    rw [(engine_preimage_ok hx).2]
    rfl

theorem preimage_inj {x y : Identity} (hx : x.preimage = .ok h) (hy : y.preimage = .ok h) : x = y := by
  have hdomain : x.domain.take 15 = y.domain.take 15 := (take_preimage hx).symm.trans (take_preimage hy)
  cases x with
  | namespaceId f =>
    cases y with
    | namespaceId f' =>
      obtain ⟨hf, rfl⟩ := namespace_preimage_ok hx
      obtain ⟨hf', he⟩ := namespace_preimage_ok hy
      have he := List.append_cancel_left (List.append_cancel_left he)
      rw [← List.append_nil f.bytes, ← List.append_nil f'.bytes] at he
      rw [(framed_namespace hf hf' he).1]
    | config | configWithEngine | engine => simp [domain, nsDomain, cfgDomain, cfgEngineDomain, engDomain] at hdomain
  | config c =>
    cases y with
    | config c' =>
      obtain ⟨hc, rfl⟩ := putFields_ok hx
      obtain ⟨hc', he⟩ := putFields_ok hy
      have he := List.append_cancel_left he
      rw [← List.append_nil c.bytes, ← List.append_nil c'.bytes] at he
      rw [(framed_compute hc hc' he).1]
    | namespaceId | configWithEngine | engine => simp [domain, nsDomain, cfgDomain, cfgEngineDomain, engDomain] at hdomain
  | configWithEngine c e =>
    cases y with
    | configWithEngine c' e' =>
      obtain ⟨hc, rfl⟩ := preimageWithEngine_ok hx
      obtain ⟨hc', he⟩ := preimageWithEngine_ok hy
      obtain ⟨rfl, hrest⟩ := framed_compute hc.1 hc'.1 (List.append_cancel_left he)
      rw [← List.append_nil e.bytes, ← List.append_nil e'.bytes] at hrest
      rw [(framed_engineIdentity hc.2 hc'.2 hrest).1]
    | namespaceId | config | engine => simp [domain, nsDomain, cfgDomain, cfgEngineDomain, engDomain] at hdomain
  | engine c =>
    cases y with
    | engine c' =>
      obtain ⟨hc, rfl⟩ := engine_preimage_ok hx
      obtain ⟨hc', he⟩ := engine_preimage_ok hy
      have he := List.append_cancel_left he
      rw [← List.append_nil c.bytes, ← List.append_nil c'.bytes] at he
      rw [(framed_engineConfig hc hc' he).1]
    | namespaceId | config | configWithEngine => simp [domain, nsDomain, cfgDomain, cfgEngineDomain, engDomain] at hdomain

def hashed (x y : Identity) : Set (List UInt8) := { p | x.preimage = .ok p ∨ y.preimage = .ok p }

/-- Where the hash has no collision among the bytes that two digests are taken of, equal digests are of one kind, one
version and equal fields. -/
theorem identity_injective (sha : List UInt8 → Digest) (x y : Identity) (d : Digest) (hx : x.digest sha = .ok d)
    (hy : y.digest sha = .ok d) (hinj : Set.InjOn sha (hashed x y)) : x = y := by
  rw [digest_eq] at hx hy
  cases hp : x.preimage with
  | error e => rw [hp] at hx; cases hx
  | ok p =>
    cases hq : y.preimage with
    | error e => rw [hq] at hy; cases hy
    | ok q =>
      rw [hp] at hx
      rw [hq] at hy
      have hsha : sha p = sha q := (Except.ok.inj hx).trans (Except.ok.inj hy).symm
      obtain rfl := hinj (Or.inl hp) (Or.inr hq) hsha
      exact preimage_inj hp hq

/-- A dense model on the `gemm` path, and SHA-256's value of its preimage. -/
def denseConfig : EngineConfig := ⟨0, 0, 0, false, false, "gemm"⟩

def denseDigest : Digest :=
  #v[218, 122, 74, 177, 200, 244, 222, 197, 206, 64, 132, 9, 69, 69, 78, 27, 238, 175, 184, 110, 240, 62,
    147, 210, 57, 156, 121, 49, 89, 92, 37, 43]

def denseSha (p : List UInt8) : Digest := if p = engDomain ++ denseConfig.bytes then denseDigest else .replicate 32 0

theorem identity_injective_dense :
    (engine denseConfig).digest denseSha = .ok denseDigest ∧ engine denseConfig = engine denseConfig := by
  have hdigest : (engine denseConfig).digest denseSha = .ok denseDigest := by decide +kernel
  refine ⟨hdigest, identity_injective denseSha _ _ denseDigest hdigest hdigest fun p hp q hq _ => ?_⟩
  have hp' : (engine denseConfig).preimage = .ok p := hp.elim id id
  have hq' : (engine denseConfig).preimage = .ok q := hq.elim id id
  exact Except.ok.inj (hp'.symm.trans hq')

end Identity

end SovereignCore.Store
