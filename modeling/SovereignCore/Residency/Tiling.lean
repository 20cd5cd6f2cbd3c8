import SovereignCore.HostFs.Inner
import SovereignCore.Kv.Runs
import SovereignCore.Residency.Park

/-!
# What parking a sequence leaves

The chunks of a finished sequence tile its computed prefix: full chunks from position 0 on, then at most one partial
tail. The store has some of them; the others get a holder each, and their headers pass the checks of the storage worker
and of the host store. A refusal on the way gives every holder and every generation back.

* `tile`, `Tiles`, `tiles_chunks` : the positions of a chunk, and what it is to cover a prefix;
* `Pooled`, `pooled_of_ok` : the sizes of a chunk in pool blocks;
* `ParkIntent.Passes` : the worker's and the host store's checks of an intent, `Shows.passes` : they hold;
* `Parked` : the holders made so far are all that is new; `parkChunks_ends`, `onFinish_ends` : the hook.
-/

namespace SovereignCore.Residency

open Std Store Kv AienKvManager Prog

/-! ## Tiles -/

/-- Chunk `i` of a prefix: its first position, and how many it has. -/
def tile (per len i : Nat) : Nat × Nat := (i * per, min (len - i * per) per)

/-- The ranges follow one another without gap or overlap, from position `a` to position `b`. -/
def Tiles : Nat → List (Nat × Nat) → Nat → Prop
  | a, [], b => a = b
  | a, (first, n) :: l, b => first = a ∧ 0 < n ∧ Tiles (a + n) l b

variable {per len : Nat}

theorem le_blocksFor_mul (hper : 0 < per) (len : Nat) :
    len ≤ blocksFor len per * per ∧ blocksFor len per * per < len + per := by
  have hdiv := Nat.div_add_mod (len + per - 1) per
  have hmod := Nat.mod_lt (len + per - 1) hper
  unfold blocksFor
  rw [Nat.mul_comm] at hdiv
  omega

/-- A chunk before the last starts within the prefix, and all but the last are full. -/
theorem chunk_starts (hper : 0 < per) {len i : Nat} (hi : i < blocksFor len per) :
    i * per < len ∧ (i + 1 < blocksFor len per → i * per + per ≤ len) := by
  have hle := le_blocksFor_mul hper len
  have hmul : (i + 1) * per ≤ blocksFor len per * per := Nat.mul_le_mul_right per hi
  rw [Nat.succ_mul] at hmul
  refine ⟨by omega, fun hnext => ?_⟩
  have hmul' : (i + 1 + 1) * per ≤ blocksFor len per * per := Nat.mul_le_mul_right per hnext
  rw [Nat.succ_mul, Nat.succ_mul] at hmul'
  omega

theorem tiles_from (hper : 0 < per) (len : Nat) : ∀ k i, i + k = blocksFor len per →
    Tiles (min (i * per) len) ((List.range' i k).map (tile per len)) len
  | 0, i, hk => by
    have hle := le_blocksFor_mul hper len
    rw [← hk, Nat.add_zero] at hle
    exact Nat.min_eq_right hle.1
  | k + 1, i, hk => by
    have hi : i < blocksFor len per := by omega
    have hstart := (chunk_starts hper hi).1
    rw [List.range'_succ, List.map_cons]
    refine ⟨by omega, by omega, ?_⟩
    have hnext : min (i * per) len + min (len - i * per) per = min ((i + 1) * per) len := by
      rw [Nat.succ_mul]
      omega
    rw [hnext]
    exact tiles_from hper len k (i + 1) (by omega)

theorem tiles_chunks (hper : 0 < per) : Tiles 0 ((List.range (blocksFor len per)).map (tile per len)) len := by
  have h := tiles_from hper len (blocksFor len per) 0 (Nat.zero_add _)
  rw [Nat.zero_mul, Nat.zero_min] at h
  rw [List.range_eq_range']
  exact h

/-! ## Sizes -/

/-- A chunk of `count` positions in pool blocks. -/
structure Pooled (f : NamespaceFields) (count n : Nat) : Prop where
  nonempty : 0 < count
  fits : count ≤ f.chunkTokens.toNat
  block : 0 < f.blockSize.toNat
  stride : 0 < f.layout.blockStride.toNat
  segments : blocksFor count f.blockSize.toNat ≤ 119
  payload : n = blocksFor count f.blockSize.toNat * f.layout.blockStride.toNat
  small : n < 2 ^ 64

theorem pooled_of_ok {f : NamespaceFields} {count : UInt32} {n : Nat} (hf : f.backendFormat = .hostPagedPoolV1)
    (h : expectedPayloadLen f count = .ok n) : Pooled f count.toNat n := by
  unfold expectedPayloadLen at h
  obtain ⟨hgeometry, h⟩ := Result.check_ok.1 h
  rw [Result.guard_ok] at h
  obtain ⟨hcount, h⟩ := h
  rw [hf] at h
  rw [Result.mapError_ok] at hgeometry
  unfold NamespaceFields.checkGeometry at hgeometry
  rw [Result.guard_ok, hf] at hgeometry
  obtain ⟨hzero, hgeometry⟩ := hgeometry
  simp only [decide_eq_true_eq] at hgeometry
  rw [Result.guard_ok, Result.guard_ok] at hgeometry
  obtain ⟨hstride, hsegments, -⟩ := hgeometry
  simp only [not_or, not_not, not_and, true_implies] at hzero hcount hsegments
  have hblock : 0 < f.blockSize.toNat := Nat.pos_of_ne_zero fun h0 => hzero.1 (UInt32.toNat_inj.1 h0)
  have hle : count.toNat ≤ f.chunkTokens.toNat := Nat.le_of_not_lt hcount.2
  have hmul : f.chunkTokens.toNat / f.blockSize.toNat * f.blockSize.toNat = f.chunkTokens.toNat :=
    Nat.div_mul_cancel (Nat.dvd_of_mod_eq_zero hzero.2.2.2.2.2)
  unfold checked at h
  rw [Result.allow_ok] at h
  obtain ⟨hsmall, h⟩ := h
  cases h
  refine ⟨Nat.pos_of_ne_zero fun h0 => hcount.1 (UInt32.toNat_inj.1 h0), hle, hblock,
    Nat.pos_of_ne_zero fun h0 => hstride (UInt64.toNat_inj.1 h0), ?_, rfl, hsmall⟩
  have hceil : blocksFor count.toNat f.blockSize.toNat ≤ f.chunkTokens.toNat / f.blockSize.toNat := by
    have hlt := (le_blocksFor_mul hblock count.toNat).2
    refine Nat.le_of_lt_succ (Nat.lt_of_mul_lt_mul_right (a := f.blockSize.toNat) ?_)
    rw [Nat.succ_mul, hmul]
    omega
  have : maxChunkSegments = 119 := rfl
  omega

/-! ## The checks of an intent -/

/-- What the constructors of the identity and of the residency check. -/
structure Shared.Wired (sha : List UInt8 → Digest) (sh : Shared) (kv : AienKvManager) : Prop where
  identity : sh.fields.namespaceId sha = .ok sh.namespaceId
  blockSize : sh.fields.blockSize.toNat = sh.blockSize
  chunkTokens : sh.fields.chunkTokens.toNat = sh.chunkTokens
  pool : ∀ p, kv.tensorPool = some p → p.layout.blockStrideBytes = sh.fields.layout.blockStride.toNat

/-- The host store is configured as the identity says. -/
structure Shared.Agrees (sh : Shared) (c : HostFs.HostFsConfig) : Prop where
  namespaceId : c.namespaceId = ofDigest sh.namespaceId
  modelSha256 : c.modelSha256 = ofDigest sh.fields.modelSha256
  chunkTokens : c.chunkTokens = sh.fields.chunkTokens
  blockSize : c.blockSize = sh.fields.blockSize
  numLayers : c.numLayers = sh.fields.numLayers
  numKvHeads : c.numKvHeads = sh.fields.numKvHeads
  headDim : c.headDim = sh.fields.headDim
  dtype : c.dtype = sh.fields.dtype.code
  backendFormat : c.backendFormat = sh.fields.backendFormat.code
  blockStride : c.layout.blockStride = sh.fields.layout.blockStride

def workerHeader (h : HostFs.ChunkHeader) : Store.ChunkHeader where
  chunkKey := h.chunkKey
  namespaceId := h.namespaceId
  payloadLen := h.payloadLen.toNat
  blockSize := h.blockSize.toNat
  tokenCount := h.tokenCount.toNat

/-- The source that the spine makes of an intent's blocks. -/
def ParkIntent.source (it : ParkIntent) (blockBytes : UInt64) (guard : HolderGuard) : Store.PinnedSource where
  totalBytes := HostFs.totalBytes it.blocks.length blockBytes
  blockCount := it.blocks.length
  tailValidTokens := it.tailValid
  guard := guard

/-- The worker and the host store accept the header and the holder's blocks. -/
structure ParkIntent.Passes (it : ParkIntent) (c : HostFs.HostFsConfig) (blockBytes : UInt64) : Prop where
  worker : ∀ guard, validateStoreHeader c.namespaceId (workerHeader it.header) (it.source blockBytes guard) = .ok ()
  host : c.checkHeader it.header = .ok ()
  hostSource : ∀ (g : HostFs.Inner) (src : HostFs.PinnedSource), g.cfg = c → src.blockBytes = blockBytes →
    src.blocks.length = it.blocks.length → src.tailValidTokens.toNat = it.tailValid → g.checkSource it.header src = .ok ()

/-- The intent is of chunk `i` of a prefix. -/
structure ParkIntent.Shows (sh : Shared) (len i : Nat) (it : ParkIntent) : Prop where
  header : ∃ key parent written, chunkHeader sh.fields sh.namespaceId key parent (.ofNat (i * sh.chunkTokens))
    (.ofNat (tile sh.chunkTokens len i).2) written = .ok it.header
  blocks : it.blocks.length = blocksFor (tile sh.chunkTokens len i).2 sh.blockSize
  tailValid : it.tailValid = (tile sh.chunkTokens len i).2 - (it.blocks.length - 1) * sh.blockSize

theorem chunkHeader_ok {f : NamespaceFields} {ns key : Digest} {parent : Option Digest} {first count : UInt32}
    {written : UInt64} {h : HostFs.ChunkHeader} (hh : chunkHeader f ns key parent first count written = .ok h) :
    ∃ n, expectedPayloadLen f count = .ok n ∧ first.toNat % f.chunkTokens.toNat = 0 ∧ h =
      { namespaceId := ofDigest ns
        chunkKey := ofDigest key
        parentKey := ofDigest (parent.getD (.replicate 32 0))
        modelSha256 := ofDigest f.modelSha256
        firstPosition := first
        tokenCount := count
        chunkTokens := f.chunkTokens
        blockSize := f.blockSize
        numLayers := f.numLayers
        numKvHeads := f.numKvHeads
        headDim := f.headDim
        dtype := f.dtype.code
        backendFormat := f.backendFormat.code
        flags := if count < f.chunkTokens then HostFs.flagPartialTail else 0
        payloadLen := .ofNat n
        writtenUnixNs := written } := by
  unfold chunkHeader at hh
  obtain ⟨n, hn, hh⟩ := Result.bind_ok.1 hh
  rw [Result.guard_ok, not_not] at hh
  obtain ⟨hpos, hh⟩ := hh
  cases hh
  exact ⟨n, hn, hpos, rfl⟩

section Passes

variable {sha : List UInt8 → Digest} {sh : Shared} {kv : AienKvManager} {c : HostFs.HostFsConfig} {i : Nat}
  {it : ParkIntent}

/-- The last of the blocks of `count` positions holds what the others leave. -/
theorem tail_of_blocks {count size : Nat} (hsize : 0 < size) (hcount : 0 < count) :
    0 < blocksFor count size ∧ (blocksFor count size - 1) * size ≤ count ∧
      1 ≤ count - (blocksFor count size - 1) * size ∧ count - (blocksFor count size - 1) * size ≤ size := by
  have hle := le_blocksFor_mul hsize count
  have hpos : 0 < blocksFor count size := by
    refine Nat.pos_of_ne_zero fun h0 => ?_
    rw [h0, Nat.zero_mul] at hle
    omega
  have hsub : (blocksFor count size - 1) * size + size = blocksFor count size * size := by
    rw [← Nat.succ_mul, Nat.succ_eq_add_one, Nat.sub_add_cancel hpos]
  omega

theorem ParkIntent.Shows.position (h : it.Shows sh len i) (hw : sh.Wired sha kv)
    (hfirst : i * sh.chunkTokens < 2 ^ 32) :
    (it.header.firstPosition.toNat, it.header.tokenCount.toNat) = tile sh.chunkTokens len i := by
  obtain ⟨key, parent, written, hh⟩ := h.header
  obtain ⟨n, -, -, he⟩ := chunkHeader_ok hh
  have hlt := sh.fields.chunkTokens.toNat_lt
  have hsmall : (tile sh.chunkTokens len i).2 < 2 ^ 32 := by
    refine Nat.lt_of_le_of_lt (Nat.min_le_right _ _) ?_
    rw [← hw.chunkTokens]
    exact hlt
  rw [he]
  refine Prod.ext ?_ ?_
  · exact UInt32.toNat_ofNat_of_lt' hfirst
  · exact UInt32.toNat_ofNat_of_lt' hsmall

theorem ParkIntent.Shows.passes (h : it.Shows sh len i) (hw : sh.Wired sha kv) (hc : sh.Agrees c)
    (hf : sh.fields.backendFormat = .hostPagedPoolV1) : it.Passes c sh.fields.layout.blockStride := by
  obtain ⟨key, parent, written, hh⟩ := h.header
  obtain ⟨n, hn, hpos, he⟩ := chunkHeader_ok hh
  have hlt := sh.fields.chunkTokens.toNat_lt
  have hsmall : (tile sh.chunkTokens len i).2 < 2 ^ 32 := by
    refine Nat.lt_of_le_of_lt (Nat.min_le_right _ _) ?_
    rw [← hw.chunkTokens]
    exact hlt
  have hcount : (UInt32.ofNat (tile sh.chunkTokens len i).2).toNat = (tile sh.chunkTokens len i).2 :=
    UInt32.toNat_ofNat_of_lt' hsmall
  have hp := pooled_of_ok hf hn
  generalize UInt32.ofNat (tile sh.chunkTokens len i).2 = count at hcount hp he
  generalize UInt32.ofNat (i * sh.chunkTokens) = first at hpos he
  have hblocks : it.blocks.length = blocksFor count.toNat sh.fields.blockSize.toNat := by
    rw [h.blocks, hcount, hw.blockSize]
  have htail : it.tailValid = count.toNat - (it.blocks.length - 1) * sh.fields.blockSize.toNat := by
    rw [h.tailValid, hcount, hw.blockSize]
  have hpayload : (UInt64.ofNat n).toNat = n := UInt64.toNat_ofNat_of_lt' hp.small
  have htotal : HostFs.totalBytes it.blocks.length sh.fields.layout.blockStride = some n := by
    unfold HostFs.totalBytes
    rw [hblocks, ← hp.payload, if_pos hp.small]
  obtain ⟨hsome, hfull, hone, hrest⟩ := tail_of_blocks hp.block hp.nonempty
  have hnz : n ≠ 0 := by
    rw [hp.payload]
    exact (Nat.mul_pos hsome hp.stride).ne'
  have hsegments := hp.segments
  rw [← hblocks] at hsome hfull hone hrest hsegments
  refine ⟨fun guard => ?_, ?_, fun g src hg hbytes hlen htv => ?_⟩
  · unfold validateStoreHeader workerHeader ParkIntent.source
    rw [he]
    dsimp only
    rw [hpayload, htotal, htail, if_neg, if_pos]
    · exact ⟨hfull, hone, hrest, rfl⟩
    · have hns : ofDigest sh.namespaceId = c.namespaceId := hc.namespaceId.symm
      have hmax : maxSegments = 119 := rfl
      have hblock := hp.block
      simp only [hns, ne_eq, not_true_eq_false, hnz, false_or]
      omega
  · have hgeo : c.geometryDiffers it.header = false := by
      have hle : ¬ sh.fields.chunkTokens < count := Nat.not_lt.2 hp.fits
      have hzero : count ≠ 0 := by
        rintro rfl
        exact Nat.lt_irrefl 0 hp.nonempty
      rw [he]
      unfold HostFs.HostFsConfig.geometryDiffers
      rw [hc.modelSha256, hc.chunkTokens, hc.blockSize, hc.numLayers, hc.numKvHeads, hc.headDim, hc.dtype,
        hc.backendFormat]
      simp [hpos, hzero, hle]
    have hns : it.header.namespaceId = c.namespaceId := by
      rw [he]
      exact hc.namespaceId.symm
    have hlen : it.header.payloadLen ≠ 0 := by
      rw [he]
      intro h0
      have h0 : (UInt64.ofNat n).toNat = 0 := congrArg UInt64.toNat h0
      exact hnz (hpayload.symm.trans h0)
    have hflags : it.header.flags = c.wantFlags it.header.tokenCount := by
      rw [he]
      unfold HostFs.HostFsConfig.wantFlags
      rw [hc.chunkTokens]
    have hblocksOf : c.blocksOf it.header.tokenCount = it.blocks.length := by
      rw [he, hblocks]
      unfold HostFs.HostFsConfig.blocksOf blocksFor
      rw [hc.blockSize]
    have hpayloadOf : it.header.payloadLen.toNat = c.payloadOf it.blocks.length := by
      unfold HostFs.HostFsConfig.payloadOf
      rw [he, hc.blockStride, hblocks, ← hp.payload]
      have := hp.small
      show (UInt64.ofNat n).toNat = _
      omega
    unfold HostFs.HostFsConfig.checkHeader
    have hmax : HostFs.maxSegments = 119 := rfl
    rw [if_neg, if_neg, if_neg]
    · rw [hblocksOf, ← hpayloadOf]
      omega
    · rw [← hflags]
      exact fun h => h rfl
    · simp [hns, hgeo, hlen]
  · unfold HostFs.Inner.checkSource
    have hmax : HostFs.maxSegments = 119 := rfl
    rw [hg, hc.blockStride, hbytes, hlen, htotal, he]
    dsimp only
    rw [hpayload, htv, htail, if_neg, if_pos]
    · exact ⟨hfull, hone, hrest, rfl⟩
    · simp only [ne_eq, not_true_eq_false, false_or, or_false]
      omega

end Passes

/-! ## The hook -/

namespace HolderGenerations

variable {g g' : HolderGenerations} {gen : Nat}

theorem allocLoop_some {fuel : Nat} (h : allocLoop fuel g = some (gen, g')) :
    gen ∉ g.live ∧ g'.live = g.live.insert gen := by
  induction fuel generalizing g with
  | zero => cases h
  | succ fuel ih =>
    rw [allocLoop] at h
    dsimp only at h
    split at h
    · -- the live values stay while the counter moves
      have hrest := ih h
      exact hrest
    · rename_i hfree
      obtain ⟨rfl, rfl⟩ := Prod.mk.inj (Option.some.inj h)
      exact ⟨hfree, rfl⟩

theorem alloc_some (h : g.alloc = some (gen, g')) : gen ∉ g.live ∧ ∀ n, n ∈ g'.live ↔ n = gen ∨ n ∈ g.live := by
  unfold alloc at h
  split at h
  · cases h
  · obtain ⟨hfree, hlive⟩ := allocLoop_some h
    refine ⟨hfree, fun n => ?_⟩
    rw [hlive]
    exact Table.mem_setInsert

theorem mem_release {n : Nat} : n ∈ (g.release gen).live ↔ n ≠ gen ∧ n ∈ g.live := by
  unfold release
  rw [ExtTreeSet.mem_erase, ne_eq, LawfulEqCmp.compare_eq_iff_eq, eq_comm (a := gen)]

end HolderGenerations

/-- The holders made so far are all that is new since `s₀`. -/
structure Parked (s₀ : HookState) (made : List ParkIntent) (s : HookState) : Prop where
  accounts : Accounts [] s.kv
  others : ∀ id, id ∉ made.map ParkIntent.holder → s.kv.sequenceTables.lookup id = s₀.kv.sequenceTables.lookup id
  fresh : ∀ it ∈ made, s₀.kv.sequenceTables.lookup it.holder = none
  live : ∀ n, n ∈ s.gens.live ↔ n ∈ s₀.gens.live ∨ n ∈ made.map ParkIntent.generation
  freed : ∀ it ∈ made, it.generation ∉ s₀.gens.live
  distinct : (made.map ParkIntent.generation).Nodup
  outbox : s.outbox = s₀.outbox

namespace Parked

variable {s₀ s s' : HookState} {made : List ParkIntent} {it : ParkIntent}

theorem counted (h : Parked s₀ made s) (c : HookCounts) : Parked s₀ made { s with counts := c } :=
  ⟨h.accounts, h.others, h.fresh, h.live, h.freed, h.distinct, h.outbox⟩

theorem undone (h : Parked s₀ (it :: made) s) : ((do
      ignore (onKv (freeSequence it.holder))
      releaseGeneration it.generation : Hook Unit) s).Ends False (fun _ s' => Parked s₀ made s') (fun _ _ => False) := by
  have hgens : ∀ n, n ∈ (s.gens.release it.generation).live ↔ n ∈ s₀.gens.live ∨ n ∈ made.map ParkIntent.generation := by
    intro n
    obtain ⟨hnot, -⟩ := List.nodup_cons.1 h.distinct
    have hfreed := h.freed it List.mem_cons_self
    rw [HolderGenerations.mem_release, h.live, List.map_cons, List.mem_cons]
    constructor
    · rintro ⟨hne, hn | hn | hn⟩
      · exact Or.inl hn
      · exact absurd hn hne
      · exact Or.inr hn
    · rintro (hn | hn)
      · exact ⟨fun heq => hfreed (heq ▸ hn), Or.inl hn⟩
      · exact ⟨fun heq => hnot (heq ▸ hn), Or.inr (Or.inr hn)⟩
  have hrest : ∀ kv, Accounts [] kv → (∀ id, id ≠ it.holder → kv.sequenceTables.lookup id = s.kv.sequenceTables.lookup id) →
      kv.sequenceTables.lookup it.holder = none →
      Parked s₀ made { s with kv, gens := s.gens.release it.generation } := by
    intro kv ha hother hnone
    refine ⟨ha, fun id hid => ?_, fun x hx => h.fresh x (List.mem_cons_of_mem _ hx), hgens,
      fun x hx => h.freed x (List.mem_cons_of_mem _ hx), (List.nodup_cons.1 h.distinct).2, h.outbox⟩
    by_cases heq : id = it.holder
    · subst heq
      exact hnone.trans (h.fresh it List.mem_cons_self).symm
    · refine (hother id heq).trans (h.others id ?_)
      rw [List.map_cons, List.mem_cons]
      exact not_or.2 ⟨heq, hid⟩
  rw [ends_bind, ends_ignore]
  unfold onKv
  rw [ends_zoom]
  refine (freeSequence_ends h.accounts it.holder).mono ?_ ?_
  · rintro _ m ⟨ha, htables, -, -⟩
    refine hrest m ha (fun id hid => ?_) ?_
    · rw [htables]
      exact AList.lookup_erase_ne hid
    · rw [htables]
      exact AList.lookup_erase _ _
  · rintro _ m ⟨rfl, hnone⟩
    refine hrest s.kv h.accounts (fun _ _ => rfl) ?_
    exact Option.map_eq_none_iff.1 hnone

theorem undo_ends (h : Parked s₀ made s) :
    (undo made s).Ends False (fun _ s' => Parked s₀ [] s') (fun _ _ => False) :=
  ends_forM (fun rest s => Parked s₀ rest s) (fun _ _ _ h => h.undone) made s h

theorem refuse_ends {α : Type} (h : Parked s₀ made s) (why : String) :
    (refuse made why s : Outcome String HookState α).Ends False (fun _ _ => False) (fun _ s' => Parked s₀ [] s') := by
  unfold refuse
  rw [ends_bind]
  refine h.undo_ends.mono (fun _ s' h' => ?_) (fun _ _ hf => hf.elim)
  unfold count
  rw [ends_bind, ends_modify]
  exact h'.counted _

end Parked

def Lent (s : HookState) (r : Except String (UInt64 × Nat)) (s' : HookState) : Prop :=
  s'.kv = s.kv ∧ s'.outbox = s.outbox ∧ match r with
    | .error _ => ∀ n, n ∈ s'.gens.live ↔ n ∈ s.gens.live
    | .ok (_, gen) => gen ∉ s.gens.live ∧ ∀ n, n ∈ s'.gens.live ↔ n = gen ∨ n ∈ s.gens.live

theorem allocHolder_ends (s : HookState) : (allocHolder s).Ends False (Lent s) (fun _ _ => False) := by
  unfold allocHolder
  rw [ends_bind, ends_get]
  cases ha : s.gens.alloc with
  | none => exact ⟨rfl, rfl, fun _ => Iff.rfl⟩
  | some r =>
    obtain ⟨gen, gens⟩ := r
    obtain ⟨hfree, hlive⟩ := HolderGenerations.alloc_some ha
    dsimp only
    rw [ends_bind, ends_set]
    split
    · unfold releaseGeneration
      rw [ends_bind, ends_modify]
      refine ⟨rfl, rfl, fun n => ?_⟩
      show n ∈ (gens.release gen).live ↔ _
      rw [HolderGenerations.mem_release, hlive]
      constructor
      · rintro ⟨hne, hn | hn⟩
        · exact absurd hn hne
        · exact hn
      · exact fun hn => ⟨fun heq => hfree (heq ▸ hn), Or.inr hn⟩
    · exact ⟨rfl, rfl, hfree, hlive⟩

section Hook

variable {sha : List UInt8 → Digest} {sh : Shared} {s₀ s : HookState} {made : List ParkIntent} {requestId : UInt64}
  {written : UInt64} {found : List (Option Nat)}

theorem Parked.lent_error {e : String} {s' : HookState} (h : Parked s₀ made s) (hl : Lent s (.error e) s') :
    Parked s₀ made s' := by
  obtain ⟨hkv, hout, hlive⟩ := hl
  refine ⟨hkv ▸ h.accounts, ?_, h.fresh, fun n => (hlive n).trans (h.live n), h.freed, h.distinct, hout.trans h.outbox⟩
  rw [hkv]
  exact h.others

theorem parkChunk_ends (h : Parked s₀ made s) (i : Nat) (key : Digest) (parent : Option Digest) :
    (parkChunk sh requestId len written i key parent made s).Ends False
      (fun made' s' => ∃ it, made' = made ++ [it] ∧ it.Shows sh len i ∧ Parked s₀ made' s')
      (fun _ s' => Parked s₀ [] s') := by
  unfold parkChunk
  cases hh : chunkHeader sh.fields sh.namespaceId key parent (.ofNat (i * sh.chunkTokens))
      (.ofNat (min (len - i * sh.chunkTokens) sh.chunkTokens)) written with
  | error e => exact (h.refuse_ends _).mono (fun _ _ hf => hf.elim) (fun _ _ h' => h')
  | ok header =>
    dsimp only
    rw [ends_bind]
    refine (allocHolder_ends s).mono ?_ (fun _ _ hf => hf.elim)
    rintro (e | ⟨holder, gen⟩) s₁ hl
    · exact ((h.lent_error hl).refuse_ends _).mono (fun _ _ hf => hf.elim) (fun _ _ h' => h')
    · obtain ⟨hkv, hout, hfree, hlive⟩ := hl
      have hacc : Accounts [] s₁.kv := hkv ▸ h.accounts
      dsimp only
      rw [ends_bind, ends_result]
      unfold onKv
      rw [ends_zoom]
      refine ((forkRange_ends hacc requestId _ _ holder).and (forkRange_inserts hacc requestId _ _ holder)).mono ?_ ?_
      · rintro ids m ⟨⟨ha, -⟩, hlen, hnone, t, ht⟩
        rw [hkv] at hnone ht
        refine ⟨_, rfl, ⟨⟨key, parent, written, hh⟩, hlen, ?_⟩, ha, ?_, ?_, ?_, ?_, ?_, hout.trans h.outbox⟩
        · rw [hlen]
          rfl
        · intro id hid
          rw [List.map_append, List.mem_append, not_or] at hid
          have hne : id ≠ holder := fun heq => hid.2 (List.mem_singleton.2 heq)
          show m.sequenceTables.lookup id = _
          rw [ht, AList.lookup_insert_ne hne]
          exact h.others id hid.1
        · intro it hit
          rcases List.mem_append.1 hit with hit | hit
          · exact h.fresh it hit
          · obtain rfl := List.mem_singleton.1 hit
            by_cases hin : holder ∈ made.map ParkIntent.holder
            · obtain ⟨it', hit', heq⟩ := List.mem_map.1 hin
              exact heq ▸ h.fresh it' hit'
            · exact (h.others holder hin).symm.trans hnone
        · intro n
          rw [List.map_append, List.mem_append, ← or_assoc, ← h.live]
          show n ∈ s₁.gens.live ↔ _
          rw [hlive, or_comm, List.map_singleton, List.mem_singleton]
        · intro it hit
          rcases List.mem_append.1 hit with hit | hit
          · exact h.freed it hit
          · obtain rfl := List.mem_singleton.1 hit
            exact fun hin => hfree ((h.live gen).2 (Or.inl hin))
        · rw [List.map_append, List.map_singleton, List.nodup_append]
          refine ⟨h.distinct, List.nodup_singleton _, fun a ha b hb => ?_⟩
          intro heq
          have hgen : a = gen := heq.trans (List.mem_singleton.1 hb)
          exact hfree ((h.live gen).2 (Or.inr (hgen ▸ ha)))
      · rintro e m ⟨rfl, -⟩
        unfold releaseGeneration
        rw [ends_bind, ends_modify]
        refine (Parked.refuse_ends ?_ _).mono (fun _ _ hf => hf.elim) (fun _ _ h' => h')
        refine ⟨hacc, ?_, h.fresh, fun n => ?_, h.freed, h.distinct, hout.trans h.outbox⟩
        · show ∀ id, id ∉ made.map ParkIntent.holder → s₁.kv.sequenceTables.lookup id = _
          rw [hkv]
          exact h.others
        · show n ∈ (s₁.gens.release gen).live ↔ _
          rw [HolderGenerations.mem_release, hlive, ← h.live]
          constructor
          · rintro ⟨hne, hn | hn⟩
            · exact absurd hn hne
            · exact hn
          · exact fun hn => ⟨fun heq => hfree (heq ▸ hn), Or.inr hn⟩

/-- The chunks from `i` on that the store does not have. -/
def missing (found : List (Option Nat)) (i n : Nat) : List Nat := (List.range' i n).filter fun i => (found[i]?.join).isNone

/-- The loop: one intent for each chunk that the store does not have, in order. -/
theorem parkChunks_ends (keys : List Digest) (i : Nat) (parent : Option Digest) (dedup : Nat) (h : Parked s₀ made s) :
    (parkChunks sh requestId len written found i parent keys made dedup s).Ends False
      (fun r s' => Parked s₀ r.1 s' ∧ ∃ new, r.1 = made ++ new ∧
        List.Forall₂ (ParkIntent.Shows sh len) (missing found i keys.length) new)
      (fun _ s' => Parked s₀ [] s') := by
  induction keys generalizing i parent dedup made s with
  | nil => exact ⟨h, [], (List.append_nil _).symm, .nil⟩
  | cons key keys ih =>
    have hsplit : missing found i (key :: keys).length =
        if (found[i]?.join).isNone then i :: missing found (i + 1) keys.length else missing found (i + 1) keys.length := by
      unfold missing
      rw [List.length_cons, List.range'_succ, List.filter_cons]
    rw [parkChunks, hsplit]
    by_cases hf : (found[i]?.join).isSome = true
    · have hnone : ¬ (found[i]?.join).isNone = true := by
        rw [← Option.not_isSome, hf]
        exact Bool.false_ne_true
      rw [if_pos hf, if_neg hnone]
      exact ih (i + 1) (some key) (dedup + 1) h
    · have hnone : (found[i]?.join).isNone = true := by
        rw [← Option.not_isSome, Bool.eq_false_iff.2 hf]
        rfl
      rw [if_neg hf, if_pos hnone, ends_bind]
      refine (parkChunk_ends h i key parent).mono ?_ (fun _ _ h' => h')
      rintro made' s₁ ⟨it, rfl, hshows, h₁⟩
      refine (ih (i + 1) (some key) dedup h₁).mono ?_ (fun _ _ h' => h')
      rintro r s₂ ⟨h₂, new, hnew, hall⟩
      exact ⟨h₂, it :: new, by rw [hnew, List.append_assoc]; rfl, .cons hshows hall⟩

/-- Parking is off, nothing was computed, there is no pool, or the table does not hold what was computed. -/
def Skips (sh : Shared) (kv : AienKvManager) (ctx : FinishContext) : Prop :=
  sh.park = false ∨ ∀ tokens, ctx.computedPrefix = some tokens →
    tokens = [] ∨ kv.tensorPool = none ∨ tableReady sh kv ctx.requestId tokens.length = false

/-- The chunks of the computed prefix tile it, all but the last full; the intents are those of the chunks that the store
does not have, and pass the checks of the worker and of the host store. -/
structure Tiled (sha : List UInt8 → Digest) (sh : Shared) (c : HostFs.HostFsConfig)
    (lookup : List Digest → List (Option Nat)) (kv : AienKvManager) (tokens : List UInt32) (keys : List Digest)
    (new : List ParkIntent) : Prop where
  chain : chunkChain sha sh.namespaceId (.ofNat sh.chunkTokens) tokens = .ok keys
  tiles : Tiles 0 ((List.range keys.length).map (tile sh.chunkTokens tokens.length)) tokens.length
  full : ∀ i, i + 1 < keys.length → (tile sh.chunkTokens tokens.length i).2 = sh.chunkTokens
  intents : (new.map fun it => (it.header.firstPosition.toNat, it.header.tokenCount.toNat)) =
    (missing (lookup keys) 0 keys.length).map (tile sh.chunkTokens tokens.length)
  passes : sh.fields.backendFormat = .hostPagedPoolV1 → ∀ p, kv.tensorPool = some p →
    ∀ it ∈ new, it.Passes c (.ofNat p.layout.blockStrideBytes)

theorem length_chunkChain {ns : Digest} {ct : UInt32} {tokens : List UInt32} {keys : List Digest}
    (h : chunkChain sha ns ct tokens = .ok keys) : keys.length = blocksFor tokens.length ct.toNat := by
  obtain ⟨hlen, -⟩ := chainFrom_spec (chunkChain_ok h).2
  rw [hlen]
  unfold chunks
  rw [List.length_map, List.length_range]
  rfl

theorem forall₂_tiles {tokens : List UInt32} {is : List Nat} {new : List ParkIntent} (hw : sh.Wired sha s.kv)
    (hsmall : ∀ i ∈ is, i * sh.chunkTokens < 2 ^ 32)
    (h : List.Forall₂ (ParkIntent.Shows sh tokens.length) is new) :
    (new.map fun it => (it.header.firstPosition.toNat, it.header.tokenCount.toNat)) =
      is.map (tile sh.chunkTokens tokens.length) := by
  induction h with
  | nil => rfl
  | cons hs _ ih =>
    rw [List.map_cons, List.map_cons, hs.position hw (hsmall _ List.mem_cons_self),
      ih fun i hi => hsmall i (List.mem_cons_of_mem _ hi)]

theorem tiled_of_shows {c : HostFs.HostFsConfig} {lookup : List Digest → List (Option Nat)} {tokens : List UInt32}
    {keys : List Digest} {new : List ParkIntent} (hw : sh.Wired sha s.kv) (hc : sh.Agrees c)
    (hchain : chunkChain sha sh.namespaceId (.ofNat sh.chunkTokens) tokens = .ok keys)
    (h : List.Forall₂ (ParkIntent.Shows sh tokens.length) (missing (lookup keys) 0 keys.length) new) :
    Tiled sha sh c lookup s.kv tokens keys new := by
  have hct : (UInt32.ofNat sh.chunkTokens).toNat = sh.chunkTokens := by
    refine UInt32.toNat_ofNat_of_lt' ?_
    rw [← hw.chunkTokens]
    exact sh.fields.chunkTokens.toNat_lt
  have hper := (chunkChain_ok hchain).1
  have hlen := length_chunkChain hchain
  rw [hct] at hper hlen
  refine ⟨hchain, ?_, fun i hi => ?_, ?_, fun hf p hp it hit => ?_⟩
  · rw [hlen]
    exact tiles_chunks hper
  · rw [hlen] at hi
    have hfull := (chunk_starts hper (Nat.lt_of_succ_lt hi)).2 hi
    exact Nat.min_eq_right (by omega)
  · refine forall₂_tiles hw (fun i hi => ?_) h
    obtain ⟨-, hlt⟩ := List.mem_range'_1.1 (List.mem_filter.1 hi).1
    rw [Nat.zero_add] at hlt
    have hpos := (chunkChain_spec hchain i hlt).1
    rwa [hct] at hpos
  · rw [hw.pool p hp, UInt64.ofNat_toNat]
    obtain ⟨n, hn, rfl⟩ := List.getElem_of_mem hit
    obtain ⟨hlen, hget⟩ := List.forall₂_iff_get.1 h
    exact (hget n (hlen ▸ hn) hn).passes hw hc hf

theorem onFinish_ends {c : HostFs.HostFsConfig} (ha : Accounts [] s.kv) (hw : sh.Wired sha s.kv) (hc : sh.Agrees c)
    (lookup : List Digest → List (Option Nat)) (ctx : FinishContext) :
    (onFinish sha sh lookup written ctx s).Ends False
      (fun _ s' => Skips sh s.kv ctx ∧ s'.outbox = s.outbox ∨ ∃ tokens keys new,
        ctx.computedPrefix = some tokens ∧ s'.outbox = s.outbox ++ new ∧ Tiled sha sh c lookup s.kv tokens keys new)
      (fun _ s' => Parked s [] s') := by
  have hstart : Parked s [] s :=
    ⟨ha, fun _ _ => rfl, nofun, fun n => by simp, nofun, List.nodup_nil, rfl⟩
  unfold onFinish
  by_cases hpark : sh.park = true
  · rw [if_neg (by simp [hpark])]
    cases hcomputed : ctx.computedPrefix with
    | none =>
      refine Or.inl ⟨Or.inr fun tokens h => ?_, rfl⟩
      rw [hcomputed] at h
      cases h
    | some tokens =>
      have hskip : tokens = [] ∨ s.kv.tensorPool = none ∨ tableReady sh s.kv ctx.requestId tokens.length = false →
          Skips sh s.kv ctx := by
        intro h
        refine Or.inr fun tokens' h' => ?_
        rw [hcomputed] at h'
        obtain rfl := Option.some.inj h'
        exact h
      dsimp only
      rw [ends_bind, ends_get]
      split
      · rename_i hno
        refine Or.inl ⟨hskip ?_, rfl⟩
        rcases Bool.or_eq_true_iff.1 hno with hno | hno
        · exact Or.inl (List.isEmpty_iff.1 hno)
        · exact Or.inr (Or.inl (Option.isNone_iff_eq_none.1 hno))
      · split
        · rename_i hno
          exact Or.inl ⟨hskip (Or.inr (Or.inr (by simpa using hno))), rfl⟩
        · cases hchain : chunkChain sha sh.namespaceId (.ofNat sh.chunkTokens) tokens with
          | error e =>
            dsimp only
            unfold count
            rw [ends_bind, ends_modify]
            exact hstart.counted _
          | ok keys =>
            dsimp only
            rw [ends_bind]
            refine (parkChunks_ends keys 0 none 0 hstart).mono ?_ (fun _ _ h => h)
            rintro ⟨made, dedup⟩ s₁ ⟨hparked, new, hnew, hall⟩
            unfold count
            rw [ends_bind, ends_modify, ends_modify]
            refine Or.inr ⟨tokens, keys, new, rfl, ?_, tiled_of_shows hw hc hchain hall⟩
            show s₁.outbox ++ made = s.outbox ++ new
            rw [hparked.outbox, show made = new from hnew]
  · rw [if_pos (by simp [hpark])]
    exact Or.inl ⟨Or.inl (by simpa using hpark), rfl⟩

end Hook

/-- Parking. For a manager that any calls have led to, and for the configuration that the identity says: the chunks of the
computed prefix tile it from position 0 on, all but the last full; the intents are those of the chunks that the store does
not have, in order; in the pool's format, every header and every holder pass the worker's and the host store's checks. After
an error, every sequence has the table it had, and the same generations are live. -/
theorem parking_tiles (total bs : Nat) (hbs : 1 ≤ bs) (pool : Option UnifiedKvTensorPool) (ops : List KvOp) (w : World)
    (hrun : (World.init total bs pool).run ops = some w) (s : HookState) (hs : s.kv = w.manager)
    (sha : List UInt8 → Digest) (sh : Shared) (c : HostFs.HostFsConfig) (hw : sh.Wired sha s.kv) (hc : sh.Agrees c)
    (lookup : List Digest → List (Option Nat)) (written : UInt64) (ctx : FinishContext) :
    (onFinish sha sh lookup written ctx s).Ends False
      (fun _ s' => Skips sh s.kv ctx ∧ s'.outbox = s.outbox ∨ ∃ tokens keys new,
        ctx.computedPrefix = some tokens ∧ s'.outbox = s.outbox ++ new ∧ Tiled sha sh c lookup s.kv tokens keys new)
      (fun _ s' => (∀ id, s'.kv.sequenceTables.lookup id = s.kv.sequenceTables.lookup id) ∧
        ∀ n, n ∈ s'.gens.live ↔ n ∈ s.gens.live) := by
  have ha : Accounts [] s.kv := hs ▸ ((World.run_init total bs hbs pool ops).1 w hrun).inv.accounts
  refine (onFinish_ends ha hw hc lookup ctx).mono (fun _ _ h => h) fun _ s' h => ⟨fun id => ?_, fun n => ?_⟩
  · exact h.others id (List.not_mem_nil)
  · exact (h.live n).trans (by simp)

/-! A pool of four blocks of two positions, and a sequence of three. -/

def parkConfig : KvPoolConfig where
  numBlocks := 4
  blockSize := 2
  numLayers := 1
  numKvHeads := 1
  headDim := 1
  dtype := .bf16

def parkPool : UnifiedKvTensorPool where
  config := parkConfig
  layout := {
    blockStrideBytes := 8, layerStrideBytes := 8, kvPlaneStrideBytes := 4, tokenStrideBytes := 2, headStrideBytes := 2
    elementBytes := 2, totalBytes := 32, numBlocks := 4, numLayers := 1, blockSize := 2, numKvHeads := 1, headDim := 1 }
  buffer := ⟨32, 0, fun _ => 0⟩
  layout_of := rfl
  fits := Nat.le_refl _

def parkFields (format : BackendFormat) : NamespaceFields where
  modelSha256 := .replicate 32 0
  modelDigestKind := "sha256"
  modelId := "m"
  numLayers := 1
  numKvHeads := 1
  headDim := 1
  blockSize := 2
  ropeTheta := 0
  ropeScaling := none
  qkNorm := false
  dtype := .bf16
  layout := { headStride := 2, tokenStride := 2, kvPlaneStride := 4, layerStride := 8, blockStride := 8, elementBytes := 2 }
  backendFormat := format
  chunkTokens := 2
  sharingNamespace := ""
  computeConfigDigest := .replicate 32 0

def parkShared (format : BackendFormat) : Shared := ⟨parkFields format, .replicate 32 0, 2, 2, true⟩

def parkHost (format : BackendFormat) : HostFs.HostFsConfig where
  namespaceId := ofDigest (.replicate 32 0)
  modelSha256 := ofDigest (.replicate 32 0)
  layout := { headStride := 2, tokenStride := 2, kvPlaneStride := 4, layerStride := 8, blockStride := 8, elementBytes := 2 }
  numLayers := 1
  numKvHeads := 1
  headDim := 1
  blockSize := 2
  chunkTokens := 2
  dtype := KvDtype.code .bf16
  backendFormat := format.code

def parkWorld : Option World :=
  (World.init 4 2 (some parkPool)).run [.allocateSequence 7 [1, 2, 3], .markPrefillPending 7, .completePrefill 7]

def finish (format : BackendFormat) (gens : HolderGenerations) (found : List (Option Nat)) (w : World) :
    Outcome String HookState Unit :=
  onFinish (fun _ => .replicate 32 0) (parkShared format) (fun _ => found) 0 ⟨7, some [1, 2, 3]⟩ { kv := w.manager, gens }

theorem finish_ok {f : World → Outcome String HookState Unit} {p : HookState → Bool}
    (h : parkWorld.any (fun w => match f w with | .ok _ s => p s | _ => false) = true) :
    ∃ w s, parkWorld = some w ∧ f w = .ok () s ∧ p s = true := by
  obtain ⟨w, hw, hp⟩ := (Option.any_eq_true _ _).1 h
  cases hf : f w with
  | ok u s =>
    rw [hf] at hp
    exact ⟨w, s, hw, hf, hp⟩
  | err e s =>
    rw [hf] at hp
    cases hp
  | panic =>
    rw [hf] at hp
    cases hp

/-- The store has the first chunk: the one intent begins at position 2. In the format of the decode state the tail's
header is not of whole pool blocks, and the host store refuses it. After an error the counter of the generations is not
where it was. -/
theorem parking_gaps :
    (∃ w s, parkWorld = some w ∧ finish .hostPagedPoolV1 .new [some 8, none] w = .ok () s ∧
      (s.outbox.map fun it => (it.header.firstPosition, it.header.tokenCount)) = [(2, 1)]) ∧
    (∃ w s, parkWorld = some w ∧ finish .nativeF32DecodeStateV1 .new [] w = .ok () s ∧
      (s.outbox.map fun it => (parkHost .nativeF32DecodeStateV1).checkHeader it.header) = [.ok (), .error .invalidLayout]) ∧
    ∃ w e s, parkWorld = some w ∧ finish .hostPagedPoolV1 ⟨1, 2, {2}⟩ [] w = .err e s ∧ s.gens.next = 2 := by
  refine ⟨?_, ?_, ?_⟩
  · obtain ⟨w, s, hw, hf, hp⟩ := finish_ok (f := finish .hostPagedPoolV1 .new [some 8, none])
      (p := fun s => decide ((s.outbox.map fun it => (it.header.firstPosition, it.header.tokenCount)) = [(2, 1)]))
      (by decide +kernel)
    exact ⟨w, s, hw, hf, of_decide_eq_true hp⟩
  · obtain ⟨w, s, hw, hf, hp⟩ := finish_ok (f := finish .nativeF32DecodeStateV1 .new [])
      (p := fun s => decide ((s.outbox.map fun it => (parkHost .nativeF32DecodeStateV1).checkHeader it.header) =
        [.ok (), .error .invalidLayout])) (by decide +kernel)
    exact ⟨w, s, hw, hf, of_decide_eq_true hp⟩
  · have h : parkWorld.any (fun w => match finish .hostPagedPoolV1 ⟨1, 2, {2}⟩ [] w with
        | .err _ s => decide (s.gens.next = 2)
        | _ => false) = true := by decide +kernel
    obtain ⟨w, hw, hp⟩ := (Option.any_eq_true _ _).1 h
    cases hf : finish .hostPagedPoolV1 ⟨1, 2, {2}⟩ [] w with
    | err e s =>
      rw [hf] at hp
      exact ⟨w, e, s, hw, hf, of_decide_eq_true hp⟩
    | ok u s =>
      rw [hf] at hp
      cases hp
    | panic =>
      rw [hf] at hp
      cases hp

theorem parkShared_wired {w : World} (hw : parkWorld = some w) :
    (parkShared .hostPagedPoolV1).Wired (fun _ => .replicate 32 0) w.manager := by
  refine ⟨by decide +kernel, rfl, rfl, fun p hp => ?_⟩
  have hpool : parkWorld.any (fun w => w.manager.tensorPool.all fun p => decide (p.layout.blockStrideBytes = 8)) = true := by
    decide +kernel
  rw [hw] at hpool
  have hall : w.manager.tensorPool.all (fun p => decide (p.layout.blockStrideBytes = 8)) = true := hpool
  rw [hp] at hall
  exact of_decide_eq_true hall

theorem parking_tiles_three : ∃ w s, parkWorld = some w ∧ finish .hostPagedPoolV1 .new [some 8, none] w = .ok () s ∧
    ∃ keys, Tiled (fun _ => .replicate 32 0) (parkShared .hostPagedPoolV1) (parkHost .hostPagedPoolV1)
      (fun _ => [some 8, none]) w.manager [1, 2, 3] keys s.outbox := by
  obtain ⟨w, s, hw, hf, hp⟩ := finish_ok (f := finish .hostPagedPoolV1 .new [some 8, none])
    (p := fun s => decide (s.outbox.length = 1)) (by decide +kernel)
  have h := parking_tiles 4 2 (by decide) (some parkPool) _ w hw { kv := w.manager, gens := .new } rfl
    (fun _ => .replicate 32 0) (parkShared .hostPagedPoolV1) (parkHost .hostPagedPoolV1) (parkShared_wired hw)
    ⟨rfl, rfl, rfl, rfl, rfl, rfl, rfl, rfl, rfl, rfl⟩ (fun _ => [some 8, none]) 0 ⟨7, some [1, 2, 3]⟩
  have hends : (finish .hostPagedPoolV1 .new [some 8, none] w).Ends False _ _ := h
  rw [hf] at hends
  rcases hends with ⟨-, hnone⟩ | ⟨tokens, keys, new, htokens, hout, htiled⟩
  · have hone := of_decide_eq_true hp
    rw [show s.outbox = [] from hnone] at hone
    cases hone
  · obtain rfl := Option.some.inj htokens
    refine ⟨w, s, hw, hf, keys, ?_⟩
    rw [show s.outbox = new from hout]
    exact htiled

end SovereignCore.Residency
