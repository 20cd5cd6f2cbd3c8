import Mathlib.Algebra.Order.Floor.Div
import SovereignCore.Kv.Pool
import SovereignCore.Lib.Prog
import SovereignCore.Lib.Listed

/-!
# The block manager

`AienKvManager` hands out the pool's blocks to sequences, shares them between forks and copies a shared tail before an
append writes into it. Its methods are calls on the manager (`Prog`): a refused call keeps whatever it changed before
the refusal, and an index past the end, a subtraction below zero or a failed assertion is a panic.

* `allocateBlock`, `allocateSequence`, `forkSequence`, `forkPrefilled`, `forkRange`, `assembleTable`, `adoptTable`,
  `appendTokenWithSlot`, `appendTokenWithSlotDevice`, `freeSequence`, `truncateSequence` : the table operations;
* `markPrefillPending`, `completePrefill` : the prefill gate;
* `reserveToken`, `commit`, `rollback` : a token reservation with its snapshot;
* `incrementalBlocksNeeded`, `blocksNeededForAppends` : what admission asks before it allocates;
* `writeExplicitTokenKv`, `gatherLayerKv` : the contents of a table.
-/

namespace SovereignCore.Kv

def holderSlot : UInt32 := 0xffffffff

def isHolderId (id : UInt64) : Bool := (id >>> 32).toUInt32 == holderSlot

inductive SuffixPolicy where
  | fullBlocksOnly
  | allowPartialTail
  deriving DecidableEq, Repr

structure KvBlock where
  blockId : BlockId
  refCount : Nat
  numTokens : Nat
  isShared : Bool
  deriving DecidableEq, Repr

inductive PrefillState where
  | allocated
  | prefillPending
  | prefillReady
  | sharedFrozen
  deriving DecidableEq, Repr

def PrefillState.isReady : PrefillState → Bool
  | prefillReady | sharedFrozen => true
  | allocated | prefillPending => false

inductive PrefillGateError where
  | unknownSequence (seqId : UInt64)
  | notReady (seqId : UInt64) (state : PrefillState)
  | fenceWithoutPending (seqId : UInt64) (state : PrefillState)
  deriving DecidableEq, Repr

def PrefillState.debug : PrefillState → String
  | allocated => "Allocated"
  | prefillPending => "PrefillPending"
  | prefillReady => "PrefillReady"
  | sharedFrozen => "SharedFrozen"

def PrefillGateError.display : PrefillGateError → String
  | unknownSequence seqId => s!"prefill gate: sequence {seqId} has no block table"
  | notReady seqId state =>
    s!"prefill gate: sequence {seqId} blocks are {state.debug}, not PrefillReady; refusing to share or decode"
  | fenceWithoutPending seqId state =>
    s!"prefill gate: completion fence for sequence {seqId} in state {state.debug} without a pending prefill"

structure BlockTable where
  sequenceId : UInt64
  blockIds : List BlockId
  totalTokens : Nat
  prefillState : PrefillState
  deriving DecidableEq, Repr

/-- The tables by sequence id. -/
abbrev Tables : Type := AList fun _ : UInt64 => BlockTable

/-- The manager. `freeBlocks` has the top of the source's stack first; `blocks` is read only below `totalBlocks`. -/
structure AienKvManager where
  totalBlocks : Nat
  blockSize : Nat
  freeBlocks : List BlockId
  blocks : BlockId → KvBlock
  sequenceTables : Tables
  prefixCache : AList fun _ : List UInt32 => BlockId
  tensorPool : Option UnifiedKvTensorPool
  cowFaults : Nat

structure KvTransactionSnapshot where
  freeBlocks : List BlockId
  blocks : BlockId → KvBlock
  sequenceTables : Tables
  prefixCache : AList fun _ : List UInt32 => BlockId
  cowFaults : Nat

structure KvTransaction where
  snapshot : Option KvTransactionSnapshot
  committed : Bool

structure TokenReservation where
  seqId : UInt64
  blockId : BlockId
  slot : Nat
  originalBlockId : Option BlockId
  wasCow : Bool
  tx : Option KvTransaction

namespace AienKvManager

open Prog

def new (totalBlocks blockSize : Nat) : AienKvManager where
  totalBlocks := totalBlocks
  blockSize := blockSize
  freeBlocks := List.range totalBlocks
  blocks id := { blockId := id, refCount := 0, numTokens := 0, isShared := false }
  sequenceTables := ∅
  prefixCache := ∅
  tensorPool := none
  cowFaults := 0

/-- `new` over a buffer of the caller. -/
def withBuffer (totalBlocks blockSize : Nat) (config : KvPoolConfig) (buffer : Buffer) :
    Except String AienKvManager := do
  let pool ← UnifiedKvTensorPool.new config buffer
  return { new totalBlocks blockSize with tensorPool := some pool }

variable {ε : Type}

/-- `self.blocks[b]` -/
def block (b : BlockId) : Prog AienKvManager ε KvBlock := do
  let m ← get
  if b < m.totalBlocks then pure (m.blocks b) else panic

/-- An assignment to fields of `self.blocks[b]`. -/
def updateBlock (b : BlockId) (f : KvBlock → KvBlock) : Prog AienKvManager ε Unit := do
  let m ← get
  if b < m.totalBlocks then set { m with blocks := Function.update m.blocks b (f (m.blocks b)) } else panic

/-- `if let Some(pool) = &mut self.tensor_pool { f(pool) }` -/
def onPool (f : UnifiedKvTensorPool → Option UnifiedKvTensorPool) : Prog AienKvManager ε Unit := do
  let m ← get
  match m.tensorPool with
  | none => pure ()
  | some pool =>
    let pool ← unwrap (f pool)
    set { m with tensorPool := some pool }

/-- `a.div_ceil(b)` -/
def divCeil (a b : Nat) : Prog AienKvManager ε Nat := if b = 0 then panic else pure (a ⌈/⌉ b)

def insertTable (t : BlockTable) : Prog AienKvManager ε Unit :=
  modify fun m => { m with sequenceTables := m.sequenceTables.insert t.sequenceId t }

/-- A change of the table of `seqId`, `sequence_tables.get_mut(&seq_id).unwrap()`. -/
def updateTable (seqId : UInt64) (f : BlockTable → BlockTable) : Prog AienKvManager ε Unit := do
  let m ← get
  let table ← unwrap (m.sequenceTables.lookup seqId)
  set { m with sequenceTables := m.sequenceTables.insert seqId (f table) }

/-! ## Allocation -/

def allocateBlock : Prog AienKvManager String BlockId := do
  let m ← get
  match m.freeBlocks with
  | [] => fail "Out of physical KV blocks"
  | blkId :: rest =>
    set { m with freeBlocks := rest }
    updateBlock blkId fun blk => { blk with refCount := 1, numTokens := 0, isShared := false }
    onPool fun pool => pool.zeroBlock blkId
    pure blkId

/-- The loop of `allocate_sequence`: blocks still to assign, tokens they have to hold. -/
def assignBlocks : Nat → Nat → Prog AienKvManager String (List BlockId)
  | 0, _ => pure []
  | n + 1, tokensRemaining => do
    let blk ← allocateBlock
    let m ← get
    let tokensInBlk := min tokensRemaining m.blockSize
    updateBlock blk fun b => { b with numTokens := tokensInBlk }
    let rest ← assignBlocks n (tokensRemaining - tokensInBlk)
    pure (blk :: rest)

def allocateSequence (seqId : UInt64) (promptTokens : List UInt32) : Prog AienKvManager String (List BlockId) := do
  let m ← get
  match m.sequenceTables.lookup seqId with
  | some table => pure table.blockIds
  | none =>
    let numTokens := promptTokens.length
    let blocksNeeded ← divCeil numTokens m.blockSize
    if m.freeBlocks.length < blocksNeeded then
      fail s!"Insufficient blocks: need {blocksNeeded}, have {m.freeBlocks.length}"
    else
      let assigned ← assignBlocks blocksNeeded numTokens
      insertTable
        { sequenceId := seqId, blockIds := assigned, totalTokens := numTokens, prefillState := .allocated }
      pure assigned

/-! ## The prefill gate -/

def prefillState (m : AienKvManager) (seqId : UInt64) : Option PrefillState :=
  (m.sequenceTables.lookup seqId).map BlockTable.prefillState

def markPrefillPending (seqId : UInt64) : Prog AienKvManager PrefillGateError Unit := do
  let m ← get
  let table ← orFail (m.sequenceTables.lookup seqId) (.unknownSequence seqId)
  if table.prefillState.isReady then pure ()
  else updateTable seqId fun t => { t with prefillState := .prefillPending }

def completePrefill (seqId : UInt64) : Prog AienKvManager PrefillGateError Unit := do
  let m ← get
  let table ← orFail (m.sequenceTables.lookup seqId) (.unknownSequence seqId)
  match table.prefillState with
  | .prefillPending => updateTable seqId fun t => { t with prefillState := .prefillReady }
  | .prefillReady => pure ()
  | .sharedFrozen => pure ()
  | .allocated => fail (.fenceWithoutPending seqId .allocated)

/-! ## Sharing and releasing -/

/-- One more table holds `b`. -/
def addRef (b : BlockId) : Prog AienKvManager ε Unit :=
  updateBlock b fun blk => { blk with refCount := blk.refCount + 1, isShared := true }

/-- One body of the loop of `free_sequence`. -/
def releaseRef (b : BlockId) : Prog AienKvManager ε Unit := do
  let blk ← block b
  if blk.refCount = 0 then panic
  else if blk.refCount - 1 = 0 then
    updateBlock b fun blk => { blk with refCount := blk.refCount - 1, isShared := false, numTokens := 0 }
    modify fun m => { m with freeBlocks := b :: m.freeBlocks }
  else if blk.refCount - 1 = 1 then
    updateBlock b fun blk => { blk with refCount := blk.refCount - 1, isShared := false }
  else
    updateBlock b fun blk => { blk with refCount := blk.refCount - 1 }

def freeSequence (seqId : UInt64) : Prog AienKvManager String Unit := do
  let m ← get
  let table ← orFail (m.sequenceTables.lookup seqId) s!"Sequence {seqId} not found"
  set { m with sequenceTables := m.sequenceTables.erase seqId }
  table.blockIds.forM releaseRef

/-- The readiness a fork takes from its source. -/
def PrefillState.ofFork (state : PrefillState) : PrefillState := if state.isReady then .sharedFrozen else state

/-- A live child id gives its old blocks back before it is replaced. -/
def freeIfLive (seqId : UInt64) : Prog AienKvManager String Unit := do
  let m ← get
  if (m.sequenceTables.lookup seqId).isSome then freeSequence seqId else pure ()

def freezeParent (parentId : UInt64) (state : PrefillState) : Prog AienKvManager ε Unit := do
  let m ← get
  if state.isReady ∧ (m.sequenceTables.lookup parentId).isSome then
    updateTable parentId fun t => { t with prefillState := .sharedFrozen }
  else pure ()

def forkSequence (parentId childId : UInt64) : Prog AienKvManager String (List BlockId) := do
  let m ← get
  let parentTable ← orFail (m.sequenceTables.lookup parentId) s!"Parent sequence {parentId} not found"
  if parentId = childId then fail s!"Cannot fork sequence {parentId} onto itself"
  else
    parentTable.blockIds.forM addRef
    freeIfLive childId
    freezeParent parentId parentTable.prefillState
    insertTable { parentTable with sequenceId := childId, prefillState := PrefillState.ofFork parentTable.prefillState }
    pure parentTable.blockIds

def forkPrefilled (parentId childId : UInt64) : Prog AienKvManager PrefillGateError (List BlockId) := do
  let m ← get
  let state ← orFail (m.prefillState parentId) (.unknownSequence parentId)
  if state.isReady then mapErr (fun _ => .unknownSequence parentId) (forkSequence parentId childId)
  else fail (.notReady parentId state)

def forkRange (parentId : UInt64) (firstBlock nBlocks : Nat) (childId : UInt64) :
    Prog AienKvManager String (List BlockId) := do
  let m ← get
  if 2 ^ 64 ≤ firstBlock + nBlocks then fail "Block range overflows"
  else if parentId = childId then fail s!"Cannot fork sequence {parentId} onto itself"
  else if (m.sequenceTables.lookup childId).isSome then fail s!"Sequence {childId} already has a table"
  else
    let parent ← orFail (m.sequenceTables.lookup parentId) s!"Parent sequence {parentId} not found"
    let stop := firstBlock + nBlocks
    if firstBlock ≥ stop ∨ stop > parent.blockIds.length then
      fail s!"Block range {firstBlock}..{stop} invalid for sequence {parentId} with {parent.blockIds.length} blocks"
    else
      let shared := (parent.blockIds.drop firstBlock).take nBlocks
      let coveredEnd := min (stop * m.blockSize) parent.totalTokens
      let totalTokens := coveredEnd - firstBlock * m.blockSize
      shared.forM addRef
      insertTable { sequenceId := childId, blockIds := shared, totalTokens,
                    prefillState := PrefillState.ofFork parent.prefillState }
      pure shared

/-- The first block of `ids` that was seen before, as the loop over a `HashSet` finds it. -/
def firstRepeat : List BlockId → List BlockId → Option BlockId
  | _, [] => none
  | seen, b :: rest => if b ∈ seen then some b else firstRepeat (b :: seen) rest

/-- The checks of `assemble_table` over the holders still to read, with the blocks and tokens collected so far. -/
def collectHolders (m : AienKvManager) (suffixPolicy : SuffixPolicy) :
    List UInt64 → List BlockId → Nat → Except String (List BlockId × Nat)
  | [], ids, totalTokens => .ok (ids, totalTokens)
  | h :: rest, ids, totalTokens =>
    if !isHolderId h then .error s!"{h} is not a holder id"
    else match m.sequenceTables.lookup h with
      | none => .error s!"Holder {h} not found"
      | some t =>
        if !t.prefillState.isReady || t.blockIds.isEmpty then .error s!"Holder {h} is not complete"
        else
          let full := t.totalTokens == t.blockIds.length * m.blockSize
          let last := rest.isEmpty
          if !full && (!last || suffixPolicy == .fullBlocksOnly) then .error s!"Holder {h} ends in a partial block"
          else match firstRepeat ids t.blockIds with
            | some b => .error s!"Block {b} appears twice in the assembly"
            | none => collectHolders m suffixPolicy rest (ids ++ t.blockIds) (totalTokens + t.totalTokens)

def assembleTable (seq : UInt64) (holders : List UInt64) (suffixPolicy : SuffixPolicy) :
    Prog AienKvManager String (List BlockId) := do
  let m ← get
  if isHolderId seq then fail s!"{seq} is a holder id, not a sequence"
  else if (m.sequenceTables.lookup seq).isSome then fail s!"Sequence {seq} already has a table"
  else if holders.isEmpty then fail "assemble_table needs at least one holder"
  else match m.collectHolders suffixPolicy holders [] 0 with
    | .error e => fail e
    | .ok (ids, totalTokens) =>
      ids.forM addRef
      insertTable { sequenceId := seq, blockIds := ids, totalTokens, prefillState := .prefillPending }
      pure ids

def adoptTable (holder seq : UInt64) : Prog AienKvManager String Unit := do
  let m ← get
  if !isHolderId holder then fail s!"{holder} is not a holder id"
  else if isHolderId seq || seq == holder then fail s!"{seq} cannot adopt a holder table"
  else if (m.sequenceTables.lookup seq).isSome then fail s!"Sequence {seq} already has a table"
  else
    let table ← orFail (m.sequenceTables.lookup holder) s!"Holder {holder} not found"
    set { m with sequenceTables := m.sequenceTables.erase holder }
    insertTable { table with sequenceId := seq }

/-! ## Appending -/

/-- The copy `newBlk` takes the place of the shared tail `lastBlkId`, which loses one reference. Returns the slot. -/
def replaceTail (seqId : UInt64) (lastBlkIdx : Nat) (lastBlkId newBlk : BlockId) : Prog AienKvManager String Nat := do
  let oldBlk ← block lastBlkId
  if oldBlk.refCount = 0 then panic
  else
    updateBlock lastBlkId fun b =>
      { b with refCount := b.refCount - 1, isShared := if b.refCount - 1 = 1 then false else b.isShared }
    updateBlock newBlk fun b => { b with numTokens := oldBlk.numTokens + 1, isShared := false }
    updateTable seqId fun t =>
      { t with blockIds := t.blockIds.set lastBlkIdx newBlk, totalTokens := t.totalTokens + 1 }
    pure oldBlk.numTokens

/-- The append with the copy of a shared tail as a parameter: `copy src dst` copies the block, counts the fault and
returns the fence of a device copy. -/
def appendWith (copy : BlockId → BlockId → Prog AienKvManager String (Option Fence)) (seqId : UInt64) :
    Prog AienKvManager String (BlockId × Nat × Option Fence) := do
  let m ← get
  let table ← orFail (m.sequenceTables.lookup seqId) s!"Sequence {seqId} not found"
  match table.blockIds.getLast? with
  | none =>
    let newBlk ← allocateBlock
    updateTable seqId fun t => { t with blockIds := t.blockIds ++ [newBlk], totalTokens := 1 }
    updateBlock newBlk fun b => { b with numTokens := 1 }
    pure (newBlk, 0, none)
  | some lastBlkId =>
    let lastBlkIdx := table.blockIds.length - 1
    let blk ← block lastBlkId
    if blk.isShared then
      if blk.numTokens < m.blockSize then
        let newBlk ← allocateBlock
        let fence ← copy lastBlkId newBlk
        let slot ← replaceTail seqId lastBlkIdx lastBlkId newBlk
        pure (newBlk, slot, fence)
      else
        let newBlk ← allocateBlock
        updateTable seqId fun t => { t with blockIds := t.blockIds ++ [newBlk], totalTokens := t.totalTokens + 1 }
        updateBlock newBlk fun b => { b with numTokens := 1, isShared := false }
        pure (newBlk, 0, none)
    else if blk.numTokens < m.blockSize then
      updateBlock lastBlkId fun b => { b with numTokens := b.numTokens + 1 }
      updateTable seqId fun t => { t with totalTokens := t.totalTokens + 1 }
      pure (lastBlkId, blk.numTokens, none)
    else
      let newBlk ← allocateBlock
      updateTable seqId fun t => { t with blockIds := t.blockIds ++ [newBlk], totalTokens := t.totalTokens + 1 }
      updateBlock newBlk fun b => { b with numTokens := 1 }
      pure (newBlk, 0, none)

def countFault : Prog AienKvManager String Unit := modify fun m => { m with cowFaults := m.cowFaults + 1 }

def copyOnHost (src dst : BlockId) : Prog AienKvManager String (Option Fence) := do
  countFault
  onPool fun pool => pool.copyBlock src dst
  pure none

/-- The device copy of a shared tail; a failed one gives the new block back. -/
def copyOnDevice (device : MemoryDevice) (src dst : BlockId) : Prog AienKvManager String (Option Fence) := do
  let m ← get
  match m.tensorPool with
  | none =>
    countFault
    pure none
  | some pool =>
    let (answer, pool) ← unwrap (pool.copyBlockDevice device src dst)
    set { m with tensorPool := some pool }
    match answer with
    | .ok fence =>
      countFault
      pure (some fence)
    | .error e =>
      updateBlock dst fun b => { b with refCount := 0 }
      modify fun m => { m with freeBlocks := dst :: m.freeBlocks }
      fail s!"copy_block_device failed: {e.debug}"

def appendTokenWithSlot (seqId : UInt64) : Prog AienKvManager String (BlockId × Nat) := do
  let (blk, slot, _) ← appendWith copyOnHost seqId
  pure (blk, slot)

def appendTokenWithSlotDevice (device : MemoryDevice) (seqId : UInt64) :
    Prog AienKvManager String (BlockId × Nat × Option Fence) :=
  appendWith (copyOnDevice device) seqId

/-! ## Truncation -/

/-- The check `truncate_sequence` makes of every block it would shrink or free. -/
def checkPrivate (seqId : UInt64) (b : BlockId) : Prog AienKvManager String Unit := do
  let blk ← block b
  if blk.isShared || decide (blk.refCount > 1) then
    fail s!"truncate_sequence: block {b} of sequence {seqId} is shared (ref_count {blk.refCount})"
  else pure ()

/-- `prefix_cache.retain(|_, b| keep(b))` -/
def retain (cache : AList fun _ : List UInt32 => BlockId) (keep : BlockId → Bool) :
    AList fun _ : List UInt32 => BlockId :=
  ⟨cache.entries.filter fun e => keep e.2, cache.nodupKeys.sublist List.filter_sublist⟩

/-- One body of the freeing loop of `truncate_sequence`. -/
def dropBlock (b : BlockId) : Prog AienKvManager ε Unit := do
  updateBlock b fun blk => { blk with refCount := 0, isShared := false, numTokens := 0 }
  modify fun m => { m with freeBlocks := b :: m.freeBlocks }

def shrinkTail (kept : List BlockId) (keep numTokens : Nat) : Prog AienKvManager ε Unit :=
  if keep > 0 then do
    let tail ← unwrap kept[keep - 1]?
    updateBlock tail fun b => { b with numTokens }
  else pure ()

def dropCached (freed : List BlockId) : Prog AienKvManager ε Unit :=
  if freed.isEmpty then pure ()
  else modify fun m => { m with prefixCache := retain m.prefixCache fun b => !freed.contains b }

def truncateSequence (seqId : UInt64) (newTotal : Nat) : Prog AienKvManager String Unit := do
  let m ← get
  let table ← orFail (m.sequenceTables.lookup seqId) s!"Sequence {seqId} not found"
  if newTotal > table.totalTokens then
    fail s!"truncate_sequence: {newTotal} is past the {table.totalTokens} tokens of sequence {seqId}"
  else if newTotal = table.totalTokens then pure ()
  else
    let bs := m.blockSize
    let keep ← divCeil newTotal bs
    let firstTouched := if newTotal % bs = 0 then keep else keep - 1
    (table.blockIds.drop (min firstTouched table.blockIds.length)).forM (checkPrivate seqId)
    let freed := table.blockIds.drop (min keep table.blockIds.length)
    let kept := table.blockIds.take (min keep table.blockIds.length)
    shrinkTail kept keep (newTotal - (keep - 1) * bs)
    updateTable seqId fun t => { t with blockIds := kept, totalTokens := newTotal }
    freed.forM dropBlock
    dropCached freed

/-! ## Reservations -/

def beginTransaction (m : AienKvManager) : KvTransaction where
  snapshot := some
    { freeBlocks := m.freeBlocks, blocks := m.blocks, sequenceTables := m.sequenceTables,
      prefixCache := m.prefixCache, cowFaults := m.cowFaults }
  committed := false

def restore (m : AienKvManager) (s : KvTransactionSnapshot) : AienKvManager :=
  { m with freeBlocks := s.freeBlocks, blocks := s.blocks, sequenceTables := s.sequenceTables,
           prefixCache := s.prefixCache, cowFaults := s.cowFaults }

/-- `KvTransaction::rollback` -/
def rollbackTransaction (tx : KvTransaction) : Prog AienKvManager ε Unit :=
  if tx.committed then pure ()
  else match tx.snapshot with
    | none => pure ()
    | some s => modify fun m => m.restore s

def reserveToken (seqId : UInt64) : Prog AienKvManager String TokenReservation := do
  let m ← get
  let tx := m.beginTransaction
  let (blockId, slot) ← appendTokenWithSlot seqId
  pure { seqId, blockId, slot, originalBlockId := none, wasCow := false, tx := some tx }

def commit (_reservation : TokenReservation) : Prog AienKvManager String Unit := pure ()

def rollback (reservation : TokenReservation) : Prog AienKvManager String Unit := do
  match reservation.tx with
  | some tx => rollbackTransaction tx
  | none =>
    let m ← get
    let _ ← orFail (m.sequenceTables.lookup reservation.seqId) s!"Sequence {reservation.seqId} not found"
    updateTable reservation.seqId fun t => { t with totalTokens := t.totalTokens - 1 }

/-! ## What admission asks -/

def availableBlocks (m : AienKvManager) : Nat := m.freeBlocks.length

/-- `self.blocks.get(b)` -/
def getBlock (m : AienKvManager) (b : BlockId) : Option KvBlock := if b < m.totalBlocks then some (m.blocks b) else none

/-- The fresh blocks that `appends` appends to `seqId` would take. -/
def blocksNeededForAppends (m : AienKvManager) (seqId : UInt64) (appends : Nat) : Nat :=
  if appends = 0 then 0
  else match m.sequenceTables.lookup seqId with
    | none => 0
    | some table =>
      let (needed, remaining, tailFree) :=
        match table.blockIds.getLast?.bind m.getBlock with
        | none => (1, appends - 1, m.blockSize - 1)
        | some blk =>
          if blk.isShared then
            (1, appends - 1, if blk.numTokens < m.blockSize then m.blockSize - (blk.numTokens + 1) else m.blockSize - 1)
          else (0, appends, m.blockSize - blk.numTokens)
      needed + (remaining - min remaining tailFree) ⌈/⌉ m.blockSize

/-- The fresh blocks admission of `seqId` takes with a prompt of `promptLen` tokens. -/
def incrementalBlocksNeeded (m : AienKvManager) (seqId : UInt64) (promptLen : Nat) : Nat :=
  let fresh := promptLen ⌈/⌉ m.blockSize
  match m.sequenceTables.lookup seqId with
  | none => fresh
  | some table =>
    if !table.prefillState.isReady then
      fresh - (table.blockIds.filter fun b => (m.getBlock b).any fun blk => blk.refCount == 1).length
    else m.blocksNeededForAppends seqId (promptLen - table.totalTokens + 1)

/-! ## Contents -/

def writeExplicitTokenKv (blockId layerIdx tokenInBlock : Nat) (k v : List F32) : Prog AienKvManager String Unit := do
  let m ← get
  match m.tensorPool with
  | none => fail "No physical tensor pool attached"
  | some _ => onPool fun pool => pool.writeTokenKv blockId layerIdx tokenInBlock k v

def gatherLayerKv (seqId : UInt64) (layerIdx : Nat) : Prog AienKvManager String (List F32 × List F32) := do
  let m ← get
  let table ← orFail (m.sequenceTables.lookup seqId) s!"Sequence {seqId} not found"
  match m.tensorPool with
  | none => fail "No physical tensor pool attached"
  | some pool => unwrap (pool.gatherLayerKv table.blockIds table.totalTokens layerIdx)

end AienKvManager

end SovereignCore.Kv
