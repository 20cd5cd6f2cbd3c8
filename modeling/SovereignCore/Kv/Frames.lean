import SovereignCore.Kv.Manager

/-!
# What a call does to the tables of others

These hold of any manager, also one that an outside caller has left in disorder.

* `SameTables`, `Elsewhere id` : no table changes, no table but that of `id` changes;
* `freeSequence_gone` : a freed sequence has no table;
* `freeSequence_elsewhere`, `allocateSequence_elsewhere`, `markPrefillPending_elsewhere` : the calls of an admission.
-/

namespace SovereignCore.Kv

open AienKvManager Prog

def SameTables (m m' : AienKvManager) : Prop := m'.sequenceTables = m.sequenceTables

/-- No table but that of `id` changed. -/
def Elsewhere (id : UInt64) (m m' : AienKvManager) : Prop :=
  ∀ id', id' ≠ id → m'.sequenceTables.lookup id' = m.sequenceTables.lookup id'

variable {m m' m'' : AienKvManager} {id : UInt64} {ε : Type}

theorem SameTables.trans (h : SameTables m m') (h' : SameTables m' m'') : SameTables m m'' := Eq.trans h' h

theorem Elsewhere.refl (m : AienKvManager) : Elsewhere id m m := fun _ _ => rfl

theorem Elsewhere.trans (h : Elsewhere id m m') (h' : Elsewhere id m' m'') : Elsewhere id m m'' :=
  fun id' hne => (h' id' hne).trans (h id' hne)

instance : Steady SameTables where
  refl _ := rfl
  trans := SameTables.trans

instance : Steady (Elsewhere id) where
  refl := Elsewhere.refl
  trans := Elsewhere.trans

theorem SameTables.elsewhere (h : SameTables m m') : Elsewhere id m m' := by
  intro id' _
  rw [show m'.sequenceTables = m.sequenceTables from h]

/-! ## Parts that change no table -/

theorem block_same (b : BlockId) : Within SameTables (block b : Prog AienKvManager ε KvBlock) := by
  unfold block
  refine within_get fun m => ?_
  split_ifs
  · exact rfl
  · exact trivial

theorem updateBlock_same (b : BlockId) (f : KvBlock → KvBlock) :
    Within SameTables (updateBlock b f : Prog AienKvManager ε Unit) := by
  unfold updateBlock
  refine within_get fun m => ?_
  split_ifs
  · exact rfl
  · exact trivial

theorem onPool_same (f : UnifiedKvTensorPool → Option UnifiedKvTensorPool) :
    Within SameTables (onPool f : Prog AienKvManager ε Unit) := by
  unfold onPool
  refine within_get fun m => ?_
  cases m.tensorPool with
  | none => exact rfl
  | some pool =>
    cases hf : f pool with
    | none => simp only [hf]; exact trivial
    | some pool' => simp only [hf]; exact rfl

theorem releaseRef_same (b : BlockId) : Within SameTables (releaseRef b : Prog AienKvManager ε Unit) := by
  unfold releaseRef
  refine within_bind (block_same b) fun blk => ?_
  split_ifs
  · exact fun _ => trivial
  · exact within_bind (updateBlock_same b _) fun _ => within_modify fun _ => rfl
  · exact updateBlock_same b _
  · exact updateBlock_same b _

theorem allocateBlock_same : Within SameTables allocateBlock := by
  unfold allocateBlock
  refine within_get fun m => ?_
  cases m.freeBlocks with
  | nil => exact rfl
  | cons blkId rest =>
    have htail : Within SameTables (do
        updateBlock blkId fun blk => { blk with refCount := 1, numTokens := 0, isShared := false }
        onPool fun pool => pool.zeroBlock blkId
        pure blkId : Prog AienKvManager String BlockId) :=
      within_bind (updateBlock_same blkId _) fun _ =>
        within_bind (onPool_same _) fun _ => within_pure blkId
    exact htail { m with freeBlocks := rest }

theorem assignBlocks_same : ∀ n tokens : Nat, Within SameTables (assignBlocks n tokens)
  | 0, _ => within_pure []
  | n + 1, tokens => by
    unfold assignBlocks
    refine within_bind allocateBlock_same fun blk => within_get fun m => ?_
    exact within_bind (updateBlock_same blk _)
      (fun _ => within_bind (assignBlocks_same n _) fun _ => within_pure _) m

/-! ## Calls on one table -/

theorem freeSequence_elsewhere (id : UInt64) : Within (Elsewhere id) (freeSequence id) := by
  unfold freeSequence
  refine within_get fun m => ?_
  cases m.sequenceTables.lookup id with
  | none => exact Elsewhere.refl m
  | some table =>
    rw [ends_bind, ends_orFail_some, ends_bind, ends_set]
    have herase : Elsewhere id m { m with sequenceTables := m.sequenceTables.erase id } :=
      fun id' hne => AList.lookup_erase_ne hne
    have hloop := within_forM (releaseRef_same (ε := String)) table.blockIds
      { m with sequenceTables := m.sequenceTables.erase id }
    exact hloop.mono (fun _ _ h => herase.trans h.elsewhere) fun _ _ h => herase.trans h.elsewhere

/-- After a free the sequence has no table, whether it had one or not. -/
theorem freeSequence_gone (m : AienKvManager) (id : UInt64) : (freeSequence id m).Ends True
    (fun _ m' => m'.sequenceTables.lookup id = none) (fun _ m' => m'.sequenceTables.lookup id = none) := by
  unfold freeSequence
  rw [ends_bind, ends_get, ends_bind]
  cases hid : m.sequenceTables.lookup id with
  | none => exact hid
  | some table =>
    rw [ends_orFail_some, ends_bind, ends_set]
    have hgone : (m.sequenceTables.erase id).lookup id = none := AList.lookup_erase id m.sequenceTables
    have hloop := within_forM (releaseRef_same (ε := String)) table.blockIds
      { m with sequenceTables := m.sequenceTables.erase id }
    exact hloop.mono (fun _ m' h => (congrArg (AList.lookup id) h).trans hgone)
      fun _ m' h => (congrArg (AList.lookup id) h).trans hgone

theorem insertTable_elsewhere {t : BlockTable} (h : t.sequenceId = id) :
    Within (Elsewhere id) (insertTable t : Prog AienKvManager ε Unit) :=
  within_modify fun _ _ hne => AList.lookup_insert_ne (h ▸ hne)

theorem updateTable_elsewhere (id : UInt64) (f : BlockTable → BlockTable) :
    Within (Elsewhere id) (updateTable id f : Prog AienKvManager ε Unit) := by
  unfold updateTable
  refine within_get fun m => ?_
  cases m.sequenceTables.lookup id with
  | none => exact trivial
  | some t =>
    rw [ends_bind, ends_unwrap_some, ends_set]
    exact fun id' hne => AList.lookup_insert_ne hne

theorem allocateSequence_elsewhere (id : UInt64) (tokens : List UInt32) :
    Within (Elsewhere id) (allocateSequence id tokens) := by
  unfold allocateSequence
  refine within_get fun m => ?_
  cases m.sequenceTables.lookup id with
  | some table => exact Elsewhere.refl m
  | none =>
    have hassign : ∀ n, Within (Elsewhere id) (do
        let assigned ← assignBlocks n tokens.length
        insertTable
          { sequenceId := id, blockIds := assigned, totalTokens := tokens.length, prefillState := .allocated }
        pure assigned : Prog AienKvManager String (List BlockId)) := fun n =>
      within_bind
        (fun m => (assignBlocks_same n tokens.length m).mono (fun _ _ h => h.elsewhere) fun _ _ h => h.elsewhere)
        fun _ => within_bind (insertTable_elsewhere rfl) fun _ => within_pure _
    show Outcome.Ends True _ _ ((divCeil tokens.length m.blockSize >>= _) m)
    rw [ends_bind]
    unfold divCeil
    split_ifs
    · exact trivial
    · rw [ends_pure]
      split_ifs
      · exact Elsewhere.refl m
      · exact hassign _ m

theorem markPrefillPending_elsewhere (id : UInt64) : Within (Elsewhere id) (markPrefillPending id) := by
  unfold markPrefillPending
  refine within_get fun m => ?_
  cases m.sequenceTables.lookup id with
  | none => exact Elsewhere.refl m
  | some t =>
    rw [ends_bind, ends_orFail_some]
    split_ifs
    · exact Elsewhere.refl m
    · exact updateTable_elsewhere id _ m

end SovereignCore.Kv
