import SovereignCore.Kv.Appends
import SovereignCore.Kv.Frames

/-!
# Refused calls

A refused call leaves the tables, the blocks, the order of the free list and the fault count as they were.

* `StaysBlank`, `…_blank` : no call leaves tokens on a block that nobody holds;
* `Refuses`, `AllRefuse` : what a refusal leaves, call by call;
* `World.step_clear`, `World.run_clear` : the free blocks of every reachable manager are blank;
* `Idle` : with blocks of no tokens every call refuses or panics;
* `refusals_change_nothing` : the refusals of every reachable manager.
-/

namespace SovereignCore.Kv

open AienKvManager Prog

namespace AienKvManager

variable {ε : Type} {m m' : AienKvManager} {b : BlockId} {id : UInt64}

def StaysBlank (m m' : AienKvManager) : Prop := m.Blank → m'.Blank

instance : Steady StaysBlank where
  refl _ := fun h => h
  trans h h' := fun hb => h' (h hb)

theorem ends_of_stays {α : Type} {x : Prog AienKvManager ε α} (hx : Within StaysBlank x) (h : m.Blank) :
    (x m).Ends True (fun _ m' => m'.Blank) (fun _ m' => m'.Blank) :=
  (hx m).mono (fun _ _ hs => hs h) (fun _ _ hs => hs h)

theorem Blank.of_blocks (h : m.Blank) (hb : m'.blocks = m.blocks) : m'.Blank := by
  intro b
  rw [hb]
  exact h b

theorem Blank.update (h : m.Blank) {blk : KvBlock} (hb : m'.blocks = Function.update m.blocks b blk)
    (hblk : blk.refCount = 0 → blk.numTokens = 0) : m'.Blank := by
  intro c
  rw [hb]
  by_cases hc : c = b
  · subst hc
    rw [Function.update_self]
    exact hblk
  · rw [Function.update_of_ne hc]
    exact h c

/-! ## Calls -/

theorem ends_block_any {Q : KvBlock → AienKvManager → Prop} {E : ε → AienKvManager → Prop} (h : Q (m.blocks b) m) :
    Outcome.Ends True Q E (block b m) := by
  unfold block
  rw [ends_bind, ends_get]
  split_ifs
  · exact h
  · exact trivial

theorem ends_updateBlock_any {Q : Unit → AienKvManager → Prop} {E : ε → AienKvManager → Prop} {f : KvBlock → KvBlock}
    (h : Q () { m with blocks := Function.update m.blocks b (f (m.blocks b)) }) :
    Outcome.Ends True Q E (updateBlock b f m) := by
  unfold updateBlock
  rw [ends_bind, ends_get]
  split_ifs
  · exact h
  · exact trivial

theorem ends_divCeil_any {x y : Nat} {Q : Nat → AienKvManager → Prop} {E : ε → AienKvManager → Prop}
    (h : ∀ n, Q n m) : Outcome.Ends True Q E (divCeil x y m) := by
  unfold divCeil
  split_ifs
  · exact trivial
  · exact h _

theorem updateBlock_blank (b : BlockId) {f : KvBlock → KvBlock}
    (hf : ∀ blk, (blk.refCount = 0 → blk.numTokens = 0) → (f blk).refCount = 0 → (f blk).numTokens = 0) :
    Within StaysBlank (updateBlock b f : Prog AienKvManager ε Unit) := by
  unfold updateBlock
  refine within_get fun m => ?_
  split_ifs
  · exact fun h => h.update rfl (hf _ (h b))
  · exact trivial

theorem addRef_blank (b : BlockId) : Within StaysBlank (addRef b : Prog AienKvManager ε Unit) :=
  updateBlock_blank b fun _ _ h => absurd h (Nat.succ_ne_zero _)

theorem releaseRef_blank (b : BlockId) : Within StaysBlank (releaseRef b : Prog AienKvManager ε Unit) := by
  unfold releaseRef
  intro m
  unfold block
  rw [ends_bind, ends_bind, ends_get]
  split_ifs with hb
  · rw [ends_pure]
    split_ifs with h0 h1 h2
    · exact trivial
    · have hzero : Within StaysBlank (do
          updateBlock b fun blk => { blk with refCount := blk.refCount - 1, isShared := false, numTokens := 0 }
          modify fun m => { m with freeBlocks := b :: m.freeBlocks } : Prog AienKvManager ε Unit) :=
        within_bind (updateBlock_blank b fun _ _ _ => rfl) fun _ => within_modify fun _ h => h.of_blocks rfl
      exact hzero m
    · rw [ends_updateBlock hb]
      exact fun h => h.update rfl fun hz => absurd hz h1
    · rw [ends_updateBlock hb]
      exact fun h => h.update rfl fun hz => absurd hz h1
  · exact trivial

theorem updateTable_blank (id : UInt64) (f : BlockTable → BlockTable) :
    Within StaysBlank (updateTable id f : Prog AienKvManager ε Unit) := by
  unfold updateTable
  refine within_get fun m => ?_
  cases m.sequenceTables.lookup id with
  | none => exact trivial
  | some t => exact fun h => h.of_blocks rfl

theorem insertTable_blank (t : BlockTable) : Within StaysBlank (insertTable t : Prog AienKvManager ε Unit) :=
  within_modify fun _ h => h.of_blocks rfl

theorem freeSequence_blank (id : UInt64) : Within StaysBlank (freeSequence id) := by
  unfold freeSequence
  refine within_get fun m => ?_
  cases m.sequenceTables.lookup id with
  | none => exact fun h => h
  | some t =>
    rw [ends_bind, ends_orFail_some, ends_bind, ends_set]
    refine (within_forM releaseRef_blank t.blockIds { m with sequenceTables := m.sequenceTables.erase id }).mono ?_ ?_
    · exact fun _ _ h hb => h (hb.of_blocks rfl)
    · exact fun _ _ h hb => h (hb.of_blocks rfl)

theorem freeIfLive_blank (id : UInt64) : Within StaysBlank (freeIfLive id) := by
  unfold freeIfLive
  refine within_get fun m => ?_
  split_ifs
  · exact freeSequence_blank id m
  · exact fun h => h

theorem freezeParent_blank (id : UInt64) (state : PrefillState) :
    Within StaysBlank (freezeParent id state : Prog AienKvManager ε Unit) := by
  unfold freezeParent
  refine within_get fun m => ?_
  split_ifs
  · exact updateTable_blank id _ m
  · exact fun h => h

theorem forkSequence_blank (parent child : UInt64) : Within StaysBlank (forkSequence parent child) := by
  unfold forkSequence
  refine within_get fun m => ?_
  cases m.sequenceTables.lookup parent with
  | none => exact fun h => h
  | some t =>
    rw [ends_bind, ends_orFail_some]
    split_ifs
    · exact fun h => h
    · exact within_bind (within_forM addRef_blank t.blockIds) (fun _ => within_bind (freeIfLive_blank child) fun _ =>
        within_bind (freezeParent_blank parent _) fun _ => within_bind (insertTable_blank _) fun _ => within_pure _) m

theorem forkPrefilled_blank (parent child : UInt64) : Within StaysBlank (forkPrefilled parent child) := by
  unfold forkPrefilled
  refine within_get fun m => ?_
  rw [ends_bind]
  cases m.prefillState parent with
  | none => exact fun h => h
  | some state =>
    rw [ends_orFail_some]
    split_ifs
    · rw [ends_mapErr]
      exact forkSequence_blank parent child m
    · exact fun h => h

theorem forkRange_blank (parent : UInt64) (first n : Nat) (child : UInt64) :
    Within StaysBlank (forkRange parent first n child) := by
  unfold forkRange
  refine within_get fun m => ?_
  split_ifs
  · exact fun h => h
  · exact fun h => h
  · exact fun h => h
  · cases m.sequenceTables.lookup parent with
    | none => exact fun h => h
    | some t =>
      rw [ends_bind, ends_orFail_some]
      dsimp only
      split_ifs
      · exact fun h => h
      · exact within_bind (within_forM addRef_blank _) (fun _ => within_bind (insertTable_blank _) fun _ =>
          within_pure _) m

theorem assembleTable_blank (seq : UInt64) (holders : List UInt64) (policy : SuffixPolicy) :
    Within StaysBlank (assembleTable seq holders policy) := by
  unfold assembleTable
  refine within_get fun m => ?_
  split_ifs
  · exact fun h => h
  · exact fun h => h
  · exact fun h => h
  · cases m.collectHolders policy holders [] 0 with
    | error e => exact fun h => h
    | ok r =>
      exact within_bind (within_forM addRef_blank _) (fun _ => within_bind (insertTable_blank _) fun _ =>
        within_pure _) m

theorem adoptTable_blank (holder seq : UInt64) : Within StaysBlank (adoptTable holder seq) := by
  unfold adoptTable
  refine within_get fun m => ?_
  split_ifs
  · exact fun h => h
  · exact fun h => h
  · exact fun h => h
  · cases m.sequenceTables.lookup holder with
    | none => exact fun h => h
    | some t => exact fun h => h.of_blocks rfl

/-! ## Calls that count tokens -/

theorem allocateBlock_blank (h : m.Blank) : (allocateBlock m).Ends True
    (fun b m' => m'.Blank ∧ (m'.blocks b).refCount = 1 ∧ b < m'.totalBlocks) (fun _ m' => m'.Blank) := by
  unfold allocateBlock
  rw [ends_bind, ends_get]
  cases m.freeBlocks with
  | nil => exact h
  | cons b rest =>
    simp only [ends_bind, ends_set]
    unfold updateBlock onPool
    rw [ends_bind, ends_get]
    split_ifs with hb
    · rw [ends_set, ends_bind, ends_get]
      dsimp only
      have hblank : ∀ pool : Option UnifiedKvTensorPool, Blank { m with
          freeBlocks := rest
          tensorPool := pool
          blocks := Function.update m.blocks b { m.blocks b with refCount := 1, numTokens := 0, isShared := false } } :=
        fun _ => h.update rfl fun _ => rfl
      have hone : (Function.update m.blocks b
          { m.blocks b with refCount := 1, numTokens := 0, isShared := false } b).refCount = 1 := by
        rw [Function.update_self]
      cases hp : m.tensorPool with
      | none =>
        refine ⟨?_, hone, hb⟩
        rw [← hp]
        exact hblank _
      | some p =>
        dsimp only
        rw [ends_bind]
        cases p.zeroBlock b with
        | none => trivial
        | some p' => exact ⟨hblank _, hone, hb⟩
    · trivial

theorem Blank.held (h : m.Blank) {blk : KvBlock} (hb : m'.blocks = Function.update m.blocks b blk)
    (hlive : blk.refCount ≠ 0) : m'.Blank := h.update hb fun hz => absurd hz hlive

theorem assignBlocks_blank : ∀ (n tokens : Nat) {m : AienKvManager}, m.Blank →
    (assignBlocks n tokens m).Ends True (fun _ m' => m'.Blank) (fun _ m' => m'.Blank)
  | 0, _, _, h => h
  | n + 1, tokens, m, h => by
    unfold assignBlocks
    rw [ends_bind]
    refine (allocateBlock_blank h).mono ?_ (fun _ _ h' => h')
    rintro b m1 ⟨h1, hone, hb⟩
    rw [ends_bind, ends_get, ends_bind, ends_updateBlock hb, ends_bind]
    refine (assignBlocks_blank n _ (h1.held rfl ?_)).mono (fun _ _ h' => h') (fun _ _ h' => h')
    rw [hone]
    exact Nat.one_ne_zero

theorem allocateSequence_blank (id : UInt64) (prompt : List UInt32) :
    Within StaysBlank (allocateSequence id prompt) := by
  unfold allocateSequence
  refine within_get fun m => ?_
  cases m.sequenceTables.lookup id with
  | some t => exact fun h => h
  | none =>
    dsimp only
    rw [ends_bind]
    unfold divCeil
    split_ifs
    · exact trivial
    · rw [ends_pure]
      split_ifs
      · exact fun h => h
      · by_cases hm : m.Blank
        · rw [ends_bind]
          exact (assignBlocks_blank _ _ hm).mono (fun _ _ h _ => h.of_blocks rfl) (fun _ _ h _ => h)
        · exact Outcome.Ends.any (fun _ _ h => absurd h hm) fun _ _ h => absurd h hm

theorem grow_blank (h : m.Blank) {f : BlockId → BlockTable → BlockTable} {g : KvBlock → KvBlock}
    (hg : ∀ blk, (g blk).refCount = blk.refCount) :
    Outcome.Ends True (fun _ m' => m'.Blank) (fun _ m' => m'.Blank) ((do
      let newBlk ← allocateBlock
      updateTable id (f newBlk)
      updateBlock newBlk g
      pure (newBlk, 0, none) : Prog AienKvManager String (BlockId × Nat × Option Fence)) m) := by
  rw [ends_bind]
  refine (allocateBlock_blank h).mono ?_ (fun _ _ h' => h')
  rintro b m1 ⟨h1, hone, hb⟩
  rw [ends_bind]
  unfold updateTable
  rw [ends_bind, ends_get, ends_bind]
  cases m1.sequenceTables.lookup id with
  | none => exact trivial
  | some t =>
    rw [ends_unwrap_some, ends_set, ends_bind, ends_updateBlock (by exact hb)]
    refine h1.held rfl ?_
    rw [hg, hone]
    exact Nat.one_ne_zero

theorem replaceTail_blank (h : m.Blank) {i : Nat} {last b : BlockId} (hbl : last ≠ b)
    (hlast : 1 < (m.blocks last).refCount) (hb : (m.blocks b).refCount = 1) :
    (replaceTail id i last b m).Ends True (fun _ m' => m'.Blank) (fun _ m' => m'.Blank) := by
  unfold replaceTail
  rw [ends_bind]
  refine ends_block_any ?_
  rw [if_neg (by omega), ends_bind]
  refine ends_updateBlock_any ?_
  rw [ends_bind]
  refine ends_updateBlock_any ?_
  have hold : Blank { m with blocks := Function.update m.blocks last { m.blocks last with
      refCount := (m.blocks last).refCount - 1
      isShared := if (m.blocks last).refCount - 1 = 1 then false else (m.blocks last).isShared } } :=
    h.held rfl (Nat.sub_ne_zero_of_lt hlast)
  refine ends_of_stays (within_bind (updateTable_blank id _) fun _ => within_pure _) (hold.held rfl ?_)
  show (Function.update m.blocks last _ b).refCount ≠ 0
  rw [Function.update_of_ne hbl.symm, hb]
  exact Nat.one_ne_zero

theorem appendWith_blank {can : Prop} {copy : BlockId → BlockId → Prog AienKvManager String (Option Fence)}
    (hcopy : CopyLeaves can True copy) (ha : Accounts [] m) (h : m.Blank) (id : UInt64) :
    (appendWith copy id m).Ends True (fun _ m' => m'.Blank) (fun _ m' => m'.Blank) := by
  unfold appendWith
  rw [ends_bind, ends_get, ends_bind]
  cases ht : m.sequenceTables.lookup id with
  | none => exact h
  | some t =>
    rw [ends_orFail_some]
    cases hlast : t.blockIds.getLast? with
    | none => exact grow_blank h fun _ => rfl
    | some last =>
      have hlive : m.Live last := ha.live_of_table ht (List.mem_of_getLast? hlast)
      have hlr := ha.range last hlive
      have hne : (m.blocks last).refCount ≠ 0 := Nat.pos_iff_ne_zero.1 hlive
      dsimp only
      rw [ends_bind, ends_block hlr]
      split_ifs with hsh hroom hroom
      · have hrefs := (ha.shared last).1 hsh
        rw [ends_bind]
        refine ((allocateBlock_ends ha (Or.inl trivial)).and (allocateBlock_blank h)).mono ?_ (fun _ _ h' => h'.2)
        rintro b m1 ⟨⟨-, -, hf1, hk1, hb1, -⟩, hblank1, hone, hb⟩
        have hbl : last ≠ b := by
          rintro rfl
          have := ((ha.free last).1 (by rw [hf1]; exact List.mem_cons_self)).2
          exact hne this
        have hlr1 : last < m1.totalBlocks := by rw [hk1.total]; exact hlr
        rw [ends_bind]
        refine (hcopy m1 last b hlr1 hb (Or.inl trivial)).mono ?_ ?_
        · rintro fence m2 ⟨-, -, hb2, -⟩
          have hlast2 : (m2.blocks last).refCount = (m.blocks last).refCount := by
            rw [hb2, hb1, Function.update_of_ne hbl]
          have hone2 : (m2.blocks b).refCount = 1 := by rw [hb2, hone]
          have hblank2 : m2.Blank := hblank1.of_blocks hb2
          rw [ends_bind]
          refine (replaceTail_blank hblank2 hbl (by omega) hone2).mono (fun _ _ h' => h') (fun _ _ h' => h')
        · -- the block of a failed copy goes back as it came
          rintro _ m2 ⟨-, -, hb2, -, -⟩
          refine hblank1.update hb2 fun _ => ?_
          show (m1.blocks b).numTokens = 0
          rw [hb1, Function.update_self]
      · exact grow_blank h fun _ => rfl
      · rw [ends_bind, ends_updateBlock hlr]
        exact ends_of_stays (within_bind (updateTable_blank id _) fun _ => within_pure _) (h.held rfl hne)
      · exact grow_blank h fun _ => rfl

theorem dropBlock_blank (b : BlockId) : Within StaysBlank (dropBlock b : Prog AienKvManager ε Unit) :=
  within_bind (updateBlock_blank b fun _ _ _ => rfl) fun _ => within_modify fun _ h => h.of_blocks rfl

theorem dropCached_blank (freed : List BlockId) : Within StaysBlank (dropCached freed : Prog AienKvManager ε Unit) := by
  unfold dropCached
  split_ifs
  · exact within_pure ()
  · exact within_modify fun _ h => h.of_blocks rfl

theorem truncateSequence_blank (ha : Accounts [] m) (h : m.Blank) (id : UInt64) (newTotal : Nat) :
    (truncateSequence id newTotal m).Ends True (fun _ m' => m'.Blank) (fun _ m' => m'.Blank) := by
  unfold truncateSequence
  rw [ends_bind, ends_get, ends_bind]
  cases ht : m.sequenceTables.lookup id with
  | none => exact h
  | some t =>
    rw [ends_orFail_some]
    split_ifs
    · exact h
    · exact h
    · have hrest : ∀ {kept freed : List BlockId} {keep n : Nat}, (∀ b ∈ kept, m.Live b) →
          Outcome.Ends True (fun _ m' => m'.Blank) (fun _ m' => m'.Blank) ((do
            shrinkTail kept keep n
            updateTable id fun t => { t with blockIds := kept, totalTokens := newTotal }
            freed.forM dropBlock
            dropCached freed : Prog AienKvManager String Unit) m) := by
        intro kept freed keep n hkept
        have htail : Within StaysBlank (do
            updateTable id fun t => { t with blockIds := kept, totalTokens := newTotal }
            freed.forM dropBlock
            dropCached freed : Prog AienKvManager String Unit) :=
          within_bind (updateTable_blank id _) fun _ => within_bind (within_forM dropBlock_blank freed) fun _ =>
            dropCached_blank freed
        unfold shrinkTail
        rw [ends_bind]
        split_ifs
        · rw [ends_bind]
          cases htl : kept[keep - 1]? with
          | none => exact trivial
          | some b =>
            have hlive := hkept b (List.mem_of_getElem? htl)
            rw [ends_unwrap_some, ends_updateBlock (ha.range b hlive)]
            exact ends_of_stays htail (h.held rfl (Nat.pos_iff_ne_zero.1 hlive))
        · exact ends_of_stays htail h
      dsimp only
      rw [ends_bind]
      refine ends_divCeil_any fun keep => ?_
      rw [ends_bind]
      refine (forM_checkPrivate_ends fun b hb => ha.range b (ha.live_of_table ht (List.mem_of_mem_drop hb))).mono ?_ ?_
      · rintro _ m' ⟨rfl, -⟩
        exact hrest fun b hb => ha.live_of_table ht (List.mem_of_mem_take hb)
      · rintro _ m' rfl
        exact h

theorem markPrefillPending_blank (id : UInt64) : Within StaysBlank (markPrefillPending id) := by
  unfold markPrefillPending
  refine within_get fun m => ?_
  cases m.sequenceTables.lookup id with
  | none => exact fun h => h
  | some t =>
    rw [ends_bind, ends_orFail_some]
    split_ifs
    · exact fun h => h
    · exact updateTable_blank id _ m

theorem completePrefill_blank (id : UInt64) : Within StaysBlank (completePrefill id) := by
  unfold completePrefill
  refine within_get fun m => ?_
  cases m.sequenceTables.lookup id with
  | none => exact fun h => h
  | some t =>
    rw [ends_bind, ends_orFail_some]
    cases t.prefillState with
    | prefillPending => exact updateTable_blank id _ m
    | prefillReady => exact fun h => h
    | sharedFrozen => exact fun h => h
    | allocated => exact fun h => h

def Refuses {α : Type} (x : Prog AienKvManager ε α) (m : AienKvManager) : Prop :=
  ∀ e m', x m = .err e m' → Unchanged m m'

theorem refuses_of_ends {α : Type} {x : Prog AienKvManager ε α} {N : Prop} {Q : α → AienKvManager → Prop}
    (h : (x m).Ends N Q fun _ m' => Unchanged m m') : Refuses x m := by
  intro e m' hx
  rw [hx] at h
  exact h

theorem refuses_of_eq {α : Type} {x : Prog AienKvManager ε α} {N : Prop} {Q : α → AienKvManager → Prop}
    (h : (x m).Ends N Q fun _ m' => m' = m) : Refuses x m :=
  refuses_of_ends (h.mono (fun _ _ hq => hq) fun _ m' he => by rw [he]; exact Unchanged.refl m)

theorem forkPrefilled_refuses (ha : Accounts [] m) (parent child : UInt64) : Refuses (forkPrefilled parent child) m := by
  refine refuses_of_eq (N := False) (Q := fun _ _ => True) ?_
  unfold forkPrefilled
  rw [ends_bind, ends_get, ends_bind]
  cases m.prefillState parent with
  | none => rfl
  | some state =>
    rw [ends_orFail_some]
    split_ifs
    · rw [ends_mapErr]
      exact (forkSequence_ends ha parent child).mono (fun _ _ _ => trivial) fun _ _ he => he.1
    · rfl

/-- Every call that may refuse. -/
structure AllRefuse (m : AienKvManager) : Prop where
  allocate : ∀ s p, Refuses (allocateSequence s p) m
  fork : ∀ p c, Refuses (forkSequence p c) m
  forkPrefilled : ∀ p c, Refuses (AienKvManager.forkPrefilled p c) m
  forkRange : ∀ p i n c, Refuses (AienKvManager.forkRange p i n c) m
  assemble : ∀ s hs policy, Refuses (assembleTable s hs policy) m
  adopt : ∀ h s, Refuses (adoptTable h s) m
  append : ∀ s, Refuses (appendTokenWithSlot s) m
  appendDevice : ∀ d s, Refuses (appendTokenWithSlotDevice d s) m
  truncate : ∀ s n, Refuses (truncateSequence s n) m
  free : ∀ s, Refuses (freeSequence s) m

theorem allRefuse {N : Prop} (hi : Inv m) (hN : Covers N m) (hblank : m.Blank) : AllRefuse m where
  allocate s p := refuses_of_eq ((allocateSequence_ends hi.accounts hN hi.size s p).mono (fun _ _ h => h) fun _ _ h => h.1)
  fork p c := refuses_of_eq (N := False) ((forkSequence_ends hi.accounts p c).mono (fun _ _ h => h) fun _ _ h => h.1)
  forkPrefilled p c := forkPrefilled_refuses hi.accounts p c
  forkRange p i n c := refuses_of_eq (N := False) (forkRange_ends hi.accounts p i n c)
  assemble s hs policy := refuses_of_eq (N := False) (assembleTable_ends hi.accounts s hs policy)
  adopt h s := refuses_of_eq (N := False) (adoptTable_ends hi.accounts h s)
  append s := by
    refine refuses_of_ends (N := N) (Q := fun _ _ => True) ?_
    unfold appendTokenWithSlot
    rw [ends_bind]
    exact (appendWith_leaves copyOnHost_leaves hi hN (fun hf => hf.elim) s).mono (fun _ _ _ => trivial) fun _ _ h => h
  appendDevice d s := refuses_of_ends (appendWith_leaves (copyOnDevice_leaves d) hi hN (fun _ => hblank) s)
  truncate s n := refuses_of_eq (N := False) (truncateSequence_ends hi.accounts hi.size (fun _ _ hv => hi.keep_le hv) n)
  free s := refuses_of_eq (N := False) ((freeSequence_ends hi.accounts s).mono (fun _ _ h => h) fun _ _ h => h.1)

end AienKvManager

/-! ## Runs -/

namespace World

/-- No free block has tokens, and none had when a reservation that is still open was made. -/
structure Clear (w : World) : Prop where
  blank : w.manager.Blank
  snapshots : ∀ r ∈ w.reservations, ∀ tx s, r.tx = some tx → tx.snapshot = some s →
    ∀ b, (s.blocks b).refCount = 0 → (s.blocks b).numTokens = 0

variable {N : Prop} {total bs : Nat} {w w' : World}

theorem Clear.after {ε α : Type} (hw : w.Clear) {rs : List TokenReservation} (hrs : ∀ r ∈ rs, r ∈ w.reservations)
    {o : Outcome ε AienKvManager α} (ho : o.Ends True (fun _ m' => m'.Blank) (fun _ m' => m'.Blank))
    (h : World.after { w with reservations := rs } o = some w') : w'.Clear := by
  obtain ⟨m', hm', rfl⟩ := Option.map_eq_some_iff.1 h
  exact ⟨ho.state.1 m' hm', fun r hr => hw.snapshots r (hrs r hr)⟩

theorem reserveToken_blank {m : AienKvManager} (ha : Accounts [] m) (h : m.Blank) (id : UInt64) :
    (AienKvManager.reserveToken id m).Ends True (fun r m' => m'.Blank ∧ r.tx = some m.beginTransaction)
      (fun _ m' => m'.Blank) := by
  unfold AienKvManager.reserveToken AienKvManager.appendTokenWithSlot
  rw [ends_bind, ends_get, ends_bind, ends_bind]
  exact (appendWith_blank copyOnHost_leaves ha h id).mono (fun _ _ hb => ⟨hb, rfl⟩) fun _ _ hb => hb

theorem rollback_blank (hw : w.Clear) {r : TokenReservation} (hr : r ∈ w.reservations) :
    (AienKvManager.rollback r w.manager).Ends True (fun _ m' => m'.Blank) (fun _ m' => m'.Blank) := by
  unfold AienKvManager.rollback
  cases htx : r.tx with
  | none =>
    exact ends_of_stays (within_get fun m => by
      cases m.sequenceTables.lookup r.seqId with
      | none => exact fun h => h
      | some t => exact updateTable_blank r.seqId _ m) hw.blank
  | some tx =>
    dsimp only
    unfold rollbackTransaction
    split_ifs
    · exact hw.blank
    · cases hs : tx.snapshot with
      | none => exact hw.blank
      | some s => exact hw.snapshots r hr tx s htx hs

theorem step_clear (hs : Sound N total bs w) (hw : w.Clear) (op : KvOp) (h : w.step op = some w') : w'.Clear := by
  have ha := hs.inv.accounts
  have hid : ∀ r ∈ w.reservations, r ∈ w.reservations := fun _ h => h
  cases op with
  | allocateSequence s p => exact hw.after hid (ends_of_stays (allocateSequence_blank s p) hw.blank) h
  | forkSequence p c => exact hw.after hid (ends_of_stays (forkSequence_blank p c) hw.blank) h
  | forkPrefilled p c => exact hw.after hid (ends_of_stays (forkPrefilled_blank p c) hw.blank) h
  | forkRange p f n c => exact hw.after hid (ends_of_stays (forkRange_blank p f n c) hw.blank) h
  | assembleTable s hs policy => exact hw.after hid (ends_of_stays (assembleTable_blank s hs policy) hw.blank) h
  | adoptTable holder s => exact hw.after hid (ends_of_stays (adoptTable_blank holder s) hw.blank) h
  | appendTokenWithSlot s =>
    refine hw.after hid (o := AienKvManager.appendTokenWithSlot s w.manager) ?_ h
    unfold AienKvManager.appendTokenWithSlot
    rw [ends_bind]
    exact (appendWith_blank copyOnHost_leaves ha hw.blank s).mono (fun _ _ hb => hb) fun _ _ hb => hb
  | appendTokenWithSlotDevice d s =>
    exact hw.after hid (appendWith_blank (copyOnDevice_leaves d) ha hw.blank s) h
  | truncateSequence s n => exact hw.after hid (truncateSequence_blank ha hw.blank s n) h
  | freeSequence s => exact hw.after hid (ends_of_stays (freeSequence_blank s) hw.blank) h
  | markPrefillPending s => exact hw.after hid (ends_of_stays (markPrefillPending_blank s) hw.blank) h
  | completePrefill s => exact hw.after hid (ends_of_stays (completePrefill_blank s) hw.blank) h
  | reserveToken s =>
    have hr := reserveToken_blank ha hw.blank s
    simp only [step] at h
    cases ho : AienKvManager.reserveToken s w.manager with
    | panic =>
      rw [ho] at h
      cases h
    | err e m' =>
      rw [ho] at h hr
      cases h
      exact ⟨hr, hw.snapshots⟩
    | ok r m' =>
      rw [ho] at h hr
      cases h
      refine ⟨hr.1, fun r' hr' => ?_⟩
      rcases List.mem_append.1 hr' with hr' | hr'
      · exact hw.snapshots r' hr'
      · obtain rfl := List.mem_singleton.1 hr'
        intro tx snap htx hsnap
        obtain rfl : w.manager.beginTransaction = tx := Option.some.inj (hr.2.symm.trans htx)
        obtain rfl := Option.some.inj hsnap
        exact hw.blank
  | commit i =>
    simp only [step] at h
    cases hr : w.reservations[i]? with
    | none =>
      rw [hr] at h
      cases h
      exact hw
    | some r =>
      rw [hr] at h
      exact hw.after (fun _ => List.mem_of_mem_eraseIdx) (o := AienKvManager.commit r w.manager) hw.blank h
  | rollback i =>
    simp only [step] at h
    cases hr : w.reservations[i]? with
    | none =>
      rw [hr] at h
      cases h
      exact hw
    | some r =>
      rw [hr] at h
      exact hw.after (fun _ => List.mem_of_mem_eraseIdx) (rollback_blank hw (List.mem_of_getElem? hr)) h

theorem run_clear : ∀ (ops : List KvOp) {w w' : World}, Sound N total bs w → w.Clear → w.run ops = some w' → w'.Clear
  | [], _, _, _, hw, h => Option.some.inj h ▸ hw
  | op :: ops, w, w', hs, hw, h => by
    unfold run at h
    rw [List.foldlM_cons] at h
    obtain ⟨w1, h1, hrest⟩ := Option.bind_eq_some_iff.1 h
    exact run_clear ops ((step_sound hs op).1 w1 h1) (step_clear hs hw op h1) hrest

end World

/-! ## A block size of zero -/

namespace AienKvManager
variable {ε α : Type} {m : AienKvManager}

def Stuck (x : Prog AienKvManager ε α) (m : AienKvManager) : Prop :=
  (x m).Ends True (fun _ _ => False) (fun _ m' => m' = m)

/-- A manager with blocks of no tokens, before its first sequence. -/
structure Idle (m : AienKvManager) : Prop where
  none : ∀ id, m.sequenceTables.lookup id = none
  size : m.blockSize = 0

theorem Idle.allocate (hm : m.Idle) (s : UInt64) (p : List UInt32) : Stuck (allocateSequence s p) m := by
  unfold Stuck allocateSequence divCeil
  simp [hm.none, hm.size]

theorem Idle.lookup (hm : m.Idle) (id : UInt64) (e : ε) (f : BlockTable → Prog AienKvManager ε α) :
    Outcome.Ends True (fun _ _ => False) (fun _ m' => m' = m) ((orFail (m.sequenceTables.lookup id) e >>= f) m) := by
  rw [ends_bind, hm.none]
  rfl

theorem Idle.forkSequence (hm : m.Idle) (p c : UInt64) : Stuck (forkSequence p c) m := hm.lookup p _ _

theorem Idle.forkPrefilled (hm : m.Idle) (p c : UInt64) : Stuck (forkPrefilled p c) m := by
  unfold Stuck AienKvManager.forkPrefilled prefillState
  simp [hm.none]

theorem Idle.forkRange (hm : m.Idle) (p : UInt64) (i n : Nat) (c : UInt64) : Stuck (forkRange p i n c) m := by
  unfold Stuck AienKvManager.forkRange
  rw [ends_bind, ends_get]
  split_ifs
  · rfl
  · rfl
  · rfl
  · exact hm.lookup p _ _

theorem Idle.assemble (hm : m.Idle) (s : UInt64) (hs : List UInt64) (policy : SuffixPolicy) :
    Stuck (assembleTable s hs policy) m := by
  unfold Stuck assembleTable
  rw [ends_bind, ends_get]
  split_ifs with h1 h2 h3
  · rfl
  · rfl
  · rfl
  · cases hs with
    | nil => exact absurd rfl h3
    | cons h rest =>
      have hcollect : ∃ e, m.collectHolders policy (h :: rest) [] 0 = .error e := by
        unfold collectHolders
        rw [hm.none]
        split_ifs
        · exact ⟨_, rfl⟩
        · exact ⟨_, rfl⟩
      obtain ⟨e, he⟩ := hcollect
      rw [he]
      rfl

theorem Idle.adopt (hm : m.Idle) (h s : UInt64) : Stuck (adoptTable h s) m := by
  unfold Stuck adoptTable
  rw [ends_bind, ends_get]
  split_ifs
  · rfl
  · rfl
  · rfl
  · exact hm.lookup h _ _

theorem Idle.append (hm : m.Idle) (s : UInt64) : Stuck (appendTokenWithSlot s) m := by
  unfold Stuck appendTokenWithSlot
  rw [ends_bind]
  exact (hm.lookup s _ _).mono (fun _ _ h => h.elim) fun _ _ h => h

theorem Idle.reserve (hm : m.Idle) (s : UInt64) : Stuck (reserveToken s) m := by
  unfold Stuck reserveToken
  rw [ends_bind, ends_get, ends_bind]
  exact (hm.append s).mono (fun _ _ h => h.elim) fun _ _ h => h

theorem Stuck.refuses {x : Prog AienKvManager ε α} (h : Stuck x m) : Refuses x m := refuses_of_eq h

theorem Idle.allRefuse (hm : m.Idle) : AllRefuse m where
  allocate s p := (hm.allocate s p).refuses
  fork p c := (hm.forkSequence p c).refuses
  forkPrefilled p c := (hm.forkPrefilled p c).refuses
  forkRange p i n c := (hm.forkRange p i n c).refuses
  assemble s hs policy := (hm.assemble s hs policy).refuses
  adopt h s := (hm.adopt h s).refuses
  append s := (hm.append s).refuses
  appendDevice d s := (show Stuck (appendTokenWithSlotDevice d s) m from hm.lookup s _ _).refuses
  truncate s n := (show Stuck (truncateSequence s n) m from hm.lookup s _ _).refuses
  free s := (show Stuck (freeSequence s) m from hm.lookup s _ _).refuses

end AienKvManager

namespace World
variable {w w' : World}

/-- Blocks of no tokens and nothing reserved. -/
structure Unused (w : World) : Prop where
  idle : w.manager.Idle
  reservations : w.reservations = []

theorem Unused.after {ε α : Type} (hw : w.Unused) {x : Prog AienKvManager ε α} (hx : Stuck x w.manager)
    (h : w.after (x w.manager) = some w') : w'.Unused := by
  obtain ⟨m', hm', rfl⟩ := Option.map_eq_some_iff.1 h
  unfold Stuck at hx
  have heq : m' = w.manager := (hx.mono (fun _ _ hf => hf.elim) fun _ _ he => he).state.1 m' hm'
  exact ⟨heq ▸ hw.idle, hw.reservations⟩

theorem step_unused (hw : w.Unused) (op : KvOp) (h : w.step op = some w') : w'.Unused := by
  have hm := hw.idle
  cases op with
  | allocateSequence s p => exact hw.after (hm.allocate s p) h
  | forkSequence p c => exact hw.after (hm.forkSequence p c) h
  | forkPrefilled p c => exact hw.after (hm.forkPrefilled p c) h
  | forkRange p f n c => exact hw.after (hm.forkRange p f n c) h
  | assembleTable s hs policy => exact hw.after (hm.assemble s hs policy) h
  | adoptTable holder s => exact hw.after (hm.adopt holder s) h
  | appendTokenWithSlot s => exact hw.after (hm.append s) h
  | appendTokenWithSlotDevice d s => exact hw.after (x := appendTokenWithSlotDevice d s) (hm.lookup s _ _) h
  | truncateSequence s n => exact hw.after (x := truncateSequence s n) (hm.lookup s _ _) h
  | freeSequence s => exact hw.after (x := freeSequence s) (hm.lookup s _ _) h
  | markPrefillPending s => exact hw.after (x := markPrefillPending s) (hm.lookup s _ _) h
  | completePrefill s => exact hw.after (x := completePrefill s) (hm.lookup s _ _) h
  | reserveToken s =>
    have hr := hm.reserve s
    unfold Stuck at hr
    simp only [step] at h
    cases ho : AienKvManager.reserveToken s w.manager with
    | panic =>
      rw [ho] at h
      cases h
    | err e m' =>
      rw [ho] at h hr
      cases h
      exact ⟨(show m' = w.manager from hr) ▸ hm, hw.reservations⟩
    | ok r m' =>
      rw [ho] at hr
      exact hr.elim
  | commit i =>
    simp only [step, hw.reservations, List.getElem?_nil] at h
    cases h
    exact hw
  | rollback i =>
    simp only [step, hw.reservations, List.getElem?_nil] at h
    cases h
    exact hw

theorem run_unused : ∀ (ops : List KvOp) {w w' : World}, w.Unused → w.run ops = some w' → w'.Unused
  | [], _, _, hw, h => Option.some.inj h ▸ hw
  | op :: ops, w, w', hw, h => by
    unfold run at h
    rw [List.foldlM_cons] at h
    obtain ⟨w1, h1, hrest⟩ := Option.bind_eq_some_iff.1 h
    exact run_unused ops (step_unused hw op h1) hrest

end World

/-- **Refusals change nothing.** After any calls on a new manager, a call that returns an error leaves the free list in
its order, every block, every table and the fault count as they were. -/
theorem refusals_change_nothing (total bs : Nat) (pool : Option UnifiedKvTensorPool) (ops : List KvOp) (w : World)
    (hrun : (World.init total bs pool).run ops = some w) : AllRefuse w.manager := by
  rcases Nat.eq_zero_or_pos bs with rfl | hbs
  · exact (World.run_unused ops ⟨⟨fun _ => rfl, rfl⟩, rfl⟩ hrun).idle.allRefuse
  · have hw := (World.run_init total bs hbs pool ops).1 w hrun
    have hclear : (World.init total bs pool).Clear := ⟨fun _ _ => rfl, fun _ hr => by cases hr⟩
    have hsound : World.Sound True total bs (World.init total bs pool) := World.Sound.init hbs pool (Or.inl trivial)
    exact AienKvManager.allRefuse hw.inv hw.covers (World.run_clear ops hsound hclear hrun).blank

/-- A fork appends on a device that refuses the copy of the shared tail: the new block is free again, on top. -/
theorem refusals_change_nothing_device : ∃ p w m', (World.init 4 2 (some p)).run
    [.allocateSequence 1 [7, 8, 9], .forkSequence 1 2] = some w ∧
    appendTokenWithSlotDevice ⟨fun _ _ mem => (.error .deviceUnavailable, mem)⟩ 2 w.manager =
      .err "copy_block_device failed: DeviceUnavailable" m' ∧ Unchanged w.manager m' := by
  let c : KvPoolConfig := { numBlocks := 4, blockSize := 2, numLayers := 1, numKvHeads := 1, headDim := 1, dtype := .bf16 }
  obtain ⟨l, hl⟩ : ∃ l, KvLayout.fromConfig c = .ok l := ⟨_, rfl⟩
  let p : UnifiedKvTensorPool := ⟨c, l, ⟨l.totalBytes, 0, fun _ => 0⟩, hl, Nat.le_refl _⟩
  have hmsg : ((World.init 4 2 (some p)).run [.allocateSequence 1 [7, 8, 9], .forkSequence 1 2]).map
      (fun w => match appendTokenWithSlotDevice ⟨fun _ _ mem => (.error .deviceUnavailable, mem)⟩ 2 w.manager with
        | .err e _ => some e
        | _ => none) = some (some "copy_block_device failed: DeviceUnavailable") := by
    cases hl
    decide +kernel
  obtain ⟨w, hw, he⟩ := Option.map_eq_some_iff.1 hmsg
  refine ⟨p, w, ?_⟩
  split at he
  · next e m' hcall =>
    obtain rfl := Option.some.inj he
    exact ⟨m', hw, hcall, (refusals_change_nothing 4 2 (some p) _ w hw).appendDevice _ _ _ _ hcall⟩
  · cases he

end SovereignCore.Kv
