import Mathlib
import SovereignCore.Kv.Shape

/-!
# Runs of the manager

The manager and the reservations that are still open, under any sequence of calls.

* `KvOp`, `World.step`, `World.run` : the calls; a commit or a rollback names an open reservation; `none` is a panic;
* `World.Sound` : the invariant, which a snapshot carries too;
* `World.step_sound`, `World.run_sound` : one call and a whole run keep it;
* `refcounts_balanced` : the accounts of every reachable manager;
* `tables_filled` : the shape of every reachable table, and where an append and a cut land.
-/

namespace SovereignCore.Kv

open AienKvManager Prog

/-- A call of the manager. -/
inductive KvOp where
  | allocateSequence (seqId : UInt64) (promptTokens : List UInt32)
  | forkSequence (parentId childId : UInt64)
  | forkPrefilled (parentId childId : UInt64)
  | forkRange (parentId : UInt64) (firstBlock nBlocks : Nat) (childId : UInt64)
  | assembleTable (seq : UInt64) (holders : List UInt64) (suffixPolicy : SuffixPolicy)
  | adoptTable (holder seq : UInt64)
  | appendTokenWithSlot (seqId : UInt64)
  | appendTokenWithSlotDevice (device : MemoryDevice) (seqId : UInt64)
  | truncateSequence (seqId : UInt64) (newTotal : Nat)
  | freeSequence (seqId : UInt64)
  | markPrefillPending (seqId : UInt64)
  | completePrefill (seqId : UInt64)
  | reserveToken (seqId : UInt64)
  | commit (index : Nat)
  | rollback (index : Nat)

/-- The manager and the reservations its callers hold. -/
structure World where
  manager : AienKvManager
  reservations : List TokenReservation

namespace World

def after {ε α : Type} (w : World) (o : Outcome ε AienKvManager α) : Option World :=
  o.state?.map fun m => { w with manager := m }

def step (w : World) : KvOp → Option World
  | .allocateSequence s p => w.after (AienKvManager.allocateSequence s p w.manager)
  | .forkSequence p c => w.after (AienKvManager.forkSequence p c w.manager)
  | .forkPrefilled p c => w.after (AienKvManager.forkPrefilled p c w.manager)
  | .forkRange p f n c => w.after (AienKvManager.forkRange p f n c w.manager)
  | .assembleTable s hs policy => w.after (AienKvManager.assembleTable s hs policy w.manager)
  | .adoptTable h s => w.after (AienKvManager.adoptTable h s w.manager)
  | .appendTokenWithSlot s => w.after (AienKvManager.appendTokenWithSlot s w.manager)
  | .appendTokenWithSlotDevice d s => w.after (AienKvManager.appendTokenWithSlotDevice d s w.manager)
  | .truncateSequence s n => w.after (AienKvManager.truncateSequence s n w.manager)
  | .freeSequence s => w.after (AienKvManager.freeSequence s w.manager)
  | .markPrefillPending s => w.after (AienKvManager.markPrefillPending s w.manager)
  | .completePrefill s => w.after (AienKvManager.completePrefill s w.manager)
  | .reserveToken s =>
    match AienKvManager.reserveToken s w.manager with
    | .ok r m => some ⟨m, w.reservations ++ [r]⟩
    | .err _ m => some { w with manager := m }
    | .panic => none
  | .commit i =>
    match w.reservations[i]? with
    | none => some w
    | some r => { w with reservations := w.reservations.eraseIdx i }.after (AienKvManager.commit r w.manager)
  | .rollback i =>
    match w.reservations[i]? with
    | none => some w
    | some r => { w with reservations := w.reservations.eraseIdx i }.after (AienKvManager.rollback r w.manager)

def run (w : World) (ops : List KvOp) : Option World := ops.foldlM step w

def init (totalBlocks blockSize : Nat) (pool : Option UnifiedKvTensorPool) : World where
  manager := { AienKvManager.new totalBlocks blockSize with tensorPool := pool }
  reservations := []

/-! ## The invariant -/

/-- A reservation holds the snapshot of a sound manager of this size. -/
def SoundReservation (total bs : Nat) (r : TokenReservation) : Prop :=
  ∃ s, r.tx = some { snapshot := some s, committed := false } ∧
    ∀ m : AienKvManager, m.totalBlocks = total → m.blockSize = bs → Inv (m.restore s)

/-- The invariant of a run; `N` is what a panic may be blamed on. -/
structure Sound (N : Prop) (total bs : Nat) (w : World) : Prop where
  inv : Inv w.manager
  blocks : w.manager.totalBlocks = total
  size : w.manager.blockSize = bs
  covers : Covers N w.manager
  reservations : ∀ r ∈ w.reservations, SoundReservation total bs r

variable {N : Prop} {total bs : Nat} {w w' : World}

theorem Sound.init (hbs : 0 < bs) (pool : Option UnifiedKvTensorPool)
    (hN : N ∨ ∀ p, pool = some p → total ≤ p.config.numBlocks) : Sound N total bs (World.init total bs pool) where
  inv := new_inv total bs hbs pool
  blocks := rfl
  size := rfl
  covers := hN
  reservations := by simp [World.init]

theorem Sound.good (hw : Sound N total bs w) {m' : AienKvManager} (hg : Good w.manager m')
    {rs : List TokenReservation} (hrs : ∀ r ∈ rs, SoundReservation total bs r) : Sound N total bs ⟨m', rs⟩ where
  inv := hg.1
  blocks := hg.2.total.trans hw.blocks
  size := hg.2.size.trans hw.size
  covers := hw.covers.keeps hg.2
  reservations := hrs

theorem Sound.after {ε α : Type} (hw : Sound N total bs w) {rs : List TokenReservation}
    (hrs : ∀ r ∈ rs, SoundReservation total bs r) {o : Outcome ε AienKvManager α}
    (ho : o.Ends N (fun _ m' => Good w.manager m') (fun _ m' => Good w.manager m')) :
    (∀ w', World.after { w with reservations := rs } o = some w' → Sound N total bs w') ∧
      (World.after { w with reservations := rs } o = none → N) := by
  obtain ⟨hsome, hnone⟩ := ho.state
  refine ⟨fun w' hw' => ?_, fun hn => hnone (Option.map_eq_none_iff.1 hn)⟩
  obtain ⟨m', hm', rfl⟩ := Option.map_eq_some_iff.1 hw'
  exact hw.good (hsome m' hm') hrs

theorem reserveToken_ends {m : AienKvManager} (hi : Inv m) (hN : Covers N m) (id : UInt64) :
    (AienKvManager.reserveToken id m).Ends N (fun r m' => Good m m' ∧ r.tx = some m.beginTransaction)
      (fun _ m' => Good m m') := by
  unfold AienKvManager.reserveToken
  rw [ends_bind, ends_get, ends_bind]
  exact (appendTokenWithSlot_good hi hN id).mono (fun _ _ hg => ⟨hg, rfl⟩) (fun _ _ hg => hg)

theorem rollback_ends (hw : Sound N total bs w) {r : TokenReservation} (hr : SoundReservation total bs r) :
    (AienKvManager.rollback r w.manager).Ends N (fun _ m' => Good w.manager m') (fun _ m' => Good w.manager m') := by
  obtain ⟨s, htx, hs⟩ := hr
  unfold AienKvManager.rollback rollbackTransaction
  rw [htx]
  exact ⟨hs w.manager hw.blocks hw.size, rfl, rfl, rfl, fun _ hf => hf.elim, fun hf => hf.elim⟩

/-- **One call** keeps the invariant, and does not panic unless the pool is too small. -/
theorem step_sound (hw : Sound N total bs w) (op : KvOp) :
    (∀ w', w.step op = some w' → Sound N total bs w') ∧ (w.step op = none → N) := by
  have hi := hw.inv
  have herase : ∀ i, ∀ r ∈ w.reservations.eraseIdx i, SoundReservation total bs r :=
    fun i r hr => hw.reservations r (List.mem_of_mem_eraseIdx hr)
  cases op with
  | allocateSequence s p => exact hw.after hw.reservations (allocateSequence_good hi hw.covers s p)
  | forkSequence p c => exact hw.after hw.reservations (forkSequence_good hi p c)
  | forkPrefilled p c => exact hw.after hw.reservations (forkPrefilled_good hi p c)
  | forkRange p f n c => exact hw.after hw.reservations (forkRange_good hi p f n c)
  | assembleTable s hs policy => exact hw.after hw.reservations (assembleTable_good hi s hs policy)
  | adoptTable h s => exact hw.after hw.reservations (adoptTable_good hi h s)
  | appendTokenWithSlot s => exact hw.after hw.reservations (appendTokenWithSlot_good hi hw.covers s)
  | appendTokenWithSlotDevice d s =>
    exact hw.after hw.reservations (appendTokenWithSlotDevice_good d hi hw.covers s)
  | truncateSequence s n => exact hw.after hw.reservations (truncateSequence_good hi s n)
  | freeSequence s => exact hw.after hw.reservations (freeSequence_good hi s)
  | markPrefillPending s =>
    exact hw.after hw.reservations ((markPrefillPending_ends hi s).mono (fun _ _ hq => hq.1)
      (fun _ _ he => by rw [he]; exact Good.refl hi))
  | completePrefill s =>
    exact hw.after hw.reservations ((completePrefill_ends hi s).mono (fun _ _ hq => hq.1)
      (fun _ _ he => by rw [he]; exact Good.refl hi))
  | reserveToken s =>
    have hr := reserveToken_ends (N := N) hi hw.covers s
    simp only [step]
    cases ho : AienKvManager.reserveToken s w.manager with
    | panic =>
      rw [ho] at hr
      exact ⟨fun _ hn => (nomatch hn), fun _ => hr⟩
    | err e m' =>
      rw [ho] at hr
      refine ⟨fun w' hw' => ?_, fun hn => nomatch hn⟩
      cases hw'
      exact hw.good hr hw.reservations
    | ok r m' =>
      rw [ho] at hr
      refine ⟨fun w' hw' => ?_, fun hn => nomatch hn⟩
      cases hw'
      refine hw.good hr.1 fun r' hr' => ?_
      rcases List.mem_append.1 hr' with hr' | hr'
      · exact hw.reservations r' hr'
      · obtain rfl := List.mem_singleton.1 hr'
        exact ⟨_, hr.2, fun m ht hb => restore_inv hi rfl (ht.trans hw.blocks.symm) (hb.trans hw.size.symm)⟩
  | commit i =>
    simp only [step]
    cases hr : w.reservations[i]? with
    | none => exact ⟨fun w' hw' => Option.some.inj hw' ▸ hw, fun hn => nomatch hn⟩
    | some r => exact hw.after (herase i) (Good.refl hi)
  | rollback i =>
    simp only [step]
    cases hr : w.reservations[i]? with
    | none => exact ⟨fun w' hw' => Option.some.inj hw' ▸ hw, fun hn => nomatch hn⟩
    | some r => exact hw.after (herase i) (rollback_ends hw (hw.reservations r (List.mem_of_getElem? hr)))

theorem run_sound : ∀ (ops : List KvOp) {w : World}, Sound N total bs w →
    (∀ w', w.run ops = some w' → Sound N total bs w') ∧ (w.run ops = none → N)
  | [], _, hw => ⟨fun _ hw' => Option.some.inj hw' ▸ hw, fun hn => nomatch hn⟩
  | op :: ops, w, hw => by
    obtain ⟨hsome, hnone⟩ := step_sound hw op
    unfold run
    rw [List.foldlM_cons]
    cases hs : w.step op with
    | none => exact ⟨fun _ hn => (nomatch hn), fun _ => hnone hs⟩
    | some w1 => exact run_sound ops (hsome w1 hs)

end World

/-! ## Accounts and shape of every reachable manager -/

theorem World.run_init (total bs : Nat) (hbs : 1 ≤ bs) (pool : Option UnifiedKvTensorPool) (ops : List KvOp) :
    (∀ w, (World.init total bs pool).run ops = some w →
      World.Sound (∃ p, pool = some p ∧ p.config.numBlocks < total) total bs w) ∧
    ((World.init total bs pool).run ops = none → ∃ p, pool = some p ∧ p.config.numBlocks < total) := by
  apply World.run_sound
  apply World.Sound.init hbs pool
  by_cases h : ∃ p, pool = some p ∧ p.config.numBlocks < total
  · exact Or.inl h
  · exact Or.inr fun p hp => Nat.le_of_not_lt fun hlt => h ⟨p, hp, hlt⟩

/-- **Reference counts.** After any calls on a new manager, with any arguments and whatever each returned: a block's
count is the number of times the tables list it, no table lists a block twice, a block is marked shared exactly when
its count is above one, and the free list has each block of count zero once. A run ends early, in a panic, only on a
pool with fewer blocks than the manager. -/
theorem refcounts_balanced (total bs : Nat) (hbs : 1 ≤ bs) (pool : Option UnifiedKvTensorPool) (ops : List KvOp) :
    (∀ w, (World.init total bs pool).run ops = some w →
      (∀ b, (w.manager.blocks b).refCount = w.manager.tableRefs b) ∧
      (∀ id t, w.manager.sequenceTables.lookup id = some t →
        t.blockIds.Nodup ∧ ∀ b ∈ t.blockIds, b < total) ∧
      (∀ b, (w.manager.blocks b).isShared = true ↔ 1 < (w.manager.blocks b).refCount) ∧
      w.manager.freeBlocks.Nodup ∧
      ∀ b, b ∈ w.manager.freeBlocks ↔ b < total ∧ (w.manager.blocks b).refCount = 0) ∧
    ((World.init total bs pool).run ops = none → ∃ p, pool = some p ∧ p.config.numBlocks < total) := by
  obtain ⟨hsome, hnone⟩ := World.run_init total bs hbs pool ops
  refine ⟨fun w hr => ?_, hnone⟩
  have hw := hsome w hr
  have ha := hw.inv.accounts
  refine ⟨ha.refs, fun id t ht => ⟨ha.nodup id t ht, fun b hb => ?_⟩, ha.shared, ha.freeNodup, fun b => ?_⟩
  · have := ha.range b (ha.live_of_table ht hb)
    rwa [hw.blocks] at this
  · rw [ha.free b, hw.blocks]

/-- A fork of a sequence of two blocks: both blocks are counted twice. -/
theorem refcounts_balanced_fork : 1 ≤ 2 ∧
    ∃ w, (World.init 4 2 none).run [.allocateSequence 1 [7, 8, 9], .forkSequence 1 2] = some w ∧
      w.manager.tableRefs 0 = 2 ∧ (w.manager.blocks 0).refCount = 2 := by
  refine ⟨by decide, ?_⟩
  have h := refcounts_balanced 4 2 (by decide) none [.allocateSequence 1 [7, 8, 9], .forkSequence 1 2]
  have href : ((World.init 4 2 none).run [.allocateSequence 1 [7, 8, 9], .forkSequence 1 2]).map
      (fun w => w.manager.tableRefs 0) = some 2 := by decide +kernel
  obtain ⟨w, hw, hrefs⟩ := Option.map_eq_some_iff.1 href
  exact ⟨w, hw, hrefs, ((h.1 w hw).1 0).trans hrefs⟩

section Shape
variable {m : AienKvManager} {id : UInt64} {t : BlockTable}

theorem Inv.table_counts (hi : Inv m) (ht : m.sequenceTables.lookup id = some t) :
    t.blockIds.length = t.totalTokens ⌈/⌉ m.blockSize ∧
    (∀ i b, i + 1 < t.blockIds.length → t.blockIds[i]? = some b → (m.blocks b).numTokens = m.blockSize) ∧
    ∀ b, t.blockIds.getLast? = some b →
      (m.blocks b).numTokens = t.totalTokens - m.blockSize * (t.blockIds.length - 1) ∧
        1 ≤ (m.blocks b).numTokens ∧ (m.blocks b).numTokens ≤ m.blockSize := by
  have hbs := hi.size
  have hf := hi.shape id _ _ (view_of_lookup ht)
  have hle := hf.le hbs
  refine ⟨hf.length, fun i b hlt hb => ?_, fun b hb => ?_⟩
  · have h1 := hf.lt hbs hlt
    rw [Nat.succ_mul] at h1
    have h2 := hf.count i b hb
    unfold AienKvManager.numTokens at h2
    omega
  · obtain ⟨pre, hids⟩ := List.getLast?_eq_some_iff.1 hb
    have hlen : t.blockIds.length = pre.length + 1 := by rw [hids]; simp
    have h1 := hf.lt hbs (k := pre.length) (by omega)
    have h2 := hf.count pre.length b (by rw [hids]; simp)
    rw [hlen, Nat.succ_mul] at hle
    rw [hlen, Nat.add_sub_cancel, Nat.mul_comm]
    unfold AienKvManager.numTokens at h2
    omega

theorem Inv.append_slot {N : Prop} (hi : Inv m) (hN : Covers N m) (ht : m.sequenceTables.lookup id = some t) :
    (AienKvManager.appendTokenWithSlot id m).Ends N
      (fun r m' => r.2 = t.totalTokens % m.blockSize ∧ ∃ t', m'.sequenceTables.lookup id = some t' ∧
        t'.blockIds[t.totalTokens / m.blockSize]? = some r.1)
      (fun _ _ => True) := by
  refine (appendTokenWithSlot_ends hi.accounts hN id).mono ?_ (fun _ _ _ => trivial)
  rintro ⟨b, slot⟩ m' ⟨-, ids, pre, n, n', happ⟩
  obtain ⟨hn, hslot, -, -⟩ := happ.position hi
  have hn' : n = t.totalTokens := by
    have := happ.before
    rw [view_of_lookup ht] at this
    cases this
    rfl
  rw [← hn', hn]
  refine ⟨?_, ?_⟩
  · change slot = _
    rw [Nat.add_comm, Nat.add_mul_mod_self_right, Nat.mod_eq_of_lt hslot]
  · have hview := congrFun happ.after id
    rw [Function.update_self] at hview
    obtain ⟨t', ht', hids, -⟩ := lookup_of_view hview
    refine ⟨t', ht', ?_⟩
    rw [hids, Nat.add_comm, Nat.add_mul_div_right _ _ hi.size, Nat.div_eq_of_lt hslot, Nat.zero_add]
    simp

end Shape

/-- **Tables.** In every reachable manager each table has the blocks its tokens need, all but the last full and the last
with what remains. So an append returns slot `total % bs` of the block at index `total / bs`, and a cut always finds
the last block it keeps and never panics. -/
theorem tables_filled (total bs : Nat) (hbs : 1 ≤ bs) (pool : Option UnifiedKvTensorPool) (ops : List KvOp) (w : World)
    (hrun : (World.init total bs pool).run ops = some w) (id : UInt64) (t : BlockTable)
    (ht : w.manager.sequenceTables.lookup id = some t) :
    (t.blockIds.length = t.totalTokens ⌈/⌉ bs ∧
      (∀ i b, i + 1 < t.blockIds.length → t.blockIds[i]? = some b → (w.manager.blocks b).numTokens = bs) ∧
      ∀ b, t.blockIds.getLast? = some b →
        (w.manager.blocks b).numTokens = t.totalTokens - bs * (t.blockIds.length - 1) ∧
          1 ≤ (w.manager.blocks b).numTokens ∧ (w.manager.blocks b).numTokens ≤ bs) ∧
    (∀ b slot m', AienKvManager.appendTokenWithSlot id w.manager = .ok (b, slot) m' →
      slot = t.totalTokens % bs ∧ ∃ t', m'.sequenceTables.lookup id = some t' ∧
        t'.blockIds[t.totalTokens / bs]? = some b) ∧
    ∀ newTotal, newTotal ≤ t.totalTokens → newTotal ⌈/⌉ bs ≤ t.blockIds.length ∧
      AienKvManager.truncateSequence id newTotal w.manager ≠ .panic := by
  have hw := (World.run_init total bs hbs pool ops).1 w hrun
  have hi := hw.inv
  refine ⟨?_, fun b slot m' hok => ?_, fun newTotal hle => ⟨?_, fun hp => ?_⟩⟩
  · have h := Inv.table_counts hi ht
    rwa [hw.size] at h
  · have h := Inv.append_slot hi hw.covers ht
    rwa [hok, hw.size] at h
  · have h := hi.keep_le (view_of_lookup ht)
    rw [hw.size] at h
    exact ((gc_smul_ceilDiv (a := bs) hbs).monotone_l hle).trans h
  · have h := truncateSequence_good (N := False) hi id newTotal
    rw [hp] at h
    exact h

/-- Five tokens in blocks of two, and the append that fills the last block. -/
theorem tables_filled_five : ∃ w t, (World.init 4 2 none).run [.allocateSequence 1 [1, 2, 3, 4, 5]] = some w ∧
    w.manager.sequenceTables.lookup 1 = some t ∧ t.totalTokens = 5 ∧ t.blockIds.length = 5 ⌈/⌉ 2 ∧
    ∀ b slot m', AienKvManager.appendTokenWithSlot 1 w.manager = .ok (b, slot) m' → slot = 5 % 2 := by
  have hlen : ((World.init 4 2 none).run [.allocateSequence 1 [1, 2, 3, 4, 5]]).bind
      (fun w => (w.manager.sequenceTables.lookup 1).map BlockTable.totalTokens) = some 5 := by decide +kernel
  obtain ⟨w, hw, hlookup⟩ := Option.bind_eq_some_iff.1 hlen
  obtain ⟨t, ht, htotal⟩ := Option.map_eq_some_iff.1 hlookup
  have h := tables_filled 4 2 (by decide) none [.allocateSequence 1 [1, 2, 3, 4, 5]] w hw 1 t ht
  rw [htotal] at h
  exact ⟨w, t, hw, ht, htotal, h.1.1, fun b slot m' hok => (h.2.1 b slot m' hok).1⟩

end SovereignCore.Kv
