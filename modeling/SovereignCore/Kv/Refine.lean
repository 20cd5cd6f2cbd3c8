import SovereignCore.Kv.Shape

/-!
# The manager as a map of private lists

What the paged cache is for: each sequence has its own list of tokens, each with a K and a V row per layer. Blocks,
sharing, copies and reuse are how the manager stores these lists, and no caller can tell.

* `Spec` : the plain map, with `Spec.apply` : what each successful operation does to it;
* `Rel c m a` : the manager `m`, over a pool of configuration `c`, stores the map `a`;
* `Rel.update` : the step of the simulation; `RowOp.simulates` : each operation takes it;
* `gather_eq_spec` : after any run, a gather of a layer is the map's list.
-/

namespace SovereignCore.Kv

open AienKvManager Prog

/-- The K and V row of a token in each layer. -/
abbrev TokenRow : Type := Nat → List F32 × List F32

/-- The plain map: no blocks and no sharing. -/
abbrev Spec : Type := UInt64 → Option (List TokenRow)

/-- The operations of the refinement; `append` also writes the token's row in every layer. -/
inductive RowOp where
  | allocate (seqId : UInt64) (promptTokens : List UInt32)
  | fork (parentId childId : UInt64)
  | forkPrefilled (parentId childId : UInt64)
  | forkRange (parentId : UInt64) (firstBlock nBlocks : Nat) (childId : UInt64)
  | assemble (seq : UInt64) (holders : List UInt64) (suffixPolicy : SuffixPolicy)
  | adopt (holder seq : UInt64)
  | free (seqId : UInt64)
  | truncate (seqId : UInt64) (newTotal : Nat)
  | append (seqId : UInt64) (row : TokenRow)
  | markPrefillPending (seqId : UInt64)
  | completePrefill (seqId : UInt64)

def roundRow (c : KvPoolConfig) (r : TokenRow) : TokenRow := fun l =>
  let keep := List.map fun x => (roundToDtype c.dtype x).getD 0
  (keep (r l).1, keep (r l).2)

def Spec.apply (c : KvPoolConfig) (a : Spec) : RowOp → Spec
  | .allocate s prompt =>
    match a s with
    | some _ => a
    | none => Function.update a s (some (List.replicate prompt.length fun _ => zeroRow c))
  | .fork p ch => Function.update a ch (a p)
  | .forkPrefilled p ch => Function.update a ch (a p)
  | .forkRange p first n ch =>
    Function.update a ch ((a p).map fun rows => (rows.drop (first * c.blockSize)).take (n * c.blockSize))
  | .assemble s holders _ => Function.update a s (some (holders.flatMap fun h => (a h).getD []))
  | .adopt h s => Function.update (Function.update a h none) s (a h)
  | .free s => Function.update a s none
  | .truncate s n => Function.update a s ((a s).map (List.take n))
  | .append s r => Function.update a s ((a s).map (· ++ [roundRow c r]))
  | .markPrefillPending _ => a
  | .completePrefill _ => a

def writeRow (numLayers : Nat) (b slot : Nat) (r : TokenRow) : Prog AienKvManager String Unit :=
  (List.range numLayers).forM fun l => writeExplicitTokenKv b l slot (r l).1 (r l).2

def appendRow (c : KvPoolConfig) (s : UInt64) (r : TokenRow) : Prog AienKvManager String Unit := do
  let (b, slot) ← appendTokenWithSlot s
  writeRow c.numLayers b slot r

/-- The manager's answer to an operation; `none` is a panic. -/
def RowOp.call (c : KvPoolConfig) (m : AienKvManager) : RowOp → Option (Bool × AienKvManager)
  | .allocate s p => (allocateSequence s p m).answer?
  | .fork p ch => (forkSequence p ch m).answer?
  | .forkPrefilled p ch => (AienKvManager.forkPrefilled p ch m).answer?
  | .forkRange p f n ch => (AienKvManager.forkRange p f n ch m).answer?
  | .assemble s hs policy => (assembleTable s hs policy m).answer?
  | .adopt h s => (adoptTable h s m).answer?
  | .free s => (freeSequence s m).answer?
  | .truncate s n => (truncateSequence s n m).answer?
  | .append s r => (appendRow c s r m).answer?
  | .markPrefillPending s => (AienKvManager.markPrefillPending s m).answer?
  | .completePrefill s => (AienKvManager.completePrefill s m).answer?

/-- The manager and the plain map side by side: a refused operation leaves the map alone. -/
def runRows (c : KvPoolConfig) : List RowOp → AienKvManager → Spec → Option (AienKvManager × Spec)
  | [], m, a => some (m, a)
  | op :: ops, m, a =>
    match op.call c m with
    | none => none
    | some (ok, m') => runRows c ops m' (if ok then a.apply c op else a)

/-- Rows of the pool's width, which `write_token_kv` asserts. -/
def RowOp.Fits (c : KvPoolConfig) : RowOp → Prop
  | .append _ r => ∀ l < c.numLayers, (r l).1.length = c.kvDim ∧ (r l).2.length = c.kvDim
  | _ => True

/-! ## The relation -/

/-- What a reader finds at place `t` of block `b`, layer by layer. -/
def contents (m : AienKvManager) (b t : Nat) : Nat → Option (List F32 × List F32) := fun l => m.cell b l t

def stored (c : KvPoolConfig) (r : TokenRow) : Nat → Option (List F32 × List F32) :=
  fun l => if l < c.numLayers then some (r l) else none

/-- The table `(ids, n)` of `m` stores the list `rows`. -/
structure Holds (c : KvPoolConfig) (m : AienKvManager) (ids : List BlockId) (n : Nat) (rows : List TokenRow) :
    Prop where
  length : rows.length = n
  reads : Reads c.blockSize (contents m) ids (rows.map (stored c))

/-- Each sequence is live in both or in neither, and its table stores its list. -/
def Agree (c : KvPoolConfig) (m : AienKvManager) (v : Option (List BlockId × Nat)) (r : Option (List TokenRow)) : Prop :=
  (v = none ∧ r = none) ∨ ∃ ids n rows, v = some (ids, n) ∧ r = some rows ∧ Holds c m ids n rows

/-- The manager stores the map. -/
structure Rel (c : KvPoolConfig) (m : AienKvManager) (a : Spec) : Prop where
  inv : Inv m
  pool : m.tensorPool.map (·.config) = some c
  blocks : m.totalBlocks = c.numBlocks
  size : m.blockSize = c.blockSize
  dtype : c.dtype = .fp32 ∨ c.dtype = .bf16
  agree : ∀ id, Agree c m (m.view id) (a id)

section Moves
variable {c : KvPoolConfig} {m m' : AienKvManager} {a : Spec} {id : UInt64} {B : BlockId → Prop}

theorem Rel.covers (hr : Rel c m a) : Covers False m := by
  right
  intro p hp
  have := hr.pool
  rw [hp] at this
  rw [show p.config = c from Option.some.inj this, hr.blocks]

theorem Holds.keeps {ids : List BlockId} {n : Nat} {rows : List TokenRow} (hh : Holds c m ids n rows)
    (hcell : ∀ b, B b → m'.cell b = m.cell b) (hB : ∀ b ∈ ids, B b) : Holds c m' ids n rows where
  length := hh.length
  reads := hh.reads.congr fun b hb => by
    funext t l
    unfold contents
    rw [hcell b (hB b hb)]

theorem Agree.of_some {v : List BlockId × Nat} {r : Option (List TokenRow)} (h : Agree c m (some v) r) :
    ∃ rows, r = some rows ∧ Holds c m v.1 v.2 rows := by
  rcases h with ⟨hv, -⟩ | ⟨ids, n, rows, hv, hr, hh⟩
  · cases hv
  · cases hv
    exact ⟨rows, hr, hh⟩

theorem Agree.of_none {r : Option (List TokenRow)} (h : Agree c m none r) : r = none := by
  rcases h with ⟨-, hr⟩ | ⟨ids, n, rows, hv, -⟩
  · exact hr
  · cases hv

theorem Agree.keeps {v : Option (List BlockId × Nat)} {r : Option (List TokenRow)} (h : Agree c m v r)
    (hcell : ∀ b, B b → m'.cell b = m.cell b) (hB : ∀ ids n, v = some (ids, n) → ∀ b ∈ ids, B b) :
    Agree c m' v r := by
  rcases h with h | ⟨ids, n, rows, hv, hr, hh⟩
  · exact Or.inl h
  · exact Or.inr ⟨ids, n, rows, hv, hr, hh.keeps hcell (hB ids n hv)⟩

/-- **The step of the simulation.** An operation that changes one table and one list to match, and keeps the contents
of the other tables. -/
theorem Rel.update (hr : Rel c m a) (hg : Good m m') {v : Option (List BlockId × Nat)} {r : Option (List TokenRow)}
    (hv : m'.view = Function.update m.view id v) (hcell : ∀ b, B b → m'.cell b = m.cell b)
    (hothers : ∀ id' ids n, id' ≠ id → m.view id' = some (ids, n) → ∀ b ∈ ids, B b) (hown : Agree c m' v r) :
    Rel c m' (Function.update a id r) where
  inv := hg.1
  pool := hg.2.config.trans hr.pool
  blocks := hg.2.total.trans hr.blocks
  size := hg.2.size.trans hr.size
  dtype := hr.dtype
  agree id' := by
    rw [hv]
    by_cases hid : id' = id
    · subst hid
      rw [Function.update_self, Function.update_self]
      exact hown
    · rw [Function.update_of_ne hid, Function.update_of_ne hid]
      exact (hr.agree id').keeps hcell fun ids n hview => hothers id' ids n hid hview

/-- An operation that keeps the contents of every block that is still held. -/
theorem Rel.put (hr : Rel c m a) (hg : Good m m') {v : Option (List BlockId × Nat)} {r : Option (List TokenRow)}
    (hv : m'.view = Function.update m.view id v) (hcell : ∀ b, m'.Live b → m'.cell b = m.cell b)
    (hown : Agree c m v r) : Rel c m' (Function.update a id r) := by
  have hlive : ∀ id' ids n, m'.view id' = some (ids, n) → ∀ b ∈ ids, m'.Live b :=
    fun _ _ _ hview _ hb => hg.1.accounts.live_of_view hview hb
  refine hr.update hg hv hcell (fun id' ids n hne hview => ?_) (hown.keeps hcell fun ids n hsome => ?_)
  · exact hlive id' ids n (by rw [hv, Function.update_of_ne hne, hview])
  · exact hlive id ids n (by rw [hv, Function.update_self, hsome])

theorem Rel.congr (hr : Rel c m a) (hg : Good m m') (hv : m'.view = m.view)
    (hcell : ∀ b, m.Live b → m'.cell b = m.cell b) : Rel c m' a where
  inv := hg.1
  pool := hg.2.config.trans hr.pool
  blocks := hg.2.total.trans hr.blocks
  size := hg.2.size.trans hr.size
  dtype := hr.dtype
  agree id := by
    rw [hv]
    exact (hr.agree id).keeps hcell fun ids n hview b hb => hr.inv.accounts.live_of_view hview hb

end Moves

/-! ## Each operation -/

section Operations
variable {c : KvPoolConfig} {m m' : AienKvManager} {a : Spec}

theorem Rel.rows (hr : Rel c m a) {id : UInt64} {ids : List BlockId} {n : Nat} (hv : m.view id = some (ids, n)) :
    ∃ rows, a id = some rows ∧ Holds c m ids n rows := by
  have h := hr.agree id
  rw [hv] at h
  exact h.of_some

theorem Rel.absent (hr : Rel c m a) {id : UInt64} (hv : m.view id = none) : a id = none := by
  have h := hr.agree id
  rw [hv] at h
  exact h.of_none

theorem holds_zero (hbs : 0 < c.blockSize) (hd : c.dtype = .fp32 ∨ c.dtype = .bf16)
    (hp : m.tensorPool.map (·.config) = some c) {ids : List BlockId} {n : Nat} (hlen : ids.length = n ⌈/⌉ c.blockSize)
    (hz : ∀ b ∈ ids, m.Zeroed b) : Holds c m ids n (List.replicate n fun _ => zeroRow c) where
  length := List.length_replicate
  reads i x hx := by
    obtain ⟨p, hpool, hc⟩ := Option.map_eq_some_iff.1 hp
    rw [List.map_replicate, List.getElem?_replicate] at hx
    split_ifs at hx with hi
    cases hx
    have hlt : i / c.blockSize < ids.length := by
      rw [hlen]
      apply Nat.div_lt_of_lt_mul
      rw [Nat.mul_comm]
      exact Nat.lt_of_lt_of_le hi (le_ceilDiv_mul hbs n)
    refine ⟨ids[i / c.blockSize], List.getElem?_eq_getElem hlt, ?_⟩
    have hzb := hz _ (List.getElem_mem hlt) p hpool (by unfold UnifiedKvTensorPool.HostDtype; rw [hc]; exact hd)
    funext l
    unfold contents stored
    split_ifs with hl
    · rw [hzb l (by rw [hc]; exact hl) _ (by rw [hc]; exact Nat.mod_lt _ hbs), hc]
    · unfold cell
      rw [hpool, Option.bind_some, hc, if_neg fun hlt => hl hlt.1]

theorem allocate_simulates (hr : Rel c m a) (s : UInt64) (prompt : List UInt32) :
    (allocateSequence s prompt m).Ends False (fun _ m' => Rel c m' (a.apply c (.allocate s prompt)))
      (fun _ m' => Rel c m' a) := by
  refine ((allocateSequence_ends hr.inv.accounts hr.covers hr.inv.size s prompt).and
    (allocateSequence_good hr.inv hr.covers s prompt)).mono ?_ ?_
  · rintro ids m' ⟨⟨rfl, n, hview⟩ | ⟨hnone, -, hk, hlen, hfresh, -, hv⟩, hg⟩
    · obtain ⟨rows, ha, -⟩ := hr.rows hview
      simpa only [Spec.apply, ha] using hr
    · simp only [Spec.apply, hr.absent hnone]
      refine hr.update hg hv (hk.cells trivial) ?_ (Or.inr ⟨ids, prompt.length, _, rfl, rfl, ?_⟩)
      · exact fun id' ids' n _ hview b hb hmem => (hfresh b hmem).1 (hr.inv.accounts.live_of_view hview hb)
      · refine holds_zero (hr.size ▸ hr.inv.size) hr.dtype (hk.config.trans hr.pool) ?_ fun b hb => (hfresh b hb).2
        rw [hlen, hr.size]
  · rintro _ m' ⟨⟨rfl, -⟩, -⟩
    exact hr

theorem fork_simulates (hr : Rel c m a) (p ch : UInt64) :
    (forkSequence p ch m).Ends False (fun _ m' => Rel c m' (a.apply c (.fork p ch))) (fun _ m' => Rel c m' a) := by
  refine ((forkSequence_ends hr.inv.accounts p ch).and (forkSequence_good hr.inv p ch)).mono ?_ ?_
  · rintro ids m' ⟨⟨-, -, hk, n, hview, hv⟩, hg⟩
    refine hr.put hg hv (hk.cells trivial) ?_
    rw [← hview]
    exact hr.agree p
  · rintro _ m' ⟨⟨rfl, -⟩, -⟩
    exact hr

theorem forkPrefilled_simulates (hr : Rel c m a) (p ch : UInt64) :
    (AienKvManager.forkPrefilled p ch m).Ends False (fun _ m' => Rel c m' (a.apply c (.forkPrefilled p ch)))
      (fun _ m' => Rel c m' a) := by
  unfold AienKvManager.forkPrefilled
  rw [ends_bind, ends_get, ends_bind]
  cases m.prefillState p with
  | none => exact hr
  | some state =>
    rw [ends_orFail_some]
    split_ifs
    · rw [ends_mapErr]
      exact fork_simulates hr p ch
    · exact hr

theorem forkRange_simulates (hr : Rel c m a) (p : UInt64) (first n : Nat) (ch : UInt64) :
    (AienKvManager.forkRange p first n ch m).Ends False (fun _ m' => Rel c m' (a.apply c (.forkRange p first n ch)))
      (fun _ m' => Rel c m' a) := by
  have hbs : 0 < c.blockSize := hr.size ▸ hr.inv.size
  refine ((forkRange_ends hr.inv.accounts p first n ch).and (forkRange_good hr.inv p first n ch)).mono ?_ ?_
  · rintro ids m' ⟨⟨-, -, hk, pids, total, hview, -, -, rfl, -, hv⟩, hg⟩
    obtain ⟨rows, ha, hh⟩ := hr.rows hview
    refine hr.put hg hv (fun b _ => hk.cells trivial b trivial) ?_
    rw [ha]
    refine Or.inr ⟨_, _, _, rfl, rfl, ?_, ?_⟩
    · have hmul : (first + n) * c.blockSize = first * c.blockSize + n * c.blockSize := Nat.add_mul _ _ _
      rw [List.length_take, List.length_drop, hh.length, hr.size]
      omega
    · rw [List.map_take, List.map_drop]
      exact hh.reads.slice hbs first n
  · rintro _ m' ⟨rfl, -⟩
    exact hr

/-- Tables one after the other, all but the last full, store the lists one after the other. -/
theorem holds_flatMap (hr : Rel c m a) (hbs : 0 < c.blockSize) : ∀ (holders : List UInt64)
    (vs : List (List BlockId × Nat)), holders.map m.view = vs.map some →
    (∀ v ∈ vs.dropLast, v.2 = v.1.length * c.blockSize) →
    Holds c m (vs.flatMap Prod.fst) (vs.map Prod.snd).sum (holders.flatMap fun h => (a h).getD [])
  | [], [], _, _ => ⟨rfl, fun i x hx => by simp at hx⟩
  | [], _ :: _, h, _ => by cases h
  | _ :: _, [], h, _ => by cases h
  | h :: holders, v :: vs, hmap, hfull => by
    rw [List.map_cons, List.map_cons, List.cons.injEq] at hmap
    obtain ⟨rows, ha, hh⟩ := hr.rows hmap.1
    have hrest := holds_flatMap hr hbs holders vs hmap.2 fun x hx => hfull x (by
      cases vs with
      | nil => cases hx
      | cons w ws =>
        rw [List.dropLast_cons_of_ne_nil (by simp)]
        exact List.mem_cons_of_mem v hx)
    rw [List.flatMap_cons, List.flatMap_cons, List.map_cons, List.sum_cons, ha, Option.getD_some]
    refine ⟨by rw [List.length_append, hh.length, hrest.length], ?_⟩
    rw [List.map_append]
    cases vs with
    | nil =>
      have hnil : holders = [] := by simpa using hmap.2
      rw [hnil]
      simpa using hh.reads
    | cons w ws =>
      refine hh.reads.append ?_ hrest.reads hbs
      rw [List.length_map, hh.length]
      exact hfull v (by rw [List.dropLast_cons_of_ne_nil (by simp)]; exact List.mem_cons_self)

theorem assemble_simulates (hr : Rel c m a) (s : UInt64) (holders : List UInt64) (policy : SuffixPolicy) :
    (assembleTable s holders policy m).Ends False (fun _ m' => Rel c m' (a.apply c (.assemble s holders policy)))
      (fun _ m' => Rel c m' a) := by
  have hbs : 0 < c.blockSize := hr.size ▸ hr.inv.size
  refine ((assembleTable_ends hr.inv.accounts s holders policy).and
    (assembleTable_good hr.inv s holders policy)).mono ?_ ?_
  · rintro ids m' ⟨⟨-, hk, -, vs, -, hvs, rfl, -, hfull, hv⟩, hg⟩
    refine hr.put hg hv (fun b _ => hk.cells trivial b trivial) (Or.inr ⟨_, _, _, rfl, rfl, ?_⟩)
    rw [hr.size] at hfull
    exact holds_flatMap hr hbs holders vs hvs hfull
  · rintro _ m' ⟨rfl, -⟩
    exact hr

theorem adopt_simulates (hr : Rel c m a) (h s : UInt64) :
    (adoptTable h s m).Ends False (fun _ m' => Rel c m' (a.apply c (.adopt h s))) (fun _ m' => Rel c m' a) := by
  refine ((adoptTable_ends hr.inv.accounts h s).and (adoptTable_good hr.inv h s)).mono ?_ ?_
  · rintro _ m' ⟨⟨-, hk, -, -, -, hv⟩, hg⟩
    refine ⟨hg.1, hg.2.config.trans hr.pool, hg.2.total.trans hr.blocks, hg.2.size.trans hr.size, hr.dtype, fun id => ?_⟩
    refine Agree.keeps ?_ (fun b _ => hk.cells trivial b trivial) fun _ _ _ _ _ => trivial
    rw [hv]
    simp only [Spec.apply]
    by_cases hs : id = s
    · subst hs
      rw [Function.update_self, Function.update_self]
      exact hr.agree h
    · rw [Function.update_of_ne hs, Function.update_of_ne hs]
      by_cases hh : id = h
      · subst hh
        rw [Function.update_self, Function.update_self]
        exact Or.inl ⟨rfl, rfl⟩
      · rw [Function.update_of_ne hh, Function.update_of_ne hh]
        exact hr.agree id
  · rintro _ m' ⟨rfl, -⟩
    exact hr

theorem free_simulates (hr : Rel c m a) (s : UInt64) :
    (freeSequence s m).Ends False (fun _ m' => Rel c m' (a.apply c (.free s))) (fun _ m' => Rel c m' a) := by
  refine ((freeSequence_ends hr.inv.accounts s).and (freeSequence_good hr.inv s)).mono ?_ ?_
  · rintro _ m' ⟨⟨-, ht, -, hk⟩, hg⟩
    have hv : m'.view = Function.update m.view s none := by
      rw [← view_erase]
      exact view_eq_of_tables ht
    exact hr.put hg hv (hk.cells trivial) (Or.inl ⟨rfl, rfl⟩)
  · rintro _ m' ⟨⟨rfl, -⟩, -⟩
    exact hr

theorem truncate_simulates (hr : Rel c m a) (s : UInt64) (n : Nat) :
    (truncateSequence s n m).Ends False (fun _ m' => Rel c m' (a.apply c (.truncate s n))) (fun _ m' => Rel c m' a) := by
  have hbs : 0 < c.blockSize := hr.size ▸ hr.inv.size
  refine ((truncateSequence_ends hr.inv.accounts hr.inv.size (fun _ _ hv => hr.inv.keep_le hv) n).and
    (truncateSequence_good hr.inv s n)).mono ?_ ?_
  · rintro _ m' ⟨⟨-, ⟨rfl, ids, hview⟩ | ⟨ids, total, ht⟩⟩, hg⟩
    · obtain ⟨rows, ha, hh⟩ := hr.rows hview
      have : a.apply c (.truncate s n) = a := by
        simp only [Spec.apply, ha, Option.map_some, List.take_of_length_le (Nat.le_of_eq hh.length)]
        exact Function.update_eq_self_iff.2 ha.symm
      rw [this]
      exact hr
    · obtain ⟨rows, ha, hh⟩ := hr.rows ht.before
      refine hr.put hg ht.after ht.cells ?_
      rw [ha]
      refine Or.inr ⟨_, _, _, rfl, rfl, ?_, ?_⟩
      · rw [List.length_take, hh.length, Nat.min_eq_left (Nat.le_of_lt ht.shorter)]
      · rw [List.map_take, hr.size]
        exact hh.reads.take hbs n
  · rintro _ m' ⟨rfl, -⟩
    exact hr

theorem mark_simulates (hr : Rel c m a) (s : UInt64) :
    (AienKvManager.markPrefillPending s m).Ends False (fun _ m' => Rel c m' a) (fun _ m' => Rel c m' a) := by
  refine (markPrefillPending_ends hr.inv s).mono ?_ ?_
  · rintro _ m' ⟨hg, hv, hk⟩
    exact hr.congr hg hv fun b _ => hk.cells trivial b trivial
  · rintro _ m' rfl
    exact hr

theorem complete_simulates (hr : Rel c m a) (s : UInt64) :
    (AienKvManager.completePrefill s m).Ends False (fun _ m' => Rel c m' a) (fun _ m' => Rel c m' a) := by
  refine (completePrefill_ends hr.inv s).mono ?_ ?_
  · rintro _ m' ⟨hg, hv, hk⟩
    exact hr.congr hg hv fun b _ => hk.cells trivial b trivial
  · rintro _ m' rfl
    exact hr

/-! ### Appending and writing -/

/-- One layer's write: that row, rounded, and every other row as it was. -/
theorem writeExplicitTokenKv_ends {p : UnifiedKvTensorPool} (hp : m.tensorPool = some p) (hd : p.HostDtype)
    {b l slot : Nat} (hb : b < p.config.numBlocks) (hl : l < p.config.numLayers) (hs : slot < p.config.blockSize)
    {r : TokenRow} (hk : (r l).1.length = p.config.kvDim) (hv : (r l).2.length = p.config.kvDim) :
    (writeExplicitTokenKv b l slot (r l).1 (r l).2 m).Ends False
      (fun _ m' => ∃ p', m' = { m with tensorPool := some p' } ∧ p'.config = p.config ∧
        m'.cell b l slot = some (roundRow p.config r l) ∧
        ∀ b' l' t, (b', l', t) ≠ (b, l, slot) → m'.cell b' l' t = m.cell b' l' t)
      (fun _ _ => False) := by
  unfold writeExplicitTokenKv
  rw [ends_bind, ends_get, hp]
  apply ends_onPool
  · right
    intro q hq
    rw [hp] at hq
    cases hq
    exact UnifiedKvTensorPool.writeTokenKv_isSome hd hb hl hs hk hv
  · intro hn
    rw [hp] at hn
    cases hn
  · intro q p' hq hw
    rw [hp] at hq
    cases hq
    obtain ⟨hc, -, hself, hothers⟩ := UnifiedKvTensorPool.row_writeTokenKv hd hb hl hs hw
    refine ⟨p', rfl, hc, ?_, fun b' l' t hne => ?_⟩
    · unfold cell
      simp only [Option.bind_some, hc, if_pos (And.intro hl hs), hself]
      rfl
    · unfold cell
      simp only [hp, Option.bind_some, hc]
      split_ifs with hin
      · rw [hothers b' l' t hin.1 hin.2 hne]
      · rfl

theorem writeRow_ends (hp : m.tensorPool.map (·.config) = some c) (hd : c.dtype = .fp32 ∨ c.dtype = .bf16)
    {b slot : Nat} (hb : b < c.numBlocks) (hs : slot < c.blockSize) {r : TokenRow}
    (hr : ∀ l < c.numLayers, (r l).1.length = c.kvDim ∧ (r l).2.length = c.kvDim) :
    (writeRow c.numLayers b slot r m).Ends False
      (fun _ m' => ∃ p', m' = { m with tensorPool := some p' } ∧ p'.config = c ∧
        contents m' b slot = stored c (roundRow c r) ∧
        ∀ b' t, (b', t) ≠ (b, slot) → contents m' b' t = contents m b' t)
      (fun _ _ => False) := by
  obtain ⟨p, hpool, hc⟩ := Option.map_eq_some_iff.1 hp
  -- the layers still to write; the others are written
  let I : List Nat → AienKvManager → Prop := fun rest m' => rest.Nodup ∧ (∀ l ∈ rest, l < c.numLayers) ∧
    ∃ p', m' = { m with tensorPool := some p' } ∧ p'.config = c ∧ ∀ b' l t, m'.cell b' l t =
      if b' = b ∧ t = slot ∧ l < c.numLayers ∧ l ∉ rest then some (roundRow c r l) else m.cell b' l t
  refine (ends_forM I ?_ (List.range c.numLayers) m ⟨List.nodup_range, fun l hl => List.mem_range.1 hl, p, ?_, hc,
    fun b' l t => ?_⟩).mono ?_ (fun _ _ h => h)
  · rintro l rest _ ⟨hnd, hlt, p₁, rfl, hc₁, hcell⟩
    obtain ⟨hnotin, hnd⟩ := List.nodup_cons.1 hnd
    have hl := hlt l List.mem_cons_self
    have hd₁ : p₁.HostDtype := by
      unfold UnifiedKvTensorPool.HostDtype
      rw [hc₁]
      exact hd
    refine (writeExplicitTokenKv_ends (r := r) rfl hd₁ (by rw [hc₁]; exact hb) (by rw [hc₁]; exact hl)
      (by rw [hc₁]; exact hs) (by rw [hc₁]; exact (hr l hl).1) (by rw [hc₁]; exact (hr l hl).2)).mono ?_
      (fun _ _ h => h)
    rintro _ m' ⟨p', rfl, hc', hself, hothers⟩
    refine ⟨hnd, fun k hk => hlt k (List.mem_cons_of_mem l hk), p', rfl, hc'.trans hc₁, fun b' k t => ?_⟩
    by_cases hthis : (b', k, t) = (b, l, slot)
    · obtain ⟨rfl, rfl, rfl⟩ := Prod.mk.injEq .. ▸ hthis
      rw [hself, if_pos ⟨rfl, rfl, hl, hnotin⟩, hc₁]
    · rw [hothers b' k t hthis, hcell]
      have hiff : (b' = b ∧ t = slot ∧ k < c.numLayers ∧ k ∉ l :: rest) ↔
          (b' = b ∧ t = slot ∧ k < c.numLayers ∧ k ∉ rest) := by
        constructor
        · rintro ⟨h1, h2, h3, h4⟩
          exact ⟨h1, h2, h3, fun h => h4 (List.mem_cons_of_mem l h)⟩
        · rintro ⟨rfl, rfl, h3, h4⟩
          refine ⟨rfl, rfl, h3, fun h => ?_⟩
          rcases List.mem_cons.1 h with rfl | h
          · exact hthis rfl
          · exact h4 h
      simp only [hiff]
  · rw [← hpool]
  · rw [if_neg]
    rintro ⟨-, -, hl, hnot⟩
    exact hnot (List.mem_range.2 hl)
  · rintro _ m' ⟨-, -, p', rfl, hc', hcell⟩
    refine ⟨p', rfl, hc', ?_, fun b' t hne => ?_⟩
    · funext l
      unfold contents stored
      rw [hcell]
      split_ifs with h1 h2 h2
      · rfl
      · exact absurd h1.2.2.1 h2
      · exact absurd ⟨rfl, rfl, h2, by simp⟩ h1
      · unfold cell
        rw [hpool, Option.bind_some, hc, if_neg fun hlt => h2 hlt.1]
    · funext l
      unfold contents
      rw [hcell, if_neg]
      rintro ⟨rfl, rfl, -⟩
      exact hne rfl

/-- The append keeps the old tokens and puts the new one after them. -/
theorem append_simulates (hr : Rel c m a) (s : UInt64) {r : TokenRow}
    (hrow : ∀ l < c.numLayers, (r l).1.length = c.kvDim ∧ (r l).2.length = c.kvDim) :
    (appendRow c s r m).Ends False (fun _ m' => Rel c m' (a.apply c (.append s r))) (fun _ m' => Rel c m' a) := by
  have hbs : 0 < c.blockSize := hr.size ▸ hr.inv.size
  unfold appendRow
  rw [ends_bind]
  refine ((appendTokenWithSlot_ends hr.inv.accounts hr.covers s).and
    (appendTokenWithSlot_good hr.inv hr.covers s)).mono ?_ ?_
  swap
  · rintro _ m' ⟨⟨-, hv, hk⟩, hg⟩
    exact hr.congr hg hv (hk.cells trivial)
  rintro ⟨b, slot⟩ m₁ ⟨⟨-, ids, pre, n, n', happ⟩, hg⟩
  obtain ⟨hn, hslot, rfl, hpre⟩ := happ.position hr.inv
  rw [hr.size] at hn hslot
  obtain ⟨rows, ha, hh⟩ := hr.rows happ.before
  have hview := congrFun happ.after s
  rw [Function.update_self] at hview
  have hbr : b < c.numBlocks := by
    have := hg.1.accounts.range b (hg.1.accounts.live_of_view hview (by simp))
    rwa [hg.2.total, hr.blocks] at this
  refine (writeRow_ends (hg.2.config.trans hr.pool) hr.dtype hbr hslot hrow).mono ?_ (fun _ _ h => h.elim)
  rintro _ m' ⟨p', rfl, hc', hself, hothers⟩
  set m' : AienKvManager := { m₁ with tensorPool := some p' } with hm'
  have hg' : Good m m' := by
    have hk' : Keeps False m₁.Live m₁ m' :=
      ⟨rfl, rfl, by rw [hg.2.config, hr.pool, ← hc']; rfl, fun _ _ => rfl, fun hf => hf.elim⟩
    exact ⟨hg.1.congr (hg.1.accounts.congr rfl rfl rfl rfl) rfl hk', hg.2.trans hk'.sizes⟩
  -- away from the new token, a live block of `m` reads as before
  have hkept : ∀ d, m.Live d → d ≠ b → contents m' d = contents m d := by
    intro d hd hne
    funext t
    rw [hothers d t fun he => hne (Prod.mk.injEq .. ▸ he).1]
    funext l
    exact congrFun (congrFun (happ.keeps.cells trivial d ⟨hd, hne⟩) l) t
  have hlive : ∀ d ∈ pre, m.Live d := fun d hd =>
    hr.inv.accounts.live_of_view happ.before (by rw [hpre] at hd; exact List.mem_of_mem_take hd)
  have hpreKept : ∀ d ∈ pre, contents m' d = contents m d := fun d hd =>
    hkept d (hlive d hd) fun he => happ.fresh (he ▸ hd)
  have hlen : (rows.map (stored c)).length = pre.length * c.blockSize + slot := by
    rw [List.length_map, hh.length, hn]
  have hold : Reads c.blockSize (contents m') (pre ++ [b]) (rows.map (stored c)) := by
    rcases happ.place with ⟨rfl, rfl, -⟩ | ⟨last, rfl, -, -, -, hcopy⟩
    · refine (hh.reads.extend [b]).replaceLast hpreKept fun j hj => ?_
      omega
    · refine hh.reads.replaceLast hpreKept fun j hj => ?_
      rw [hothers b j fun he => ?_]
      · funext l
        exact congrFun (congrFun (hcopy trivial) l) j
      · have := (Prod.mk.injEq .. ▸ he).2
        omega
  refine hr.update (B := fun d => m.Live d ∧ d ≠ b) hg' happ.after (fun d hd => ?_) ?_ ?_
  · funext l t
    exact congrFun (congrFun (hkept d hd.1 hd.2) t) l
  · intro id' ids' k hne hv d hd
    refine ⟨hr.inv.accounts.live_of_view hv hd, ?_⟩
    rintro rfl
    exact happ.exclusive id' ids' k hne hv hd
  · rw [ha, Option.map_some]
    refine Or.inr ⟨_, _, _, rfl, rfl, ?_, ?_⟩
    · rw [List.length_append, hh.length, List.length_singleton]
    · rw [List.map_append, List.map_cons, List.map_nil]
      exact Reads.snoc hbs hslot hlen hold hself

end Operations

/-! ## Runs -/

/-- **Every operation** is simulated: it answers, and the manager stores the map that the answer calls for. -/
theorem RowOp.simulates {c : KvPoolConfig} {m : AienKvManager} {a : Spec} (hr : Rel c m a) (op : RowOp)
    (hop : op.Fits c) : ∃ ok m', op.call c m = some (ok, m') ∧ Rel c m' (if ok then a.apply c op else a) := by
  have key : ∀ {ε α : Type} {o : Outcome ε AienKvManager α} {a' : Spec},
      o.Ends False (fun _ m' => Rel c m' a') (fun _ m' => Rel c m' a) →
      ∃ ok m', o.answer? = some (ok, m') ∧ Rel c m' (if ok then a' else a) := by
    intro ε α o a' h
    obtain ⟨ok, m', ho, hm⟩ := h.answer
    refine ⟨ok, m', ho, ?_⟩
    cases ok <;> exact hm
  cases op with
  | allocate s p => exact key (allocate_simulates hr s p)
  | fork p ch => exact key (fork_simulates hr p ch)
  | forkPrefilled p ch => exact key (forkPrefilled_simulates hr p ch)
  | forkRange p f n ch => exact key (forkRange_simulates hr p f n ch)
  | assemble s hs policy => exact key (assemble_simulates hr s hs policy)
  | adopt h s => exact key (adopt_simulates hr h s)
  | free s => exact key (free_simulates hr s)
  | truncate s n => exact key (truncate_simulates hr s n)
  | append s r => exact key (append_simulates hr s hop)
  | markPrefillPending s => exact key (mark_simulates hr s)
  | completePrefill s => exact key (complete_simulates hr s)

theorem runRows_simulates {c : KvPoolConfig} : ∀ (ops : List RowOp), (∀ op ∈ ops, op.Fits c) →
    ∀ {m : AienKvManager} {a : Spec}, Rel c m a → ∃ m' a', runRows c ops m a = some (m', a') ∧ Rel c m' a'
  | [], _, m, a, hr => ⟨m, a, rfl, hr⟩
  | op :: ops, hops, m, a, hr => by
    obtain ⟨ok, m₁, hcall, hr₁⟩ := op.simulates hr (hops op List.mem_cons_self)
    obtain ⟨m', a', hrun, hr'⟩ := runRows_simulates ops (fun o ho => hops o (List.mem_cons_of_mem op ho)) hr₁
    refine ⟨m', a', ?_, hr'⟩
    unfold runRows
    rw [hcall]
    exact hrun

def pooled (p : UnifiedKvTensorPool) : AienKvManager :=
  { AienKvManager.new p.config.numBlocks p.config.blockSize with tensorPool := some p }

theorem Rel.init {p : UnifiedKvTensorPool} (hbs : 0 < p.config.blockSize)
    (hd : p.config.dtype = .fp32 ∨ p.config.dtype = .bf16) : Rel p.config (pooled p) fun _ => none where
  inv := new_inv _ _ hbs _
  pool := rfl
  blocks := rfl
  size := rfl
  dtype := hd
  agree _ := Or.inl ⟨rfl, rfl⟩

theorem Rel.gather {c : KvPoolConfig} {m : AienKvManager} {a : Spec} (hr : Rel c m a) {s : UInt64}
    {rows : List TokenRow} (ha : a s = some rows) {l : Nat} (hl : l < c.numLayers) :
    AienKvManager.gatherLayerKv s l m = .ok (rows.flatMap fun r => (r l).1, rows.flatMap fun r => (r l).2) m := by
  have hbs : 0 < c.blockSize := hr.size ▸ hr.inv.size
  obtain ⟨p, hpool, hc⟩ := Option.map_eq_some_iff.1 hr.pool
  have hagree := hr.agree s
  rw [ha] at hagree
  obtain ⟨-, hnone⟩ | ⟨ids, n, rows', hv, hrows, hh⟩ := hagree
  · cases hnone
  cases hrows
  obtain ⟨t, ht, hids, htotal⟩ := lookup_of_view hv
  have hreads : Reads p.config.blockSize (fun b t => p.row b l t) ids (rows.map fun r => r l) := by
    intro i x hx
    rw [List.getElem?_map] at hx
    obtain ⟨r, hri, rfl⟩ := Option.map_eq_some_iff.1 hx
    obtain ⟨b, hb, hcell⟩ := hh.reads i (stored c r) (by rw [List.getElem?_map, hri]; rfl)
    rw [hc]
    refine ⟨b, hb, ?_⟩
    have hl' := congrFun hcell l
    unfold contents stored cell at hl'
    rw [hpool, Option.bind_some, hc, if_pos ⟨hl, Nat.mod_lt _ hbs⟩, if_pos hl] at hl'
    exact Option.some.inj hl'
  have hd : p.HostDtype := by
    unfold UnifiedKvTensorPool.HostDtype
    rw [hc]
    exact hr.dtype
  have hin : ∀ b ∈ ids, b < p.config.numBlocks := by
    intro b hb
    have := hr.inv.accounts.range b (hr.inv.accounts.live_of_view hv hb)
    rwa [hr.blocks, ← hc] at this
  have hg := UnifiedKvTensorPool.gatherLayerKv_eq hd (by rw [hc]; exact hl) (by rw [hc]; exact hbs) hin hreads
  rw [List.length_map, hh.length] at hg
  have hflat : ∀ f : List F32 × List F32 → List F32,
      (rows.map fun r => r l).flatMap f = rows.flatMap fun r => f (r l) := fun f => List.flatMap_map ..
  rw [hflat, hflat] at hg
  have hcall : AienKvManager.gatherLayerKv s l m = unwrap (p.gatherLayerKv t.blockIds t.totalTokens l) m := by
    simp only [AienKvManager.gatherLayerKv, bind, Prog.get, ht, orFail, pure, hpool]
  rw [hcall, hids, htotal, hg]
  rfl

/-- **Refinement.** For a manager over a pool of its own size that stores `f32` or `bf16`: after any run of the
operations, of which none panics, a gather of any layer of any sequence returns the list the plain map has for it, and
refuses a sequence the map does not have. -/
theorem gather_eq_spec (p : UnifiedKvTensorPool) (hbs : 1 ≤ p.config.blockSize)
    (hd : p.config.dtype = .fp32 ∨ p.config.dtype = .bf16) (ops : List RowOp)
    (hops : ∀ op ∈ ops, op.Fits p.config) :
    ∃ m a, runRows p.config ops (pooled p) (fun _ => none) = some (m, a) ∧ ∀ s l, l < p.config.numLayers →
      match a s with
      | some rows =>
        AienKvManager.gatherLayerKv s l m = .ok (rows.flatMap fun r => (r l).1, rows.flatMap fun r => (r l).2) m
      | none => AienKvManager.gatherLayerKv s l m = .err s!"Sequence {s} not found" m := by
  obtain ⟨m, a, hrun, hr⟩ := runRows_simulates ops hops (Rel.init hbs hd)
  refine ⟨m, a, hrun, fun s l hl => ?_⟩
  cases ha : a s with
  | some rows => exact hr.gather ha hl
  | none =>
    have hagree := hr.agree s
    rw [ha] at hagree
    obtain ⟨hv, -⟩ | ⟨ids, n, rows, -, hrows, -⟩ := hagree
    · have hlookup : m.sequenceTables.lookup s = none := Option.map_eq_none_iff.1 hv
      simp only [AienKvManager.gatherLayerKv, bind, Prog.get, hlookup, orFail, fail]
    · cases hrows

/-- A pool of two blocks of two tokens: a prompt of three, a fork, and an append that copies the shared tail. -/
theorem gather_eq_spec_fork : ∃ p : UnifiedKvTensorPool,
    let ops : List RowOp := [.allocate 1 [5, 6, 7], .fork 1 2, .append 2 fun _ => ([0x3f800000], [0x40000000])]
    (1 ≤ p.config.blockSize ∧ p.config.dtype = .bf16 ∧ ∀ op ∈ ops, op.Fits p.config) ∧
    ∃ m a, runRows p.config ops (pooled p) (fun _ => none) = some (m, a) ∧
      ∀ rows, a 2 = some rows →
        AienKvManager.gatherLayerKv 2 0 m = .ok (rows.flatMap fun r => (r 0).1, rows.flatMap fun r => (r 0).2) m := by
  let c : KvPoolConfig := { numBlocks := 4, blockSize := 2, numLayers := 1, numKvHeads := 1, headDim := 1, dtype := .bf16 }
  obtain ⟨l, hl⟩ : ∃ l, KvLayout.fromConfig c = .ok l := ⟨_, rfl⟩
  let p : UnifiedKvTensorPool := ⟨c, l, ⟨l.totalBytes, 0, fun _ => 0⟩, hl, Nat.le_refl _⟩
  have hops : ∀ op ∈ ([.allocate 1 [5, 6, 7], .fork 1 2, .append 2 fun _ => ([0x3f800000], [0x40000000])] :
      List RowOp), op.Fits c := by
    intro op hop
    simp only [List.mem_cons, List.not_mem_nil, or_false] at hop
    rcases hop with rfl | rfl | rfl
    · trivial
    · trivial
    · exact fun _ _ => ⟨rfl, rfl⟩
  obtain ⟨m, a, hrun, hgather⟩ := gather_eq_spec p (by decide : 1 ≤ 2) (Or.inr rfl) _ hops
  refine ⟨p, ⟨(by decide : 1 ≤ 2), rfl, hops⟩, m, a, hrun, fun rows ha => ?_⟩
  have h := hgather 2 0 (by decide : 0 < 1)
  rwa [ha] at h

end SovereignCore.Kv
