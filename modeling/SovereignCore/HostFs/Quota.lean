import Mathlib
import SovereignCore.HostFs.Aggregates
import SovereignCore.HostFs.Bypass

/-!
# The quota of the host store

Admission lets in stores for which it counts on bytes that could be evicted; only the check at the start of the job
makes room, by marking victims. The job's file takes what it reserved, and its victims are unlinked. When the job fails
its victims return to service. The one way over the quota is a publication whose directory sync fails: the object is in
the index, marked, and the victims are back as well.

* `Index.sum`, `Index.sure`, `Index.live` : what counts of an index, and what will count once victims have returned;
* `Index.Lower` : nothing more counts; `sum_insert`, `sum_mark`, `sum_clear` : what else an operation can do;
* `View.Fits`, `View.Spare` : the limits, and the limits with the place of one more object;
* `View.Quota` : the invariant; `Quota.move` : every move keeps it;
* `quota_safe` : what counts stays within the quota, less the objects whose directory sync failed.
-/

namespace SovereignCore.HostFs

open Store Std

/-! ## What counts of an index -/

namespace Index

variable {x x' : Index} {k : ChunkKey} {e : IndexEntry} {w : Nat → Nat} {vs : List ChunkKey}
variable {p q : ChunkKey → IndexEntry → Bool}

/-- Weighed by their sizes, the entries that `p` chooses. -/
def sum (w : Nat → Nat) (p : ChunkKey → IndexEntry → Bool) (x : Index) : Nat :=
  Table.weigh x.map fun k e => if p k e then w e.physBytes else 0

def one (_ : Nat) : Nat := 1

def live (_ : ChunkKey) (e : IndexEntry) : Bool := !e.evicting

/-- Synced, and in service once the victims `vs` have returned. -/
def sure (vs : List ChunkKey) (k : ChunkKey) (e : IndexEntry) : Bool := (!e.evicting || vs.contains k) && !e.indeterminate

def unsure (_ : ChunkKey) (e : IndexEntry) : Bool := !e.evicting && e.indeterminate

theorem sum_mono (h : ∀ k e', x'.get k = some e' → p k e' = true →
    ∃ e, x.get k = some e ∧ q k e = true ∧ e.physBytes = e'.physBytes) : sum w p x' ≤ sum w q x := by
  refine Table.weigh_mono fun k => ?_
  cases hk : x'.map[k]? with
  | none => exact Nat.zero_le _
  | some e' =>
    by_cases hp : p k e' = true
    · obtain ⟨e, he, hq, hsize⟩ := h k e' hk hp
      rw [show x.map[k]? = some e from he, Option.elim_some, Option.elim_some, if_pos hp, if_pos hq, hsize]
    · rw [Option.elim_some, if_neg hp]
      exact Nat.zero_le _

theorem sum_sure_le_live : sum w (sure []) x ≤ sum w live x := by
  refine sum_mono fun k e he hs => ⟨e, he, ?_, rfl⟩
  unfold sure at hs
  unfold live
  simp only [List.contains_nil, Bool.or_false, Bool.and_eq_true] at hs
  exact hs.1

theorem sum_live : sum w live x = sum w (sure []) x + sum w unsure x := by
  unfold sum
  rw [← Table.weigh_add]
  refine Table.weigh_congr fun k e _ => ?_
  unfold live sure unsure
  cases e.evicting <;> cases e.indeterminate <;> simp

theorem sum_insert : sum w p (x.insert k e) ≤ (if p k e then w e.physBytes else 0) + sum w p x := by
  have hrest : Table.weigh (x.map.erase k) (fun k e => if p k e then w e.physBytes else 0) ≤ sum w p x := by
    unfold sum
    rw [Table.weigh_split x.map k]
    exact Nat.le_add_left _ _
  unfold sum
  rw [map_insert]
  exact Table.weigh_insert_le.trans (Nat.add_le_add_left hrest _)

theorem sum_mark (h : x.markEvicting k = some x') : sum w (sure (vs ++ [k])) x' ≤ sum w (sure vs) x := by
  obtain ⟨b, hb, hev, -, hmap, -⟩ := markEvicting_some h
  refine sum_mono fun k' e' he' hs => ?_
  rw [get, hmap, Table.get_insert] at he'
  by_cases hk : k = k'
  · subst hk
    rw [if_pos rfl] at he'
    obtain rfl := Option.some.inj he'
    refine ⟨b, hb, ?_, rfl⟩
    unfold sure at hs ⊢
    rw [hev]
    simpa using hs
  · rw [if_neg hk] at he'
    refine ⟨e', he', ?_, rfl⟩
    unfold sure at hs ⊢
    simpa [Ne.symm hk] using hs

theorem get_foldl_clear (vs : List ChunkKey) (x : Index) (k : ChunkKey) :
    (vs.foldl clearEvicting x).get k = if k ∈ vs then (x.get k).map cleared else x.get k := by
  induction vs generalizing x with
  | nil => rfl
  | cons a vs ih =>
    rw [List.foldl_cons, ih, get_clearEvicting]
    by_cases ha : a = k
    · subst ha
      rw [if_pos rfl, if_pos List.mem_cons_self, Option.map_map]
      split_ifs
      · rfl
      · rfl
    · rw [if_neg ha]
      simp [Ne.symm ha]

theorem sum_clear : sum w (sure []) (vs.foldl clearEvicting x) ≤ sum w (sure vs) x := by
  refine sum_mono fun k e' he' hs => ?_
  rw [get_foldl_clear] at he'
  by_cases hk : k ∈ vs
  · rw [if_pos hk] at he'
    obtain ⟨e, he, rfl⟩ := Option.map_eq_some_iff.1 he'
    refine ⟨e, he, ?_, rfl⟩
    unfold sure cleared at *
    simpa [hk] using hs
  · rw [if_neg hk] at he'
    refine ⟨e', he', ?_, rfl⟩
    unfold sure at *
    simpa [hk] using hs

/-- Nothing more counts in `x'`. -/
structure Lower (x x' : Index) : Prop where
  sure : ∀ w vs, sum w (sure vs) x' ≤ sum w (sure vs) x
  live : ∀ w, sum w live x' ≤ sum w live x

/-- Every entry was there, of the same size, and not marked if it is not marked now. -/
theorem Lower.of_get (h : ∀ k e', x'.get k = some e' → ∃ e, x.get k = some e ∧ e.physBytes = e'.physBytes ∧
    e.indeterminate = e'.indeterminate ∧ (e.evicting = true → e'.evicting = true)) : Lower x x' := by
  refine ⟨fun w vs => sum_mono fun k e' he' hs => ?_, fun w => sum_mono fun k e' he' hs => ?_⟩
  · obtain ⟨e, he, hsize, hind, hev⟩ := h k e' he'
    refine ⟨e, he, ?_, hsize⟩
    unfold Index.sure at *
    rw [hind]
    cases hm : e.evicting
    · simpa [hm] using (Bool.and_eq_true_iff.1 hs).2
    · rw [hev hm] at hs
      exact hs
  · obtain ⟨e, he, hsize, -, hev⟩ := h k e' he'
    refine ⟨e, he, ?_, hsize⟩
    unfold Index.live at *
    cases hm : e.evicting
    · rfl
    · rw [hev hm] at hs
      exact hs

theorem Lower.of_map (h : x'.map = x.map) : Lower x x' :=
  .of_get fun k e he => ⟨e, by rw [get, ← h]; exact he, rfl, rfl, fun h => h⟩

theorem Lower.trans {y : Index} (h : Lower x x') (h' : Lower x' y) : Lower x y where
  sure w vs := (h'.sure w vs).trans (h.sure w vs)
  live w := (h'.live w).trans (h.live w)

theorem Lower.remove : Lower x (x.remove k) := by
  refine .of_get fun k' e he => ?_
  rw [get_remove] at he
  split_ifs at he
  exact ⟨e, he, rfl, rfl, fun h => h⟩

theorem Lower.markEvicting (h : x.markEvicting k = some x') : Lower x x' := by
  obtain ⟨b, hb, hev, -, hmap, -⟩ := markEvicting_some h
  refine .of_get fun k' e he => ?_
  rw [get, hmap, Table.get_insert] at he
  split_ifs at he with hk
  · subst hk
    obtain rfl := Option.some.inj he
    exact ⟨b, hb, rfl, rfl, fun _ => rfl⟩
  · exact ⟨e, he, rfl, rfl, fun h => h⟩

theorem Lower.touch (t : Nat) : Lower x (x.touch k t) := by
  refine .of_get fun k' e he => ?_
  rw [get_touch] at he
  split_ifs at he
  · obtain ⟨b, hb, rfl⟩ := Option.map_eq_some_iff.1 he
    exact ⟨b, hb, rfl, rfl, fun h => h⟩
  · exact ⟨e, he, rfl, rfl, fun h => h⟩

theorem Lower.serves (h : x.Serves x') : Lower x x' := by
  cases h with
  | inc k _ h =>
    obtain ⟨-, -, -, hmap, -⟩ := busyInc_some h
    exact .of_map hmap
  | dec k => exact .of_map map_busyDec
  | touch k t => exact .touch t

theorem Aggregates.serves (h : x.Aggregates) (hs : x.Serves x') : x'.Aggregates := by
  cases hs with
  | inc k _ hi => exact h.busyInc hi
  | dec k => exact h.busyDec k
  | touch k t => exact h.touch k t

theorem Aggregates.foldl_clear (h : x.Aggregates) (vs : List ChunkKey) : (vs.foldl Index.clearEvicting x).Aggregates := by
  induction vs generalizing x with
  | nil => exact h
  | cons k vs ih => exact ih (h.clearEvicting k)

/-! The sums that the code reads. -/

theorem Aggregates.bytes (h : x.Aggregates) : x.totalBytes = x.evictingBytes + sum (fun n => n) Index.live x := by
  rw [h.total, h.evictingBytes]
  unfold tally sum
  rw [← Table.weigh_add]
  refine Table.weigh_congr fun k e _ => ?_
  unfold sizeOf evictingSize Index.live
  cases e.evicting <;> simp

theorem Aggregates.count (h : x.Aggregates) : x.map.size = x.evictingCount + sum one Index.live x := by
  have hsize : x.map.size = Table.weigh x.map fun _ _ => 1 := by
    rw [Table.size_eq_total]
    unfold Table.total Table.values Table.weigh
    rw [List.map_map]
    rfl
  rw [hsize, h.evictingCount]
  unfold tally sum
  rw [← Table.weigh_add]
  refine Table.weigh_congr fun k e _ => ?_
  unfold evictingOne Index.live one
  cases e.evicting <;> simp

end Index

/-! ## The limits -/

namespace View

variable (v : View)

/-- The synced objects fit once the victims `vs` have returned. -/
def Fits (vs : List ChunkKey) : Prop :=
  v.index.sum (fun n => n) (Index.sure vs) + v.loose ≤ v.cfg.quotaBytes ∧
    v.index.sum Index.one (Index.sure vs) ≤ v.cfg.maxObjects

/-- There is place for one more object of `n` bytes. -/
def Spare (n : Nat) : Prop :=
  v.index.sum (fun n => n) Index.live + v.loose + n ≤ v.cfg.quotaBytes ∧
    v.index.sum Index.one Index.live + 1 ≤ v.cfg.maxObjects

/-- Nothing more counts in `v'`. -/
structure Below (v v' : View) : Prop where
  cfg : v'.cfg = v.cfg
  index : v.index.Lower v'.index
  loose : v'.loose ≤ v.loose

variable {v} {v' : View} {vs : List ChunkKey} {n : Nat}

theorem Below.fits (h : v.Below v') (hf : v.Fits vs) : v'.Fits vs := by
  have hbytes := h.index.sure (fun n => n) vs
  have hcount := h.index.sure Index.one vs
  have hloose := h.loose
  unfold Fits at *
  rw [h.cfg]
  omega

theorem Below.spare (h : v.Below v') (hs : v.Spare n) : v'.Spare n := by
  have hbytes := h.index.live (fun n => n)
  have hcount := h.index.live Index.one
  have hloose := h.loose
  unfold Spare at *
  rw [h.cfg]
  omega

theorem Below.of_eq (hc : v'.cfg = v.cfg) (hx : v'.index = v.index) (hl : v'.loose = v.loose) : v.Below v' where
  cfg := hc
  index := .of_map (by rw [hx])
  loose := hl.le

/-- The place is taken by an object of at most the size it was kept for. -/
theorem Spare.insert {k : ChunkKey} {e : IndexEntry} (h : v.Spare n) (he : e.physBytes ≤ n) :
    View.Fits { v with index := v.index.insert k e } [] := by
  have hsure : ∀ w, (v.index.insert k e).sum w (Index.sure []) ≤ w e.physBytes + v.index.sum w Index.live := by
    intro w
    refine Index.sum_sure_le_live.trans (Index.sum_insert.trans (Nat.add_le_add_right ?_ _))
    split_ifs
    · exact Nat.le_refl _
    · exact Nat.zero_le _
  have hbytes := hsure fun n => n
  have hcount := hsure Index.one
  unfold Spare at h
  unfold Fits
  unfold Index.one at *
  dsimp only at *
  omega

theorem Fits.insert {k : ChunkKey} {e : IndexEntry} (h : v.Fits vs) (he : e.indeterminate = true) :
    View.Fits { v with index := v.index.insert k e } vs := by
  have hsure : ∀ w, (v.index.insert k e).sum w (Index.sure vs) ≤ v.index.sum w (Index.sure vs) := by
    intro w
    have hle := Index.sum_insert (x := v.index) (w := w) (k := k) (e := e) (p := Index.sure vs)
    have hnot : ¬ Index.sure vs k e = true := by simp [Index.sure, he]
    rwa [if_neg hnot, Nat.zero_add] at hle
  have hbytes := hsure fun n => n
  have hcount := hsure Index.one
  unfold Fits at *
  dsimp only at *
  omega

theorem Fits.clear (h : v.Fits vs) : View.Fits { v with index := vs.foldl Index.clearEvicting v.index } [] := by
  have hsum : ∀ w, (vs.foldl Index.clearEvicting v.index).sum w (Index.sure []) ≤ v.index.sum w (Index.sure vs) :=
    fun _ => Index.sum_clear
  have hbytes := hsum fun n => n
  have hcount := hsum Index.one
  unfold Fits at *
  dsimp only at *
  omega

theorem Fits.mark {k : ChunkKey} {x : Index} (h : v.Fits vs) (hx : v.index.markEvicting k = some x) :
    View.Fits { v with index := x } (vs ++ [k]) := by
  have hsum : ∀ w, x.sum w (Index.sure (vs ++ [k])) ≤ v.index.sum w (Index.sure vs) := fun _ => Index.sum_mark hx
  have hbytes := hsum fun n => n
  have hcount := hsum Index.one
  unfold Fits at *
  dsimp only at *
  omega

theorem liveBytes_eq (h : v.index.Aggregates) : v.liveBytes = v.index.sum (fun n => n) Index.live + v.loose := by
  have hbytes := h.bytes
  unfold liveBytes usedBytes
  omega

theorem liveCount_eq (h : v.index.Aggregates) : v.liveCount = v.index.sum Index.one Index.live := by
  have hcount := h.count
  unfold liveCount
  omega

/-- The room that a starting store has made is the place of its object. -/
theorem Room.spare {id : JobId} {j : Job} (h : v.Room) (ha : v.index.Aggregates) (hj : v.jobs[id]? = some j)
    (hbooked : Table.total v.jobs Job.reserved ≤ v.reserved) (hk : j.kind = .store) (hr : 0 < j.reserved)
    (hc : j.crashed = false) : v.Spare j.reserved := by
  have hone : 0 < v.reservations := by
    refine List.length_pos_of_mem (List.mem_filter.2 ⟨Table.mem_values.2 ⟨id, hj⟩, ?_⟩)
    simp [hk, hr, hc]
  have hle : j.reserved ≤ Table.total v.jobs Job.reserved := Table.le_total hj
  obtain ⟨hbytes, hcount⟩ := h
  rw [liveBytes_eq ha] at hbytes
  rw [liveCount_eq ha] at hcount
  exact ⟨by omega, by omega⟩

end View

/-! ## The worker's task -/

/-- The store job whose victims are marked: it is about to start, its step is going on, or it is ending. -/
def Task.hand : Task → Option JobId
  | .store id | .seal id _ _ | .written id _ _ | .sync id _ _ | .synced id _ _ | .rename id _ _ => some id
  | .renamed id _ _ _ | .syncDir id _ _ _ | .indeterminate id _ _ _ _ | .insert id _ _ _ => some id
  | .ending id _ _ | .crashing id => some id
  | _ => none

def Task.storing : Task → Option JobId
  | .seal id _ _ | .written id _ _ | .sync id _ _ | .synced id _ _ | .rename id _ _ => some id
  | .renamed id _ _ _ | .syncDir id _ _ _ | .insert id _ _ _ => some id
  | _ => none

def Task.inPlace : Task → Option (JobId × Nat)
  | .renamed id _ phys _ | .syncDir id _ phys _ | .insert id _ phys _ => some (id, phys)
  | _ => none

def Task.unlinkFailed : Task → Bool
  | .unlinked _ ok | .evicted _ ok => !ok
  | _ => false

/-- The task `t'` is of the same job, or of none that has marked victims. -/
structure Task.Follows (t t' : Task) : Prop where
  starts : ∀ id, t' ≠ .store id
  job : ∀ id, t'.job = some id → t.job = some id
  hand : t'.hand = t.hand ∨ t.hand = none
  storing : ∀ id, t'.storing = some id → t.storing = some id
  inPlace : ∀ r, t'.inPlace = some r → t.inPlace = some r
  unlinks : t'.unlinkFailed = false

namespace Task

variable {t t' : Task} {id : JobId}

theorem job_of_hand (h : t.hand = some id) : t.job = some id := by
  cases t <;> first | exact h | cases h

theorem hand_of_storing (h : t.storing = some id) : t.hand = some id := by
  cases t <;> first | exact h | cases h

theorem hand_of_inPlace {n : Nat} (h : t.inPlace = some (id, n)) : t.hand = some id := by
  cases t <;> cases h <;> rfl

theorem Follows.of_hand (hs : ∀ id, t' ≠ .store id) (hj : ∀ id, t'.job = some id → t.job = some id) (hh : t'.hand = none)
    (ht : t.hand = none) (hu : t'.unlinkFailed = false) : t.Follows t' where
  starts := hs
  job := hj
  hand := Or.inr ht
  storing id h := by cases hh.symm.trans (hand_of_storing h)
  inPlace := by
    rintro ⟨id, n⟩ h
    cases hh.symm.trans (hand_of_inPlace h)
  unlinks := hu

end Task

/-! ## The invariant -/

/-- What the worker's task says of a job. -/
structure Job.Placed (v : View) (t : Task) (id : JobId) (j : Job) : Prop where
  started : t = .store id → j.kind = .store
  owner : j.victims ≠ [] → t.hand = some id
  room : t.storing = some id → v.Spare j.reserved
  sized : ∀ n, t.inPlace = some (id, n) → n ≤ j.reserved

/-- A job of the table. -/
structure Job.Held (v : View) (id : JobId) (j : Job) : Prop where
  placed : j.Placed v v.task id
  young : id < v.next
  recovered : v.recovered = true
  store : j.kind = .store → 0 < j.reserved ∧ j.crashed = false ∧ j.header ≠ none ∧ j.src ≠ none
  fits : v.Fits j.victims

structure View.Quota (v : View) : Prop where
  sums : v.index.Aggregates
  unit : 0 < v.unit
  opened : v.admits = true → v.recovered = true
  working : ∀ id, v.task.job = some id → id < v.next
  unlinks : v.task.unlinkFailed = false
  booked : Table.total v.jobs Job.reserved ≤ v.reserved
  fits : v.recovered = true → v.Fits []
  held : ∀ (id : JobId) (j : Job), v.jobs[id]? = some j → j.Held v id

/-- The table and what goes with it is the same. -/
structure View.Frame (v v' : View) : Prop where
  unit : v'.unit = v.unit
  recovered : v'.recovered = v.recovered
  admits : v'.admits = v.admits
  next : v'.next = v.next
  reserved : v'.reserved = v.reserved
  jobs : v'.jobs = v.jobs

variable {P : Primitives} {v v' : View} {t t' : Task} {id : JobId} {j j' : Job} {x : Index}

namespace Job.Placed

theorem below (h : j.Placed v t id) (hb : v.Below v') : j.Placed v' t id where
  started := h.started
  owner := h.owner
  room hr := hb.spare (h.room hr)
  sized := h.sized

theorem follows (h : j.Placed v t id) (hb : v.Below v') (hf : t.Follows t') : j.Placed v' t' id where
  started ht := absurd ht (hf.starts id)
  owner hv := by
    rcases hf.hand with hh | hh
    · rw [hh]
      exact h.owner hv
    · cases hh.symm.trans (h.owner hv)
  room hr := hb.spare (h.room (hf.storing id hr))
  sized n hn := h.sized n (hf.inPlace _ hn)

theorem away (hh : t.hand ≠ some id) (hv : j.victims = []) : j.Placed v t id where
  started ht := by
    subst ht
    exact absurd rfl hh
  owner hne := absurd hv hne
  room hr := absurd (Task.hand_of_storing hr) hh
  sized n hn := absurd (Task.hand_of_inPlace hn) hh

end Job.Placed

namespace View.Quota

theorem retask (h : v.Quota) (hf : v.Frame v') (hb : v.Below v') (hs : v'.index.Aggregates)
    (hw : ∀ id, v'.task.job = some id → id < v.next) (hu : v'.task.unlinkFailed = false)
    (hp : ∀ (id : JobId) (j : Job), v.jobs[id]? = some j → j.Placed v' v'.task id) : v'.Quota where
  sums := hs
  unit := by
    rw [hf.unit]
    exact h.unit
  opened := by
    rw [hf.admits, hf.recovered]
    exact h.opened
  working := by
    rw [hf.next]
    exact hw
  unlinks := hu
  booked := by
    rw [hf.jobs, hf.reserved]
    exact h.booked
  fits hr := hb.fits (h.fits (hf.recovered ▸ hr))
  held id j hj := by
    rw [hf.jobs] at hj
    have held := h.held id j hj
    exact ⟨hp id j hj, hf.next ▸ held.young, hf.recovered ▸ held.recovered, held.store, hb.fits held.fits⟩

theorem follows (h : v.Quota) (hf : v.Frame v') (hb : v.Below v') (hs : v'.index.Aggregates)
    (ht : v.task.Follows v'.task) : v'.Quota :=
  h.retask hf hb hs (fun id hj => h.working id (ht.job id hj)) ht.unlinks
    fun id j hj => (h.held id j hj).placed.follows hb ht

theorem stays (h : v.Quota) (hf : v.Frame v') (hb : v.Below v') (hs : v'.index.Aggregates) (ht : v'.task = v.task) :
    v'.Quota := by
  refine h.retask hf hb hs ?_ ?_ fun id j hj => ?_
  · rw [ht]
    exact h.working
  · rw [ht]
    exact h.unlinks
  · rw [ht]
    exact (h.held id j hj).placed.below hb

theorem note (h : v.Quota) (e : Event) : (v.note e).Quota :=
  h.stays ⟨rfl, rfl, rfl, rfl, rfl, rfl⟩ (.of_eq rfl rfl rfl) h.sums rfl

theorem frees (h : v.Quota) (hf : v.Frame v') (hb : v.Below v') (hs : v'.index.Aggregates) (ht : v'.task = .free)
    (hv : ∀ (id : JobId) (j : Job), v.jobs[id]? = some j → j.victims = []) : v'.Quota := by
  refine h.retask hf hb hs ?_ ?_ fun id j hj => ?_
  · rw [ht]
    exact fun id hj => nomatch hj
  · rw [ht]
    rfl
  · rw [ht]
    exact .away (nomatch ·) (hv id j hj)

theorem victims_nil (h : v.Quota) (hj : v.jobs[id]? = some j) (hh : v.task.hand ≠ some id) : j.victims = [] :=
  by_contra fun hv => hh ((h.held id j hj).placed.owner hv)

/-! ### Jobs -/

/-- The job with another phase or mark. -/
structure Alike (j j' : Job) : Prop where
  kind : j'.kind = j.kind
  reserved : j'.reserved = j.reserved
  crashed : j'.crashed = j.crashed
  header : j'.header = j.header
  src : j'.src = j.src
  victims : j'.victims = j.victims

theorem alters (h : v.Quota) {jobs : ExtTreeMap JobId Job} {F : JobId → Job → Job}
    (hget : ∀ id : JobId, jobs[id]? = v.jobs[id]?.map (F id))
    (hF : ∀ (id : JobId) (j : Job), v.jobs[id]? = some j → Alike j (F id j)) : View.Quota { v with jobs } where
  sums := h.sums
  unit := h.unit
  opened := h.opened
  working := h.working
  unlinks := h.unlinks
  booked := by
    have htotal : Table.total jobs Job.reserved = Table.total v.jobs Job.reserved := by
      refine Table.total_congr (f := Job.reserved) (w := fun n => n) fun id => ?_
      rw [hget]
      cases hj : v.jobs[id]? with
      | none => rfl
      | some j => exact congrArg some (hF id j hj).reserved
    exact htotal.trans_le h.booked
  fits := h.fits
  held id j' hj' := by
    obtain ⟨j, hj, rfl⟩ := Option.map_eq_some_iff.1 ((hget id).symm.trans hj')
    have held := h.held id j hj
    have same := hF id j hj
    refine ⟨⟨?_, ?_, ?_, ?_⟩, held.young, held.recovered, ?_, ?_⟩
    · rw [same.kind]
      exact held.placed.started
    · rw [same.victims]
      exact held.placed.owner
    · rw [same.reserved]
      exact held.placed.room
    · rw [same.reserved]
      exact held.placed.sized
    · rw [same.kind, same.reserved, same.crashed, same.header, same.src]
      exact held.store
    · rw [same.victims]
      exact held.fits

theorem altersOne (h : v.Quota) (hj : v.jobs[id]? = some j) (hs : Alike j j') :
    View.Quota { v with jobs := v.jobs.insert id j' } := by
  refine h.alters (F := fun i k => if id = i then j' else k) (fun i => ?_) fun i k hk => ?_
  · rw [Table.get_insert]
    split_ifs with hi
    · rw [← hi, hj]
      rfl
    · cases v.jobs[i]? <;> rfl
  · split_ifs with hi
    · subst hi
      obtain rfl := Option.some.inj (hj.symm.trans hk)
      exact hs
    · exact ⟨rfl, rfl, rfl, rfl, rfl, rfl⟩

theorem accepts (h : v.Quota) (hf : j.Fresh v) : View.Quota { v with
    next := v.next + 1
    reserved := v.reserved + j.reserved
    inflight := if j.kind = Kind.store then v.inflight.insert j.key j.id else v.inflight
    jobs := v.jobs.insert j.id j } := by
  have hrec := h.opened hf.admitted
  have hnew : v.jobs[j.id]? = none := by
    rw [hf.id]
    cases hj : v.jobs[v.next]? with
    | none => rfl
    | some k => exact absurd (h.held _ k hj).young (Nat.lt_irrefl _)
  have hfree : v.task.hand ≠ some j.id := by
    intro hh
    have := h.working _ (Task.job_of_hand hh)
    rw [hf.id] at this
    exact Nat.lt_irrefl _ this
  obtain ⟨-, -, -, hcrashed, hvictims⟩ := hf.waits
  refine ⟨h.sums, h.unit, h.opened, ?_, h.unlinks, ?_, h.fits, fun id k hk => ?_⟩
  · exact fun id hid => Nat.lt_succ_of_lt (h.working id hid)
  · show Table.total (v.jobs.insert j.id j) Job.reserved ≤ v.reserved + j.reserved
    rw [Table.total_insert_new hnew]
    exact Nat.add_le_add_right h.booked _
  · replace hk : (v.jobs.insert j.id j)[id]? = some k := hk
    rw [Table.get_insert] at hk
    split_ifs at hk with hid
    · subst hid
      obtain rfl := Option.some.inj hk
      refine ⟨.away hfree hvictims, ?_, hrec, fun hkind => ?_, ?_⟩
      · show j.id < v.next + 1
        rw [hf.id]
        exact Nat.lt_succ_self _
      · obtain ⟨header, src, hh, hs, -, hres⟩ := hf.store hkind
        refine ⟨?_, hcrashed, by simp [hh], by simp [hs]⟩
        rw [hres]
        unfold Inner.roundUp
        refine Nat.mul_pos (Nat.div_pos ?_ h.unit) h.unit
        have : 0 < headerRegionLen := by decide
        omega
      · rw [hvictims]
        exact h.fits hrec
    · have held := h.held id k hk
      exact ⟨held.placed.below (.of_eq rfl rfl rfl), Nat.lt_succ_of_lt held.young, hrec, held.store, held.fits⟩

/-! ### Endings -/

/-- A job leaves the table. Nothing more counts, or its victims return and what counts then still fits. -/
theorem leaves (h : v.Quota) (hj : v.jobs[id]? = some j)
    (hsame : v'.unit = v.unit ∧ v'.recovered = v.recovered ∧ v'.admits = v.admits ∧ v'.next = v.next)
    (hjobs : v'.jobs = v.jobs.erase id) (hres : v'.reserved = v.reserved - j.reserved) (hs : v'.index.Aggregates)
    (hback : v.Below v' ∨ v.task.hand = some id ∧ v'.Fits [])
    (ht : v'.task = v.task ∨ v'.task = .free ∧ (v.task.hand = none ∨ v.task.hand = some id)) : v'.Quota where
  sums := hs
  unit := by
    rw [hsame.1]
    exact h.unit
  opened := by
    rw [hsame.2.2.1, hsame.2.1]
    exact h.opened
  working id hid := by
    rw [hsame.2.2.2]
    rcases ht with ht | ⟨ht, -⟩
    · exact h.working id (ht ▸ hid)
    · rw [ht] at hid
      cases hid
  unlinks := by
    rcases ht with ht | ⟨ht, -⟩
    · rw [ht]
      exact h.unlinks
    · rw [ht]
      rfl
  booked := by
    have htotal := Table.total_erase (w := Job.reserved) hj
    have hbooked := h.booked
    rw [hjobs, hres]
    omega
  fits hr := by
    rcases hback with hb | ⟨-, hf⟩
    · exact hb.fits (h.fits (hsame.2.1 ▸ hr))
    · exact hf
  held id' k hk := by
    rw [hjobs, Table.get_erase] at hk
    split_ifs at hk with hne
    have held := h.held id' k hk
    refine ⟨?_, hsame.2.2.2 ▸ held.young, hsame.2.1 ▸ held.recovered, held.store, ?_⟩
    · rcases ht with ht | ⟨ht, hhand⟩
      · rw [ht]
        rcases hback with hb | ⟨hhand, -⟩
        · exact held.placed.below hb
        · have hother : v.task.hand ≠ some id' := fun hh => hne (Option.some.inj (hhand.symm.trans hh))
          exact .away hother (h.victims_nil hk hother)
      · rw [ht]
        refine .away (nomatch ·) (h.victims_nil hk ?_)
        rcases hhand with hhand | hhand
        · rw [hhand]
          exact (nomatch ·)
        · rw [hhand]
          exact fun hh => hne (Option.some.inj hh)
    · rcases hback with hb | ⟨hhand, hf⟩
      · exact hb.fits held.fits
      · rw [h.victims_nil hk fun hh => hne (Option.some.inj (hhand.symm.trans hh))]
        exact hf

end View.Quota

/-- The index after an ending: with the victims returned or not, and perhaps a busy reference less. -/
theorem View.gives_index (v : View) (j : Job) (durable : Bool) :
    ∃ y, (y = v.index ∨ durable = false ∧ y = j.victims.foldl Index.clearEvicting v.index) ∧
      ((v.gives j durable).index = y ∨ (v.gives j durable).index = y.busyDec j.key) := by
  unfold View.gives View.freesBusy View.freesKey View.settles
  dsimp only
  cases durable
  · by_cases hk : j.kind = .store
    · refine ⟨_, Or.inr ⟨rfl, rfl⟩, ?_⟩
      rw [if_pos hk]
      simp only [Bool.false_eq_true, if_false]
      split_ifs <;> first | exact Or.inl rfl | exact Or.inr rfl
    · refine ⟨_, Or.inl rfl, ?_⟩
      rw [if_neg hk]
      split_ifs
      · exact Or.inr rfl
      · exact Or.inl rfl
  · refine ⟨_, Or.inl rfl, ?_⟩
    simp only [if_true]
    split_ifs <;> first | exact Or.inl rfl | exact Or.inr rfl

namespace View.Quota

/-- A job ends over the index `x`, which may have its object. -/
theorem gives (h : v.Quota) (hj : v.jobs[id]? = some j) (hx : x.Aggregates) (hres : j'.reserved = j.reserved)
    (hvs : j'.victims = j.victims) (durable : Bool)
    (hback : v.index.Lower x ∧ (j.victims = [] ∨ durable = true) ∨ v.task.hand = some id ∧
      ∀ y, y = x ∨ durable = false ∧ y = j.victims.foldl Index.clearEvicting x → View.Fits { v with index := y } [])
    (ht : t = v.task ∨ t = .free ∧ (v.task.hand = none ∨ v.task.hand = some id)) :
    ((({ v with index := x }.goto t).takes id).gives j' durable).Quota := by
  obtain ⟨y, hy, hindex⟩ := View.gives_index (({ v with index := x }.goto t).takes id) j' durable
  rw [hvs] at hy
  rw [View.gives_eq]
  generalize ((({ v with index := x }.goto t).takes id).gives j' durable).index = z at hindex ⊢
  have hy : y = x ∨ durable = false ∧ y = j.victims.foldl Index.clearEvicting x := hy
  have hya : y.Aggregates := by
    rcases hy with rfl | ⟨-, rfl⟩
    · exact hx
    · exact hx.foldl_clear j.victims
  have hza : z.Aggregates := by
    rcases hindex with rfl | rfl
    · exact hya
    · exact hya.busyDec _
  have hzy : y.Lower z := by
    rcases hindex with rfl | rfl
    · exact .of_map rfl
    · exact .of_map Index.map_busyDec
  refine h.leaves hj ⟨rfl, rfl, rfl, rfl⟩ rfl (congrArg (v.reserved - ·) hres) hza ?_ ht
  rcases hback with ⟨hlower, hnil⟩ | ⟨hhand, hfits⟩
  · refine Or.inl ⟨rfl, hlower.trans ?_, Nat.le_refl _⟩
    rcases hy with rfl | ⟨hd, rfl⟩
    · exact hzy
    · rcases hnil with hnil | hnil
      · rw [hnil] at hzy
        exact hzy
      · cases hd.symm.trans hnil
  · refine Or.inr ⟨hhand, ?_⟩
    have hbelow : View.Below { v with index := y } (({ v with index := z }.goto t).takes id) := ⟨rfl, hzy, Nat.le_refl _⟩
    exact hbelow.fits (hfits y hy)

theorem quits (h : v.Quota) (hj : v.jobs[id]? = some j) (durable : Bool)
    (ht : t = v.task ∨ t = .free ∧ (v.task.hand = none ∨ v.task.hand = some id)) :
    (((v.goto t).takes id).gives j durable).Quota := by
  have held := h.held id j hj
  refine h.gives hj h.sums rfl rfl durable ?_ ht
  by_cases hv : j.victims = []
  · exact Or.inl ⟨.of_map rfl, Or.inl hv⟩
  · refine Or.inr ⟨held.placed.owner hv, ?_⟩
    rintro y (rfl | ⟨-, rfl⟩)
    · exact h.fits held.recovered
    · exact held.fits.clear

theorem ends {terminal : Terminal} {durable : Bool} (h : v.Quota) (hj : v.jobs[id]? = some j)
    (he : Ending v id j terminal durable t) : (v.ended id j terminal durable t).Quota := by
  refine (h.quits hj durable ?_).note _
  cases he with
  | reaped hc hs => exact Or.inl rfl
  | stopped ht hc =>
    refine Or.inr ⟨rfl, ?_⟩
    rcases ht with ht | ht | ⟨key, file, ht⟩
    · rw [ht]
      exact Or.inr rfl
    · rw [ht]
      exact Or.inl rfl
    · rw [ht]
      exact Or.inr rfl
  | refused e ht | failed e degrade ht =>
    refine Or.inr ⟨rfl, ?_⟩
    rw [ht]
    exact Or.inr rfl
  | noop ht | landed key ht | flushed ht | unflushed e ht =>
    refine Or.inr ⟨rfl, ?_⟩
    rw [ht]
    exact Or.inl rfl

theorem publishes {key : ChunkKey} {phys m : Nat} {e : IndexEntry} (h : v.Quota) (hj : v.jobs[id]? = some j)
    (ht : v.task = .insert id key phys m) (he : e.physBytes = phys) :
    (v.published id j key e (.done .durable) true).Quota := by
  have held := h.held id j hj
  have hhand : v.task.hand = some id := by rw [ht]; rfl
  refine note (h.gives hj (h.sums.insert key e) rfl rfl true (Or.inr ⟨hhand, ?_⟩) (Or.inr ⟨rfl, Or.inr hhand⟩)) _
  rintro y (rfl | ⟨hd, -⟩)
  · refine (held.placed.room (by rw [ht]; rfl)).insert ?_
    rw [he]
    exact held.placed.sized phys (by rw [ht]; rfl)
  · cases hd

theorem publishesUnsynced {key : ChunkKey} {phys m : Nat} {e : IndexEntry} {err : PlatformError} (h : v.Quota)
    (hj : v.jobs[id]? = some j) (ht : v.task = .indeterminate id key phys m err) (he : e.indeterminate = true) :
    (v.published id j key e (.failed err) false).Quota := by
  have held := h.held id j hj
  have hhand : v.task.hand = some id := by rw [ht]; rfl
  refine note (h.gives hj (h.sums.insert key e) rfl rfl false (Or.inr ⟨hhand, ?_⟩) (Or.inr ⟨rfl, Or.inr hhand⟩)) _
  rintro y (rfl | ⟨-, rfl⟩)
  · exact (h.fits held.recovered).insert he
  · exact (held.fits.insert (k := key) he).clear

theorem loses {key : ChunkKey} (h : v.Quota) (hj : v.jobs[id]? = some j)
    (ht : v.task = .missing id key ∨ v.task = .corrupt id key) (e : PlatformError) : (v.lost id j key e).Quota := by
  have hhand : v.task.hand = none := by
    rcases ht with ht | ht
    · rw [ht]
      rfl
    · rw [ht]
      rfl
  have hnil : j.victims = [] := h.victims_nil hj (by rw [hhand]; exact (nomatch ·))
  have hreserved : Job.reserved { j with busyHeld := false } = j.reserved := rfl
  refine note (h.gives hj ?_ hreserved rfl false (Or.inl ⟨?_, Or.inl hnil⟩) (Or.inr ⟨rfl, Or.inl hhand⟩)) _
  · split_ifs
    · exact (h.sums.busyDec key).remove key
    · exact h.sums.remove key
  · split_ifs
    · exact (Index.Lower.of_map Index.map_busyDec).trans .remove
    · exact .remove

end View.Quota

/-! ## Moves -/

theorem Task.hand_of_bare (h : t.bare = true) : t.hand = none ∧ t.job = none ∧ t.unlinkFailed = false := by
  cases t <;> first | exact ⟨rfl, rfl, rfl⟩ | cases h

theorem Task.Follows.bare (h : t'.bare = true) (ht : t.hand = none) : t.Follows t' := by
  obtain ⟨hhand, hjob, hfailed⟩ := Task.hand_of_bare h
  refine .of_hand ?_ ?_ hhand ht hfailed
  · rintro id rfl
    cases h
  · intro id hid
    cases hjob.symm.trans hid

/-- Where the worker goes it stays with its job, or the job has gone, or it was a store without header or source. -/
theorem goes_follows (h : Goes P v t t') : t.Follows t' ∨ t' = .free ∧ ∃ id, t.hand = some id ∧
    (v.jobs[id]? = none ∨ ∃ j, v.jobs[id]? = some j ∧ t = .store id ∧ (j.header = none ∨ j.src = none)) := by
  cases h with
  | rests _ _ ht ht' => exact Or.inl (.bare ht' (Task.hand_of_bare ht).1)
  | misses _ id hp hj =>
    cases t with
    | store id' =>
      obtain rfl := Option.some.inj hp
      exact Or.inr ⟨rfl, id', rfl, Or.inl hj⟩
    | noop id' | load id' | flush id' => exact Or.inl (.bare rfl rfl)
    | _ => cases hp
  | missesWritten id key file hj => exact Or.inr ⟨rfl, id, rfl, Or.inl hj⟩
  | malformed _ id j ht hj hm =>
    rcases ht with rfl | rfl
    · refine Or.inr ⟨rfl, id, rfl, Or.inr ⟨j, hj, rfl, ?_⟩⟩
      rcases hm with hm | ⟨-, hm⟩
      · exact Or.inl hm
      · exact Or.inr hm
    · exact Or.inl (.bare rfl rfl)
  | unlinkCrash u => exact Or.inl (.bare rfl rfl)
  | skips path key => exact Or.inl (.bare rfl rfl)
  | lists path key hp => exact Or.inl (.of_hand nofun nofun rfl rfl rfl)
  | looks path key hx hi => exact Or.inl (.of_hand nofun nofun rfl rfl rfl)
  | purgeFails path key r hr => exact Or.inl (.of_hand nofun nofun rfl rfl rfl)
  | misread id key expect => exact Or.inl (.of_hand nofun (fun _ h => h) rfl rfl rfl)
  | reads id key expect node region payload hd hr hf => exact Or.inl (.of_hand nofun (fun _ h => h) rfl rfl rfl)
  | lands id key region payload i hi => exact Or.inl (.of_hand nofun (fun _ h => h) rfl rfl rfl)
  | flushed id r => exact Or.inl (.of_hand nofun (fun _ h => h) rfl rfl rfl)
  | rejects _ id key ht =>
    rcases ht with ⟨expect, rfl⟩ | ⟨region, payload, i, rfl⟩
    · exact Or.inl (.of_hand nofun (fun _ h => h) rfl rfl rfl)
    · exact Or.inl (.of_hand nofun (fun _ h => h) rfl rfl rfl)
  | vacant | seals | synced =>
    exact Or.inl ⟨nofun, fun _ h => h, Or.inl rfl, fun _ h => h, nofun, rfl⟩
  | vacantDir | syncedDir =>
    exact Or.inl ⟨nofun, fun _ h => h, Or.inl rfl, fun _ h => h, fun _ h => h, rfl⟩
  | unsynced => exact Or.inl ⟨nofun, fun _ h => h, Or.inl rfl, nofun, nofun, rfl⟩
  | fails _ id e degrade ht =>
    rcases ht with ⟨key, file, rfl | rfl | rfl⟩ | ⟨key, expect, rfl⟩ | ⟨key, region, payload, i, rfl⟩
    · exact Or.inl ⟨nofun, fun _ h => h, Or.inl rfl, nofun, nofun, rfl⟩
    · exact Or.inl ⟨nofun, fun _ h => h, Or.inl rfl, nofun, nofun, rfl⟩
    · exact Or.inl ⟨nofun, fun _ h => h, Or.inl rfl, nofun, nofun, rfl⟩
    · exact Or.inl ⟨nofun, fun _ h => h, Or.inr rfl, nofun, nofun, rfl⟩
    · exact Or.inl ⟨nofun, fun _ h => h, Or.inr rfl, nofun, nofun, rfl⟩
  | crashes _ id ht =>
    rcases ht with ⟨key, file, rfl | rfl | rfl⟩ | ⟨key, phys, m, rfl | rfl⟩ | ⟨key, expect, rfl⟩ | rfl
    · exact Or.inl ⟨nofun, fun _ h => h, Or.inl rfl, nofun, nofun, rfl⟩
    · exact Or.inl ⟨nofun, fun _ h => h, Or.inl rfl, nofun, nofun, rfl⟩
    · exact Or.inl ⟨nofun, fun _ h => h, Or.inl rfl, nofun, nofun, rfl⟩
    · exact Or.inl ⟨nofun, fun _ h => h, Or.inl rfl, nofun, nofun, rfl⟩
    · exact Or.inl ⟨nofun, fun _ h => h, Or.inl rfl, nofun, nofun, rfl⟩
    · exact Or.inl ⟨nofun, fun _ h => h, Or.inr rfl, nofun, nofun, rfl⟩
    · exact Or.inl ⟨nofun, fun _ h => h, Or.inr rfl, nofun, nofun, rfl⟩

/-- What went as it should: no unlink of a marked object failed, files are as large as their jobs reserved for them,
recovery found no more than fits. -/
def Event.calm (c : HostFsConfig) : Event → Prop
  | .unlinkFailed _ => False
  | .published _ _ phys reserved => phys ≤ reserved
  | .recovered used objects => used ≤ c.quotaBytes ∧ objects ≤ c.maxObjects
  | _ => True

instance (c : HostFsConfig) : (e : Event) → Decidable (e.calm c)
  | .unlinkFailed _ => .isFalse (fun h => h)
  | .published _ _ phys reserved => inferInstanceAs (Decidable (phys ≤ reserved))
  | .recovered used objects => inferInstanceAs (Decidable (used ≤ c.quotaBytes ∧ objects ≤ c.maxObjects))
  | .accepted _ _ _ | .cancelled _ | .ended _ _ _ | .wrote _ _ | .victim _ _ | .unlinked _ _ _ | .picked _ _ _ =>
    .isTrue trivial

def Calm (c : HostFsConfig) (history : List Event) : Prop := ∀ e ∈ history, e.calm c

instance (c : HostFsConfig) (history : List Event) : Decidable (Calm c history) :=
  inferInstanceAs (Decidable (∀ e ∈ history, e.calm c))

namespace View.Quota

theorem unlinkPath (h : v.Quota) (path : Path) (chosenBy : Option JobId) : (v.unlinkPath path chosenBy).Quota := by
  unfold View.unlinkPath
  split
  · exact h
  · exact h.stays ⟨rfl, rfl, rfl, rfl, rfl, rfl⟩ (.of_eq rfl rfl rfl) h.sums rfl

theorem unlinkPath_task (v : View) (path : Path) (chosenBy : Option JobId) : (v.unlinkPath path chosenBy).task = v.task := by
  unfold View.unlinkPath
  split <;> rfl

theorem goto (h : v.Quota) (ht : v.task.Follows t) : (v.goto t).Quota :=
  h.follows ⟨rfl, rfl, rfl, rfl, rfl, rfl⟩ (.of_eq rfl rfl rfl) h.sums ht

/-- The worker is done with an unlink, and goes on with another index. -/
theorem reindex (h : v.Quota) (hx : v.index.Lower x) (hs : x.Aggregates) (ht : v.task.Follows t) :
    ({ v with index := x }.goto t).Quota :=
  h.follows ⟨rfl, rfl, rfl, rfl, rfl, rfl⟩ ⟨rfl, hx, Nat.le_refl _⟩ hs ht

theorem goes (h : v.Quota) (hg : Goes P v v.task t) : (v.goto t).Quota := by
  rcases goes_follows hg with hf | ⟨rfl, id, hhand, hj⟩
  · exact h.goto hf
  · refine h.frees ⟨rfl, rfl, rfl, rfl, rfl, rfl⟩ (.of_eq rfl rfl rfl) h.sums rfl fun id' k hk => h.victims_nil hk ?_
    intro hh
    obtain rfl := Option.some.inj (hhand.symm.trans hh)
    rcases hj with hj | ⟨j, hj, ht, hm⟩
    · cases hj.symm.trans hk
    · obtain rfl := Option.some.inj (hj.symm.trans hk)
      have held := h.held id j hj
      obtain ⟨-, -, hheader, hsrc⟩ := held.store (held.placed.started ht)
      rcases hm with hm | hm
      · exact hheader hm
      · exact hsrc hm

theorem absent (h : v.Quota) (hj : v.jobs[id]? = none) (ht : v.task.job = some id) : (v.goto .free).Quota := by
  refine h.frees ⟨rfl, rfl, rfl, rfl, rfl, rfl⟩ (.of_eq rfl rfl rfl) h.sums rfl fun id' k hk => h.victims_nil hk ?_
  intro hh
  obtain rfl := Option.some.inj (ht.symm.trans (Task.job_of_hand hh))
  cases hj.symm.trans hk

theorem marks {k : ChunkKey} (h : v.Quota) (hj : v.jobs[id]? = some j) (ht : v.task = .store id)
    (hx : v.index.markEvicting k = some x) :
    View.Quota { v with index := x, jobs := v.jobs.insert id { j with victims := j.victims ++ [k] } } := by
  have held := h.held id j hj
  have hbelow : v.Below { v with index := x } := ⟨rfl, .markEvicting hx, Nat.le_refl _⟩
  refine ⟨h.sums.markEvicting hx, h.unit, h.opened, h.working, h.unlinks, ?_, fun hr => hbelow.fits (h.fits hr), ?_⟩
  · show Table.total (v.jobs.insert id { j with victims := j.victims ++ [k] }) Job.reserved ≤ v.reserved
    have htotal := Table.total_insert (w := Job.reserved) (v := { j with victims := j.victims ++ [k] }) hj
    have hbooked := h.booked
    have hsame : Job.reserved { j with victims := j.victims ++ [k] } = j.reserved := rfl
    omega
  · intro id' k' hk'
    replace hk' : (v.jobs.insert id { j with victims := j.victims ++ [k] })[id']? = some k' := hk'
    rw [Table.get_insert] at hk'
    split_ifs at hk' with hid
    · subst hid
      obtain rfl := Option.some.inj hk'
      have hhand : v.task.hand = some id := by rw [ht]; rfl
      exact ⟨⟨held.placed.started, fun _ => hhand, fun hr => hbelow.spare (held.placed.room hr), held.placed.sized⟩,
        held.young, held.recovered, held.store, held.fits.mark hx⟩
    · have held := h.held id' k' hk'
      have hplaced := held.placed.below hbelow
      exact ⟨⟨hplaced.started, hplaced.owner, hplaced.room, hplaced.sized⟩, held.young, held.recovered, held.store,
        hbelow.fits held.fits⟩

theorem enters (h : v.Quota) (hj : v.jobs[id]? = some j) (he : Enters P v id j j' t) :
    ({ v with jobs := v.jobs.insert id j' }.goto t).Quota := by
  have held := h.held id j hj
  have hjobs : ∀ j', Alike j j' → View.Quota { v with jobs := v.jobs.insert id j' } := fun j' hs => h.altersOne hj hs
  have hgo : ∀ j' t, Alike j j' → v.task.Follows t → ({ v with jobs := v.jobs.insert id j' }.goto t).Quota :=
    fun j' t hs hf => (hjobs j' hs).goto hf
  cases he with
  | store header src file ht hc hroom hh hs hf =>
    -- the room that was made becomes the place of this object
    have hkind := held.placed.started ht
    obtain ⟨hpos, hcrashed, -, -⟩ := held.store hkind
    have hspare := hroom.spare h.sums hj h.booked hkind hpos hcrashed
    refine (hjobs { j with phase := .writing, inStep := true } ⟨rfl, rfl, rfl, rfl, rfl, rfl⟩).retask
      ⟨rfl, rfl, rfl, rfl, rfl, rfl⟩ (.of_eq rfl rfl rfl) h.sums ?_ rfl fun id' k hk => ?_
    · intro id' hid'
      refine h.working id' ?_
      rw [ht]
      exact hid'
    · replace hk : (v.jobs.insert id { j with phase := .writing, inStep := true })[id']? = some k := hk
      rw [Table.get_insert] at hk
      split_ifs at hk with hid
      · subst hid
        obtain rfl := Option.some.inj hk
        exact ⟨nofun, fun _ => rfl, fun _ => hspare, nofun⟩
      · have hother : Task.hand (.seal id j.key file) ≠ some id' := fun hh => hid (Option.some.inj hh)
        refine .away hother (h.victims_nil hk ?_)
        rw [ht]
        exact hother
  | written key file ht hc =>
    refine hgo _ _ ⟨rfl, rfl, rfl, rfl, rfl, rfl⟩ ?_
    rw [ht]
    exact ⟨nofun, fun _ h => h, Or.inl rfl, fun _ h => h, nofun, rfl⟩
  | synced key file ht =>
    refine hgo _ _ ⟨rfl, rfl, rfl, rfl, rfl, rfl⟩ ?_
    rw [ht]
    exact ⟨nofun, fun _ h => h, Or.inl rfl, fun _ h => h, nofun, rfl⟩
  | renamed key phys m ht =>
    refine hgo _ _ ⟨rfl, rfl, rfl, rfl, rfl, rfl⟩ ?_
    rw [ht]
    exact ⟨nofun, fun _ h => h, Or.inl rfl, fun _ h => h, fun _ h => h, rfl⟩
  | load expect ht hc hh =>
    refine hgo _ _ ⟨rfl, rfl, rfl, rfl, rfl, rfl⟩ ?_
    rw [ht]
    exact .of_hand nofun (fun _ h => h) rfl rfl rfl
  | flush ht =>
    refine hgo _ _ ⟨rfl, rfl, rfl, rfl, rfl, rfl⟩ ?_
    rw [ht]
    exact .of_hand nofun (fun _ h => h) rfl rfl rfl

theorem picks {park w : Bool} {streak : Nat} (h : v.Quota) (hn : v.Named) (ht : v.task = .nextJob)
    (hj : v.nextOf park = some j) : (({ v with streak }.note (.picked j.id park w)).goto (Task.start j)).Quota := by
  obtain ⟨id, hget⟩ := Table.mem_values.1 (List.mem_of_find?_eq_some hj)
  obtain rfl := hn id j hget
  have hjob : (Task.start j).job = some j.id := by
    unfold Task.start
    cases j.kind <;> rfl
  have hnone : v.task.hand = none := by rw [ht]; rfl
  refine h.retask ⟨rfl, rfl, rfl, rfl, rfl, rfl⟩ (.of_eq rfl rfl rfl) h.sums ?_ ?_ fun id' k hk => ?_
  · intro id' hid'
    obtain rfl := Option.some.inj (hjob.symm.trans hid')
    exact (h.held _ j hget).young
  · show (Task.start j).unlinkFailed = false
    unfold Task.start
    cases j.kind <;> rfl
  · have hnil : k.victims = [] := h.victims_nil hk (by rw [hnone]; exact (nomatch ·))
    refine ⟨fun hs => ?_, fun hv => absurd hnil hv, fun hs => ?_, fun n hs => ?_⟩
    · have hs : Task.start j = .store id' := hs
      have hid : j.id = id' := Option.some.inj (hjob.symm.trans (congrArg Task.job hs))
      subst hid
      obtain rfl := Option.some.inj (hget.symm.trans hk)
      unfold Task.start at hs
      cases hkind : j.kind <;> rw [hkind] at hs <;> first | rfl | cases hs
    · have hs : (Task.start j).storing = some id' := hs
      unfold Task.start at hs
      cases hkind : j.kind <;> rw [hkind] at hs <;> cases hs
    · have hs : (Task.start j).inPlace = some (id', n) := hs
      unfold Task.start at hs
      cases hkind : j.kind <;> rw [hkind] at hs <;> cases hs

theorem unlinks_follows {path : Path} {chosenBy : Option JobId} (h : Unlinks v path chosenBy t) : v.task.Follows t := by
  cases h with
  | queued u ht | purge path key phys ht | evict k ht =>
    rw [ht]
    exact .of_hand nofun nofun rfl rfl rfl
  | read id key expect node ht hn hr | landing id key region payload i ht =>
    rw [ht]
    exact .of_hand nofun (fun _ h => h) rfl rfl rfl

theorem renames {w : View} {key : ChunkKey} {file : List UInt8} {phys m : Nat} (h : w.Quota)
    (ht : w.task = .rename id key file) (hsize : ∀ j, w.jobs[id]? = some j → phys ≤ j.reserved) :
    (w.goto (.renamed id key phys m)).Quota := by
  refine h.retask ⟨rfl, rfl, rfl, rfl, rfl, rfl⟩ (.of_eq rfl rfl rfl) h.sums ?_ rfl fun id' k hk => ?_
  · intro id' hid'
    refine h.working id' ?_
    rw [ht]
    exact hid'
  · have placed := (h.held id' k hk).placed
    rw [ht] at placed
    refine ⟨nofun, placed.owner, placed.room, fun n hn => ?_⟩
    obtain ⟨rfl, rfl⟩ := Prod.mk.inj (Option.some.inj hn)
    exact hsize k hk

theorem recovers (h : v.Quota) (hr : v.recovered = false) (hrec : Recovers v v') (hc : Calm v'.cfg v'.history) :
    v'.Quota := by
  -- before recovery is over there are no jobs, and nothing is promised
  have hnone : ∀ (id : JobId) (j : Job), v.jobs[id]? ≠ some j := by
    intro id j hj
    cases hr.symm.trans (h.held id j hj).recovered
  have hbefore : ∀ w : View, w.jobs = v.jobs → w.unit = v.unit → w.next = v.next → w.reserved = v.reserved →
      w.task = v.task → w.recovered = false → (w.admits = true → v.admits = true) → w.index.Aggregates → w.Quota := by
    intro w hjobs hunit hnext hres htask hrec' hadm hs
    refine ⟨hs, hunit ▸ h.unit, fun ha => ?_, ?_, htask ▸ h.unlinks, ?_, fun hr' => ?_, fun id j hj => ?_⟩
    · cases hr.symm.trans (h.opened (hadm ha))
    · rw [htask, hnext]
      exact h.working
    · rw [hjobs, hres]
      exact h.booked
    · cases hrec'.symm.trans hr'
    · exact absurd (hjobs ▸ hj) (hnone id j)
  cases hrec with
  | loose n => exact hbefore _ rfl rfl rfl rfl rfl hr (fun h => h) h.sums
  | unreadable path node n hn hk => exact hbefore _ rfl rfl rfl rfl rfl hr (fun h => h) h.sums
  | unlinks path node hn hk => exact h.unlinkPath path none
  | indexes k e he => exact hbefore _ rfl rfl rfl rfl rfl hr (fun h => h) (h.sums.insert k e)
  | fails => exact hbefore _ rfl rfl rfl rfl rfl hr (nomatch ·) h.sums
  | done =>
    have hfound : v.usedBytes ≤ v.cfg.quotaBytes ∧ v.index.map.size ≤ v.cfg.maxObjects :=
      hc _ (List.mem_append_right _ (List.mem_singleton_self _))
    have hbytes := h.sums.bytes
    have hcount := h.sums.count
    have hsure := Index.sum_sure_le_live (x := v.index) (w := fun n => n)
    have hsureCount := Index.sum_sure_le_live (x := v.index) (w := Index.one)
    have hfits : v.Fits [] := by
      unfold View.usedBytes at hfound
      exact ⟨by omega, by omega⟩
    have hdone : View.Quota { v with recovered := true, admits := true } :=
      ⟨h.sums, h.unit, fun _ => rfl, h.working, h.unlinks, h.booked, fun _ => hfits, fun id j hj => absurd hj (hnone id j)⟩
    exact hdone.note _

theorem opened_view (cfg : HostFsConfig) (disk : Disk) (pool : Nat → List UInt8) (log : List Log) (idOk : Bool)
    (unit : Nat) : (HostFsStore.openAt cfg disk pool log idOk unit).view.Quota where
  sums := Index.aggregates_empty
  unit := Nat.lt_of_lt_of_le (by decide) (Nat.le_max_right unit 512)
  opened ha := by cases idOk <;> cases ha
  working _ hj := nomatch hj
  unlinks := rfl
  booked := Nat.zero_le _
  fits hr := nomatch hr
  held id j hj := by
    have hempty : (∅ : ExtTreeMap JobId Job)[id]? = some j := hj
    simp at hempty

/-- Every move keeps the invariant, as long as all went as it should. -/
theorem move (h : v.Quota) (hn : v.Named) (hm : Move P v v') (hc : Calm v'.cfg v'.history) : v'.Quota := by
  cases hm with
  | accepts j hf => exact (h.accepts hf).note _
  | cancels id j hj hcan =>
    have hmarked : View.Quota { v with jobs := v.jobs.insert id { j with cancelling := true } } :=
      h.altersOne hj ⟨rfl, rfl, rfl, rfl, rfl, rfl⟩
    exact hmarked.note _
  | alters jobs F hget hF =>
    refine h.alters hget fun id j hj => ?_
    obtain ⟨b, n, he, -⟩ := hF id j hj
    rw [he]
    exact ⟨rfl, rfl, rfl, rfl, rfl, rfl⟩
  | serves x hx =>
    exact h.stays ⟨rfl, rfl, rfl, rfl, rfl, rfl⟩ ⟨rfl, .serves hx, Nat.le_refl _⟩ (h.sums.serves hx) rfl
  | deletes k x hx hi =>
    exact h.stays ⟨rfl, rfl, rfl, rfl, rfl, rfl⟩ ⟨rfl, .markEvicting hx, Nat.le_refl _⟩ (h.sums.markEvicting hx) rfl
  | ends id j terminal durable t hj he => exact h.ends hj he
  | crashes id j hj ht =>
    refine h.quits hj false (Or.inr ⟨rfl, ?_⟩)
    rw [ht]
    exact Or.inr rfl
  | publishes id j key phys m e hj ht he hi => exact h.publishes hj ht he.1
  | publishesUnsynced id j key phys m e err hj ht he hi => exact h.publishesUnsynced hj ht hi
  | loses id j key e hj ht => exact h.loses hj ht e
  | absent id hj ht => exact h.absent hj ht
  | marks id j k x hj ht hcan hk hx => exact (h.marks hj ht hx).note _
  | enters id j j' t hj he => exact h.enters hj he
  | goes t hg => exact h.goes hg
  | unlinks path chosenBy t hu =>
    refine (h.unlinkPath path chosenBy).goto ?_
    rw [unlinkPath_task]
    exact unlinks_follows hu
  | unlinkFails k t hk => exact absurd (hc _ (List.mem_append_right _ (List.mem_singleton_self _))) id
  | drops k ht =>
    refine h.reindex .remove (h.sums.remove k) ?_
    rcases ht with ⟨u, ht, -⟩ | ht
    · rw [ht]
      exact .bare rfl rfl
    · rw [ht]
      exact .bare rfl rfl
  | returns k ht =>
    have hfailed := h.unlinks
    rcases ht with ⟨u, ht, -⟩ | ht
    · rw [ht] at hfailed
      cases hfailed
    · rw [ht] at hfailed
      cases hfailed
  | evicts k x ht hk hx =>
    refine h.reindex (.markEvicting hx) (h.sums.markEvicting hx) ?_
    rw [ht]
    exact .of_hand nofun nofun rfl rfl rfl
  | pops u rest ht hu =>
    refine h.follows ⟨rfl, rfl, rfl, rfl, rfl, rfl⟩ (.of_eq rfl rfl rfl) h.sums ?_
    rw [ht]
    exact .of_hand nofun nofun rfl rfl rfl
  | picks j park w streak ht hp hj => exact h.picks hn ht hj
  | frees n hle ht =>
    refine h.follows ⟨rfl, rfl, rfl, rfl, rfl, rfl⟩ ⟨rfl, .of_map rfl, hle⟩ h.sums ?_
    rcases ht with ht | ⟨r, ht⟩
    · rw [ht]
      exact .bare rfl rfl
    · rw [ht]
      exact .bare rfl rfl
  | renames id key file phys m origin ht ho =>
    have hsize : phys ≤ (v.jobs[id]?.map Job.reserved).getD 0 :=
      hc _ (List.mem_append_right _ (List.mem_singleton_self _))
    refine renames (h.stays ⟨rfl, rfl, rfl, rfl, rfl, rfl⟩ (.of_eq rfl rfl rfl) h.sums rfl) ht fun j hj => ?_
    rw [show v.jobs[id]? = some j from hj] at hsize
    exact hsize
  | lands id key region payload data i b j dst ht hj hd hb hdata hsha hlen =>
    refine h.follows ⟨rfl, rfl, rfl, rfl, rfl, rfl⟩ (.of_eq rfl rfl rfl) h.sums ?_
    rw [ht]
    exact .of_hand nofun (fun _ h => h) rfl rfl rfl
  | logs l id key ht hl => exact h.stays ⟨rfl, rfl, rfl, rfl, rfl, rfl⟩ (.of_eq rfl rfl rfl) h.sums rfl
  | recovers v' hr hrec => exact h.recovers hr hrec hc
  | reopens idOk unit => exact opened_view _ _ _ _ idOk unit

end View.Quota

/-! ## Runs -/

/-- What happened stays known until the directory is opened again. -/
theorem history_move (hm : Move P v v') : v.history <+: v'.history ∧ v'.cfg = v.cfg ∨
    ∃ idOk unit, v' = (HostFsStore.openAt v.cfg v.disk v.pool v.log idOk unit).view := by
  have hgives : ∀ (w : View) (j : Job) (durable : Bool), (w.gives j durable).history = w.history ∧
      (w.gives j durable).cfg = w.cfg := by
    intro w j durable
    rw [View.gives_eq]
    exact ⟨rfl, rfl⟩
  have hended : ∀ (x : Index) (id : JobId) (j : Job) (terminal : Terminal) (durable : Bool) (t : Task),
      v.history <+: ({ v with index := x }.ended id j terminal durable t).history ∧
        ({ v with index := x }.ended id j terminal durable t).cfg = v.cfg := by
    intro x id j terminal durable t
    unfold View.ended View.note
    dsimp only
    rw [(hgives _ j durable).1, (hgives _ j durable).2]
    exact ⟨List.prefix_append _ _, rfl⟩
  have hunlink : ∀ (path : Path) (chosenBy : Option JobId), v.history <+: (v.unlinkPath path chosenBy).history ∧
      (v.unlinkPath path chosenBy).cfg = v.cfg := by
    intro path chosenBy
    unfold View.unlinkPath
    split
    · exact ⟨List.prefix_rfl, rfl⟩
    · exact ⟨List.prefix_append _ _, rfl⟩
  cases hm with
  | accepts | cancels | marks | unlinkFails | picks | renames | lands => exact Or.inl ⟨List.prefix_append _ _, rfl⟩
  | ends id j terminal durable t hj he => exact Or.inl (hended v.index id j terminal durable t)
  | crashes id j hj ht =>
    rw [(hgives _ j false).1, (hgives _ j false).2]
    exact Or.inl ⟨List.prefix_rfl, rfl⟩
  | publishes id j key phys m e hj ht he hi => exact Or.inl (hended _ id j _ true .free)
  | publishesUnsynced id j key phys m e err hj ht he hi => exact Or.inl (hended _ id j _ false .free)
  | loses id j key e hj ht => exact Or.inl (hended _ id _ _ false .free)
  | unlinks path chosenBy t hu => exact Or.inl (hunlink path chosenBy)
  | recovers v' hr hrec =>
    cases hrec with
    | unlinks path node hn hk => exact Or.inl (hunlink path none)
    | done => exact Or.inl ⟨List.prefix_append _ _, rfl⟩
    | _ => exact Or.inl ⟨List.prefix_rfl, rfl⟩
  | reopens idOk unit => exact Or.inr ⟨idOk, unit, rfl⟩
  | _ => exact Or.inl ⟨List.prefix_rfl, rfl⟩

theorem quota_run {s s' : HostFsStore} {steps : List HostFsStore.Step} (ho : s.Opened)
    (hrun : HostFsStore.run P steps s = some s') (hc : Calm s'.inner.cfg s'.inner.history) : s'.view.Quota := by
  refine HostFsStore.run_moves (J := fun v => Calm v.cfg v.history → v.Quota) ?_ ho.named ?_ hrun hc
  · intro v v' hn h hm hc
    rcases history_move hm with ⟨hpre, hcfg⟩ | ⟨idOk, unit, rfl⟩
    · refine (h fun e he => ?_).move hn hm hc
      rw [← hcfg]
      exact hc e (hpre.subset he)
    · exact View.Quota.opened_view _ _ _ _ idOk unit
  · intro _
    obtain ⟨cfg, disk, pool, log, idOk, unit, rfl⟩ := ho
    exact View.Quota.opened_view cfg disk pool log idOk unit

def Index.served (x : Index) : List (ChunkKey × IndexEntry) := x.map.toList.filter fun e => !e.2.evicting

def Index.unsynced (x : Index) : List (ChunkKey × IndexEntry) := x.served.filter fun e => e.2.indeterminate

theorem Index.sum_unsure (x : Index) (w : Nat → Nat) :
    x.sum w unsure = (x.unsynced.map fun e => w e.2.physBytes).sum := by
  have hfilter := Table.weigh_filter (m := x.map) (p := fun e => unsure e.1 e.2) (w := fun e => w e.physBytes)
  have hlist : (x.map.toList.filter fun e => unsure e.1 e.2) = x.unsynced := by
    unfold unsynced served
    rw [List.filter_filter]
    exact List.filter_congr fun e _ => Bool.and_comm _ _
  rw [← hlist]
  exact hfilter

theorem Index.length_served (x : Index) : x.served.length = x.sum one live := by
  have hfilter := Table.weigh_filter (m := x.map) (p := fun e => live e.1 e.2) (w := fun _ => 1)
  refine Eq.trans ?_ hfilter.symm
  rw [List.map_const', List.sum_replicate, smul_eq_mul, Nat.mul_one]
  rfl

/-- Let recovery have found no more than fits, let no unlink of a marked object have failed, and let every published file
be as large as its reservation at most. Then the bytes that count are within the quota, and the entries in service within
the limit, but for the objects whose directory sync failed. -/
theorem quota_safe {s s' : HostFsStore} {steps : List HostFsStore.Step} (ho : s.Opened)
    (hrun : HostFsStore.run P steps s = some s') (hr : s'.inner.recoveryDone = true)
    (hc : Calm s'.inner.cfg s'.inner.history) :
    s'.inner.usedBytes - s'.inner.index.evictingBytes ≤
        s'.inner.cfg.quotaBytes + (s'.inner.index.unsynced.map fun e => e.2.physBytes).sum ∧
      s'.inner.index.served.length ≤ s'.inner.cfg.maxObjects + s'.inner.index.unsynced.length := by
  have h := quota_run ho hrun hc
  have hbytes : s'.inner.index.sum (fun n => n) (Index.sure []) + s'.view.loose ≤ s'.inner.cfg.quotaBytes := (h.fits hr).1
  have hcount : s'.inner.index.sum Index.one (Index.sure []) ≤ s'.inner.cfg.maxObjects := (h.fits hr).2
  have hlive : s'.inner.usedBytes - s'.inner.index.evictingBytes =
      s'.inner.index.sum (fun n => n) Index.live + s'.view.loose := by
    rw [← show s'.view.usedBytes = s'.inner.usedBytes from (Nat.add_assoc _ _ _).symm]
    exact View.liveBytes_eq h.sums
  have hones : s'.inner.index.sum Index.one Index.unsure = s'.inner.index.unsynced.length := by
    rw [Index.sum_unsure]
    unfold Index.one
    rw [List.map_const', List.sum_replicate, smul_eq_mul, Nat.mul_one]
  rw [hlive, Index.length_served, Index.sum_live, Index.sum_live, hones, ← Index.sum_unsure s'.inner.index fun n => n]
  exact ⟨by omega, by omega⟩

def smallStore : HostFsStore :=
  .openAt { emptyStore.inner.cfg with quotaBytes := 5000, maxObjects := 1 } (fun _ => none) (fun _ => []) [] true 512

def smallHeader (key : ChunkKey) : ChunkHeader where
  namespaceId := 0
  chunkKey := key
  parentKey := 0
  modelSha256 := 0
  firstPosition := 0
  tokenCount := 1
  chunkTokens := 1
  blockSize := 1
  numLayers := 1
  numKvHeads := 1
  headDim := 1
  dtype := 1
  backendFormat := 1
  flags := 0
  payloadLen := 2
  writtenUnixNs := 0

def smallSource : PinnedSource := ⟨2, [[0, 0]], 1, by decide⟩

/-- A store job until its file is in place and the directory is synced, or not. -/
def storeSteps (key : ChunkKey) (sync : Answer) : List HostFsStore.Step :=
  [.submitStore (smallHeader key) smallSource flushInc, .work .ok, .work .ok, .work .ok, .work .ok,
    .work (.file true true), .work (.nonce (List.replicate 12 0)), .work .ok, .work .ok, .work .ok,
    .work (.stat 4608 0), .work .ok, .work sync, .work (.clock 0)]

def overQuota : Option HostFsStore :=
  HostFsStore.run ⟨fun _ => 0, fun _ _ p => some (p, List.replicate 16 0), fun _ _ _ p => some p⟩
    (.recover .done :: (storeSteps 1 .ok ++ storeSteps 2 (.fail (.hardwareFault "fsync")))) smallStore

theorem overQuota_end : ∃ s', overQuota = some s' ∧ s'.inner.recoveryDone = true ∧
    Calm s'.inner.cfg s'.inner.history ∧ s'.inner.usedBytes - s'.inner.index.evictingBytes = 9216 ∧
    s'.inner.cfg.quotaBytes = 5000 ∧ (s'.inner.index.unsynced.map fun e => e.2.physBytes).sum = 4608 ∧
    s'.inner.index.served.length = 2 ∧ s'.inner.cfg.maxObjects = 1 := by
  have hend : overQuota.any (fun s' => decide (s'.inner.recoveryDone = true ∧
      Calm s'.inner.cfg s'.inner.history ∧ s'.inner.usedBytes - s'.inner.index.evictingBytes = 9216 ∧
      s'.inner.cfg.quotaBytes = 5000 ∧ (s'.inner.index.unsynced.map fun e => e.2.physBytes).sum = 4608 ∧
      s'.inner.index.served.length = 2 ∧ s'.inner.cfg.maxObjects = 1)) = true := by decide +kernel
  obtain ⟨s', hs, hp⟩ := (Option.any_eq_true _ _).1 hend
  exact ⟨s', hs, of_decide_eq_true hp⟩

/-- The second object is in the index, and so is the first, which had been marked to make room for it. -/
theorem quota_exceeded_unsynced : smallStore.Opened ∧ smallStore.inner.cfg.validateConfig = .ok () ∧
    ∃ s', overQuota = some s' ∧ s'.inner.recoveryDone = true ∧ Calm s'.inner.cfg s'.inner.history ∧
      s'.inner.cfg.quotaBytes < s'.inner.usedBytes - s'.inner.index.evictingBytes ∧
      s'.inner.cfg.maxObjects < s'.inner.index.served.length := by
  obtain ⟨s', hs, hdone, hcalm, hused, hquota, -, hserved, hmax⟩ := overQuota_end
  exact ⟨⟨_, _, _, _, _, _, rfl⟩, by decide, s', hs, hdone, hcalm, by omega, by omega⟩

theorem quota_safe_unsynced : ∃ s', overQuota = some s' ∧ s'.inner.usedBytes - s'.inner.index.evictingBytes = 9216 ∧
    s'.inner.cfg.quotaBytes + (s'.inner.index.unsynced.map fun e => e.2.physBytes).sum = 9608 ∧
    s'.inner.usedBytes - s'.inner.index.evictingBytes ≤
      s'.inner.cfg.quotaBytes + (s'.inner.index.unsynced.map fun e => e.2.physBytes).sum := by
  obtain ⟨s', hs, hdone, hcalm, hused, hquota, hsum, -⟩ := overQuota_end
  exact ⟨s', hs, hused, by omega, (quota_safe ⟨_, _, _, _, _, _, rfl⟩ hs hdone hcalm).1⟩

end SovereignCore.HostFs
