import Mathlib
import SovereignCore.HostFs.Index

/-!
# The sums of the index

Admission reads sums that the index keeps with every operation. The busy counts outlive their entries: an entry can be
removed and inserted again under live counts, and a marked entry leaves the busy sums and comes back to them. A sum is
taken of the entries with their busy state, and an operation at one key changes the part of that key only.

* `tally`, `tally_split` : a sum over the entries, and the part of one key;
* `Aggregates` : the five sums are what `audit` counts, `evictable_eq` : what is left is counted exactly;
* `Aggregates.insert` to `Aggregates.setIndeterminate` : each operation keeps it;
* `Op`, `run`, `aggregates_run` : so after any sequence of operations;
* `pickVictim_least` : the victim is the first in the order of eviction.
-/

namespace SovereignCore.HostFs.Index

open Store Std

variable {x x' : Index} {k : ChunkKey} {e : IndexEntry} {w : Bool → IndexEntry → Nat}

/-! ## The part of one key -/

def tally (w : Bool → IndexEntry → Nat) (x : Index) : Nat := Table.weigh x.map fun k e => w (x.isBusy k) e

def part (w : Bool → IndexEntry → Nat) (x : Index) (k : ChunkKey) : Nat := (x.get k).elim 0 (w (x.isBusy k))

theorem tally_split (w : Bool → IndexEntry → Nat) (x : Index) (k : ChunkKey) :
    tally w x = part w x k + Table.weigh (x.map.erase k) fun k e => w (x.isBusy k) e := Table.weigh_split x.map k

theorem part_le (w : Bool → IndexEntry → Nat) (x : Index) (k : ChunkKey) : part w x k ≤ tally w x := by
  rw [tally_split w x k]
  exact Nat.le_add_right _ _

/-- `x'` differs from `x` at the key `k` only. -/
structure Only (k : ChunkKey) (x x' : Index) : Prop where
  get : ∀ k', k' ≠ k → x'.get k' = x.get k'
  busy : ∀ k', k' ≠ k → x'.isBusy k' = x.isBusy k'

theorem Only.tally (h : Only k x x') (w : Bool → IndexEntry → Nat) :
    tally w x' + part w x k = tally w x + part w x' k := by
  have hmap : x'.map.erase k = x.map.erase k := by
    refine ExtTreeMap.ext_getElem? fun k' => ?_
    rw [Table.get_erase, Table.get_erase]
    by_cases hk : k = k'
    · rw [if_pos hk, if_pos hk]
    · rw [if_neg hk, if_neg hk]
      exact h.get k' (Ne.symm hk)
  have hothers : (Table.weigh (x'.map.erase k) fun k e => w (x'.isBusy k) e) =
      Table.weigh (x.map.erase k) fun k e => w (x.isBusy k) e := by
    rw [hmap]
    refine Table.weigh_congr fun k' e he => ?_
    rw [Table.get_erase] at he
    split at he
    · cases he
    · rename_i hk
      rw [h.busy k' (Ne.symm hk)]
  rw [tally_split w x' k, tally_split w x k, hothers]
  omega

/-! ## The invariant -/

def sizeOf (_ : Bool) (e : IndexEntry) : Nat := e.physBytes
def evictingSize (_ : Bool) (e : IndexEntry) : Nat := if e.evicting then e.physBytes else 0
def evictingOne (_ : Bool) (e : IndexEntry) : Nat := if e.evicting then 1 else 0
def busySize (busy : Bool) (e : IndexEntry) : Nat := if !e.evicting && busy then e.physBytes else 0
def busyOne (busy : Bool) (e : IndexEntry) : Nat := if !e.evicting && busy then 1 else 0

/-- The five sums are those of the entries. -/
structure Aggregates (x : Index) : Prop where
  total : x.totalBytes = tally sizeOf x
  evictingBytes : x.evictingBytes = tally evictingSize x
  evictingCount : x.evictingCount = tally evictingOne x
  busyBytes : x.busyBytes = tally busySize x
  busyCount : x.busyCount = tally busyOne x
  live : ∀ (k : ChunkKey) (n : Nat), x.busy[k]? = some n → 0 < n

theorem aggregates_empty : ({} : Index).Aggregates where
  total := rfl
  evictingBytes := rfl
  evictingCount := rfl
  busyBytes := rfl
  busyCount := rfl
  live k n h := by simp at h

/-- The sums of one key, before and after, and what an operation does with them. -/
structure Keeps (k : ChunkKey) (x x' : Index) : Prop extends Only k x x' where
  total : x'.totalBytes + part sizeOf x k = x.totalBytes + part sizeOf x' k
  evictingBytes : x'.evictingBytes + part evictingSize x k = x.evictingBytes + part evictingSize x' k
  evictingCount : x'.evictingCount + part evictingOne x k = x.evictingCount + part evictingOne x' k
  busyBytes : x'.busyBytes + part busySize x k = x.busyBytes + part busySize x' k
  busyCount : x'.busyCount + part busyOne x k = x.busyCount + part busyOne x' k

theorem Aggregates.keeps (h : x.Aggregates) (k : ChunkKey) (hk : Keeps k x x')
    (hlive : ∀ (k : ChunkKey) (n : Nat), x'.busy[k]? = some n → 0 < n) : x'.Aggregates where
  total := by
    have := hk.tally sizeOf
    have := hk.total
    have := h.total
    omega
  evictingBytes := by
    have := hk.tally evictingSize
    have := hk.evictingBytes
    have := h.evictingBytes
    omega
  evictingCount := by
    have := hk.tally evictingOne
    have := hk.evictingCount
    have := h.evictingCount
    omega
  busyBytes := by
    have := hk.tally busySize
    have := hk.busyBytes
    have := h.busyBytes
    omega
  busyCount := by
    have := hk.tally busyOne
    have := hk.busyCount
    have := h.busyCount
    omega
  live := hlive

/-- What is counted of an entry is in the sums, so that it can be taken out of them. -/
theorem Aggregates.counted (h : x.Aggregates) (hk : x.get k = some e) :
    e.physBytes ≤ x.totalBytes ∧
    (e.evicting = true → e.physBytes ≤ x.evictingBytes ∧ 1 ≤ x.evictingCount) ∧
    (e.evicting = false → x.isBusy k = true → e.physBytes ≤ x.busyBytes ∧ 1 ≤ x.busyCount) := by
  have h1 := part_le sizeOf x k
  have h2 := part_le evictingSize x k
  have h3 := part_le evictingOne x k
  have h4 := part_le busySize x k
  have h5 := part_le busyOne x k
  rw [← h.total] at h1
  rw [← h.evictingBytes] at h2
  rw [← h.evictingCount] at h3
  rw [← h.busyBytes] at h4
  rw [← h.busyCount] at h5
  simp only [part, hk, Option.elim_some, sizeOf, evictingSize, evictingOne, busySize, busyOne] at h1 h2 h3 h4 h5
  refine ⟨h1, fun hev => ?_, fun hev hbusy => ?_⟩
  · rw [if_pos hev] at h2 h3
    exact ⟨h2, h3⟩
  · simp only [hev, hbusy, Bool.not_false, Bool.and_self, if_true] at h4 h5
    exact ⟨h4, h5⟩

theorem isBusy_congr (h : x'.busy = x.busy) (k : ChunkKey) : x'.isBusy k = x.isBusy k := by
  unfold isBusy busyOf
  rw [h]

/-! ## Each operation -/

theorem live_congr (h : x.Aggregates) (hbusy : x'.busy = x.busy) :
    ∀ (k : ChunkKey) (n : Nat), x'.busy[k]? = some n → 0 < n := by
  rw [hbusy]
  exact h.live

theorem Aggregates.remove (h : x.Aggregates) (k : ChunkKey) : (x.remove k).Aggregates := by
  cases hk : x.map[k]? with
  | none =>
    have hx : x.remove k = x := by rw [Index.remove, hk]
    rwa [hx]
  | some b =>
    have hgone : (x.remove k).get k = none := by rw [get_remove, if_pos rfl]
    have hget : x.get k = some b := hk
    have hsame : ∀ m t, ({ x with map := m, totalBytes := t } : Index).isBusy k = x.isBusy k := fun _ _ => rfl
    obtain ⟨hsize, hmarked, hbusy⟩ := h.counted hget
    refine h.keeps k ⟨⟨fun k' hk' => ?_, fun k' _ => isBusy_congr busy_remove k'⟩, ?_, ?_, ?_, ?_, ?_⟩
      (live_congr h busy_remove)
    · rw [get_remove, if_neg (Ne.symm hk')]
    all_goals
      simp only [part, hgone, hget, Option.elim_none, Option.elim_some, sizeOf, evictingSize, evictingOne, busySize, busyOne]
      simp only [Index.remove, hk, hsame]
      cases hev : b.evicting <;> cases hb : x.isBusy k <;> simp [hev, hb] at hmarked hbusy ⊢ <;> omega

theorem Aggregates.insert (h : x.Aggregates) (k : ChunkKey) (e : IndexEntry) : (x.insert k e).Aggregates := by
  have hgone : (x.remove k).get k = none := by rw [get_remove, if_pos rfl]
  have hget : (x.insert k e).get k = some e := by rw [get_insert, if_pos rfl]
  have hbusy : (x.insert k e).isBusy k = (x.remove k).isBusy k := isBusy_congr (busy_insert.trans busy_remove.symm) k
  have hsame : ∀ t, ({ x.remove k with totalBytes := t } : Index).isBusy k = (x.remove k).isBusy k := fun _ => rfl
  refine (h.remove k).keeps k ⟨⟨fun k' hk' => ?_, fun k' _ => ?_⟩, ?_, ?_, ?_, ?_, ?_⟩ (live_congr h busy_insert)
  · rw [get_insert, if_neg (Ne.symm hk'), get_remove, if_neg (Ne.symm hk')]
  · exact isBusy_congr (busy_insert.trans busy_remove.symm) k'
  all_goals
    simp only [part, hgone, hget, hbusy, Option.elim_none, Option.elim_some, sizeOf, evictingSize, evictingOne, busySize,
      busyOne]
    simp only [Index.insert, counting, hsame]
    cases e.evicting <;> cases (x.remove k).isBusy k <;> simp

theorem Aggregates.markEvicting (h : x.Aggregates) (hm : x.markEvicting k = some x') : x'.Aggregates := by
  obtain ⟨b, hb, hev, hfree, hmap, hbusy⟩ := markEvicting_some hm
  have hx : x' = { x with
      map := x.map.insert k { b with evicting := true }
      evictingBytes := x.evictingBytes + b.physBytes
      evictingCount := x.evictingCount + 1 } := by
    rw [Index.markEvicting, hfree, show x.map[k]? = some b from hb] at hm
    simp only [hev, Bool.false_eq_true, if_false] at hm
    exact (Option.some.inj hm).symm
  have hget : x'.get k = some { b with evicting := true } := by rw [get, hmap, Table.get_insert, if_pos rfl]
  have hfree' : x'.isBusy k = false := (isBusy_congr hbusy k).trans hfree
  refine h.keeps k ⟨⟨fun k' hk' => ?_, fun k' _ => isBusy_congr hbusy k'⟩, ?_, ?_, ?_, ?_, ?_⟩ (live_congr h hbusy)
  · rw [get, hmap, Table.get_insert, if_neg (Ne.symm hk')]
    rfl
  all_goals
    simp only [part, hb, hget, hfree, hfree', Option.elim_some, sizeOf, evictingSize, evictingOne, busySize, busyOne, hev]
    simp [hx]

theorem Aggregates.clearEvicting (h : x.Aggregates) (k : ChunkKey) : (x.clearEvicting k).Aggregates := by
  cases hk : x.map[k]? with
  | none =>
    have hx : x.clearEvicting k = x := by rw [Index.clearEvicting, hk]
    rwa [hx]
  | some b =>
    have hold : x.get k = some b := hk
    have hget : (x.clearEvicting k).get k = some (cleared b) := by rw [get_clearEvicting, if_pos rfl, hold]; rfl
    obtain ⟨-, hmarked, -⟩ := h.counted hold
    refine h.keeps k ⟨⟨fun k' hk' => ?_, fun k' _ => isBusy_congr busy_clearEvicting k'⟩, ?_, ?_, ?_, ?_, ?_⟩
      (live_congr h busy_clearEvicting)
    · rw [get_clearEvicting, if_neg (Ne.symm hk')]
    all_goals
      simp only [part, hold, hget, cleared, isBusy_congr busy_clearEvicting, Option.elim_some, sizeOf, evictingSize,
        evictingOne, busySize, busyOne]
      simp only [Index.clearEvicting, hk]
      cases hev : b.evicting <;> cases hb : x.isBusy k <;> simp [hev] at hmarked ⊢ <;> omega

theorem isBusy_eq (x : Index) (k : ChunkKey) : x.isBusy k = decide (0 < x.busyOf k) := rfl

theorem Aggregates.busyInc (h : x.Aggregates) (hi : x.busyInc k = some x') : x'.Aggregates := by
  obtain ⟨b, hb, hev, hmap, hbusy⟩ := busyInc_some hi
  have hof : ∀ k', x'.busyOf k' = if k = k' then x.busyOf k + 1 else x.busyOf k' := by
    intro k'
    rw [busyOf, hbusy, Table.get_insert]
    split <;> rfl
  have hget : x'.get k = some b := by rw [get, hmap]; exact hb
  have hbusy' : x'.isBusy k = true := by rw [isBusy_eq, hof, if_pos rfl]; simp
  have hsums : x'.totalBytes = x.totalBytes ∧ x'.evictingBytes = x.evictingBytes ∧ x'.evictingCount = x.evictingCount ∧
      x'.busyBytes = x.busyBytes + (if x.isBusy k then 0 else b.physBytes) ∧
      x'.busyCount = x.busyCount + (if x.isBusy k then 0 else 1) := by
    rw [Index.busyInc, show x.map[k]? = some b from hb] at hi
    simp only [hev, Bool.false_eq_true, if_false] at hi
    obtain rfl := Option.some.inj hi
    rw [isBusy_eq]
    by_cases hz : x.busyOf k = 0
    · simp [hz]
    · simp [hz, Nat.pos_of_ne_zero hz]
  obtain ⟨h1, h2, h3, h4, h5⟩ := hsums
  refine h.keeps k ⟨⟨fun k' _ => by rw [get, hmap]; rfl, fun k' hk' => ?_⟩, ?_, ?_, ?_, ?_, ?_⟩ fun k' n hn => ?_
  · rw [isBusy_eq, isBusy_eq, hof, if_neg (Ne.symm hk')]
  · simp only [part, hb, hget, h1, Option.elim_some, sizeOf]
  · simp only [part, hb, hget, h2, Option.elim_some, evictingSize]
  · simp only [part, hb, hget, h3, Option.elim_some, evictingOne]
  · simp only [part, hb, hget, h4, hbusy', Option.elim_some, busySize, hev]
    cases x.isBusy k <;> simp
  · simp only [part, hb, hget, h5, hbusy', Option.elim_some, busyOne, hev]
    cases x.isBusy k <;> simp
  · rw [hbusy, Table.get_insert] at hn
    split at hn
    · obtain rfl := Option.some.inj hn
      exact Nat.succ_pos _
    · exact h.live k' n hn

theorem Aggregates.busyDec (h : x.Aggregates) (k : ChunkKey) : (x.busyDec k).Aggregates := by
  have hmap : (x.busyDec k).map = x.map := map_busyDec
  have honly : Only k x (x.busyDec k) := by
    refine ⟨fun k' _ => by rw [get, hmap]; rfl, fun k' hk' => ?_⟩
    rw [isBusy_eq, isBusy_eq, busyOf_busyDec, if_neg (Ne.symm hk')]
  have hget : (x.busyDec k).get k = x.get k := by rw [get, hmap]; rfl
  cases hn : x.busy[k]? with
  | none =>
    have hx : x.busyDec k = x := by rw [Index.busyDec, hn]
    rwa [hx]
  | some n =>
    have hpos := h.live k n hn
    have hof : x.busyOf k = n := by rw [busyOf, hn]; rfl
    have hbusy : x.isBusy k = true := by rw [isBusy_eq, hof]; simpa using hpos
    by_cases hmore : 1 < n
    · have hx : x.busyDec k = { x with busy := x.busy.insert k (n - 1) } := by
        rw [Index.busyDec, hn]
        exact if_pos hmore
      have hbusy' : (x.busyDec k).isBusy k = true := by
        rw [isBusy_eq, busyOf_busyDec, if_pos rfl, hof]
        simp
        omega
      have hpart : ∀ w, part w (x.busyDec k) k = part w x k := fun w => by rw [part, part, hget, hbusy, hbusy']
      refine h.keeps k ⟨honly, ?_, ?_, ?_, ?_, ?_⟩ fun k' m hm => ?_
      · rw [hpart, hx]
      · rw [hpart, hx]
      · rw [hpart, hx]
      · rw [hpart, hx]
      · rw [hpart, hx]
      · rw [hx, Table.get_insert] at hm
        split at hm
        · obtain rfl := Option.some.inj hm
          omega
        · exact h.live k' m hm
    · have hbusy' : (x.busyDec k).isBusy k = false := by
        rw [isBusy_eq, busyOf_busyDec, if_pos rfl, hof]
        simp
        omega
      have hsums : (x.busyDec k).totalBytes = x.totalBytes ∧ (x.busyDec k).evictingBytes = x.evictingBytes ∧
          (x.busyDec k).evictingCount = x.evictingCount ∧
          (x.busyDec k).busyBytes = x.busyBytes - part busySize x k ∧
          (x.busyDec k).busyCount = x.busyCount - part busyOne x k ∧ (x.busyDec k).busy = x.busy.erase k := by
        rw [Index.busyDec, hn, part, part, get, hbusy]
        simp only [if_neg hmore]
        cases x.map[k]? with
        | none => simp
        | some b => cases hev : b.evicting <;> simp [hev, busySize, busyOne]
      obtain ⟨h1, h2, h3, h4, h5, h6⟩ := hsums
      have hzero : part busySize (x.busyDec k) k = 0 ∧ part busyOne (x.busyDec k) k = 0 := by
        rw [part, part, hget, hbusy']
        cases x.get k <;> simp [busySize, busyOne]
      have hle4 := part_le busySize x k
      have hle5 := part_le busyOne x k
      rw [← h.busyBytes] at hle4
      rw [← h.busyCount] at hle5
      refine h.keeps k ⟨honly, ?_, ?_, ?_, ?_, ?_⟩ fun k' m hm => ?_
      · rw [h1, part, part, hget]
        rfl
      · rw [h2, part, part, hget]
        rfl
      · rw [h3, part, part, hget]
        rfl
      · rw [h4, hzero.1]
        omega
      · rw [h5, hzero.2]
        omega
      · rw [h6, Table.get_erase] at hm
        split at hm
        · cases hm
        · exact h.live k' m hm

theorem Aggregates.replace {b : IndexEntry} (h : x.Aggregates) (hk : x.get k = some b) (hsize : e.physBytes = b.physBytes)
    (hev : e.evicting = b.evicting) : ({ x with map := x.map.insert k e } : Index).Aggregates := by
  have hget : ({ x with map := x.map.insert k e } : Index).get k = some e := by
    show (x.map.insert k e)[k]? = some e
    rw [Table.get_insert, if_pos rfl]
  have hsame : ∀ k', ({ x with map := x.map.insert k e } : Index).isBusy k' = x.isBusy k' := fun _ => rfl
  refine h.keeps k ⟨⟨fun k' hk' => ?_, fun k' _ => rfl⟩, ?_, ?_, ?_, ?_, ?_⟩ h.live
  · show (x.map.insert k e)[k']? = _
    rw [Table.get_insert, if_neg (Ne.symm hk')]
    rfl
  all_goals
    simp only [part, hk, hget, hsame, Option.elim_some, sizeOf, evictingSize, evictingOne, busySize, busyOne, hsize, hev]

theorem Aggregates.touch (h : x.Aggregates) (k : ChunkKey) (ns : Nat) : (x.touch k ns).Aggregates := by
  rw [Index.touch]
  split
  · exact h
  · rename_i b hb
    exact h.replace (b := b) hb rfl rfl

theorem Aggregates.setIndeterminate (h : x.Aggregates) (k : ChunkKey) (on : Bool) :
    (x.setIndeterminate k on).Aggregates := by
  rw [Index.setIndeterminate]
  split
  · exact h
  · rename_i b hb
    exact h.replace (b := b) hb rfl rfl

/-! ## Any sequence of operations -/

inductive Op
  | insert (k : ChunkKey) (e : IndexEntry)
  | remove (k : ChunkKey)
  | markEvicting (k : ChunkKey)
  | clearEvicting (k : ChunkKey)
  | busyInc (k : ChunkKey)
  | busyDec (k : ChunkKey)
  | touch (k : ChunkKey) (ns : Nat)
  | setIndeterminate (k : ChunkKey) (on : Bool)

def step (x : Index) : Op → Index
  | .insert k e => x.insert k e
  | .remove k => x.remove k
  | .markEvicting k => (x.markEvicting k).getD x
  | .clearEvicting k => x.clearEvicting k
  | .busyInc k => (x.busyInc k).getD x
  | .busyDec k => x.busyDec k
  | .touch k ns => x.touch k ns
  | .setIndeterminate k on => x.setIndeterminate k on

def run (ops : List Op) : Index := ops.foldl step {}

theorem aggregates_step (h : x.Aggregates) (op : Op) : (x.step op).Aggregates := by
  cases op with
  | insert k e => exact h.insert k e
  | remove k => exact h.remove k
  | markEvicting k =>
    rw [step]
    cases hm : x.markEvicting k with
    | none => exact h
    | some x' => exact h.markEvicting hm
  | clearEvicting k => exact h.clearEvicting k
  | busyInc k =>
    rw [step]
    cases hi : x.busyInc k with
    | none => exact h
    | some x' => exact h.busyInc hi
  | busyDec k => exact h.busyDec k
  | touch k ns => exact h.touch k ns
  | setIndeterminate k on => exact h.setIndeterminate k on

theorem aggregates_run (ops : List Op) : (run ops).Aggregates := by
  have hrun : ∀ (ops : List Op) (x : Index), x.Aggregates → (ops.foldl step x).Aggregates := by
    intro ops
    induction ops with
    | nil => exact fun _ h => h
    | cons op ops ih => exact fun x h => ih _ (aggregates_step h op)
  exact hrun ops {} aggregates_empty

/-! ## What the sums say -/

def weighList (x : Index) (w : Bool → IndexEntry → Nat) (l : List (ChunkKey × IndexEntry)) : Nat :=
  (l.map fun e => w (x.isBusy e.1) e.2).sum

theorem foldl_recount (x : Index) (l : List (ChunkKey × IndexEntry)) (total eb ec bb bc : Nat) :
    l.foldl x.recount (total, eb, ec, bb, bc) =
      (total + x.weighList sizeOf l, eb + x.weighList evictingSize l, ec + x.weighList evictingOne l,
        bb + x.weighList busySize l, bc + x.weighList busyOne l) := by
  induction l generalizing total eb ec bb bc with
  | nil => rfl
  | cons e l ih =>
    rw [List.foldl_cons, recount]
    cases hev : e.2.evicting <;> cases hb : x.isBusy e.1 <;>
      simp [hev, hb, ih, weighList, sizeOf, evictingSize, evictingOne, busySize, busyOne] <;> omega

theorem Aggregates.audit_ok (h : x.Aggregates) : x.audit = .ok () := by
  have hcount : x.sums = x.map.toList.foldl x.recount (0, 0, 0, 0, 0) := by
    rw [foldl_recount, sums, h.total, h.evictingBytes, h.evictingCount, h.busyBytes, h.busyCount]
    simp only [Nat.zero_add]
    rfl
  rw [audit, if_pos hcount]

theorem split_candidates (x : Index) (l : List (ChunkKey × IndexEntry)) :
    let free := l.filter fun e => !e.2.evicting && !x.isBusy e.1
    x.weighList sizeOf l = x.weighList evictingSize l + x.weighList busySize l + x.weighList sizeOf free ∧
    l.length = x.weighList evictingOne l + x.weighList busyOne l + free.length := by
  induction l with
  | nil => exact ⟨rfl, rfl⟩
  | cons e l ih =>
    obtain ⟨h1, h2⟩ := ih
    cases hev : e.2.evicting <;> cases hb : x.isBusy e.1 <;>
      simp only [weighList, List.map_cons, List.sum_cons, List.filter_cons, List.length_cons, sizeOf, evictingSize,
        evictingOne, busySize, busyOne, hev, hb, Bool.not_true, Bool.not_false, Bool.and_true, Bool.and_false, Bool.and_self,
        Bool.false_eq_true, if_true, if_false] at h1 h2 ⊢ <;> omega

theorem Aggregates.split (h : x.Aggregates) :
    x.totalBytes = x.evictingBytes + x.busyBytes + x.weighList sizeOf x.candidates ∧
    x.map.size = x.evictingCount + x.busyCount + x.candidates.length := by
  obtain ⟨h1, h2⟩ := split_candidates x x.map.toList
  rw [h.total, h.evictingBytes, h.busyBytes, h.evictingCount, h.busyCount, ← ExtTreeMap.length_toList]
  exact ⟨h1, h2⟩

/-! ## The victim -/

def rank (e : ChunkKey × IndexEntry) : Bool ×ₗ ℕ ×ₗ ℕ := toLex (!e.2.foreign, toLex (e.2.mtimeNs, e.1.toNat))

theorem evictsBefore_iff (a b : ChunkKey × IndexEntry) : evictsBefore a b = true ↔ rank a < rank b := by
  rw [rank, rank, Prod.Lex.toLex_lt_toLex, Prod.Lex.toLex_lt_toLex, evictsBefore]
  cases a.2.foreign <;> cases b.2.foreign <;> simp
  all_goals
    by_cases hm : a.2.mtimeNs = b.2.mtimeNs
    · simp [hm, BitVec.lt_def]
    · simp [hm]

theorem rank_ne {a b : ChunkKey × IndexEntry} (h : a.1 ≠ b.1) : rank a ≠ rank b := by
  intro hr
  refine h (BitVec.eq_of_toNat_eq ?_)
  exact congrArg (fun r => (ofLex (ofLex r).2).2) hr

/-- Of entries with distinct keys, the first is before all others. -/
theorem firstOf_least {l : List (ChunkKey × IndexEntry)} {f : ChunkKey × IndexEntry} (hl : (l.map Prod.fst).Nodup)
    (h : firstOf l = some f) : ∀ e ∈ l, e.1 ≠ f.1 → evictsBefore f e = true := by
  induction l generalizing f with
  | nil => cases h
  | cons a l ih =>
    obtain ⟨hnew, hl⟩ := List.nodup_cons.1 hl
    rw [firstOf] at h
    cases hf : firstOf l with
    | none =>
      rw [hf] at h
      obtain rfl := Option.some.inj h
      intro e he hne
      obtain rfl | he := List.mem_cons.1 he
      · exact absurd rfl hne
      · cases l with
        | nil => cases he
        | cons b l =>
          rw [firstOf] at hf
          split at hf <;> cases hf
    | some g =>
      rw [hf] at h
      have hleast := ih hl hf
      have hga : a.1 ≠ g.1 := fun hag => hnew (hag ▸ List.mem_map_of_mem (firstOf_mem hf))
      obtain hfa := Option.some.inj h
      by_cases hbefore : evictsBefore g a = true
      · rw [if_pos hbefore] at hfa
        subst hfa
        intro e he hne
        obtain rfl | he := List.mem_cons.1 he
        · exact hbefore
        · exact hleast e he hne
      · rw [if_neg hbefore] at hfa
        subst hfa
        have hag : rank a < rank g := by
          rw [evictsBefore_iff] at hbefore
          exact (le_of_not_gt hbefore).lt_of_ne (rank_ne hga)
        intro e he hne
        obtain rfl | he := List.mem_cons.1 he
        · exact absurd rfl hne
        · rw [evictsBefore_iff]
          by_cases heg : e.1 = g.1
          · obtain rfl : e = g := List.inj_on_of_nodup_map hl he (firstOf_mem hf) heg
            exact hag
          · exact hag.trans ((evictsBefore_iff g e).1 (hleast e he heg))

theorem mem_candidates : (k, e) ∈ x.candidates ↔ x.get k = some e ∧ e.evicting = false ∧ x.isBusy k = false := by
  rw [candidates, List.mem_filter, ExtTreeMap.mem_toList_iff_getElem?_eq_some]
  simp [get]

theorem firstOf_eq_none {l : List (ChunkKey × IndexEntry)} : firstOf l = none ↔ l = [] := by
  cases l with
  | nil => exact ⟨fun _ => rfl, fun _ => rfl⟩
  | cons a l =>
    rw [firstOf]
    split <;> simp

theorem pickVictim_least (h : x.pickVictim = some k) : ∃ e, (k, e) ∈ x.candidates ∧
    ∀ k' e', (k', e') ∈ x.candidates → k' ≠ k → evictsBefore (k, e) (k', e') = true := by
  obtain ⟨⟨k₁, e⟩, hf, rfl⟩ := Option.map_eq_some_iff.1 h
  refine ⟨e, firstOf_mem hf, fun k' e' hmem hne => ?_⟩
  have hkeys : (x.candidates.map Prod.fst).Nodup := by
    refine List.Nodup.sublist (List.filter_sublist.map _) ?_
    rw [ExtTreeMap.map_fst_toList_eq_keys]
    exact ExtTreeMap.nodup_keys
  exact firstOf_least hkeys hf (k', e') hmem hne

theorem Aggregates.pickVictim_none_iff (h : x.Aggregates) : x.pickVictim = none ↔ x.evictable.2 = 0 := by
  have hsplit := h.split.2
  have hcount : x.evictable.2 = x.candidates.length := by
    rw [evictable]
    omega
  rw [hcount, List.length_eq_zero_iff, pickVictim, Option.map_eq_none_iff, firstOf_eq_none]

end SovereignCore.HostFs.Index
