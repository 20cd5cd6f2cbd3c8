import Mathlib
import SovereignCore.Store.Worker

/-!
# The object index

`Index` (`index.rs`): one entry for each object file, the busy counts of pins and loads, and the sums that admission
reads.

* `insert`, `remove`, `markEvicting`, `clearEvicting`, `busyInc`, `busyDec`, `touch`, `setIndeterminate` : the
  operations;
* `pickVictim` : another namespace's object first, then the least recently used;
* `audit` : the sums counted again;
* `get_insert`, `get_remove`, … : what each leaves under a key.
-/

namespace SovereignCore.HostFs

open Store Std

/-- What the index knows about one object file. -/
structure IndexEntry where
  physBytes : Nat
  mtimeNs : Nat
  payloadLen : Nat
  foreign : Bool := false
  evicting : Bool := false
  indeterminate : Bool := false
  deriving DecidableEq, Repr

structure Index where
  map : ExtTreeMap ChunkKey IndexEntry := ∅
  totalBytes : Nat := 0
  evictingBytes : Nat := 0
  evictingCount : Nat := 0
  busy : ExtTreeMap ChunkKey Nat := ∅
  busyBytes : Nat := 0
  busyCount : Nat := 0

namespace Index

variable (x : Index)

def get (k : ChunkKey) : Option IndexEntry := x.map[k]?

def evictable : Nat × Nat :=
  (x.totalBytes - x.evictingBytes - x.busyBytes, x.map.size - x.evictingCount - x.busyCount)

def busyOf (k : ChunkKey) : Nat := x.busy[k]?.getD 0

def isBusy (k : ChunkKey) : Bool := 0 < x.busyOf k

/-- Remove an entry. Busy counts stay: whoever holds them gives them back later. -/
def remove (k : ChunkKey) : Index :=
  match x.map[k]? with
  | none => x
  | some b =>
    let x := { x with map := x.map.erase k, totalBytes := x.totalBytes - b.physBytes }
    if b.evicting then
      { x with evictingBytes := x.evictingBytes - b.physBytes, evictingCount := x.evictingCount - 1 }
    else if x.isBusy k then { x with busyBytes := x.busyBytes - b.physBytes, busyCount := x.busyCount - 1 }
    else x

def counting (k : ChunkKey) (e : IndexEntry) : Index :=
  let x := { x with totalBytes := x.totalBytes + e.physBytes }
  if e.evicting then
    { x with evictingBytes := x.evictingBytes + e.physBytes, evictingCount := x.evictingCount + 1 }
  else if x.isBusy k then { x with busyBytes := x.busyBytes + e.physBytes, busyCount := x.busyCount + 1 }
  else x

def insert (k : ChunkKey) (e : IndexEntry) : Index :=
  let x := (x.remove k).counting k e
  { x with map := x.map.insert k e }

/-- Mark for removal; `none` for an absent, marked or busy entry. -/
def markEvicting (k : ChunkKey) : Option Index :=
  if x.isBusy k then none
  else
    match x.map[k]? with
    | none => none
    | some b =>
      if b.evicting then none
      else some { x with
        map := x.map.insert k { b with evicting := true }
        evictingBytes := x.evictingBytes + b.physBytes
        evictingCount := x.evictingCount + 1 }

def clearEvicting (k : ChunkKey) : Index :=
  match x.map[k]? with
  | none => x
  | some b =>
    if b.evicting then
      let busy := x.isBusy k
      let x := { x with
        map := x.map.insert k { b with evicting := false }
        evictingBytes := x.evictingBytes - b.physBytes
        evictingCount := x.evictingCount - 1 }
      if busy then { x with busyBytes := x.busyBytes + b.physBytes, busyCount := x.busyCount + 1 } else x
    else x

/-- Take one busy reference; `none` for an absent or marked entry. -/
def busyInc (k : ChunkKey) : Option Index :=
  match x.map[k]? with
  | none => none
  | some b =>
    if b.evicting then none
    else
      let n := x.busyOf k + 1
      let x := { x with busy := x.busy.insert k n }
      some (if n = 1 then { x with busyBytes := x.busyBytes + b.physBytes, busyCount := x.busyCount + 1 } else x)

def busyDec (k : ChunkKey) : Index :=
  match x.busy[k]? with
  | none => x
  | some n =>
    if 1 < n then { x with busy := x.busy.insert k (n - 1) }
    else
      let x := { x with busy := x.busy.erase k }
      match x.map[k]? with
      | none => x
      | some b =>
        if b.evicting then x
        else { x with busyBytes := x.busyBytes - b.physBytes, busyCount := x.busyCount - 1 }

def touch (k : ChunkKey) (ns : Nat) : Index :=
  match x.map[k]? with
  | none => x
  | some b => { x with map := x.map.insert k { b with mtimeNs := max b.mtimeNs ns } }

def setIndeterminate (k : ChunkKey) (on : Bool) : Index :=
  match x.map[k]? with
  | none => x
  | some b => { x with map := x.map.insert k { b with indeterminate := on } }

def evictsBefore (a b : ChunkKey × IndexEntry) : Bool :=
  if a.2.foreign ≠ b.2.foreign then a.2.foreign
  else if a.2.mtimeNs ≠ b.2.mtimeNs then a.2.mtimeNs < b.2.mtimeNs
  else a.1 < b.1

def candidates : List (ChunkKey × IndexEntry) := x.map.toList.filter fun e => !e.2.evicting && !x.isBusy e.1

def firstOf : List (ChunkKey × IndexEntry) → Option (ChunkKey × IndexEntry)
  | [] => none
  | e :: l =>
    match firstOf l with
    | none => some e
    | some f => some (if evictsBefore f e then f else e)

def pickVictim : Option ChunkKey := (firstOf x.candidates).map Prod.fst

/-- The five sums: all bytes, the marked bytes and entries, the busy bytes and entries. -/
abbrev Sums := Nat × Nat × Nat × Nat × Nat

def sums : Sums := (x.totalBytes, x.evictingBytes, x.evictingCount, x.busyBytes, x.busyCount)

/-- The loop body of `audit`. -/
def recount (sums : Sums) (e : ChunkKey × IndexEntry) : Sums :=
  let (total, eb, ec, bb, bc) := sums
  let total := total + e.2.physBytes
  if e.2.evicting then (total, eb + e.2.physBytes, ec + 1, bb, bc)
  else if x.isBusy e.1 then (total, eb, ec, bb + e.2.physBytes, bc + 1)
  else (total, eb, ec, bb, bc)

/-- The sums as Rust's `Debug` prints them. -/
def Sums.debug (s : Sums) : String :=
  "(" ++ ", ".intercalate [toString s.1, toString s.2.1, toString s.2.2.1, toString s.2.2.2.1, toString s.2.2.2.2] ++ ")"

def audit : Except String Unit :=
  let counted := x.map.toList.foldl x.recount (0, 0, 0, 0, 0)
  if x.sums = counted then .ok ()
  else .error ("index aggregates " ++ Sums.debug x.sums ++ " differ from recomputed " ++ Sums.debug counted)

/-! ## What each operation leaves -/

variable {x} {k k' : ChunkKey} {e : IndexEntry} {x' : Index}

theorem map_remove : (x.remove k).map = x.map.erase k := by
  unfold remove
  cases h : x.map[k]? with
  | none => exact (Table.erase_of_none h).symm
  | some b =>
    simp only
    split_ifs <;> rfl

theorem busy_remove : (x.remove k).busy = x.busy := by
  unfold remove
  cases x.map[k]? with
  | none => rfl
  | some b =>
    simp only
    split_ifs <;> rfl

theorem get_remove : (x.remove k).get k' = if k = k' then none else x.get k' := by
  unfold get
  rw [map_remove, Table.get_erase]

theorem map_counting : (x.counting k e).map = x.map := by
  unfold counting
  simp only
  split_ifs <;> rfl

theorem busy_counting : (x.counting k e).busy = x.busy := by
  unfold counting
  simp only
  split_ifs <;> rfl

theorem map_insert : (x.insert k e).map = (x.map.erase k).insert k e := by
  show ((x.remove k).counting k e).map.insert k e = _
  rw [map_counting, map_remove]

theorem busy_insert : (x.insert k e).busy = x.busy := busy_counting.trans busy_remove

theorem get_insert : (x.insert k e).get k' = if k = k' then some e else x.get k' := by
  unfold get
  rw [map_insert, Table.get_insert, Table.get_erase]
  split_ifs <;> rfl

theorem markEvicting_some (h : x.markEvicting k = some x') : ∃ b, x.get k = some b ∧ b.evicting = false ∧
    x.isBusy k = false ∧ x'.map = x.map.insert k { b with evicting := true } ∧ x'.busy = x.busy := by
  unfold markEvicting at h
  split_ifs at h with hbusy
  cases hb : x.map[k]? with
  | none => simp [hb] at h
  | some b =>
    simp only [hb] at h
    split_ifs at h with hev
    obtain rfl := Option.some.inj h
    exact ⟨b, hb, by simpa using hev, by simpa using hbusy, rfl, rfl⟩

def cleared (e : IndexEntry) : IndexEntry := { e with evicting := false }

theorem get_clearEvicting : (x.clearEvicting k).get k' = if k = k' then (x.get k').map cleared else x.get k' := by
  unfold clearEvicting get
  cases hb : x.map[k]? with
  | none =>
    by_cases hk : k = k'
    · subst hk
      simp [hb]
    · simp [hk]
  | some b =>
    simp only
    split_ifs with hev hbusy hk hk hk
    · subst hk
      simp [hb, cleared]
    · simp [Table.get_insert, hk]
    · subst hk
      simp [hb, cleared]
    · simp [Table.get_insert, hk]
    · subst hk
      have : { b with evicting := false } = b := by
        have hf : b.evicting = false := by simpa using hev
        rw [← hf]
      simp [hb, cleared, this]
    · rfl

theorem busy_clearEvicting : (x.clearEvicting k).busy = x.busy := by
  unfold clearEvicting
  cases x.map[k]? with
  | none => rfl
  | some b =>
    simp only
    split_ifs <;> rfl

theorem busyInc_some (h : x.busyInc k = some x') : ∃ b, x.get k = some b ∧ b.evicting = false ∧ x'.map = x.map ∧
    x'.busy = x.busy.insert k (x.busyOf k + 1) := by
  unfold busyInc at h
  cases hb : x.map[k]? with
  | none => simp [hb] at h
  | some b =>
    simp only [hb] at h
    split_ifs at h with hev
    · obtain rfl := Option.some.inj h
      exact ⟨b, hb, by simpa using hev, rfl, rfl⟩
    · obtain rfl := Option.some.inj h
      exact ⟨b, hb, by simpa using hev, rfl, rfl⟩

theorem map_busyDec : (x.busyDec k).map = x.map := by
  unfold busyDec
  cases x.busy[k]? with
  | none => rfl
  | some n =>
    simp only
    split_ifs
    · rfl
    · cases x.map[k]? with
      | none => rfl
      | some b =>
        simp only
        split_ifs <;> rfl

theorem busyOf_busyDec : (x.busyDec k).busyOf k' = if k = k' then x.busyOf k - 1 else x.busyOf k' := by
  have hbusy : (x.busyDec k).busy = match x.busy[k]? with
      | none => x.busy
      | some n => if 1 < n then x.busy.insert k (n - 1) else x.busy.erase k := by
    unfold busyDec
    cases x.busy[k]? with
    | none => rfl
    | some n =>
      simp only
      split_ifs
      · rfl
      · cases x.map[k]? with
        | none => rfl
        | some b =>
          simp only
          split_ifs <;> rfl
  unfold busyOf
  rw [hbusy]
  cases hn : x.busy[k]? with
  | none =>
    by_cases hk : k = k'
    · subst hk
      simp [hn]
    · simp [hk]
  | some n =>
    simp only [Option.getD_some]
    by_cases hk : k = k'
    · subst hk
      rw [if_pos rfl]
      split_ifs
      · rw [Table.get_insert, if_pos rfl]
        rfl
      · rw [Table.get_erase, if_pos rfl]
        show 0 = n - 1
        omega
    · rw [if_neg hk]
      split_ifs
      · rw [Table.get_insert, if_neg hk]
      · rw [Table.get_erase, if_neg hk]

theorem get_touch {ns : Nat} : (x.touch k ns).get k' =
    if k = k' then (x.get k').map fun e => { e with mtimeNs := max e.mtimeNs ns } else x.get k' := by
  unfold touch get
  cases hb : x.map[k]? with
  | none =>
    by_cases hk : k = k'
    · subst hk
      simp [hb]
    · simp [hk]
  | some b =>
    simp only [Table.get_insert]
    by_cases hk : k = k'
    · subst hk
      simp [hb]
    · simp [hk]

theorem firstOf_mem {l : List (ChunkKey × IndexEntry)} {f : ChunkKey × IndexEntry} (h : firstOf l = some f) : f ∈ l := by
  induction l generalizing f with
  | nil => simp [firstOf] at h
  | cons a l ih =>
    unfold firstOf at h
    cases hl : firstOf l with
    | none =>
      rw [hl] at h
      obtain rfl := Option.some.inj h
      exact List.mem_cons_self
    | some g =>
      rw [hl] at h
      obtain rfl := Option.some.inj h
      split_ifs
      · exact List.mem_cons_of_mem _ (ih hl)
      · exact List.mem_cons_self

theorem pickVictim_some (h : x.pickVictim = some k) : ∃ b, x.get k = some b ∧ b.evicting = false ∧ x.isBusy k = false := by
  unfold pickVictim at h
  obtain ⟨⟨k', b⟩, hf, rfl⟩ := Option.map_eq_some_iff.1 h
  obtain ⟨hmem, hp⟩ := List.mem_filter.1 (firstOf_mem hf)
  simp only [Bool.and_eq_true, Bool.not_eq_true'] at hp
  exact ⟨b, ExtTreeMap.mem_toList_iff_getElem?_eq_some.1 hmem, hp.1, hp.2⟩

theorem pickVictim_marks (h : x.pickVictim = some k) : ∃ x', x.markEvicting k = some x' := by
  obtain ⟨b, hb, hev, hbusy⟩ := pickVictim_some h
  unfold markEvicting
  unfold get at hb
  simp [hb, hev, hbusy]

end Index

end SovereignCore.HostFs
