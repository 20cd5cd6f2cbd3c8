import SovereignCore.Kv.Places
import SovereignCore.Kv.Refusals

/-!
# Reservations side by side

Callers reserve a token each, write its rows into the reserved place, and commit or roll back, in any order. A
reservation carries a snapshot of the whole manager, and a rollback restores all of it.

* `Desk`, `DeskOp`, `Desk.step`, `Desk.run` : the manager and every reservation made, with its fate;
* `Orderly` : a rollback comes after the rollbacks of all reservations that were made after it;
* `Fits m₀ m xs` : the tables of `m` are those of `m₀` and the tokens of the reservations `xs` that were not rolled back;
* `Desk.Sound` : so for the manager, and so for the snapshot of every pending reservation with those made before it;
* `reservations_independent` : in every orderly run nothing committed is lost; `rollback_loses_commit` : in another, it is.
-/

namespace SovereignCore.Kv

open AienKvManager Prog

/-- What became of a reservation; a commit remembers the rows in its place. -/
inductive Fate where
  | pending
  | committed (row : Row)
  | rolledBack

/-- A reservation, and how long its sequence was when it was made. -/
structure Slip where
  reservation : TokenReservation
  position : Nat
  fate : Fate

namespace Slip

def seqId (x : Slip) : UInt64 := x.reservation.seqId

def blockId (x : Slip) : BlockId := x.reservation.blockId

def slot (x : Slip) : Nat := x.reservation.slot

def isPending (x : Slip) : Bool := match x.fate with
  | .pending => true
  | _ => false

def isCommitted (x : Slip) : Bool := match x.fate with
  | .committed _ => true
  | _ => false

def isAlive (x : Slip) : Bool := x.isPending || x.isCommitted

end Slip

/-- The manager and every reservation, in the order they were made. -/
structure Desk where
  manager : AienKvManager
  slips : List Slip

/-- What callers do; an index names a reservation. -/
inductive DeskOp where
  | reserve (seqId : UInt64)
  | write (index layerIdx : Nat) (k v : List F32)
  | commit (index : Nat)
  | rollback (index : Nat)

namespace Desk

def pending? (d : Desk) (i : Nat) : Option Slip := d.slips[i]?.filter Slip.isPending

/-- A call about a pending reservation, and its fate after it; nothing happens to one that is resolved. -/
def onPending (d : Desk) (i : Nat) (call : TokenReservation → Prog AienKvManager String Unit)
    (fate : Slip → AienKvManager → Fate) : Option Desk :=
  match d.pending? i with
  | none => some d
  | some x => (call x.reservation d.manager).state?.map fun m => ⟨m, d.slips.set i { x with fate := fate x m }⟩

/-- One call; `none` is a panic. -/
def step (d : Desk) : DeskOp → Option Desk
  | .reserve s =>
    match reserveToken s d.manager with
    | .ok r m => some ⟨m, d.slips ++ [⟨r, (d.manager.tokens s).getD 0, .pending⟩]⟩
    | .err _ m => some { d with manager := m }
    | .panic => none
  | .write i l k v => d.onPending i (fun r => writeExplicitTokenKv r.blockId l r.slot k v) fun _ _ => .pending
  | .commit i => d.onPending i AienKvManager.commit fun x m => .committed (contents m x.blockId x.slot)
  | .rollback i => d.onPending i AienKvManager.rollback fun _ _ => .rolledBack

def run (d : Desk) (ops : List DeskOp) : Option Desk := ops.foldlM step d

def Orderly (d : Desk) : DeskOp → Prop
  | .rollback i => (d.pending? i).isSome → ∀ x ∈ d.slips.drop (i + 1), x.isAlive = false
  | _ => True

instance (d : Desk) : ∀ op, Decidable (d.Orderly op)
  | .reserve _ | .write .. | .commit _ => inferInstanceAs (Decidable True)
  | .rollback i => inferInstanceAs (Decidable ((d.pending? i).isSome → ∀ x ∈ d.slips.drop (i + 1), x.isAlive = false))

def RunsOrderly : Desk → List DeskOp → Prop
  | _, [] => True
  | d, op :: ops => d.Orderly op ∧ ∀ d' ∈ d.step op, RunsOrderly d' ops

instance instDecidableRunsOrderly : ∀ (d : Desk) (ops : List DeskOp), Decidable (d.RunsOrderly ops)
  | _, [] => inferInstanceAs (Decidable True)
  | d, op :: ops =>
    match h : d.step op with
    | none => decidable_of_iff (d.Orderly op) (by
        unfold RunsOrderly
        rw [h]
        exact ⟨fun ho => ⟨ho, fun _ hn => nomatch hn⟩, fun ho => ho.1⟩)
    | some d' =>
      haveI := instDecidableRunsOrderly d' ops
      decidable_of_iff (d.Orderly op ∧ d'.RunsOrderly ops) (by
        rw [RunsOrderly, h]
        exact ⟨fun ho => ⟨ho.1, fun _ hs => Option.some.inj hs ▸ ho.2⟩, fun ho => ⟨ho.1, ho.2 d' rfl⟩⟩)

def committed (d : Desk) (s : UInt64) : Nat := d.slips.countP fun x => x.seqId == s && x.isCommitted

def pending (d : Desk) (s : UInt64) : Nat := d.slips.countP fun x => x.seqId == s && x.isPending

end Desk

/-! ## Tables that fit the reservations -/

def alive (s : UInt64) (xs : List Slip) : Nat := xs.countP fun x => x.seqId == s && x.isAlive

/-- The token of the reservation is where it says, after the first tokens, in a block of its own sequence. -/
structure Placed (m₀ m : AienKvManager) (x : Slip) : Prop where
  after : ∀ n₀, m₀.tokens x.seqId = some n₀ → n₀ ≤ x.position
  before : ∃ n, m.tokens x.seqId = some n ∧ x.position < n
  place : m.place x.seqId x.position = some (x.blockId, x.slot)
  exclusive : ∀ s ids k, s ≠ x.seqId → m.view s = some (ids, k) → x.blockId ∉ ids

/-- Two reservations with tokens do not stand at one position of a sequence. -/
def Apart (x y : Slip) : Prop := x.isAlive = true → y.isAlive = true → x.seqId = y.seqId → x.position ≠ y.position

instance : Std.Symm Apart := ⟨fun _ _ h hy hx hs => (h hx hy hs.symm).symm⟩

/-- The tables of `m` are those of `m₀`, with the tokens of the reservations `xs` that were not rolled back. -/
structure Fits (m₀ m : AienKvManager) (xs : List Slip) : Prop where
  inv : Inv m
  totals : ∀ s, m.tokens s = (m₀.tokens s).map (· + alive s xs)
  placed : ∀ x ∈ xs, x.isAlive = true → Placed m₀ m x
  apart : xs.Pairwise Apart
  base : ∀ s n p, m₀.tokens s = some n → p < n → m.rowAt s p = m₀.rowAt s p
  rows : ∀ x ∈ xs, ∀ row, x.fate = .committed row → contents m x.blockId x.slot = row

/-- The same tables and blocks, whatever the pool holds. -/
structure Alike (m m' : AienKvManager) : Prop where
  total : m'.totalBlocks = m.totalBlocks
  size : m'.blockSize = m.blockSize
  free : m'.freeBlocks = m.freeBlocks
  blocks : m'.blocks = m.blocks
  tables : m'.sequenceTables = m.sequenceTables

section Fits
variable {m₀ m m' : AienKvManager} {xs ys : List Slip} {x y : Slip} {s : UInt64} {i n p : Nat}

theorem Alike.view (h : Alike m m') : m'.view = m.view := view_eq_of_tables h.tables

theorem Alike.tokens (h : Alike m m') : m'.tokens = m.tokens := by
  funext s
  unfold AienKvManager.tokens
  rw [h.view]

theorem Alike.place (h : Alike m m') : m'.place = m.place := by
  funext s p
  unfold AienKvManager.place
  rw [h.view, h.size]

theorem Alike.inv (h : Alike m m') (hi : Inv m) : Inv m' where
  size := by rw [h.size]; exact hi.size
  accounts := hi.accounts.congr h.total h.blocks h.tables h.free
  shape := by
    intro id ids n hv
    rw [h.view] at hv
    rw [h.size]
    exact (hi.shape id ids n hv).congr fun b _ => by unfold numTokens; rw [h.blocks]

theorem Fits.congr (h : Fits m₀ m xs) (he : Alike m m')
    (hbase : ∀ s n p c t, m₀.tokens s = some n → p < n → m.place s p = some (c, t) → contents m' c t = contents m c t)
    (hrows : ∀ x ∈ xs, x.isCommitted = true → contents m' x.blockId x.slot = contents m x.blockId x.slot) :
    Fits m₀ m' xs where
  inv := he.inv h.inv
  totals s := by rw [he.tokens]; exact h.totals s
  placed x hx ha := by
    have hpl := h.placed x hx ha
    exact ⟨hpl.after, by rw [he.tokens]; exact hpl.before, by rw [he.place]; exact hpl.place,
      by rw [he.view]; exact hpl.exclusive⟩
  apart := h.apart
  base s n p hn hp := by
    rw [← h.base s n p hn hp]
    unfold AienKvManager.rowAt
    rw [he.place]
    cases hpl : m.place s p with
    | none => rfl
    | some q => exact congrArg some (hbase s n p q.1 q.2 hn hp hpl)
  rows x hx row hfate := by
    rw [hrows x hx (by unfold Slip.isCommitted; rw [hfate])]
    exact h.rows x hx row hfate

theorem Placed.used (hi : Inv m) (h : Placed m₀ m x) : Used m.blocks x.blockId x.slot := by
  obtain ⟨n, hn, hlt⟩ := h.before
  obtain ⟨ids, b, -, -, hpl, hu⟩ := hi.place_some hn hlt
  rw [h.place] at hpl
  obtain ⟨hb, hs⟩ := Prod.mk.inj (Option.some.inj hpl)
  rw [hb, hs]
  exact hu

theorem Fits.le_total (h : Fits m₀ m xs) (hn : m₀.tokens s = some n) :
    ∃ k, m.tokens s = some k ∧ n ≤ k := by
  refine ⟨n + alive s xs, ?_, Nat.le_add_right _ _⟩
  rw [h.totals s, hn]
  rfl

theorem alive_of_committed (hx : x.isCommitted = true) : x.isAlive = true := by
  unfold Slip.isAlive
  rw [hx, Bool.or_true]

theorem alive_of_pending (hx : x.isPending = true) : x.isAlive = true := by
  unfold Slip.isAlive
  rw [hx, Bool.true_or]

theorem Fits.of_used (h : Fits m₀ m xs) (he : Alike m m')
    (hc : ∀ b t, Used m.blocks b t → contents m' b t = contents m b t) : Fits m₀ m' xs := by
  refine h.congr he (fun s n p c t hn hp hpl => ?_) fun x hx hcom => ?_
  · obtain ⟨k, hk, hle⟩ := h.le_total hn
    obtain ⟨ids, b, -, -, hpl', hu⟩ := h.inv.place_some hk (Nat.lt_of_lt_of_le hp hle)
    rw [hpl'] at hpl
    cases hpl
    exact hc _ _ hu
  · exact hc _ _ ((h.placed x hx (alive_of_committed hcom)).used h.inv)

theorem Placed.unique (hi : Inv m) (h : Placed m₀ m x) (hn : m.tokens s = some n) (hp : p < n)
    (hpl : m.place s p = some (x.blockId, x.slot)) : s = x.seqId ∧ p = x.position := by
  obtain ⟨ids, b, hv, hb, hpl', -⟩ := hi.place_some hn hp
  rw [hpl'] at hpl
  obtain ⟨rfl, hslot⟩ := Prod.mk.inj (Option.some.inj hpl)
  have hs : s = x.seqId := by
    by_contra hne
    exact h.exclusive s ids n hne hv (List.mem_of_getElem? hb)
  subst hs
  refine ⟨rfl, ?_⟩
  obtain ⟨k, hk, hlt⟩ := h.before
  obtain ⟨ids', b', hv', hb', hpl'', -⟩ := hi.place_some hk hlt
  rw [hv] at hv'
  cases hv'
  rw [h.place] at hpl''
  obtain ⟨hbb, hss⟩ := Prod.mk.inj (Option.some.inj hpl'')
  obtain ⟨tab, ht, hids, -⟩ := lookup_of_view hv
  have hnd := hi.accounts.nodup _ tab ht
  rw [hids] at hnd
  obtain ⟨hltlen, -⟩ := List.getElem?_eq_some_iff.1 hb
  have hdiv := (List.getElem?_inj hltlen hnd).1 (hb.trans (hbb ▸ hb'.symm))
  rw [← Nat.div_add_mod p m.blockSize, ← Nat.div_add_mod x.position m.blockSize, hdiv, hslot, hss]

theorem Fits.write (h : Fits m₀ m xs) (he : Alike m m') (hx : x ∈ xs) (hp : x.isPending = true)
    (hc : ∀ b t, (b, t) ≠ (x.blockId, x.slot) → contents m' b t = contents m b t) : Fits m₀ m' xs := by
  have hpl := h.placed x hx (alive_of_pending hp)
  refine h.congr he (fun s n p c t hn hlt hplace => hc c t ?_) fun y hy hcom => hc _ _ ?_
  · rintro hct
    rw [hct] at hplace
    obtain ⟨k, hk, hle⟩ := h.le_total hn
    obtain ⟨rfl, rfl⟩ := hpl.unique h.inv hk (Nat.lt_of_lt_of_le hlt hle) hplace
    exact Nat.lt_irrefl _ (Nat.lt_of_lt_of_le hlt (hpl.after n hn))
  · intro hyx
    have hy' := h.placed y hy (alive_of_committed hcom)
    obtain ⟨k, hk, hlt⟩ := hy'.before
    obtain ⟨hseq, hpos⟩ := hpl.unique h.inv hk hlt (hy'.place.trans (congrArg some hyx))
    have hne : x ≠ y := by
      rintro rfl
      unfold Slip.isPending at hp
      unfold Slip.isCommitted at hcom
      split at hp
      · next hf => simp [hf] at hcom
      · cases hp
    exact h.apart.forall hx hy hne (alive_of_pending hp) (alive_of_committed hcom) hseq.symm hpos.symm

theorem alive_append (s : UInt64) (xs ys : List Slip) : alive s (xs ++ ys) = alive s xs + alive s ys :=
  List.countP_append

theorem Fits.dead (h : Fits m₀ m xs) (hys : ∀ y ∈ ys, y.isAlive = false) : Fits m₀ m (xs ++ ys) where
  inv := h.inv
  totals s := by
    have hz : alive s ys = 0 := List.countP_eq_zero.2 fun y hy => by rw [hys y hy]; simp
    rw [alive_append, hz]
    exact h.totals s
  placed x hx ha := by
    rcases List.mem_append.1 hx with hx | hx
    · exact h.placed x hx ha
    · rw [hys x hx] at ha
      cases ha
  apart := by
    refine List.pairwise_append.2 ⟨h.apart, ?_, fun _ _ y hy _ ha => by rw [hys y hy] at ha; cases ha⟩
    exact List.pairwise_of_forall_mem_list fun _ _ y hy _ ha => by rw [hys y hy] at ha; cases ha
  base := h.base
  rows x hx row hf := by
    rcases List.mem_append.1 hx with hx | hx
    · exact h.rows x hx row hf
    · have := hys x hx
      rw [alive_of_committed (by unfold Slip.isCommitted; rw [hf])] at this
      cases this

theorem set_eq_append (hx : xs[i]? = some x) (y : Slip) : xs.set i y = xs.take i ++ y :: xs.drop (i + 1) := by
  obtain ⟨hlt, -⟩ := List.getElem?_eq_some_iff.1 hx
  exact List.set_eq_take_append_cons_drop.trans (if_pos hlt)

theorem eq_append (hx : xs[i]? = some x) : xs = xs.take i ++ x :: xs.drop (i + 1) := by
  obtain ⟨hlt, rfl⟩ := List.getElem?_eq_some_iff.1 hx
  rw [← List.drop_eq_getElem_cons hlt, List.take_append_drop]

theorem Fits.mark (h : Fits m₀ m xs) (hx : xs[i]? = some x) (ha : x.isAlive = true) {fate : Fate}
    (hf : ({ x with fate } : Slip).isAlive = true) (hrow : ∀ row, fate = .committed row → contents m x.blockId x.slot = row) :
    Fits m₀ m (xs.set i { x with fate }) := by
  have hmem : ∀ {y}, y ∈ xs.set i { x with fate } → y ∈ xs ∨ y = { x with fate } := List.mem_or_eq_of_mem_set
  refine ⟨h.inv, fun s => ?_, fun y hy hay => ?_, ?_, h.base, fun y hy row hfate => ?_⟩
  · have hcount : alive s (xs.set i { x with fate }) = alive s xs := by
      rw [set_eq_append hx, alive_append, congrArg (alive s) (eq_append hx), alive_append]
      congr 1
      unfold alive
      rw [List.countP_cons, List.countP_cons, hf, ha]
      rfl
    rw [hcount]
    exact h.totals s
  · rcases hmem hy with hy | rfl
    · exact h.placed y hy hay
    · have hpl := h.placed x (List.mem_of_getElem? hx) ha
      exact ⟨hpl.after, hpl.before, hpl.place, hpl.exclusive⟩
  · have hpw := h.apart
    rw [eq_append hx] at hpw
    rw [set_eq_append hx]
    obtain ⟨h1, h2, h3⟩ := List.pairwise_append.1 hpw
    obtain ⟨h4, h5⟩ := List.pairwise_cons.1 h2
    refine List.pairwise_append.2 ⟨h1, List.pairwise_cons.2 ⟨fun y hy _ => h4 y hy ha, h5⟩, fun a hmem' y hy hay => ?_⟩
    rcases List.mem_cons.1 hy with rfl | hy
    · exact fun _ => h3 a hmem' x List.mem_cons_self hay ha
    · exact h3 a hmem' y (List.mem_cons_of_mem _ hy) hay
  · rcases hmem hy with hy | rfl
    · exact h.rows y hy row hfate
    · exact hrow row hfate

section Append
variable {ids pre : List BlockId} {n' : Nat}

theorem Placed.append (hpl : Placed m₀ m y) (hi : Inv m) (ha' : Accounts [] m') (hl : StaysLive m m')
    (happ : Appended True x.seqId x.blockId x.slot ids pre n n' m m') : Placed m₀ m' y := by
  have ha := hi.accounts
  obtain ⟨k, hk, hlt⟩ := hpl.before
  have hkn : y.seqId = x.seqId → k = n := fun hs => by
    unfold AienKvManager.tokens at hk
    rw [hs, happ.before] at hk
    exact (Option.some.inj hk).symm
  refine ⟨hpl.after, ?_, ?_, fun s ids' j hs hv hmem => ?_⟩
  · rw [happ.tokens_eq hi]
    split_ifs with hs
    · exact ⟨n + 1, rfl, Nat.lt_succ_of_lt (hkn hs ▸ hlt)⟩
    · exact ⟨k, hk, hlt⟩
  · by_cases hs : y.seqId = x.seqId
    · rw [← hpl.place, hs]
      rcases happ.place_own hi (hkn hs ▸ hlt) with heq | ⟨last, hids, hold, hnew⟩
      · exact heq
      · rw [hold, hnew]
        rw [← hs, hpl.place] at hold
        obtain ⟨hbl, -⟩ := Prod.mk.inj (Option.some.inj hold)
        by_cases hne : last = x.blockId
        · rw [hne]
        · -- a tail with a reservation stands in no other table
          obtain ⟨s', ids', j, hs', hv, hmem⟩ := happ.shared_tail ha ha' hl hids hne
          exact absurd (hbl ▸ hmem) (hpl.exclusive s' ids' j (hs ▸ hs') hv)
    · rw [happ.place_other hs]
      exact hpl.place
  · rw [happ.after] at hv
    by_cases hsx : s = x.seqId
    · subst hsx
      rw [Function.update_self] at hv
      cases hv
      obtain ⟨ids', b, hvy, hb, hply, -⟩ := hi.place_some hk hlt
      rw [hpl.place] at hply
      obtain ⟨hby, -⟩ := Prod.mk.inj (Option.some.inj hply)
      rcases List.mem_append.1 hmem with hmem | hmem
      · refine hpl.exclusive _ ids n hs happ.before ?_
        rw [(happ.position hi).2.2.2] at hmem
        exact List.mem_of_mem_take hmem
      · refine happ.exclusive y.seqId ids' k (Ne.symm hs) hvy ?_
        rw [← List.mem_singleton.1 hmem, hby]
        exact List.mem_of_getElem? hb
    · rw [Function.update_of_ne hsx] at hv
      exact hpl.exclusive s ids' j hs hv hmem

theorem AienKvManager.Appended.placed (hi : Inv m) (happ : Appended True x.seqId x.blockId x.slot ids pre n n' m m')
    (hx : x.position = n) (hle : ∀ n₀, m₀.tokens x.seqId = some n₀ → n₀ ≤ n) : Placed m₀ m' x := by
  obtain ⟨hpos, hslot, -, -⟩ := happ.position hi
  refine ⟨fun n₀ hn₀ => hx ▸ hle n₀ hn₀, ⟨n + 1, ?_, by omega⟩, ?_, fun s ids' j hs hv hmem => ?_⟩
  · rw [happ.tokens_eq hi, if_pos rfl]
  · unfold AienKvManager.place
    rw [happ.after, Function.update_self, Option.bind_some, happ.keeps.size, hx, hpos, Nat.add_comm,
      Nat.add_mul_div_right _ _ hi.size, Nat.div_eq_of_lt hslot, Nat.zero_add, Nat.add_mul_mod_self_right,
      Nat.mod_eq_of_lt hslot]
    simp
  · rw [happ.after, Function.update_of_ne hs] at hv
    exact happ.exclusive s ids' j hs hv hmem

theorem alive_singleton (hx : x.isAlive = true) (s : UInt64) : alive s [x] = if s = x.seqId then 1 else 0 := by
  unfold alive
  rw [List.countP_singleton, hx, Bool.and_true]
  split_ifs with h1 h2 h2
  · rfl
  · exact absurd (beq_iff_eq.1 h1).symm h2
  · exact absurd (beq_iff_eq.2 h2.symm) h1
  · rfl

theorem Fits.append (h : Fits m₀ m xs) (ha' : Accounts [] m') (hl : StaysLive m m')
    (happ : Appended True x.seqId x.blockId x.slot ids pre n n' m m') (hx : x.position = n) (hp : x.fate = .pending) :
    Fits m₀ m' (xs ++ [x]) := by
  have hi := h.inv
  have hxa : x.isAlive = true := alive_of_pending (by unfold Slip.isPending; rw [hp])
  have hn : m.tokens x.seqId = some n := by
    unfold AienKvManager.tokens
    rw [happ.before]
    rfl
  refine ⟨happ.inv hi ha', fun s => ?_, fun y hy hya => ?_, ?_, fun s k p hk hlt => ?_, fun y hy row hf => ?_⟩
  · rw [happ.tokens_eq hi, alive_append, alive_singleton hxa]
    split_ifs with hs
    · have ht := h.totals s
      rw [hs, hn] at ht
      obtain ⟨n₀, hn₀, heq⟩ := Option.map_eq_some_iff.1 ht.symm
      rw [hs, hn₀, ← heq]
      rfl
    · exact h.totals s
  · rcases List.mem_append.1 hy with hy | hy
    · exact (h.placed y hy hya).append hi ha' hl happ
    · obtain rfl := List.mem_singleton.1 hy
      refine happ.placed hi hx fun n₀ hn₀ => ?_
      obtain ⟨k, hk, hle⟩ := h.le_total hn₀
      rw [hn] at hk
      cases hk
      exact hle
  · refine List.pairwise_append.2 ⟨h.apart, List.pairwise_singleton _ _, fun y hy z hz hya _ hs => ?_⟩
    obtain rfl := List.mem_singleton.1 hz
    obtain ⟨k, hk, hlt⟩ := (h.placed y hy hya).before
    rw [hs, hn] at hk
    cases hk
    omega
  · obtain ⟨j, hj, hle⟩ := h.le_total hk
    rw [happ.rowAt_eq hi hj (Nat.lt_of_lt_of_le hlt hle)]
    exact h.base s k p hk hlt
  · rcases List.mem_append.1 hy with hy | hy
    · have hu := (h.placed y hy (alive_of_committed (by unfold Slip.isCommitted; rw [hf]))).used hi
      rw [happ.contents_eq hi.accounts hu.1]
      exact h.rows y hy row hf
    · obtain rfl := List.mem_singleton.1 hy
      rw [hp] at hf
      cases hf

end Append

end Fits

/-! ## One call -/

/-- A write that returns is one of a supported element type, in range. -/
theorem UnifiedKvTensorPool.writeTokenKv_bounds {p p' : UnifiedKvTensorPool} {b l t : Nat} {k v : List F32}
    (h : p.writeTokenKv b l t k v = some p') :
    p.HostDtype ∧ b < p.config.numBlocks ∧ l < p.config.numLayers ∧ t < p.config.blockSize := by
  unfold writeTokenKv KvLayout.tokenPlaneOffset at h
  rw [p.strides.numBlocks, p.strides.numLayers, p.strides.blockSize] at h
  by_cases hin : b < p.config.numBlocks ∧ l < p.config.numLayers ∧ t < p.config.blockSize
  · refine ⟨?_, hin⟩
    unfold HostDtype
    cases hd : p.config.dtype with
    | fp32 => exact Or.inl rfl
    | bf16 => exact Or.inr rfl
    | _ => simp [hd, KvDType.encode?] at h
  · simp [hin] at h

theorem writeExplicitTokenKv_frame (m : AienKvManager) (b l slot : Nat) (k v : List F32) :
    (writeExplicitTokenKv b l slot k v m).Ends True
      (fun _ m' => Alike m m' ∧ ∀ c t, (c, t) ≠ (b, slot) → contents m' c t = contents m c t)
      (fun _ m' => Alike m m' ∧ ∀ c t, (c, t) ≠ (b, slot) → contents m' c t = contents m c t) := by
  have hrefl : Alike m m := ⟨rfl, rfl, rfl, rfl, rfl⟩
  unfold writeExplicitTokenKv onPool
  rw [ends_bind, ends_get]
  cases hp : m.tensorPool with
  | none => exact ⟨hrefl, fun _ _ _ => rfl⟩
  | some p =>
    dsimp only
    rw [ends_bind, ends_get, hp]
    dsimp only
    rw [ends_bind]
    cases hw : p.writeTokenKv b l slot k v with
    | none => exact trivial
    | some p' =>
      obtain ⟨hd, hb, hl, hs⟩ := UnifiedKvTensorPool.writeTokenKv_bounds hw
      obtain ⟨hc, -, -, hothers⟩ := UnifiedKvTensorPool.row_writeTokenKv hd hb hl hs hw
      refine ⟨⟨rfl, rfl, rfl, rfl, rfl⟩, fun c t hne => ?_⟩
      funext l'
      unfold contents cell
      rw [hp, Option.bind_some, Option.bind_some, hc]
      split_ifs with hin
      · rw [hothers c l' t hin.1 hin.2 fun he => hne (by
          obtain ⟨rfl, h2⟩ := Prod.mk.inj he
          rw [(Prod.mk.inj h2).2])]
      · rfl

/-- What a reservation leaves: the append, or a refusal that changed no block in use. -/
theorem reserveToken_appended {N : Prop} {m : AienKvManager} (hi : Inv m) (hN : Covers N m) (id : UInt64) :
    (reserveToken id m).Ends N
      (fun r m' => r.tx = some m.beginTransaction ∧ r.seqId = id ∧ Accounts [] m' ∧ StaysLive m m' ∧
        ∃ ids pre n n', Appended True id r.blockId r.slot ids pre n n' m m')
      (fun _ m' => Alike m m' ∧ ∀ b, m.Live b → contents m' b = contents m b) := by
  have ha := hi.accounts
  have hun : (appendTokenWithSlot id m).Ends True (fun _ _ => True) (fun _ m' => Unchanged m m') := by
    unfold appendTokenWithSlot
    rw [ends_bind]
    exact appendWith_leaves copyOnHost_leaves hi (Or.inl trivial) (fun hf => hf.elim) id
  unfold reserveToken
  rw [ends_bind, ends_get, ends_bind]
  refine ((appendTokenWithSlot_ends ha hN id).also ((appendTokenWithSlot_live ha id).also hun)).mono ?_ ?_
  · rintro ⟨b, slot⟩ m' ⟨⟨ha', happ⟩, hl, -⟩
    exact ⟨rfl, rfl, ha', hl, happ⟩
  · rintro _ m' ⟨⟨-, -, hk⟩, -, hun⟩
    refine ⟨⟨hk.total, hk.size, hun.free, hun.blocks, hun.tables⟩, fun b hb => ?_⟩
    funext t l
    unfold contents
    rw [hk.cells trivial b hb]

namespace Desk
variable {m₀ : AienKvManager} {d d' : Desk} {x y : Slip} {i j : Nat}

/-- What the snapshot of a pending reservation still says: the tables before it, with the older reservations. -/
structure Snap (m₀ : AienKvManager) (d : Desk) (i : Nat) (x : Slip) (snap : KvTransactionSnapshot) : Prop where
  tx : x.reservation.tx = some { snapshot := some snap, committed := false }
  fits : Fits m₀ (d.manager.restore snap) (d.slips.take i)
  used : ∀ b t, Used snap.blocks b t → Used d.manager.blocks b t
  fresh : ¬ Used snap.blocks x.blockId x.slot

/-- The invariant of an orderly run. -/
structure Sound (m₀ : AienKvManager) (d : Desk) : Prop where
  now : Fits m₀ d.manager d.slips
  snaps : ∀ i x, d.pending? i = some x → ∃ snap, Snap m₀ d i x snap
  nested : ∀ i j x y sx sy, i < j → d.pending? i = some x → d.pending? j = some y →
    x.reservation.tx = some { snapshot := some sx, committed := false } →
    y.reservation.tx = some { snapshot := some sy, committed := false } →
    ∀ b t, Used sx.blocks b t → Used sy.blocks b t

theorem pending?_some (h : d.pending? i = some x) : d.slips[i]? = some x ∧ x.isPending = true :=
  Option.filter_eq_some_iff.1 h

/-- A call that only changes what the pool holds. -/
structure Rewrites (d d' : Desk) : Prop where
  slips : d'.slips = d.slips
  alike : Alike d.manager d'.manager

theorem Rewrites.restore (h : Rewrites d d') (snap : KvTransactionSnapshot) :
    Alike (d.manager.restore snap) (d'.manager.restore snap) := ⟨h.alike.total, h.alike.size, rfl, rfl, rfl⟩

theorem Rewrites.sound (h : Rewrites d d') (hd : d.Sound m₀) (hnow : Fits m₀ d'.manager d.slips)
    (hsnaps : ∀ i x snap, d.pending? i = some x → Snap m₀ d i x snap →
      Fits m₀ (d'.manager.restore snap) (d.slips.take i)) : d'.Sound m₀ := by
  have hp : d'.pending? = d.pending? := by
    funext i
    unfold pending?
    rw [h.slips]
  refine ⟨by rw [h.slips]; exact hnow, fun i x hi => ?_, by rw [hp]; exact hd.nested⟩
  rw [hp] at hi
  obtain ⟨snap, hsnap⟩ := hd.snaps i x hi
  refine ⟨snap, hsnap.tx, by rw [h.slips]; exact hsnaps i x snap hi hsnap, ?_, hsnap.fresh⟩
  rw [h.alike.blocks]
  exact hsnap.used

/-- A call about a reservation: nothing happens, or it is pending and the call returned. -/
theorem onPending_some {call : TokenReservation → Prog AienKvManager String Unit} {fate : Slip → AienKvManager → Fate}
    (h : d.onPending i call fate = some d') :
    d' = d ∨ ∃ x m, d.pending? i = some x ∧ (call x.reservation d.manager).state? = some m ∧
      d' = ⟨m, d.slips.set i { x with fate := fate x m }⟩ := by
  unfold onPending at h
  cases hp : d.pending? i with
  | none =>
    rw [hp] at h
    exact Or.inl (Option.some.inj h).symm
  | some x =>
    rw [hp] at h
    obtain ⟨m, hm, rfl⟩ := Option.map_eq_some_iff.1 h
    exact Or.inr ⟨x, m, rfl, hm, rfl⟩

theorem step_write (hd : d.Sound m₀) {l : Nat} {k v : List F32} (h : d.step (.write i l k v) = some d') :
    d'.Sound m₀ := by
  unfold step at h
  obtain rfl | ⟨x, m, hp, hm, rfl⟩ := onPending_some h
  · exact hd
  obtain ⟨hx, hpend⟩ := pending?_some hp
  have hsame : d.slips.set i { x with fate := .pending } = d.slips := by
    obtain ⟨hlt, rfl⟩ := List.getElem?_eq_some_iff.1 hx
    have hfate : ({ d.slips[i] with fate := .pending } : Slip) = d.slips[i] := by
      unfold Slip.isPending at hpend
      split at hpend
      · next hf => rw [← hf]
      · cases hpend
    rw [hfate]
    exact List.set_getElem_self hlt
  obtain ⟨hal, hcells⟩ := (writeExplicitTokenKv_frame d.manager x.reservation.blockId l x.reservation.slot k v).state.1 m hm
  have hrw : Rewrites d ⟨m, d.slips.set i { x with fate := .pending }⟩ := ⟨hsame, hal⟩
  have hmem := List.mem_of_getElem? hx
  obtain ⟨sx, hsx⟩ := hd.snaps i x hp
  refine hrw.sound hd (hd.now.write hal hmem hpend hcells) fun j y snap hj hsnap => ?_
  rcases Nat.lt_or_ge i j with hij | hji
  · refine hsnap.fits.write (hrw.restore snap) ?_ hpend hcells
    exact List.mem_of_getElem? (i := i) (by rw [List.getElem?_take_of_lt hij]; exact hx)
  · -- the place was not in use when the snapshot was taken
    refine hsnap.fits.of_used (hrw.restore snap) fun b t hu => hcells b t ?_
    rintro heq
    obtain ⟨rfl, rfl⟩ := Prod.mk.inj heq
    rcases Nat.eq_or_lt_of_le hji with rfl | hlt
    · rw [hp] at hj
      cases hj
      exact hsnap.fresh hu
    · exact hsx.fresh (hd.nested j i y x snap sx hlt hj hp hsnap.tx hsx.tx _ _ hu)

theorem pending?_set_self {f : Fate} (hf : ({ x with fate := f } : Slip).isPending = false) :
    (⟨m₀, d.slips.set i { x with fate := f }⟩ : Desk).pending? i = none := by
  unfold pending?
  rw [List.getElem?_set_self']
  cases d.slips[i]? with
  | none => rfl
  | some z =>
    show Option.filter Slip.isPending (some { x with fate := f }) = none
    rw [Option.filter_some, if_neg (by rw [hf]; exact Bool.false_ne_true)]

theorem pending?_set_ne (hij : i ≠ j) : (⟨m₀, d.slips.set i y⟩ : Desk).pending? j = d.pending? j := by
  unfold pending?
  rw [List.getElem?_set_ne hij]

theorem step_commit (hd : d.Sound m₀) (h : d.step (.commit i) = some d') : d'.Sound m₀ := by
  unfold step at h
  obtain rfl | ⟨x, m, hp, hm, rfl⟩ := onPending_some h
  · exact hd
  obtain ⟨hx, hpend⟩ := pending?_some hp
  obtain rfl : d.manager = m := Option.some.inj hm
  have hother : ∀ {j y}, (⟨d.manager, d.slips.set i
      { x with fate := .committed (contents d.manager x.blockId x.slot) }⟩ : Desk).pending? j = some y →
      i ≠ j ∧ d.pending? j = some y := by
    intro j y hj
    by_cases hij : i = j
    · rw [← hij, pending?_set_self rfl] at hj
      cases hj
    · rw [pending?_set_ne hij] at hj
      exact ⟨hij, hj⟩
  refine ⟨hd.now.mark hx (alive_of_pending hpend) rfl fun row hrow => ?_, fun j y hj => ?_,
    fun a b za zb sa sb hab ha hb => ?_⟩
  · cases hrow
    rfl
  · obtain ⟨hij, hj⟩ := hother hj
    obtain ⟨snap, hsnap⟩ := hd.snaps j y hj
    refine ⟨snap, hsnap.tx, ?_, hsnap.used, hsnap.fresh⟩
    dsimp only
    rcases Nat.lt_or_gt_of_ne hij with hlt | hgt
    · rw [List.take_set]
      refine hsnap.fits.mark (by rw [List.getElem?_take_of_lt hlt]; exact hx) (alive_of_pending hpend) rfl ?_
      intro row hrow
      cases hrow
      rfl
    · rw [List.take_set_of_le (Nat.le_of_lt hgt)]
      exact hsnap.fits
  · exact hd.nested a b za zb sa sb hab (hother ha).2 (hother hb).2

/-- **A rollback** after all later ones: the snapshot is the state without this token. -/
theorem step_rollback (hd : d.Sound m₀) (ho : d.Orderly (.rollback i)) (h : d.step (.rollback i) = some d') :
    d'.Sound m₀ := by
  unfold step at h
  obtain rfl | ⟨x, m, hp, hm, rfl⟩ := onPending_some h
  · exact hd
  obtain ⟨hx, hpend⟩ := pending?_some hp
  obtain ⟨snap, hsnap⟩ := hd.snaps i x hp
  have hlater := ho (by rw [hp]; rfl)
  obtain rfl : d.manager.restore snap = m := by
    unfold AienKvManager.rollback rollbackTransaction at hm
    rw [hsnap.tx] at hm
    exact Option.some.inj hm
  have hother : ∀ {j y}, (⟨d.manager.restore snap, d.slips.set i { x with fate := .rolledBack }⟩ : Desk).pending? j =
      some y → j < i ∧ d.pending? j = some y := by
    intro j y hj
    by_cases hij : i = j
    · rw [← hij, pending?_set_self rfl] at hj
      cases hj
    · rw [pending?_set_ne hij] at hj
      refine ⟨?_, hj⟩
      by_contra hge
      obtain ⟨hy, hpy⟩ := pending?_some hj
      have hmem : y ∈ d.slips.drop (i + 1) := by
        refine List.mem_of_getElem? (i := j - (i + 1)) ?_
        rw [List.getElem?_drop, show i + 1 + (j - (i + 1)) = j by omega]
        exact hy
      have hdead := hlater y hmem
      rw [alive_of_pending hpy] at hdead
      cases hdead
  refine ⟨?_, fun j y hj => ?_, fun a b za zb sa sb hab ha hb => ?_⟩
  · dsimp only
    rw [set_eq_append hx]
    refine hsnap.fits.dead fun y hy => ?_
    rcases List.mem_cons.1 hy with rfl | hy
    · rfl
    · exact hlater y hy
  · obtain ⟨hji, hj⟩ := hother hj
    obtain ⟨sj, hsj⟩ := hd.snaps j y hj
    refine ⟨sj, hsj.tx, ?_, ?_, hsj.fresh⟩
    · dsimp only
      rw [List.take_set_of_le (Nat.le_of_lt hji)]
      exact hsj.fits
    · exact hd.nested j i y x sj snap hji hj hp hsj.tx hsnap.tx
  · exact hd.nested a b za zb sa sb hab (hother ha).2 (hother hb).2

theorem step_reserve (hd : d.Sound m₀) {s : UInt64} (h : d.step (.reserve s) = some d') : d'.Sound m₀ := by
  have hi := hd.now.inv
  have hr := reserveToken_appended (N := True) hi (Or.inl trivial) s
  simp only [step] at h
  cases ho : reserveToken s d.manager with
  | panic =>
    rw [ho] at h
    cases h
  | err e m' =>
    rw [ho] at h hr
    cases h
    obtain ⟨hal, hcells⟩ := hr
    have hrw : Rewrites d { d with manager := m' } := ⟨rfl, hal⟩
    refine hrw.sound hd (hd.now.of_used hal fun b t hu => congrFun (hcells b hu.1) t) fun j y snap hj hsnap => ?_
    exact hsnap.fits.of_used (hrw.restore snap) fun b t hu => congrFun (hcells b (hsnap.used b t hu).1) t
  | ok r m' =>
    rw [ho] at h hr
    cases h
    obtain ⟨htx, rfl, ha', hl, ids, pre, n, n', happ⟩ := hr
    have ha := hi.accounts
    have hn : (d.manager.tokens r.seqId).getD 0 = n := by
      unfold AienKvManager.tokens
      rw [happ.before]
      rfl
    rw [hn]
    -- an older pending reservation, or the new one
    have hother : ∀ {j y}, (⟨m', d.slips ++ [⟨r, n, .pending⟩]⟩ : Desk).pending? j = some y →
        d.pending? j = some y ∨ (j = d.slips.length ∧ y = ⟨r, n, .pending⟩) := by
      intro j y hj
      obtain ⟨hy, hpy⟩ := pending?_some hj
      dsimp only at hy
      rcases Nat.lt_or_ge j d.slips.length with hlt | hge
      · rw [List.getElem?_append_left hlt] at hy
        exact Or.inl (Option.filter_eq_some_iff.2 ⟨hy, hpy⟩)
      · rw [List.getElem?_append_right hge, List.getElem?_singleton] at hy
        split_ifs at hy with hz
        exact Or.inr ⟨by omega, (Option.some.inj hy).symm⟩
    refine ⟨hd.now.append ha' hl happ rfl rfl, fun j y hj => ?_, fun a b za zb sa sb hab hpa hpb hta htb => ?_⟩
    · rcases hother hj with hj | ⟨rfl, rfl⟩
      · obtain ⟨snap, hsnap⟩ := hd.snaps j y hj
        obtain ⟨hlt, -⟩ := List.getElem?_eq_some_iff.1 (pending?_some hj).1
        refine ⟨snap, hsnap.tx, ?_, fun b t hu => happ.used ha hl (hsnap.used b t hu), hsnap.fresh⟩
        dsimp only
        rw [List.take_append_of_le_length (Nat.le_of_lt hlt)]
        refine hsnap.fits.of_used ⟨happ.keeps.total, happ.keeps.size, rfl, rfl, rfl⟩ fun b t hu => ?_
        exact congrFun (happ.contents_eq ha (hsnap.used b t hu).1) t
      · refine ⟨_, htx, ?_, fun b t hu => happ.used ha hl hu, happ.not_used ha⟩
        dsimp only
        rw [List.take_left]
        refine hd.now.of_used ⟨happ.keeps.total, happ.keeps.size, rfl, rfl, rfl⟩ fun b t hu => ?_
        exact congrFun (happ.contents_eq ha hu.1) t
    · rcases hother hpa with hpa | ⟨rfl, rfl⟩
      · rcases hother hpb with hpb | ⟨rfl, rfl⟩
        · exact hd.nested a b za zb sa sb hab hpa hpb hta htb
        · obtain ⟨snap, hsnap⟩ := hd.snaps a za hpa
          rw [hsnap.tx] at hta
          cases hta
          rw [htx] at htb
          cases htb
          exact hsnap.used
      · have hlen := (List.getElem?_eq_some_iff.1 (pending?_some hpb).1).1
        rw [List.length_append, List.length_singleton] at hlen
        omega

theorem step_sound (hd : d.Sound m₀) {op : DeskOp} (ho : d.Orderly op) (h : d.step op = some d') : d'.Sound m₀ := by
  cases op with
  | reserve s => exact step_reserve hd h
  | write i l k v => exact step_write hd h
  | commit i => exact step_commit hd h
  | rollback i => exact step_rollback hd ho h

theorem run_sound : ∀ (ops : List DeskOp) {d d' : Desk}, d.Sound m₀ → d.RunsOrderly ops → d.run ops = some d' →
    d'.Sound m₀
  | [], _, _, hd, _, h => Option.some.inj h ▸ hd
  | op :: ops, d, d', hd, ho, h => by
    unfold run at h
    rw [List.foldlM_cons] at h
    obtain ⟨d1, h1, hrest⟩ := Option.bind_eq_some_iff.1 h
    exact run_sound ops (step_sound hd ho.1 h1) (ho.2 d1 h1) hrest

theorem Sound.start (hi : Inv m₀) : Sound m₀ ⟨m₀, []⟩ where
  now :=
    { inv := hi
      totals := fun s => by
        show _ = (m₀.tokens s).map (· + 0)
        simp
      placed := fun x hx => by cases hx
      apart := List.Pairwise.nil
      base := fun _ _ _ _ _ => rfl
      rows := fun x hx => by cases hx }
  snaps i x hx := by cases hx
  nested _ _ _ _ _ _ _ hx := by cases hx

/-- What the callers may count on: each sequence has its first tokens, the committed ones and those still pending, in
the places the reservations named, and reads the rows it started with and the rows it committed. -/
structure Kept (m₀ : AienKvManager) (d : Desk) : Prop where
  totals : ∀ s, d.manager.tokens s = (m₀.tokens s).map (· + (d.committed s + d.pending s))
  owns : ∀ x ∈ d.slips, x.isCommitted = true ∨ x.isPending = true →
    d.manager.place x.seqId x.position = some (x.blockId, x.slot)
  base : ∀ s n p, m₀.tokens s = some n → p < n → d.manager.rowAt s p = m₀.rowAt s p
  rows : ∀ x ∈ d.slips, ∀ row, x.fate = .committed row → d.manager.rowAt x.seqId x.position = some row

theorem alive_eq (d : Desk) (s : UInt64) : alive s d.slips = d.committed s + d.pending s := by
  unfold alive committed pending
  induction d.slips with
  | nil => rfl
  | cons x xs ih =>
    simp only [List.countP_cons, ih]
    unfold Slip.isAlive Slip.isPending Slip.isCommitted
    cases x.fate <;> cases x.seqId == s <;> simp <;> omega

theorem Sound.kept (hd : d.Sound m₀) : d.Kept m₀ where
  totals s := by rw [← alive_eq]; exact hd.now.totals s
  owns x hx ha := by
    refine (hd.now.placed x hx ?_).place
    unfold Slip.isAlive
    rcases ha with ha | ha <;> rw [ha]
    · exact Bool.or_true _
    · exact Bool.true_or _
  base := hd.now.base
  rows x hx row hf := by
    have hcom : x.isCommitted = true := by unfold Slip.isCommitted; rw [hf]
    unfold AienKvManager.rowAt
    rw [(hd.now.placed x hx (alive_of_committed hcom)).place]
    exact congrArg some (hd.now.rows x hx row hf)

theorem step_idle {m : AienKvManager} (hm : m.Idle) {op : DeskOp} (h : (⟨m, []⟩ : Desk).step op = some d') :
    d' = ⟨m, []⟩ := by
  cases op with
  | reserve s =>
    have hr := hm.reserve s
    unfold Stuck at hr
    simp only [step] at h
    cases ho : reserveToken s m with
    | panic =>
      rw [ho] at h
      cases h
    | err e m' =>
      rw [ho] at h hr
      cases h
      rw [show m' = m from hr]
    | ok r m' =>
      rw [ho] at hr
      exact hr.elim
  | write i l k v => exact (Option.some.inj h).symm
  | commit i => exact (Option.some.inj h).symm
  | rollback i => exact (Option.some.inj h).symm

theorem run_idle {m : AienKvManager} (hm : m.Idle) : ∀ (calls : List DeskOp) {d : Desk},
    (⟨m, []⟩ : Desk).run calls = some d → d = ⟨m, []⟩
  | [], _, h => (Option.some.inj h).symm
  | op :: calls, d, h => by
    unfold run at h
    rw [List.foldlM_cons] at h
    obtain ⟨d1, h1, hrest⟩ := Option.bind_eq_some_iff.1 h
    rw [step_idle hm h1] at hrest
    exact run_idle hm calls hrest

theorem kept_start (m : AienKvManager) : Kept m ⟨m, []⟩ where
  totals s := by
    show _ = (m.tokens s).map (· + 0)
    simp
  owns x hx := by cases hx
  base _ _ _ _ _ := rfl
  rows x hx := by cases hx

end Desk

/-- **Reservations in order are independent.** From any reachable manager, in every run of reservations, writes, commits
and rollbacks in which each rollback comes after the rollbacks of all reservations made since: in every state reached
nothing committed is lost. Once no reservation is pending, a sequence has its first tokens and its committed ones. -/
theorem reservations_independent (total bs : Nat) (pool : Option UnifiedKvTensorPool) (ops : List KvOp)
    (w : World) (hrun : (World.init total bs pool).run ops = some w) (calls : List DeskOp)
    (hord : Desk.RunsOrderly ⟨w.manager, []⟩ calls) (d : Desk) (hd : Desk.run ⟨w.manager, []⟩ calls = some d) :
    d.Kept w.manager ∧ ((∀ x ∈ d.slips, x.isPending = false) →
      ∀ s, d.manager.tokens s = (w.manager.tokens s).map (· + d.committed s)) := by
  have hk : d.Kept w.manager := by
    rcases Nat.eq_zero_or_pos bs with rfl | hbs
    · have hidle := (World.run_unused ops ⟨⟨fun _ => rfl, rfl⟩, rfl⟩ hrun).idle
      rw [Desk.run_idle hidle calls hd]
      exact Desk.kept_start _
    · have hw := (World.run_init total bs hbs pool ops).1 w hrun
      exact (Desk.run_sound calls (Desk.Sound.start hw.inv) hord hd).kept
  refine ⟨hk, fun hres s => ?_⟩
  have hz : d.pending s = 0 := List.countP_eq_zero.2 fun x hx => by rw [hres x hx]; simp
  rw [hk.totals s, hz]
  rfl

/-- Two reservations, the first committed and the second rolled back. -/
theorem reservations_independent_pair : ∃ w d, (World.init 4 2 none).run
    [.allocateSequence 1 [7], .allocateSequence 2 [8]] = some w ∧
    Desk.run ⟨w.manager, []⟩ [.reserve 1, .reserve 2, .commit 0, .rollback 1] = some d ∧ d.Kept w.manager ∧
    d.manager.tokens 1 = some 2 ∧ d.manager.tokens 2 = some 1 := by
  have hrun : ((World.init 4 2 none).run [.allocateSequence 1 [7], .allocateSequence 2 [8]]).bind
      (fun w => if Desk.RunsOrderly ⟨w.manager, []⟩ [.reserve 1, .reserve 2, .commit 0, .rollback 1] then
        (Desk.run ⟨w.manager, []⟩ [.reserve 1, .reserve 2, .commit 0, .rollback 1]).map fun d =>
          (d.manager.tokens 1, d.manager.tokens 2) else none) = some (some 2, some 1) := by
    decide +kernel
  obtain ⟨w, hw, hrest⟩ := Option.bind_eq_some_iff.1 hrun
  split_ifs at hrest with hord
  obtain ⟨d, hd, hvals⟩ := Option.map_eq_some_iff.1 hrest
  obtain ⟨h1, h2⟩ := Prod.mk.inj hvals
  exact ⟨w, d, hw, hd, (reservations_independent 4 2 none _ w hw _ hord d hd).1, h1, h2⟩

/-- The other order: sequence 2 commits its token, and the rollback of the older reservation of sequence 1 takes it away. -/
theorem rollback_loses_commit : ∃ w d, (World.init 4 2 none).run
    [.allocateSequence 1 [7], .allocateSequence 2 [8]] = some w ∧
    Desk.run ⟨w.manager, []⟩ [.reserve 1, .reserve 2, .commit 1, .rollback 0] = some d ∧
    (∀ x ∈ d.slips, x.isPending = false) ∧ d.committed 2 = 1 ∧
    d.manager.tokens 2 ≠ (w.manager.tokens 2).map (· + d.committed 2) := by
  have hrun : ((World.init 4 2 none).run [.allocateSequence 1 [7], .allocateSequence 2 [8]]).bind
      (fun w => (Desk.run ⟨w.manager, []⟩ [.reserve 1, .reserve 2, .commit 1, .rollback 0]).map fun d =>
        (d.slips.all fun x => !x.isPending, d.committed 2, w.manager.tokens 2, d.manager.tokens 2)) =
      some (true, 1, some 1, some 1) := by
    decide +kernel
  obtain ⟨w, hw, hrest⟩ := Option.bind_eq_some_iff.1 hrun
  obtain ⟨d, hd, hvals⟩ := Option.map_eq_some_iff.1 hrest
  obtain ⟨hall, hrest⟩ := Prod.mk.inj hvals
  obtain ⟨hcom, hrest⟩ := Prod.mk.inj hrest
  obtain ⟨hw2, hd2⟩ := Prod.mk.inj hrest
  refine ⟨w, d, hw, hd, fun x hx => ?_, hcom, ?_⟩
  · simpa using List.all_eq_true.1 hall x hx
  · rw [hw2, hd2, hcom]
    decide

end SovereignCore.Kv
