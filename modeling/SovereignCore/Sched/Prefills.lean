import SovereignCore.Lib.Traces
import SovereignCore.Sched.Places

/-!
# What a prefill computes

* `chunksFor`, `intake` : the tokens of a sequence in the executed batches since its prefill started;
* `Event.Exact` : at the completion fence these are the whole input from where the prefill started, and a decode is in
  an executed batch only with a computed table;
* `Feeding` : the invariant, with the chunks that are planned or not yet counted;
* `prefills_are_exact` : so it is in every run in which explicit ids are admitted;
* `chunk_is_fed_twice` : an explicit id that names a queued sequence queues it twice.
-/

namespace SovereignCore.Sched

open Prog Kv AienScheduler Engine

def chunksFor (raw : UInt64) (reqs : List SequenceRequest) : List UInt32 :=
  (reqs.filter fun req => req.requestId = raw).flatMap SequenceRequest.promptTokens

/-- A prefill: where it started, the input it is for, and the executed chunks since. -/
structure Intake where
  offset : Nat
  input : List UInt32
  fed : List UInt32
  deriving DecidableEq

def Intake.next (id : SequenceId) (i : Option Intake) : Event → Option Intake
  | .started id' offset input => if id' = id then some ⟨offset, input, []⟩ else i
  | .executed batch _ ok =>
    if ok then i.map fun i => { i with fed := i.fed ++ chunksFor id.toU64 batch.prefillRequests } else i
  | _ => i

def intake (id : SequenceId) (h : List Event) : Option Intake := h.foldl (Intake.next id) none

/-- The prefill computed all of `input` from where it started. -/
def Intake.isWhole (input : List UInt32) (i : Intake) : Bool := i.input == input && i.fed == input.drop i.offset

/-- What holds of a fence and of a backend step, after the events before it. -/
def Event.Exact (before : List Event) : Event → Prop
  | .fenced id input => (intake id before).any (Intake.isWhole input) = true
  | .executed batch kv _ => ∀ raw ∈ batch.decodeRequests, tableReady kv raw = true
  | _ => True

instance (before : List Event) : DecidablePred (Event.Exact before)
  | .fenced id input => inferInstanceAs (Decidable ((intake id before).any (Intake.isWhole input) = true))
  | .executed batch kv _ => List.decidableBAll (fun raw => tableReady kv raw = true) batch.decodeRequests
  | .freed .. | .started .. | .stranded .. | .released .. | .forked .. | .emitted .. => isTrue trivial

/-! ## Chunks -/

variable {x y : Stage} {s : AienScheduler} {id : SequenceId} {r : SequenceRecord} {h l : List Event} {raw : UInt64}
variable {reqs reqs' : List SequenceRequest} {req : SequenceRequest}

@[simp] theorem chunksFor_nil : chunksFor raw [] = [] := rfl

theorem chunksFor_append : chunksFor raw (reqs ++ reqs') = chunksFor raw reqs ++ chunksFor raw reqs' := by
  unfold chunksFor
  rw [List.filter_append, List.flatMap_append]

theorem chunksFor_cons_self (hid : req.requestId = raw) :
    chunksFor raw (req :: reqs) = req.promptTokens ++ chunksFor raw reqs := by
  unfold chunksFor
  rw [List.filter_cons_of_pos (by rwa [decide_eq_true_eq]), List.flatMap_cons]

theorem chunksFor_cons_of_ne (hid : req.requestId ≠ raw) : chunksFor raw (req :: reqs) = chunksFor raw reqs := by
  unfold chunksFor
  rw [List.filter_cons_of_neg (by rwa [decide_eq_true_eq])]

theorem chunksFor_eq_nil (hnone : ∀ req ∈ reqs, req.requestId ≠ raw) : chunksFor raw reqs = [] := by
  unfold chunksFor
  rw [List.filter_eq_nil_iff.2 fun req hmem => by rw [decide_eq_true_eq]; exact hnone req hmem]
  rfl

/-! ## Events -/

theorem intake_concat (e : Event) : intake id (h ++ [e]) = (Intake.next id (intake id h) e) := by
  unfold intake
  rw [List.foldl_append]
  rfl

def Event.Plain : Event → Prop
  | .started _ _ _ => False
  | .fenced _ _ => False
  | .executed _ _ _ => False
  | _ => True

theorem intake_plain (hl : ∀ e ∈ l, e.Plain) : intake id (h ++ l) = intake id h := by
  induction l generalizing h with
  | nil => rw [List.append_nil]
  | cons e l ih =>
    rw [← List.singleton_append, ← List.append_assoc, ih fun e' he' => hl e' (List.mem_cons_of_mem e he'), intake_concat]
    have hplain := hl e List.mem_cons_self
    cases e <;> first | rfl | exact hplain.elim

theorem always_plain (ha : Always Event.Exact h) (hl : ∀ e ∈ l, e.Plain) : Always Event.Exact (h ++ l) := by
  refine ha.append fun e he before => ?_
  have hplain := hl e he
  cases e <;> first | exact trivial | exact hplain.elim

theorem plain_singleton {e : Event} (he : e.Plain) : ∀ e' ∈ [e], e'.Plain :=
  fun _ he' => List.mem_singleton.1 he' ▸ he

theorem told_plain {sinkId : Option CompletionSinkId} {event : CompletionEvent} :
    ∀ e ∈ told s sinkId event, e.Plain := by
  intro e he
  unfold told at he
  cases sinkId with
  | none => cases he
  | some sink =>
    simp only at he
    split_ifs at he
    · rw [List.mem_singleton.1 he]
      exact trivial
    · cases he

/-! ## The invariant -/

/-- The executed chunks are the input up to where the sequence is, and those not counted yet; the planned ones go on
from there. -/
structure Fed (x : Stage) (id : SequenceId) (r : SequenceRecord) (offset n : Nat) : Prop where
  started : offset ≤ r.promptTokensPrefilled
  fits : r.promptTokensPrefilled + n ≤ r.prefillInput.length
  plan : chunksFor id.toU64 (x.prefills ++ x.advancing) = (r.prefillInput.drop r.promptTokensPrefilled).take n
  seen : intake id x.sched.history = some ⟨offset, r.prefillInput,
    (r.prefillInput.drop offset).take (r.promptTokensPrefilled - offset) ++ chunksFor id.toU64 x.advancing⟩

structure Feeding (x : Stage) : Prop where
  within : ∀ id r, x.sched.arena.get id = some r → r.promptTokensPrefilled ≤ r.prefillInput.length
  fed : ∀ id r, id ∈ x.sched.runningSequences → id ∉ x.refused → x.sched.arena.get id = some r →
    r.isPrefilled = false → ∃ offset n, Fed x id r offset n
  ready : ∀ raw ∈ x.decodes, tableReady x.sched.kvManager raw = true
  exact : Always Event.Exact x.sched.history

/-- The rule for a move: the sequences in `special` are looked at one by one. -/
theorem Feeding.step (h : Feeding x) (special : SequenceId → Prop)
    (hget : ∀ id, ¬ special id → y.sched.arena.get id = x.sched.arena.get id)
    (hrun : ∀ id, ¬ special id → id ∈ y.sched.runningSequences → id ∉ y.refused →
      id ∈ x.sched.runningSequences ∧ id ∉ x.refused)
    (hchunks : ∀ id, ¬ special id → chunksFor id.toU64 y.prefills = chunksFor id.toU64 x.prefills ∧
      chunksFor id.toU64 y.advancing = chunksFor id.toU64 x.advancing)
    (hintake : ∀ id, ¬ special id → intake id y.sched.history = intake id x.sched.history)
    (hspecial : ∀ id r, special id → y.sched.arena.get id = some r →
      r.promptTokensPrefilled ≤ r.prefillInput.length ∧
        (id ∈ y.sched.runningSequences → id ∉ y.refused → r.isPrefilled = false → ∃ offset n, Fed y id r offset n))
    (hready : ∀ raw ∈ y.decodes, tableReady y.sched.kvManager raw = true)
    (hexact : Always Event.Exact y.sched.history) : Feeding y := by
  refine ⟨fun id r hr => ?_, fun id r hmem href hr hpre => ?_, hready, hexact⟩
  · by_cases hid : special id
    · exact (hspecial id r hid hr).1
    · exact h.within id r (hget id hid ▸ hr)
  · by_cases hid : special id
    · exact (hspecial id r hid hr).2 hmem href hpre
    · obtain ⟨hin, hnot⟩ := hrun id hid hmem href
      obtain ⟨offset, n, hfed⟩ := h.fed id r hin hnot (hget id hid ▸ hr) hpre
      obtain ⟨hp, ha⟩ := hchunks id hid
      refine ⟨offset, n, hfed.started, hfed.fits, ?_, ?_⟩
      · rw [chunksFor_append, hp, ha, ← chunksFor_append]
        exact hfed.plan
      · rw [ha, hintake id hid]
        exact hfed.seen

theorem Feeding.same (h : Feeding x) (hget : ∀ id, y.sched.arena.get id = x.sched.arena.get id)
    (hrun : ∀ id ∈ y.sched.runningSequences, id ∉ y.refused → id ∈ x.sched.runningSequences ∧ id ∉ x.refused)
    (hp : y.prefills = x.prefills) (ha : y.advancing = x.advancing) (hhist : y.sched.history = x.sched.history ++ l)
    (hl : ∀ e ∈ l, e.Plain)
    (hready : ∀ raw ∈ y.decodes, tableReady y.sched.kvManager raw = true) : Feeding y := by
  refine h.step (fun _ => False) (fun id _ => hget id) (fun id _ => hrun id) (fun id _ => by rw [hp, ha]; exact ⟨rfl, rfl⟩)
    (fun id _ => ?_) (fun _ _ hid => hid.elim) hready ?_
  · rw [hhist]
    exact intake_plain hl
  · rw [hhist]
    exact always_plain h.exact hl

theorem Feeding.alter (h : Feeding x) (id : SequenceId)
    (hget : ∀ id', id' ≠ id → y.sched.arena.get id' = x.sched.arena.get id')
    (hrun : ∀ id', id' ≠ id → id' ∈ y.sched.runningSequences → id' ∉ y.refused →
      id' ∈ x.sched.runningSequences ∧ id' ∉ x.refused)
    (hp : y.prefills = x.prefills) (ha : y.advancing = x.advancing) (hhist : y.sched.history = x.sched.history ++ l)
    (hl : ∀ e ∈ l, e.Plain)
    (hready : ∀ raw ∈ y.decodes, tableReady y.sched.kvManager raw = true)
    (hspecial : ∀ r, y.sched.arena.get id = some r → r.promptTokensPrefilled ≤ r.prefillInput.length ∧
      (id ∈ y.sched.runningSequences → id ∉ y.refused → r.isPrefilled = false → ∃ offset n, Fed y id r offset n)) :
    Feeding y := by
  refine h.step (· = id) hget hrun (fun id _ => by rw [hp, ha]; exact ⟨rfl, rfl⟩) (fun id _ => ?_)
    (fun id' r hid => hid ▸ hspecial r) hready ?_
  · rw [hhist]
    exact intake_plain hl
  · rw [hhist]
    exact always_plain h.exact hl

/-! ## Pieces of an input -/

section pieces
variable {input l₁ l₂ : List UInt32} {offset p n : Nat}

theorem eq_take_of_append (hfits : p + n ≤ input.length) (heq : l₁ ++ l₂ = (input.drop p).take n) :
    l₁.length ≤ n ∧ l₁ = (input.drop p).take l₁.length ∧ l₂ = (input.drop (p + l₁.length)).take (n - l₁.length) := by
  have hlen : l₁.length + l₂.length = n := by
    have := congrArg List.length heq
    rw [List.length_append, List.length_take, List.length_drop] at this
    omega
  have hsplit : (input.drop p).take n =
      (input.drop p).take l₁.length ++ (input.drop (p + l₁.length)).take (n - l₁.length) := by
    rw [← List.drop_drop, ← List.take_add, Nat.add_sub_of_le (by omega)]
  rw [hsplit] at heq
  have hle : l₁.length = ((input.drop p).take l₁.length).length := by
    rw [List.length_take, List.length_drop]
    omega
  obtain ⟨h1, h2⟩ := List.append_inj heq hle
  exact ⟨by omega, h1, h2⟩

theorem take_append_take (hle : offset ≤ p) :
    (input.drop offset).take (p - offset) ++ (input.drop p).take n = (input.drop offset).take (p + n - offset) := by
  have hdrop : input.drop p = (input.drop offset).drop (p - offset) := by
    rw [List.drop_drop, Nat.add_sub_of_le hle]
  rw [hdrop, ← List.take_add]
  congr 1
  omega

end pieces

theorem prefillInput_length (r : SequenceRecord) : r.prefillInput.length = r.prefillInputLen := List.length_append

/-! ## Moves -/

theorem Placed.unplanned_of_waits (hpl : Placed x) (hmem : id ∈ x.waits) (hlive : (x.sched.arena.get id).isSome) :
    chunksFor id.toU64 x.prefills = [] := by
  refine chunksFor_eq_nil fun req hreq heq => ?_
  obtain ⟨r, hr⟩ := Option.isSome_iff_exists.1 hlive
  exact hpl.not_waits_of_planned (List.mem_append_left _ hreq) heq.symm hr hmem

/-- A sequence the running loop still has to look at has no chunk. -/
theorem Placed.unplanned_of_todo (hpl : Placed x) (hmem : id ∈ x.todo) (hlive : (x.sched.arena.get id).isSome) :
    chunksFor id.toU64 x.prefills = [] := by
  refine chunksFor_eq_nil fun req hreq heq => ?_
  exact (hpl.planned req (List.mem_append_left _ hreq) id heq.symm hlive).2 (List.mem_append_left _ hmem)

theorem chunksFor_concat_of_ne {id' : SequenceId} (hne : id' ≠ id) {start length : Nat} :
    chunksFor id'.toU64 (reqs ++ [chunkRequest id r start length]) = chunksFor id'.toU64 reqs := by
  have hraw : (chunkRequest id r start length).requestId ≠ id'.toU64 := fun heq => hne (SlotId.toU64_inj.1 heq).symm
  rw [chunksFor_append, chunksFor_cons_of_ne hraw, chunksFor_nil, List.append_nil]

theorem chunksFor_concat_self (hnone : chunksFor id.toU64 reqs = []) {start length : Nat} :
    chunksFor id.toU64 (reqs ++ [chunkRequest id r start length]) = (r.prefillInput.drop start).take length := by
  have hself : chunksFor id.toU64 [chunkRequest id r start length] = (r.prefillInput.drop start).take length ++ [] :=
    chunksFor_cons_self rfl
  rw [chunksFor_append, hnone, hself, List.append_nil, List.nil_append]

theorem Feeding.chunk (h : Feeding x) (hpl : Placed x) {rest : List SequenceId} {length : Nat} (htodo : x.todo = id :: rest)
    (hr : x.sched.arena.get id = some r) (hpre : r.isPrefilled = false)
    (hlen : r.promptTokensPrefilled + length ≤ r.prefillInputLen) (hidle : x.advancing = []) :
    Feeding { x with todo := rest, prefills := x.prefills ++ [chunkRequest id r r.promptTokensPrefilled length] } := by
  have hmem : id ∈ x.todo := by rw [htodo]; exact List.mem_cons_self
  refine h.step (· = id) (fun _ _ => rfl) (fun _ _ hrun href => ⟨hrun, href⟩)
    (fun id' hne => ⟨chunksFor_concat_of_ne hne, rfl⟩) (fun _ _ => rfl) (fun id' r' hid hr' => ?_) h.ready h.exact
  subst hid
  obtain rfl : r = r' := Option.some.inj (hr.symm.trans hr')
  refine ⟨h.within id' r hr, fun hrun href _ => ?_⟩
  obtain ⟨offset, n, hfed⟩ := h.fed id' r hrun href hr hpre
  refine ⟨offset, length, hfed.started, by rwa [prefillInput_length], ?_, hfed.seen⟩
  show chunksFor id'.toU64 (x.prefills ++ [_] ++ x.advancing) = _
  rw [hidle, List.append_nil]
  exact chunksFor_concat_self (hpl.unplanned_of_todo hmem (by rw [hr]; rfl))

theorem intake_started (offset : Nat) (input : List UInt32) :
    intake id (h ++ [.started id offset input]) = some ⟨offset, input, []⟩ := by
  rw [intake_concat]
  exact if_pos rfl

theorem intake_started_of_ne {id' : SequenceId} (hne : id' ≠ id) (offset : Nat) (input : List UInt32) :
    intake id' (h ++ [.started id offset input]) = intake id' h := by
  rw [intake_concat]
  exact if_neg hne.symm

theorem exact_started (ha : Always Event.Exact h) (offset : Nat) (input : List UInt32) :
    Always Event.Exact (h ++ [.started id offset input]) := always_concat.2 ⟨ha, trivial⟩

/-- A sequence whose prefill starts at `offset`, with its first chunk planned. -/
theorem fed_of_started {n : Nat} (hfits : r.promptTokensPrefilled + n ≤ r.prefillInput.length)
    (hplan : chunksFor id.toU64 (y.prefills ++ y.advancing) = (r.prefillInput.drop r.promptTokensPrefilled).take n)
    (hadv : y.advancing = [])
    (hhist : y.sched.history = h ++ [.started id r.promptTokensPrefilled r.prefillInput]) :
    Fed y id r r.promptTokensPrefilled n := by
  refine ⟨Nat.le_refl _, hfits, hplan, ?_⟩
  rw [hhist, intake_started, hadv, Nat.sub_self, List.take_zero]
  rfl

theorem Feeding.admitPrefill (h : Feeding x) (hpl : Placed x) {w p : List SequenceId} {length : Nat}
    (ht : Takes x.sched id w p) (hr : x.sched.arena.get id = some r) (hlen : length ≤ r.prefillInputLen)
    (hidle : x.todo = [] ∧ x.refused = [] ∧ x.advancing = []) :
    Feeding { x with
      sched := { x.sched with
        waitingQueue := w
        preemptedQueue := p
        arena := x.sched.arena.getMut id fun r' => { r' with phase := .prefill }
        history := x.sched.history ++ [.started id 0 r.prefillInput]
        runningSequences := x.sched.runningSequences ++ [id] }
      prefills := x.prefills ++ [chunkRequest id r 0 length] } := by
  have hmem : id ∈ x.waits := List.mem_append_left _ (ht.perm.mem_iff.2 List.mem_cons_self)
  have hreset := hpl.reset id hmem r hr
  refine h.step (· = id) (fun id' hne => SequenceArena.get_getMut_of_ne hne) (fun id' hne hrun href => ?_)
    (fun id' hne => ⟨chunksFor_concat_of_ne hne, rfl⟩) (fun id' hne => intake_started_of_ne hne 0 _)
    (fun id' r' hid hr' => ?_) h.ready (exact_started h.exact 0 _)
  · rcases List.mem_append.1 hrun with hrun | hrun
    · exact ⟨hrun, href⟩
    · exact absurd (List.mem_singleton.1 hrun) hne
  · subst hid
    have hr' : (x.sched.arena.getMut id' fun r' => { r' with phase := .prefill }).get id' = some r' := hr'
    rw [SequenceArena.get_getMut_self, hr] at hr'
    obtain rfl := Option.some.inj hr'
    have hzero : r.promptTokensPrefilled = 0 := hreset.progress
    refine ⟨h.within id' r hr, fun _ _ _ => ⟨r.promptTokensPrefilled, length, fed_of_started (h := x.sched.history) ?_ ?_ hidle.2.2 ?_⟩⟩
    · show r.promptTokensPrefilled + length ≤ r.prefillInput.length
      rw [hzero, prefillInput_length]
      omega
    · show chunksFor id'.toU64 (x.prefills ++ [_] ++ x.advancing) = (r.prefillInput.drop r.promptTokensPrefilled).take length
      rw [hidle.2.2, List.append_nil, hzero]
      exact chunksFor_concat_self (hpl.unplanned_of_waits hmem (by rw [hr]; rfl))
    · show x.sched.history ++ [.started id' 0 r.prefillInput] = _ ++ [.started id' r.promptTokensPrefilled r.prefillInput]
      rw [hzero]

theorem Feeding.execute (h : Feeding x) {batch : ScheduledBatch} {ok : Bool} (hp : batch.prefillRequests = x.prefills)
    (hd : batch.decodeRequests = x.decodes) (hidle : x.advancing = []) :
    Feeding { x with
      sched := { x.sched with history := x.sched.history ++ [.executed batch x.sched.kvManager ok] }
      prefills := []
      decodes := []
      advancing := if ok then x.prefills else [] } := by
  refine h.step (fun _ => True) (fun _ hn => absurd trivial hn) (fun _ hn => absurd trivial hn)
    (fun _ hn => absurd trivial hn) (fun _ hn => absurd trivial hn) (fun id r _ hr => ?_) nofun
    (always_concat.2 ⟨h.exact, fun raw hraw => h.ready raw (hd ▸ hraw)⟩)
  refine ⟨h.within id r hr, fun hrun href hpre => ?_⟩
  obtain ⟨offset, n, hfed⟩ := h.fed id r hrun href hr hpre
  have hplan := hfed.plan
  have hseen := hfed.seen
  rw [hidle, List.append_nil] at hplan
  rw [hidle, chunksFor_nil, List.append_nil] at hseen
  cases ok with
  | true =>
    refine ⟨offset, n, hfed.started, hfed.fits, hplan, ?_⟩
    show intake id (x.sched.history ++ [_]) = some ⟨offset, r.prefillInput, _ ++ chunksFor id.toU64 x.prefills⟩
    rw [intake_concat, hseen]
    show some (_ : Intake) = _
    rw [hp]
  | false =>
    refine ⟨offset, 0, hfed.started, (Nat.le_add_right _ n).trans hfed.fits, rfl, ?_⟩
    show intake id (x.sched.history ++ [_]) = some ⟨offset, r.prefillInput, _ ++ []⟩
    rw [intake_concat, hseen, List.append_nil]
    rfl

/-- An executed chunk of the sequence: it is the next piece of the input, and the chunks behind it go on from there. -/
theorem Fed.counted {offset n : Nat} {rest : List SequenceRequest} (hf : Fed x id r offset n) (hp : x.prefills = [])
    (hadv : x.advancing = req :: rest) (hid : SlotId.toU64 id = req.requestId) :
    req.promptTokens.length ≤ n ∧
      chunksFor id.toU64 rest =
        (r.prefillInput.drop (r.promptTokensPrefilled + req.promptTokens.length)).take (n - req.promptTokens.length) ∧
      intake id x.sched.history = some ⟨offset, r.prefillInput,
        (r.prefillInput.drop offset).take (r.promptTokensPrefilled + req.promptTokens.length - offset) ++
          chunksFor id.toU64 rest⟩ := by
  have hplan := hf.plan
  have hseen := hf.seen
  rw [hp, List.nil_append, hadv, chunksFor_cons_self hid.symm] at hplan
  rw [hadv, chunksFor_cons_self hid.symm] at hseen
  obtain ⟨hle, hchunk, hrest⟩ := eq_take_of_append hf.fits hplan
  refine ⟨hle, hrest, ?_⟩
  rw [hseen, ← List.append_assoc]
  congr 3
  rw [hchunk, List.length_take_of_le]
  · exact take_append_take hf.started
  · rw [List.length_drop]
    have := hf.fits
    omega

theorem Feeding.counting (h : Feeding x) (hpl : Placed x) {rest : List SequenceRequest} (hadv : x.advancing = req :: rest)
    (hid : SlotId.toU64 id = req.requestId) (hr : x.sched.arena.get id = some r) (hpre : r.isPrefilled = false) :
    ∃ offset n, Fed x id r offset n := by
  have hmem : req ∈ x.prefills ++ x.advancing := by
    rw [hadv]
    exact List.mem_append_right _ List.mem_cons_self
  obtain ⟨hrun, hnot⟩ := hpl.planned req hmem id hid (by rw [hr]; rfl)
  exact h.fed id r hrun (fun href => hnot (List.mem_append_right _ href)) hr hpre

theorem chunksFor_rest {rest : List SequenceRequest} (hadv : x.advancing = req :: rest)
    (hid : SlotId.toU64 id = req.requestId) {id' : SequenceId} (hne : id' ≠ id) :
    chunksFor id'.toU64 rest = chunksFor id'.toU64 x.advancing := by
  have hraw : req.requestId ≠ id'.toU64 := fun heq => hne (SlotId.toU64_inj.1 (heq.symm.trans hid.symm))
  rw [hadv, chunksFor_cons_of_ne hraw]

theorem Feeding.advance (h : Feeding x) (hpl : Placed x) {rest : List SequenceRequest} (hadv : x.advancing = req :: rest)
    (hid : SlotId.toU64 id = req.requestId) (hr : x.sched.arena.get id = some r) (hpre : r.isPrefilled = false)
    (hidle : x.prefills = []) :
    Feeding { x with
      sched := { x.sched with arena := x.sched.arena.getMut id fun r' =>
        { r' with promptTokensPrefilled := r.promptTokensPrefilled + req.promptTokens.length } }
      advancing := rest } := by
  obtain ⟨offset, n, hf⟩ := h.counting hpl hadv hid hr hpre
  obtain ⟨hle, hrest, hseen⟩ := hf.counted hidle hadv hid
  have hfits := hf.fits
  refine h.step (· = id) (fun id' hne => SequenceArena.get_getMut_of_ne hne) (fun _ _ hrun href => ⟨hrun, href⟩)
    (fun id' hne => ⟨rfl, chunksFor_rest hadv hid hne⟩) (fun _ _ => rfl) (fun id' r' heq hr' => ?_) h.ready h.exact
  subst heq
  have hr' : (x.sched.arena.getMut id' _).get id' = some r' := hr'
  rw [SequenceArena.get_getMut_self, hr] at hr'
  obtain rfl := Option.some.inj hr'
  have hwithin : r.promptTokensPrefilled + req.promptTokens.length ≤ r.prefillInput.length := by omega
  refine ⟨hwithin, fun _ _ _ => ⟨offset, n - req.promptTokens.length, ?_, ?_, ?_, hseen⟩⟩
  · exact hf.started.trans (Nat.le_add_right _ _)
  · show r.promptTokensPrefilled + req.promptTokens.length + (n - req.promptTokens.length) ≤ r.prefillInput.length
    omega
  · show chunksFor id'.toU64 (x.prefills ++ rest) = _
    rw [hidle, List.nil_append]
    exact hrest

theorem Feeding.fence (h : Feeding x) (hpl : Placed x) {rest : List SequenceRequest} (hadv : x.advancing = req :: rest)
    (hid : SlotId.toU64 id = req.requestId) (hr : x.sched.arena.get id = some r) (hpre : r.isPrefilled = false)
    (hle : r.prefillInputLen ≤ r.promptTokensPrefilled + req.promptTokens.length) (hidle : x.prefills = []) :
    Feeding { x with
      sched := { x.sched with
        arena := x.sched.arena.getMut id fun r' =>
          { r' with promptTokensPrefilled := r.promptTokensPrefilled + req.promptTokens.length,
                    isPrefilled := true, phase := .decode }
        history := x.sched.history ++ [.fenced id r.prefillInput] }
      advancing := rest } := by
  obtain ⟨offset, n, hf⟩ := h.counting hpl hadv hid hr hpre
  obtain ⟨hlen, hrest, hseen⟩ := hf.counted hidle hadv hid
  have hfits := hf.fits
  rw [← prefillInput_length] at hle
  -- The chunk reaches the end of the input, so no chunk is behind it.
  have hnone : chunksFor id.toU64 rest = [] := by
    rw [hrest, show n - req.promptTokens.length = 0 by omega, List.take_zero]
  have hwhole : (r.prefillInput.drop offset).take (r.promptTokensPrefilled + req.promptTokens.length - offset) =
      r.prefillInput.drop offset := by
    refine List.take_of_length_le ?_
    rw [List.length_drop]
    omega
  rw [hnone, List.append_nil, hwhole] at hseen
  have hexact : (intake id x.sched.history).any (Intake.isWhole r.prefillInput) = true := by
    rw [hseen]
    show (r.prefillInput == r.prefillInput && r.prefillInput.drop offset == r.prefillInput.drop offset) = true
    rw [beq_self_eq_true, beq_self_eq_true]
    rfl
  refine h.step (· = id) (fun id' hne => SequenceArena.get_getMut_of_ne hne) (fun _ _ hrun href => ⟨hrun, href⟩)
    (fun id' hne => ⟨rfl, chunksFor_rest hadv hid hne⟩) (fun id' _ => intake_concat _) (fun id' r' heq hr' => ?_) h.ready
    (always_concat.2 ⟨h.exact, hexact⟩)
  subst heq
  have hr' : (x.sched.arena.getMut id' _).get id' = some r' := hr'
  rw [SequenceArena.get_getMut_self, hr] at hr'
  obtain rfl := Option.some.inj hr'
  refine ⟨?_, fun _ _ hfalse => Bool.noConfusion hfalse⟩
  show r.promptTokensPrefilled + req.promptTokens.length ≤ r.prefillInput.length
  omega

theorem eq_of_getMut {a : SequenceArena} {f : SequenceRecord → SequenceRecord} {r' : SequenceRecord}
    (hr : a.get id = some r) (hr' : (a.getMut id f).get id = some r') : r' = f r := by
  rw [SequenceArena.get_getMut_self, hr] at hr'
  exact (Option.some.inj hr').symm

theorem Feeding.started (h : Feeding x) (hrest : x.Resting) {arena : SequenceArena} {w : List SequenceId}
    (hget : ∀ id', id' ≠ id → arena.get id' = x.sched.arena.get id') (hr : arena.get id = some r)
    (hfits : r.promptTokensPrefilled ≤ r.prefillInput.length) :
    Feeding { x with sched := { x.sched with
      arena
      waitingQueue := w
      history := x.sched.history ++ [.started id r.promptTokensPrefilled r.prefillInput]
      runningSequences := x.sched.runningSequences ++ [id] } } := by
  refine h.step (· = id) hget (fun id' hne hrun href => ?_) (fun _ _ => ⟨rfl, rfl⟩)
    (fun id' hne => intake_started_of_ne hne _ _) (fun id' r' heq hr' => ?_) h.ready (exact_started h.exact _ _)
  · rcases List.mem_append.1 hrun with hrun | hrun
    · exact ⟨hrun, href⟩
    · exact absurd (List.mem_singleton.1 hrun) hne
  · subst heq
    obtain rfl : r = r' := Option.some.inj (hr.symm.trans hr')
    refine ⟨hfits, fun _ _ _ => ⟨r.promptTokensPrefilled, 0, fed_of_started (h := x.sched.history) hfits ?_ hrest.advancing rfl⟩⟩
    show chunksFor id'.toU64 (x.prefills ++ x.advancing) = _
    rw [hrest.prefills, hrest.advancing]
    rfl

theorem Feeding.inserted (h : Feeding x) (hpl : Placed x) {arena : SequenceArena} {w : List SequenceId}
    (hnew : SequenceArena.Inserted x.sched.arena arena id r) (hfits : r.promptTokensPrefilled ≤ r.prefillInput.length)
    (hl : ∀ e ∈ l, e.Plain) :
    Feeding { x with sched := { x.sched with arena, waitingQueue := w, history := x.sched.history ++ l } } := by
  refine h.alter id hnew.others (fun _ _ hrun href => ⟨hrun, href⟩) rfl rfl rfl hl h.ready fun r' hr' => ?_
  obtain rfl : r = r' := Option.some.inj (hnew.self.symm.trans hr')
  exact ⟨hfits, fun hrun => absurd (List.mem_append_right _ hrun) (hpl.fresh hnew)⟩

theorem Move.feeding (hm : Move False x y) (hpl : Placed x) (h : Feeding x) : Feeding y := by
  cases hm with
  | aside s' hs hready =>
    refine h.same (fun id => by rw [hs.arena]) (fun id hrun href => ⟨hs.running ▸ hrun, href⟩) rfl rfl
      (hs.history.trans (List.append_nil _).symm) (List.forall_mem_nil _) fun raw hraw => hready raw hraw (h.ready raw hraw)
  | purge w p run hw hp hrun hidle =>
    exact h.same (fun _ => rfl) (fun id hmem href => ⟨hrun.sublist.subset hmem, href⟩) rfl rfl (List.append_nil _).symm
      (List.forall_mem_nil _) h.ready
  | preempt id r cause hr hrun hidle =>
    refine h.alter id (fun _ hne => SequenceArena.get_getMut_of_ne hne)
      (fun id' _ hmem href => ⟨List.mem_of_mem_erase hmem, href⟩) rfl rfl rfl
      (plain_singleton trivial) h.ready fun r' hr' => ?_
    obtain rfl := eq_of_getMut hr hr'
    refine ⟨Nat.zero_le _, fun hmem => ?_⟩
    exact absurd hmem (List.Nodup.not_mem_erase (List.nodup_append.1 hpl.nodup).2.1)
  | look ids hperm hb hidle =>
    exact h.same (fun _ => rfl) (fun _ hrun href => ⟨hrun, href⟩) rfl rfl (List.append_nil _).symm (List.forall_mem_nil _) h.ready
  | pass seen rest htodo =>
    exact h.same (fun _ => rfl) (fun _ hrun href => ⟨hrun, href⟩) rfl rfl (List.append_nil _).symm
      (List.forall_mem_nil _) h.ready
  | decode id rest r htodo hr hpre hready =>
    refine h.same (fun _ => rfl) (fun _ hrun href => ⟨hrun, href⟩) rfl rfl (List.append_nil _).symm (List.forall_mem_nil _)
      fun raw hraw => ?_
    rcases List.mem_append.1 hraw with hraw | hraw
    · exact h.ready raw hraw
    · exact List.mem_singleton.1 hraw ▸ hready
  | refuse id rest r htodo hr hpre =>
    refine h.alter id (fun _ hne => SequenceArena.get_getMut_of_ne hne)
      (fun id' _ hrun href => ⟨hrun, fun hmem => href (List.mem_append_left _ hmem)⟩) rfl rfl (List.append_nil _).symm
      (List.forall_mem_nil _) h.ready fun r' hr' => ?_
    obtain rfl := eq_of_getMut hr hr'
    exact ⟨Nat.zero_le _, fun _ href => absurd (List.mem_append_right _ (List.mem_singleton_self id)) href⟩
  | chunk id rest r length htodo hr hpre hlen hidle => exact h.chunk hpl htodo hr hpre hlen hidle
  | requeue id rest hrefused hidle =>
    refine h.same (fun _ => rfl) (fun id' hmem href => ?_) rfl rfl rfl
      (plain_singleton trivial) h.ready
    obtain ⟨hrun, hkept⟩ := List.mem_filter.1 hmem
    have hne : id' ≠ id := by simpa using hkept
    refine ⟨hrun, fun hmem => ?_⟩
    rw [hrefused] at hmem
    exact (List.mem_cons.1 hmem).elim hne href
  | admitReady id r w p ht hr hready hidle =>
    refine h.alter id (fun _ hne => SequenceArena.get_getMut_of_ne hne) (fun id' hne hmem href => ?_) rfl rfl (List.append_nil _).symm
      (List.forall_mem_nil _) (fun raw hraw => ?_) fun r' hr' => ?_
    · rcases List.mem_append.1 hmem with hmem | hmem
      · exact ⟨hmem, href⟩
      · exact absurd (List.mem_singleton.1 hmem) hne
    · rcases List.mem_append.1 hraw with hraw | hraw
      · exact h.ready raw hraw
      · exact List.mem_singleton.1 hraw ▸ hready
    · obtain rfl := eq_of_getMut hr hr'
      exact ⟨(prefillInput_length r).ge, fun _ _ hfalse => Bool.noConfusion hfalse⟩
  | admitPrefill id r w p length ht hr hlen hidle => exact h.admitPrefill hpl ht hr hlen hidle
  | lose id w p ht hidle =>
    exact h.same (fun _ => rfl) (fun _ hrun href => ⟨hrun, href⟩) rfl rfl rfl (plain_singleton trivial) h.ready
  | takeReleases hnone =>
    exact h.same (fun _ => rfl) (fun _ hrun href => ⟨hrun, href⟩) rfl rfl (List.append_nil _).symm (List.forall_mem_nil _) h.ready
  | release raw rest hrel =>
    exact h.same (fun _ => rfl) (fun _ hrun href => ⟨hrun, href⟩) rfl rfl rfl
      (plain_singleton trivial) h.ready
  | refuseRelease raw rest hrel =>
    exact h.same (fun _ => rfl) (fun _ hrun href => ⟨hrun, href⟩) rfl rfl rfl
      (plain_singleton trivial) h.ready
  | execute batch ok hp hd hrel hidle => exact h.execute hp hd hidle.2.2
  | advanceNone req rest hadv hr =>
    refine h.step (fun id => SlotId.toU64 id = req.requestId) (fun _ _ => rfl) (fun _ _ hrun href => ⟨hrun, href⟩)
      (fun id' hne => ⟨rfl, ?_⟩) (fun _ _ => rfl) (fun id' r' hid hr' => ?_) h.ready h.exact
    · rw [hadv, chunksFor_cons_of_ne (Ne.symm hne)]
    · refine ⟨h.within id' r' hr', fun _ _ hfalse => ?_⟩
      rw [hr id' r' hid hr'] at hfalse
      cases hfalse
  | advance id r req rest hadv hid hr hpre hlt hidle => exact h.advance hpl hadv hid hr hpre hidle
  | fence id r req rest hadv hid hr hpre hle hidle => exact h.fence hpl hadv hid hr hpre hle hidle
  | token id r tok hr hpre hidle =>
    refine h.alter id (fun _ hne => SequenceArena.get_getMut_of_ne hne) (fun _ _ hrun href => ⟨hrun, href⟩) rfl rfl
      rfl told_plain h.ready fun r' hr' => ?_
    obtain rfl := eq_of_getMut hr hr'
    refine ⟨?_, fun _ _ hfalse => ?_⟩
    · have hwithin := h.within id r hr
      rw [prefillInput_length] at hwithin
      show r.promptTokensPrefilled ≤ (r.prompt ++ (r.generatedTokens ++ [tok])).length
      rw [← List.append_assoc, List.length_append]
      exact hwithin.trans ((prefillInput_length r).ge.trans (Nat.le_add_right _ _))
    · have hfalse : r.isPrefilled = false := hfalse
      rw [hpre] at hfalse
      cases hfalse
  | reportPreempted id sinkId total decoding ops hfreed hidle =>
    exact h.same (fun _ => rfl) (fun _ hrun href => ⟨hrun, href⟩) rfl rfl rfl told_plain h.ready
  | finish id r reason total decoding ops hr hidle =>
    refine h.alter id (fun _ hne => SequenceArena.get_freeSequence_of_ne hne)
      (fun _ _ hmem href => ⟨List.mem_of_mem_erase hmem, href⟩) rfl rfl rfl told_plain h.ready fun r' hr' => ?_
    rw [SequenceArena.get_freeSequence_self] at hr'
    cases hr'
  | abandon hidle =>
    refine h.step (fun _ => True) (fun _ hn => absurd trivial hn) (fun _ hn => absurd trivial hn)
      (fun _ hn => absurd trivial hn) (fun _ hn => absurd trivial hn) (fun id r _ hr => ?_) nofun h.exact
    refine ⟨h.within id r hr, fun hrun href hpre => ?_⟩
    obtain ⟨offset, n, hf⟩ := h.fed id r hrun href hr hpre
    refine ⟨offset, 0, hf.started, h.within id r hr, ?_, hf.seen⟩
    show chunksFor id.toU64 ([] ++ x.advancing) = _
    rw [hidle.2.2]
    rfl
  | submit id params arena hnew hidle =>
    have hsame := h.inserted (w := x.sched.waitingQueue ++ [id]) (l := []) hpl hnew (Nat.zero_le _) (List.forall_mem_nil _)
    rwa [List.append_nil] at hsame
  | submitOver id arena hover => exact hover.elim
  | idle arena harena hidle =>
    exact h.same (SequenceArena.get_congr harena.gets) (fun _ hrun href => ⟨hrun, href⟩) rfl rfl (List.append_nil _).symm
      (List.forall_mem_nil _) h.ready
  | fork parentId id parent sinkId arena hparent hnew hidle =>
    exact h.started (r := SequenceArena.forkRecord parent parentId id sinkId) (Stage.resting hidle) hnew.others hnew.self
      (h.within parentId parent hparent)
  | forkLost parentId id parent sinkId arena hparent hnew hidle =>
    exact h.inserted hpl hnew (h.within parentId parent hparent) (plain_singleton trivial)
  | phase id phase hidle =>
    refine h.alter id (fun _ hne => SequenceArena.get_getMut_of_ne hne) (fun _ _ hrun href => ⟨hrun, href⟩) rfl rfl
      (List.append_nil _).symm (List.forall_mem_nil _) h.ready fun r' hr' => ?_
    rw [SequenceArena.get_getMut_self] at hr'
    obtain ⟨r, hr, rfl⟩ := Option.map_eq_some_iff.1 hr'
    refine ⟨h.within id r hr, fun hrun href hpre => ?_⟩
    obtain ⟨offset, n, hf⟩ := h.fed id r hrun href hr hpre
    exact ⟨offset, n, hf.started, hf.fits, hf.plan, hf.seen⟩
  | restore id r restored hr hlt hw hidle =>
    have hget : (x.sched.arena.getMut id fun r' =>
        { r' with phase := .prefill, promptTokensPrefilled := restored, isPrefilled := false }).get id =
        some { r with phase := .prefill, promptTokensPrefilled := restored, isPrefilled := false } := by
      rw [SequenceArena.get_getMut_self, hr]
      rfl
    refine h.started (Stage.resting hidle) (fun _ hne => SequenceArena.get_getMut_of_ne hne) hget ?_
    show restored ≤ r.prefillInput.length
    rw [prefillInput_length]
    exact hlt.2.le.trans (Nat.le_add_right _ _)

/-! ## Runs -/

theorem feeding_new (config : SchedulerConfig) (kvManager : AienKvManager) : Feeding (.rest (.new config kvManager)) where
  within id r hr := by
    have hr : SequenceArena.new.get id = some r := hr
    rw [get_new] at hr
    cases hr
  fed id r hmem := absurd hmem List.not_mem_nil
  ready raw hraw := absurd hraw List.not_mem_nil
  exact := always_nil

variable {β : Type}

/-- **Prefills are exact**: in every run in which explicit ids are admitted, when a sequence passes the completion fence
the chunks for it in the batches executed since its prefill started make up its input from where the prefill started,
in order and without a gap or an overlap; and a batch decodes a sequence only if its table is ready. -/
theorem prefills_are_exact (B : AienInferenceBackend β) (config : SchedulerConfig) (kvManager : AienKvManager)
    (backend : β) (calls : List Call) (e : Engine β) (hfit : allFit B (start config kvManager backend) calls)
    (hrun : run B (start config kvManager backend) calls = some e) : Always Event.Exact e.sched.history := by
  have hpath : Path False _ _ := run_path (.inr hfit) hrun
  have hinv : Placed (.rest e.sched) ∧ Feeding (.rest e.sched) := by
    refine hpath.keeps (P := fun x => Placed x ∧ Feeding x) (fun hm h => ⟨hm.placed h.1, hm.feeding h.1 h.2⟩) ?_
    exact ⟨placed_new config kvManager, feeding_new config kvManager⟩
  exact hinv.2.exact

def chunked (requests : List SequenceRequest) : Option (Engine Script) :=
  run Script.backend (start { plainConfig 0 with prefillChunkSize := 2 } (.new 8 2) ⟨[], []⟩)
    (requests.map .submitRequest ++ [.step, .step])

theorem prefills_are_exact_sample : ∃ e, chunked [plainRequest 0 [10, 11, 12] 8] = some e ∧
    intake ⟨0, 1⟩ e.sched.history = some ⟨0, [10, 11, 12], [10, 11, 12]⟩ ∧ Always Event.Exact e.sched.history := by
  have hrun : (chunked [plainRequest 0 [10, 11, 12] 8]).any (fun e =>
      decide (intake ⟨0, 1⟩ e.sched.history = some ⟨0, [10, 11, 12], [10, 11, 12]⟩)) = true := by decide +kernel
  obtain ⟨e, he, hfed⟩ := Option.any_eq_true _ _ |>.1 hrun
  refine ⟨e, he, of_decide_eq_true hfed, prefills_are_exact Script.backend _ _ _ _ e ?_ he⟩
  exact ⟨rfl, fun _ _ => ⟨rfl, fun _ _ => ⟨rfl, fun _ _ => trivial⟩⟩⟩

/-- **An explicit id queues a sequence twice**: the second request with the id takes over the live record and both queue
entries are admitted, so one batch has the first chunk of the input twice. -/
theorem chunk_is_fed_twice : ∃ e,
    chunked [plainRequest 0x100000001 [10, 11, 12] 8, plainRequest 0x100000001 [10, 11, 12] 8] = some e ∧
      ¬ Always Event.Exact e.sched.history := by
  have hrun : (chunked [plainRequest 0x100000001 [10, 11, 12] 8, plainRequest 0x100000001 [10, 11, 12] 8]).any
      (fun e => decide (¬ Always Event.Exact e.sched.history)) = true := by decide +kernel
  obtain ⟨e, he, hnot⟩ := Option.any_eq_true _ _ |>.1 hrun
  exact ⟨e, he, of_decide_eq_true hnot⟩

end SovereignCore.Sched
