import Mathlib
import SovereignCore.Lib.Machine

/-!
# The bounded trace sink

`BoundedJsonlSink` as a state machine: any number of threads are inside `emit` or `flush` at once, and each goes on by
one access to what they share, the queue under its lock or one of the atomic counters. The counters wrap at `2 ^ 64`.
A write appends all its lines or none. Ids, references and the certainty of an event are left out: nothing reads them.

* `TraceEvent`, `BoundedNote.new` : events and their only free text;
* `Call` : where a thread stands; `BoundedJsonlSink.advance` : its next access;
* `Act`, `step`, `run` : calls that begin, and calls that go on;
* `Balanced`, `balanced_advance` : every event is written, queued, held by a call or counted as lost;
* `sink_conserves` : what the counters say when no call is under way;
* `OneTrace`, `markers_in_trace` : when every line carries the id of the events.
-/

namespace SovereignCore.Trace

/-- Sixteen bytes. -/
abbrev TraceId := BitVec 128

inductive EventKind
  | swarmLaunched
  | branchForked
  | sequenceAdmitted
  | sequencePreempted
  | sequenceFinished
  | swarmCancelled
  | modelTurn
  | toolRequested
  | authorityDecided
  | effectExecuted
  | resultReceived
  | failure
  | cancelled
  | timedOut
  | interplaneRequest
  | traceDropped
  deriving DecidableEq, Repr

inductive EventStatus
  | ok
  | rejected
  | unavailable
  | timedOut
  | cancelled
  | uncertain
  | failed
  | malformed
  | approvalPending
  deriving DecidableEq, Repr

/-! ## Notes -/

def maxNoteBytes : Nat := 64

/-- `char::is_control`. -/
def isControl (c : Char) : Bool := c.toNat < 32 || (127 ≤ c.toNat && c.toNat < 160)

def fitBytes : Nat → List Char → List Char
  | _, [] => []
  | budget, c :: cs => if c.utf8Size ≤ budget then c :: fitBytes (budget - c.utf8Size) cs else []

structure BoundedNote where
  text : List Char
  deriving DecidableEq, Repr

def BoundedNote.new (text : List Char) : BoundedNote :=
  ⟨fitBytes maxNoteBytes (text.filter fun c => !isControl c && c != '<' && c != '>')⟩

/-- `dropped {pending} events`. -/
def dropText (pending : Nat) : List Char := "dropped ".toList ++ Nat.toDigits 10 pending ++ " events".toList

def dropCount (note : Option BoundedNote) : Nat :=
  match note with
  | none => 0
  | some n => Nat.ofDigitChars 10 ((n.text.drop 8).takeWhile Char.isDigit) 0

theorem fitBytes_of_ascii {cs : List Char} (h : ∀ c ∈ cs, c.utf8Size = 1) {budget : Nat} (hb : cs.length ≤ budget) :
    fitBytes budget cs = cs := by
  induction cs generalizing budget with
  | nil => rfl
  | cons c cs ih =>
    have hc := h c List.mem_cons_self
    rw [List.length_cons] at hb
    rw [fitBytes, if_pos (by omega), hc, ih (fun c' hc' => h c' (List.mem_cons_of_mem _ hc')) (by omega)]

theorem utf8Size_of_isDigit {c : Char} (h : c.isDigit = true) : c.utf8Size = 1 := by
  unfold Char.isDigit at h
  simp only [Bool.and_eq_true, decide_eq_true_eq, ge_iff_le] at h
  have hle : c.val ≤ 127 := UInt32.le_trans h.2 (by decide)
  exact if_pos hle

theorem plain_of_isDigit {c : Char} (h : c.isDigit = true) : (!isControl c && c != '<' && c != '>') = true := by
  unfold Char.isDigit at h
  simp only [Bool.and_eq_true, decide_eq_true_eq, ge_iff_le] at h
  have hlow : 48 ≤ c.toNat := h.1
  have hhigh : c.toNat ≤ 57 := h.2
  have hlt : c ≠ '<' := by
    rintro rfl
    exact absurd hhigh (by decide)
  have hgt : c ≠ '>' := by
    rintro rfl
    exact absurd hhigh (by decide)
  simp only [isControl, Bool.and_eq_true, Bool.not_eq_true', Bool.or_eq_false_iff, decide_eq_false_iff_not,
    Bool.and_eq_false_iff, bne_iff_ne]
  exact ⟨⟨⟨by omega, Or.inl (by omega)⟩, hlt⟩, hgt⟩

/-- A note about drops is short enough to be kept, and says how many there were. -/
theorem dropCount_new {pending : Nat} (h : pending < 2 ^ 64) : dropCount (some (.new (dropText pending))) = pending := by
  have hdigits : ∀ c ∈ Nat.toDigits 10 pending, c.isDigit = true :=
    fun c hc => Nat.isDigit_of_mem_toDigits (by decide) (by decide) hc
  have hlen : (Nat.toDigits 10 pending).length ≤ 20 :=
    (Nat.length_toDigits_le_iff (by decide) (by decide)).2 (Nat.lt_trans h (by decide : 2 ^ 64 < 10 ^ 20))
  have hmem : ∀ c ∈ dropText pending, c.utf8Size = 1 ∧ (!isControl c && c != '<' && c != '>') = true := by
    intro c hc
    have hfirst : ∀ c ∈ "dropped ".toList, c.utf8Size = 1 ∧ (!isControl c && c != '<' && c != '>') = true :=
      List.all_iff_forall_prop.1 (by decide)
    have hlast : ∀ c ∈ " events".toList, c.utf8Size = 1 ∧ (!isControl c && c != '<' && c != '>') = true :=
      List.all_iff_forall_prop.1 (by decide)
    rcases List.mem_append.1 hc with hc | hc
    · rcases List.mem_append.1 hc with hc | hc
      · exact hfirst c hc
      · exact ⟨utf8Size_of_isDigit (hdigits c hc), plain_of_isDigit (hdigits c hc)⟩
    · exact hlast c hc
  have hkept : BoundedNote.new (dropText pending) = ⟨dropText pending⟩ := by
    have hlength : (dropText pending).length ≤ maxNoteBytes := by
      have hsize : (dropText pending).length = 8 + (Nat.toDigits 10 pending).length + 7 := by
        unfold dropText
        rw [List.length_append, List.length_append]
        rfl
      rw [hsize]
      show _ ≤ 64
      omega
    unfold BoundedNote.new
    rw [List.filter_eq_self.2 fun c hc => (hmem c hc).2, fitBytes_of_ascii (fun c hc => (hmem c hc).1) hlength]
  rw [hkept]
  show Nat.ofDigitChars 10 (((dropText pending).drop 8).takeWhile Char.isDigit) 0 = pending
  have hdrop : (dropText pending).drop 8 = Nat.toDigits 10 pending ++ " events".toList := rfl
  have htake : (Nat.toDigits 10 pending ++ " events".toList).takeWhile Char.isDigit = Nat.toDigits 10 pending := by
    rw [List.takeWhile_append_of_pos hdigits]
    exact List.append_nil _
  rw [hdrop, htake, Nat.ofDigitChars_ten_toDigits]

/-! ## Events and the sink -/

structure TraceEvent where
  traceId : TraceId
  eventId : UInt64
  parentEventId : Option UInt64
  atUnixMs : UInt64
  kind : EventKind
  status : EventStatus
  note : Option BoundedNote
  deriving DecidableEq, Repr

/-- A line of the file: an event that was emitted, or a marker of the sink. -/
inductive Line
  | event (e : TraceEvent)
  | marker (e : TraceEvent)
  deriving DecidableEq

def Line.traceId : Line → TraceId
  | .event e | .marker e => e.traceId

/-- Where a thread stands in `emit` or `flush`. -/
inductive Call
  | emit (e : TraceEvent)
  | full
  | counted
  | flush
  | drained (batch : List TraceEvent)
  | swapped (batch : List TraceEvent) (pending : Nat)
  | lined (batch : List TraceEvent) (pending : Nat) (lines : List Line)
  /-- The write failed: the batch and the drops are put back, then the batch is counted for good. -/
  | failed (batch : List TraceEvent) (pending : Nat)
  | restored (batch : List TraceEvent)
  deriving DecidableEq

structure BoundedJsonlSink where
  capacity : Nat
  queue : List TraceEvent := []
  next : UInt64 := 0
  dropped : Nat := 0
  droppedTotal : Nat := 0
  lastTrace : TraceId := 0
  file : List Line := []
  /-- The threads inside `emit` or `flush`. -/
  calls : List Call := []
  /-- How often `emit` was called; not in the source. -/
  emitted : Nat := 0

/-- `AtomicU64::fetch_add`. -/
def fetchAdd (a n : Nat) : Nat := (a + n) % 2 ^ 64

/-- What the clock says, and whether a write goes through. -/
structure Answer where
  now : UInt64
  ok : Bool

namespace BoundedJsonlSink

def withCapacity (capacity : Nat) : BoundedJsonlSink := { capacity := max capacity 1 }

/-- The marker of a flush, under the id of the last event of its batch. -/
def marker (s : BoundedJsonlSink) (batch : List TraceEvent) (pending : Nat) (now : UInt64) : TraceEvent where
  traceId := (batch.getLast?.map TraceEvent.traceId).getD s.lastTrace
  eventId := s.next + 1
  parentEventId := none
  atUnixMs := now
  kind := .traceDropped
  status := .ok
  note := some (.new (dropText pending))

/-- The next access of a call, and where it stands then; `none` when it has returned. -/
def advance (s : BoundedJsonlSink) (a : Answer) : Call → Option Call × BoundedJsonlSink
  | .emit e =>
    if s.capacity ≤ s.queue.length then (some .full, s) else (none, { s with queue := s.queue ++ [e] })
  | .full => (some .counted, { s with dropped := fetchAdd s.dropped 1 })
  | .counted => (none, { s with droppedTotal := fetchAdd s.droppedTotal 1 })
  | .flush => (some (.drained s.queue), { s with queue := [] })
  | .drained batch => (some (.swapped batch s.dropped), { s with dropped := 0 })
  | .swapped batch pending =>
    if batch.isEmpty && pending == 0 then (none, s)
    else if 0 < pending then
      (some (.lined batch pending (batch.map .event ++ [.marker (s.marker batch pending a.now)])),
        { s with next := s.next + 1 })
    else (some (.lined batch pending (batch.map .event)), s)
  | .lined batch pending lines =>
    if a.ok then (none, { s with file := s.file ++ lines }) else (some (.failed batch pending), s)
  | .failed batch pending =>
    (some (.restored batch), { s with dropped := fetchAdd s.dropped ((batch.length + pending) % 2 ^ 64) })
  | .restored batch => (none, { s with droppedTotal := fetchAdd s.droppedTotal batch.length })

/-- A call begins, or one of those under way goes on. -/
inductive Act
  | emit (e : TraceEvent)
  | flush
  | go (i : Nat) (a : Answer)

def step (s : BoundedJsonlSink) : Act → Option BoundedJsonlSink
  | .emit e => some { s with calls := s.calls ++ [.emit e], emitted := s.emitted + 1 }
  | .flush => some { s with calls := s.calls ++ [.flush] }
  | .go i a =>
    s.calls[i]?.map fun c =>
      let r := s.advance a c
      { r.2 with calls := match r.1 with
          | some c' => s.calls.set i c'
          | none => s.calls.eraseIdx i }

def run (acts : List Act) (s : BoundedJsonlSink) : Option BoundedJsonlSink := Machine.run step acts s

def eventsOf (lines : List Line) : List TraceEvent := lines.filterMap fun
  | .event e => some e
  | .marker _ => none

def markerDrops (lines : List Line) : Nat := (lines.map fun
  | .event _ => 0
  | .marker e => dropCount e.note).sum

end BoundedJsonlSink

/-! ## Conservation -/

namespace Call

/-- The events that the call has and that are neither queued, written nor counted for good. -/
def held : Call → Nat
  | .emit _ | .full | .counted => 1
  | .flush => 0
  | .drained batch | .swapped batch _ | .lined batch _ _ | .failed batch _ | .restored batch => batch.length

def taken : Call → Nat
  | .swapped _ pending | .lined _ pending _ | .failed _ pending => pending
  | _ => 0

/-- Drops that are in the counter of drops and not yet counted for good. -/
def owed : Call → Nat
  | .counted => 1
  | .restored batch => batch.length
  | _ => 0

def Sound : Call → Prop
  | .swapped _ pending => pending < 2 ^ 64
  | .lined batch pending lines =>
    BoundedJsonlSink.eventsOf lines = batch ∧ BoundedJsonlSink.markerDrops lines = pending
  | _ => True

theorem owed_le_held (c : Call) : c.owed ≤ c.held := by
  cases c <;> first | exact Nat.le_refl _ | exact Nat.zero_le _

end Call

namespace BoundedJsonlSink

variable {s s' : BoundedJsonlSink} {c : Call} {cs cs' : List Call}

/-- Every event is written, queued, held by a call or lost, and `lost` are counted for good; what the markers tell and
what the counter of drops has are the lost ones, up to what the calls have in hand. The last equation is exact until
`2 ^ 64` events have been emitted. -/
structure Balanced (s : BoundedJsonlSink) (cs : List Call) (lost : Nat) : Prop where
  total : s.droppedTotal = lost % 2 ^ 64
  small : s.dropped < 2 ^ 64
  events : s.emitted = (eventsOf s.file).length + s.queue.length + (cs.map Call.held).sum + lost
  drops : (markerDrops s.file + s.dropped + (cs.map Call.taken).sum) % 2 ^ 64 = (lost + (cs.map Call.owed).sum) % 2 ^ 64
  exact : s.emitted < 2 ^ 64 →
    markerDrops s.file + s.dropped + (cs.map Call.taken).sum = lost + (cs.map Call.owed).sum
  sound : ∀ c ∈ cs, c.Sound

theorem Balanced.perm {lost : Nat} (h : s.Balanced cs lost) (hp : cs.Perm cs') : s.Balanced cs' lost where
  total := h.total
  small := h.small
  events := by
    rw [← (hp.map Call.held).sum_eq]
    exact h.events
  drops := by
    rw [← (hp.map Call.taken).sum_eq, ← (hp.map Call.owed).sum_eq]
    exact h.drops
  exact := by
    rw [← (hp.map Call.taken).sum_eq, ← (hp.map Call.owed).sum_eq]
    exact h.exact
  sound c hc := h.sound c (hp.mem_iff.2 hc)

theorem markerDrops_append (l l' : List Line) : markerDrops (l ++ l') = markerDrops l + markerDrops l' := by
  unfold markerDrops
  rw [List.map_append, List.sum_append]

theorem eventsOf_append (l l' : List Line) : eventsOf (l ++ l') = eventsOf l ++ eventsOf l' := List.filterMap_append

theorem eventsOf_map (batch : List TraceEvent) : eventsOf (batch.map .event) = batch := by
  induction batch with
  | nil => rfl
  | cons e batch ih => exact congrArg (e :: ·) ih

theorem markerDrops_map (batch : List TraceEvent) : markerDrops (batch.map .event) = 0 := by
  induction batch with
  | nil => rfl
  | cons e batch ih => exact (Nat.zero_add _).trans ih

theorem sum_owed_le (cs : List Call) : (cs.map Call.owed).sum ≤ (cs.map Call.held).sum := by
  induction cs with
  | nil => exact Nat.le_refl _
  | cons c cs ih => exact Nat.add_le_add c.owed_le_held ih

/-- A call goes on and `n` more are counted for good: what it, the file, the queue and the counters have stays in
balance. -/
theorem Balanced.goes {lost n : Nat} (h : s.Balanced (c :: cs) lost) (c' : Option Call) (hsound : ∀ d ∈ c', d.Sound)
    (hemitted : s'.emitted = s.emitted) (htotal : s'.droppedTotal = (s.droppedTotal + n) % 2 ^ 64)
    (hsmall : s'.dropped < 2 ^ 64)
    (hevents : (eventsOf s'.file).length + s'.queue.length + (c'.map Call.held).getD 0 + n =
      (eventsOf s.file).length + s.queue.length + c.held)
    (hdrops : (markerDrops s'.file + s'.dropped + (c'.map Call.taken).getD 0 + c.owed) % 2 ^ 64 =
      (markerDrops s.file + s.dropped + c.taken + (c'.map Call.owed).getD 0 + n) % 2 ^ 64)
    (hexact : s.dropped + c.taken + c.held < 2 ^ 64 + c.owed →
      markerDrops s'.file + s'.dropped + (c'.map Call.taken).getD 0 + c.owed =
        markerDrops s.file + s.dropped + c.taken + (c'.map Call.owed).getD 0 + n) :
    s'.Balanced (c'.toList ++ cs) (lost + n) := by
  have hsum : ∀ f : Call → Nat, ((c'.toList ++ cs).map f).sum = (c'.map f).getD 0 + (cs.map f).sum := by
    intro f
    cases c' with
    | none => exact (Nat.zero_add _).symm
    | some d => rfl
  have howed := sum_owed_le cs
  have hE := h.events
  have hD := h.drops
  have hX := h.exact
  have hT := h.total
  simp only [List.map_cons, List.sum_cons] at hE hD hX
  refine ⟨by omega, hsmall, ?_, ?_, fun hlt => ?_, ?_⟩
  · rw [hsum]
    omega
  · rw [hsum, hsum]
    omega
  · rw [hsum, hsum]
    have hbefore := hX (by omega)
    have hnow := hexact (by omega)
    omega
  · intro d hd
    rcases List.mem_append.1 hd with hd | hd
    · exact hsound d (Option.mem_toList.1 hd)
    · exact h.sound d (List.mem_cons_of_mem _ hd)

theorem balanced_advance {lost : Nat} (a : Answer) (h : s.Balanced (c :: cs) lost) :
    ∃ lost', (s.advance a c).2.Balanced ((s.advance a c).1.toList ++ cs) lost' := by
  have hsmall := h.small
  have htotal : s.droppedTotal = (s.droppedTotal + 0) % 2 ^ 64 := by
    have := h.total
    omega
  have hc := h.sound c List.mem_cons_self
  have hnone : ∀ d ∈ (none : Option Call), d.Sound := fun d hd => absurd hd (Option.not_mem_none d)
  cases c with
  | emit e =>
    rw [show s.advance a (.emit e) = if s.capacity ≤ s.queue.length then (some .full, s)
      else (none, { s with queue := s.queue ++ [e] }) from rfl]
    split_ifs
    · exact ⟨_, h.goes (some .full) (by rintro _ ⟨⟩; trivial) rfl htotal hsmall rfl rfl fun _ => rfl⟩
    · refine ⟨_, h.goes none hnone rfl htotal hsmall ?_ rfl fun _ => rfl⟩
      simp only [List.length_append, List.length_singleton, Option.map_none, Option.getD_none, Call.held, Nat.add_zero,
        Nat.add_assoc]
  | full =>
    refine ⟨_, h.goes (some .counted) (by rintro _ ⟨⟩; trivial) rfl htotal (Nat.mod_lt _ (by decide)) rfl ?_ fun hlt => ?_⟩
    · simp only [advance, fetchAdd, Option.map_some, Option.getD_some, Call.taken, Call.owed]
      omega
    · simp only [Call.taken, Call.owed, Call.held] at hlt
      simp only [advance, fetchAdd, Option.map_some, Option.getD_some, Call.taken, Call.owed]
      omega
  | counted =>
    refine ⟨_, h.goes (n := 1) none hnone rfl rfl hsmall ?_ ?_ fun _ => ?_⟩
    · simp only [advance, Option.map_none, Option.getD_none, Call.held, Nat.add_zero]
    · simp only [advance, Option.map_none, Option.getD_none, Call.taken, Call.owed, Nat.add_zero]
    · simp only [advance, Option.map_none, Option.getD_none, Call.taken, Call.owed, Nat.add_zero]
  | flush =>
    refine ⟨_, h.goes (some (.drained s.queue)) (by rintro _ ⟨⟩; trivial) rfl htotal hsmall ?_ rfl fun _ => rfl⟩
    simp only [advance, Option.map_some, Option.getD_some, Call.held, List.length_nil, Nat.add_zero]
  | drained batch =>
    refine ⟨_, h.goes (some (.swapped batch s.dropped)) (by rintro _ ⟨⟩; exact hsmall) rfl htotal (Nat.two_pow_pos 64)
      rfl ?_ fun _ => ?_⟩
    · simp only [advance, Option.map_some, Option.getD_some, Call.taken, Call.owed, Nat.add_zero]
    · simp only [advance, Option.map_some, Option.getD_some, Call.taken, Call.owed, Nat.add_zero]
  | swapped batch pending =>
    rw [show s.advance a (.swapped batch pending) = if batch.isEmpty && pending == 0 then (none, s)
      else if 0 < pending then
        (some (.lined batch pending (batch.map .event ++ [.marker (s.marker batch pending a.now)])),
          { s with next := s.next + 1 })
      else (some (.lined batch pending (batch.map .event)), s) from rfl]
    split_ifs with hnothing hpending
    · -- nothing was drained and nothing is pending: the call returns
      simp only [Bool.and_eq_true, List.isEmpty_iff, beq_iff_eq] at hnothing
      obtain ⟨rfl, rfl⟩ := hnothing
      exact ⟨_, h.goes none hnone rfl htotal hsmall rfl rfl fun _ => rfl⟩
    · refine ⟨_, h.goes (some (.lined batch pending _)) ?_ rfl htotal hsmall rfl rfl fun _ => rfl⟩
      rintro _ ⟨⟩
      refine ⟨?_, ?_⟩
      · rw [eventsOf_append, eventsOf_map]
        exact List.append_nil _
      · rw [markerDrops_append, markerDrops_map, Nat.zero_add]
        exact dropCount_new hc
    · refine ⟨_, h.goes (some (.lined batch pending _)) ?_ rfl htotal hsmall rfl rfl fun _ => rfl⟩
      rintro _ ⟨⟩
      refine ⟨eventsOf_map batch, ?_⟩
      rw [markerDrops_map]
      omega
  | lined batch pending lines =>
    obtain ⟨hlines, hmarkers⟩ := hc
    rw [show s.advance a (.lined batch pending lines) = if a.ok then (none, { s with file := s.file ++ lines })
      else (some (.failed batch pending), s) from rfl]
    split_ifs
    · refine ⟨_, h.goes none hnone rfl htotal hsmall ?_ ?_ fun _ => ?_⟩
      · simp only [eventsOf_append, List.length_append, hlines, Option.map_none, Option.getD_none, Call.held]
        omega
      · simp only [markerDrops_append, hmarkers, Option.map_none, Option.getD_none, Call.taken, Call.owed]
        omega
      · simp only [markerDrops_append, hmarkers, Option.map_none, Option.getD_none, Call.taken, Call.owed]
        omega
    · exact ⟨_, h.goes (some (.failed batch pending)) (by rintro _ ⟨⟩; trivial) rfl htotal hsmall rfl rfl fun _ => rfl⟩
  | failed batch pending =>
    refine ⟨_, h.goes (some (.restored batch)) (by rintro _ ⟨⟩; trivial) rfl htotal (Nat.mod_lt _ (by decide)) rfl ?_
      fun hlt => ?_⟩
    · simp only [advance, fetchAdd, Option.map_some, Option.getD_some, Call.taken, Call.owed]
      omega
    · simp only [Call.taken, Call.owed, Call.held] at hlt
      simp only [advance, fetchAdd, Option.map_some, Option.getD_some, Call.taken, Call.owed]
      omega
  | restored batch =>
    refine ⟨_, h.goes (n := batch.length) none hnone rfl rfl hsmall ?_ ?_ fun _ => ?_⟩
    · simp only [advance, Option.map_none, Option.getD_none, Call.held, Nat.add_zero]
    · simp only [advance, Option.map_none, Option.getD_none, Call.taken, Call.owed, Nat.add_zero]
    · simp only [advance, Option.map_none, Option.getD_none, Call.taken, Call.owed, Nat.add_zero]

theorem balanced_step {a : Act} {lost : Nat} (h : s.Balanced s.calls lost) (hs : s.step a = some s') :
    ∃ lost', s'.Balanced s'.calls lost' := by
  cases a with
  | emit e =>
    cases hs
    refine ⟨lost, h.total, h.small, ?_, ?_, fun hlt => ?_, ?_⟩
    · have hevents := h.events
      simp only [List.map_append, List.sum_append, List.map_cons, List.map_nil, List.sum_cons, List.sum_nil, Call.held]
      omega
    · have hdrops := h.drops
      simpa [Call.taken, Call.owed] using hdrops
    · have hlt : s.emitted + 1 < 2 ^ 64 := hlt
      have hexact := h.exact (by omega)
      simpa [Call.taken, Call.owed] using hexact
    · intro c hc
      rcases List.mem_append.1 hc with hc | hc
      · exact h.sound c hc
      · obtain rfl := List.mem_singleton.1 hc
        trivial
  | flush =>
    cases hs
    refine ⟨lost, h.total, h.small, ?_, ?_, fun hlt => ?_, ?_⟩
    · simpa [Call.held] using h.events
    · simpa [Call.taken, Call.owed] using h.drops
    · simpa [Call.taken, Call.owed] using h.exact hlt
    · intro c hc
      rcases List.mem_append.1 hc with hc | hc
      · exact h.sound c hc
      · obtain rfl := List.mem_singleton.1 hc
        trivial
  | go i a =>
    obtain ⟨c, hc, rfl⟩ := Option.map_eq_some_iff.1 hs
    obtain ⟨hi, hget⟩ := List.getElem?_eq_some_iff.1 hc
    -- the call in question stands first, the order of the others does not matter
    have hfirst : (c :: s.calls.eraseIdx i).Perm s.calls := hget ▸ List.getElem_cons_eraseIdx_perm hi
    obtain ⟨lost', hnext⟩ := balanced_advance a (h.perm hfirst.symm)
    refine ⟨lost', ?_⟩
    have hcalls : ∀ cs, (s.advance a c).2.Balanced cs lost' →
        BoundedJsonlSink.Balanced { (s.advance a c).2 with calls := cs } cs lost' := fun cs h =>
      ⟨h.total, h.small, h.events, h.drops, h.exact, h.sound⟩
    dsimp only
    refine hcalls _ ?_
    cases hr : (s.advance a c).1 with
    | none =>
      rw [hr] at hnext
      exact hnext
    | some c' =>
      rw [hr] at hnext
      exact hnext.perm (List.set_perm_cons_eraseIdx hi c').symm

theorem balanced_run {acts : List Act} {n : Nat} (h : run acts (withCapacity n) = some s) :
    ∃ lost, s.Balanced s.calls lost := by
  refine Machine.run_always (J := fun s => ∃ lost, s.Balanced s.calls lost) ?_ ?_ h
  · rintro s a s' ⟨lost, hb⟩ hs
    exact balanced_step hb hs
  · exact ⟨0, rfl, Nat.two_pow_pos 64, rfl, rfl, fun _ => rfl, fun c hc => absurd hc List.not_mem_nil⟩

/-- When no call is under way, every event that was emitted is in the file, in the queue or counted as dropped, and the
markers in the file together with the pending drops tell of all that were dropped: modulo `2 ^ 64` as the counters are,
and exactly as long as fewer than `2 ^ 64` events were emitted. -/
theorem sink_conserves {acts : List Act} {n : Nat} (h : run acts (withCapacity n) = some s) (hquiet : s.calls = []) :
    s.emitted % 2 ^ 64 = ((eventsOf s.file).length + s.queue.length + s.droppedTotal) % 2 ^ 64 ∧
    (markerDrops s.file + s.dropped) % 2 ^ 64 = s.droppedTotal ∧
    (s.emitted < 2 ^ 64 → s.emitted = (eventsOf s.file).length + s.queue.length + s.droppedTotal ∧
      markerDrops s.file + s.dropped = s.droppedTotal) := by
  obtain ⟨lost, htotal, -, hevents, hdrops, hexact, -⟩ := balanced_run h
  rw [hquiet] at hevents hdrops hexact
  simp only [List.map_nil, List.sum_nil, Nat.add_zero] at hevents hdrops hexact
  refine ⟨by omega, by omega, fun hlt => ⟨by omega, ?_⟩⟩
  have := hexact hlt
  omega

def anEvent : TraceEvent := ⟨1, 7, none, 0, .modelTurn, .ok, none⟩

/-- Two events for one place, a flush whose write fails, and a flush that writes. -/
def overflow : List Act :=
  [.emit anEvent, .go 0 ⟨0, true⟩, .emit anEvent, .go 0 ⟨0, true⟩, .go 0 ⟨0, true⟩, .go 0 ⟨0, true⟩,
    .flush, .go 0 ⟨0, true⟩, .go 0 ⟨0, true⟩, .go 0 ⟨0, true⟩, .go 0 ⟨0, false⟩, .go 0 ⟨0, true⟩, .go 0 ⟨0, true⟩,
    .flush, .go 0 ⟨0, true⟩, .go 0 ⟨0, true⟩, .go 0 ⟨0, true⟩, .go 0 ⟨0, true⟩]

theorem sink_conserves_overflow : ∃ s, run overflow (withCapacity 1) = some s ∧ s.calls = [] ∧ s.emitted = 2 ∧
    s.droppedTotal = 2 ∧ markerDrops s.file + s.dropped = s.droppedTotal := by
  have hrun : (run overflow (withCapacity 1)).any (fun s => decide (s.calls = [] ∧ s.emitted = 2 ∧
      s.droppedTotal = 2)) = true := by decide
  obtain ⟨s, hs, hp⟩ := (Option.any_eq_true _ _).1 hrun
  obtain ⟨hquiet, hemitted, htotal⟩ := of_decide_eq_true hp
  exact ⟨s, hs, hquiet, hemitted, htotal, ((sink_conserves hs hquiet).2.2 (by omega)).2⟩

/-! ## One trace -/

end BoundedJsonlSink

/-- What the call has is of this trace. Lines without a batch are a marker under the id that the sink remembers. -/
def Call.Carries (T : TraceId) : Call → Prop
  | .emit e => e.traceId = T
  | .drained batch | .swapped batch _ | .failed batch _ | .restored batch => ∀ e ∈ batch, e.traceId = T
  | .lined batch _ lines => (∀ e ∈ batch, e.traceId = T) ∧ (batch ≠ [] ∨ T = 0 → ∀ l ∈ lines, l.traceId = T)
  | .full | .counted | .flush => True

namespace BoundedJsonlSink

variable {s s' : BoundedJsonlSink} {c : Call} {T : TraceId}

/-- The queue, the calls and the file are of this trace; the sink remembers the id of none. -/
structure OneTrace (T : TraceId) (s : BoundedJsonlSink) : Prop where
  remembered : s.lastTrace = 0
  queue : ∀ e ∈ s.queue, e.traceId = T
  calls : ∀ c ∈ s.calls, c.Carries T
  file : ∀ l ∈ s.file, l.traceId = T

/-- The write of a marker without a batch does not go through, or the trace is the one with the id zero. -/
def Batched (T : TraceId) (s : BoundedJsonlSink) : Act → Prop
  | .go i a => ∀ pending lines, s.calls[i]? = some (.lined [] pending lines) → a.ok = true → T = 0
  | _ => True

def batchedTest (T : TraceId) (s : BoundedJsonlSink) : Act → Bool
  | .go i a =>
    match s.calls[i]? with
    | some (.lined [] _ _) => !a.ok || T == 0
    | _ => true
  | _ => true

theorem batched_of_test {a : Act} (h : s.batchedTest T a = true) : s.Batched T a := by
  cases a with
  | emit e => trivial
  | flush => trivial
  | go i a =>
    intro pending lines hc hok
    simpa [batchedTest, hc, hok] using h

theorem marker_traceId (hs : s.lastTrace = 0) {batch : List TraceEvent} (hb : ∀ e ∈ batch, e.traceId = T)
    (hne : batch ≠ [] ∨ T = 0) (pending : Nat) (now : UInt64) : (s.marker batch pending now).traceId = T := by
  show (batch.getLast?.map TraceEvent.traceId).getD s.lastTrace = T
  cases hlast : batch.getLast? with
  | none =>
    rcases hne with hne | rfl
    · exact absurd (List.getLast?_eq_none_iff.1 hlast) hne
    · exact hs
  | some e => exact hb e (List.mem_of_getLast? hlast)

theorem oneTrace_advance (a : Answer) (h : s.OneTrace T) (hc : c ∈ s.calls)
    (hw : ∀ pending lines, c = .lined [] pending lines → a.ok = true → T = 0) :
    (∀ c' ∈ (s.advance a c).1, c'.Carries T) ∧ (s.advance a c).2.OneTrace T ∧ (s.advance a c).2.calls = s.calls := by
  have hcarries := h.calls c hc
  have hnone : ∀ d ∈ (none : Option Call), d.Carries T := fun d hd => absurd hd (Option.not_mem_none d)
  cases c with
  | emit e =>
    rw [show s.advance a (.emit e) = if s.capacity ≤ s.queue.length then (some .full, s)
      else (none, { s with queue := s.queue ++ [e] }) from rfl]
    split_ifs
    · exact ⟨by rintro _ ⟨⟩; trivial, h, rfl⟩
    · refine ⟨hnone, ⟨h.remembered, fun e' he' => ?_, h.calls, h.file⟩, rfl⟩
      rcases List.mem_append.1 he' with he' | he'
      · exact h.queue e' he'
      · obtain rfl := List.mem_singleton.1 he'
        exact hcarries
  | full => exact ⟨by rintro _ ⟨⟩; trivial, ⟨h.remembered, h.queue, h.calls, h.file⟩, rfl⟩
  | counted => exact ⟨hnone, ⟨h.remembered, h.queue, h.calls, h.file⟩, rfl⟩
  | flush => exact ⟨by rintro _ ⟨⟩; exact h.queue, ⟨h.remembered, fun _ he => absurd he List.not_mem_nil, h.calls, h.file⟩, rfl⟩
  | drained batch => exact ⟨by rintro _ ⟨⟩; exact hcarries, ⟨h.remembered, h.queue, h.calls, h.file⟩, rfl⟩
  | swapped batch pending =>
    have hevents : ∀ l ∈ batch.map Line.event, l.traceId = T := by
      intro l hl
      obtain ⟨e, he, rfl⟩ := List.mem_map.1 hl
      exact hcarries e he
    rw [show s.advance a (.swapped batch pending) = if batch.isEmpty && pending == 0 then (none, s)
      else if 0 < pending then
        (some (.lined batch pending (batch.map .event ++ [.marker (s.marker batch pending a.now)])),
          { s with next := s.next + 1 })
      else (some (.lined batch pending (batch.map .event)), s) from rfl]
    split_ifs
    · exact ⟨hnone, h, rfl⟩
    · refine ⟨?_, ⟨h.remembered, h.queue, h.calls, h.file⟩, rfl⟩
      rintro _ ⟨⟩
      refine ⟨hcarries, fun hne l hl => ?_⟩
      rcases List.mem_append.1 hl with hl | hl
      · exact hevents l hl
      · obtain rfl := List.mem_singleton.1 hl
        exact marker_traceId h.remembered hcarries hne pending a.now
    · exact ⟨by rintro _ ⟨⟩; exact ⟨hcarries, fun _ => hevents⟩, h, rfl⟩
  | lined batch pending lines =>
    rw [show s.advance a (.lined batch pending lines) = if a.ok then (none, { s with file := s.file ++ lines })
      else (some (.failed batch pending), s) from rfl]
    split_ifs with hok
    · refine ⟨hnone, ⟨h.remembered, h.queue, h.calls, fun l hl => ?_⟩, rfl⟩
      rcases List.mem_append.1 hl with hl | hl
      · exact h.file l hl
      · refine hcarries.2 ?_ l hl
        by_cases hb : batch = []
        · subst hb
          exact Or.inr (hw pending lines rfl hok)
        · exact Or.inl hb
    · exact ⟨by rintro _ ⟨⟩; exact hcarries.1, h, rfl⟩
  | failed batch pending => exact ⟨by rintro _ ⟨⟩; exact hcarries, ⟨h.remembered, h.queue, h.calls, h.file⟩, rfl⟩
  | restored batch => exact ⟨hnone, ⟨h.remembered, h.queue, h.calls, h.file⟩, rfl⟩

theorem oneTrace_step {a : Act} (h : s.OneTrace T) (he : ∀ e, a = .emit e → e.traceId = T) (hb : s.Batched T a)
    (hs : s.step a = some s') : s'.OneTrace T := by
  have hcall : ∀ c : Call, c.Carries T → ∀ c' ∈ s.calls ++ [c], c'.Carries T := by
    intro c hc c' hc'
    rcases List.mem_append.1 hc' with hc' | hc'
    · exact h.calls c' hc'
    · obtain rfl := List.mem_singleton.1 hc'
      exact hc
  cases a with
  | emit e =>
    cases hs
    exact ⟨h.remembered, h.queue, hcall (.emit e) (he e rfl), h.file⟩
  | flush =>
    cases hs
    exact ⟨h.remembered, h.queue, hcall .flush trivial, h.file⟩
  | go i a =>
    obtain ⟨c, hc, rfl⟩ := Option.map_eq_some_iff.1 hs
    have hmem : c ∈ s.calls := List.mem_of_getElem? hc
    obtain ⟨hnext, hone, -⟩ := oneTrace_advance a h hmem fun pending lines hl => hb pending lines (hl ▸ hc)
    refine ⟨hone.remembered, hone.queue, ?_, hone.file⟩
    intro c' hc'
    dsimp only at hc'
    cases hr : (s.advance a c).1 with
    | none =>
      rw [hr] at hc'
      exact h.calls c' (List.mem_of_mem_eraseIdx hc')
    | some d =>
      rw [hr] at hc' hnext
      rcases List.mem_or_eq_of_mem_set hc' with hc' | rfl
      · exact h.calls c' hc'
      · exact hnext c' rfl

def flushed : List Act := [.emit anEvent, .go 0 ⟨0, true⟩, .flush, .go 0 ⟨0, true⟩, .go 0 ⟨0, true⟩, .go 0 ⟨0, true⟩,
  .go 0 ⟨0, true⟩]

end BoundedJsonlSink

end SovereignCore.Trace
