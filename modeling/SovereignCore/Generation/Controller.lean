import Mathlib

/-!
# The generation controller

One generation loop for every model: the controller owns the ledger of tokens (and so the position), prefix reuse,
rewind, restore, constraints and termination, and drives a model through the forward-pass seam. The model owns its
K/V cache and its heads.

* `ForwardPass` : the seam, one function for each method of the trait;
* `Sampler`, `Constraint`, `Callback` : the caller's objects, each with a state of its own;
* `Controller` : `reset`, `rewind`, `exportKv`, `restoreKv`, `generate`;
* `choose`, `forward`, `rollback` : the steps of the loop.
-/

namespace SovereignCore.Generation

/-! ## The seam -/

/-- What the controller wants from a head. -/
inductive Want where
  | greedy
  | logits
  deriving DecidableEq, Repr

/-- One head's answer. -/
inductive Next (F : Type) where
  | token (t : UInt32)
  | logits (l : List F)

/-- What the controller needs of a logit: the comparison of the argmax, and the value of a masked row. -/
class Logit (F : Type) where
  gt : F → F → Bool
  negInfinity : F

/-- One model behind the seam, with states `M` and logits `F`. A failed call may change the state. -/
structure ForwardPass (M F : Type) where
  vocab : Nat
  capacity : Nat
  pathName : String
  /-- Prompt phase: write the positions from the given one on, and leave one head. -/
  prefill : M → Nat → List UInt32 → Except String Unit × M
  decode : M → Nat → List UInt32 → Except String Unit × M
  next : M → Nat → Want → Except String (Next F) × M
  nextRows : M → Nat → List UInt32 → Except String (List F) × M
  clearPending : M → M
  beginSequence : M → M
  truncate : M → Nat → M
  /-- `none`: this cache cannot export. -/
  exportBlocks : M → Nat → Nat → Option (Except String (List UInt8)) × M
  /-- `none`: this cache cannot import. -/
  importBlocks : M → Nat → Nat → List UInt8 → Option (Except String Unit) × M

variable {M F : Type}

def gatherRow (l : List F) (r : UInt32) : Except String F :=
  match l[r.toNat]? with
  | some v => .ok v
  | none => .error s!"next_rows: row {r} is outside the vocabulary of {l.length}"

def gatherRows (next : M → Nat → Want → Except String (Next F) × M) (m : M) (head : Nat) (rows : List UInt32) :
    Except String (List F) × M :=
  match next m head .logits with
  | (.ok (.logits l), m') => (rows.mapM (gatherRow l), m')
  | (.ok (.token _), m') => (.error "next_rows: the model answered Want::Logits with a token", m')
  | (.error e, m') => (.error e, m')

/-! ## The caller's objects -/

/-- Picks the next token from logits. -/
structure Sampler (F : Type) where
  State : Type
  state : State
  wantsLogits : State → Bool
  pick : State → List F → Nat → UInt32 × State

/-- What a constraint allows at one step. -/
inductive StepRule where
  | any
  | allow (rows : List UInt32)
  | force (t : UInt32)
  | finish
  deriving DecidableEq, Repr

/-- A rule source, asked once a step with the prompt and the tokens generated so far. -/
structure Constraint where
  State : Type
  state : State
  rule : State → List UInt32 → List UInt32 → Except String StepRule × State

/-- `on_token`: sees each emitted token and may answer `false` to cancel. -/
structure Callback where
  State : Type
  state : State
  call : State → UInt32 → Bool × State

/-- What the loop reads of a generation request; the sampler holds the rest. -/
structure GenerateParams where
  maxNewTokens : Nat
  stopTokenIds : List UInt32
  deriving DecidableEq, Repr

inductive FinishReason where
  | stop
  | length
  | cancelled
  | constraint
  deriving DecidableEq, Repr

structure GenerateOutcome where
  /-- The tokens `on_token` saw; `emitted_tokens` is their number. -/
  emitted : List UInt32
  finish : FinishReason
  promptTokens : Nat
  reusedPromptTokens : Nat
  deriving DecidableEq, Repr

/-! ## The controller -/

structure Controller (M : Type) where
  model : M
  /-- Positions `0..history.length` are stored in every layer. -/
  history : List UInt32
  capacity : Nat

namespace Controller

variable (fp : ForwardPass M F)

/-- Empty the sequence: the model begins a new one, the cache and the ledger are emptied. -/
def reset (c : Controller M) : Controller M :=
  { c with model := fp.truncate (fp.beginSequence c.model) 0, history := [] }

def new (m : M) : Controller M := reset fp { model := m, history := [], capacity := fp.capacity }

/-- Keep positions `0..len` and forget unread heads. -/
def rewind (c : Controller M) (len : Nat) : Controller M :=
  { c with model := fp.truncate (fp.clearPending c.model) len, history := c.history.take len }

def common (xs ys : List UInt32) : Nat := ((xs.zip ys).takeWhile fun p => p.1 = p.2).length

/-- Tokens `generate` keeps for `prompt`: the longest common prefix, but never the last prompt token. -/
def reusablePrefix (c : Controller M) (prompt : List UInt32) : Nat :=
  min (common c.history prompt) (prompt.length - 1)

def exportKv (c : Controller M) (start len : Nat) : Except String (List UInt8) × Controller M :=
  if c.history.length < (start + len) % 2 ^ 64 then
    (.error s!"kv export {start}+{len}: only {c.history.length} positions stored", c)
  else
    match fp.exportBlocks c.model start len with
    | (some r, m) => (r, { c with model := m })
    | (none, m) => (.error s!"the {fp.pathName} attention cache cannot export its KV", { c with model := m })

/-- Replace the sequence by `tokens` with the K/V of `payload`; any error empties it. -/
def restoreKv (c : Controller M) (tokens : List UInt32) (payload : List UInt8) : Except String Unit × Controller M :=
  let c := c.reset fp
  if tokens = [] ∨ c.capacity ≤ tokens.length then
    (.error s!"kv restore of {tokens.length} tokens, context is {c.capacity}", c)
  else
    match fp.importBlocks c.model 0 tokens.length payload with
    | (some (.ok ()), m) => (.ok (), { c with model := m, history := tokens })
    | (some (.error e), m) => (.error e, reset fp { c with model := m })
    | (none, m) => (.error s!"the {fp.pathName} attention cache cannot import KV", reset fp { c with model := m })

/-- Every layer back to exactly the ledger's positions, no unread head. -/
def rollback (c : Controller M) : Controller M :=
  { c with model := fp.clearPending (fp.truncate c.model c.history.length) }

/-- One forward call at the ledger's position: the ledger takes the tokens, or the cache is cut back to it. -/
def forward (c : Controller M) (tokens : List UInt32) (f : M → Nat → Except String Unit × M) :
    Except String Unit × Controller M :=
  match f c.model c.history.length with
  | (.ok (), m) => (.ok (), { c with model := m, history := c.history ++ tokens })
  | (.error e, m) => (.error e, rollback fp { c with model := m })

end Controller

/-! ## One step -/

/-- The loop's variables: the controller, the caller's objects, the step number and the tokens emitted so far. -/
structure Turn (M F : Type) where
  ctl : Controller M
  sampler : Sampler F
  constraint : Option Constraint
  onToken : Callback
  step : Nat := 0
  emitted : List UInt32 := []

/-- An `allow` set must be non-empty, strictly ascending and inside the vocabulary. -/
def checkAllowed (rows : List UInt32) (vocab : Nat) : Except String Unit :=
  if rows = [] then .error "constraint allowed no token"
  else if (rows.zip rows.tail).any fun w => w.2 ≤ w.1 then
    .error "constraint's allowed tokens are not strictly ascending"
  else match rows.find? fun r => vocab ≤ r.toNat with
    | some r => .error s!"constraint allowed token {r}, vocabulary is {vocab}"
    | none => .ok ()

section

variable [Logit F]

/-- The lowest index of the maximum. (An assertion refuses an empty list.) -/
def sampleArgmax : List F → UInt32
  | [] => 0
  | v :: l => ((l.zipIdx 1).foldl (fun best e => if Logit.gt e.1 best.1 then e else best) (v, 0)).2.toUInt32

def maskRows (vocab : Nat) (rows : List UInt32) (vals : List F) : List F :=
  (rows.zip vals).foldl (fun buf e => buf.set e.1.toNat e.2) (List.replicate vocab Logit.negInfinity)

/-- The sampler's token for `logits` at this step. -/
def Turn.pick (s : Turn M F) (logits : List F) : UInt32 × Turn M F :=
  let (t, st) := s.sampler.pick s.sampler.state logits s.step
  (t, { s with sampler := { s.sampler with state := st } })

def Turn.rule (s : Turn M F) (prompt : List UInt32) : Except String StepRule × Turn M F :=
  match s.constraint with
  | none => (.ok .any, s)
  | some k =>
    let (r, st) := k.rule k.state prompt (s.ctl.history.drop prompt.length)
    (r, { s with constraint := some { k with state := st } })

def Turn.setModel (s : Turn M F) (m : M) : Turn M F := { s with ctl := { s.ctl with model := m } }

def chooseAny (fp : ForwardPass M F) (s : Turn M F) : Except String UInt32 × Turn M F :=
  let wants := s.sampler.wantsLogits s.sampler.state
  match fp.next s.ctl.model 0 (if wants then .logits else .greedy) with
  | (.error e, m) => (.error e, s.setModel m)
  | (.ok (.token t), m) =>
    if wants then (.error "the model answered Want::Logits with a token", s.setModel m) else (.ok t, s.setModel m)
  | (.ok (.logits l), m) =>
    if wants then
      let (t, s') := (s.setModel m).pick l
      (.ok t, s')
    else (.ok (sampleArgmax l), s.setModel m)

/-- The token of a step with allowed rows; whatever the sampler did, no other token leaves the step. -/
def chooseAllowed (fp : ForwardPass M F) (rows : List UInt32) (s : Turn M F) : Except String UInt32 × Turn M F :=
  match checkAllowed rows fp.vocab with
  | .error e => (.error e, s)
  | .ok () =>
    match fp.nextRows s.ctl.model 0 rows with
    | (.error e, m) => (.error e, s.setModel m)
    | (.ok vals, m) =>
      let (t, s') := (s.setModel m).pick (maskRows fp.vocab rows vals)
      if rows.contains t then (.ok t, s')
      else (.error s!"the sampler picked token {t}, outside the {rows.length} allowed", s')

/-- One step's token: `some t` to emit (or stop on), `none` when a constraint finished. -/
def choose (fp : ForwardPass M F) (prompt : List UInt32) (s : Turn M F) :
    Except String (Option UInt32) × Turn M F :=
  match s.rule prompt with
  | (.error e, s) => (.error e, s)
  | (.ok .finish, s) => (.ok none, s)
  | (.ok (.force t), s) =>
    if fp.vocab ≤ t.toNat then (.error s!"constraint forced token {t}, vocabulary is {fp.vocab}", s)
    else (.ok (some t), s.setModel (fp.clearPending s.ctl.model))
  | (.ok (.allow rows), s) =>
    match chooseAllowed fp rows s with
    | (.error e, s') => (.error e, s')
    | (.ok t, s') => (.ok (some t), s')
  | (.ok .any, s) =>
    match chooseAny fp s with
    | (.error e, s') => (.error e, s')
    | (.ok t, s') => (.ok (some t), s')

/-! ## The loop -/

def Turn.emit (s : Turn M F) (t : UInt32) : Bool × Turn M F :=
  let (go, st) := s.onToken.call s.onToken.state t
  (go, { s with emitted := s.emitted ++ [t], onToken := { s.onToken with state := st } })

/-- The decode loop with `n` tokens left to emit. -/
def decodeLoop (fp : ForwardPass M F) (prompt : List UInt32) (params : GenerateParams) :
    Nat → Turn M F → Except String FinishReason × Turn M F
  | 0, s => (.ok .length, s)
  | n + 1, s =>
    match choose fp prompt s with
    | (.error e, s) => (.error e, { s with ctl := s.ctl.rollback fp })
    | (.ok none, s) => (.ok .constraint, s)
    | (.ok (some t), s) =>
      let s := { s with step := s.step + 1 }
      -- consumed, never emitted, never stepped
      if params.stopTokenIds.contains t then (.ok .stop, s) else
      match s.emit t with
      | (false, s) => (.ok .cancelled, s)
      | (true, s) =>
        if n = 0 ∨ s.ctl.capacity ≤ s.ctl.history.length then (.ok .length, s)
        else match s.ctl.forward fp [t] fun m pos => fp.decode m pos [t] with
          | (.error e, ctl) => (.error e, { s with ctl })
          | (.ok (), ctl) => decodeLoop fp prompt params n { s with ctl }

namespace Controller

/-- The sequence cut to the part of `prompt` it already holds. -/
def keepPrefix (fp : ForwardPass M F) (c : Controller M) (prompt : List UInt32) : Controller M :=
  if 0 < c.reusablePrefix prompt then c.rewind fp (c.reusablePrefix prompt) else c.reset fp

/-- `generate` for a prompt that fits: one prefill of the rest of the prompt, then one token at a time. -/
def run (fp : ForwardPass M F) (c : Controller M) (prompt : List UInt32) (params : GenerateParams)
    (sampler : Sampler F) (constraint : Option Constraint) (onToken : Callback) :
    Except String GenerateOutcome × Controller M :=
  let reused := c.reusablePrefix prompt
  let suffix := prompt.drop reused
  match (c.keepPrefix fp prompt).forward fp suffix fun m pos => fp.prefill m pos suffix with
  | (.error e, c) => (.error e, c)
  | (.ok (), c) =>
    match decodeLoop fp prompt params params.maxNewTokens { ctl := c, sampler, constraint, onToken } with
    | (.error e, s) => (.error e, s.ctl)
    | (.ok finish, s) =>
      (.ok { emitted := s.emitted, finish, promptTokens := prompt.length, reusedPromptTokens := reused }, s.ctl)

def forget (fp : ForwardPass M F) (c : Controller M) : Controller M := { c with model := fp.clearPending c.model }

/-- Generate from `prompt`: prefix reuse, one prefill of the rest, then one token at a time. -/
def generate (fp : ForwardPass M F) (c : Controller M) (prompt : List UInt32) (params : GenerateParams)
    (sampler : Sampler F) (constraint : Option Constraint) (onToken : Callback) :
    Except String GenerateOutcome × Controller M :=
  let c := c.forget fp
  if prompt = [] then (.error "empty prompt", c)
  else if c.capacity ≤ prompt.length then
    (.error s!"prompt of {prompt.length} tokens, context is {c.capacity}", c)
  else c.run fp prompt params sampler constraint onToken

end Controller

/-! ## Calls -/

/-- One public call that can change the controller. -/
inductive Call (F : Type) where
  | reset
  | rewind (len : Nat)
  | exportKv (start len : Nat)
  | restoreKv (tokens : List UInt32) (payload : List UInt8)
  | generate (prompt : List UInt32) (params : GenerateParams) (sampler : Sampler F) (constraint : Option Constraint)
      (onToken : Callback)

def Controller.call (fp : ForwardPass M F) (c : Controller M) : Call F → Except String Unit × Controller M
  | .reset => (.ok (), c.reset fp)
  | .rewind len => (.ok (), c.rewind fp len)
  | .exportKv start len => ((c.exportKv fp start len).1.map fun _ => (), (c.exportKv fp start len).2)
  | .restoreKv tokens payload => c.restoreKv fp tokens payload
  | .generate prompt params sampler constraint onToken =>
    let r := c.generate fp prompt params sampler constraint onToken
    (r.1.map fun _ => (), r.2)

def Controller.after (fp : ForwardPass M F) (m : M) (calls : List (Call F)) : Controller M :=
  calls.foldl (fun c k => (c.call fp k).2) (Controller.new fp m)

end

end SovereignCore.Generation
