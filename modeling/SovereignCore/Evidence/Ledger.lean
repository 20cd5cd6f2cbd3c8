import SovereignCore.Lib.Text
import SovereignCore.Lib.Wire
import SovereignCore.Lib.Hex
import SovereignCore.Lib.Result

/-!
# The quality ledger

One append-only JSON line for each run, sealed with the hash of the event. The file is its bytes, if it exists. The hash
function and the JSON library are parameters; `LineCodec.Lawful` is what the code relies on in the JSON library.

* `computeHash`, `lastEvent`, `appendAction`, `verify`, `readEvent` : the functions of the ledger.
-/

namespace SovereignCore.Evidence

open Text Wire Hex

abbrev Digest := Vector UInt8 32

structure LedgerEvent where
  index : UInt64
  timestamp : UInt64
  agent : String
  action : String
  target : String
  intent : String
  payloadHash : Digest
  parentHash : Digest
  hash : Digest
  deriving DecidableEq

def noParent : Digest := .replicate 32 0

/-- `CRUMB_LEDGER_EVENT_V1`. -/
def eventDomain : List UInt8 :=
  [67, 82, 85, 77, 66, 95, 76, 69, 68, 71, 69, 82, 95, 69, 86, 69, 78, 84, 95, 86, 49]

def hashedText (s : String) : List UInt8 := beBytes 4 ((utf8 s).length % 2 ^ 32) ++ utf8 s

section Functions

variable (blake : List UInt8 → Digest)

def computeHash (index timestamp : UInt64) (agent action target intent : String) (payloadHash parentHash : Digest) :
    Digest :=
  blake (eventDomain ++ beBytes 8 index.toNat ++ beBytes 8 timestamp.toNat ++
    [agent, action, target, intent].flatMap hashedText ++ payloadHash.toList ++ parentHash.toList)

def LedgerEvent.recompute (e : LedgerEvent) : Digest :=
  computeHash blake e.index e.timestamp e.agent e.action e.target e.intent e.payloadHash e.parentHash

/-- The JSON library on one line of the ledger. -/
structure LineCodec where
  render : LedgerEvent → String
  parse : String → Except String LedgerEvent

structure LineCodec.Lawful (c : LineCodec) : Prop where
  reads : ∀ e, c.parse (c.render e) = .ok e
  opens : ∀ e, ∃ cs, (c.render e).toList = '\x7b' :: cs
  plain : ∀ e, ∀ ch ∈ (c.render e).toList, 32 ≤ ch.toNat

variable (c : LineCodec)

/-- The size of the tail that `lastEvent` reads. -/
def tailLen : Nat := 64 * 1024

def tailOf (bytes : List UInt8) : List UInt8 := bytes.drop (bytes.length - tailLen)

def eventLines (text : String) : List String := (lines text).filter fun l => ¬ blank l

def lastOfTail : Option String → Except String (Option LedgerEvent)
  | none => .error "stream did not contain valid UTF-8"
  | some tail =>
    match (lines tail).reverse.find? fun l => ¬ blank l with
    | some line => (c.parse line).map some
    | none => .ok none

def lastEvent (file : Option (List UInt8)) : Except String (Option LedgerEvent) :=
  match file with
  | none => .ok none
  | some bytes => lastOfTail c (fromUtf8 (tailOf bytes))

/-- One call of `appendAction`, with the clock it reads. -/
structure Call where
  action : String
  agent : String
  target : String
  intent : String
  payload : List UInt8
  now : UInt64

def nextEvent (last : Option LedgerEvent) (x : Call) : LedgerEvent :=
  let index := match last with
    | some e => e.index + 1
    | none => 0
  let parentHash := match last with
    | some e => e.hash
    | none => noParent
  let lastTs := match last with
    | some e => e.timestamp
    | none => 0
  let timestamp := max x.now lastTs
  let payloadHash := blake x.payload
  let hash := computeHash blake index timestamp x.agent x.action x.target x.intent payloadHash parentHash
  ⟨index, timestamp, x.agent, x.action, x.target, x.intent, payloadHash, parentHash, hash⟩

/-- Seal and append one event; the answer is the event and the file after. -/
def appendAction (file : Option (List UInt8)) (x : Call) : Except String (LedgerEvent × List UInt8) := do
  let last ← lastEvent c file
  let event := nextEvent blake last x
  .ok (event, file.getD [] ++ (utf8 (c.render event) ++ [lineFeed]))

/-- The loop of `verify`, from line `n` on. -/
def verifyLines : Nat → UInt64 → Digest → UInt64 → List String → Except String (UInt64 × Digest)
  | _, expected, parent, _, [] => .ok (expected, parent)
  | n, expected, parent, lastTs, line :: ls => do
    let e ← (c.parse line).mapError fun err => s!"line {n + 1}: {err}"
    if e.index ≠ expected then .error s!"event {e.index}: index gap, expected {expected}"
    else if e.parentHash ≠ parent then .error s!"event {e.index}: parent hash does not match previous event"
    else if e.timestamp < lastTs then .error s!"event {e.index}: timestamp goes backwards"
    else if e.recompute blake ≠ e.hash then .error s!"event {e.index}: hash mismatch, event was altered"
    else verifyLines (n + 1) (expected + 1) e.hash e.timestamp ls

def verify (file : Option (List UInt8)) : Except String (UInt64 × Digest) :=
  match file with
  | none => .ok (0, noParent)
  | some bytes =>
    match fromUtf8 bytes with
    | none => .error "stream did not contain valid UTF-8"
    | some text => verifyLines blake c 0 0 noParent 0 (eventLines text)

/-- The loop of `readEvent`, from line `n` on. -/
def findEvent (index : UInt64) : Nat → List String → Except String (Option LedgerEvent)
  | _, [] => .ok none
  | n, line :: ls => do
    let e ← (c.parse line).mapError fun err => s!"line {n + 1}: {err}"
    if e.index = index then .ok (some e) else findEvent index (n + 1) ls

/-- Read the event at `index`, or none when the ledger is shorter. -/
def readEvent (file : Option (List UInt8)) (index : UInt64) : Except String (Option LedgerEvent) :=
  match file with
  | none => .ok none
  | some bytes =>
    match fromUtf8 bytes with
    | none => .error "stream did not contain valid UTF-8"
    | some text => findEvent c index 0 (eventLines text)

end Functions

end SovereignCore.Evidence
