import SovereignCore.Lib.Bytes
import SovereignCore.Lib.Hex
import SovereignCore.Lib.Result
import Mathlib.Data.Set.Function

/-!
# Execution transcripts

The reader of TRN1 transcripts (`aien-replay`): `verify` applies the checks in their order and either refuses with a
code and the number of the event, or accepts with the final digest and one compared digest for each record. The hash
function is a parameter. The mutation hook names no check in the real build, so every check is on.

* `crumbShape`, `identReservedOk`, `checkRecord`, `verify` : the checks;
* `compareLine` : the comparison of two verdicts.
-/

namespace SovereignCore.Replay

open Hex

abbrev Hash := Vector UInt8 32

def headerLen : Nat := 48

def recordHeaderLen : Nat := 56

def maxRecords : Nat := 4096

def maxIdent : Nat := 65536

def maxAnnot : Nat := 65536

def maxInputContent : Nat := 4096

def tEnd : Nat := 0xFFFF

/-- Refusal codes. -/
inductive Code
  | magic
  | version
  | length
  | noncanonical
  | unknown
  | shape
  | gap
  | chain
  | digest
  | truncated
  deriving DecidableEq, Repr

def Code.value : Code → Int
  | magic => -1
  | version => -2
  | length => -3
  | noncanonical => -4
  | unknown => -5
  | shape => -6
  | gap => -7
  | chain => -8
  | digest => -9
  | truncated => -10

def subsystemName : Nat → Option String
  | 0 => some "transcript"
  | 1 => some "omega-world"
  | 2 => some "omega-cortex"
  | 3 => some "omega-jspace"
  | 4 => some "aienos-kernel"
  | 5 => some "aienos-argus"
  | 6 => some "aienos-store"
  | 7 => some "sovcore-runtime"
  | 8 => some "sovcore-scheduler"
  | 9 => some "sovcore-kv"
  | 10 => some "external"
  | _ => none

inductive IdentRule
  | exact (n : Nat)
  | externalInput
  | crumb
  deriving DecidableEq

/-- Record type registry; `none` for an unknown type. -/
def identRule (t : Nat) : Option IdentRule :=
  if t = 1 then some (.exact 32)
  else if t = 2 ∨ t = 3 ∨ t = 5 then some (.exact 24)
  else if t = 4 ∨ t = 14 then some (.exact 40)
  else if t = 6 ∨ t = 10 ∨ t = 13 then some (.exact 48)
  else if t = 7 then some (.exact 32)
  else if t = 8 ∨ t = 9 then some (.exact 56)
  else if t = 11 then some .externalInput
  else if t = 12 then some (.exact 16)
  else if t = 15 then some .crumb
  else if t = 16 then some (.exact 200)
  else if t = tEnd then some (.exact 16)
  else none

def IdentRule.lenOk (ilen : Nat) : IdentRule → Bool
  | exact n => ilen = n
  | externalInput => 48 ≤ ilen ∧ ilen ≤ 48 + maxInputContent
  | crumb => 32 ≤ ilen

def u16le (b : List UInt8) : Nat := leValue (b.take 2)

def u32le (b : List UInt8) : Nat := leValue (b.take 4)

def u64le (b : List UInt8) : Nat := leValue (b.take 8)

def zero (b : List UInt8) : Bool := b.all (· = 0)

/-- The bytes from `i` up to `j`. -/
def slice (b : List UInt8) (i j : Nat) : List UInt8 := (b.drop i).take (j - i)

/-! ## Crumbs -/

/-- A counted list of at most `limit` entries of `each` bytes; what follows it. -/
def skipCounted (limit each : Nat) (c : List UInt8) : Option (List UInt8) :=
  if c.length < 4 then none
  else
    let k := u32le c
    if limit < k ∨ c.length - 4 < k * each then none else some (c.drop (4 + k * each))

/-- The parents of a crumb: a number, and a digest where the number is an earlier one. -/
def skipParents (id : Nat) : Nat → List UInt8 → Option (List UInt8)
  | 0, c => some c
  | n + 1, c =>
    if c.length < 8 then none
    else
      let p := u64le c
      if 1 ≤ p ∧ p < id then
        if c.length - 8 < 32 then none else skipParents id n (c.drop 40)
      else skipParents id n (c.drop 8)

def crumbShape (c : List UInt8) : Bool :=
  if c.length < 36 then false
  else
    let id := u64le c
    match (skipCounted 8 24 (c.drop 36)).bind fun c => (skipCounted 8 16 c).bind (skipCounted 8 24) with
    | none => false
    | some c =>
      if c.length < 8 then false
      else
        let parents := u32le (c.drop 4)
        if 65 < parents then false
        else skipParents id parents (c.drop 8) = some []

def identReservedOk (t : Nat) (id : List UInt8) : Bool :=
  if t = 3 then u32le (id.drop 20) = 0
  else if t = 6 ∨ t = 11 ∨ t = 12 ∨ t = 14 then u32le (id.drop 4) = 0
  else if t = 7 then zero (slice id 5 8)
  else if t = 10 then u32le (id.drop 12) = 0
  else if t = 16 then zero (slice id 129 136)
  else if t = tEnd then u64le (id.drop 8) = 0
  else true

/-! ## Records -/

/-- A refusal: its code and the number of the event. -/
abbrev Refusal := Code × Nat

def refuseIf (p : Prop) [Decidable p] (code : Code) (k : Nat) : Except Refusal Unit :=
  if p then .error (code, k) else .ok ()

/-- What `verify` keeps of a record it has checked. -/
structure Checked where
  type : Nat
  subsystem : Nat
  ident : List UInt8
  bytes : List UInt8
  argus : Option (List UInt8)

variable (sha : List UInt8 → Hash)

/-- `AIEN_RX_CAUSAL_V1`. -/
def crumbDomain : List UInt8 := [65, 73, 69, 78, 95, 82, 88, 95, 67, 65, 85, 83, 65, 76, 95, 86, 49]

/-- The continuation check of an ARGUS record; the answer is its digest after. -/
def checkArgus (k : Nat) (argus : Option (List UInt8)) (id : List UInt8) : Except Refusal (List UInt8) := do
  let before := slice id 136 168
  let after := slice id 168 200
  refuseIf (argus.any (· ≠ before) = true) .digest k
  let want := if id.getD 128 0 ≠ 0 then (sha (before ++ id.take 128)).toList else before
  refuseIf (want ≠ after) .digest k
  .ok after

/-- The digest after of the last ARGUS record, once record `k` is checked. -/
def nextArgus (k : Nat) (argus : Option (List UInt8)) (t : Nat) (id : List UInt8) :
    Except Refusal (Option (List UInt8)) :=
  if t = 16 then (checkArgus sha k argus id).map some else .ok argus

/-- Steps 1 to 10 for record `k`, at the start of `r`; `prev` is the digest of the record before. -/
def checkRecord (k : Nat) (prev : Hash) (argus : Option (List UInt8)) (r : List UInt8) : Except Refusal Checked := do
  refuseIf (r = []) .truncated k
  refuseIf (r.length < recordHeaderLen ∨ maxRecords < k) .length k
  let t := u16le r
  let sub := u16le (r.drop 2)
  let ilen := u32le (r.drop 4)
  let alen := u32le (r.drop 8)
  match identRule t with
  | none => .error (.unknown, k)
  | some rule =>
    refuseIf (subsystemName sub = none) .unknown k
    refuseIf (u32le (r.drop 12) ≠ 0) .noncanonical k
    refuseIf (maxIdent < ilen ∨ maxAnnot < alen) .length k
    refuseIf (u64le (r.drop 16) ≠ k) .gap k
    refuseIf (slice r 24 56 ≠ prev.toList) .chain k
    refuseIf (r.length - recordHeaderLen < ilen + alen) .length k
    let id := slice r recordHeaderLen (recordHeaderLen + ilen)
    refuseIf (rule.lenOk ilen = false) .shape k
    refuseIf (decide (t = tEnd) ≠ decide (sub = 0)) .shape k
    refuseIf (t = 7 ∧ ¬ (1 ≤ id.getD 4 0 ∧ id.getD 4 0 ≤ 6)) .shape k
    refuseIf (t = 13 ∧ k ≤ u64le (id.drop 8)) .shape k
    refuseIf (t = 15 ∧ crumbShape (id.drop 32) = false) .shape k
    refuseIf (t = 16 ∧ 1 < id.getD 128 0) .shape k
    refuseIf (t = tEnd ∧ alen ≠ 0) .shape k
    refuseIf (identReservedOk t id = false) .noncanonical k
    refuseIf (t = 15 ∧ (sha (crumbDomain ++ id.drop 32)).toList ≠ id.take 32) .digest k
    refuseIf (t = 11 ∧ 48 < ilen ∧ (sha (id.drop 48)).toList ≠ slice id 16 48) .digest k
    let argus ← nextArgus sha k argus t id
    .ok ⟨t, sub, id, r.take (recordHeaderLen + ilen + alen), argus⟩

/-- `AIEN_TRN1_CMP`. -/
def compareDomain : List UInt8 := [65, 73, 69, 78, 95, 84, 82, 78, 49, 95, 67, 77, 80]

/-- The bytes behind the compared digest of a record: type and subsystem, sequence number, identity with its length. -/
def comparedBytes (bytes ident : List UInt8) : List UInt8 :=
  compareDomain ++ (slice bytes 0 4 ++ (slice bytes 16 24 ++ (slice bytes 4 8 ++ ident)))

structure Accepted where
  records : Nat
  runId : List UInt8
  finalDigest : Hash
  compared : List (Hash × Nat)
  deriving DecidableEq

inductive Verdict
  | accept (a : Accepted)
  | refuse (code : Code) (event : Nat)
  deriving DecidableEq

/-- The record loop. `left` is the number of records that may still come, so that `left + k` is one more than the
limit. -/
def records (runId : List UInt8) : Nat → Nat → Hash → List (Hash × Nat) → Option (List UInt8) → List UInt8 → Verdict
  | 0, k, _, _, _, r => if r = [] then .refuse .truncated k else .refuse .length k
  | left + 1, k, prev, compared, argus, r =>
    match checkRecord sha k prev argus r with
    | .error (code, event) => .refuse code event
    | .ok c =>
      let prev := sha c.bytes
      let compared := compared ++ [(sha (comparedBytes c.bytes c.ident), c.subsystem)]
      let rest := r.drop c.bytes.length
      if c.type = tEnd then
        if c.ident.length < 8 ∨ u64le c.ident ≠ k then .refuse .gap k
        else if rest ≠ [] then .refuse .length (k + 1)
        else .accept ⟨k, runId, prev, compared⟩
      else records runId left (k + 1) prev compared c.argus rest

def checkHeader (b : List UInt8) : Except Refusal Unit := do
  refuseIf (b.length < 4) .length 0
  refuseIf (b.take 4 ≠ [84, 82, 78, 49]) .magic 0
  refuseIf (b.length < 6) .length 0
  refuseIf (u16le (b.drop 4) ≠ 1) .version 0
  refuseIf (b.length < headerLen) .length 0
  refuseIf (u16le (b.drop 6) ≠ 0) .noncanonical 0
  let producer := u16le (b.drop 40)
  refuseIf (producer = 0 ∨ subsystemName producer = none) .unknown 0
  refuseIf (zero (slice b 42 48) = false) .noncanonical 0

def verify (b : List UInt8) : Verdict :=
  match checkHeader b with
  | .error (code, event) => .refuse code event
  | .ok () => records sha (slice b 8 40) maxRecords 1 (sha (b.take headerLen)) [] none (b.drop headerLen)

/-! ## Comparing -/

def matchLine (n : Nat) : String := s!"MATCH through {n}"

def divergenceLine (event : Nat) (expected actual : Hash) (subsystem : Nat) : String :=
  let name := (subsystemName subsystem).getD "?"
  s!"DIVERGENCE event={event} expected={hexText expected.toList} actual={hexText actual.toList} subsystem={name}"

/-- The first position at which two lists of compared digests differ, counted from `i`. -/
def firstDifference : Nat → List (Hash × Nat) → List (Hash × Nat) → Option String
  | i, x :: xs, y :: ys => if x.1 ≠ y.1 then some (divergenceLine (i + 1) x.1 y.1 x.2) else firstDifference (i + 1) xs ys
  | _, _, _ => none

def compareLine : Verdict → Verdict → String
  | .refuse code event, _ => s!"refuse expected {code.value} event={event}"
  | .accept _, .refuse code event => s!"refuse actual {code.value} event={event}"
  | .accept e, .accept a => (firstDifference 0 e.compared a.compared).getD (matchLine (min e.records a.records))

end SovereignCore.Replay
