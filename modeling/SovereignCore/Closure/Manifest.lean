import Mathlib
import SovereignCore.Lib.Result
import SovereignCore.Lib.Table
import SovereignCore.Lib.Text

/-!
# The manifest of a component

`closure.toml` is strict and line based: a header, then keys that appear once, and one line for each declared dependency
with the receipt it is pinned to.

* `Manifest`, `Draft`, `parse` : the fields, and the parser with its refusals;
* `WellFormed`, `parse_wellFormed` : what an accepted manifest looks like.
-/

namespace SovereignCore.Closure

open Std Text

structure Manifest where
  component : String
  profile : String
  receipt : String
  /-- `blake3:` and the digest of the source that the receipt was taken at. -/
  source : String
  deps : ExtTreeMap String (Option String)

namespace Manifest

def fileName : String := "closure.toml"

def header : String := "closure-manifest v1"

def maxBytes : Nat := 64 * 1024

def isHex64 (s : List Char) : Bool := s.length = 64 ∧ s.all fun c => c.isDigit ∨ ('a' ≤ c ∧ c ≤ 'f')

def isName (s : List Char) : Bool := s ≠ [] ∧ s.all fun c => c.isAlphanum ∨ c = '_' ∨ c = '-' ∨ c = '.'

/-- `strip_prefix("blake3:").is_some_and(is_hex64)`. -/
def isSource (s : List Char) : Bool :=
  "blake3:".toList.isPrefixOf s ∧ isHex64 (s.drop "blake3:".toList.length)

/-- What the lines so far have set. -/
structure Draft where
  component : Option String := none
  profile : Option String := none
  receipt : Option String := none
  source : Option String := none
  deps : ExtTreeMap String (Option String) := ∅

def refuseIf (p : Prop) [Decidable p] (text : String) : Except String Unit := if p then .error text else .ok ()

def setOnce (n : Nat) (key : String) (value : List Char) (slot : Option String) (fits : Bool) (refusal : String) :
    Except String (Option String) := do
  refuseIf (fits = false) s!"line {n}: {refusal}"
  refuseIf slot.isSome s!"line {n}: duplicate {key}"
  return some (String.ofList value)

def addDep (n : Nat) (d : Draft) (name : List Char) (pin : Option String) : Except String Draft := do
  refuseIf (String.ofList name ∈ d.deps) s!"line {n}: duplicate dep {String.ofList name}"
  return { d with deps := d.deps.insert (String.ofList name) pin }

local instance : LawfulBEq (List Char) := inferInstance

/-- Line `n`, not the header. -/
def parseLine (n : Nat) (line : List Char) (d : Draft) : Except String Draft := do
  refuseIf (line = [] ∨ line ≠ trim line) s!"line {n}: blank line or stray whitespace"
  let parts := line.splitOn ' '
  refuseIf ([] ∈ parts) s!"line {n}: repeated spaces"
  match parts with
  | [key, value] =>
    if key = "component".toList then do
      let component ← setOnce n "component" value d.component (isName value) s!"bad name {debug (String.ofList value)}"
      return { d with component }
    else if key = "profile".toList then do
      let profile ← setOnce n "profile" value d.profile (isName value) s!"bad name {debug (String.ofList value)}"
      return { d with profile }
    else if key = "receipt".toList then do
      let receipt ← setOnce n "receipt" value d.receipt (isHex64 value) "receipt must be 64 lowercase hex"
      return { d with receipt }
    else if key = "source".toList then do
      let source ← setOnce n "source" value d.source (isSource value) "source must be blake3:<64 lowercase hex>"
      return { d with source }
    else if key = "dep".toList then do
      refuseIf (isName value = false) s!"line {n}: bad dep name {debug (String.ofList value)}"
      addDep n d value none
    else .error s!"line {n}: unknown or malformed key {debug (String.ofList key)}"
  | [key, name, pin] =>
    if key = "dep".toList then do
      refuseIf (isName name = false) s!"line {n}: bad dep name {debug (String.ofList name)}"
      refuseIf (isHex64 pin = false) s!"line {n}: dep pin must be 64 lowercase hex"
      addDep n d name (some (String.ofList pin))
    else .error s!"line {n}: unknown or malformed key {debug (String.ofList key)}"
  | _ => .error s!"line {n}: unknown or malformed key {debug (String.ofList (parts.headD []))}"

def parseLines (n : Nat) : List (List Char) → Draft → Except String Draft
  | [], d => .ok d
  | line :: lines, d => do
    let d ← parseLine n line d
    parseLines (n + 1) lines d

def require (name : String) : Option String → Except String String
  | some value => .ok value
  | none => .error s!"missing {name}"

def Draft.finish (d : Draft) : Except String Manifest := do
  let component ← require "component" d.component
  let profile ← require "profile" d.profile
  let receipt ← require "receipt" d.receipt
  let source ← require "source" d.source
  return ⟨component, profile, receipt, source, d.deps⟩

def parse (text : String) : Except String Manifest := do
  let chars := text.toList
  refuseIf (maxBytes < (chars.map Char.utf8Size).sum) "manifest too large"
  refuseIf (chars.head? = some '\uFEFF') "BOM not allowed"
  refuseIf ('\r' ∈ chars ∨ '\t' ∈ chars) "tabs and CR are not allowed"
  refuseIf (chars.getLast? ≠ some '\n') "file must end with a single newline"
  let lines := chars.dropLast.splitOn '\n'
  refuseIf (lines.head? ≠ some header.toList) s!"line 1: expected header {debug header}"
  let d ← parseLines 2 lines.tail {}
  d.finish

/-! ## What is accepted -/

/-- Names are names, ids are 64 lowercase hex digits. -/
structure WellFormed (m : Manifest) : Prop where
  component : isName m.component.toList
  profile : isName m.profile.toList
  receipt : isHex64 m.receipt.toList
  source : isSource m.source.toList
  deps : ∀ (name : String) (pin : Option String), m.deps[name]? = some pin →
    isName name.toList ∧ ∀ p, pin = some p → isHex64 p.toList

/-- The same of what the lines so far have set. -/
structure Draft.WellFormed (d : Draft) : Prop where
  component : ∀ s, d.component = some s → isName s.toList
  profile : ∀ s, d.profile = some s → isName s.toList
  receipt : ∀ s, d.receipt = some s → isHex64 s.toList
  source : ∀ s, d.source = some s → isSource s.toList
  deps : ∀ (name : String) (pin : Option String), d.deps[name]? = some pin →
    isName name.toList ∧ ∀ p, pin = some p → isHex64 p.toList

@[simp] theorem refuseIf_ok {p : Prop} [Decidable p] {text : String} {u : Unit} : refuseIf p text = .ok u ↔ ¬ p := by
  unfold refuseIf
  split_ifs with h
  · simp [h]
  · simp [h]

theorem setOnce_ok {n : Nat} {key refusal : String} {value : List Char} {slot slot' : Option String} {kind : List Char → Bool}
    (h : setOnce n key value slot (kind value) refusal = .ok slot') : ∀ s, slot' = some s → kind s.toList := by
  obtain ⟨hfits, h⟩ := Result.check_ok.1 h
  obtain ⟨-, h⟩ := Result.check_ok.1 h
  obtain rfl := Except.ok.inj h
  intro s hs
  obtain rfl := Option.some.inj hs
  rw [String.toList_ofList]
  simpa using hfits

theorem addDep_ok {n : Nat} {d d' : Draft} {name : List Char} {pin : Option String} (hd : d.WellFormed)
    (hname : isName name) (hpin : ∀ p, pin = some p → isHex64 p.toList) (h : addDep n d name pin = .ok d') :
    d'.WellFormed := by
  obtain ⟨-, h⟩ := Result.check_ok.1 h
  obtain rfl := Except.ok.inj h
  refine { hd with deps := ?_ }
  intro name' pin' hget
  rw [Table.get_insert] at hget
  split at hget
  · rename_i heq
    obtain rfl := Option.some.inj hget
    exact ⟨by rw [← heq, String.toList_ofList]; exact hname, hpin⟩
  · exact hd.deps name' pin' hget

theorem parseLine_wellFormed {n : Nat} {line : List Char} {d d' : Draft} (hd : d.WellFormed)
    (h : parseLine n line d = .ok d') : d'.WellFormed := by
  unfold parseLine at h
  obtain ⟨-, h⟩ := Result.check_ok.1 h
  obtain ⟨-, h⟩ := Result.check_ok.1 h
  split at h
  · -- a key and a value
    split_ifs at h
    · obtain ⟨slot, hslot, h⟩ := Result.bind_ok.1 h
      obtain rfl := Except.ok.inj h
      exact { hd with component := setOnce_ok hslot }
    · obtain ⟨slot, hslot, h⟩ := Result.bind_ok.1 h
      obtain rfl := Except.ok.inj h
      exact { hd with profile := setOnce_ok hslot }
    · obtain ⟨slot, hslot, h⟩ := Result.bind_ok.1 h
      obtain rfl := Except.ok.inj h
      exact { hd with receipt := setOnce_ok hslot }
    · obtain ⟨slot, hslot, h⟩ := Result.bind_ok.1 h
      obtain rfl := Except.ok.inj h
      exact { hd with source := setOnce_ok hslot }
    · obtain ⟨hname, h⟩ := Result.check_ok.1 h
      exact addDep_ok hd (by simpa using hname) (fun p hp => by cases hp) h
  · split_ifs at h
    obtain ⟨hname, h⟩ := Result.check_ok.1 h
    obtain ⟨hpin, h⟩ := Result.check_ok.1 h
    refine addDep_ok hd (by simpa using hname) ?_ h
    intro p hp
    obtain rfl := Option.some.inj hp
    rw [String.toList_ofList]
    simpa using hpin
  · cases h

theorem parseLines_wellFormed {lines : List (List Char)} : ∀ {n : Nat} {d d' : Draft}, d.WellFormed →
    parseLines n lines d = .ok d' → d'.WellFormed := by
  induction lines with
  | nil =>
    intro n d d' hd h
    obtain rfl := Except.ok.inj h
    exact hd
  | cons line lines ih =>
    intro n d d' hd h
    obtain ⟨d₁, hline, hrest⟩ := Result.bind_ok.1 h
    exact ih (parseLine_wellFormed hd hline) hrest

theorem require_ok {name value : String} {o : Option String} (h : require name o = .ok value) : o = some value := by
  cases o with
  | none => cases h
  | some v => rw [Except.ok.inj h]

theorem finish_wellFormed {d : Draft} {m : Manifest} (hd : d.WellFormed) (h : d.finish = .ok m) : m.WellFormed := by
  obtain ⟨component, hcomponent, h⟩ := Result.bind_ok.1 h
  obtain ⟨profile, hprofile, h⟩ := Result.bind_ok.1 h
  obtain ⟨receipt, hreceipt, h⟩ := Result.bind_ok.1 h
  obtain ⟨source, hsource, h⟩ := Result.bind_ok.1 h
  obtain rfl := Except.ok.inj h
  exact ⟨hd.component _ (require_ok hcomponent), hd.profile _ (require_ok hprofile), hd.receipt _ (require_ok hreceipt),
    hd.source _ (require_ok hsource), hd.deps⟩

/-- What is accepted is well formed. -/
theorem parse_wellFormed {text : String} {m : Manifest} (h : parse text = .ok m) : m.WellFormed := by
  obtain ⟨-, h⟩ := Result.check_ok.1 h
  obtain ⟨-, h⟩ := Result.check_ok.1 h
  obtain ⟨-, h⟩ := Result.check_ok.1 h
  obtain ⟨-, h⟩ := Result.check_ok.1 h
  obtain ⟨-, h⟩ := Result.check_ok.1 h
  obtain ⟨d, hlines, h⟩ := Result.bind_ok.1 h
  have hempty : Draft.WellFormed {} := by
    refine ⟨fun s hs => (nomatch hs), fun s hs => (nomatch hs), fun s hs => (nomatch hs), fun s hs => (nomatch hs), ?_⟩
    intro name pin hget
    rw [ExtTreeMap.getElem?_empty] at hget
    cases hget
  exact finish_wellFormed (parseLines_wellFormed hempty hlines) h

end Manifest

end SovereignCore.Closure
