import SovereignCore.Effects.Ledger
import SovereignCore.Effects.Replay

/-!
# Notes of socket callers

`ComposeNote` appends an operator's record, after a filter that refuses every text the ledgers would read. The filter
and the two readers are separate parsers of the same texts.

* `checkReservedNote`, `note` : the filter and the call;
* `Passed` : a record that neither ledger reads; `Passed.read`, `Passed.replayRead` : what that means for the readers;
* `note_invisible` : an accepted note changes neither ledger, wherever it stands in the journal.
-/

namespace SovereignCore.Effects

open Std SovereignCore.Json

variable (c : Codec)

def checkReservedNote (kind text : String) : Except String Unit :=
  if kind = "generation" then
    .error "ComposeNote: generation records are written only by the daemon when a turn finishes"
  else if kind = "authorization" then
    .error "ComposeNote: authorization records are written only by the daemon (ComposeAuthorize, ComposeApprovedProposal, ComposeControl); a caller-written grant is never honoured (sovereign-core #261)"
  else
    match c.parse text with
    | none => .ok ()
    | some v =>
      if (v.get "provenance").isSome then
        .error "ComposeNote: the provenance field is written only by the daemon (generation link and ALLEN agent id)"
      else if kind = "effect" ∧ (v.get "generation").isSome then
        .error "ComposeNote: generation records are written only by the daemon when a turn finishes"
      else if kind = "effect" ∧ (v.get "phase").isSome then
        .error "ComposeNote: effect records with a \"phase\" are written only by the effect commands"
      else if kind = "effect" ∧ (v.get "tool").bind Value.asStr = some "write_file" then
        .error "ComposeNote: write_file effect records are written only by the effect commands (a NEXT-PHASE-1 spend note is never accepted from a caller)"
      else if kind = "effect" ∧ (v.get "approved_submission").isSome then
        .error "ComposeNote: approved_submission records are written only by the replay ledger"
      else if kind = "effect" ∧ (v.get "compose_commit").isSome then
        .error "ComposeNote: compose_commit records are written only by the compose run"
      else if kind = "constraint" ∧ (v.get "repair").isSome then
        .error "ComposeNote: constraint records with a \"repair\" field are written only by RecoverComposeHome"
      else .ok ()

def noteKind : String → Option NoteKind
  | "constraint" => some .constraint
  | "authorization" => some .authorization
  | "effect" => some .effect
  | _ => none

def writeNote (d : Disk) (kind text : String) (links : List UInt64) (J : List RecordView) :
    List RecordView × Except String UInt64 :=
  match noteKind kind with
  | none => (J, .error s!"ComposeNote: kind {Field.quoted kind} (constraint, authorization, effect)")
  | some k =>
    if 4 < links.length then (J, .error "ComposeNote: at most 4 links")
    else withHome d J fun J => append J k links text (d.note 0)

def note (d : Disk) (kind text : String) (links : List UInt64) (J : List RecordView) :
    List RecordView × Except String UInt64 :=
  match checkReservedNote c kind text with
  | .error e => (J, .error e)
  | .ok () => writeNote d kind text links J

/-! ## Records that the ledgers pass over -/

/-- A verified record that carries nothing either ledger reads. -/
structure Passed (r : RecordView) : Prop where
  verified : r.verified = true
  not_authorization : r.note ≠ some "authorization"
  unread : r.note = some "effect" → ∀ t v, r.text = some t → c.parse t = some v →
    v.get "compose_commit" = none ∧ v.get "phase" = none ∧ v.get "approved_submission" = none ∧
      (v.get "tool").bind Value.asStr ≠ some "write_file"

variable {c} {r : RecordView}

theorem Passed.read (h : Passed c r) (l : Ledger) : l.read c r = .ok l := by
  unfold Ledger.read
  rw [h.verified]
  simp only [Bool.not_true, Bool.false_eq_true, if_false]
  split
  · rfl
  · rename_i t ht
    split
    · rename_i hn
      exact absurd hn h.not_authorization
    · rename_i hn
      unfold Ledger.readEffect
      split
      · rfl
      · rename_i v hv
        obtain ⟨hcommit, hphase, -, htool⟩ := h.unread hn t v ht hv
        simp [hcommit, hphase, Ledger.readLegacy, htool]
    · rfl

theorem Passed.replayRead (h : Passed c r) (l : Replay.ReplayLedger) : l.read c r = .ok l := by
  unfold Replay.ReplayLedger.read
  rw [h.verified]
  simp only [Bool.not_true, Bool.false_eq_true, if_false]
  by_cases hn : r.note = some "effect"
  · rw [if_neg (by simp [hn])]
    split
    · rfl
    · rename_i t ht
      rcases hv : c.parse t with _ | v
      · rfl
      · obtain ⟨-, -, hfield, -⟩ := h.unread hn t v ht hv
        simp [Replay.ReplayLedger.readEffect, hfield]
  · rw [if_pos hn]

theorem passed_of_accepted {kind text : String} {k : NoteKind} (hk : noteKind kind = some k)
    (h : checkReservedNote c kind text = .ok ()) (id : UInt64) (links : List UInt64) :
    Passed c (hostNote id k links text) := by
  have hname : k.name = kind := by
    unfold noteKind at hk
    split at hk <;> cases hk <;> rfl
  unfold checkReservedNote at h
  rw [Result.guard_ok, Result.guard_ok] at h
  obtain ⟨-, hauth, h⟩ := h
  refine ⟨rfl, ?_, ?_⟩
  · intro hn
    exact hauth (hname ▸ Option.some.inj hn)
  · intro hn t v ht hv
    cases Option.some.inj ht
    have heff : kind = "effect" := hname ▸ Option.some.inj hn
    rw [hv] at h
    dsimp only at h
    simp only [Result.guard_ok, heff, true_and, Option.not_isSome_iff_eq_none] at h
    obtain ⟨-, -, hphase, htool, hfield, hcommit, -⟩ := h
    exact ⟨hcommit, hphase, hfield, htool⟩

theorem fromRecords_insert (h : Passed c r) (pre post : List RecordView) :
    Ledger.fromRecords c (pre ++ r :: post) = Ledger.fromRecords c (pre ++ post) := by
  simp only [Ledger.fromRecords, List.foldlM_append, List.foldlM_cons]
  congr 1
  funext l
  rw [h.read l]
  rfl

theorem replay_fromRecords_insert (h : Passed c r) (pre post : List RecordView) :
    Replay.ReplayLedger.fromRecords c (pre ++ r :: post) = Replay.ReplayLedger.fromRecords c (pre ++ post) := by
  simp only [Replay.ReplayLedger.fromRecords, List.foldlM_append, List.foldlM_cons]
  congr 1
  funext l
  rw [h.replayRead l]
  rfl

/-- **A caller's note is invisible to authority.** Wherever an accepted note stands in a journal, whatever its id and
links, both ledgers read the journal as they would without it, errors included. -/
theorem note_invisible (c : Codec) (kind text : String) (k : NoteKind) (hk : noteKind kind = some k)
    (h : checkReservedNote c kind text = .ok ()) (id : UInt64) (links : List UInt64) (pre post : List RecordView) :
    Ledger.fromRecords c (pre ++ hostNote id k links text :: post) = Ledger.fromRecords c (pre ++ post) ∧
      Replay.ReplayLedger.fromRecords c (pre ++ hostNote id k links text :: post) =
        Replay.ReplayLedger.fromRecords c (pre ++ post) := by
  have hp := passed_of_accepted hk h id links
  exact ⟨fromRecords_insert hp pre post, replay_fromRecords_insert hp pre post⟩

def inspectText : String := compact.print (.obj [("tool", .str "inspect")])

/-- A caller's effect note, in front of a record that does not verify: the journal is refused as it was. -/
theorem note_invisible_inspect : checkReservedNote compact "effect" inspectText = .ok () ∧
    Ledger.fromRecords compact [hostNote 7 .effect [3] inspectText, ⟨8, [], false, none, none⟩] =
      Ledger.fromRecords compact [⟨8, [], false, none, none⟩] := by
  have hparse : compact.parse inspectText = some (.obj [("tool", .str "inspect")]) :=
    compact_parse_print (by simp [Value.plain, Value.scalar])
  have h : checkReservedNote compact "effect" inspectText = .ok () := by
    simp [checkReservedNote, hparse, Value.asStr]
  exact ⟨h, (note_invisible compact "effect" _ .effect rfl h 7 [3] [] _).1⟩

end SovereignCore.Effects
