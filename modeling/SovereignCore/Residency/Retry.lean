import SovereignCore.Store.Identity
import SovereignCore.Lib.Table

/-!
# The back-off of restores

A chain head whose restore failed twice within the retry window is prefilled without a lookup (`kv_residency.rs`). The
manager keeps the two newest failures of a head, forgets a head whose failures have all left the window, and takes no new
head once the table is full.

* `recentFailures`, `recordRestoreFailure`, `restoreGate` : the query, the update, and where `try_restore` asks;
* `Failure`, `failuresOf` : the recorded failures, and the table they leave;
* `Tracks` : what the record of a head keeps of its failures; `tracks_failuresOf` : so for every head;
* `restore_backoff` : a restore is suppressed when two failures are in the window, and the table is bounded.
-/

namespace SovereignCore.Residency

open Std Store

/-! ## The table -/

/-- Chain head -> times (ms) of its failed restores still inside the window. -/
abbrev RetryFailures := ExtTreeMap Digest (List Nat)

def retryHeadsMax : Nat := 4096

/-- The failure at `t` is inside the window at `now`; the source's subtraction saturates, as this one does. -/
def inWindow (window now t : Nat) : Bool := now - t < window

/-- Failures of `head` still inside the window at `now`. -/
def recentFailures (window : Nat) (failures : RetryFailures) (head : Digest) (now : Nat) : Nat :=
  match failures[head]? with
  | none => 0
  | some ts => (ts.filter (inWindow window now)).length

/-- Records a failed restore of the chain starting at `head`. -/
def recordRestoreFailure (window : Nat) (failures : RetryFailures) (head : Digest) (now : Nat) : RetryFailures :=
  let kept := failures.filter fun _ ts => ts.any (inWindow window now)
  if head ∉ kept ∧ retryHeadsMax ≤ kept.size then kept
  else
    let ts := kept[head]?.getD [] ++ [now]
    kept.insert head (if 2 < ts.length then ts.drop 1 else ts)

/-- How far `try_restore` comes. -/
inductive RestoreGate
  | ignored
  | fallback
  | suppressed
  | looksUp (keys : List Digest)
  deriving DecidableEq

structure RestoreConfig where
  restore : Bool
  contextCap : Option Nat
  restoreRetryWindowMs : Nat

/-- The tokens of a prompt that may be restored: all but the last, up to the context cap. -/
def restoreCap (config : RestoreConfig) (prompt : List UInt32) : Nat :=
  match config.contextCap with
  | some c => min (prompt.length - 1) c
  | none => prompt.length - 1

/-- `try_restore` up to its lookup. -/
def restoreGate (sha : List UInt8 → Digest) (config : RestoreConfig) (ns : Digest) (chunkTokens : UInt32)
    (failures : RetryFailures) (prompt : Option (List UInt32)) (now : Nat) : RestoreGate :=
  if !config.restore then .ignored
  else
    match prompt with
    | none => .ignored
    | some prompt =>
      let cap := restoreCap config prompt
      if cap = 0 then .fallback
      else
        match chunkChain sha ns chunkTokens (prompt.take cap) with
        | .error _ => .fallback
        | .ok [] => .looksUp []
        | .ok (head :: keys) =>
          if 2 ≤ recentFailures config.restoreRetryWindowMs failures head now then .suppressed
          else .looksUp (head :: keys)

/-! ## Histories -/

structure Failure where
  head : Digest
  time : Nat
  deriving DecidableEq

def failuresOf (window : Nat) (history : List Failure) : RetryFailures :=
  history.foldl (fun failures f => recordRestoreFailure window failures f.head f.time) ∅

def timesOf (history : List Failure) (head : Digest) : List Nat :=
  (history.filter fun f => f.head = head).map Failure.time

def failuresWithin (window : Nat) (history : List Failure) (head : Digest) (now : Nat) : Nat :=
  ((timesOf history head).filter (inWindow window now)).length

variable {window now last : Nat} {history : List Failure} {head x : Digest} {failures : RetryFailures} {f : Failure}
variable {all kept : List Nat}

/-! ## The bound -/

theorem size_recordRestoreFailure (h : failures.size ≤ retryHeadsMax) :
    (recordRestoreFailure window failures head now).size ≤ retryHeadsMax := by
  unfold recordRestoreFailure
  have hkept : (failures.filter fun _ ts => ts.any (inWindow window now)).size ≤ retryHeadsMax :=
    ExtTreeMap.size_filter_le_size.trans h
  generalize failures.filter (fun _ ts => ts.any (inWindow window now)) = kept at hkept ⊢
  simp only
  split
  · exact hkept
  · rename_i hnot
    rw [ExtTreeMap.size_insert]
    split
    · exact hkept
    · rename_i hnew
      have : ¬ retryHeadsMax ≤ kept.size := fun hfull => hnot ⟨hnew, hfull⟩
      omega

theorem size_failuresOf (window : Nat) (history : List Failure) : (failuresOf window history).size ≤ retryHeadsMax := by
  unfold failuresOf
  have hrun : ∀ (history : List Failure) (failures : RetryFailures), failures.size ≤ retryHeadsMax →
      (history.foldl (fun failures f => recordRestoreFailure window failures f.head f.time) failures).size ≤
        retryHeadsMax := by
    intro history
    induction history with
    | nil => exact fun _ h => h
    | cons f history ih => exact fun failures h => ih _ (size_recordRestoreFailure h)
  exact hrun history ∅ (by simp)

/-! ## What the record of a head keeps -/

/-- `kept` are the newest of the failures `all` of a head: two of them, or fewer when the older ones have left the
window by the time `last`. -/
structure Tracks (window last : Nat) (all kept : List Nat) : Prop where
  newest : ∃ older, all = older ++ kept ∧ (kept.length = 2 ∨ ∀ t ∈ older, inWindow window last t = false)
  two : kept.length ≤ 2

theorem inWindow_false_mono {t now' : Nat} (h : inWindow window now t = false) (hnow : now ≤ now') :
    inWindow window now' t = false := by
  simp only [inWindow, decide_eq_false_iff_not] at h ⊢
  omega

theorem tracks_nil (window last : Nat) : Tracks window last [] [] := ⟨⟨[], rfl, Or.inr (by simp)⟩, by simp⟩

theorem Tracks.later (h : Tracks window last all kept) (hle : last ≤ now) : Tracks window now all kept := by
  obtain ⟨older, hall, hold⟩ := h.newest
  refine ⟨⟨older, hall, ?_⟩, h.two⟩
  obtain hold | hold := hold
  · exact Or.inl hold
  · exact Or.inr fun t ht => inWindow_false_mono (hold t ht) hle

/-- A record whose failures have all left the window is forgotten. -/
theorem Tracks.forget (h : Tracks window now all kept) (hsorted : all.Pairwise (· ≤ ·))
    (hout : kept.any (inWindow window now) = false) : Tracks window now all [] := by
  obtain ⟨older, rfl, hold⟩ := h.newest
  refine ⟨⟨older ++ kept, by simp, Or.inr fun t ht => ?_⟩, by simp⟩
  have hkept : ∀ s ∈ kept, inWindow window now s = false := by simpa using hout
  obtain ht | ht := List.mem_append.1 ht
  · obtain htwo | hold := hold
    · -- the two kept are newer, and outside already
      obtain ⟨s, hs⟩ := List.exists_mem_of_length_pos (l := kept) (by omega)
      have hts : t ≤ s := (List.pairwise_append.1 hsorted).2.2 t ht s hs
      have := hkept s hs
      simp only [inWindow, decide_eq_false_iff_not] at this ⊢
      omega
    · exact hold t ht
  · exact hkept t ht

theorem Tracks.push (h : Tracks window now all kept) :
    Tracks window now (all ++ [now]) (if 2 < (kept ++ [now]).length then (kept ++ [now]).drop 1 else kept ++ [now]) := by
  obtain ⟨older, rfl, hold⟩ := h.newest
  have htwo := h.two
  match kept, htwo, hold with
  | [], _, hold => exact ⟨⟨older, by simp, Or.inr (hold.resolve_left (by simp))⟩, by simp⟩
  | [s], _, _ => exact ⟨⟨older, by simp, Or.inl rfl⟩, by simp⟩
  | [s, t], _, _ => exact ⟨⟨older ++ [s], by simp, Or.inl rfl⟩, by simp⟩

theorem Tracks.count (h : Tracks window now all kept) (hsorted : all.Pairwise (· ≤ ·)) :
    2 ≤ (kept.filter (inWindow window now)).length ↔ 2 ≤ (all.filter (inWindow window now)).length := by
  obtain ⟨older, rfl, hold⟩ := h.newest
  rw [List.filter_append, List.length_append]
  refine ⟨fun hk => by omega, fun hall => ?_⟩
  by_cases hout : ∀ t ∈ older, inWindow window now t = false
  · rw [List.filter_eq_nil_iff.2 (by simpa using hout), List.length_nil, Nat.zero_add] at hall
    exact hall
  · -- an older failure is in the window, so the two newer ones are
    have htwo : kept.length = 2 := hold.resolve_right hout
    simp only [not_forall, Bool.not_eq_false] at hout
    obtain ⟨t, ht, hin⟩ := hout
    have hkept : ∀ s ∈ kept, inWindow window now s = true := by
      intro s hs
      have hts : t ≤ s := (List.pairwise_append.1 hsorted).2.2 t ht s hs
      simp only [inWindow, decide_eq_true_eq] at hin ⊢
      omega
    rw [List.filter_eq_self.2 hkept, htwo]

/-! ## The table along a history -/

/-- The table tracks every head, and holds no other heads. -/
structure Covers (window last : Nat) (history : List Failure) (failures : RetryFailures) : Prop where
  tracks : ∀ x, Tracks window last (timesOf history x) (failures[x]?.getD [])
  heads : ∀ x ∈ failures, x ∈ history.map Failure.head

theorem timesOf_append (history : List Failure) (f : Failure) (x : Digest) :
    timesOf (history ++ [f]) x = timesOf history x ++ if f.head = x then [f.time] else [] := by
  unfold timesOf
  rw [List.filter_append, List.map_append]
  by_cases h : f.head = x
  · simp [h]
  · simp [h]

theorem pairwise_timesOf (h : (history.map Failure.time).Pairwise (· ≤ ·)) (x : Digest) :
    (timesOf history x).Pairwise (· ≤ ·) := h.sublist (List.filter_sublist.map _)

/-- The entries that are kept at `now`. -/
theorem getD_retained (failures : RetryFailures) (x : Digest) :
    (failures.filter fun _ ts => ts.any (inWindow window now))[x]?.getD [] =
      if (failures[x]?.getD []).any (inWindow window now) then failures[x]?.getD [] else [] := by
  rw [ExtTreeMap.getElem?_filter']
  cases failures[x]? with
  | none => rfl
  | some ts => by_cases h : ts.any (inWindow window now) = true <;> simp [Option.filter, h]

theorem Covers.retain (h : Covers window last history failures) (hle : last ≤ now)
    (hsorted : (history.map Failure.time).Pairwise (· ≤ ·)) :
    Covers window now history (failures.filter fun _ ts => ts.any (inWindow window now)) := by
  refine ⟨fun x => ?_, fun x hx => h.heads x (ExtTreeMap.mem_of_mem_filter hx)⟩
  have htracks := (h.tracks x).later hle
  rw [getD_retained]
  split
  · exact htracks
  · rename_i hout
    exact htracks.forget (pairwise_timesOf hsorted x) (by simpa using hout)

theorem Covers.record (h : Covers window last history failures) (hle : last ≤ f.time)
    (hsorted : (history.map Failure.time).Pairwise (· ≤ ·)) (hroom : (history.map Failure.head).dedup.length < retryHeadsMax) :
    Covers window f.time (history ++ [f]) (recordRestoreFailure window failures f.head f.time) := by
  have hkept := h.retain hle hsorted
  unfold recordRestoreFailure
  generalize failures.filter (fun _ ts => ts.any (inWindow window f.time)) = kept at hkept ⊢
  have hsize : kept.size < retryHeadsMax :=
    (Table.size_le_length fun x hx => List.mem_dedup.2 (hkept.heads x hx)).trans_lt hroom
  simp only
  rw [if_neg (fun hfull => absurd hfull.2 (Nat.not_le_of_lt hsize))]
  refine ⟨fun x => ?_, fun x hx => ?_⟩
  · rw [timesOf_append, Table.get_insert]
    by_cases hx : f.head = x
    · subst hx
      rw [if_pos rfl, if_pos rfl, Option.getD_some]
      exact (hkept.tracks f.head).push
    · rw [if_neg hx, if_neg hx, List.append_nil]
      exact hkept.tracks x
  · rw [List.map_append, List.mem_append]
    obtain hx | hx := ExtTreeMap.mem_insert.1 hx
    · exact Or.inr (by simp [LawfulEqOrd.eq_of_compare hx])
    · exact Or.inl (hkept.heads x hx)

theorem failuresOf_append (window : Nat) (history : List Failure) (f : Failure) :
    failuresOf window (history ++ [f]) = recordRestoreFailure window (failuresOf window history) f.head f.time := by
  unfold failuresOf
  rw [List.foldl_append]
  rfl

/-- With a clock that does not go back and room for all its heads, the table tracks every history. -/
theorem covers_failuresOf (hsorted : (history.map Failure.time).Pairwise (· ≤ ·))
    (hroom : (history.map Failure.head).dedup.length < retryHeadsMax) (hlast : ∀ f ∈ history, f.time ≤ last) :
    Covers window last history (failuresOf window history) := by
  induction history using List.reverseRecOn generalizing last with
  | nil => exact ⟨fun x => by simpa [failuresOf, timesOf] using tracks_nil window last, fun x hx => by simp [failuresOf] at hx⟩
  | append_singleton history f ih =>
    rw [List.map_append, List.map_singleton, List.pairwise_append] at hsorted
    have hbefore : ∀ g ∈ history, g.time ≤ f.time := fun g hg =>
      hsorted.2.2 g.time (List.mem_map_of_mem hg) f.time (List.mem_singleton_self _)
    have hfewer : (history.map Failure.head).dedup.length < retryHeadsMax := by
      refine Nat.lt_of_le_of_lt ?_ hroom
      refine (List.subperm_of_subset (List.nodup_dedup _) fun x hx => ?_).length_le
      rw [List.mem_dedup] at hx ⊢
      rw [List.map_append]
      exact List.mem_append_left _ hx
    rw [failuresOf_append]
    have hstep := (ih hsorted.1 hfewer hbefore).record le_rfl hsorted.1 hfewer
    exact ⟨fun x => (hstep.tracks x).later (hlast f (by simp)), hstep.heads⟩

theorem recentFailures_eq (window : Nat) (failures : RetryFailures) (head : Digest) (now : Nat) :
    recentFailures window failures head now = ((failures[head]?.getD []).filter (inWindow window now)).length := by
  unfold recentFailures
  cases failures[head]? <;> rfl

theorem recentFailures_iff (hsorted : (history.map Failure.time).Pairwise (· ≤ ·))
    (hroom : (history.map Failure.head).dedup.length < retryHeadsMax) (hlast : ∀ f ∈ history, f.time ≤ now) :
    2 ≤ recentFailures window (failuresOf window history) head now ↔ 2 ≤ failuresWithin window history head now := by
  rw [recentFailures_eq]
  exact ((covers_failuresOf hsorted hroom hlast).tracks head).count (pairwise_timesOf hsorted head)

theorem chunkChain_nil {sha : List UInt8 → Digest} {ns : Digest} {chunkTokens : UInt32} {keys : List Digest}
    (h : chunkChain sha ns chunkTokens [] = .ok keys) : keys = [] := by
  obtain ⟨hpos, hchain⟩ := chunkChain_ok h
  have hnone : chunks chunkTokens.toNat [] = [] := by
    rw [chunks, List.length_nil, Nat.zero_add, Nat.div_eq_of_lt (Nat.sub_lt hpos Nat.one_pos)]
    rfl
  rw [hnone, chainFrom] at hchain
  exact (Except.ok.inj hchain).symm

/-- Along failures whose clock does not go back, of fewer heads than the table holds, a restore of a head is suppressed
just when two of its failures are in the window; and after any failures the table is within its bound. -/
theorem restore_backoff (sha : List UInt8 → Digest) (config : RestoreConfig) (ns : Digest) (chunkTokens : UInt32)
    (prompt : List UInt32) (head : Digest) (keys : List Digest) (history : List Failure) (now : Nat)
    (hon : config.restore = true)
    (hhead : chunkChain sha ns chunkTokens (prompt.take (restoreCap config prompt)) = .ok (head :: keys))
    (hsorted : (history.map Failure.time).Pairwise (· ≤ ·)) (hnow : ∀ f ∈ history, f.time ≤ now)
    (hroom : (history.map Failure.head).dedup.length < retryHeadsMax) :
    (restoreGate sha config ns chunkTokens (failuresOf config.restoreRetryWindowMs history) (some prompt) now =
        .suppressed ↔
      2 ≤ failuresWithin config.restoreRetryWindowMs history head now) ∧
    ∀ any : List Failure, (failuresOf config.restoreRetryWindowMs any).size ≤ retryHeadsMax := by
  refine ⟨?_, size_failuresOf _⟩
  rw [← recentFailures_iff hsorted hroom hnow]
  have hcap : restoreCap config prompt ≠ 0 := by
    intro h0
    rw [h0, List.take_zero] at hhead
    cases chunkChain_nil hhead
  simp only [restoreGate, hon, Bool.not_true, Bool.false_eq_true, if_false, if_neg hcap, hhead]
  split
  · rename_i htwo
    exact ⟨fun _ => htwo, fun _ => rfl⟩
  · rename_i hfew
    exact ⟨nofun, fun htwo => absurd htwo hfew⟩

/-- Two failures within a second: the head is not looked up. -/
theorem restore_backoff_twice :
    restoreGate sampleSha ⟨true, none, 1000⟩ sampleNs 2 (failuresOf 1000 [⟨sampleKey, 10⟩, ⟨sampleKey, 500⟩])
      (some [1, 2, 9]) 900 = .suppressed := by
  refine (restore_backoff sampleSha ⟨true, none, 1000⟩ sampleNs 2 [1, 2, 9] sampleKey [] [⟨sampleKey, 10⟩, ⟨sampleKey, 500⟩]
    900 rfl (by decide +kernel) (by decide) (by decide) ?_).1.2 (by decide +kernel)
  exact Nat.lt_of_le_of_lt (List.dedup_sublist _).length_le (by decide)

end SovereignCore.Residency
