import SovereignCore.Sched.Batch

/-!
# A step as a path

* `Drives over` : `Goes` for the scheduler of an engine;
* `releases_path`, `execute_path`, `advances_path` : the backend releases, the backend step, the chunks it executed;
* `handleToken_drives`, `handleFinished_drives` : the outputs;
* `step_drives` : a step against any backend.
-/

namespace SovereignCore.Sched

open Prog Kv AienScheduler Engine

variable {β ε : Type} {lax : Prop} {x : Stage} {s s' : AienScheduler} {e e' : Engine β} {id : SequenceId}
variable (B : AienInferenceBackend β)

/-- The scheduler of `e'` is reached from that of `e` by moves. -/
def Drives (lax : Prop) (e e' : Engine β) : Prop := Goes lax e.sched e'.sched

instance : Steady (Drives (β := β) lax) where
  refl := fun e => Goes.refl e.sched
  trans := fun h h' => Goes.trans h h'

theorem ends_onSched {α : Type} {N : Prop} {Q : α → Engine β → Prop} {E : ε → Engine β → Prop}
    (y : Prog AienScheduler ε α) : Outcome.Ends N Q E (onSched y e) ↔
      (y e.sched).Ends N (fun a s => Q a { e with sched := s }) (fun err s => E err { e with sched := s }) := by
  unfold onSched
  rw [ends_zoom]

theorem onSched_drives {α : Type} {y : Prog AienScheduler ε α} (h : Within (Goes lax) y) :
    Within (Drives lax) (onSched y : Prog (Engine β) ε α) := by
  intro e
  rw [ends_onSched]
  exact h e.sched

/-! ## The releases -/

theorem release_path (x : Stage) (raw : UInt64) (rest : List UInt64) (h : x.releasing = raw :: rest)
    (he : e.sched = x.sched) : Outcome.Ends True
      (fun _ e' => Path lax x { x with sched := e'.sched, releasing := rest } ∧
        e'.sched.pendingBackendReleases = x.sched.pendingBackendReleases)
      (fun _ e' => Path lax x { x with sched := e'.sched, releasing := [] }) (release B raw e) := by
  have hpending : e.sched.pendingBackendReleases = x.sched.pendingBackendReleases := by rw [he]
  unfold release
  rw [ends_bind, ends_get]
  rw [ends_bind, ends_set, ends_bind, ends_onSched]
  unfold note
  rw [ends_modify]
  cases (B.releaseSequence raw e.backend).1 with
  | ok u =>
    have hmove : Move lax x _ := .release x raw rest h
    rw [← he] at hmove
    exact ⟨.single hmove, hpending⟩
  | error err =>
    have hmove : Move lax x _ := .refuseRelease x raw rest h
    rw [← he] at hmove
    exact .single hmove

theorem releases_path (x : Stage) : ∀ (ids : List SequenceId) (e : Engine β), e.sched.pendingBackendReleases = [] →
    Path lax x { x with sched := e.sched, releasing := ids.map SlotId.toU64 } → Outcome.Ends True
      (fun _ e' => Path lax x { x with sched := e'.sched, releasing := [] } ∧ e'.sched.pendingBackendReleases = [])
      (fun _ e' => Path lax x { x with sched := e'.sched, releasing := [] })
      ((ids.forM fun id => release B id.toU64) e)
  | [], _, hpending, h => ⟨h, hpending⟩
  | id :: ids, e, hpending, h => by
    rw [List.forM_eq_forM, List.forM_cons, ends_bind]
    refine (@release_path β lax e B { x with sched := e.sched, releasing := (id :: ids).map SlotId.toU64 }
      id.toU64 (ids.map SlotId.toU64) rfl rfl).mono (fun _ e' h' => ?_) fun _ _ h' => h.trans h'
    exact releases_path x ids e' (h'.2.trans hpending) (h.trans h'.1)

/-! ## The backend step -/

/-- The scheduler after a backend step, with the executed chunks still to count. -/
def Stage.counting (s : AienScheduler) (reqs : List SequenceRequest) : Stage := { Stage.rest s with advancing := reqs }

theorem execute_path {batch : ScheduledBatch} (hpending : e.sched.pendingBackendReleases = []) : Outcome.Ends True
    (fun _ e' => Path lax (.ready e.sched batch) (.counting e'.sched batch.prefillRequests))
    (fun _ e' => Path lax (.ready e.sched batch) (.rest e'.sched)) (execute B batch e) := by
  unfold execute
  rw [ends_bind, ends_get, ends_bind, ends_onSched]
  unfold note
  rw [ends_modify, ends_bind, ends_modify]
  have hmove : ∀ ok, Path lax (.ready e.sched batch) _ := fun ok =>
    .single (.execute (.ready e.sched batch) batch ok rfl rfl ⟨rfl, hpending⟩ ⟨rfl, rfl, rfl⟩)
  -- The backend may change the K/V manager; the batch is with it, so nothing is held any more.
  cases (B.executeStep batch e.sched.kvManager e.backend).1 with
  | ok answer =>
    exact (hmove true).trans (aside_path _ _ ⟨rfl, rfl, rfl, rfl, rfl, rfl⟩ fun _ h => absurd h List.not_mem_nil)
  | error err =>
    exact (hmove false).trans (aside_path _ _ ⟨rfl, rfl, rfl, rfl, rfl, rfl⟩ fun _ h => absurd h List.not_mem_nil)

theorem toU64_of_fromU64 {raw : UInt64} (h : SequenceId.fromU64 raw = .ok id) : SlotId.toU64 id = raw := by
  unfold SequenceId.fromU64 at h
  split_ifs at h
  rw [← Except.ok.inj h, SlotId.toU64_ofU64]

theorem fromU64_of_live {r : SequenceRecord} (h : s.arena.get id = some r) :
    SequenceId.fromU64 (SlotId.toU64 id) = .ok id := by
  unfold SequenceId.fromU64
  rw [SlotId.ofU64_toU64, if_neg (SequenceArena.get_of_some h).1]

theorem advancePrefill_path (req : SequenceRequest) (rest : List SequenceRequest) (s : AienScheduler) :
    Outcome.Ends True (fun _ s' => Path lax (.counting s (req :: rest)) (.counting s' rest))
      (fun _ _ => False) ((advancePrefill req : Prog AienScheduler ε Unit) s) := by
  -- A request that names no live sequence with a prefill under way changes nothing.
  have hnone : (∀ id r, SequenceId.fromU64 req.requestId = .ok id → s.arena.get id = some r → r.isPrefilled = true) →
      Path lax (.counting s (req :: rest)) (.counting s rest) := by
    intro h
    refine .single (.advanceNone (.counting s (req :: rest)) req rest rfl fun id r hreq hget => h id r ?_ hget)
    rw [← hreq]
    exact fromU64_of_live hget
  unfold advancePrefill
  rw [ends_bind, ends_get]
  cases hid : SequenceId.fromU64 req.requestId with
  | error err =>
    refine hnone fun id r hreq _ => ?_
    rw [hid] at hreq
    cases hreq
  | ok id =>
    have hraw : SlotId.toU64 id = req.requestId := toU64_of_fromU64 hid
    cases hr : s.arena.get id with
    | none =>
      simp only [hr]
      refine hnone fun id' r hreq hget => ?_
      rw [hid] at hreq
      obtain rfl := Except.ok.inj hreq
      rw [hr] at hget
      cases hget
    | some r =>
      simp only [hr]
      split_ifs with hpre hle
      · refine hnone fun id' r' hreq hget => ?_
        rw [hid] at hreq
        obtain rfl := Except.ok.inj hreq
        rw [hr] at hget
        exact Option.some.inj hget ▸ hpre
      · unfold updateRecord onKv note
        rw [ends_bind, ends_modify, ends_bind, ends_ignore, ends_zoom]
        have hkv : ∀ kv, Path lax (.counting s (req :: rest)) (.counting { s with kvManager := kv } (req :: rest)) :=
          fun kv => aside_path _ _ ⟨rfl, rfl, rfl, rfl, rfl, rfl⟩ fun _ h => absurd h List.not_mem_nil
        have hfence : ∀ kv, Path lax (.counting s (req :: rest)) _ := fun kv =>
          (hkv kv).tail (.fence (.counting { s with kvManager := kv } (req :: rest)) id r req rest rfl hraw hr
            (Bool.eq_false_of_not_eq_true hpre) hle rfl)
        exact .any (fun _ kv => hfence kv) fun _ kv => hfence kv
      · exact .single (.advance (.counting s (req :: rest)) id r req rest rfl hraw hr
          (Bool.eq_false_of_not_eq_true hpre) (Nat.lt_of_not_le hle) rfl)

theorem advances_path : ∀ (reqs : List SequenceRequest) (s : AienScheduler), Outcome.Ends True
    (fun _ s' => Path lax (.counting s reqs) (.rest s')) (fun _ _ => False)
    ((reqs.forM advancePrefill : Prog AienScheduler ε Unit) s)
  | [], _ => .refl
  | req :: reqs, s => by
    rw [List.forM_eq_forM, List.forM_cons, ends_bind]
    refine (@advancePrefill_path ε lax req reqs s).mono (fun _ s' h => ?_) fun _ _ h => h
    exact (advances_path reqs s').mono (fun _ _ h' => h.trans h') fun _ _ h' => h'

/-! ## The outputs -/

theorem emit_eq (sinkId : Option CompletionSinkId) (event : CompletionEvent) (s : AienScheduler) :
    (emit sinkId event : Prog AienScheduler ε Unit) s =
      .ok () { s with history := s.history ++ told s sinkId event } := by
  unfold emit
  cases sinkId with
  | none =>
    show Outcome.ok () s = .ok () { s with history := s.history ++ [] }
    rw [List.append_nil]
  | some sink =>
    show (if sink ∈ s.completionRouter.sinks then note (.emitted sink event) else pure ()) s =
      .ok () { s with history := s.history ++ if sink ∈ s.completionRouter.sinks then [.emitted sink event] else [] }
    by_cases hsink : sink ∈ s.completionRouter.sinks
    · rw [if_pos hsink, if_pos hsink]
      rfl
    · rw [if_neg hsink, if_neg hsink, List.append_nil]
      rfl

theorem finishKvTransaction_ends (id : SequenceId) (reason : FinishReason) (e : Engine β) : Outcome.Ends True
    (fun _ e' => ∃ kv, e'.sched = { e.sched with kvManager := kv }) (fun _ _ => False)
    ((finishKvTransaction B id reason : Prog (Engine β) ε Unit) e) := by
  unfold finishKvTransaction
  rw [ends_bind, ends_get]
  cases finishHookOf e.sched id reason with
  | none =>
    rw [ends_onSched]
    exact freeKv_ends fun kv _ _ => ⟨kv, rfl⟩
  | some hook =>
    rw [ends_bind, ends_onSched]
    unfold onKv
    rw [ends_ignore, ends_zoom]
    refine .any (fun _ kv => ?_) fun _ kv => ?_
    all_goals
      rw [ends_onSched]
      exact freeKv_ends fun kv' _ _ => ⟨kv', rfl⟩

theorem goes_gone (hr : s.arena.get id = none) (kv : AienKvManager) : Goes lax s { s with
    kvManager := kv
    runningSequences := s.runningSequences.erase id
    arena := (s.arena.freeSequence id).2 } := by
  have harena : (s.arena.freeSequence id).2 = s.arena := by
    rcases SequenceArena.freeSequence_spec s.arena id with ⟨h, -⟩ | ⟨_, _, _, _, _, _, h, _⟩
    · rw [h]
    · rw [SequenceArena.freeSequence_true, hr] at h
      cases h
  rw [harena]
  have hsheds : Sheds s.arena s.runningSequences (s.runningSequences.erase id) := by
    refine ⟨List.erase_sublist, fun id' hlive => ?_⟩
    have hne : id' ≠ id := by
      rintro rfl
      rw [hr] at hlive
      cases hlive
    exact List.count_erase_of_ne hne
  exact (goes_kv kv).trans (.single (.purge (.rest { s with kvManager := kv }) _ _ _ (.refl _) (.refl _) hsheds
    ⟨rfl, rfl⟩))

theorem retired_drives (id : SequenceId) (reason : FinishReason) (total : Nat) (e : Engine β) : Outcome.Ends True
    (fun _ e' => Drives lax e e') (fun _ _ => False)
    ((do retire B id reason
         reportFinished B id reason total ((e.sched.arena.get id).bind fun r => r.sinkId) :
         Prog (Engine β) ε Unit) e) := by
  unfold retire dropRunning
  rw [ends_bind, ends_bind, ends_onSched, ends_modify, ends_bind]
  refine (finishKvTransaction_ends B id reason _).mono (fun _ e' h => ?_) fun _ _ h => h
  obtain ⟨kv, hkv⟩ := h
  unfold freeRecord reportFinished
  rw [ends_onSched, ends_modify, ends_bind, ends_get, ends_bind, ends_set, ends_onSched, emit_eq, hkv]
  cases hr : e.sched.arena.get id with
  | none =>
    show Goes lax e.sched { e.sched with
      kvManager := kv
      runningSequences := e.sched.runningSequences.erase id
      arena := (e.sched.arena.freeSequence id).2
      history := e.sched.history ++ [] }
    rw [List.append_nil]
    exact goes_gone hr kv
  | some r =>
    exact (goes_kv kv).trans (.single (.finish (.rest { e.sched with kvManager := kv }) id r reason total _ _ hr rfl))

theorem handleFinished_drives (raw : UInt64) (reason : FinishReason) (total : Nat) :
    Within (Drives lax) (handleFinished B raw reason total : Prog (Engine β) ε (List DecodeOutput)) := by
  unfold handleFinished
  refine within_get fun e => ?_
  cases SequenceId.fromU64 raw with
  | error err => exact Goes.refl e.sched
  | ok id =>
    have h := @retired_drives β ε lax B id reason total e
    rw [ends_bind] at h
    rw [ends_bind]
    refine h.mono (fun _ e' h' => ?_) fun _ _ h' => h'.elim
    rw [ends_bind]
    exact h'.mono (fun _ _ h'' => h'') fun _ _ h'' => h''.elim

/-- The scheduler after a token of a sequence was counted and its sink told. -/
def toldToken (s : AienScheduler) (r : SequenceRecord) (id : SequenceId) (tok : UInt32) (kv : AienKvManager) :
    AienScheduler :=
  { s with
    kvManager := kv
    arena := s.arena.getMut id fun r =>
      { r with tokensGenerated := r.tokensGenerated + 1, generatedTokens := r.generatedTokens ++ [tok] }
    history := s.history ++ told s r.sinkId (.token id tok) }

theorem verdict_ends (r : SequenceRecord) (raw : UInt64) (tok : UInt32) (e : Engine β) : Outcome.Ends True
    (fun _ e' => ∃ kv, e'.sched = { e.sched with kvManager := kv }) (fun _ _ => False)
    ((verdict B r raw tok : Prog (Engine β) ε (Option FinishReason)) e) := by
  unfold verdict
  rw [ends_bind, ends_get]
  split_ifs
  · exact ⟨e.sched.kvManager, rfl⟩
  · exact ⟨e.sched.kvManager, rfl⟩
  · exact ⟨e.sched.kvManager, rfl⟩
  · unfold onKv
    rw [ends_bind, ends_onSched, ends_zoom, ends_succeeds]
    exact .any (fun _ kv => ⟨kv, rfl⟩) fun _ kv => ⟨kv, rfl⟩

/-- A sequence without room for its token is preempted and reported. -/
theorem lost_drives {r : SequenceRecord} (total : Nat) (hr : e.sched.arena.get id = some r)
    (hpre : r.isPrefilled = true) (sinkId : Option CompletionSinkId) : Outcome.Ends True (fun _ e' => Drives lax e e')
      (fun _ _ => False)
      ((do onSched (preempt id (.failedAppend sinkId))
           reportFinished B id .preempted total sinkId : Prog (Engine β) ε Unit) e) := by
  rw [ends_bind, ends_onSched]
  refine (@preempt_goes lax e.sched id ε _ r hr (.inr hpre)).mono (fun _ s h => ?_) fun _ _ h => h
  obtain ⟨hgoes, hhistory⟩ := h
  unfold reportFinished
  rw [ends_bind, ends_get, ends_bind, ends_set, ends_onSched, emit_eq]
  have hfreed : .freed id (.failedAppend sinkId) ∈ s.history := by
    rw [hhistory]
    exact List.mem_append_right _ (List.mem_singleton_self _)
  exact hgoes.trans (.single (.reportPreempted (.rest s) id sinkId total _ _ hfreed rfl))

theorem handleToken_drives (raw : UInt64) (tok : UInt32) (logprob : Option F32) :
    Within (Drives lax) (handleToken B raw tok logprob : Prog (Engine β) ε (List DecodeOutput)) := by
  unfold handleToken
  refine within_get fun e => ?_
  cases SequenceId.fromU64 raw with
  | error err => exact Goes.refl e.sched
  | ok id =>
    cases hr : e.sched.arena.get id with
    | none =>
      simp only [hr]
      exact Goes.refl e.sched
    | some r =>
      simp only [hr]
      split_ifs with hpre
      · exact Goes.refl e.sched
      · have hpre' : r.isPrefilled = true := by rwa [Bool.not_eq_true', Bool.not_eq_false] at hpre
        unfold updateRecord
        rw [ends_bind, ends_onSched, ends_modify, ends_bind]
        refine (verdict_ends B r raw tok _).mono (fun reason e1 h1 => ?_) fun _ _ h => h.elim
        obtain ⟨kv, hkv⟩ := h1
        rw [ends_bind, ends_onSched, emit_eq, hkv]
        -- The token is counted and told; what the append left of the K/V does not matter for the moves.
        have hgoes : Goes lax e.sched (toldToken e.sched r id tok kv) :=
          (goes_kv kv).trans (.single (.token (.rest { e.sched with kvManager := kv }) id r tok hr hpre' rfl))
        have hget : (toldToken e.sched r id tok kv).arena.get id = some
            { r with tokensGenerated := r.tokensGenerated + 1, generatedTokens := r.generatedTokens ++ [tok] } := by
          show (e.sched.arena.getMut id _).get id = _
          rw [SequenceArena.get_getMut_self, hr]
          rfl
        cases reason with
        | none => exact hgoes
        | some reason =>
          show Outcome.Ends True _ _ ((if reason = .preempted then _ else _ : Prog (Engine β) ε _)
            { e1 with sched := toldToken e.sched r id tok kv })
          split_ifs with hreason
          · subst hreason
            have h := @lost_drives β ε lax { e1 with sched := toldToken e.sched r id tok kv } id B _
              (r.tokensGenerated + 1) hget hpre' r.sinkId
            rw [ends_bind] at h ⊢
            refine h.mono (fun _ _ h' => ?_) fun _ _ h' => h'.elim
            rw [ends_bind]
            exact h'.mono (fun _ _ h'' => hgoes.trans h'') fun _ _ h'' => h''.elim
          · have h := @retired_drives β ε lax B id reason (r.tokensGenerated + 1)
              { e1 with sched := toldToken e.sched r id tok kv }
            rw [hget, ends_bind] at h
            rw [ends_bind]
            refine h.mono (fun _ _ h' => ?_) fun _ _ h' => h'.elim
            rw [ends_bind]
            exact h'.mono (fun _ _ h'' => hgoes.trans h'') fun _ _ h'' => h''.elim

theorem handleOutputs_drives : ∀ outputs : List DecodeOutput,
    Within (Drives lax) (handleOutputs B outputs : Prog (Engine β) ε (List DecodeOutput))
  | [] => within_pure _
  | .token raw tok logprob :: rest =>
    within_bind (handleToken_drives B raw tok logprob) fun _ => within_bind (handleOutputs_drives rest) fun _ => within_pure _
  | .finished raw reason total :: rest =>
    within_bind (handleFinished_drives B raw reason total) fun _ =>
      within_bind (handleOutputs_drives rest) fun _ => within_pure _

/-! ## The whole step -/

theorem runBatch_path {batch : ScheduledBatch} (hwf : e.sched.arena.WF) (hpending : e.sched.pendingBackendReleases = []) :
    Outcome.Ends True (fun _ e' => Path lax (.ready e.sched batch) (.rest e'.sched))
      (fun _ e' => Path lax (.ready e.sched batch) (.rest e'.sched)) (runBatch B batch e) := by
  unfold runBatch
  rw [ends_bind]
  refine (@execute_path β lax e B batch hpending).mono (fun answer e1 h1 => ?_) fun _ _ h => h
  obtain ⟨outputs, metrics⟩ := answer
  simp only
  rw [ends_bind, ends_onSched]
  refine (@advances_path String lax batch.prefillRequests e1.sched).mono (fun _ s2 h2 => ?_) fun _ _ h => h.elim
  have hpath : Path lax _ _ := h1.trans h2
  rw [ends_bind]
  have hwf2 : s2.arena.WF := hpath.wf hwf
  refine (@handleOutputs_drives β String lax B outputs { e1 with sched := s2 }).mono (fun _ e3 h3 => ?_) fun _ e3 h3 => ?_
  · exact hpath.trans (h3 hwf2)
  · exact hpath.trans (h3 hwf2)

theorem takePendingBackendReleases_eq (s : AienScheduler) :
    (takePendingBackendReleases : Prog AienScheduler ε (List SequenceId)) s =
      .ok s.pendingBackendReleases { s with pendingBackendReleases := [] } := rfl

theorem flush_path (x : Stage) (hx : x.releasing = []) (e : Engine β) (he : x.sched = e.sched) : Outcome.Ends True
    (fun _ e' => Path lax x { x with sched := e'.sched, releasing := [] } ∧ e'.sched.pendingBackendReleases = [])
    (fun _ e' => Path lax x { x with sched := e'.sched, releasing := [] })
    ((do let ids ← onSched takePendingBackendReleases
         ids.forM fun id => release B id.toU64 : Prog (Engine β) String Unit) e) := by
  rw [ends_bind, ends_onSched, takePendingBackendReleases_eq]
  refine releases_path B x _ _ rfl (.single ?_)
  have hmove : Move lax x _ := .takeReleases x hx
  rw [he] at hmove
  exact hmove

theorem step_drives : Within (Drives lax) (step B) := by
  intro e
  by_cases hwf : e.sched.arena.WF
  · unfold step
    rw [ends_bind, ends_onSched]
    refine (@buildScheduledBatch_path lax e.sched hwf).mono (fun batch s1 h1 => ?_) fun _ _ h _ => h
    have hflush := fun x hx hs => @flush_path β lax B x hx { e with sched := s1 } hs
    cases batch with
    | none =>
      have h := hflush (.rest s1) rfl rfl
      rw [ends_bind] at h ⊢
      refine h.mono (fun ids e2 h2 => ?_) fun _ _ h2 _ => h1.trans h2
      rw [ends_bind]
      exact h2.mono (fun _ _ h3 _ => h1.trans h3.1) fun _ _ h3 _ => h1.trans h3
    | some batch =>
      -- After a refused release the batch is dropped.
      have habandon : ∀ s, Path lax (.ready s1 batch) (.ready s batch) → Path lax (.rest e.sched) (.rest s) :=
        fun s h => (h1.trans h).tail (.abandon (.ready s batch) ⟨rfl, rfl, rfl⟩)
      have h := hflush (.ready s1 batch) rfl rfl
      rw [ends_bind] at h ⊢
      refine h.mono (fun ids e2 h2 => ?_) fun _ e2 h2 _ => habandon e2.sched h2
      rw [ends_bind]
      refine h2.mono (fun _ e3 h3 => ?_) fun _ e3 h3 _ => habandon e3.sched h3
      have hpath : Path lax (.rest e.sched) (.ready e3.sched batch) := h1.trans h3.1
      rw [ends_bind]
      refine (@runBatch_path β lax e3 B batch (hpath.wf hwf) h3.2).mono (fun _ _ h4 _ => hpath.trans h4) fun _ _ h4 _ => ?_
      exact hpath.trans h4
  · exact .any (fun _ _ h => absurd h hwf) fun _ _ h => absurd h hwf

end SovereignCore.Sched
