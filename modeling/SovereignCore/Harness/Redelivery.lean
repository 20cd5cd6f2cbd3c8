import SovereignCore.Harness.Buckets
import SovereignCore.Harness.Journal

/-!
# Redelivered events

An accepted event leaves something in the core that refuses it a second time: its id, for as long as that is remembered,
and after that the state itself. A registered task stays registered, a dependency stays, a beat does not go back within
a generation, and an event that is bound to a generation is remembered until the task has left it.

* `Settled` : what an accepted event leaves behind;
* `apply_settles`, `Settled.apply` : it is there after the event, and every later event keeps it;
* `Settled.refused` : it refuses the event;
* `redelivery_harmless` : in a run without a wrapped generation, no accepted event is accepted again;
* `redelivery_accepted` : a run with one.
-/

namespace SovereignCore.Harness

open Std Result Relation

namespace Net

variable {enabled : Bool} {n n' : Net} {a : Act} {as : List Act} {p u : String}

theorem Step.edge_mono (hstep : Step enabled n a n') (h : n.Edge p u) : n'.Edge p u := by
  cases hstep with
  | register _ _ _ _ _ _ hsub _ => exact hsub p u h
  | depend _ _ _ hE _ => exact (hE p u).2 (Or.inl h)
  | reclaim _ _ hsweep => exact hsweep.edge ▸ h
  | renew _ _ _ hsweep => exact hsweep.edge ▸ h
  | revoke _ _ hsweep => exact hsweep.edge ▸ h
  | abort _ _ hsweep => exact hsweep.edge ▸ h
  | cancel _ _ hsweep _ => exact hsweep.edge ▸ h
  | failed _ _ hsweep => exact hsweep.edge ▸ h
  | uncertain _ _ hsweep =>
    show Net.Edge _ p u
    exact hsweep.edge ▸ h
  | _ => exact h

theorem Steps.edge_mono (hsteps : Steps enabled n as n') (h : n.Edge p u) : n'.Edge p u := by
  induction hsteps with
  | refl => exact h
  | cons hstep _ ih => exact ih (hstep.edge_mono h)

end Net

namespace Core

variable {cfg : ProvisionalConfig} {dg : EventKind → String} {c c' : Core} {x x' : Exec} {e e' : JournalEntry}
variable {fx : Effects} {id : String} {kind : EventKind} {es : List JournalEntry}

def Settled (c : Core) (id : String) (kind : EventKind) : Prop :=
  match kind with
  | .registerTask task .. => ∃ t, c.tasks[task]? = some t
  | .addDependency producer consumer => c.graph.Edge producer consumer
  | .heartbeat task generation beat => ∃ t, c.tasks[task]? = some t ∧
      (generation < t.generation ∨ t.generation = generation ∧ t.state ≠ .blocked ∧ beat ≤ t.lastBeat)
  | .tick | .auditRevoke _ => True
  | kind => ∀ task generation, generationScope kind = some (task, generation) → ∃ t, c.tasks[task]? = some t ∧
      (generation < t.generation ∨ t.generation = generation ∧ id ∈ c.seen.bucket task generation)

def redeliverable : EventKind → Bool
  | .tick | .auditRevoke _ => false
  | _ => true

theorem settled_bound {task : String} {generation : UInt64} (hscope : generationScope kind = some (task, generation)) :
    c.Settled id kind ↔ ∃ t, c.tasks[task]? = some t ∧
      (generation < t.generation ∨ t.generation = generation ∧ id ∈ c.seen.bucket task generation) := by
  cases kind with
  | registerTask task' resources producers => exact nomatch hscope
  | addDependency producer consumer => exact nomatch hscope
  | heartbeat task' generation' beat => exact nomatch hscope
  | auditRevoke revocations => exact nomatch hscope
  | tick => exact nomatch hscope
  | _ =>
    simp only [Settled]
    constructor
    · exact fun h => h task generation hscope
    · intro h task' generation' hscope'
      obtain ⟨rfl, rfl⟩ := Prod.mk.inj (Option.some.inj (hscope.symm.trans hscope'))
      exact h

/-! ## Refusal -/

theorem Settled.refused (h : c.Settled id kind) (hkind : redeliverable kind = true) (hg : c.Good) (hs : c.seen.Sound)
    (hid : e.id = id) (hek : e.kind = kind) : ∀ r, apply cfg c dg e ≠ .ok r := by
  rintro ⟨c', fx⟩ happ
  obtain ⟨-, hnew, -, x, x', hx, -, -, -⟩ := apply_ok happ
  have hgood : Core.Good { c with lastAt := e.now } := hg.congr rfl rfl rfl
  subst hid hek
  by_cases hscope : ∃ tg, generationScope e.kind = some tg
  · obtain ⟨⟨task, generation⟩, hscope⟩ := hscope
    obtain ⟨t, ht, hleft⟩ := (settled_bound hscope).1 h
    obtain ⟨t', ht', hgen⟩ := applyKind_scope hx hscope
    obtain rfl := Option.some.inj (ht.symm.trans ht')
    rcases hleft with hlt | ⟨heq, hmem⟩
    · rcases hgen with hgen | ⟨-, hgen⟩
      · exact UInt64.lt_irrefl _ (hgen ▸ hlt)
      · exact UInt64.lt_asymm hlt hgen
    · exact hnew ((hs.known e.id).2 (.inr ⟨task, generation, hmem⟩))
  · cases hk : e.kind with
    | registerTask task resources producers =>
      rw [hk] at h hx
      obtain ⟨t, ht⟩ := h
      obtain ⟨-, hnone, -⟩ := onRegisterTask_new hgood hx
      cases ht.symm.trans hnone
    | addDependency producer consumer =>
      rw [hk] at h hx
      have hx' : onAddDependency { c with lastAt := e.now } producer consumer = .ok x := hx
      unfold onAddDependency at hx'
      simp only [bind_ok, mapError_ok, pure_ok] at hx'
      obtain ⟨_, hcheck, _⟩ := hx'
      exact (DependencyGraph.checkEdge_ok hg.graph hcheck).2.2.2.1 h
    | heartbeat task generation beat =>
      rw [hk] at h hx
      obtain ⟨t, ht, hleft⟩ := h
      obtain ⟨t', ht', hgen, hst, hlt, -⟩ := onHeartbeat_beat hx
      obtain rfl := Option.some.inj (ht.symm.trans ht')
      rcases hleft with hgt | ⟨-, -, hle⟩
      · exact UInt64.lt_irrefl _ (hgen ▸ hgt)
      · exact UInt64.lt_irrefl _ (UInt64.lt_of_lt_of_le hlt hle)
    | auditRevoke revocations =>
      rw [hk] at hkind
      cases hkind
    | tick =>
      rw [hk] at hkind
      cases hkind
    | _ =>
      rw [hk] at hscope
      exact hscope ⟨_, rfl⟩

/-! ## What an event leaves -/

/-- What the pump leaves of a task the event left at `t`. -/
theorem apply_beats (hg : c.Good) (hno : NoWrap c e) (h : apply cfg c dg e = .ok (c', fx)) {u : String} {t t' : TaskEntry}
    (ht : c.tasks[u]? = some t) (ht' : c'.tasks[u]? = some t') (hsame : t'.generation = t.generation)
    (hst : t.state ≠ .blocked) : t'.state ≠ .blocked ∧ t.lastBeat ≤ t'.lastBeat := by
  obtain ⟨-, -, -, x, x', hx, hx', rfl, rfl⟩ := apply_ok h
  have hgood : Core.Good { c with lastAt := e.now } := hg.congr rfl rfl rfl
  -- before the pump: the beat is not lower, and the task did not fall back to waiting
  have hbefore : ∃ t₁, x.core.tasks[u]? = some t₁ ∧ t.lastBeat ≤ t₁.lastBeat := by
    by_cases hbind : ∃ key task g, e.kind = .bindApproval key task g
    · obtain ⟨key, task, g, hk⟩ := hbind
      rw [hk] at hx
      obtain ⟨-, -, -, -, -, rfl⟩ := onBindApproval_ok hx
      exact ⟨t, ht, UInt64.le_refl _⟩
    · exact (applyKind_frame hgood (fun key task g hk => hbind ⟨key, task, g, hk⟩) hx).beats u t ht
  obtain ⟨t₁, ht₁, hbeat⟩ := hbefore
  obtain ⟨s₁, hs₁, hprog⟩ := applyKind_kept (c := { c with lastAt := e.now }) Net.progress_kept hgood hno hx u t.status
    (net_status_of ht)
  obtain rfl := Option.some.inj ((net_status_of ht₁).symm.trans hs₁)
  obtain ⟨acts, hh, -, -⟩ := applyKind_spec hgood hx
  obtain ⟨y, ds, hy, hp⟩ := Exec.pump_spec cfg e.now hh.good
  obtain rfl := Except.ok.inj (hx'.symm.trans hy)
  obtain ⟨s', hs', hgen, -⟩ := hp.steps.started (net_status_of ht₁)
  obtain rfl := Option.some.inj ((net_status_of (c := x'.core) ht').symm.trans hs')
  have hst₁ : t₁.state ≠ .blocked := by
    rcases hprog with ⟨-, hb⟩ | hlt
    · exact fun hblocked => hst (hb hblocked)
    · have heq : t₁.status.generation = t.status.generation := hgen.symm.trans hsame
      rw [heq] at hlt
      exact absurd hlt (UInt64.lt_irrefl _)
  obtain ⟨t'', ht'', hs'', hb''⟩ := (untouched_driven cfg).pumpLoop hx' u t₁ ht₁ hst₁
  obtain rfl := Option.some.inj (ht'.symm.trans ht'')
  exact ⟨by rw [hs'']; exact hst₁, by rw [hb'']; exact hbeat⟩

theorem Settled.apply (h : c.Settled id kind) (hg : c.Good) (hno : NoWrap c e)
    (happ : Core.apply cfg c dg e = .ok (c', fx)) : c'.Settled id kind := by
  by_cases hscope : ∃ tg, generationScope kind = some tg
  · obtain ⟨⟨task, generation⟩, hscope⟩ := hscope
    obtain ⟨t, ht, hleft⟩ := (settled_bound hscope).1 h
    obtain ⟨t', ht', hadv⟩ := apply_advance hg hno happ ht
    refine (settled_bound hscope).2 ⟨t', ht', ?_⟩
    have hle : t.generation ≤ t'.generation := hadv.1.le
    rcases hleft with hlt | ⟨rfl, hmem⟩
    · exact .inl (UInt64.lt_of_lt_of_le hlt hle)
    · by_cases hlt : t.generation < t'.generation
      · exact .inl hlt
      · refine .inr ⟨UInt64.le_antisymm (UInt64.not_lt.1 hlt) hle, ?_⟩
        rw [apply_bucket hg happ, ht']
        simp only [Option.map_some, Option.any_some, decide_eq_true_eq, if_neg hlt]
        split_ifs
        · exact List.mem_append_left _ hmem
        · exact hmem
  · cases kind with
    | registerTask task resources producers =>
      obtain ⟨t, ht⟩ := h
      obtain ⟨t', ht', -⟩ := apply_advance hg hno happ ht
      exact ⟨t', ht'⟩
    | addDependency producer consumer =>
      obtain ⟨-, acts, -, -, hsteps⟩ := apply_spec hg happ
      exact hsteps.edge_mono (n := c.net) h
    | heartbeat task generation beat =>
      obtain ⟨t, ht, hleft⟩ := h
      obtain ⟨t', ht', hadv⟩ := apply_advance hg hno happ ht
      have hle : t.generation ≤ t'.generation := hadv.1.le
      refine ⟨t', ht', ?_⟩
      rcases hleft with hlt | ⟨rfl, hst, hbeat⟩
      · exact .inl (UInt64.lt_of_lt_of_le hlt hle)
      · by_cases hlt : t.generation < t'.generation
        · exact .inl hlt
        · have hsame : t'.generation = t.generation := UInt64.le_antisymm (UInt64.not_lt.1 hlt) hle
          obtain ⟨hst', hbeat'⟩ := apply_beats hg hno happ ht ht' hsame hst
          exact .inr ⟨hsame, hst', UInt64.le_trans hbeat hbeat'⟩
    | auditRevoke revocations => trivial
    | tick => trivial
    | _ => exact absurd ⟨_, rfl⟩ hscope

theorem apply_settles_bound {task : String} {generation : UInt64} (hg : c.Good) (hno : NoWrap c e)
    (h : apply cfg c dg e = .ok (c', fx)) (hscope : generationScope e.kind = some (task, generation)) :
    c'.Settled e.id e.kind := by
  have hgood : Core.Good { c with lastAt := e.now } := hg.congr rfl rfl rfl
  have hbucket := apply_bucket (u := task) (g := generation) hg h
  rw [if_pos hscope] at hbucket
  -- at its own generation the event is remembered
  have hleft : ∀ t', c'.tasks[task]? = some t' → generation ≤ t'.generation → c'.Settled e.id e.kind := by
    intro t' ht' hle
    refine (settled_bound hscope).2 ⟨t', ht', ?_⟩
    by_cases hlt : generation < t'.generation
    · exact .inl hlt
    · refine .inr ⟨UInt64.le_antisymm (UInt64.not_lt.1 hlt) hle, ?_⟩
      rw [hbucket, ht']
      simp [hlt]
  obtain ⟨x, x', hx, hc', -, -, -, hpump⟩ := apply_phases hg h
  obtain ⟨t, ht, hgen | ⟨hk, -⟩⟩ := applyKind_scope hx hscope
  · obtain ⟨t', ht', hadv⟩ := apply_advance hg hno h ht
    exact hleft t' ht' (hgen ▸ hadv.1.le)
  · rw [hk] at hx
    obtain ⟨t, t₁, -, ht₁, -, hgen⟩ := onNewGeneration_begun hgood hx
    obtain ⟨t', ht', hgen', -⟩ := hpump task t₁ ht₁
    exact hleft t' ht' (UInt64.le_of_eq (hgen'.trans hgen).symm)

theorem apply_settles (hg : c.Good) (hno : NoWrap c e) (h : apply cfg c dg e = .ok (c', fx)) :
    c'.Settled e.id e.kind := by
  by_cases hscope : ∃ tg, generationScope e.kind = some tg
  · obtain ⟨⟨task, generation⟩, hscope⟩ := hscope
    exact apply_settles_bound hg hno h hscope
  · have hgood : Core.Good { c with lastAt := e.now } := hg.congr rfl rfl rfl
    obtain ⟨-, -, -, x, x', hx, hx', rfl, rfl⟩ := apply_ok h
    obtain ⟨acts, hh, -, -⟩ := applyKind_spec hgood hx
    obtain ⟨y, ds, hy, hp⟩ := Exec.pump_spec cfg e.now hh.good
    obtain rfl := Except.ok.inj (hx'.symm.trans hy)
    cases hk : e.kind with
    | registerTask task resources producers =>
      rw [hk] at hx
      obtain ⟨t₁, ht₁⟩ : ∃ t₁, x.core.tasks[task]? = some t₁ := by
        obtain ⟨-, -, g, rfl⟩ := onRegisterTask_new hgood hx
        exact ⟨TaskEntry.new resources e.now, by rw [Table.get_insert, if_pos rfl]⟩
      obtain ⟨s', hs', -⟩ := hp.steps.started (net_status_of ht₁)
      obtain ⟨t', ht', -⟩ := net_status.1 hs'
      exact ⟨t', ht'⟩
    | addDependency producer consumer =>
      rw [hk] at hx
      have hdep : onAddDependency { c with lastAt := e.now } producer consumer = .ok x := hx
      unfold onAddDependency at hdep
      simp only [bind_ok, mapError_ok, pure_ok] at hdep
      obtain ⟨_, _, _, _, g, hedge, rfl⟩ := hdep
      obtain ⟨-, -, hedges, -⟩ := DependencyGraph.addEdge_spec hg.graph hedge
      show x'.core.graph.Edge producer consumer
      rw [hp.graph, dequeue_graph]
      exact (hedges producer consumer).2 (Or.inr ⟨rfl, rfl⟩)
    | heartbeat task generation beat =>
      rw [hk] at hx
      obtain ⟨t₁, ht₁, hgen, hst, hbeat⟩ : ∃ t₁, x.core.tasks[task]? = some t₁ ∧ t₁.generation = generation ∧
          t₁.state = .provisional ∧ t₁.lastBeat = beat := by
        obtain ⟨t, -, hgen, hst, -, rfl⟩ := onHeartbeat_beat hx
        exact ⟨_, put_tasks.trans (if_pos rfl), hgen, hst, rfl⟩
      obtain ⟨t', ht', hst', hb'⟩ := (untouched_driven cfg).pumpLoop hx' task t₁ ht₁ (by rw [hst]; decide)
      obtain ⟨s', hs', hgen', -⟩ := hp.steps.started (net_status_of ht₁)
      obtain rfl := Option.some.inj ((net_status_of ht').symm.trans hs')
      refine ⟨t', ht', .inr ⟨hgen'.trans hgen, ?_, ?_⟩⟩
      · rw [hst', hst]
        decide
      · rw [hb', hbeat]
        exact UInt64.le_refl _
    | auditRevoke revocations => trivial
    | tick => trivial
    | _ =>
      rw [hk] at hscope
      exact absurd ⟨_, rfl⟩ hscope

/-! ## Runs -/

theorem apply_seenSound (hg : c.Good) (hs : c.seen.Sound) (h : apply cfg c dg e = .ok (c', fx)) : c'.seen.Sound := by
  obtain ⟨-, -, -, -, hid, -, hseen, -⟩ := apply_phases hg h
  rw [hseen]
  exact (hs.record hid).prune

theorem replay_cons : replay cfg dg (e :: es) c = .ok c' ↔
    ∃ c₁ fx, apply cfg c dg e = .ok (c₁, fx) ∧ replay cfg dg es c₁ = .ok c' := by
  unfold replay
  rw [List.foldlM_cons, bind_ok]
  simp only [bind_ok, pure_ok]
  constructor
  · rintro ⟨c₁, ⟨⟨c₂, fx⟩, happ, rfl⟩, h⟩
    exact ⟨c₂, fx, happ, h⟩
  · rintro ⟨c₁, fx, happ, h⟩
    exact ⟨c₁, ⟨(c₁, fx), happ, rfl⟩, h⟩

theorem Settled.replay (h : c.Settled id kind) (hg : c.Good) (hs : c.seen.Sound) (hno : NoWraps cfg dg es c)
    (hrun : Core.replay cfg dg es c = .ok c') : c'.Settled id kind ∧ c'.Good ∧ c'.seen.Sound := by
  induction es generalizing c with
  | nil =>
    obtain rfl := Except.ok.inj hrun
    exact ⟨h, hg, hs⟩
  | cons e es ih =>
    obtain ⟨c₁, fx, happ, hrest⟩ := replay_cons.1 hrun
    exact ih (h.apply hg hno.1 happ) (apply_spec hg happ).1 (apply_seenSound hg hs happ) (hno.2 c₁ fx happ) hrest

theorem replay_settled {es' : List JournalEntry} (hg : c.Good) (hs : c.seen.Sound)
    (hno : NoWraps cfg dg (es ++ e :: es') c) (hrun : Core.replay cfg dg (es ++ e :: es') c = .ok c') :
    c'.Settled e.id e.kind ∧ c'.Good ∧ c'.seen.Sound := by
  induction es generalizing c with
  | nil =>
    obtain ⟨c₁, fx, happ, hrest⟩ := replay_cons.1 hrun
    exact (apply_settles hg hno.1 happ).replay (apply_spec hg happ).1 (apply_seenSound hg hs happ) (hno.2 c₁ fx happ)
      hrest
  | cons e₀ es ih =>
    obtain ⟨c₁, fx, happ, hrest⟩ := replay_cons.1 hrun
    exact ih (apply_spec hg happ).1 (apply_seenSound hg hs happ) (hno.2 c₁ fx happ) hrest

end Core

/-! ## The scheduler -/

namespace Scheduler

variable {dg : EventKind → String} {s : Scheduler} {event : Event} {clock : UInt64} {proofs : Except SchedError Unit}

def Idle (answer : Except SchedError Delivered) : Prop := answer = .ok .duplicate ∨ ∃ error, answer = .error error

theorem prepare_refused (h : ∀ e : JournalEntry, e.id = event.id → e.kind = event.kind → ∀ r, s.core.apply s.cfg dg e ≠ .ok r)
    (p : JournalEntry × Core × Effects) : s.prepare dg event clock proofs ≠ .ok (some p) := by
  intro hp
  unfold prepare at hp
  cases hid : checkIdentifier "event id" event.id with
  | error e => simp [hid] at hp
  | ok _ =>
    simp only [hid] at hp
    cases hseen : s.core.seen.ids[event.id]? with
    | some prev =>
      simp only [hseen] at hp
      split_ifs at hp
      exact nomatch hp
    | none =>
      simp only [hseen, bind_ok] at hp
      obtain ⟨-, -, ⟨c', fx⟩, happ, -⟩ := hp
      exact h _ rfl rfl _ happ

theorem deliverUnchecked_refused (codec : LineCodec JournalEntry)
    (h : ∀ p, s.prepare dg event clock proofs ≠ .ok (some p)) :
    ∃ answer, s.deliverUnchecked codec dg event clock proofs = pure (answer, s) ∧ Idle answer := by
  unfold deliverUnchecked
  cases hp : s.prepare dg event clock proofs with
  | error e => exact ⟨_, rfl, .inr ⟨e, rfl⟩⟩
  | ok taken =>
    cases taken with
    | none => exact ⟨_, rfl, .inl rfl⟩
    | some p => exact absurd hp (h p)

/-- **Redelivery is harmless** after any accepted history in which no event adds one to the last generation: an event of
the history, other than a tick and those of an audit, is answered as a duplicate or refused, and the scheduler is as
before. The scheduler is any one whose core is what the history makes: the process that applied it, or a later one that
replayed it. -/
theorem redelivery_harmless (cfg : ProvisionalConfig) (dg : EventKind → String) (codec : LineCodec JournalEntry)
    (es es' : List JournalEntry) (e : JournalEntry) (s : Scheduler) (hkind : Core.redeliverable e.kind = true)
    (hno : Core.NoWraps cfg dg (es ++ e :: es') {})
    (hrun : Core.replay cfg dg (es ++ e :: es') {} = .ok s.core) (clock : UInt64) (proofs : Except SchedError Unit) :
    (∃ answer, s.deliverUnchecked codec dg ⟨e.id, e.kind⟩ clock proofs = pure (answer, s) ∧ Idle answer) ∧
    ∃ answer, s.deliver codec dg ⟨e.id, e.kind⟩ clock proofs = pure (answer, s) ∧ Idle answer := by
  obtain ⟨hset, hg, hsound⟩ := Core.replay_settled Core.good_empty Seen.sound_empty hno hrun
  have hrefused : ∀ e' : JournalEntry, e'.id = e.id → e'.kind = e.kind → ∀ r, s.core.apply s.cfg dg e' ≠ .ok r :=
    fun e' hid hk => hset.refused hkind hg hsound hid hk
  have hprep : ∀ p, s.prepare dg ⟨e.id, e.kind⟩ clock proofs ≠ .ok (some p) := prepare_refused hrefused
  have hun := deliverUnchecked_refused codec hprep
  refine ⟨hun, ?_⟩
  unfold deliver
  split_ifs
  · exact ⟨_, rfl, .inr ⟨_, rfl⟩⟩
  · exact ⟨_, rfl, .inr ⟨_, rfl⟩⟩
  · exact hun

def forgetful : ProvisionalConfig := { dedupWindow := 1 }

def beaten : JournalEntry := ⟨2, "e2", 0, .heartbeat "t" 1 7⟩

theorem redelivery_harmless_forgetful :
    ∃ c, Core.replay forgetful (fun _ => "")
        ([⟨1, "e1", 0, .registerTask "t" ⟨1, 1⟩ []⟩] ++ beaten :: [⟨3, "e3", 0, .tick⟩]) {} = .ok c ∧
      beaten.id ∉ c.seen.ids ∧
      ∀ (codec : LineCodec JournalEntry) (journal : Journal), ∃ answer,
        Scheduler.deliver codec (fun _ => "") ⟨forgetful, 0, 0, c, journal⟩ ⟨beaten.id, beaten.kind⟩ 0 (.ok ()) =
          pure (answer, ⟨forgetful, 0, 0, c, journal⟩) ∧ Idle answer := by
  have heval : (Core.replay forgetful (fun _ => "")
      ([⟨1, "e1", 0, .registerTask "t" ⟨1, 1⟩ []⟩] ++ beaten :: [⟨3, "e3", 0, .tick⟩]) {}).toOption.map
        (·.seen.ids.contains beaten.id) = some false := by decide +kernel
  obtain ⟨c, hc, hgone⟩ := Option.map_eq_some_iff.1 heval
  refine ⟨c, toOption_some.1 hc, fun hm => ?_, fun codec journal => ?_⟩
  · rw [ExtTreeMap.mem_iff_contains, hgone] at hm
    exact nomatch hm
  exact (redelivery_harmless forgetful (fun _ => "") codec _ _ beaten ⟨forgetful, 0, 0, c, journal⟩ rfl
    (by decide +kernel) (toOption_some.1 hc) 0 (.ok ())).2

/-- A task shows its interface, is taken to the last generation, past it and to generation 1 again. -/
def shownOnce : JournalEntry := ⟨2, "e2", 0, .interfacePublished "t" 1 ⟨"r1", "c1", "d1"⟩⟩

def aroundOnce : List JournalEntry :=
  [⟨3, "e3", 0, .newGeneration "t" maxGeneration⟩, ⟨4, "e4", 0, .revoke "t" maxGeneration "stale"⟩,
   ⟨5, "e5", 0, .newGeneration "t" 1⟩]

/-- **A wrapped generation lets an event in again**: its id went with its generation, and the generation has come back. -/
theorem redelivery_accepted :
    ¬ ∀ (cfg : ProvisionalConfig) (dg : EventKind → String) (es es' : List JournalEntry) (e : JournalEntry)
        (s : Scheduler), Core.redeliverable e.kind = true → s.cfg = cfg →
        Core.replay cfg dg (es ++ e :: es') {} = .ok s.core → ∀ (clock : UInt64) (proofs : Except SchedError Unit) (p : _),
        s.prepare dg ⟨e.id, e.kind⟩ clock proofs ≠ .ok (some p) := by
  intro h
  have heval : (Core.replay {} (fun _ => "")
      ([⟨1, "e1", 0, .registerTask "t" ⟨1, 1⟩ []⟩] ++ shownOnce :: aroundOnce) {}).toOption.bind (fun c =>
        ((Scheduler.prepare (fun _ => "") ⟨{}, 0, 0, c, ⟨0, false⟩⟩ ⟨shownOnce.id, shownOnce.kind⟩ 0
          (.ok ())).toOption.map fun p => p.isSome)) = some true := by decide +kernel
  obtain ⟨c, hc, heval⟩ := Option.bind_eq_some_iff.1 heval
  obtain ⟨p, hp, hsome⟩ := Option.map_eq_some_iff.1 heval
  obtain ⟨q, rfl⟩ := Option.isSome_iff_exists.1 hsome
  exact h {} (fun _ => "") _ _ shownOnce ⟨{}, 0, 0, c, ⟨0, false⟩⟩ rfl rfl (toOption_some.1 hc) 0 (.ok ()) q
    (toOption_some.1 hp)

end Scheduler

end SovereignCore.Harness
