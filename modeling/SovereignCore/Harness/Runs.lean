import SovereignCore.Harness.Pump

/-!
# Binding freshness and the commit freeze

What holds in every state the core reaches by accepted events, under any configuration and from any mix of events,
claims and times.

* `replay` : a journal applied to a core, as `Scheduler::open` does it;
* `replay_sound` : every reachable core is well-formed and its net is sound;
* `bindings_fresh` : a task that runs, waits for proof or commits is bound to what its producers offer now;
* `commit_frozen` : between the start of a commit and its outcome nothing it was checked against changes.
-/

namespace SovereignCore.Harness

open Std Result

namespace Core

def replay (cfg : ProvisionalConfig) (payloadDigest : EventKind → String) (entries : List JournalEntry) (c : Core) :
    Except SchedError Core :=
  entries.foldlM (fun c e => do
    let r ← apply cfg c payloadDigest e
    return r.1) c

variable {cfg : ProvisionalConfig} {dg : EventKind → String} {c c' : Core} {e : JournalEntry} {es : List JournalEntry}

theorem replay_inv {P : Core → Prop} (hstep : ∀ e ∈ es, ∀ c c' fx, P c → apply cfg c dg e = .ok (c', fx) → P c')
    (h0 : P c) (h : replay cfg dg es c = .ok c') : P c' := by
  refine foldlM_inv (fun e he c c' hc hstep' => ?_) h0 h
  simp only [bind_ok, pure_ok] at hstep'
  obtain ⟨⟨c1, fx⟩, happ, rfl⟩ := hstep'
  exact hstep e he c c1 fx hc happ

theorem apply_sound {fx : Effects} (hc : c.Good ∧ Net.Sound cfg.enabled c.net)
    (h : apply cfg c dg e = .ok (c', fx)) : c'.Good ∧ Net.Sound cfg.enabled c'.net := by
  obtain ⟨hgood, acts, -, -, hsteps⟩ := apply_spec hc.1 h
  exact ⟨hgood, hsteps.sound hc.2⟩

theorem empty_net : Core.net {} = ⟨fun _ _ => False, fun _ => none⟩ := by
  unfold net
  congr 1
  funext p u
  exact propext (iff_of_false (by simp [DependencyGraph.Edge, DependencyGraph.consumersOf]) id)

theorem replay_sound (h : replay cfg dg es {} = .ok c) : c.Good ∧ Net.Sound cfg.enabled c.net :=
  replay_inv (fun _ _ _ _ _ hc happ => apply_sound hc happ)
    ⟨good_empty, by rw [empty_net]; exact Net.sound_empty⟩ h

/-! ## Freshness -/

theorem owes_entries {p id : String} {t : TaskEntry} (hc : c.Good ∧ Net.Sound cfg.enabled c.net)
    (ht : c.tasks[id]? = some t) (hp : p ∈ c.graph.producersOf id) :
    ∃ pt, c.tasks[p]? = some pt ∧ t.status.Owes cfg.enabled p pt.status := by
  have hedge : c.graph.Edge p id := (hc.1.graph.mirror p id).1 hp
  obtain ⟨⟨pt, hpt⟩, -⟩ := hc.1.edge_known hedge
  exact ⟨pt, hpt, hc.2.owes p id _ _ hedge (net_status_of hpt) (net_status_of ht)⟩

/-- **Binding freshness.** In every reachable state, each task that is running, awaiting proof, committable or
committing is bound to every producer at the producer's current generation and accepted claim; the producers of a
committable or committing task are final; and without provisional starts so are those of every active task. -/
theorem bindings_fresh (cfg : ProvisionalConfig) (dg : EventKind → String) (es : List JournalEntry) (c : Core)
    (h : replay cfg dg es {} = .ok c) (id : String) (t : TaskEntry) (ht : c.tasks[id]? = some t) (p : String)
    (hp : p ∈ c.graph.producersOf id) :
    ∃ pt, c.tasks[p]? = some pt ∧
      (t.state = .provisional ∨ t.state = .awaitingFinalProof ∨ t.state = .committable ∨ t.state = .committing →
        ∃ b, t.bindings[p]? = some b ∧ b.generation = pt.generation ∧ slot b.level pt = some b.claim) ∧
      (t.state = .committable ∨ t.state = .committing → pt.finalReady = true) ∧
      (cfg.enabled = false → t.state.isActive = true → pt.finalReady = true) := by
  obtain ⟨pt, hpt, ho⟩ := owes_entries (replay_sound h) ht hp
  refine ⟨pt, hpt, fun hs => ?_, ho.final, ho.plain⟩
  have he : t.status.Engaged := by
    unfold Status.Engaged
    show t.state.isActive = true ∨ t.state = .committing
    rcases hs with hs | hs | hs | hs
    · exact Or.inl (by simp [hs, TaskState.isActive])
    · exact Or.inl (by simp [hs, TaskState.isActive])
    · exact Or.inl (by simp [hs, TaskState.isActive])
    · exact Or.inr hs
  obtain ⟨b, hb, hg, hc⟩ := ho.bound he
  refine ⟨b, hb, hg, ?_⟩
  cases hl : b.level with
  | interface => rw [hl] at hc; exact hc
  | final => rw [hl] at hc; exact hc

/-- A consumer that starts on a producer's interface: producer, interface, consumer. -/
def earlyStart : List JournalEntry :=
  [⟨1, "e1", 0, .registerTask "p" ⟨1, 1⟩ []⟩,
   ⟨2, "e2", 1, .interfacePublished "p" 1 ⟨"r1", "c1", "d1"⟩⟩,
   ⟨3, "e3", 2, .registerTask "t" ⟨1, 1⟩ ["p"]⟩]

theorem bindings_fresh_earlyStart :
    ∃ c t pt, replay { enabled := true } (fun _ => "") earlyStart {} = .ok c ∧ c.tasks["t"]? = some t ∧
      t.state = .provisional ∧ c.tasks["p"]? = some pt ∧
      ∃ b, t.bindings["p"]? = some b ∧ b.generation = pt.generation ∧ slot b.level pt = some b.claim := by
  have heval : (replay { enabled := true } (fun _ => "") earlyStart {}).toOption.map (fun c =>
      (c.tasks["t"]?.map (·.state), c.graph.producersOf "t")) = some (some .provisional, ["p"]) := by
    decide +kernel
  obtain ⟨c, hc, hval⟩ := Option.map_eq_some_iff.1 heval
  obtain ⟨hst, hprod⟩ := Prod.mk.inj hval
  obtain ⟨t, ht, hs⟩ := Option.map_eq_some_iff.1 hst
  have hrun : replay { enabled := true } (fun _ => "") earlyStart {} = .ok c := toOption_some.1 hc
  obtain ⟨pt, hpt, hb, -, -⟩ := bindings_fresh _ _ _ c hrun "t" t ht "p" (by rw [hprod]; simp)
  exact ⟨c, t, pt, hrun, ht, hs, hpt, hb (Or.inl hs)⟩

/-! ## The commit freeze -/

theorem endCommit_event {task : String} {done : Bool} {now : UInt64} {kind : EventKind}
    (h : EventActs c now kind (.endCommit task done)) : ∃ g o, kind = .commitOutcome task g o := by
  cases kind with
  | commitOutcome t g o =>
    simp only [EventActs, Net.Act.endCommit.injEq] at h
    exact ⟨g, o, by rw [h.1]⟩
  | interfacePublished t g claim =>
    simp only [EventActs] at h
    split at h <;> simp at h
  | completionVerified t g claim =>
    simp only [EventActs] at h
    split at h <;> simp at h
  | _ => simp [EventActs] at h

/-- A run without an outcome for `task` leaves its commit frozen. -/
theorem replay_frozen {task : String} (hc : c.Good ∧ Net.Sound cfg.enabled c.net) (hcom : c.net.Committing task)
    (hno : ∀ e ∈ es, ∀ g o, e.kind ≠ .commitOutcome task g o) (h : replay cfg dg es c = .ok c') :
    Net.Frozen c.net c'.net task ∧ c'.Good := by
  have hinv := replay_inv (P := fun c' => (c'.Good ∧ Net.Sound cfg.enabled c'.net) ∧ Net.Frozen c.net c'.net task)
    (fun e he c1 c2 fx hc1 happ => ?_) ⟨hc, Net.Frozen.refl hc.2⟩ h
  · exact ⟨hinv.2, hinv.1.1⟩
  · obtain ⟨hc1, hf⟩ := hc1
    refine ⟨apply_sound hc1 happ, ?_⟩
    obtain ⟨-, acts, hacts, -, hsteps⟩ := apply_spec hc1.1 happ
    obtain ⟨s, hs, hst⟩ := hcom
    refine hf.trans (hsteps.frozen hc1.2 ⟨s, hf.task.trans hs, hst⟩ fun done hm => ?_)
    rcases List.mem_append.1 hm with hm | hm
    · obtain ⟨g, o, hk⟩ := endCommit_event (hacts _ hm)
      exact hno e he g o hk
    · simp at hm

/-- What an accepted `beginCommit` leaves behind: the frozen task, and producers with the named completions. -/
theorem beginCommit_spec {fx : Effects} {task : String} {g : UInt64} {completion : ProofClaim}
    {producers : ExtTreeMap String ProofClaim} (hc : c.Good ∧ Net.Sound cfg.enabled c.net)
    (hk : e.kind = .beginCommit task g completion producers) (h : apply cfg c dg e = .ok (c', fx)) :
    (∃ t, c'.tasks[task]? = some t ∧ t.state = .committing ∧ t.generation = g ∧ t.completion = some completion ∧
      t.commit = some { completion, producers, beganAt := e.now }) ∧
    ∀ p, c'.graph.Edge p task → ∃ claim pt, producers[p]? = some claim ∧ c'.tasks[p]? = some pt ∧
      pt.state.isFinal = true ∧ pt.completion = some claim := by
  obtain ⟨-, -, -, x, x', hx, hx', rfl, rfl⟩ := apply_ok h
  have hg : Core.Good { c with lastAt := e.now } := hc.1.congr rfl rfl rfl
  rw [hk] at hx
  have hspec := onBeginCommit_spec cfg.enabled hg hx
  obtain ⟨t, ht, hgen, hst, -, hcomp, -, hnamed, hfrozen, rfl⟩ := onBeginCommit_ok hx
  obtain ⟨y, ds, hy, hp⟩ := Exec.pump_spec cfg e.now hspec.good
  rw [hx'] at hy
  obtain rfl := Except.ok.inj hy
  -- the pump only dispatches, so the new commit is frozen already
  set c1 : Core := put { c with lastAt := e.now } task _ _ with hc1
  have hnet : c1.net = c.net.set task { t.status with
      state := .committing, commit := some { completion, producers, beganAt := e.now } } := by
    rw [hc1, net_put]
    rfl
  have hfr : Net.Frozen c1.net x'.core.net task := by
    refine hp.steps.frozen (hspec.steps.sound hc.2) ?_ (by simp)
    rw [hnet]
    exact ⟨_, by rw [Net.set_status, if_pos rfl], rfl⟩
  constructor
  · have htask := hfr.task
    rw [hnet, Net.set_status, if_pos rfl] at htask
    obtain ⟨t', ht', hs'⟩ := net_status.1 htask
    exact ⟨t', ht', (congrArg Status.state hs'), (congrArg Status.generation hs').trans hgen,
      (congrArg Status.completion hs').trans hcomp, congrArg Status.commit hs'⟩
  · intro p hedge
    have hedge0 : c1.graph.Edge p task := (hfr.edges p).1 hedge
    have hpne : p ≠ task := by
      rintro rfl
      exact hg.graph.acyclic p (Relation.TransGen.single hedge0)
    obtain ⟨ps, ps', hps, hps', hst', -, hcl'⟩ := hfr.inputs p hedge0
    obtain ⟨claim, hclaim⟩ := Table.mem_iff.1 (hnamed p ((hg.graph.mirror p task).2 hedge0))
    have hcheck := hfrozen (p, claim) (ExtTreeMap.mem_toList_iff_getElem?_eq_some.2 hclaim)
    unfold checkFrozen at hcheck
    simp only [bind_ok, task_ok, guard_ok] at hcheck
    obtain ⟨pt, hpt, hok, -⟩ := hcheck
    have hpst : pt.state = .committable ∨ pt.state = .committed := by
      by_contra hn
      exact hok (Or.inl hn)
    have hpcl : pt.completion = some claim := by
      by_contra hn
      exact hok (Or.inr hn)
    have hps0 : c.net.status p = some ps := by
      rw [hnet, Net.set_status, if_neg hpne] at hps
      exact hps
    obtain rfl : pt.status = ps := Option.some.inj ((net_status_of hpt).symm.trans hps0)
    obtain ⟨pt', hpt', rfl⟩ := net_status.1 hps'
    refine ⟨claim, pt', hclaim, hpt', ?_, hcl'.trans hpcl⟩
    rw [show pt'.state = pt.state from hst']
    rcases hpst with hpst | hpst
    · simp [hpst, TaskState.isFinal]
    · simp [hpst, TaskState.isFinal]

/-- **The commit freeze.** From an accepted `beginCommit` on, through any accepted events other than the task's own
outcome, the task keeps its generation, completion and frozen inputs, and each of its producers keeps its final state,
its generation and the completion the inputs name; and no reachable state has two commits one of which is in the reach
of the other. -/
theorem commit_frozen (cfg : ProvisionalConfig) (dg : EventKind → String) (es : List JournalEntry) (c₀ : Core)
    (h₀ : replay cfg dg es {} = .ok c₀) :
    (∀ (e : JournalEntry) (task : String) (g : UInt64) (completion : ProofClaim)
        (producers : ExtTreeMap String ProofClaim) (c₁ : Core) (fx : Effects) (es' : List JournalEntry) (c₂ : Core),
      e.kind = .beginCommit task g completion producers → apply cfg c₀ dg e = .ok (c₁, fx) →
      (∀ e' ∈ es', ∀ g' o, e'.kind ≠ .commitOutcome task g' o) → replay cfg dg es' c₁ = .ok c₂ →
      (∃ t, c₂.tasks[task]? = some t ∧ t.state = .committing ∧ t.generation = g ∧ t.completion = some completion ∧
        t.commit = some { completion, producers, beganAt := e.now }) ∧
      ∀ p ∈ c₂.graph.producersOf task, ∃ claim p₁ p₂, producers[p]? = some claim ∧ c₁.tasks[p]? = some p₁ ∧
        c₂.tasks[p]? = some p₂ ∧ p₁.completion = some claim ∧ p₂.completion = some claim ∧
        p₁.state.isFinal = true ∧ p₂.state = p₁.state ∧ p₂.generation = p₁.generation) ∧
    ∀ (t u : String) (te ue : TaskEntry), c₀.tasks[t]? = some te → c₀.tasks[u]? = some ue →
      te.state = .committing → ue.state = .committing → u ∉ c₀.affected t := by
  have hc₀ := replay_sound h₀
  constructor
  · intro e task g completion producers c₁ fx es' c₂ hk happ hno hrun
    have hc₁ := apply_sound hc₀ happ
    obtain ⟨⟨t₁, ht₁, hst₁, hg₁, hcl₁, hcm₁⟩, hprod₁⟩ := beginCommit_spec hc₀ hk happ
    obtain ⟨hfr, hgood⟩ := replay_frozen hc₁ (committing_iff.2 ⟨t₁, ht₁, hst₁⟩) hno hrun
    constructor
    · have htask := hfr.task
      rw [net_status_of ht₁] at htask
      obtain ⟨t₂, ht₂, hs⟩ := net_status.1 htask
      exact ⟨t₂, ht₂, (congrArg Status.state hs).trans hst₁, (congrArg Status.generation hs).trans hg₁,
        (congrArg Status.completion hs).trans hcl₁, (congrArg Status.commit hs).trans hcm₁⟩
    · intro p hp
      have hedge : c₁.graph.Edge p task := (hfr.edges p).1 ((hgood.graph.mirror p task).1 hp)
      obtain ⟨claim, p₁, hclaim, hp₁, hfin, hcl⟩ := hprod₁ p hedge
      obtain ⟨ps, ps', hps, hps', hst', hg', hcl'⟩ := hfr.inputs p hedge
      obtain rfl : p₁.status = ps := Option.some.inj ((net_status_of hp₁).symm.trans hps)
      obtain ⟨p₂, hp₂, rfl⟩ := net_status.1 hps'
      exact ⟨claim, p₁, p₂, hclaim, hp₁, hp₂, hcl, hcl'.trans hcl, hfin, hst', hg'⟩
  · intro t u te ue hte hue hts hus hmem
    exact hc₀.2.apart t u (committing_iff.2 ⟨te, hte, hts⟩) (committing_iff.2 ⟨ue, hue, hus⟩)
      ((mem_affected hc₀.1.graph).1 hmem)

/-- A task and its producer brought to `committable`, ready for the task's commit. -/
def untilCommittable : List JournalEntry :=
  [⟨1, "e1", 0, .registerTask "p" ⟨1, 1⟩ []⟩,
   ⟨2, "e2", 0, .completionVerified "p" 1 ⟨"r1", "c1", "d1"⟩⟩,
   ⟨3, "e3", 0, .workDone "p" 1 "w1"⟩,
   ⟨4, "e4", 0, .finalize "p" 1⟩,
   ⟨5, "e5", 0, .registerTask "t" ⟨1, 1⟩ ["p"]⟩,
   ⟨6, "e6", 0, .completionVerified "t" 1 ⟨"r2", "c2", "d2"⟩⟩,
   ⟨7, "e7", 0, .workDone "t" 1 "w2"⟩,
   ⟨8, "e8", 0, .finalize "t" 1⟩]

def beginEntry : JournalEntry :=
  ⟨9, "e9", 0, .beginCommit "t" 1 ⟨"r2", "c2", "d2"⟩ ((∅ : ExtTreeMap String ProofClaim).insert "p" ⟨"r1", "c1", "d1"⟩)⟩

/-- While it runs, the producer shows the same completion again and an interface for the first time. -/
def whileCommitting : List JournalEntry :=
  [⟨10, "e10", 0, .completionVerified "p" 1 ⟨"r1", "c1", "d1"⟩⟩,
   ⟨11, "e11", 0, .interfacePublished "p" 1 ⟨"r3", "c3", "d3"⟩⟩]

theorem commit_frozen_example :
    ∃ c₀ c₁ c₂ fx, replay {} (fun _ => "") untilCommittable {} = .ok c₀ ∧
      apply {} c₀ (fun _ => "") beginEntry = .ok (c₁, fx) ∧
      replay {} (fun _ => "") whileCommitting c₁ = .ok c₂ ∧
      ∃ t, c₂.tasks["t"]? = some t ∧ t.state = .committing ∧ t.generation = 1 := by
  have heval : ((replay {} (fun _ => "") untilCommittable {}).toOption.bind fun c₀ =>
      (apply {} c₀ (fun _ => "") beginEntry).toOption.bind fun r =>
        (replay {} (fun _ => "") whileCommitting r.1).toOption).isSome = true := by decide +kernel
  obtain ⟨c₂, hc₂⟩ := Option.isSome_iff_exists.1 heval
  obtain ⟨c₀, hc₀, hc₂⟩ := Option.bind_eq_some_iff.1 hc₂
  obtain ⟨⟨c₁, fx⟩, hc₁, hc₂⟩ := Option.bind_eq_some_iff.1 hc₂
  have h₀ := toOption_some.1 hc₀
  have h₁ := toOption_some.1 hc₁
  have h₂ := toOption_some.1 hc₂
  obtain ⟨⟨t, ht, hs, hg, -⟩, -⟩ := (commit_frozen _ _ _ c₀ h₀).1 beginEntry _ _ _ _ c₁ fx whileCommitting c₂ rfl h₁
    (by simp [whileCommitting]) h₂
  exact ⟨c₀, c₁, c₂, fx, h₀, h₁, h₂, t, ht, hs, hg⟩

end Core

end SovereignCore.Harness
