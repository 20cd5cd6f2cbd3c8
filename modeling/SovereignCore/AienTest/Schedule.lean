import SovereignCore.AienTest.Runner
import SovereignCore.Lib.Dispatch
import SovereignCore.Lib.Machine

/-!
# What holds in every interleaving

* `Move` : the steps, with the worker that moves in its place;
* `Booked`, `Permitted`, `Awake` : gates are handed out once and in order, slots are accounted for, and as long as
  there is something to do some worker does not sleep; each is kept by every move.
-/

namespace SovereignCore.AienTest

open Topo Dispatch

namespace Phase

def node? : Phase → Option String
  | .executing _ p => some p.node
  | .reporting i => some i
  | .returned i _ => some i
  | _ => none

def permit? : Phase → Option Pool
  | .executing _ p => p.permit
  | _ => none

def active : Phase → Bool
  | .waiting => false
  | .exited => false
  | _ => true

def runs (inPool : String → Bool) : Phase → Bool
  | .executing .program p => inPool p.node
  | _ => false

end Phase

theorem set_split {α : Type} {l : List α} {w : Nat} {a : α} (h : l[w]? = some a) :
    ∃ l₁ l₂, l = l₁ ++ a :: l₂ ∧ ∀ b, l.set w b = l₁ ++ b :: l₂ := by
  obtain ⟨hw, rfl⟩ := List.getElem?_eq_some_iff.1 h
  refine ⟨l.take w, l.drop (w + 1), ?_, fun b => ?_⟩
  · rw [← List.drop_eq_getElem_cons hw, List.take_append_drop]
  · exact List.set_eq_take_append_cons_drop.trans (if_pos hw)

/-- A thread may leave `wait` for no reason. -/
def Act.spurious : Act → Bool
  | .wake => true
  | _ => false

section Moves

variable (r : GraphRun)

/-- The steps of `GraphRun.step`, and whether they are spurious. -/
inductive Move (s : State) : Bool → State → Prop
  | leave {l₁ l₂} (hw : s.workers = l₁ ++ .entering :: l₂) (hover : s.sched.Over) :
    Move s false { s with workers := l₁ ++ .exited :: l₂ }
  | enter {l₁ l₂} (hw : s.workers = l₁ ++ .entering :: l₂) (hlock : s.locked = false) (hover : ¬ s.sched.Over) :
    Move s false { s with workers := l₁ ++ .picking s.sched.ready :: l₂ }
  | wait {l₁ l₂} (hw : s.workers = l₁ ++ .picking [] :: l₂) : Move s false { s with workers := l₁ ++ .waiting :: l₂ }
  | skip {l₁ l₂} {i : String} {rest : List String} (hw : s.workers = l₁ ++ .picking (i :: rest) :: l₂)
    (hfree : s.free (r.poolOf i) = 0) : Move s false { s with workers := l₁ ++ .picking rest :: l₂ }
  | choose {l₁ l₂} {i : String} {rest : List String} (hw : s.workers = l₁ ++ .picking (i :: rest) :: l₂)
    (hpass : GraphRun.allPass (r.depFacts s.sched.results i) = true) (hfree : s.free (r.poolOf i) ≠ 0) :
    Move s false
      { s with
        sched := { s.sched with ready := s.sched.ready.erase i }
        free := Function.update s.free (r.poolOf i) (s.free (r.poolOf i) - 1)
        workers := l₁ ++ .executing .before ⟨i, r.depFacts s.sched.results i, some (r.poolOf i)⟩ :: l₂
        executed := s.executed ++ [i] }
  | decline {l₁ l₂} {i : String} {rest : List String} (hw : s.workers = l₁ ++ .picking (i :: rest) :: l₂)
    (hpass : GraphRun.allPass (r.depFacts s.sched.results i) = false) :
    Move s false
      { s with
        sched := { s.sched with ready := s.sched.ready.erase i }
        workers := l₁ ++ .executing .before ⟨i, r.depFacts s.sched.results i, none⟩ :: l₂
        executed := s.executed ++ [i] }
  | wake {l₁ l₂} (hw : s.workers = l₁ ++ .waiting :: l₂) : Move s true { s with workers := l₁ ++ .entering :: l₂ }
  | start {l₁ l₂} {p : Pick} {m : Manifest} {facts : Facts} (hw : s.workers = l₁ ++ .executing .before p :: l₂)
    (hm : r.manifest? p.node = some m) (hrun : preRun m { facts with deps := p.deps } = none) :
    Move s false { s with workers := l₁ ++ .executing .program p :: l₂ }
  | finish {l₁ l₂} {p : Pick} (hw : s.workers = l₁ ++ .executing .program p :: l₂) :
    Move s false { s with workers := l₁ ++ .executing .after p :: l₂ }
  | release {l₁ l₂} {stage : Stage} {p : Pick} {ph : Phase} (hw : s.workers = l₁ ++ .executing stage p :: l₂)
    (hph : ph = .reporting p.node ∨ ∃ e, ph = .returned p.node (.error e)) :
    Move s false { s with free := dropPermit s.free p.permit, workers := l₁ ++ ph :: l₂ }
  | ret {l₁ l₂} {i : String} {res : Except RunError Outcome} (hw : s.workers = l₁ ++ .reporting i :: l₂) :
    Move s false { s with workers := l₁ ++ .returned i res :: l₂ }
  | store {l₁ l₂} {i : String} {o : Outcome} (hw : s.workers = l₁ ++ .returned i (.ok o) :: l₂) (hlock : s.locked = false) :
    Move s false
      { s with
        sched := r.stored s.sched i (.ok o)
        workers := l₁ ++ .notifying :: l₂
        finished := i :: s.finished }
  | stop {l₁ l₂} {i : String} {e : RunError} (hw : s.workers = l₁ ++ .returned i (.error e) :: l₂)
    (hlock : s.locked = false) :
    Move s false
      { s with
        sched := r.stored s.sched i (.error e)
        workers := l₁ ++ .notifying :: l₂
        failed := i :: s.failed }
  | notify {l₁ l₂} (hw : s.workers = l₁ ++ .notifying :: l₂) :
    Move s false { s with workers := (l₁ ++ .entering :: l₂).map Phase.wakeUp }

variable {r} {s s' : State}

theorem lookAt_move {w : Nat} {rest : List String} {l₁ l₂ : List Phase} (hw : s.workers = l₁ ++ .picking rest :: l₂)
    (hset : ∀ b, s.workers.set w b = l₁ ++ b :: l₂) : Move r s false (r.lookAt s w rest) := by
  cases rest with
  | nil =>
    unfold GraphRun.lookAt
    rw [hset]
    exact .wait hw
  | cons i rest =>
    unfold GraphRun.lookAt GraphRun.choose
    dsimp only
    split_ifs with hpass hfree
    · rw [hset]
      exact .skip hw hfree
    · rw [hset]
      exact .choose hw hpass hfree
    · rw [hset]
      exact .decline hw (Bool.not_eq_true _ ▸ hpass)

theorem move_of_step {act : Nat × Act} (h : r.step s act = some s') : Move r s act.2.spurious s' := by
  obtain ⟨ph, hph, h⟩ := Option.bind_eq_some_iff.1 h
  obtain ⟨l₁, l₂, hw, hset⟩ := set_split hph
  obtain ⟨w, act⟩ := act
  unfold GraphRun.move at h
  simp only [hset] at h
  cases ph with
  | entering =>
    cases act <;> try cases h
    dsimp only at h
    split_ifs at h with hlock hover
    · exact Option.some.inj h ▸ .leave hw hover
    · exact Option.some.inj h ▸ .enter hw (Bool.not_eq_true _ ▸ hlock) hover
  | picking rest =>
    cases act <;> try cases h
    exact lookAt_move hw hset
  | waiting =>
    cases act <;> try cases h
    exact .wake hw
  | executing stage p =>
    cases act <;> try (cases stage <;> cases h <;> done)
    case start facts =>
      cases stage <;> try cases h
      dsimp only at h
      split_ifs at h with hrun
      obtain ⟨m, hm, hrun⟩ := (Option.any_eq_true _ _).1 hrun
      exact Option.some.inj h ▸ .start hw hm (of_decide_eq_true hrun)
    case finish =>
      cases stage <;> try cases h
      exact .finish hw
    case release =>
      cases stage <;> cases h
      · exact .release hw (.inl rfl)
      · exact .release hw (.inl rfl)
    case raise e =>
      cases stage <;> cases h
      · exact .release hw (.inr ⟨_, rfl⟩)
      · exact .release hw (.inr ⟨_, rfl⟩)
    case panic =>
      cases stage <;> cases h <;> exact .release hw (.inr ⟨_, rfl⟩)
  | reporting i =>
    cases act <;> cases h
    · exact .ret hw
    · exact .ret hw
  | returned i res =>
    cases act <;> try cases h
    cases res with
    | ok o =>
      dsimp only at h
      split_ifs at h with hlock hok
      · exact Option.some.inj h ▸ .store hw (Bool.not_eq_true _ ▸ hlock)
      · exact absurd rfl hok
    | error e =>
      dsimp only at h
      split_ifs at h with hlock hok
      · cases hok
      · exact Option.some.inj h ▸ .stop hw (Bool.not_eq_true _ ▸ hlock)
  | notifying =>
    cases act <;> try cases h
    exact .notify hw
  | exited => cases act <;> cases h

end Moves

/-! ## The lock -/

section Lock

variable {r : GraphRun} {s s' : State} {sched sched' : Sched} {l₁ l₂ ws : List Phase} {ph ph' : Phase} {rest : List String}

theorem mem_place : ph' ∈ l₁ ++ ph :: l₂ ↔ ph' = ph ∨ ph' ∈ l₁ ++ l₂ := by
  simp only [List.mem_append, List.mem_cons]
  tauto

theorem mem_place_of_ne {other : Phase} (h : other ∈ l₁ ++ ph' :: l₂) (hne : other ≠ ph') : other ∈ l₁ ++ ph :: l₂ :=
  mem_place.2 (.inr ((mem_place.1 h).resolve_left hne))

theorem countP_place (f : Phase → Bool) : (l₁ ++ ph :: l₂).countP f = (l₁ ++ l₂).countP f + if f ph then 1 else 0 := by
  rw [List.perm_middle.countP_eq, List.countP_cons]

/-- One worker picks at most, what it has not looked at is ready, and there is something to do. -/
structure Looking (sched : Sched) (ws : List Phase) : Prop where
  one : ws.countP Phase.picks ≤ 1
  rest : ∀ rest, .picking rest ∈ ws → rest <:+ sched.ready ∧ ¬ sched.Over

theorem Looking.of_none (h : ∀ ph ∈ ws, ph.picks = false) : Looking sched ws where
  one := by
    rw [List.countP_eq_zero.2 fun ph hph => by simp [h ph hph]]
    exact Nat.zero_le 1
  rest rest hmem := absurd (h _ hmem) (by simp [Phase.picks])

theorem unlocked_others (h : s.locked = false) (hw : s.workers = l₁ ++ ph :: l₂) : ∀ ph ∈ l₁ ++ l₂, ph.picks = false := by
  intro ph' hph
  have hany := List.any_eq_false.1 h ph' (hw ▸ mem_place.2 (.inr hph))
  simpa using hany

theorem Looking.others (h : Looking sched (l₁ ++ .picking rest :: l₂)) : ∀ ph ∈ l₁ ++ l₂, ph.picks = false := by
  have hone := h.one
  rw [countP_place, if_pos (show (Phase.picking rest).picks = true from rfl)] at hone
  intro ph hph
  have hzero := List.countP_eq_zero.1 (Nat.le_zero.1 (Nat.le_of_succ_le_succ hone)) ph hph
  simpa using hzero

theorem Looking.move (h : Looking sched (l₁ ++ ph :: l₂)) (hph : ph'.picks = false) : Looking sched (l₁ ++ ph' :: l₂) where
  one := by
    have hone := h.one
    rw [countP_place] at hone
    rw [countP_place, hph]
    exact (Nat.le_add_right _ _).trans hone
  rest rest hmem := by
    rcases mem_place.1 hmem with rfl | hmem
    · cases hph
    · exact h.rest rest (mem_place.2 (.inr hmem))

theorem Looking.of_others (h : ∀ ph ∈ l₁ ++ l₂, ph.picks = false) (hph : ph'.picks = false) :
    Looking sched (l₁ ++ ph' :: l₂) := by
  refine .of_none fun ph hmem => ?_
  rcases mem_place.1 hmem with rfl | hmem
  · exact hph
  · exact h ph hmem

theorem Looking.keep (h : Looking s.sched s.workers) {b : Bool} (hmove : Move r s b s') : Looking s'.sched s'.workers := by
  cases hmove with
  | leave hw hover | wake hw | start hw hm hrun | finish hw | ret hw =>
    rw [hw] at h
    exact h.move rfl
  | wait hw =>
    rw [hw] at h
    exact h.move rfl
  | enter hw hlock hover =>
    have hothers := unlocked_others hlock hw
    refine ⟨?_, fun rest hmem => ?_⟩
    · rw [countP_place, List.countP_eq_zero.2 fun ph hph => by simp [hothers ph hph]]
      exact Nat.le_refl 1
    · rcases mem_place.1 hmem with heq | hmem
      · cases heq
        exact ⟨List.suffix_rfl, hover⟩
      · exact absurd (hothers _ hmem) (by simp [Phase.picks])
  | skip hw hfree =>
    rw [hw] at h
    refine ⟨?_, fun rest hmem => ?_⟩
    · have hone := h.one
      rwa [countP_place] at hone ⊢
    · rcases mem_place.1 hmem with heq | hmem
      · cases heq
        obtain ⟨hsuffix, hover⟩ := h.rest _ (mem_place.2 (.inl rfl))
        exact ⟨(List.suffix_cons _ _).trans hsuffix, hover⟩
      · exact absurd (h.others _ hmem) (by simp [Phase.picks])
  | choose hw hpass hfree | decline hw hpass =>
    rw [hw] at h
    exact .of_others h.others rfl
  | release hw hph =>
    rw [hw] at h
    refine h.move ?_
    obtain rfl | ⟨e, rfl⟩ := hph <;> rfl
  | store hw hlock | stop hw hlock => exact .of_others (unlocked_others hlock hw) rfl
  | notify hw =>
    rw [hw] at h
    have h := h.move (show Phase.entering.picks = false from rfl)
    have hpicks : ∀ ph : Phase, ph.wakeUp.picks = ph.picks := fun ph => by cases ph <;> rfl
    refine ⟨?_, fun rest hmem => ?_⟩
    · rw [List.countP_map]
      exact (List.countP_congr fun ph _ => by simp [hpicks]).trans_le h.one
    · obtain ⟨ph, hph, hwake⟩ := List.mem_map.1 hmem
      cases ph <;> cases hwake
      exact h.rest rest hph

end Lock

/-! ## The books -/

def State.busy (s : State) : List String := s.workers.filterMap Phase.node?

def State.book (s : State) : Book String where
  waiting := s.sched.waitingOn
  ready := s.sched.ready
  started := s.executed
  busy := s.busy
  done := s.finished
  failed := s.failed

section Books

variable {r : GraphRun} {s s' : State} {l₁ l₂ : List Phase} {ph ph' : Phase} {i d : String}

theorem GraphRun.selection_nodup (r : GraphRun) : r.selection.Nodup := r.sorted.imp ne_of_lt

theorem GraphRun.mem_inside : d ∈ r.inside i ↔ d ∈ r.dependsOn i ∧ d ∈ r.selection := by
  unfold GraphRun.inside GraphRun.dependsOn GraphRun.manifest? depsOf
  rw [List.mem_filter, decide_eq_true_iff]
  cases node? r.graph.nodes i with
  | none => simp
  | some n => exact and_congr_left fun _ => Text.mem_sortedUnique

theorem GraphRun.inside_nodup (r : GraphRun) (i : String) : (r.inside i).Nodup :=
  ((linked_nodes r.graph.nodup).deps_nodup i).filter _

/-- Within the selection the two lists of edges turn each other round. -/
theorem GraphRun.linked (hi : i ∈ r.selection) (j : String) :
    j ∈ (directDependents r.graph.nodes i).filter (· ∈ r.selection) ↔ j ∈ r.selection ∧ i ∈ r.inside j := by
  unfold GraphRun.inside
  rw [List.mem_filter, List.mem_filter, (linked_nodes r.graph.nodup).mem_dependents i j, decide_eq_true_iff, decide_eq_true_iff]
  constructor
  · rintro ⟨⟨-, hdep⟩, hj⟩
    exact ⟨hj, hdep, hi⟩
  · rintro ⟨hj, hdep, -⟩
    exact ⟨⟨r.selected j hj, hdep⟩, hj⟩

theorem busy_place (h : s.workers = l₁ ++ ph :: l₂) : s.busy = l₁.filterMap Phase.node? ++ (ph :: l₂).filterMap Phase.node? := by
  rw [State.busy, h, List.filterMap_append]

theorem busy_take (hw : s.workers = l₁ ++ ph :: l₂) (hw' : s'.workers = l₁ ++ ph' :: l₂) (hph : ph.node? = none)
    (hph' : ph'.node? = some i) : (i :: s.busy).Perm s'.busy := by
  rw [busy_place hw, busy_place hw', List.filterMap_cons_none hph, List.filterMap_cons_some hph']
  exact List.perm_middle.symm

theorem busy_back (hw : s.workers = l₁ ++ ph :: l₂) (hw' : s'.workers = l₁ ++ ph' :: l₂) (hph : ph.node? = some i)
    (hph' : ph'.node? = none) : (s.busy.erase i).Perm s'.busy := by
  rw [busy_place hw, busy_place hw', List.filterMap_cons_none hph', List.filterMap_cons_some hph]
  exact (List.perm_middle.erase i).trans (by rw [List.erase_cons_head])

theorem busy_same (hw : s.workers = l₁ ++ ph :: l₂) (hw' : s'.workers = l₁ ++ ph' :: l₂) (hph : ph'.node? = ph.node?) :
    s'.busy = s.busy := by
  rw [busy_place hw, busy_place hw', List.filterMap_cons, List.filterMap_cons, hph]

theorem mem_busy (hw : s.workers = l₁ ++ ph :: l₂) (hph : ph.node? = some i) : i ∈ s.busy :=
  List.mem_filterMap.2 ⟨ph, hw ▸ mem_place.2 (.inl rfl), hph⟩

/-- Gates are handed out as their dependencies allow; outcomes and counters are those of the gates that came back. -/
structure Booked (r : GraphRun) (s : State) : Prop where
  kept : Dispatch.Kept r.selection r.inside s.book
  stored : ∀ i, (s.sched.results i).isSome = true ↔ i ∈ s.finished
  count : s.sched.remaining + s.finished.length = r.selection.length
  clean : s.sched.error = none ↔ s.failed = []

/-- A move that leaves the shared record alone, and the gates in hand. -/
theorem Booked.same (h : Booked r s) (hsched : s'.sched = s.sched) (hexec : s'.executed = s.executed)
    (hfinished : s'.finished = s.finished) (hfailed : s'.failed = s.failed) (hbusy : s'.busy = s.busy) : Booked r s' := by
  have hbook : s'.book = s.book := by
    unfold State.book
    rw [hsched, hexec, hfinished, hfailed, hbusy]
  exact ⟨hbook ▸ h.kept, by rw [hsched, hfinished]; exact h.stored, by rw [hsched, hfinished]; exact h.count,
    by rw [hsched, hfailed]; exact h.clean⟩

theorem Booked.keep (h : Booked r s) (hlook : Looking s.sched s.workers) {b : Bool} (hmove : Move r s b s') : Booked r s' := by
  cases hmove with
  | leave hw hover | enter hw hlock hover | wait hw | skip hw hfree | wake hw | start hw hm hrun | finish hw | ret hw =>
    exact h.same rfl rfl rfl rfl (busy_same hw rfl rfl)
  | choose hw hpass hfree | decline hw hpass =>
    obtain ⟨hsuffix, -⟩ := hlook.rest _ (hw ▸ mem_place.2 (.inl rfl))
    have htake := h.kept.take (hsuffix.subset List.mem_cons_self)
    exact ⟨htake.perm_busy (busy_take hw rfl rfl rfl), h.stored, h.count, h.clean⟩
  | release hw hph =>
    refine h.same rfl rfl rfl rfl (busy_same hw rfl ?_)
    obtain rfl | ⟨e, rfl⟩ := hph <;> rfl
  | @store l₁ l₂ i o hw hlock =>
    have hbusy := mem_busy hw rfl
    have hstarted := h.kept.mem_started.2 (.inl hbusy)
    have hfinish := h.kept.finish hbusy r.inside_nodup
      (((linked_nodes r.graph.nodup).dependents_nodup i).filter _) (r.linked (h.kept.sub i (.inr hstarted)))
    have hnew : i ∉ s.finished := h.kept.not_done hbusy
    refine ⟨hfinish.perm_busy (busy_back hw rfl rfl rfl), fun j => ?_, ?_, h.clean⟩
    · show (Function.update s.sched.results i (some o) j).isSome = true ↔ j ∈ i :: s.finished
      rw [List.mem_cons]
      by_cases hj : j = i
      · subst hj
        simp
      · rw [Function.update_of_ne hj, h.stored j]
        simp [hj]
    · -- `i` is selected and had no outcome, so some gate was left.
      have hsub : (i :: s.finished).Subperm r.selection :=
        List.subperm_of_subset (List.nodup_cons.2 ⟨hnew, h.kept.done_nodup⟩) fun j hj => by
          rcases List.mem_cons.1 hj with rfl | hj
          · exact h.kept.sub j (.inr hstarted)
          · exact h.kept.done_sub hj
      have hlen := hsub.length_le
      have hcount := h.count
      show s.sched.remaining - 1 + (i :: s.finished).length = r.selection.length
      rw [List.length_cons] at hlen ⊢
      omega
  | @stop l₁ l₂ i e hw hlock =>
    have hfail := h.kept.fail (mem_busy hw rfl)
    refine ⟨hfail.perm_busy (busy_back hw rfl rfl rfl), h.stored, h.count, ?_⟩
    show s.sched.error.or (some e) = none ↔ i :: s.failed = []
    simp
  | notify hw =>
    refine h.same rfl rfl rfl rfl ?_
    have hnode : ∀ ph : Phase, ph.wakeUp.node? = ph.node? := fun ph => by cases ph <;> rfl
    rw [State.busy, List.filterMap_map, show Phase.node? ∘ Phase.wakeUp = Phase.node? from funext hnode]
    rw [busy_place hw, List.filterMap_append]
    rfl

theorem GraphRun.booked_init (r : GraphRun) : Booked r r.init where
  kept := by
    have hbusy : r.init.busy = [] := by
      refine List.filterMap_eq_nil_iff.2 fun ph hph => ?_
      rw [List.eq_of_mem_replicate hph]
      rfl
    have hbook : r.init.book = Book.opened r.selection r.inside := by
      unfold State.book
      rw [hbusy]
      rfl
    exact hbook ▸ Dispatch.Kept.opened r.selection_nodup
  stored _ := ⟨fun h => absurd h Bool.false_ne_true, fun h => absurd h List.not_mem_nil⟩
  count := rfl
  clean := iff_of_true rfl rfl

end Books

/-! ## The slots -/

section Slots

variable {r : GraphRun} {s s' : State} {l₁ l₂ : List Phase} {ph ph' : Phase} {results : String → Option Outcome}
  {stage : Stage} {p : Pick} {q : Pool} {i d : String}

def Phase.holds (q : Pool) (ph : Phase) : Bool := ph.permit? = some q

theorem holds_none (h : ph.permit? = none) : ¬ ph.holds q = true := by
  simp [Phase.holds, h]

theorem holds_executing : (Phase.executing stage p).holds q = true ↔ p.permit = some q := decide_eq_true_iff

theorem GraphRun.depFact_gate (r : GraphRun) (results : String → Option Outcome) (d : String) :
    (r.depFact results d).gate = d := by
  unfold GraphRun.depFact GraphRun.outside
  cases results d with
  | some o => rfl
  | none =>
    dsimp only
    split_ifs
    · cases r.latestAt d <;> rfl
    · rfl

theorem GraphRun.depVerdict_depFacts (hd : d ∈ r.dependsOn i) :
    depVerdict (r.depFacts results i) d = (r.depFact results d).verdict := by
  unfold depVerdict GraphRun.depFacts
  cases hfind : ((r.dependsOn i).map (r.depFact results)).find? fun x => x.gate = d with
  | none =>
    have hnone := List.find?_eq_none.1 hfind _ (List.mem_map_of_mem hd)
    exact absurd (decide_eq_true (r.depFact_gate results d)) hnone
  | some x =>
    obtain ⟨d', -, rfl⟩ := List.mem_map.1 (List.mem_of_find?_eq_some hfind)
    have hgate : (r.depFact results d').gate = d := by simpa using List.find?_some hfind
    rw [r.depFact_gate] at hgate
    rw [hgate]
    rfl

/-- What a gate in `execute_gate` was chosen with: the facts as they still are, and a slot of its pool unless it can
not run. -/
structure Cleared (r : GraphRun) (results : String → Option Outcome) (stage : Stage) (p : Pick) : Prop where
  deps : p.deps = r.depFacts results p.node
  permit : p.permit = if GraphRun.allPass p.deps then some (r.poolOf p.node) else none
  program : stage = .program → GraphRun.allPass p.deps = true

theorem allPass_of_preRun {m : Manifest} {facts : Facts} (hdeps : p.deps = r.depFacts results p.node)
    (hm : r.manifest? p.node = some m) (hrun : preRun m { facts with deps := p.deps } = none) :
    GraphRun.allPass p.deps = true := by
  rw [hdeps]
  refine List.all_eq_true.2 fun x hx => ?_
  obtain ⟨d, hd, rfl⟩ := List.mem_map.1 hx
  have hpass : depVerdict p.deps d = some .pass := by
    refine depVerdict_of_preRun hrun ?_
    unfold GraphRun.dependsOn at hd
    rwa [hm] at hd
  rw [hdeps, r.depVerdict_depFacts hd] at hpass
  exact decide_eq_true hpass

/-- Every slot is free or in some worker's hands, and gates hold the slots they should. -/
structure Permitted (r : GraphRun) (s : State) : Prop where
  slots : ∀ q, s.free q + s.workers.countP (Phase.holds q) = r.sizes.slots q
  cleared : ∀ stage p, .executing stage p ∈ s.workers → Cleared r s.sched.results stage p

theorem Permitted.same (h : Permitted r s) (hw : s.workers = l₁ ++ ph :: l₂) (hw' : s'.workers = l₁ ++ ph' :: l₂)
    (hfree : s'.free = s.free) (hresults : s'.sched.results = s.sched.results) (hph : ph'.permit? = ph.permit?)
    (hcleared : ∀ stage p, ph' = .executing stage p → Cleared r s.sched.results stage p) : Permitted r s' where
  slots q := by
    have hslots := h.slots q
    rw [hw, countP_place] at hslots
    rw [hw', countP_place, hfree, Phase.holds, hph]
    exact hslots
  cleared stage p hmem := by
    rw [hresults]
    rw [hw'] at hmem
    rcases mem_place.1 hmem with heq | hmem
    · exact hcleared stage p heq.symm
    · exact h.cleared stage p (hw ▸ mem_place.2 (.inr hmem))

/-- The outcome of a gate in hand is news to no gate in `execute_gate`. -/
theorem Cleared.stored (hc : Cleared r s.sched.results stage p) (hbooks : Booked r s) (hi : i ∈ s.busy)
    (hp : p.node ∈ s.busy) (o : Outcome) : Cleared r (Function.update s.sched.results i (some o)) stage p := by
  refine ⟨hc.deps.trans ?_, hc.permit, hc.program⟩
  refine List.map_congr_left fun d hd => ?_
  have hne : d ≠ i := by
    rintro rfl
    have hsel := hbooks.kept.sub d (.inr (hbooks.kept.mem_started.2 (.inl hi)))
    have hdone := hbooks.kept.free p.node (.inr (hbooks.kept.mem_started.2 (.inl hp))) d (GraphRun.mem_inside.2 ⟨hd, hsel⟩)
    exact hbooks.kept.not_done hi hdone
  unfold GraphRun.depFact
  rw [Function.update_of_ne hne]

theorem holds_drop (permit : Option Pool) (free : Pool → Nat) (q : Pool) :
    dropPermit free permit q = free q + if permit = some q then 1 else 0 := by
  cases permit with
  | none => rfl
  | some q' =>
    show Function.update free q' (free q' + 1) q = _
    by_cases hq : q' = q
    · subst hq
      rw [Function.update_self, if_pos rfl]
    · rw [Function.update_of_ne (Ne.symm hq), if_neg fun h => hq (Option.some.inj h), Nat.add_zero]

theorem Permitted.keep (h : Permitted r s) (hbooks : Booked r s) {b : Bool} (hmove : Move r s b s') : Permitted r s' := by
  cases hmove with
  | leave hw hover | enter hw hlock hover | wait hw | skip hw hfree | wake hw | ret hw =>
    exact h.same hw rfl rfl rfl rfl nofun
  | @start l₁ l₂ p m facts hw hm hrun =>
    refine h.same hw rfl rfl rfl rfl fun stage p' heq => ?_
    cases heq
    have hc := h.cleared .before p (hw ▸ mem_place.2 (.inl rfl))
    exact ⟨hc.deps, hc.permit, fun _ => allPass_of_preRun hc.deps hm hrun⟩
  | @finish l₁ l₂ p hw =>
    refine h.same hw rfl rfl rfl rfl fun stage p' heq => ?_
    cases heq
    have hc := h.cleared .program p (hw ▸ mem_place.2 (.inl rfl))
    exact ⟨hc.deps, hc.permit, nofun⟩
  | @decline l₁ l₂ i rest hw hpass =>
    refine h.same hw rfl rfl rfl rfl fun stage p' heq => ?_
    cases heq
    exact ⟨rfl, by rw [hpass]; rfl, nofun⟩
  | @choose l₁ l₂ i rest hw hpass hfree =>
    refine ⟨fun q => ?_, fun stage p hmem => ?_⟩
    · have hslots := h.slots q
      rw [hw, countP_place, if_neg (holds_none rfl)] at hslots
      show Function.update s.free _ _ q + (l₁ ++ _ :: l₂).countP _ = _
      rw [countP_place]
      by_cases hq : q = r.poolOf i
      · subst hq
        rw [Function.update_self, if_pos (holds_executing.2 rfl)]
        omega
      · rw [Function.update_of_ne hq, if_neg fun h => hq (Option.some.inj (holds_executing.1 h)).symm]
        exact hslots
    · rcases mem_place.1 hmem with heq | hmem
      · cases heq
        exact ⟨rfl, by rw [hpass]; rfl, nofun⟩
      · exact h.cleared stage p (hw ▸ mem_place.2 (.inr hmem))
  | @release l₁ l₂ stage p ph hw hph =>
    have hnone : ph.permit? = none := by obtain rfl | ⟨e, rfl⟩ := hph <;> rfl
    refine ⟨fun q => ?_, fun stage' p' hmem => ?_⟩
    · have hslots := h.slots q
      rw [hw, countP_place] at hslots
      show dropPermit s.free p.permit q + (l₁ ++ ph :: l₂).countP _ = _
      rw [countP_place, holds_drop, if_neg (holds_none hnone), ← hslots, if_congr holds_executing rfl rfl]
      omega
    · rcases mem_place.1 hmem with heq | hmem
      · rw [← heq] at hph
        obtain hph | ⟨e, hph⟩ := hph <;> cases hph
      · exact h.cleared stage' p' (hw ▸ mem_place.2 (.inr hmem))
  | @store l₁ l₂ i o hw hlock =>
    refine ⟨fun q => ?_, fun stage p hmem => ?_⟩
    · have hslots := h.slots q
      rw [hw, countP_place] at hslots
      exact (congrArg _ (countP_place _)).trans hslots
    · rcases mem_place.1 hmem with heq | hmem
      · cases heq
      · have hmem : .executing stage p ∈ s.workers := hw ▸ mem_place.2 (.inr hmem)
        exact (h.cleared stage p hmem).stored hbooks (mem_busy hw rfl) (List.mem_filterMap.2 ⟨_, hmem, rfl⟩) o
  | stop hw hlock => exact h.same hw rfl rfl rfl rfl nofun
  | notify hw =>
    have hplace : Permitted r { s with workers := _ ++ .entering :: _ } := h.same hw rfl rfl rfl rfl nofun
    have hholds : ∀ q (ph : Phase), ph.wakeUp.holds q = ph.holds q := fun q ph => by cases ph <;> rfl
    refine ⟨fun q => ?_, fun stage p hmem => ?_⟩
    · show s.free q + ((_ : List Phase).map Phase.wakeUp).countP _ = _
      rw [List.countP_map, show Phase.holds q ∘ Phase.wakeUp = Phase.holds q from funext (hholds q)]
      exact hplace.slots q
    · obtain ⟨ph, hph, hwake⟩ := List.mem_map.1 hmem
      cases ph <;> cases hwake
      exact hplace.cleared stage p hph

end Slots

/-! ## The condition variable -/

section Wakefulness

variable {r : GraphRun} {s s' : State} {l₁ l₂ ws : List Phase} {ph ph' : Phase}

/-- A worker leaves only when all is over. A worker that has looked at some ready gates in vain is not the only one
awake; as long as there is something to do one is awake; those that sleep when all is over will be woken. -/
structure Awake (sched : Sched) (ws : List Phase) : Prop where
  gone : .exited ∈ ws → sched.Over
  vain : ∀ rest, .picking rest ∈ ws → rest = sched.ready ∨ 2 ≤ ws.countP Phase.active
  awake : ¬ sched.Over → 1 ≤ ws.countP Phase.active
  woken : .waiting ∈ ws → sched.Over → .notifying ∈ ws

theorem DepsFirst.mono {α : Type} {deps deps' : α → List α} (hsub : ∀ i, deps' i ⊆ deps i) {done order : List α}
    (h : DepsFirst deps done order) : DepsFirst deps' done order := by
  induction order generalizing done with
  | nil => trivial
  | cons i order ih => exact ⟨fun d hd => h.1 d (hsub i hd), ih h.2⟩

theorem over_iff {sched : Sched} : ¬ sched.Over ↔ sched.remaining ≠ 0 ∧ sched.error = none := by
  unfold Sched.Over
  rw [not_or, Option.isSome_iff_ne_none, not_not]

/-- With nobody at work and something left to do there is a ready gate. -/
theorem Booked.exists_ready (h : Booked r s) (hover : ¬ s.sched.Over) (hbusy : s.busy = []) : s.sched.ready ≠ [] := by
  obtain ⟨hremaining, herror⟩ := over_iff.1 hover
  obtain ⟨j, hj, hopen⟩ : ∃ j ∈ r.selection, j ∉ s.finished := by
    by_contra hall
    push Not at hall
    have hlen := (List.subperm_of_subset r.selection_nodup hall).length_le
    have hcount := h.count
    omega
  have hfirst : DepsFirst r.inside [] r.graph.order :=
    DepsFirst.mono (fun i => List.filter_subset_self _) r.graph.depsFirst
  obtain ⟨i, hi⟩ := h.kept.exists_ready hfirst (fun j hj => r.graph.perm.mem_iff.2 (r.selected j hj))
    (fun j _ d hd => (GraphRun.mem_inside.1 hd).2) hbusy (h.clean.1 herror) hj hopen
  exact List.ne_nil_of_mem hi

theorem busy_of_inactive (hw : s.workers = l₁ ++ ph :: l₂) (hph : ph.node? = none)
    (hzero : (l₁ ++ l₂).countP Phase.active = 0) : s.busy = [] := by
  refine List.filterMap_eq_nil_iff.2 fun ph' hmem => ?_
  rw [hw] at hmem
  rcases mem_place.1 hmem with rfl | hmem
  · exact hph
  · have hact := List.countP_eq_zero.1 hzero ph' hmem
    cases ph' <;> first | rfl | exact absurd rfl hact

theorem active_of_held {q : Pool} (h : 0 < ws.countP (Phase.holds q)) : 0 < ws.countP Phase.active := by
  refine h.trans_le (List.countP_mono_left fun ph _ hph => ?_)
  cases ph <;> first | rfl | exact absurd hph (holds_none rfl)

theorem PoolSizes.slots_pos (z : PoolSizes) (q : Pool) : 0 < z.slots q := by
  cases q
  · exact lt_max_of_lt_right Nat.one_pos
  · exact lt_max_of_lt_right Nat.one_pos
  · exact lt_max_of_lt_right Nat.one_pos

/-- A move of somebody awake who stays awake, with the record as it was. -/
theorem Awake.same (h : Awake s.sched (l₁ ++ ph :: l₂)) (hph : ph.active = true) (hph' : ph'.active = true)
    (hnotify : ph ≠ .notifying) (hpicks : ph'.picks = false) : Awake s.sched (l₁ ++ ph' :: l₂) := by
  have hcount : (l₁ ++ ph' :: l₂).countP Phase.active = (l₁ ++ ph :: l₂).countP Phase.active := by
    rw [countP_place, countP_place, hph, hph']
  refine ⟨fun hmem => ?_, fun rest hmem => ?_, fun hover => hcount ▸ h.awake hover, fun hmem hover => ?_⟩
  · exact h.gone (mem_place_of_ne hmem (by rintro rfl; cases hph'))
  · exact hcount ▸ h.vain rest (mem_place_of_ne hmem (by rintro rfl; cases hpicks))
  · exact mem_place_of_ne (h.woken (mem_place_of_ne hmem (by rintro rfl; cases hph')) hover) hnotify.symm

theorem Awake.keep (h : Awake s.sched s.workers) (hlook : Looking s.sched s.workers) (hbooks : Booked r s)
    (hslots : Permitted r s) {b : Bool} (hmove : Move r s b s') : Awake s'.sched s'.workers := by
  cases hmove with
  | start hw hm hrun | finish hw | ret hw =>
    rw [hw] at h
    exact h.same rfl rfl nofun rfl
  | release hw hph =>
    rw [hw] at h
    obtain rfl | ⟨e, rfl⟩ := hph
    · exact h.same rfl rfl nofun rfl
    · exact h.same rfl rfl nofun rfl
  | leave hw hover =>
    rw [hw] at h hlook
    refine ⟨fun _ => hover, fun rest hmem => ?_, fun hnot => absurd hover hnot, fun hmem _ => ?_⟩
    · exact absurd hover (hlook.rest rest (mem_place_of_ne hmem nofun)).2
    · exact mem_place_of_ne (h.woken (mem_place_of_ne hmem nofun) hover) nofun
  | @enter l₁ l₂ hw hlock hover =>
    have hothers := unlocked_others hlock hw
    rw [hw] at h
    refine ⟨fun hmem => ?_, fun rest hmem => ?_, fun _ => ?_, fun _ hnot => absurd hnot hover⟩
    · exact h.gone (mem_place_of_ne hmem nofun)
    · rcases mem_place.1 hmem with heq | hmem
      · cases heq
        exact .inl rfl
      · exact absurd (hothers _ hmem) (by simp [Phase.picks])
    · rw [countP_place, if_pos (show (Phase.picking _).active = true from rfl)]
      exact Nat.le_add_left 1 _
  | @wait l₁ l₂ hw =>
    have hover : ¬ s.sched.Over := (hlook.rest [] (hw ▸ mem_place.2 (.inl rfl))).2
    rw [hw] at h hlook
    refine ⟨fun hmem => ?_, fun rest hmem => ?_, fun _ => ?_, fun _ hnot => absurd hnot hover⟩
    · exact h.gone (mem_place_of_ne hmem nofun)
    · have hmem := (mem_place.1 hmem).resolve_left nofun
      exact absurd (hlook.others _ hmem) (by simp [Phase.picks])
    · -- Nothing was ready, so the gates that are left are in the hands of others; or somebody else was awake anyway.
      rw [countP_place, if_neg (show ¬ Phase.waiting.active = true from nofun), Nat.add_zero]
      rcases h.vain [] (mem_place.2 (.inl rfl)) with hready | htwo
      · by_contra hzero
        exact hbooks.exists_ready hover (busy_of_inactive hw rfl (by omega)) hready.symm
      · rw [countP_place, if_pos (show (Phase.picking []).active = true from rfl)] at htwo
        omega
  | @skip l₁ l₂ i rest hw hfree =>
    have hover : ¬ s.sched.Over := (hlook.rest _ (hw ▸ mem_place.2 (.inl rfl))).2
    have hheld : 0 < (l₁ ++ l₂).countP (Phase.holds (r.poolOf i)) := by
      have hall := hslots.slots (r.poolOf i)
      rw [hw, countP_place, if_neg (holds_none rfl), hfree] at hall
      have hpos := r.sizes.slots_pos (r.poolOf i)
      omega
    have hactive := active_of_held hheld
    have htwo : 2 ≤ (l₁ ++ .picking rest :: l₂).countP Phase.active := by
      rw [countP_place, if_pos (show (Phase.picking rest).active = true from rfl)]
      omega
    rw [hw] at h
    refine ⟨fun hmem => ?_, fun _ _ => .inr htwo, fun _ => Nat.le_of_succ_le htwo, fun _ hnot => absurd hnot hover⟩
    exact h.gone (mem_place_of_ne hmem nofun)
  | choose hw hpass hfree | decline hw hpass =>
    have hover : ¬ s.sched.Over := (hlook.rest _ (hw ▸ mem_place.2 (.inl rfl))).2
    rw [hw] at h hlook
    refine ⟨fun hmem => ?_, fun rest hmem => ?_, fun _ => ?_, fun _ hnot => absurd hnot hover⟩
    · exact h.gone (mem_place_of_ne hmem nofun)
    · have hmem := (mem_place.1 hmem).resolve_left nofun
      exact absurd (hlook.others _ hmem) (by simp [Phase.picks])
    · rw [countP_place, if_pos (show (Phase.executing _ _).active = true from rfl)]
      exact Nat.le_add_left 1 _
  | @wake l₁ l₂ hw =>
    rw [hw] at h
    have hmore : (l₁ ++ .entering :: l₂).countP Phase.active = (l₁ ++ .waiting :: l₂).countP Phase.active + 1 := by
      rw [countP_place, countP_place]
      rfl
    refine ⟨fun hmem => ?_, fun rest hmem => ?_, fun _ => hmore ▸ Nat.le_add_left 1 _, fun hmem hover => ?_⟩
    · exact h.gone (mem_place_of_ne hmem nofun)
    · exact (h.vain rest (mem_place_of_ne hmem nofun)).imp_right fun htwo => hmore ▸ htwo.trans (Nat.le_succ _)
    · exact mem_place_of_ne (h.woken (mem_place_of_ne hmem nofun) hover) nofun
  | store hw hlock | stop hw hlock =>
    have hothers := unlocked_others hlock hw
    rw [hw] at h
    refine ⟨fun hmem => ?_, fun rest hmem => ?_, fun _ => ?_, fun _ _ => mem_place.2 (.inl rfl)⟩
    · refine (h.gone (mem_place_of_ne hmem nofun)).imp (fun hzero => ?_) fun herror => ?_
      · simp [GraphRun.stored, hzero]
      · simp [GraphRun.stored, herror]
    · have hmem := (mem_place.1 hmem).resolve_left nofun
      exact absurd (hothers _ hmem) (by simp [Phase.picks])
    · rw [countP_place, if_pos (show Phase.notifying.active = true from rfl)]
      exact Nat.le_add_left 1 _
  | @notify l₁ l₂ hw =>
    rw [hw] at h
    have hmap : ∀ ph ∈ (l₁ ++ .entering :: l₂).map Phase.wakeUp, ph ≠ .waiting ∧ (ph = .entering ∨ ph ∈ l₁ ++ .notifying :: l₂) := by
      intro ph hmem
      obtain ⟨before, hbefore, rfl⟩ := List.mem_map.1 hmem
      have hplace : before = .entering ∨ before ∈ l₁ ++ .notifying :: l₂ :=
        (mem_place.1 hbefore).imp_right fun hmem => mem_place.2 (.inr hmem)
      cases before with
      | waiting => exact ⟨nofun, .inl rfl⟩
      | _ => exact ⟨nofun, hplace⟩
    have hmore : (l₁ ++ .notifying :: l₂).countP Phase.active ≤ ((l₁ ++ .entering :: l₂).map Phase.wakeUp).countP Phase.active := by
      rw [List.countP_map, countP_place, countP_place]
      refine Nat.add_le_add (List.countP_mono_left fun ph _ hph => ?_) (Nat.le_refl 1)
      cases ph <;> first | rfl | cases hph
    refine ⟨fun hmem => ?_, fun rest hmem => ?_, fun hover => (h.awake hover).trans hmore, fun hmem => absurd rfl (hmap _ hmem).1⟩
    · rcases (hmap _ hmem).2 with heq | hmem
      · cases heq
      · exact h.gone hmem
    · rcases (hmap _ hmem).2 with heq | hmem
      · cases heq
      · exact (h.vain rest hmem).imp_right fun htwo => htwo.trans hmore

end Wakefulness

/-! ## Every run -/

section Runs

variable {r : GraphRun} {s : State} {acts : List (Nat × Act)} {i d : String}

theorem Move.staffed {s' : State} {b : Bool} (h : Move r s b s') : s'.workers ≠ [] := by
  cases h <;> simp

structure Inv (r : GraphRun) (s : State) : Prop where
  staffed : s.workers ≠ []
  looking : Looking s.sched s.workers
  booked : Booked r s
  permitted : Permitted r s
  awake : Awake s.sched s.workers

theorem Inv.step {s' : State} {act : Nat × Act} (h : Inv r s) (hstep : r.step s act = some s') : Inv r s' := by
  have hmove := move_of_step hstep
  exact ⟨hmove.staffed, h.looking.keep hmove, h.booked.keep h.looking hmove, h.permitted.keep h.booked hmove,
    h.awake.keep h.looking h.booked h.permitted hmove⟩

theorem GraphRun.inv_init (r : GraphRun) : Inv r r.init := by
  have hall : ∀ ph ∈ r.init.workers, ph = .entering := fun ph hph => List.eq_of_mem_replicate hph
  have hnone : ∀ ph ∈ r.init.workers, ph.picks = false := fun ph hph => by rw [hall ph hph]; rfl
  have hcount : 1 ≤ r.workerCount := le_max_right _ _
  refine ⟨List.ne_nil_of_length_pos (by rwa [GraphRun.init, List.length_replicate]), .of_none hnone, r.booked_init,
    ⟨fun q => ?_, fun stage p hmem => ?_⟩, ⟨fun hmem => ?_, fun rest hmem => ?_, fun _ => ?_, fun hmem => ?_⟩⟩
  · rw [List.countP_eq_zero.2 fun ph hph => by rw [hall ph hph]; exact holds_none rfl]
    rfl
  · cases hall _ hmem
  · cases hall _ hmem
  · cases hall _ hmem
  · show 1 ≤ (List.replicate r.workerCount .entering).countP Phase.active
    rw [List.countP_replicate, if_pos (show Phase.entering.active = true from rfl)]
    exact hcount
  · cases hall _ hmem

theorem inv_of_run (h : Machine.run r.step acts r.init = some s) : Inv r s :=
  Machine.run_always (fun _ _ _ hinv hstep => hinv.step hstep) r.inv_init h

/-- What is known about a gate: its outcome in this run, or that of its latest receipt. -/
def GraphRun.known (r : GraphRun) (results : String → Option Outcome) (d : String) : Option Verdict :=
  if d ∈ r.selection then (results d).map Outcome.verdict else (r.latestAt d).bind Prod.fst

theorem Inv.depFact_known (h : Inv r s) (hi : i ∈ r.selection) (hd : d ∈ r.dependsOn i) :
    (r.depFact s.sched.results d).verdict = r.known s.sched.results d := by
  unfold GraphRun.depFact GraphRun.known GraphRun.outside
  by_cases hsel : d ∈ r.selection
  · rw [if_pos hsel, if_neg fun hout => hout.1 hsel]
    cases s.sched.results d <;> rfl
  · have hnone : s.sched.results d = none := by
      rw [← Option.not_isSome_iff_eq_none, h.booked.stored]
      exact fun hdone => hsel (h.booked.kept.done_sub hdone)
    have hdeps : d ∈ depsOf r.graph.nodes i := by
      unfold GraphRun.dependsOn GraphRun.manifest? at hd
      unfold depsOf
      cases hnode : node? r.graph.nodes i with
      | none =>
        rw [hnode] at hd
        exact absurd hd List.not_mem_nil
      | some n =>
        rw [hnode] at hd
        exact Text.mem_sortedUnique.2 hd
    rw [hnone, if_neg hsel, if_pos ⟨hsel, i, hi, hdeps⟩]
    cases r.latestAt d <;> rfl

/-- A program runs only on dependencies that are known to have passed, and with a slot of its pool. -/
theorem Inv.program (h : Inv r s) {p : Pick} (hmem : .executing .program p ∈ s.workers) :
    (∀ d ∈ r.dependsOn p.node, r.known s.sched.results d = some .pass) ∧ p.permit = some (r.poolOf p.node) := by
  have hc := h.permitted.cleared _ p hmem
  have hpass := hc.program rfl
  refine ⟨fun d hd => ?_, by rw [hc.permit, if_pos hpass]⟩
  have hsel := h.booked.kept.sub p.node (.inr (h.booked.kept.mem_started.2 (.inl (List.mem_filterMap.2 ⟨_, hmem, rfl⟩))))
  rw [← h.depFact_known hsel hd]
  rw [hc.deps] at hpass
  exact of_decide_eq_true (List.all_eq_true.1 hpass _ (List.mem_map_of_mem hd))

theorem Inv.programs_le (h : Inv r s) (q : Pool) :
    s.workers.countP (Phase.runs fun i => r.poolOf i = q) ≤ r.sizes.slots q := by
  have hle : s.workers.countP (Phase.runs fun i => r.poolOf i = q) ≤ s.workers.countP (Phase.holds q) := by
    refine List.countP_mono_left fun ph hph hruns => ?_
    cases ph with
    | executing stage p =>
      cases stage with
      | program =>
        rw [holds_executing, (h.program hph).2]
        exact congrArg some (of_decide_eq_true hruns)
      | before => cases hruns
      | after => cases hruns
    | _ => cases hruns
  have hslots := h.permitted.slots q
  omega

/-- Without an error, a worker leaves when every selected gate has been executed and has its outcome. -/
theorem Inv.complete (h : Inv r s) (hgone : .exited ∈ s.workers) (herror : s.sched.error = none) :
    s.executed.Perm r.selection ∧ ∀ i ∈ r.selection, (s.sched.results i).isSome = true := by
  have hzero : s.sched.remaining = 0 := by
    by_contra hne
    exact over_iff.2 ⟨hne, herror⟩ (h.awake.gone hgone)
  have hlen : r.selection.length ≤ s.finished.length := by
    have hcount := h.booked.count
    omega
  have hdone : s.finished.Perm r.selection :=
    (List.subperm_of_subset h.booked.kept.done_nodup fun i hi => h.booked.kept.done_sub hi).perm_of_length_le hlen
  have hexec : r.selection.Subperm s.executed :=
    List.subperm_of_subset r.selection_nodup fun i hi => h.booked.kept.mem_started.2 (.inr (.inl (hdone.mem_iff.2 hi)))
  refine ⟨(hexec.antisymm (List.subperm_of_subset h.booked.kept.started_nodup fun i hi => h.booked.kept.sub i (.inr hi))).symm, fun i hi => ?_⟩
  exact (h.booked.stored i).2 (hdone.mem_iff.2 hi)

theorem mapM_all_ok {α β ε : Type} {f : α → Except ε β} {l : List α} (h : ∀ a ∈ l, ∃ b, f a = .ok b) : ∃ bs, l.mapM f = .ok bs := by
  induction l with
  | nil => exact ⟨[], rfl⟩
  | cons a l ih =>
    obtain ⟨b, hb⟩ := h a List.mem_cons_self
    obtain ⟨bs, hbs⟩ := ih fun x hx => h x (List.mem_cons_of_mem a hx)
    rw [List.mapM_cons, hb, hbs]
    exact ⟨b :: bs, rfl⟩

theorem GraphRun.collect_ok (herror : s.sched.error = none) (h : ∀ i ∈ r.selection, (s.sched.results i).isSome = true) :
    ∃ results, r.collect s.sched = .ok results := by
  unfold GraphRun.collect
  rw [herror]
  refine mapM_all_ok fun i hi => ?_
  obtain ⟨o, ho⟩ := Option.isSome_iff_exists.1 (h i (by simpa using (List.mem_filter.1 hi).2))
  rw [ho]
  exact ⟨(i, o), rfl⟩

/-- Every interleaving of the workers: no gate is executed twice, each after the outcomes of the selected gates it
depends on; a program runs on dependencies known to have passed, with a slot of its pool, of which there are as many as the
pool's size; the workers do not all sleep while gates remain; and once all have left without an error every selected gate
was executed and `run_graph` has its outcome. -/
theorem run_graph_schedules (r : GraphRun) {acts : List (Nat × Act)} {s : State}
    (h : Machine.run r.step acts r.init = some s) :
    (s.executed.Nodup ∧ ∀ i ∈ s.executed, i ∈ r.selection) ∧
      ((∀ ph ∈ s.workers, ph = .exited) → s.sched.error = none →
        s.executed.Perm r.selection ∧ ∃ results, r.collect s.sched = .ok results) ∧
      (∀ i ∈ s.executed, ∀ d ∈ r.dependsOn i, d ∈ r.selection → (s.sched.results d).isSome = true) ∧
      (∀ p, .executing .program p ∈ s.workers →
        (∀ d ∈ r.dependsOn p.node, r.known s.sched.results d = some .pass) ∧ p.permit = some (r.poolOf p.node)) ∧
      (∀ q, s.workers.countP (Phase.runs fun i => r.poolOf i = q) ≤ r.sizes.slots q) ∧
      ¬ (0 < s.sched.remaining ∧ s.sched.error = none ∧ ∀ ph ∈ s.workers, ph ≠ .exited → ph = .waiting) := by
  have hinv := inv_of_run h
  refine ⟨⟨hinv.booked.kept.started_nodup, fun i hi => hinv.booked.kept.sub i (.inr hi)⟩, fun hall herror => ?_,
    fun i hi d hd hsel => ?_, fun p hp => hinv.program hp, hinv.programs_le, ?_⟩
  · obtain ⟨ph, hph⟩ := List.exists_mem_of_ne_nil _ hinv.staffed
    obtain ⟨hexec, hresults⟩ := hinv.complete (hall ph hph ▸ hph) herror
    exact ⟨hexec, r.collect_ok herror hresults⟩
  · exact (hinv.booked.stored d).2 (hinv.booked.kept.free i (.inr hi) d (GraphRun.mem_inside.2 ⟨hd, hsel⟩))
  · rintro ⟨hremaining, herror, hall⟩
    have hawake := hinv.awake.awake (over_iff.2 ⟨Nat.ne_of_gt hremaining, herror⟩)
    obtain ⟨ph, hph, hactive⟩ := List.countP_pos_iff.1 hawake
    by_cases hgone : ph = .exited
    · rw [hgone] at hactive
      cases hactive
    · rw [hall ph hph hgone] at hactive
      cases hactive

def loneGraphRun : GraphRun where
  graph := loneGraph
  selection := ["a"]
  sizes := ⟨1, 1⟩
  latestAt _ := none
  sorted := List.pairwise_singleton _ _
  selected := fun _ hi => hi

def loneActs : List (Nat × Act) :=
  [(0, .enter), (0, .look), (0, .start {}), (0, .finish), (0, .release), (0, .ret (.ok ⟨.pass, "OK", none⟩)), (0, .store),
    (0, .notify), (0, .enter)]

theorem lone_executed : ∃ s, Machine.run loneGraphRun.step loneActs loneGraphRun.init = some s ∧ s.executed.Perm ["a"] := by
  obtain ⟨s, hrun, hworkers, herror⟩ : ∃ s, Machine.run loneGraphRun.step loneActs loneGraphRun.init = some s ∧
      s.workers = [.exited] ∧ s.sched.error = none := ⟨_, rfl, rfl, rfl⟩
  exact ⟨s, hrun, ((run_graph_schedules loneGraphRun hrun).2.1 (by simp [hworkers]) herror).1⟩

end Runs

end SovereignCore.AienTest
