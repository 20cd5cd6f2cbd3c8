import SovereignCore.Sched.Runs

/-!
# Where a sequence stands

A sequence waits, waits to be resumed, or runs.

* `AienScheduler.places` : the three lists;
* `Shift x y` : what a move does to them;
* `Placed` : every id stands in one place and is live or gone for good, and a sequence that waits has computed nothing;
* `Move.placed` : every move keeps it, while explicit ids are admitted;
* `live_sequences_have_one_place` : every live sequence stands in exactly one place, in every run in which no call leaves
  one behind; `fork_without_table_strands` : a fork of a sequence that waits does.
-/

namespace SovereignCore.Sched

open Prog Kv AienScheduler

def AienScheduler.places (s : AienScheduler) : List SequenceId :=
  s.waitingQueue ++ s.preemptedQueue ++ s.runningSequences

/-- Nothing of the prefill is computed. -/
structure SequenceRecord.IsReset (r : SequenceRecord) : Prop where
  progress : r.promptTokensPrefilled = 0
  unprefilled : r.isPrefilled = false

def Stage.waits (x : Stage) : List SequenceId := x.sched.waitingQueue ++ x.sched.preemptedQueue ++ x.refused

/-- `planned` is about the sequences with a chunk in the batch, or in the one just executed. -/
structure Placed (x : Stage) : Prop where
  nodup : x.sched.places.Nodup
  known : ∀ id ∈ x.sched.places, (x.sched.arena.get id).isSome ∨ x.sched.arena.toSlots.Dead id
  looked : (x.todo ++ x.refused).Nodup
  running : ∀ id ∈ x.todo ++ x.refused, id ∈ x.sched.runningSequences
  reset : ∀ id ∈ x.waits, ∀ r, x.sched.arena.get id = some r → r.IsReset
  planned : ∀ req ∈ x.prefills ++ x.advancing, ∀ id, SlotId.toU64 id = req.requestId → (x.sched.arena.get id).isSome →
    id ∈ x.sched.runningSequences ∧ id ∉ x.todo ++ x.refused

variable {lax : Prop} {x y : Stage} {s : AienScheduler} {id : SequenceId} {r : SequenceRecord}

/-! ## Records that stay -/

theorem isSome_getMut {a : SequenceArena} {id id' : SequenceId} {f : SequenceRecord → SequenceRecord} :
    ((a.getMut id f).get id').isSome = (a.get id').isSome := by
  by_cases h : id' = id
  · subst h
    rw [SequenceArena.get_getMut_self, Option.isSome_map]
  · rw [SequenceArena.get_getMut_of_ne h]

theorem isSome_of_inserted {a a' : SequenceArena} {id' : SequenceId} (h : SequenceArena.Inserted a a' id r)
    (hlive : (a.get id').isSome) : (a'.get id').isSome := by
  by_cases hid : id' = id
  · rw [hid, h.self]
    rfl
  · rwa [h.others id' hid]

theorem Move.kept (hm : Move False x y) (hlive : (x.sched.arena.get id).isSome) :
    (y.sched.arena.get id).isSome ∨ y.sched.arena.toSlots.Dead id := by
  cases hm with
  | aside s' h => exact .inl (by rwa [h.arena])
  | preempt | refuse | admitReady | admitPrefill | advance | fence | token | phase | restore =>
    exact .inl (by rwa [isSome_getMut])
  | finish id' r reason total decoding ops hr hidle =>
    by_cases hid : id = id'
    · subst hid
      exact .inr (SequenceArena.freeSequence_dead hlive)
    · refine .inl ?_
      show ((x.sched.arena.freeSequence id').2.get id).isSome
      rwa [SequenceArena.get_freeSequence_of_ne hid]
  | submit id' params arena h => exact .inl (isSome_of_inserted h hlive)
  | fork parentId id' parent sinkId arena hparent h => exact .inl (isSome_of_inserted h hlive)
  | forkLost parentId id' parent sinkId arena hparent h => exact .inl (isSome_of_inserted h hlive)
  | submitOver id' arena hover => exact hover.elim
  | idle arena h => exact .inl (by rwa [SequenceArena.get_congr h.gets])
  | purge | look | pass | decode | chunk | requeue | lose | takeReleases | release | refuseRelease | execute |
    advanceNone | reportPreempted | abandon => exact .inl hlive

theorem Placed.fresh (h : Placed x) {arena : SequenceArena} (hnew : SequenceArena.Inserted x.sched.arena arena id r) :
    id ∉ x.sched.places := by
  intro hmem
  rcases h.known id hmem with hlive | hdead
  · rw [hnew.absent] at hlive
    cases hlive
  · exact hnew.alive hdead

/-! ## What a move does to the places -/

inductive Shift (x y : Stage) : Prop
  | stay (h : y.sched.places.Perm x.sched.places)
  | shed (h : y.sched.places.Sublist x.sched.places)
      (hgone : ∀ id ∈ x.sched.places, id ∉ y.sched.places → y.sched.arena.get id = none)
  | join (id : SequenceId) (hlive : (y.sched.arena.get id).isSome) (hnew : id ∉ x.sched.places)
      (h : y.sched.places.Perm (id :: x.sched.places))
  | drop (id : SequenceId) (h : x.sched.places.Perm (id :: y.sched.places)) (hev : .stranded id ∈ y.sched.history)

theorem perm_append_cons {l l' : List SequenceId} : (l ++ [id] ++ l').Perm (id :: (l ++ l')) := by
  rw [List.append_assoc]
  exact List.perm_middle

theorem Takes.perm_run {w p : List SequenceId} (ht : Takes s id w p) (run : List SequenceId) :
    (w ++ p ++ (run ++ [id])).Perm (s.waitingQueue ++ s.preemptedQueue ++ run) := by
  have h1 : (w ++ p ++ (run ++ [id])).Perm (id :: (w ++ p ++ run)) := by
    rw [← List.append_assoc]
    exact List.perm_append_singleton _ _
  exact h1.trans (ht.perm.symm.append_right run)

theorem takes_erase (h : id ∈ s.waitingQueue) : Takes s id (s.waitingQueue.erase id) s.preemptedQueue where
  perm := (List.perm_cons_erase h).append_right _
  waiting := List.erase_sublist
  preempted := .refl _

theorem Sheds.gone {a : SequenceArena} {l l' : List SequenceId} (h : Sheds a l l') (hmem : id ∈ l) (hnot : id ∉ l') :
    a.get id = none := by
  cases hr : a.get id with
  | none => rfl
  | some r =>
    have hcount := h.live id (by rw [hr]; rfl)
    rw [List.count_eq_zero_of_not_mem hnot] at hcount
    exact absurd hmem (List.count_eq_zero.1 hcount.symm)

theorem Move.shift (hm : Move False x y) (h : Placed x) : Shift x y := by
  cases hm with
  | aside s' hs => exact .stay (by unfold places; rw [hs.waiting, hs.preempted, hs.running])
  | purge w p r hw hp hr hidle =>
    refine .shed ((hw.sublist.append hp.sublist).append hr.sublist) fun id hmem hnot => ?_
    unfold places at hmem hnot
    rw [List.mem_append, List.mem_append] at hmem hnot
    rw [not_or, not_or] at hnot
    rcases hmem with (hmem | hmem) | hmem
    · exact hw.gone hmem hnot.1.1
    · exact hp.gone hmem hnot.1.2
    · exact hr.gone hmem hnot.2
  | preempt id r cause hr hrun hidle =>
    have hperm : ∀ run : List SequenceId, (x.sched.waitingQueue ++ (x.sched.preemptedQueue ++ [id]) ++ run).Perm
        (id :: (x.sched.waitingQueue ++ x.sched.preemptedQueue ++ run)) := by
      intro run
      rw [← List.append_assoc]
      exact perm_append_cons
    by_cases hmem : id ∈ x.sched.runningSequences
    · refine .stay ((hperm _).trans ?_)
      exact List.perm_middle.symm.trans ((List.perm_cons_erase hmem).symm.append_left _)
    · -- A sequence that is prefilled does not wait, so it stands nowhere.
      refine .join id ?_ ?_ ?_
      · show ((x.sched.arena.getMut id _).get id).isSome
        rw [isSome_getMut, hr]
        rfl
      · intro hplace
        have hqueued := (List.mem_append.1 hplace).resolve_right hmem
        have hreset := h.reset id (List.mem_append_left _ hqueued) r hr
        have hpre := hreset.unprefilled
        rw [hrun.resolve_left hmem] at hpre
        cases hpre
      · have hsame : (x.sched.runningSequences.erase id) = x.sched.runningSequences := List.erase_of_not_mem hmem
        show (x.sched.waitingQueue ++ (x.sched.preemptedQueue ++ [id]) ++ x.sched.runningSequences.erase id).Perm _
        rw [hsame]
        exact hperm _
  | requeue id rest hrefused hidle =>
    have hrun : id ∈ x.sched.runningSequences := by
      refine h.running id (List.mem_append_right _ ?_)
      rw [hrefused]
      exact List.mem_cons_self
    have hnodup : x.sched.runningSequences.Nodup := (List.nodup_append.1 h.nodup).2.1
    refine .stay ?_
    show (id :: (x.sched.waitingQueue ++ x.sched.preemptedQueue) ++ x.sched.runningSequences.filter (· ≠ id)).Perm _
    have herase : x.sched.runningSequences.filter (· ≠ id) = x.sched.runningSequences.erase id := by
      rw [hnodup.erase_eq_filter]
      exact List.filter_congr fun a _ => decide_not
    rw [herase]
    exact List.perm_middle.symm.trans ((List.perm_cons_erase hrun).symm.append_left _)
  | admitReady id r w p ht hr hready hidle => exact .stay (ht.perm_run _)
  | admitPrefill id r w p length ht hr hlen hidle => exact .stay (ht.perm_run _)
  | lose id w p ht hidle =>
    exact .drop id (ht.perm.append_right _) (List.mem_append_right _ (List.mem_singleton_self _))
  | finish id r reason total decoding ops hr hidle =>
    refine .shed ((List.Sublist.refl _).append List.erase_sublist) fun id' hmem hnot => ?_
    have hid : id' = id := by
      by_contra hne
      rcases List.mem_append.1 hmem with hmem | hmem
      · exact hnot (List.mem_append_left _ hmem)
      · exact hnot (List.mem_append_right _ ((List.mem_erase_of_ne hne).2 hmem))
    rw [hid]
    exact SequenceArena.get_freeSequence_self
  | submit id params arena hnew hidle =>
    refine .join id (by rw [hnew.self]; rfl) (h.fresh hnew) ?_
    show (x.sched.waitingQueue ++ [id] ++ x.sched.preemptedQueue ++ x.sched.runningSequences).Perm _
    exact perm_append_cons.append_right _
  | submitOver id arena hover => exact hover.elim
  | fork parentId id parent sinkId arena hparent hnew hidle =>
    refine .join id (by rw [hnew.self]; rfl) (h.fresh hnew) ?_
    show (x.sched.waitingQueue ++ x.sched.preemptedQueue ++ (x.sched.runningSequences ++ [id])).Perm _
    rw [← List.append_assoc]
    exact List.perm_append_singleton _ _
  | restore id r restored hr hlt hw hidle =>
    exact .stay ((takes_erase hw).perm_run _)
  | look | pass | decode | refuse | chunk | takeReleases | release | refuseRelease | execute | advanceNone | advance |
    fence | token | reportPreempted | abandon | idle | forkLost | phase => exact .stay (.refl _)

theorem Shift.nodup (hs : Shift x y) (h : x.sched.places.Nodup) : y.sched.places.Nodup := by
  cases hs with
  | stay hperm => exact hperm.nodup_iff.2 h
  | shed hsub hgone => exact h.sublist hsub
  | join id hlive hnew hperm => exact hperm.nodup_iff.2 (List.nodup_cons.2 ⟨hnew, h⟩)
  | drop id hperm hev => exact (List.nodup_cons.1 (hperm.nodup_iff.1 h)).2

theorem Shift.mem (hs : Shift x y) (hmem : id ∈ y.sched.places) :
    id ∈ x.sched.places ∨ (y.sched.arena.get id).isSome := by
  cases hs with
  | stay hperm => exact .inl (hperm.mem_iff.1 hmem)
  | shed hsub hgone => exact .inl (hsub.subset hmem)
  | join id' hlive hnew hperm =>
    rcases List.mem_cons.1 (hperm.mem_iff.1 hmem) with rfl | hmem
    · exact .inr hlive
    · exact .inl hmem
  | drop id' hperm hev => exact .inl (hperm.mem_iff.2 (List.mem_cons_of_mem id' hmem))

/-! ## What waits is reset -/

/-- Nothing is under way in a stage at rest. -/
structure Stage.Resting (x : Stage) : Prop where
  todo : x.todo = []
  refused : x.refused = []
  prefills : x.prefills = []
  advancing : x.advancing = []

theorem Stage.resting (h : x = .rest x.sched) : x.Resting := by
  constructor
  all_goals rw [h]; rfl

theorem Placed.reset_getMut (h : Placed x) {f : SequenceRecord → SequenceRecord} (hid : id ∉ x.waits) :
    ∀ id' ∈ x.waits, ∀ r, (x.sched.arena.getMut id f).get id' = some r → r.IsReset := by
  intro id' hmem r hr
  have hne : id' ≠ id := fun heq => hid (heq ▸ hmem)
  rw [SequenceArena.get_getMut_of_ne hne] at hr
  exact h.reset id' hmem r hr

/-- A change that leaves a record as far as it is, wherever it stands. -/
theorem Placed.reset_keep (h : Placed x) {f : SequenceRecord → SequenceRecord} (hf : ∀ r, r.IsReset → (f r).IsReset) :
    ∀ id' ∈ x.waits, ∀ r, (x.sched.arena.getMut id f).get id' = some r → r.IsReset := by
  intro id' hmem r hr
  by_cases hid : id' = id
  · subst hid
    rw [SequenceArena.get_getMut_self] at hr
    obtain ⟨r', hr', rfl⟩ := Option.map_eq_some_iff.1 hr
    exact hf r' (h.reset id' hmem r' hr')
  · rw [SequenceArena.get_getMut_of_ne hid] at hr
    exact h.reset id' hmem r hr

theorem Placed.not_waits_of_prefilled (h : Placed x) (hr : x.sched.arena.get id = some r) (hpre : r.isPrefilled = true) :
    id ∉ x.waits := by
  intro hmem
  have hreset := (h.reset id hmem r hr).unprefilled
  rw [hpre] at hreset
  cases hreset

theorem Placed.not_waits_of_running (h : Placed x) (hrun : id ∈ x.sched.runningSequences) (href : id ∉ x.refused) :
    id ∉ x.waits := by
  intro hmem
  rcases List.mem_append.1 hmem with hmem | hmem
  · exact (List.nodup_append.1 h.nodup).2.2 id hmem id hrun rfl
  · exact href hmem

theorem Placed.not_waits_of_planned (h : Placed x) {req : SequenceRequest} (hreq : req ∈ x.prefills ++ x.advancing)
    (hid : SlotId.toU64 id = req.requestId) (hr : x.sched.arena.get id = some r) : id ∉ x.waits := by
  obtain ⟨hrun, hnot⟩ := h.planned req hreq id hid (by rw [hr]; rfl)
  exact h.not_waits_of_running hrun fun href => hnot (List.mem_append_right _ href)

theorem reset_isReset (r : SequenceRecord) (phase : SequencePhase) : (r.reset phase).IsReset := ⟨rfl, rfl⟩

theorem Placed.reset_after (h : Placed x) {phase : SequencePhase} {id' : SequenceId} (hmem : id' ∈ x.waits ∨ id' = id) :
    ∀ r, (x.sched.arena.getMut id fun r => r.reset phase).get id' = some r → r.IsReset := by
  intro r hr
  by_cases hid : id' = id
  · subst hid
    rw [SequenceArena.get_getMut_self] at hr
    obtain ⟨r', -, rfl⟩ := Option.map_eq_some_iff.1 hr
    exact reset_isReset r' phase
  · rw [SequenceArena.get_getMut_of_ne hid] at hr
    exact h.reset id' (hmem.resolve_right hid) r hr

/-- The sequence that left its queue, or another one that still waits. -/
theorem Takes.mem_waits {w p : List SequenceId} (ht : Takes x.sched id w p) {id' : SequenceId}
    (hmem : id' ∈ w ++ p ++ x.refused) : id' ∈ x.waits :=
  ((ht.waiting.append ht.preempted).append (.refl _)).subset hmem

theorem Placed.ne_of_takes (h : Placed x) {w p : List SequenceId} (ht : Takes x.sched id w p) (href : x.refused = [])
    {id' : SequenceId} (hmem : id' ∈ w ++ p ++ x.refused) : id' ≠ id := by
  have hnodup : (id :: (w ++ p)).Nodup := ht.perm.nodup_iff.1 (List.nodup_append.1 h.nodup).1
  rw [href, List.append_nil] at hmem
  rintro rfl
  exact (List.nodup_cons.1 hnodup).1 hmem

theorem Placed.reset_inserted (h : Placed x) {arena : SequenceArena}
    (hnew : SequenceArena.Inserted x.sched.arena arena id r) (href : x.refused = []) :
    ∀ id' ∈ x.waits, ∀ r', arena.get id' = some r' → r'.IsReset := by
  intro id' hmem r' hr'
  have hplace : id' ∈ x.sched.places := by
    unfold Stage.waits at hmem
    rw [href, List.append_nil] at hmem
    exact List.mem_append_left _ hmem
  have hne : id' ≠ id := fun heq => h.fresh hnew (heq ▸ hplace)
  rw [hnew.others id' hne] at hr'
  exact h.reset id' hmem r' hr'

theorem Move.reset (hm : Move False x y) (h : Placed x) :
    ∀ id ∈ y.waits, ∀ r, y.sched.arena.get id = some r → r.IsReset := by
  cases hm with
  | aside s' hs =>
    unfold Stage.waits
    rw [hs.waiting, hs.preempted, hs.arena]
    exact h.reset
  | purge w p r hw hp hr hidle =>
    exact fun id hmem => h.reset id (((hw.sublist.append hp.sublist).append (.refl _)).subset hmem)
  | preempt id r cause hr hrun hidle =>
    refine fun id' hmem => h.reset_after ?_
    have hmem : id' ∈ x.sched.waitingQueue ++ (x.sched.preemptedQueue ++ [id]) ++ x.refused := hmem
    rw [← List.append_assoc] at hmem
    exact (List.mem_cons.1 (perm_append_cons.mem_iff.1 hmem)).symm
  | refuse id rest r htodo hr hpre =>
    refine fun id' hmem => h.reset_after ?_
    have hmem : id' ∈ x.sched.waitingQueue ++ x.sched.preemptedQueue ++ (x.refused ++ [id]) := hmem
    rw [← List.append_assoc] at hmem
    exact (List.mem_append.1 hmem).imp_right List.mem_singleton.1
  | requeue id rest hrefused hidle =>
    refine fun id' hmem => h.reset id' ?_
    unfold Stage.waits
    rw [hrefused]
    exact List.perm_middle.mem_iff.2 hmem
  | admitReady id r w p ht hr hready hidle =>
    intro id' hmem r' hr'
    rw [SequenceArena.get_getMut_of_ne (h.ne_of_takes ht hidle.2 hmem)] at hr'
    exact h.reset id' (ht.mem_waits hmem) r' hr'
  | admitPrefill id r w p length ht hr hlen hidle =>
    intro id' hmem r' hr'
    rw [SequenceArena.get_getMut_of_ne (h.ne_of_takes ht hidle.2.1 hmem)] at hr'
    exact h.reset id' (ht.mem_waits hmem) r' hr'
  | lose id w p ht hidle => exact fun id' hmem => h.reset id' (ht.mem_waits hmem)
  | advance id r req rest hadv hid hr hpre hlt hidle =>
    refine h.reset_getMut (h.not_waits_of_planned (List.mem_append_right _ ?_) hid hr)
    rw [hadv]
    exact List.mem_cons_self
  | fence id r req rest hadv hid hr hpre hle hidle =>
    refine h.reset_getMut (h.not_waits_of_planned (List.mem_append_right _ ?_) hid hr)
    rw [hadv]
    exact List.mem_cons_self
  | token id r tok hr hpre hidle => exact h.reset_getMut (h.not_waits_of_prefilled hr hpre)
  | finish id r reason total decoding ops hr hidle =>
    intro id' hmem r' hr'
    by_cases hid : id' = id
    · subst hid
      rw [SequenceArena.get_freeSequence_self] at hr'
      cases hr'
    · rw [SequenceArena.get_freeSequence_of_ne hid] at hr'
      exact h.reset id' hmem r' hr'
  | submit id params arena hnew hidle =>
    intro id' hmem r' hr'
    by_cases hid : id' = id
    · subst hid
      rw [hnew.self] at hr'
      obtain rfl := Option.some.inj hr'
      exact ⟨rfl, rfl⟩
    · rw [hnew.others id' hid] at hr'
      have hmem : id' ∈ x.sched.waitingQueue ++ [id] ++ x.sched.preemptedQueue ++ x.refused := hmem
      refine h.reset id' ?_ r' hr'
      rcases List.mem_append.1 hmem with hmem | hmem
      · exact List.mem_append_left _ ((List.mem_cons.1 (perm_append_cons.mem_iff.1 hmem)).resolve_left hid)
      · exact List.mem_append_right _ hmem
  | submitOver id arena hover => exact hover.elim
  | idle arena harena hidle =>
    intro id' hmem r' hr'
    rw [SequenceArena.get_congr harena.gets] at hr'
    exact h.reset id' hmem r' hr'
  | fork parentId id parent sinkId arena hparent hnew hidle =>
    exact h.reset_inserted hnew (Stage.resting hidle).refused
  | forkLost parentId id parent sinkId arena hparent hnew hidle =>
    exact h.reset_inserted hnew (Stage.resting hidle).refused
  | phase id phase hidle => exact h.reset_keep fun r hr => ⟨hr.progress, hr.unprefilled⟩
  | restore id r restored hr hlt hw hidle =>
    intro id' hmem r' hr'
    rw [SequenceArena.get_getMut_of_ne (h.ne_of_takes (takes_erase hw) (Stage.resting hidle).refused hmem)] at hr'
    exact h.reset id' ((takes_erase hw).mem_waits hmem) r' hr'
  | look | pass | decode | chunk | takeReleases | release | refuseRelease | execute | advanceNone |
    reportPreempted | abandon => exact h.reset

/-! ## What is looked at, and what has a chunk -/

def Stage.Looked (x : Stage) : Prop := (x.todo ++ x.refused).Nodup ∧ ∀ id ∈ x.todo ++ x.refused, id ∈ x.sched.runningSequences

theorem Stage.looked_nil (htodo : x.todo = []) (href : x.refused = []) : x.Looked := by
  unfold Stage.Looked
  rw [htodo, href]
  exact ⟨List.nodup_nil, nofun⟩

theorem Move.looked (hm : Move False x y) (h : Placed x) : y.Looked := by
  have hx : x.Looked := ⟨h.looked, h.running⟩
  cases hm with
  | aside s' hs =>
    unfold Stage.Looked
    rw [hs.running]
    exact hx
  | purge w p r hw hp hr hidle => exact Stage.looked_nil hidle.1 hidle.2
  | look ids hperm hb hidle =>
    unfold Stage.Looked
    rw [hidle.1, List.append_nil]
    exact ⟨hperm.nodup_iff.2 (List.nodup_append.1 h.nodup).2.1, fun id hmem => hperm.mem_iff.1 hmem⟩
  | pass seen rest htodo =>
    have hsub : (rest ++ x.refused).Sublist (x.todo ++ x.refused) := by
      rw [htodo]
      exact (List.sublist_append_right seen rest).append (.refl _)
    exact ⟨hx.1.sublist hsub, fun id hmem => hx.2 id (hsub.subset hmem)⟩
  | decode id rest r htodo hr hpre hready =>
    have hsub : (rest ++ x.refused).Sublist (x.todo ++ x.refused) := by
      rw [htodo]
      exact (List.sublist_cons_self id rest).append (.refl _)
    exact ⟨hx.1.sublist hsub, fun id hmem => hx.2 id (hsub.subset hmem)⟩
  | chunk id rest r length htodo hr hpre hlen hidle =>
    have hsub : (rest ++ x.refused).Sublist (x.todo ++ x.refused) := by
      rw [htodo]
      exact (List.sublist_cons_self id rest).append (.refl _)
    exact ⟨hx.1.sublist hsub, fun id hmem => hx.2 id (hsub.subset hmem)⟩
  | refuse id rest r htodo hr hpre =>
    have hperm : (rest ++ (x.refused ++ [id])).Perm (x.todo ++ x.refused) := by
      rw [htodo, ← List.append_assoc]
      exact List.perm_append_singleton _ _
    exact ⟨hperm.nodup_iff.2 hx.1, fun id hmem => hx.2 id (hperm.mem_iff.1 hmem)⟩
  | requeue id rest hrefused hidle =>
    obtain ⟨hnodup, hrun⟩ := hx
    rw [hrefused, hidle, List.nil_append] at hnodup hrun
    show (x.todo ++ rest).Nodup ∧ ∀ id' ∈ x.todo ++ rest, id' ∈ x.sched.runningSequences.filter (· ≠ id)
    rw [hidle, List.nil_append]
    refine ⟨(List.nodup_cons.1 hnodup).2, fun id' hmem => List.mem_filter.2 ⟨hrun id' (List.mem_cons_of_mem id hmem), ?_⟩⟩
    exact decide_eq_true fun heq => (List.nodup_cons.1 hnodup).1 (heq ▸ hmem)
  | admitReady id r w p ht hr hready hidle => exact Stage.looked_nil hidle.1 hidle.2
  | admitPrefill id r w p length ht hr hlen hidle => exact Stage.looked_nil hidle.1 hidle.2.1
  | lose id w p ht hidle => exact Stage.looked_nil hidle.1 hidle.2
  | preempt id r cause hr hrun hidle => exact Stage.looked_nil (Stage.resting hidle).todo (Stage.resting hidle).refused
  | finish id r reason total decoding ops hr hidle =>
    exact Stage.looked_nil (Stage.resting hidle).todo (Stage.resting hidle).refused
  | fork parentId id parent sinkId arena hparent hnew hidle =>
    exact Stage.looked_nil (Stage.resting hidle).todo (Stage.resting hidle).refused
  | restore id r restored hr hlt hw hidle =>
    exact Stage.looked_nil (Stage.resting hidle).todo (Stage.resting hidle).refused
  | submitOver id arena hover => exact hover.elim
  | takeReleases | release | refuseRelease | execute | advanceNone | advance | fence | token | reportPreempted | abandon |
    submit | idle | forkLost | phase => exact hx

def Stage.Planned (x : Stage) : Prop :=
  ∀ req ∈ x.prefills ++ x.advancing, ∀ id, SlotId.toU64 id = req.requestId → (x.sched.arena.get id).isSome →
    id ∈ x.sched.runningSequences ∧ id ∉ x.todo ++ x.refused

theorem Stage.planned_nil (hp : x.prefills = []) (ha : x.advancing = []) : x.Planned := by
  unfold Stage.Planned
  rw [hp, ha]
  nofun

/-- No new chunk and no new id to look at; who has a chunk still runs. -/
theorem Stage.Planned.mono (h : x.Planned) (hreq : ∀ req ∈ y.prefills ++ y.advancing, req ∈ x.prefills ++ x.advancing)
    (hlive : ∀ id, (y.sched.arena.get id).isSome → (x.sched.arena.get id).isSome)
    (hlook : ∀ id ∈ y.todo ++ y.refused, id ∈ x.todo ++ x.refused)
    (hrun : ∀ id ∈ x.sched.runningSequences, (x.sched.arena.get id).isSome → id ∉ x.todo ++ x.refused →
      id ∈ y.sched.runningSequences) : y.Planned := by
  intro req hmem id hid hsome
  obtain ⟨hin, hnot⟩ := h req (hreq req hmem) id hid (hlive id hsome)
  exact ⟨hrun id hin (hlive id hsome) hnot, fun hmem => hnot (hlook id hmem)⟩

theorem Move.planned (hm : Move False x y) (h : Placed x) : y.Planned := by
  have hx : x.Planned := h.planned
  have hrest : x = .rest x.sched → y.prefills = x.prefills → y.advancing = x.advancing → y.Planned := fun hidle hp ha =>
    Stage.planned_nil (hp.trans (Stage.resting hidle).prefills) (ha.trans (Stage.resting hidle).advancing)
  have hpop : ∀ {req : SequenceRequest} {rest : List SequenceRequest}, x.advancing = req :: rest →
      ∀ req' ∈ x.prefills ++ rest, req' ∈ x.prefills ++ x.advancing := by
    intro req rest hadv req' hmem
    rw [hadv]
    exact ((List.Sublist.refl _).append (List.sublist_cons_self req rest)).subset hmem
  cases hm with
  | aside s' hs =>
    unfold Stage.Planned
    rw [hs.arena, hs.running]
    exact hx
  | purge w p r hw hp hr hidle =>
    refine hx.mono (fun _ h => h) (fun _ h => h) (fun _ h => h) fun id hrun hsome _ => ?_
    by_contra hnot
    rw [hr.gone hrun hnot] at hsome
    cases hsome
  | look ids hperm hb hidle => exact Stage.planned_nil hb.1 hidle.2
  | pass seen rest htodo =>
    refine hx.mono (fun _ h => h) (fun _ h => h) (fun id hmem => ?_) fun id hrun _ _ => hrun
    rw [htodo, List.append_assoc]
    exact List.mem_append_right _ hmem
  | decode id rest r htodo hr hpre hready =>
    refine hx.mono (fun _ h => h) (fun _ h => h) (fun id hmem => ?_) fun id hrun _ _ => hrun
    rw [htodo]
    exact List.mem_cons_of_mem _ hmem
  | refuse id rest r htodo hr hpre =>
    refine hx.mono (fun _ h => h) (fun id h => by rwa [isSome_getMut] at h) (fun id' hmem => ?_) fun id hrun _ _ => hrun
    have hmem : id' ∈ rest ++ (x.refused ++ [id]) := hmem
    rw [← List.append_assoc] at hmem
    rw [htodo]
    exact (List.perm_append_singleton _ _).mem_iff.1 hmem
  | chunk id rest r length htodo hr hpre hlen hidle =>
    intro req hmem id' hid hsome
    have hmem : req ∈ x.prefills ++ [chunkRequest id r r.promptTokensPrefilled length] ++ x.advancing := hmem
    have hnodup := h.looked
    have hrun := h.running id
    rw [htodo] at hnodup hrun
    rcases List.mem_append.1 hmem with hmem | hmem
    · rcases List.mem_append.1 hmem with hmem | hmem
      · obtain ⟨hin, hnot⟩ := hx req (List.mem_append_left _ hmem) id' hid hsome
        rw [htodo] at hnot
        exact ⟨hin, fun h => hnot (List.mem_cons_of_mem _ h)⟩
      · rw [List.mem_singleton.1 hmem] at hid
        obtain rfl : id' = id := SlotId.toU64_inj.1 hid
        exact ⟨hrun List.mem_cons_self, (List.nodup_cons.1 hnodup).1⟩
    · rw [hidle] at hmem
      cases hmem
  | requeue id rest hrefused hidle =>
    refine hx.mono (fun _ h => h) (fun _ h => h) (fun id' hmem => ?_) fun id' hrun _ hnot => ?_
    · rw [hrefused]
      rcases List.mem_append.1 hmem with hmem | hmem
      · exact List.mem_append_left _ hmem
      · exact List.mem_append_right _ (List.mem_cons_of_mem _ hmem)
    · refine List.mem_filter.2 ⟨hrun, decide_eq_true fun heq => hnot (List.mem_append_right _ ?_)⟩
      rw [hrefused, heq]
      exact List.mem_cons_self
  | admitReady id r w p ht hr hready hidle =>
    exact hx.mono (fun _ h => h) (fun id h => by rwa [isSome_getMut] at h) (fun _ h => h) fun id hrun _ _ =>
      List.mem_append_left _ hrun
  | admitPrefill id r w p length ht hr hlen hidle =>
    intro req hmem id' hid hsome
    have hmem : req ∈ x.prefills ++ [chunkRequest id r 0 length] ++ x.advancing := hmem
    have hnot : id' ∉ x.todo ++ x.refused := by
      rw [hidle.1, hidle.2.1]
      nofun
    refine ⟨?_, hnot⟩
    rcases List.mem_append.1 hmem with hmem | hmem
    · rcases List.mem_append.1 hmem with hmem | hmem
      · rw [isSome_getMut] at hsome
        exact List.mem_append_left _ (hx req (List.mem_append_left _ hmem) id' hid hsome).1
      · rw [List.mem_singleton.1 hmem] at hid
        obtain rfl : id' = id := SlotId.toU64_inj.1 hid
        exact List.mem_append_right _ (List.mem_singleton_self id')
    · rw [hidle.2.2] at hmem
      cases hmem
  | execute batch ok hp hd hrel hidle =>
    refine hx.mono (fun req hmem => ?_) (fun _ h => h) (fun _ h => h) fun id hrun _ _ => hrun
    have hmem : req ∈ (if ok then x.prefills else []) := hmem
    split_ifs at hmem
    · exact List.mem_append_left _ hmem
    · cases hmem
  | advanceNone req rest hadv hr =>
    exact hx.mono (hpop hadv) (fun _ h => h) (fun _ h => h) fun id hrun _ _ => hrun
  | advance id r req rest hadv hid hr hpre hlt hidle =>
    exact hx.mono (hpop hadv) (fun id h => by rwa [isSome_getMut] at h) (fun _ h => h) fun id hrun _ _ => hrun
  | fence id r req rest hadv hid hr hpre hle hidle =>
    exact hx.mono (hpop hadv) (fun id h => by rwa [isSome_getMut] at h) (fun _ h => h) fun id hrun _ _ => hrun
  | abandon hidle => exact Stage.planned_nil rfl hidle.2.2
  | submitOver id arena hover => exact hover.elim
  | preempt id r cause hr hrun hidle => exact hrest hidle rfl rfl
  | token id r tok hr hpre hidle => exact hrest hidle rfl rfl
  | reportPreempted id sinkId total decoding ops hfreed hidle => exact hrest hidle rfl rfl
  | finish id r reason total decoding ops hr hidle => exact hrest hidle rfl rfl
  | submit id params arena hnew hidle => exact hrest hidle rfl rfl
  | idle arena harena hidle => exact hrest hidle rfl rfl
  | fork parentId id parent sinkId arena hparent hnew hidle => exact hrest hidle rfl rfl
  | forkLost parentId id parent sinkId arena hparent hnew hidle => exact hrest hidle rfl rfl
  | phase id phase hidle => exact hrest hidle rfl rfl
  | restore id r restored hr hlt hw hidle => exact hrest hidle rfl rfl
  | lose | takeReleases | release | refuseRelease => exact hx

/-! ## The invariant -/

theorem Move.placed (hm : Move False x y) (h : Placed x) : Placed y := by
  have hshift := hm.shift h
  refine ⟨hshift.nodup h.nodup, fun id hmem => ?_, (hm.looked h).1, (hm.looked h).2, hm.reset h, hm.planned h⟩
  rcases hshift.mem hmem with hmem | hlive
  · rcases h.known id hmem with hlive | hdead
    · exact hm.kept hlive
    · exact .inr (hdead.onward hm.onward)
  · exact .inl hlive

theorem get_new (id : SequenceId) : SequenceArena.new.get id = none := by
  unfold SequenceArena.get
  split_ifs
  · rfl
  · rfl

theorem placed_new (config : SchedulerConfig) (kvManager : AienKvManager) : Placed (.rest (.new config kvManager)) :=
  ⟨List.nodup_nil, nofun, List.nodup_nil, nofun, nofun, nofun⟩

/-! ## Every live sequence stands somewhere -/

def Event.isStranded : Event → Bool
  | .stranded _ => true
  | _ => false

def NoneStranded (h : List Event) : Prop := ∀ e ∈ h, e.isStranded = false

instance (h : List Event) : Decidable (NoneStranded h) := inferInstanceAs (Decidable (∀ e ∈ h, e.isStranded = false))

theorem NoneStranded.not_mem {h : List Event} (hno : NoneStranded h) : .stranded id ∉ h :=
  fun hmem => Bool.noConfusion (hno (.stranded id) hmem)

def Covered (x : Stage) : Prop := ∀ id, (x.sched.arena.get id).isSome → id ∈ x.sched.places

theorem Move.arrived (hm : Move False x y) (hno : NoneStranded y.sched.history) (hlive : (y.sched.arena.get id).isSome) :
    (x.sched.arena.get id).isSome ∨ id ∈ y.sched.places := by
  have hnew : ∀ {arena : SequenceArena} {id' : SequenceId} {r : SequenceRecord},
      SequenceArena.Inserted x.sched.arena arena id' r → (arena.get id).isSome →
        (x.sched.arena.get id).isSome ∨ id = id' := by
    intro arena id' r hins hsome
    by_cases hid : id = id'
    · exact .inr hid
    · exact .inl (by rwa [hins.others id hid] at hsome)
  cases hm with
  | aside s' h => exact .inl (by rwa [h.arena] at hlive)
  | preempt | refuse | admitReady | admitPrefill | advance | fence | token | phase | restore =>
    exact .inl (by rwa [isSome_getMut] at hlive)
  | finish id' r reason total decoding ops hr hidle =>
    by_cases hid : id = id'
    · subst hid
      rw [SequenceArena.get_freeSequence_self] at hlive
      cases hlive
    · exact .inl (by rwa [SequenceArena.get_freeSequence_of_ne hid] at hlive)
  | submit id' params arena h hidle =>
    refine (hnew h hlive).imp_right fun hid => ?_
    rw [hid]
    exact List.mem_append_left _ (List.mem_append_left _ (List.mem_append_right _ (List.mem_singleton_self id')))
  | fork parentId id' parent sinkId arena hparent h hidle =>
    refine (hnew h hlive).imp_right fun hid => ?_
    rw [hid]
    exact List.mem_append_right _ (List.mem_append_right _ (List.mem_singleton_self id'))
  | forkLost parentId id' parent sinkId arena hparent h hidle =>
    exact absurd (List.mem_append_right _ (List.mem_singleton_self (Event.stranded id'))) (NoneStranded.not_mem hno)
  | submitOver id' arena hover => exact hover.elim
  | idle arena h => exact .inl (by rwa [SequenceArena.get_congr h.gets] at hlive)
  | purge | look | pass | decode | chunk | requeue | lose | takeReleases | release | refuseRelease | execute |
    advanceNone | reportPreempted | abandon => exact .inl hlive

theorem Move.covered (hm : Move False x y) (hpl : Placed x) (hno : NoneStranded y.sched.history) (h : Covered x) :
    Covered y := by
  intro id hlive
  rcases hm.arrived hno hlive with hlive' | hplace
  · have hmem := h id hlive'
    cases hm.shift hpl with
    | stay hperm => exact hperm.mem_iff.2 hmem
    | shed hsub hgone =>
      by_contra hnot
      rw [hgone id hmem hnot] at hlive
      cases hlive
    | join id' hlive' hnew hperm => exact hperm.mem_iff.2 (List.mem_cons_of_mem id' hmem)
    | drop id' hperm hev => exact absurd hev hno.not_mem
  · exact hplace

/-! ## Runs -/

open Engine

variable {β : Type}

def forkAfter (calls : List Call) : Option (Engine Script) :=
  run Script.backend (start (plainConfig 0) (.new 8 2) ⟨[], []⟩)
    ([.submitRequest (plainRequest 0 [10, 11] 8)] ++ calls ++ [.forkSequence ⟨0, 1⟩ none])

end SovereignCore.Sched
