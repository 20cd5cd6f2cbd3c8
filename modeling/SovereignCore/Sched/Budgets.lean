import SovereignCore.Sched.Rounds

/-!
# The budgets of a batch

* `Stage.Once` : no sequence is in the batch twice; `Move.once` : every move keeps it;
* `Budget c b` : what both loops keep of the batch size, the prefill tokens and the tokens;
* `SchedulerConfig.TokensFit` : when no chunk can exceed `max_batch_tokens`;
* `batches_within_budgets` : every batch of every reachable state; `batch_exceeds_tokens` : a chunk larger than
  `max_batch_tokens`.
-/

namespace SovereignCore.Sched

open Prog Kv AienScheduler

variable {ε : Type} {x y : Stage} {s : AienScheduler} {b : Building} {id : SequenceId} {c : SchedulerConfig}

/-! ## Each sequence at most once -/

def Stage.members (x : Stage) : List UInt64 := x.decodes ++ x.prefills.map SequenceRequest.requestId

/-- No sequence is in the batch twice, and one that is in it runs and is not looked at again. -/
structure Stage.Once (x : Stage) : Prop where
  nodup : x.members.Nodup
  settled : ∀ id, SlotId.toU64 id ∈ x.members → (x.sched.arena.get id).isSome →
    id ∈ x.sched.runningSequences ∧ id ∉ x.todo ++ x.refused

theorem Stage.once_nil (hp : x.prefills = []) (hd : x.decodes = []) : x.Once := by
  have hmem : x.members = [] := by
    unfold Stage.members
    rw [hp, hd]
    rfl
  exact ⟨hmem ▸ List.nodup_nil, fun id h => absurd (hmem ▸ h) List.not_mem_nil⟩

/-- The same batch, no new id to look at; who is in the batch still runs. -/
theorem Stage.Once.mono (h : x.Once) (hmem : y.members = x.members)
    (hlive : ∀ id, (y.sched.arena.get id).isSome → (x.sched.arena.get id).isSome)
    (hlook : ∀ id ∈ y.todo ++ y.refused, id ∈ x.todo ++ x.refused)
    (hrun : ∀ id ∈ x.sched.runningSequences, (x.sched.arena.get id).isSome → id ∉ x.todo ++ x.refused →
      id ∈ y.sched.runningSequences) : y.Once := by
  refine ⟨hmem ▸ h.nodup, fun id hid hsome => ?_⟩
  obtain ⟨hin, hnot⟩ := h.settled id (hmem ▸ hid) (hlive id hsome)
  exact ⟨hrun id hin (hlive id hsome) hnot, fun hmem => hnot (hlook id hmem)⟩

/-- A sequence that was not in the batch, runs and is not looked at again enters it. -/
theorem Stage.Once.enter (h : x.Once) (hmem : y.members.Perm (id.toU64 :: x.members)) (hnew : id.toU64 ∉ x.members)
    (hself : id ∈ y.sched.runningSequences ∧ id ∉ y.todo ++ y.refused)
    (hlive : ∀ id, (y.sched.arena.get id).isSome → (x.sched.arena.get id).isSome)
    (hlook : ∀ id ∈ y.todo ++ y.refused, id ∈ x.todo ++ x.refused)
    (hrun : ∀ id ∈ x.sched.runningSequences, id ∈ y.sched.runningSequences) : y.Once := by
  refine ⟨hmem.nodup_iff.2 (List.nodup_cons.2 ⟨hnew, h.nodup⟩), fun id' hid hsome => ?_⟩
  rcases List.mem_cons.1 (hmem.mem_iff.1 hid) with heq | hid
  · obtain rfl : id' = id := SlotId.toU64_inj.1 heq
    exact hself
  · obtain ⟨hin, hnot⟩ := h.settled id' hid (hlive id' hsome)
    exact ⟨hrun id' hin, fun hmem => hnot (hlook id' hmem)⟩

theorem members_decode (x : Stage) (raw : UInt64) :
    (x.decodes ++ [raw] ++ x.prefills.map SequenceRequest.requestId).Perm (raw :: x.members) := by
  unfold Stage.members
  rw [List.append_assoc]
  exact List.perm_middle

theorem members_prefill (x : Stage) (req : SequenceRequest) :
    (x.decodes ++ (x.prefills ++ [req]).map SequenceRequest.requestId).Perm (req.requestId :: x.members) := by
  unfold Stage.members
  rw [List.map_append, ← List.append_assoc]
  exact List.perm_append_singleton _ _

theorem Stage.Once.not_member (h : x.Once) (hlook : id ∈ x.todo ++ x.refused) (hlive : (x.sched.arena.get id).isSome) :
    id.toU64 ∉ x.members := fun hmem => (h.settled id hmem hlive).2 hlook

theorem Stage.Once.not_member_of_takes (h : x.Once) (hplaced : Placed x) {w p : List SequenceId}
    (ht : Takes x.sched id w p) (hlive : (x.sched.arena.get id).isSome) : id.toU64 ∉ x.members := by
  intro hmem
  have hrun := (h.settled id hmem hlive).1
  have hwait : id ∈ x.sched.waitingQueue ++ x.sched.preemptedQueue := ht.perm.mem_iff.2 List.mem_cons_self
  exact (List.nodup_append.1 hplaced.nodup).2.2 id hwait id hrun rfl

theorem Move.once (hm : Move False x y) (h : Placed x) (ho : x.Once) : y.Once := by
  have hrest : x = .rest x.sched → y.prefills = x.prefills → y.decodes = x.decodes → y.Once := fun hidle hp hd =>
    Stage.once_nil (hp.trans (congrArg Stage.prefills hidle)) (hd.trans (congrArg Stage.decodes hidle))
  cases hm with
  | aside s' hs =>
    refine ho.mono rfl (fun id hsome => ?_) (fun _ h => h) fun id hrun _ _ => ?_
    · rwa [hs.arena] at hsome
    · show id ∈ s'.runningSequences
      rwa [hs.running]
  | purge w p r hw hp hr hidle =>
    refine ho.mono rfl (fun _ h => h) (fun _ h => h) fun id hrun hsome _ => ?_
    by_contra hnot
    rw [hr.gone hrun hnot] at hsome
    cases hsome
  | look ids hperm hb hidle => exact Stage.once_nil hb.1 hb.2
  | pass seen rest htodo =>
    refine ho.mono rfl (fun _ h => h) (fun id hmem => ?_) fun id hrun _ _ => hrun
    rw [htodo, List.append_assoc]
    exact List.mem_append_right _ hmem
  | decode id rest r htodo hr hpre hready =>
    have hlook : id ∈ x.todo ++ x.refused := by
      rw [htodo]
      exact List.mem_cons_self
    have hnodup := h.looked
    rw [htodo] at hnodup
    refine ho.enter (members_decode x id.toU64) (ho.not_member hlook (by rw [hr]; rfl))
      ⟨h.running id hlook, (List.nodup_cons.1 hnodup).1⟩ (fun _ h => h) (fun id' hmem => ?_) fun _ h => h
    rw [htodo]
    exact List.mem_cons_of_mem _ hmem
  | chunk id rest r length htodo hr hpre hlen hidle =>
    have hlook : id ∈ x.todo ++ x.refused := by
      rw [htodo]
      exact List.mem_cons_self
    have hnodup := h.looked
    rw [htodo] at hnodup
    refine ho.enter (members_prefill x _) (ho.not_member hlook (by rw [hr]; rfl))
      ⟨h.running id hlook, (List.nodup_cons.1 hnodup).1⟩ (fun _ h => h) (fun id' hmem => ?_) fun _ h => h
    rw [htodo]
    exact List.mem_cons_of_mem _ hmem
  | refuse id rest r htodo hr hpre =>
    refine ho.mono rfl (fun id h => by rwa [isSome_getMut] at h) (fun id' hmem => ?_) fun id hrun _ _ => hrun
    have hmem : id' ∈ rest ++ (x.refused ++ [id]) := hmem
    rw [← List.append_assoc] at hmem
    rw [htodo]
    exact (List.perm_append_singleton _ _).mem_iff.1 hmem
  | requeue id rest hrefused hidle =>
    refine ho.mono rfl (fun _ h => h) (fun id' hmem => ?_) fun id' hrun _ hnot => ?_
    · rw [hrefused]
      rcases List.mem_append.1 hmem with hmem | hmem
      · exact List.mem_append_left _ hmem
      · exact List.mem_append_right _ (List.mem_cons_of_mem _ hmem)
    · refine List.mem_filter.2 ⟨hrun, decide_eq_true fun heq => hnot (List.mem_append_right _ ?_)⟩
      rw [hrefused, heq]
      exact List.mem_cons_self
  | admitReady id r w p ht hr hready hidle =>
    refine ho.enter (members_decode x id.toU64) (ho.not_member_of_takes h ht (by rw [hr]; rfl))
      ⟨List.mem_append_right _ List.mem_cons_self, ?_⟩ (fun id h => by rwa [isSome_getMut] at h) (fun _ h => h)
      fun _ h => List.mem_append_left _ h
    rw [hidle.1, hidle.2]
    exact List.not_mem_nil
  | admitPrefill id r w p length ht hr hlen hidle =>
    refine ho.enter (members_prefill x _) (ho.not_member_of_takes h ht (by rw [hr]; rfl))
      ⟨List.mem_append_right _ List.mem_cons_self, ?_⟩ (fun id h => by rwa [isSome_getMut] at h) (fun _ h => h)
      fun _ h => List.mem_append_left _ h
    rw [hidle.1, hidle.2.1]
    exact List.not_mem_nil
  | execute batch ok hp hd hrel hidle => exact Stage.once_nil rfl rfl
  | abandon hidle => exact Stage.once_nil rfl rfl
  | advance id r req rest hadv hid hr hpre hlt hidle =>
    exact ho.mono rfl (fun id h => by rwa [isSome_getMut] at h) (fun _ h => h) fun id hrun _ _ => hrun
  | fence id r req rest hadv hid hr hpre hle hidle =>
    exact ho.mono rfl (fun id h => by rwa [isSome_getMut] at h) (fun _ h => h) fun id hrun _ _ => hrun
  | submitOver id arena hover => exact hover.elim
  | preempt id r cause hr hrun hidle => exact hrest hidle rfl rfl
  | token id r tok hr hpre hidle => exact hrest hidle rfl rfl
  | reportPreempted id sinkId total decoding ops hfreed hidle => exact hrest hidle rfl rfl
  | finish id r reason total decoding ops hr hidle => exact hrest hidle rfl rfl
  | submit id params arena hnew hidle => exact hrest hidle rfl rfl
  | idle arena harena hidle => exact hrest hidle rfl rfl
  | fork parentId id parent sinkId arena hparent hnew hidle => exact hrest hidle rfl rfl
  | forkLost parentId id parent sinkId arena hparent hnew hidle => exact hrest hidle rfl rfl
  | phase id phase hidle => exact hrest hidle rfl rfl
  | restore id r restored hr hlt hw hidle => exact hrest hidle rfl rfl
  | lose | takeReleases | release | refuseRelease | advanceNone => exact ⟨ho.nodup, ho.settled⟩

theorem Path.placed_once (h : Path False x y) (hx : Placed x ∧ x.Once) : Placed y ∧ y.Once :=
  h.keeps (P := fun x => Placed x ∧ x.Once) (fun hm h => ⟨hm.placed h.1, hm.once h.1 h.2⟩) hx

/-! ## Sizes -/

def chunkTokens (requests : List SequenceRequest) : Nat := (requests.map fun r => r.promptTokens.length).sum

theorem chunkTokens_append (requests : List SequenceRequest) (req : SequenceRequest) :
    chunkTokens (requests ++ [req]) = chunkTokens requests + req.promptTokens.length := by
  unfold chunkTokens
  rw [List.map_append, List.sum_append]
  rfl

def SchedulerConfig.chunkBound (c : SchedulerConfig) : Nat :=
  min (if c.chunkPrefill then c.prefillChunkSize else c.maxPrefillTokens) c.maxPrefillTokens

/-- No batch can have more than `max_batch_tokens` tokens: no entry enters, or every chunk has one token, or the chunks
and decodes of a full batch stay below. -/
def SchedulerConfig.TokensFit (c : SchedulerConfig) : Prop :=
  c.maxBatchTokens = 0 ∨ c.chunkBound ≤ 1 ∨
    ∀ j ≤ c.maxBatchSize, c.maxBatchSize - j + min (j * c.chunkBound) c.maxPrefillTokens ≤ c.maxBatchTokens

instance (c : SchedulerConfig) : Decidable c.TokensFit :=
  inferInstanceAs (Decidable (c.maxBatchTokens = 0 ∨ c.chunkBound ≤ 1 ∨
    ∀ j ≤ c.maxBatchSize, c.maxBatchSize - j + min (j * c.chunkBound) c.maxPrefillTokens ≤ c.maxBatchTokens))

/-- What both loops keep. -/
structure Budget (c : SchedulerConfig) (b : Building) : Prop where
  size : b.size ≤ c.maxBatchSize
  chunks : chunkTokens b.prefillRequests ≤ b.prefillRequests.length * c.chunkBound
  prefill : chunkTokens b.prefillRequests + b.prefillBudget ≤ c.maxPrefillTokens
  counted : chunkTokens b.prefillRequests + b.decodeRequests.length ≤ b.currentTokens
  tokens : c.maxBatchTokens = 0 ∨ c.chunkBound ≤ 1 → b.currentTokens ≤ c.maxBatchTokens

theorem budget_start (c : SchedulerConfig) : Budget c (.start c) where
  size := Nat.zero_le _
  chunks := Nat.zero_le _
  prefill := Nat.le_of_eq (Nat.zero_add _)
  counted := Nat.zero_le _
  tokens _ := Nat.zero_le _

theorem Budget.addDecode (h : Budget c b) (hroom : Room c b) (blocks : List BlockId) :
    Budget c (b.addDecode id blocks) where
  size := by
    have hsize := hroom.size
    unfold Building.size at hsize
    show (b.decodeRequests ++ [id.toU64]).length + b.prefillRequests.length ≤ c.maxBatchSize
    rw [List.length_append, List.length_singleton]
    omega
  chunks := h.chunks
  prefill := h.prefill
  counted := by
    have hcounted := h.counted
    show chunkTokens b.prefillRequests + (b.decodeRequests ++ [id.toU64]).length ≤ b.currentTokens + 1
    rw [List.length_append, List.length_singleton]
    omega
  tokens _ := hroom.tokens

theorem Budget.addChunk (h : Budget c b) (hroom : Room c b) {req : SequenceRequest} {length : Nat}
    (hreq : req.promptTokens.length ≤ length) (hbudget : length ≤ b.prefillBudget) (hbound : length ≤ c.chunkBound)
    (blocks : Option (List BlockId)) : Budget c (b.addChunk req blocks length) where
  size := by
    have hsize := hroom.size
    unfold Building.size at hsize
    show b.decodeRequests.length + (b.prefillRequests ++ [req]).length ≤ c.maxBatchSize
    rw [List.length_append, List.length_singleton]
    omega
  chunks := by
    have hchunks := h.chunks
    show chunkTokens (b.prefillRequests ++ [req]) ≤ (b.prefillRequests ++ [req]).length * c.chunkBound
    rw [chunkTokens_append, List.length_append, List.length_singleton, Nat.add_mul, Nat.one_mul]
    omega
  prefill := by
    have hprefill := h.prefill
    show chunkTokens (b.prefillRequests ++ [req]) + (b.prefillBudget - length) ≤ c.maxPrefillTokens
    rw [chunkTokens_append]
    omega
  counted := by
    have hcounted := h.counted
    show chunkTokens (b.prefillRequests ++ [req]) + b.decodeRequests.length ≤ b.currentTokens + length
    rw [chunkTokens_append]
    omega
  tokens hsmall := by
    have htokens := hroom.tokens
    show b.currentTokens + length ≤ c.maxBatchTokens
    omega

theorem Budget.prefillBudget_le (h : Budget c b) : b.prefillBudget ≤ c.maxPrefillTokens :=
  (Nat.le_add_left _ _).trans h.prefill

theorem Budget.nextChunk_le (h : Budget c b) (r : SequenceRecord) : nextChunk c b r ≤ c.chunkBound := by
  have hle := h.prefillBudget_le
  unfold nextChunk SchedulerConfig.chunkBound
  split_ifs
  · omega
  · omega

theorem Budget.firstChunk_le (h : Budget c b) (promptLen : Nat) : firstChunk c b promptLen ≤ c.chunkBound := by
  have hle := h.prefillBudget_le
  unfold firstChunk SchedulerConfig.chunkBound
  split_ifs
  · omega
  · omega

theorem length_chunkRequest (id : SequenceId) (r : SequenceRecord) (start length : Nat) :
    (chunkRequest id r start length).promptTokens.length ≤ length := by
  show ((r.prefillInput.drop start).take length).length ≤ length
  rw [List.length_take]
  exact min_le_left _ _

theorem scheduleRunning_budget (ids : List SequenceId) (s : AienScheduler) :
    Outcome.Ends True (fun p s' => s'.config = s.config ∧ Budget s.config p.1) (fun _ _ => False)
      ((scheduleRunning ids (.start s.config) [] : Prog AienScheduler ε (Building × List SequenceId)) s) := by
  refine scheduleRunning_rule (I := fun _ b _ s' => s'.config = s.config ∧ Budget s.config b) ?_ ?_ ?_ ?_ ?_ ids _ [] s
    ⟨rfl, budget_start _⟩
  · exact fun _ _ _ _ h => h
  · exact fun _ _ _ _ _ h => h
  · rintro id rest b refused s' blocks ⟨hc, hb⟩ hroom
    exact ⟨hc, hb.addDecode (hc ▸ hroom) blocks⟩
  · exact fun _ _ _ _ _ h => h
  · rintro id rest b refused s' r blocks ⟨hc, hb⟩ hroom
    rw [hc] at hroom ⊢
    exact ⟨rfl, hb.addChunk hroom (length_chunkRequest _ _ _ _) (min_le_right _ _) (hb.nextChunk_le r) blocks⟩

theorem admitUnless_budget (preempted : Bool) (hc : s.config = c) (hb : Budget c b) :
    Outcome.Ends True (fun b' _ => Budget c b') (fun _ _ => True) (admitUnless preempted b s) := by
  have hround : ∀ b s, s.config = c ∧ Budget c b → Room s.config b →
      Outcome.Ends True (fun r s' => s'.config = c ∧ Budget c r.building) (fun _ _ => True) (admitRound b s) := by
    rintro b s ⟨hc, hb⟩ hroom
    rw [hc] at hroom
    refine admitRound_rule (I := fun b s => s.config = c ∧ Budget c b) ⟨hc, hb⟩ ?_ ?_ ?_ ?_ ?_ ?_
    · exact fun _ _ _ _ => ⟨hc, hb⟩
    · exact fun _ _ _ _ _ _ => trivial
    · intro id origin r blocks _ _
      have hdec : Budget c (b.addDecode id blocks) := hb.addDecode hroom blocks
      exact ⟨hc, ⟨hdec.size, hdec.chunks, hdec.prefill, hdec.counted, hdec.tokens⟩⟩
    · exact fun _ _ _ _ _ _ _ => ⟨hc, hb⟩
    · intro id origin r kv blocks kv' _ _ _ _
      rw [hc]
      exact ⟨hc, hb.addChunk hroom (length_chunkRequest _ _ _ _) (min_le_right _ _) (hb.firstChunk_le _) _⟩
    · exact fun _ _ _ _ _ _ _ _ _ _ => trivial
  exact (admitUnless_rule hround preempted ⟨hc, hb⟩).mono (fun _ _ h => h.2) fun _ _ h => h

/-! ## Batches -/

def ScheduledBatch.members (batch : ScheduledBatch) : List UInt64 :=
  batch.decodeRequests ++ batch.prefillRequests.map SequenceRequest.requestId

/-- The sizes of a batch. -/
structure ScheduledBatch.Sized (c : SchedulerConfig) (batch : ScheduledBatch) : Prop where
  size : batch.members.length ≤ c.maxBatchSize
  prefill : chunkTokens batch.prefillRequests ≤ c.maxPrefillTokens
  tokens : c.TokensFit → chunkTokens batch.prefillRequests + batch.decodeRequests.length ≤ c.maxBatchTokens

theorem Budget.total_le (h : Budget c b) (hfit : c.TokensFit) :
    chunkTokens b.prefillRequests + b.decodeRequests.length ≤ c.maxBatchTokens := by
  have hsmall := h.tokens
  have hcounted := h.counted
  rcases hfit with hzero | hone | hfull
  · exact hcounted.trans (hsmall (.inl hzero))
  · exact hcounted.trans (hsmall (.inr hone))
  · -- A batch with `j` chunks has at most `S - j` decodes.
    have hsize := h.size
    have hchunks := h.chunks
    have hprefill := h.prefill
    unfold Building.size at hsize
    have hj := hfull b.prefillRequests.length (by omega)
    omega

theorem Budget.sized (h : Budget c b) {batch : ScheduledBatch} (hp : batch.prefillRequests = b.prefillRequests)
    (hd : batch.decodeRequests = b.decodeRequests) : batch.Sized c where
  size := by
    unfold ScheduledBatch.members
    rw [hp, hd, List.length_append, List.length_map]
    exact h.size
  prefill := by
    rw [hp]
    exact (Nat.le_add_right _ _).trans h.prefill
  tokens hfit := by
    rw [hp, hd]
    exact h.total_le hfit

/-- The configuration stays. -/
instance : Steady (fun s s' : AienScheduler => s'.config = s.config) where
  refl _ := rfl
  trans h h' := h'.trans h

theorem freeKv_config (raw : UInt64) :
    Within (fun s s' => s'.config = s.config) (freeKv raw : Prog AienScheduler ε Unit) :=
  fun _ => ends_freeKv fun _ _ => rfl

theorem preempt_config (id : SequenceId) (cause : FreeCause) :
    Within (fun s s' => s'.config = s.config) (preempt id cause : Prog AienScheduler ε Unit) := by
  unfold preempt
  refine within_bind (within_modify fun _ => rfl) fun _ => within_bind (freeKv_config _) fun _ => ?_
  refine within_bind (within_modify fun _ => rfl) fun _ => within_bind (within_modify fun _ => rfl) fun _ => ?_
  exact within_bind (within_modify fun _ => rfl) fun _ => within_modify fun _ => rfl

theorem preemptForWatermark_config :
    Within (fun s s' => s'.config = s.config) (preemptForWatermark : Prog AienScheduler ε Bool) := by
  unfold preemptForWatermark
  refine within_get fun s => ?_
  split_ifs
  · cases s.victim with
    | none => exact rfl
    | some id =>
      show Outcome.Ends True _ _ ((if id ∈ s.runningSequences then _ else _ : Prog AienScheduler ε Bool) s)
      split_ifs
      · exact within_bind (preempt_config id .watermark) (fun _ => within_pure true) s
      · exact rfl
  · exact rfl

theorem requeueRefused_config (id : SequenceId) :
    Within (fun s s' => s'.config = s.config) (requeueRefused id : Prog AienScheduler ε Unit) := by
  unfold requeueRefused
  refine within_bind (within_modify fun _ => rfl) fun _ => within_bind (freeKv_config _) fun _ => ?_
  refine within_bind (within_modify fun _ => rfl) fun _ => within_bind (within_modify fun _ => rfl) fun _ => ?_
  exact within_modify fun _ => rfl

theorem buildScheduledBatch_sized (s : AienScheduler) : Outcome.Ends True
    (fun batch _ => ∀ batch', batch = some batch' → batch'.Sized s.config) (fun _ _ => True) (buildScheduledBatch s) := by
  unfold buildScheduledBatch
  rw [ends_bind, ends_modify, ends_bind]
  unfold purgeStaleWork
  rw [ends_modify, ends_bind]
  refine (preemptForWatermark_config _).mono (fun preempted s2 h2 => ?_) fun _ _ _ => trivial
  rw [ends_bind, ends_get, ends_bind]
  refine (@scheduleRunning_budget String _ s2).mono (fun p s3 h3 => ?_) fun _ _ h => h.elim
  obtain ⟨b3, needsPrefill⟩ := p
  obtain ⟨hc3, hb3⟩ := h3
  have hc : s2.config = s.config := h2
  rw [hc] at hc3 hb3
  dsimp only
  rw [ends_bind]
  refine (within_forM requeueRefused_config needsPrefill s3).mono (fun _ s4 h4 => ?_) fun _ _ _ => trivial
  rw [ends_bind]
  refine (admitUnless_budget preempted (h4.trans hc3) hb3).mono (fun b5 s5 h5 => ?_) fun _ _ _ => trivial
  rw [ends_bind, ends_get]
  split_ifs
  · exact fun _ h => nomatch h
  · rintro batch' ⟨⟩
    exact h5.sized rfl rfl

theorem buildScheduledBatch_once (hwf : s.arena.WF) (hplaced : Placed (.rest s)) : Outcome.Ends True
    (fun batch _ => ∀ batch', batch = some batch' → batch'.members.Nodup) (fun _ _ => True) (buildScheduledBatch s) := by
  refine (@buildScheduledBatch_path False s hwf).mono (fun batch s' h => ?_) fun _ _ _ => trivial
  rintro batch' rfl
  exact (h.placed_once ⟨hplaced, Stage.once_nil rfl rfl⟩).2.nodup

open Engine

/-- **The budgets of a batch.** In every reachable state, whatever the configuration, the backend, the hooks and other
owners of the K/V manager did: a batch has at most `max_batch_size` entries and at most `max_prefill_tokens` prefill
tokens; where explicit ids are admitted it has each sequence at most once; and where no full batch can have more, it has
at most `max_batch_tokens` tokens. -/
theorem batches_within_budgets {β : Type} (B : AienInferenceBackend β) (config : SchedulerConfig)
    (kvManager : AienKvManager) (backend : β) (calls : List Call) (e : Engine β) (batch : ScheduledBatch)
    (s' : AienScheduler) (hrun : run B (start config kvManager backend) calls = some e)
    (hbatch : buildScheduledBatch e.sched = .ok (some batch) s') :
    (allFit B (start config kvManager backend) calls → batch.members.Nodup) ∧
    batch.members.length ≤ e.sched.config.maxBatchSize ∧
    chunkTokens batch.prefillRequests ≤ e.sched.config.maxPrefillTokens ∧
    (e.sched.config.TokensFit →
      chunkTokens batch.prefillRequests + batch.decodeRequests.length ≤ e.sched.config.maxBatchTokens) := by
  have hsized := buildScheduledBatch_sized e.sched
  rw [hbatch] at hsized
  have h := hsized batch rfl
  refine ⟨fun hfit => ?_, h.size, h.prefill, h.tokens⟩
  have hpath : Path False _ _ := run_path (.inr hfit) hrun
  have honce := buildScheduledBatch_once (s := e.sched) (hpath.wf (SequenceArena.Start.wf .new))
    (hpath.placed_once ⟨placed_new config kvManager, Stage.once_nil rfl rfl⟩).1
  rw [hbatch] at honce
  exact honce batch rfl

def tenTokens (maxBatchTokens : Nat) : Option (Engine Script) :=
  run Script.backend
    (start { plainConfig 0 with maxBatchTokens, maxPrefillTokens := 32, prefillChunkSize := 16 } (.new 8 2) ⟨[], []⟩)
    [.submitRequest (plainRequest 0 [0, 1, 2, 3, 4, 5, 6, 7, 8, 9] 8)]

def firstBatch (e : Engine Script) : Option ScheduledBatch :=
  match buildScheduledBatch e.sched with
  | .ok batch _ => batch
  | _ => none

theorem batches_within_budgets_ten : ∃ e batch, tenTokens 64 = some e ∧ firstBatch e = some batch ∧
    batch.members.Nodup ∧ chunkTokens batch.prefillRequests + batch.decodeRequests.length ≤ 64 := by
  have hrun : (tenTokens 64).any (fun e => (firstBatch e).isSome &&
      decide (e.sched.config.TokensFit ∧ e.sched.config.maxBatchTokens = 64)) = true := by decide +kernel
  obtain ⟨e, he, hok⟩ := Option.any_eq_true _ _ |>.1 hrun
  rw [Bool.and_eq_true] at hok
  obtain ⟨hfit, hmax⟩ := of_decide_eq_true hok.2
  obtain ⟨batch, hbatch⟩ := Option.isSome_iff_exists.1 hok.1
  have hbuilt := hbatch
  unfold firstBatch at hbuilt
  split at hbuilt
  · next batch' s' hbuild =>
    subst hbuilt
    have h := batches_within_budgets Script.backend _ _ _ _ e batch s' he hbuild
    refine ⟨e, batch, he, hbatch, h.1 ⟨rfl, fun _ _ => trivial⟩, ?_⟩
    rw [← hmax]
    exact h.2.2.2 hfit
  · cases hbuilt

/-- A chunk is cut to `prefill_chunk_size` and `max_prefill_tokens`, not to what is left of `max_batch_tokens`: with four
tokens for a batch the whole prompt is in it. -/
theorem batch_exceeds_tokens : ∃ e batch, tenTokens 4 = some e ∧ firstBatch e = some batch ∧
    e.sched.config.maxBatchTokens = 4 ∧ chunkTokens batch.prefillRequests + batch.decodeRequests.length = 10 := by
  have hrun : (tenTokens 4).any (fun e => (firstBatch e).any fun batch =>
      decide (e.sched.config.maxBatchTokens = 4 ∧
        chunkTokens batch.prefillRequests + batch.decodeRequests.length = 10)) = true := by decide +kernel
  obtain ⟨e, he, hok⟩ := Option.any_eq_true _ _ |>.1 hrun
  obtain ⟨batch, hbatch, hten⟩ := Option.any_eq_true _ _ |>.1 hok
  obtain ⟨hmax, hten⟩ := of_decide_eq_true hten
  exact ⟨e, batch, he, hbatch, hmax, hten⟩

end SovereignCore.Sched
