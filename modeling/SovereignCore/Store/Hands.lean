import SovereignCore.Store.Placed

/-!
# What the worker thread's steps keep

The thread takes a job from the hand-over slot, submits it, registers the answer, polls the store and reaps. Each of
these steps leaves every open job in somebody's hands (`Up`).

* `Up.taken`, `Up.submitted`, `Up.registered`, `Up.refused` : one submit, from the hand-over slot to the table;
* `Up.polled`, `Up.reapOne`, `Up.reap` : the completions of one poll of the store.
-/

namespace SovereignCore.Store

open Std Rides Table

namespace Up

section Thread

variable {v v' : Floor} {t t' : Thread} {n n' : Inner} {l : List JobId} {i j : JobId} {c : Core}

theorem rethread (h : Up v t n l) (hcomps : t'.comps = t.comps) (hhand : ∀ j ∈ t'.hand, j ∈ l)
    (hheld : ∀ g, t' = .holding g → ∃ c, v.jobs g.id = some c ∧ c.status = .dispatching ∧ c.inc = g.inc)
    (hans : ∀ j r, t' ≠ .answered j r) (hold : ∀ j i, t ≠ .answered j (.ok i)) : Up v t' n l where
  keyed := h.keyed
  below := h.below
  waiting_below := h.waiting_below
  queued := h.queued
  handed := h.handed
  loose_below := h.loose_below
  loosened := h.loosened
  hand := hhand
  held := hheld
  answered := fun j r hr => absurd hr (hans j r)
  distinct := h.distinct
  placed := fun j c hj hf => (h.placed j c hj hf).mono id id (fun _ _ => id) (fun _ _ => by rw [hcomps]; exact id)
  orphan := h.orphan
  live_owned := fun m hm => Or.inr ((h.live_owned m hm).resolve_left (hold _ _))
  owner_open := h.owner_open
  live_distinct := h.live_distinct
  live_issued := h.live_issued
  pending := hcomps ▸ h.pending
  counted := h.counted
  shut := h.shut
  dropped := h.dropped

theorem taken {g : HandedJob} {rest : List (JobId × Incarnation)} (h : Up v .looping n [])
    (hg : v.handed = (g.id, g.inc) :: rest) : Up { v with handed := rest } (.holding g) n [g.id] := by
  have hloose : Up { v with handed := rest } .looping n [g.id] := by
    refine h.loosen rfl rfl rfl rfl (fun _ => id) ?_ ?_ (fun x hx => absurd hx List.not_mem_nil) (fun x hx => Or.inl hx)
      ?_ (fun x hx => absurd hx List.not_mem_nil) ?_ ?_ h.dropped
    · intro p hp
      rw [hg]
      exact List.mem_cons_of_mem _ hp
    · intro x hx
      rw [List.mem_singleton.1 hx, hg]
      exact Or.inr (Or.inl (by simp))
    · intro x hx
      rw [hg, List.map_cons] at hx
      rcases List.mem_cons.1 hx with rfl | hx
      · exact Or.inr (Or.inl (by simp))
      · exact Or.inl hx
    · have hd := h.distinct
      rw [hg, List.map_cons, List.append_nil] at hd
      show (v.waiting ++ rest.map Prod.fst ++ [g.id]).Nodup
      refine (List.Perm.nodup_iff ?_).1 hd
      rw [List.append_assoc]
      exact List.Perm.append_left _ (List.perm_append_singleton _ _).symm
    · intro hcl
      have hh := (h.shut hcl).2
      rw [hg] at hh
      cases hh
  refine hloose.rethread rfl (fun x hx => hx) ?_ (by simp) (by simp)
  intro g' hg'
  cases hg'
  exact h.handed (g.id, g.inc) (by simp [hg])

theorem submitted {g : HandedJob} {res : Except PlatformError JobId} (h : Up v (.holding g) n [g.id])
    (hn : n.Takes g res n') : Up v (.answered g.id res) n' [g.id] := by
  obtain ⟨c, hc, hs, hinc⟩ := h.held g rfl
  have howned : ∀ m ∈ n.live, m.Owned v := fun m hm => (h.live_owned m hm).resolve_left (by simp)
  -- an answer that only adds live jobs of the store
  have hgrow : (∀ m ∈ n.live, m ∈ n'.live) →
      (∀ i, res = .ok i → Submitted v n' g.id c i) →
      (∀ m ∈ n'.live, Thread.answered g.id res = .answered m.opener (.ok m.id) ∨ m.Owned v) →
      (∀ i ∈ n.issued, i ∈ n'.issued) → (n'.live.map InnerJob.id).Nodup → (∀ m ∈ n'.live, m.id ∈ n'.issued) →
      Up v (.answered g.id res) n' [g.id] := by
    intro hlive hsub hown hissued hdistinct hli
    exact {
      keyed := h.keyed
      below := h.below
      waiting_below := h.waiting_below
      queued := h.queued
      handed := h.handed
      loose_below := h.loose_below
      loosened := h.loosened
      hand := h.hand
      held := by simp
      answered := by
        intro j r hr
        cases hr
        exact ⟨c, hc, hs, hsub⟩
      distinct := h.distinct
      placed := fun j k hj hf => (h.placed j k hj hf).mono id id (fun _ _ => id)
        (fun _ _ => Or.imp (fun ⟨m, hm, he⟩ => ⟨m, hlive m hm, he⟩) id)
      orphan := h.orphan
      live_owned := hown
      owner_open := fun i j hi => ⟨hissued i (h.owner_open i j hi).1, (h.owner_open i j hi).2⟩
      live_distinct := hdistinct
      live_issued := hli
      pending := fun d hd => absurd hd List.not_mem_nil
      counted := h.counted
      shut := h.shut
      dropped := h.dropped }
  cases hn with
  | refused e =>
    exact hgrow (fun _ => id) (by simp) (fun m hm => Or.inr (howned m hm)) (fun _ => id) h.live_distinct h.live_issued
  | accepted id hid =>
    -- the id is new, so nothing owns it
    have hfree : v.owner id = none := by
      cases ho : v.owner id with
      | none => rfl
      | some o => exact absurd (h.owner_open id o ho).1 hid
    refine hgrow (fun m hm => List.mem_cons_of_mem _ hm) ?_ ?_ (fun i hi => List.mem_cons_of_mem _ hi) ?_ ?_
    · intro i hi
      cases hi
      exact ⟨_, List.mem_cons_self, rfl, Or.inl ⟨hfree, rfl, hinc.symm⟩⟩
    · intro m hm
      rcases List.mem_cons.1 hm with rfl | hm
      · exact Or.inl rfl
      · exact Or.inr (howned m hm)
    · rw [List.map_cons, List.nodup_cons]
      refine ⟨fun hmem => ?_, h.live_distinct⟩
      obtain ⟨m, hm, he⟩ := List.mem_map.1 hmem
      have hin := h.live_issued m hm
      rw [he] at hin
      exact hid hin
    · intro m hm
      rcases List.mem_cons.1 hm with rfl | hm
      · exact List.mem_cons_self
      · exact List.mem_cons_of_mem _ (h.live_issued m hm)
  | merged m hm _ _ _ =>
    obtain ⟨ho, k, hk, hks, -⟩ := howned m hm
    have hne : m.opener ≠ g.id := by
      intro he
      rw [he, hc] at hk
      cases hk
      rw [hs] at hks
      cases hks
    refine hgrow (fun _ => id) ?_ (fun m hm => Or.inr (howned m hm)) (fun _ => id) h.live_distinct h.live_issued
    intro i hi
    cases hi
    exact ⟨m, hm, rfl, Or.inr ⟨ho, hne⟩⟩

theorem eq_of_live (h : Up v t n l) {m m' : InnerJob} (hm : m ∈ n.live) (hm' : m' ∈ n.live) (he : m.id = m'.id) :
    m = m' := List.inj_on_of_nodup_map h.live_distinct hm hm' he

theorem settles (h : Up v (.answered j (.ok i)) n [j]) (hj : v.jobs j = some c) (o : Bool)
    (hjobs : v'.jobs = Function.update v.jobs j (some { c with status := .dispatched i, orphaned := o }))
    (hrest : v'.next = v.next ∧ v'.queue = v.queue ∧ v'.handed = v.handed ∧ v'.busy = v.busy ∧ v'.closed = v.closed ∧
      v'.dropped = v.dropped)
    (hhand : t.hand = []) (hcomps : t.comps = []) (hans : ∀ j r, t ≠ .answered j r)
    (howner : ∀ x k, k ≠ j → (v'.owner x = some k ↔ v.owner x = some k))
    (hself : ∀ x, v'.owner x = some j → x = i ∧ o = false)
    (hplaced : o = false → v'.owner i = some j ∧ ∃ m ∈ n.live, m.id = i ∧ m.inc = c.inc)
    (hnew : ∀ m ∈ n.live, m.opener = j → m.id = i → v'.owner i = some j ∧ m.inc = c.inc) : Up v' t n [] := by
  obtain ⟨hnext, hqueue, hhd, hbusy, hclosed, hdropped⟩ := hrest
  have hwaiting : v'.waiting = v.waiting := by
    unfold Floor.waiting
    rw [hqueue]
  obtain ⟨c', hc', hs, -⟩ := h.answered j _ rfl
  rw [hj] at hc'
  cases hc'
  have hback : ∀ x k, v'.jobs x = some k →
      (x = j ∧ k = { c with status := .dispatched i, orphaned := o }) ∨ x ≠ j ∧ v.jobs x = some k := by
    intro x k hk
    rw [hjobs, Function.update_apply] at hk
    split_ifs at hk with he
    · exact Or.inl ⟨he, (Option.some.inj hk).symm⟩
    · exact Or.inr ⟨he, hk⟩
  have hforth : ∀ x k, x ≠ j → v.jobs x = some k → v'.jobs x = some k := by
    intro x k hx hk
    rw [hjobs, Function.update_of_ne hx]
    exact hk
  have hself' : v'.jobs j = some { c with status := .dispatched i, orphaned := o } := by
    rw [hjobs, Function.update_self]
  have hd := h.distinct
  rw [List.nodup_append] at hd
  obtain ⟨hd₁, -, hcross⟩ := hd
  have hnotq : ∀ x ∈ v.waiting ++ v.handed.map Prod.fst, x ≠ j := fun x hx => hcross x hx j (by simp)
  -- the job owned nothing before
  have hnone : ∀ x, v.owner x ≠ some j := by
    intro x hx
    obtain ⟨-, k, hk, hks⟩ := h.owner_open x j hx
    rw [hj] at hk
    cases hk
    rw [hs] at hks
    cases hks
  have hissued : i ∈ n.issued := by
    obtain ⟨c₀, -, -, hsub⟩ := h.answered j _ rfl
    obtain ⟨m, hm, he, -⟩ := hsub i rfl
    exact he ▸ h.live_issued m hm
  refine {
    keyed := ?_, below := ?_, waiting_below := by rw [hwaiting, hnext]; exact h.waiting_below, queued := ?_,
    handed := ?_, loose_below := by simp, loosened := by simp, hand := by rw [hhand]; simp, held := ?_,
    answered := fun x r hr => absurd hr (hans x r), distinct := ?_, placed := ?_, orphan := ?_, live_owned := ?_,
    owner_open := ?_, live_distinct := h.live_distinct, live_issued := h.live_issued,
    pending := by rw [hcomps]; simp, counted := ?_, shut := by rw [hclosed, hwaiting, hhd]; exact h.shut,
    dropped := by rw [hclosed, hdropped]; exact h.dropped }
  · intro x k hk
    rcases hback x k hk with ⟨rfl, rfl⟩ | ⟨-, hk⟩
    · exact h.keyed x c hj
    · exact h.keyed x k hk
  · intro x k hk
    rw [hnext]
    rcases hback x k hk with ⟨rfl, -⟩ | ⟨-, hk⟩
    · exact h.below x c hj
    · exact h.below x k hk
  · intro x hx k hk
    rw [hwaiting] at hx
    rcases hback x k hk with ⟨rfl, -⟩ | ⟨-, hk⟩
    · exact absurd rfl (hnotq x (List.mem_append_left _ hx))
    · exact h.queued x hx k hk
  · intro p hp
    rw [hhd] at hp
    obtain ⟨k, hk, hks⟩ := h.handed p hp
    exact ⟨k, hforth _ k (hnotq _ (List.mem_append_right _ (List.mem_map_of_mem hp))) hk, hks⟩
  · intro g hg
    rw [hg] at hhand
    cases hhand
  · rw [hwaiting, hhd, List.append_nil]
    exact hd₁
  · intro x k hk hf
    rcases hback x k hk with ⟨rfl, rfl⟩ | ⟨hne, hk⟩
    · obtain ⟨how, hm⟩ := hplaced hf
      exact ⟨how, Or.inl hm⟩
    · refine (h.placed x k hk hf).mono ?_ ?_ ?_ ?_
      · rw [hwaiting]
        exact fun hx => Or.inl (hx.resolve_right fun hl => hne (List.mem_singleton.1 hl))
      · rw [hhd]
        exact fun hx => Or.inl (hx.resolve_right fun hl => hne (List.mem_singleton.1 hl))
      · exact fun y _ hy => (howner y x hne).2 hy
      · intro y _ hy
        exact Or.inl (hy.resolve_right fun ⟨d, hd, _⟩ => absurd hd List.not_mem_nil)
  · intro x k hk hf
    rcases hback x k hk with ⟨rfl, rfl⟩ | ⟨hne, hk⟩
    · refine ⟨i, rfl, fun hi => ?_⟩
      have hf' : o = true := hf
      rw [(hself i hi).2] at hf'
      cases hf'
    · obtain ⟨y, hy, ho⟩ := h.orphan x k hk hf
      exact ⟨y, hy, fun ho' => ho ((howner y x hne).1 ho')⟩
  · intro m hm
    refine Or.inr ?_
    rcases h.live_owned m hm with hm' | ⟨how, k, hk, hks⟩
    · have hop : j = m.opener := by
        injection hm'
      have hid : i = m.id := by
        injection hm' with _ hm'
        injection hm'
      obtain ⟨ho, hinc⟩ := hnew m hm hop.symm hid.symm
      unfold InnerJob.Owned
      rw [← hop, ← hid]
      exact ⟨ho, _, hself', rfl, hinc.symm⟩
    · have hne : m.opener ≠ j := fun he => hnone m.id (he ▸ how)
      exact ⟨(howner _ _ hne).2 how, k, hforth _ k hne hk, hks⟩
  · intro x k hk
    by_cases hkj : k = j
    · subst hkj
      obtain ⟨rfl, -⟩ := hself x hk
      exact ⟨hissued, _, hself', rfl⟩
    · obtain ⟨hx, k₀, h0, hks⟩ := h.owner_open x k ((howner x k hkj).1 hk)
      exact ⟨hx, k₀, hforth _ k₀ hkj h0, hks⟩
  · rw [hbusy]
    refine h.counted.congr fun x => ?_
    constructor
    · rintro ⟨k, hk, hks⟩
      rcases hback x k hk with ⟨rfl, -⟩ | ⟨-, hk⟩
      · exact ⟨c, hj, by rw [hs]; simp⟩
      · exact ⟨k, hk, hks⟩
    · rintro ⟨k, hk, hks⟩
      by_cases hx : x = j
      · subst hx
        exact ⟨_, hself', by simp⟩
      · exact ⟨k, hforth x k hx hk, hks⟩

/-- The answer is registered: the job owns a new job of the store, or was merged into another's and is an orphan. -/
theorem registered {s : State} (h : Up (floor s) (.answered j (.ok i)) n [j]) (hhand : t.hand = []) (hcomps : t.comps = [])
    (hans : ∀ j r, t ≠ .answered j r) : Up (floor (s.register j (.ok i)).1) t n [] := by
  obtain ⟨c, hc, hs, hsub⟩ := h.answered j _ rfl
  obtain ⟨m, hm, hid, hcase⟩ := hsub i rfl
  have hopener : ∀ m' ∈ n.live, m'.id = i → m' = m := fun m' hm' he => h.eq_of_live hm' hm (he.trans hid.symm)
  have hnone : ∀ x, (floor s).owner x ≠ some j := by
    intro x hx
    obtain ⟨-, k, hk, hks⟩ := h.owner_open x j hx
    rw [hc] at hk
    cases hk
    rw [hs] at hks
    cases hks
  rcases floor_register_ok hc (i := i) with ⟨⟨o, ho, hne⟩, heq⟩ | ⟨ho, heq⟩
  · rw [heq]
    -- the owner is the opener of the live job, not this job
    have hother : m.opener ≠ j := by
      rcases hcase with ⟨hfree, -⟩ | ⟨-, hother⟩
      · rw [hfree] at ho
        cases ho
      · exact hother
    refine h.settles hc true rfl ⟨rfl, rfl, rfl, rfl, rfl, rfl⟩ hhand hcomps hans (fun _ _ _ => Iff.rfl) ?_ ?_ ?_
    · exact fun x hx => absurd hx (hnone x)
    · exact fun hf => absurd hf (by simp)
    · intro m' hm' hop he
      rw [hopener m' hm' he] at hop
      exact absurd hop hother
  · rw [heq]
    have hfresh : m.opener = j ∧ m.inc = c.inc := by
      rcases hcase with ⟨-, hfresh⟩ | ⟨hown, hother⟩
      · exact hfresh
      · rcases ho with ho | ho
        · rw [ho] at hown
          cases hown
        · exact absurd ho (hnone i)
    have hfree : (floor s).owner i = none := ho.resolve_right (hnone i)
    have how : ((floor s).assigns j c i).owner i = some j := by
      unfold Floor.assigns
      exact Function.update_self i _ _
    have hoth : ∀ x, x ≠ i → ((floor s).assigns j c i).owner x = (floor s).owner x := by
      intro x hx
      unfold Floor.assigns
      exact Function.update_of_ne hx _ _
    have hnotorphan : c.orphaned = false := by
      cases hco : c.orphaned with
      | false => rfl
      | true =>
        obtain ⟨x, hx, -⟩ := h.orphan j c hc hco
        rw [hs] at hx
        cases hx
    refine h.settles hc false ?_ ⟨rfl, rfl, rfl, rfl, rfl, rfl⟩ hhand hcomps hans ?_ ?_ ?_ ?_
    · unfold Floor.assigns
      rw [← hnotorphan]
    · intro x k hk
      by_cases hx : x = i
      · subst hx
        rw [how, hfree]
        simp [Ne.symm hk]
      · rw [hoth x hx]
    · intro x hx
      by_cases hxi : x = i
      · exact ⟨hxi, rfl⟩
      · rw [hoth x hxi] at hx
        exact absurd hx (hnone x)
    · exact fun _ => ⟨how, m, hm, hid, hfresh.2⟩
    · intro m' hm' _ he
      rw [hopener m' hm' he]
      exact ⟨how, hfresh.2⟩

theorem refused {s : State} {e : PlatformError} (h : Up (floor s) (.answered j (.error e)) n [j]) :
    Up (floor (s.register j (.error e)).1) .looping n [] := by
  rw [floor_register_error]
  have hup : Up (floor s) .looping n [j] :=
    h.rethread rfl (fun x hx => absurd hx List.not_mem_nil) (by simp) (by simp) (by simp)
  exact hup.endLoose fun x hx => absurd hx List.not_mem_nil

theorem polledOne {ds : List Completion} {d : Completion} (h : Up v (.reaping ds) n []) (live' : List InnerJob)
    (hsub : ∀ m' ∈ live', ∃ m ∈ n.live, m'.id = m.id ∧ m'.opener = m.opener ∧ m'.inc = m.inc)
    (hdistinct : (live'.map InnerJob.id).Nodup)
    (hkept : ∀ m ∈ n.live, (∃ m' ∈ live', m'.id = m.id ∧ m'.inc = m.inc) ∨ d.ends m.id m.inc)
    (hpending : d.terminal.isSome = true → ∀ m' ∈ live', m'.id ≠ d.job) :
    Up v (.reaping (ds ++ [d])) ⟨live', n.issued⟩ [] where
  keyed := h.keyed
  below := h.below
  waiting_below := h.waiting_below
  queued := h.queued
  handed := h.handed
  loose_below := h.loose_below
  loosened := h.loosened
  hand := h.hand
  held := by simp
  answered := by simp
  distinct := h.distinct
  placed := by
    intro x k hk hf
    refine (h.placed x k hk hf).mono id id (fun _ _ => id) ?_
    rintro y _ (⟨m, hm, hid, hinc⟩ | ⟨e, he, hends⟩)
    · rcases hkept m hm with ⟨m', hm', hid', hinc'⟩ | hends
      · exact Or.inl ⟨m', hm', hid'.trans hid, hinc'.trans hinc⟩
      · rw [hid, hinc] at hends
        exact Or.inr ⟨d, List.mem_append_right _ (by simp), hends⟩
    · exact Or.inr ⟨e, List.mem_append_left _ he, hends⟩
  orphan := h.orphan
  live_owned := by
    intro m' hm'
    obtain ⟨m, hm, hid, hop, hinc⟩ := hsub m' hm'
    have how := (h.live_owned m hm).resolve_left (by simp)
    refine Or.inr ?_
    unfold InnerJob.Owned at how ⊢
    rw [hid, hop, hinc]
    exact how
  owner_open := h.owner_open
  live_distinct := hdistinct
  live_issued := by
    intro m' hm'
    obtain ⟨m, hm, hid, -⟩ := hsub m' hm'
    rw [hid]
    exact h.live_issued m hm
  pending := by
    intro e he ht m' hm'
    rcases List.mem_append.1 he with he | he
    · obtain ⟨m, hm, hid, -⟩ := hsub m' hm'
      rw [hid]
      exact h.pending e he ht m hm
    · rw [List.mem_singleton.1 he] at ht ⊢
      exact hpending ht m' hm'
  counted := h.counted
  shut := h.shut
  dropped := h.dropped

theorem polled {ds cs : List Completion} (h : Up v (.reaping ds) n []) (ha : n.Answers cs n') :
    Up v (.reaping (ds ++ cs)) n' [] := by
  induction ha generalizing ds with
  | nil n =>
    rw [List.append_nil]
    exact h
  | progress pre post m issued d cs n hs hp hj hi ht _ ih =>
    have hmap : (pre ++ { m with progressed := true } :: post).map InnerJob.id = (pre ++ m :: post).map InnerJob.id := by
      simp
    have hup := h.polledOne (d := d) (pre ++ { m with progressed := true } :: post) ?_ ?_ ?_ ?_
    · have := ih hup
      rwa [List.append_assoc] at this
    · intro m' hm'
      simp only [List.mem_append, List.mem_cons] at hm' ⊢
      rcases hm' with hm' | rfl | hm'
      · exact ⟨m', Or.inl hm', rfl, rfl, rfl⟩
      · exact ⟨m, Or.inr (Or.inl rfl), rfl, rfl, rfl⟩
      · exact ⟨m', Or.inr (Or.inr hm'), rfl, rfl, rfl⟩
    · rw [hmap]
      exact h.live_distinct
    · intro m' hm'
      simp only [List.mem_append, List.mem_cons] at hm' ⊢
      rcases hm' with hm' | rfl | hm'
      · exact Or.inl ⟨m', Or.inl hm', rfl, rfl⟩
      · exact Or.inl ⟨_, Or.inr (Or.inl rfl), rfl, rfl⟩
      · exact Or.inl ⟨m', Or.inr (Or.inr hm'), rfl, rfl⟩
    · rw [ht]
      simp
  | terminal pre post m issued d cs n hj hi ht _ ih =>
    have hd := h.live_distinct
    rw [List.map_append, List.map_cons, (List.perm_middle).nodup_iff, List.nodup_cons, ← List.map_append] at hd
    have hup := h.polledOne (d := d) (pre ++ post) ?_ hd.2 ?_ ?_
    · have := ih hup
      rwa [List.append_assoc] at this
    · intro m' hm'
      refine ⟨m', ?_, rfl, rfl, rfl⟩
      rcases List.mem_append.1 hm' with hm' | hm'
      · exact List.mem_append_left _ hm'
      · exact List.mem_append_right _ (List.mem_cons_of_mem _ hm')
    · intro m' hm'
      rcases List.mem_append.1 hm' with hm' | hm'
      · exact Or.inl ⟨m', List.mem_append_left _ hm', rfl, rfl⟩
      · rcases List.mem_cons.1 hm' with rfl | hm'
        · exact Or.inr ⟨hj, hi, ht⟩
        · exact Or.inl ⟨m', List.mem_append_right _ hm', rfl, rfl⟩
    · intro _ m' hm' he
      rw [hj] at he
      exact hd.1 (he ▸ List.mem_map_of_mem hm')

theorem dropComp {d : Completion} {ds : List Completion} (h : Up v (.reaping (d :: ds)) n [])
    (hd : d.terminal.isSome = true → ∀ x k, v.owner d.job = some x → v.jobs x = some k → k.inc ≠ d.incarnation) :
    Up v (.reaping ds) n [] where
  keyed := h.keyed
  below := h.below
  waiting_below := h.waiting_below
  queued := h.queued
  handed := h.handed
  loose_below := h.loose_below
  loosened := h.loosened
  hand := h.hand
  held := by simp
  answered := by simp
  distinct := h.distinct
  placed := by
    intro x k hk hf
    have hp := h.placed x k hk hf
    unfold Core.Placed at hp ⊢
    split
    · rename_i hs
      rw [hs] at hp
      exact hp
    · rename_i hs
      rw [hs] at hp
      exact hp
    · rename_i y hs
      rw [hs] at hp
      refine ⟨hp.1, hp.2.imp id ?_⟩
      rintro ⟨e, he, hey, hinc, het⟩
      rcases List.mem_cons.1 he with rfl | he
      · exact absurd hinc.symm (hd het x k (hey ▸ hp.1) hk)
      · exact ⟨e, he, hey, hinc, het⟩
  orphan := h.orphan
  live_owned := fun m hm => Or.inr ((h.live_owned m hm).resolve_left (by simp))
  owner_open := h.owner_open
  live_distinct := h.live_distinct
  live_issued := h.live_issued
  pending := fun e he => h.pending e (List.mem_cons_of_mem _ he)
  counted := h.counted
  shut := h.shut
  dropped := h.dropped

theorem reports (h : Up v t n l) (x : JobId) (k : Core) : Up (v.reports x k) t n l :=
  h.loosen rfl rfl rfl rfl (fun _ => id) (fun _ => id) (fun _ hx => Or.inr (Or.inr hx)) h.hand (fun _ => Or.inl)
    (fun _ => Or.inl) (fun _ => Or.inl) h.distinct h.shut h.dropped

theorem reapOne {s : State} {d : Completion} {ds : List Completion} (h : Up (floor s) (.reaping (d :: ds)) n []) :
    Up (floor (s.reapOne d)) (.reaping ds) n [] := by
  rcases floor_reapOne s d with ⟨heq, hstale⟩ | ⟨x, k, how, hk, hinc, ⟨ht, heq⟩ | ⟨ht, heq⟩⟩
  · rw [heq]
    exact h.dropComp fun ht x k how hk he => hstale ⟨ht, x, k, how, hk, he⟩
  · rw [heq]
    exact (h.reports x k).dropComp fun ht' => by rw [ht] at ht'; cases ht'
  · rw [heq]
    obtain ⟨-, k', hk', hs⟩ := h.owner_open d.job x how
    rw [hk] at hk'
    cases hk'
    have hup : Up ((floor s).ends x k) (.reaping (d :: ds)) n [] := by
      refine h.ends hk ?_ (fun hx => absurd hx List.not_mem_nil) ?_
      · intro hmem
        obtain ⟨k', hk', hd⟩ := h.dispatching_of_handed hmem
        rw [hk] at hk'
        cases hk'
        rw [hs] at hd
        cases hd
      · intro y hy m hm he
        obtain ⟨-, k', hk', hs'⟩ := h.owner_open y x hy
        rw [hk] at hk'
        cases hk'
        rw [hs] at hs'
        cases hs'
        exact h.pending d List.mem_cons_self ht m hm he
    refine hup.dropComp fun _ y k' hy => ?_
    have hgone : ((floor s).ends x k).owner d.job = none := by
      have := h.ownerAfter_eq hk d.job
      rw [if_pos how] at this
      exact this
    rw [hgone] at hy
    cases hy

theorem reap {s : State} {ds : List Completion} (h : Up (floor s) (.reaping ds) n []) :
    Up (floor (s.reap ds)) .looping n [] := by
  unfold State.reap
  induction ds generalizing s with
  | nil =>
    exact h.rethread rfl (fun x hx => absurd hx List.not_mem_nil) (by simp) (by simp) (by simp)
  | cons d ds ih => exact ih h.reapOne

end Thread

end Up

end SovereignCore.Store
