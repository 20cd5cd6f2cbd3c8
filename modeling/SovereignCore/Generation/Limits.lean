import SovereignCore.Generation.Reuse

/-!
# What a generation may emit

The constraint is asked before every token, the token is tested against the stop ids, emitted, tested against the limits
and only then stepped. The states of the loop at its head are followed; each begins one step.

* `StepRule.Permits` : a rule lets a token through;
* `Goes`, `Heads` : one round of the loop, and the states at its head; `Heads.run` : the loop passes through them;
* `AtHead` : what holds at the head: the ledger is the prompt and the emitted tokens, and the limits hold;
* `choose_permitted` : the token of a step is permitted by the rule of the step;
* `generation_obeys` : every call of every reachable controller keeps to the constraint, the stop ids and the limits.
-/

namespace SovereignCore.Generation

def StepRule.Permits : StepRule → UInt32 → Prop
  | .any, _ => True
  | .allow rows, t => t ∈ rows
  | .force u, t => t = u
  | .finish, _ => False

section

variable {M F : Type} [Logit F] {fp : ForwardPass M F} {prompt : List UInt32} {params : GenerateParams} {s s' : Turn M F}
  {n k : Nat} {t : UInt32}

/-! ## One step -/

/-- Choosing a token leaves the ledger, the step number and the emitted tokens alone. -/
structure Frame (s s' : Turn M F) : Prop where
  history : s'.ctl.history = s.ctl.history
  capacity : s'.ctl.capacity = s.ctl.capacity
  step : s'.step = s.step
  emitted : s'.emitted = s.emitted

omit [Logit F] in
theorem Frame.refl (s : Turn M F) : Frame s s := ⟨rfl, rfl, rfl, rfl⟩

omit [Logit F] in
theorem Frame.trans {s'' : Turn M F} (h : Frame s s') (h' : Frame s' s'') : Frame s s'' :=
  ⟨h'.history.trans h.history, h'.capacity.trans h.capacity, h'.step.trans h.step, h'.emitted.trans h.emitted⟩

omit [Logit F] in
theorem frame_rule (s : Turn M F) (prompt : List UInt32) : Frame s (s.rule prompt).2 := by
  unfold Turn.rule
  split
  · exact .refl s
  · exact ⟨rfl, rfl, rfl, rfl⟩

omit [Logit F] in
theorem frame_setModel (s : Turn M F) (m : M) : Frame s (s.setModel m) := ⟨rfl, rfl, rfl, rfl⟩

theorem frame_chooseAny (fp : ForwardPass M F) (s : Turn M F) : Frame s (chooseAny fp s).2 := by
  unfold chooseAny
  dsimp only
  split
  · exact ⟨rfl, rfl, rfl, rfl⟩
  · split
    · exact ⟨rfl, rfl, rfl, rfl⟩
    · exact ⟨rfl, rfl, rfl, rfl⟩
  · split
    · exact ⟨rfl, rfl, rfl, rfl⟩
    · exact ⟨rfl, rfl, rfl, rfl⟩

theorem chooseAllowed_mem {rows : List UInt32} (h : chooseAllowed fp rows s = (.ok t, s')) : t ∈ rows := by
  unfold chooseAllowed at h
  split at h
  · cases h
  · split at h
    · cases h
    · dsimp only at h
      split at h
      · rename_i hmem
        rw [← Except.ok.inj (Prod.mk.inj h).1]
        exact List.contains_iff_mem.1 hmem
      · cases h

theorem frame_chooseAllowed (fp : ForwardPass M F) (rows : List UInt32) (s : Turn M F) :
    Frame s (chooseAllowed fp rows s).2 := by
  unfold chooseAllowed
  split
  · exact .refl s
  · split
    · exact ⟨rfl, rfl, rfl, rfl⟩
    · dsimp only
      split
      · exact ⟨rfl, rfl, rfl, rfl⟩
      · exact ⟨rfl, rfl, rfl, rfl⟩

theorem frame_choose (fp : ForwardPass M F) (prompt : List UInt32) (s : Turn M F) : Frame s (choose fp prompt s).2 := by
  have hrule := frame_rule s prompt
  unfold choose
  split
  · rename_i heq
    rwa [heq] at hrule
  · rename_i heq
    rwa [heq] at hrule
  · rename_i heq
    rw [heq] at hrule
    split
    · exact hrule
    · exact hrule.trans (frame_setModel _ _)
  · rename_i rows s1 heq
    rw [heq] at hrule
    have hchoose := frame_chooseAllowed fp rows s1
    split
    · rename_i heq'
      rw [heq'] at hchoose
      exact hrule.trans hchoose
    · rename_i heq'
      rw [heq'] at hchoose
      exact hrule.trans hchoose
  · rename_i s1 heq
    rw [heq] at hrule
    have hchoose := frame_chooseAny fp s1
    split
    · rename_i heq'
      rw [heq'] at hchoose
      exact hrule.trans hchoose
    · rename_i heq'
      rw [heq'] at hchoose
      exact hrule.trans hchoose

theorem choose_permitted (h : choose fp prompt s = (.ok (some t), s')) :
    ∃ rule, (s.rule prompt).1 = .ok rule ∧ rule.Permits t := by
  unfold choose at h
  split at h
  · cases h
  · cases h
  · rename_i u s1 heq
    rw [heq]
    split at h
    · cases h
    · exact ⟨_, rfl, (Option.some.inj (Except.ok.inj (Prod.mk.inj h).1)).symm⟩
  · rename_i rows s1 heq
    rw [heq]
    split at h
    · cases h
    · rename_i u s2 heq'
      rw [Option.some.inj (Except.ok.inj (Prod.mk.inj h).1)] at heq'
      exact ⟨_, rfl, chooseAllowed_mem heq'⟩
  · rename_i s1 heq
    rw [heq]
    exact ⟨.any, rfl, trivial⟩

/-! ## The loop -/

/-- One round of the loop, from its head back to it, with `n` tokens left afterwards. -/
def Goes (fp : ForwardPass M F) (prompt : List UInt32) (params : GenerateParams) (n : Nat) (s s' : Turn M F) : Prop :=
  ∃ t s1 s2 ctl, choose fp prompt s = (.ok (some t), s1) ∧ params.stopTokenIds.contains t = false ∧
    Turn.emit { s1 with step := s1.step + 1 } t = (true, s2) ∧ n ≠ 0 ∧ s2.ctl.history.length < s2.ctl.capacity ∧
    s2.ctl.forward fp [t] (fun m pos => fp.decode m pos [t]) = (.ok (), ctl) ∧ s' = { s2 with ctl }

/-- The states at the head of a loop that starts with `n` tokens left. -/
inductive Heads (fp : ForwardPass M F) (prompt : List UInt32) (params : GenerateParams) (n : Nat) (s : Turn M F) :
    Nat → Turn M F → Prop
  | start : Heads fp prompt params n s n s
  | next {k : Nat} {s' s'' : Turn M F} : Heads fp prompt params n s (k + 1) s' → Goes fp prompt params k s' s'' →
    Heads fp prompt params n s k s''

theorem Heads.head (hgo : Goes fp prompt params n s s') {s'' : Turn M F} (h : Heads fp prompt params n s' k s'') :
    Heads fp prompt params (n + 1) s k s'' := by
  induction h with
  | start => exact .next .start hgo
  | next _ hgo' ih => exact .next ih hgo'

/-- At the head of the loop, with `n` tokens left. -/
structure AtHead (prompt : List UInt32) (params : GenerateParams) (n : Nat) (s : Turn M F) : Prop where
  history : s.ctl.history = prompt ++ s.emitted
  step : s.step = s.emitted.length
  left : s.emitted.length + n = params.maxNewTokens
  fits : s.ctl.history.length ≤ s.ctl.capacity
  clean : ∀ t ∈ s.emitted, t ∉ params.stopTokenIds

omit [Logit F] in
theorem forward_ok {c c' : Controller M} {ts : List UInt32} {f : M → Nat → Except String Unit × M}
    (h : c.forward fp ts f = (.ok (), c')) : c'.history = c.history ++ ts ∧ c'.capacity = c.capacity := by
  unfold Controller.forward at h
  split at h
  · rw [← (Prod.mk.inj h).2]
    exact ⟨rfl, rfl⟩
  · cases h

omit [Logit F] in
theorem forward_error {c c' : Controller M} {ts : List UInt32} {f : M → Nat → Except String Unit × M} {e : String}
    (h : c.forward fp ts f = (.error e, c')) : c'.history = c.history ∧ c'.capacity = c.capacity := by
  unfold Controller.forward at h
  split at h
  · cases h
  · rw [← (Prod.mk.inj h).2]
    exact ⟨rfl, rfl⟩

/-- What a token that is not a stop id leaves: it is emitted, and nothing else changes. -/
theorem AtHead.emitted (h : AtHead prompt params (n + 1) s) {s1 s2 : Turn M F} {go : Bool}
    (hchoose : choose fp prompt s = (.ok (some t), s1)) (hstop : params.stopTokenIds.contains t = false)
    (hemit : Turn.emit { s1 with step := s1.step + 1 } t = (go, s2)) :
    s2.emitted = s.emitted ++ [t] ∧ s2.step = s2.emitted.length ∧ s2.ctl.history = s.ctl.history ∧
      s2.ctl.capacity = s.ctl.capacity ∧ s2.emitted.length + n = params.maxNewTokens ∧
      ∀ u ∈ s2.emitted, u ∉ params.stopTokenIds := by
  have hframe := frame_choose fp prompt s
  rw [hchoose] at hframe
  have hs2 : s2 = (Turn.emit { s1 with step := s1.step + 1 } t).2 := by rw [hemit]
  have hemitted : s2.emitted = s.emitted ++ [t] := by
    rw [hs2, ← hframe.emitted]
    rfl
  have hstep : s2.step = s.step + 1 := by
    rw [hs2, ← hframe.step]
    rfl
  refine ⟨hemitted, ?_, ?_, ?_, ?_, ?_⟩
  · rw [hstep, hemitted, h.step, List.length_append]
    rfl
  · rw [hs2]
    exact hframe.history
  · rw [hs2]
    exact hframe.capacity
  · have hleft := h.left
    rw [hemitted, List.length_append, List.length_singleton]
    omega
  · intro u hu
    rw [hemitted] at hu
    rcases List.mem_append.1 hu with hu | hu
    · exact h.clean u hu
    · rw [List.mem_singleton.1 hu, ← List.contains_iff_mem, hstop]
      exact Bool.false_ne_true

theorem AtHead.goes (h : AtHead prompt params (n + 1) s) (hgo : Goes fp prompt params n s s') :
    AtHead prompt params n s' := by
  obtain ⟨t, s1, s2, ctl, hchoose, hstop, hemit, -, hroom, hforward, rfl⟩ := hgo
  obtain ⟨hemitted, hstep, hhistory, hcap, hleft, hclean⟩ := h.emitted hchoose hstop hemit
  obtain ⟨hledger, hcapacity⟩ := forward_ok hforward
  refine ⟨?_, hstep, hleft, ?_, hclean⟩
  · show ctl.history = prompt ++ s2.emitted
    rw [hledger, hhistory, h.history, hemitted, List.append_assoc]
  · show ctl.history.length ≤ ctl.capacity
    rw [hledger, hcapacity, List.length_append]
    exact hroom

theorem AtHead.heads (h : AtHead prompt params n s) (hheads : Heads fp prompt params n s k s') :
    AtHead prompt params k s' := by
  induction hheads with
  | start => exact h
  | next _ hgo ih => exact ih.goes hgo

omit [Logit F] in
theorem AtHead.asked (h : AtHead prompt params n s) {c : Constraint} (hc : s.constraint = some c) :
    (s.rule prompt).1 = (c.rule c.state prompt s.emitted).1 := by
  unfold Turn.rule
  rw [hc, h.history, List.drop_left]

/-- How the loop ends, told from one of its heads: the tokens emitted from there on were chosen at later heads, in turn. -/
structure Ended (fp : ForwardPass M F) (prompt : List UInt32) (params : GenerateParams) (n : Nat) (s : Turn M F)
    (r : Except String FinishReason) (e : Turn M F) : Prop where
  limit : e.emitted.length ≤ params.maxNewTokens
  clean : ∀ t ∈ e.emitted, t ∉ params.stopTokenIds
  fits : e.ctl.history.length ≤ e.ctl.capacity
  capacity : e.ctl.capacity = s.ctl.capacity
  more : s.emitted <+: e.emitted
  chosen : ∀ i t, s.emitted.length ≤ i → e.emitted[i]? = some t → ∃ k s' s1, Heads fp prompt params n s k s' ∧
    s'.emitted = e.emitted.take i ∧ choose fp prompt s' = (.ok (some t), s1)
  stopped : r = .ok .stop → ∃ k s' s1 t, Heads fp prompt params n s k s' ∧ s'.emitted = e.emitted ∧
    choose fp prompt s' = (.ok (some t), s1) ∧ t ∈ params.stopTokenIds

theorem AtHead.ended_here (h : AtHead prompt params n s) {r : Except String FinishReason} {e : Turn M F}
    (hframe : e.ctl.history = s.ctl.history ∧ e.ctl.capacity = s.ctl.capacity ∧ e.emitted = s.emitted)
    (hstop : r = .ok .stop → ∃ s1 t, choose fp prompt s = (.ok (some t), s1) ∧ t ∈ params.stopTokenIds) :
    Ended fp prompt params n s r e := by
  obtain ⟨hhistory, hcap, hemitted⟩ := hframe
  refine ⟨?_, ?_, ?_, hcap, ?_, ?_, ?_⟩
  · have hleft := h.left
    rw [hemitted]
    omega
  · rw [hemitted]
    exact h.clean
  · rw [hhistory, hcap]
    exact h.fits
  · simp only [hemitted, List.prefix_rfl]
  · intro i t hi ht
    rw [hemitted, List.getElem?_eq_none hi] at ht
    cases ht
  · intro hr
    obtain ⟨s1, t, hchoose, ht⟩ := hstop hr
    exact ⟨n, s, s1, t, .start, hemitted.symm, hchoose, ht⟩

theorem AtHead.ended_next (h : AtHead prompt params (n + 1) s) {r : Except String FinishReason} {s1 s2 e : Turn M F}
    {go : Bool} (hchoose : choose fp prompt s = (.ok (some t), s1)) (hstop : params.stopTokenIds.contains t = false)
    (hemit : Turn.emit { s1 with step := s1.step + 1 } t = (go, s2)) (hr : r ≠ .ok .stop)
    (hframe : e.ctl.history = s2.ctl.history ∧ e.ctl.capacity = s2.ctl.capacity ∧ e.emitted = s2.emitted) :
    Ended fp prompt params (n + 1) s r e := by
  obtain ⟨hemitted, -, hhistory, hcap, hleft, hclean⟩ := h.emitted hchoose hstop hemit
  obtain ⟨hhistory', hcap', hemitted'⟩ := hframe
  refine ⟨?_, ?_, ?_, hcap'.trans hcap, ?_, ?_, fun hr' => absurd hr' hr⟩
  · rw [hemitted']
    omega
  · rw [hemitted']
    exact hclean
  · rw [hhistory', hcap', hhistory, hcap]
    exact h.fits
  · rw [hemitted', hemitted]
    exact List.prefix_append _ _
  · intro i u hi hu
    rw [hemitted', hemitted] at hu
    have hlt : i < (s.emitted ++ [t]).length := (List.getElem?_eq_some_iff.1 hu).1
    rw [List.length_append, List.length_singleton] at hlt
    have hi' : i = s.emitted.length := by omega
    subst hi'
    rw [List.getElem?_concat_length] at hu
    refine ⟨n + 1, s, s1, .start, ?_, Option.some.inj hu ▸ hchoose⟩
    rw [hemitted', hemitted, List.take_left]

theorem Ended.head (h : AtHead prompt params (n + 1) s) (hgo : Goes fp prompt params n s s')
    {r : Except String FinishReason} {e : Turn M F} (he : Ended fp prompt params n s' r e) :
    Ended fp prompt params (n + 1) s r e := by
  obtain ⟨t, s1, s2, ctl, hchoose, hstop, hemit, hn, hroom, hforward, hs'⟩ := id hgo
  obtain ⟨hemitted, -, -, hcap, -, -⟩ := h.emitted hchoose hstop hemit
  have hemitted' : s'.emitted = s.emitted ++ [t] := by
    rw [hs']
    exact hemitted
  have hmore := he.more
  rw [hemitted'] at hmore
  have hcap' : s'.ctl.capacity = s.ctl.capacity := by
    rw [hs']
    exact (forward_ok hforward).2.trans hcap
  refine ⟨he.limit, he.clean, he.fits, he.capacity.trans hcap', (List.prefix_append _ _).trans hmore, ?_, ?_⟩
  · intro i u hi hu
    rcases Nat.eq_or_lt_of_le hi with rfl | hlt
    · obtain ⟨rest, hrest⟩ := hmore
      rw [← hrest, List.append_assoc, List.getElem?_append_right (Nat.le_refl _), Nat.sub_self] at hu
      refine ⟨n + 1, s, s1, .start, ?_, Option.some.inj hu ▸ hchoose⟩
      rw [← hrest, List.append_assoc, List.take_left]
    · have hi' : s'.emitted.length ≤ i := by
        rw [hemitted', List.length_append, List.length_singleton]
        exact hlt
      obtain ⟨k, s₀, s₁, hheads, htake, hch⟩ := he.chosen i u hi' hu
      exact ⟨k, s₀, s₁, .head hgo hheads, htake, hch⟩
  · intro hr
    obtain ⟨k, s₀, s₁, u, hheads, hsame, hch, hu⟩ := he.stopped hr
    exact ⟨k, s₀, s₁, u, .head hgo hheads, hsame, hch, hu⟩

theorem AtHead.ended (h : AtHead prompt params n s) {r : Except String FinishReason} {e : Turn M F}
    (hrun : decodeLoop fp prompt params n s = (r, e)) : Ended fp prompt params n s r e := by
  induction n generalizing s with
  | zero =>
    rw [decodeLoop] at hrun
    obtain ⟨rfl, rfl⟩ := Prod.mk.inj hrun
    exact h.ended_here ⟨rfl, rfl, rfl⟩ fun hr => by cases hr
  | succ n ih =>
    have hframe := frame_choose fp prompt s
    rw [decodeLoop] at hrun
    split at hrun
    · rename_i err s1 hchoose
      rw [hchoose] at hframe
      obtain ⟨rfl, rfl⟩ := Prod.mk.inj hrun
      exact h.ended_here ⟨hframe.history, hframe.capacity, hframe.emitted⟩ fun hr => by cases hr
    · rename_i s1 hchoose
      rw [hchoose] at hframe
      obtain ⟨rfl, rfl⟩ := Prod.mk.inj hrun
      exact h.ended_here ⟨hframe.history, hframe.capacity, hframe.emitted⟩ fun hr => by cases hr
    · rename_i t s1 hchoose
      rw [hchoose] at hframe
      dsimp only at hrun
      split at hrun
      · rename_i hstop
        obtain ⟨rfl, rfl⟩ := Prod.mk.inj hrun
        exact h.ended_here ⟨hframe.history, hframe.capacity, hframe.emitted⟩
          fun _ => ⟨s1, t, hchoose, List.contains_iff_mem.1 hstop⟩
      · rename_i hstop
        have hstop' : params.stopTokenIds.contains t = false := Bool.not_eq_true _ ▸ hstop
        split at hrun
        · rename_i s2 hemit
          obtain ⟨rfl, rfl⟩ := Prod.mk.inj hrun
          exact h.ended_next hchoose hstop' hemit (fun hr => by cases hr) ⟨rfl, rfl, rfl⟩
        · rename_i s2 hemit
          split at hrun
          · obtain ⟨rfl, rfl⟩ := Prod.mk.inj hrun
            exact h.ended_next hchoose hstop' hemit (fun hr => by cases hr) ⟨rfl, rfl, rfl⟩
          · rename_i hroom
            obtain ⟨hn, hroom⟩ := not_or.1 hroom
            split at hrun
            · rename_i err ctl hforward
              obtain ⟨rfl, rfl⟩ := Prod.mk.inj hrun
              obtain ⟨hhistory, hcap⟩ := forward_error hforward
              exact h.ended_next hchoose hstop' hemit (fun hr => by cases hr) ⟨hhistory, hcap, rfl⟩
            · rename_i ctl hforward
              have hgo : Goes fp prompt params n s { s2 with ctl } :=
                ⟨t, s1, s2, ctl, hchoose, hstop', hemit, hn, Nat.not_le.1 hroom, hforward, rfl⟩
              exact (ih (h.goes hgo) hrun).head h hgo

/-! ## Generation -/

namespace Controller

variable {c : Controller M} {sampler : Sampler F} {constraint : Option Constraint} {onToken : Callback}

/-- The loop's first state, when the prompt fits and the prefill succeeds. -/
def loopStart (fp : ForwardPass M F) (c : Controller M) (prompt : List UInt32) (sampler : Sampler F)
    (constraint : Option Constraint) (onToken : Callback) : Option (Turn M F) :=
  let c := c.forget fp
  let suffix := prompt.drop (c.reusablePrefix prompt)
  if prompt = [] ∨ c.capacity ≤ prompt.length then none
  else match (c.keepPrefix fp prompt).forward fp suffix fun m pos => fp.prefill m pos suffix with
    | (.ok (), ctl) => some { ctl, sampler, constraint, onToken }
    | (.error _, _) => none

omit [Logit F] in
theorem keepPrefix_capacity (fp : ForwardPass M F) (c : Controller M) (prompt : List UInt32) : (c.keepPrefix fp prompt).capacity = c.capacity := by
  unfold keepPrefix
  split
  · rfl
  · rfl

omit [Logit F] in
theorem keepPrefix_length (fp : ForwardPass M F) (c : Controller M) (prompt : List UInt32) :
    (c.keepPrefix fp prompt).history.length ≤ prompt.length := by
  have happend := congrArg List.length (Causal.keepPrefix_append fp c prompt)
  rw [List.length_append] at happend
  omega

omit [Logit F] in
/-- The loop starts at its head: after the prefill the ledger is the prompt. -/
theorem atHead_loopStart (params : GenerateParams) {s : Turn M F} (h : c.loopStart fp prompt sampler constraint onToken = some s) :
    AtHead prompt params params.maxNewTokens s ∧ s.ctl.capacity = c.capacity ∧ s.constraint = constraint ∧
      s.emitted = [] := by
  unfold loopStart at h
  dsimp only at h
  split at h
  · cases h
  · rename_i hfit
    obtain ⟨-, hfit⟩ := not_or.1 hfit
    split at h
    · rename_i ctl hforward
      obtain ⟨hhistory, hcap⟩ := forward_ok hforward
      rw [Causal.keepPrefix_append] at hhistory
      rw [keepPrefix_capacity] at hcap
      obtain rfl := Option.some.inj h
      refine ⟨⟨?_, rfl, Nat.zero_add _, ?_, fun t ht => by cases ht⟩, hcap, rfl, rfl⟩
      · rw [List.append_nil]
        exact hhistory
      · show ctl.history.length ≤ ctl.capacity
        rw [hhistory, hcap]
        exact Nat.le_of_lt (Nat.not_le.1 hfit)
    · cases h

/-- A call either runs the loop from its start, or fails before it with a ledger that fits. -/
theorem generate_cases (fp : ForwardPass M F) (c : Controller M) (prompt : List UInt32) (params : GenerateParams)
    (sampler : Sampler F) (constraint : Option Constraint) (onToken : Callback) (hfits : c.history.length ≤ c.capacity) :
    (∃ s, c.loopStart fp prompt sampler constraint onToken = some s ∧
      c.generate fp prompt params sampler constraint onToken =
        ((decodeLoop fp prompt params params.maxNewTokens s).1.map fun finish =>
          { emitted := (decodeLoop fp prompt params params.maxNewTokens s).2.emitted, finish, promptTokens := prompt.length,
            reusedPromptTokens := (c.forget fp).reusablePrefix prompt },
          (decodeLoop fp prompt params params.maxNewTokens s).2.ctl)) ∨
    (c.loopStart fp prompt sampler constraint onToken = none ∧
      ∃ e c', c.generate fp prompt params sampler constraint onToken = (.error e, c') ∧ c'.capacity = c.capacity ∧
        c'.history.length ≤ c.capacity) := by
  unfold generate loopStart
  dsimp only
  by_cases hempty : prompt = []
  · rw [if_pos hempty, if_pos (.inl hempty)]
    exact .inr ⟨rfl, _, _, rfl, rfl, hfits⟩
  by_cases hlong : (c.forget fp).capacity ≤ prompt.length
  · rw [if_neg hempty, if_pos hlong, if_pos (.inr hlong)]
    exact .inr ⟨rfl, _, _, rfl, rfl, hfits⟩
  rw [if_neg hempty, if_neg hlong, if_neg (not_or.2 ⟨hempty, hlong⟩)]
  unfold run
  dsimp only
  have hlen := keepPrefix_length fp (c.forget fp) prompt
  have hcap := keepPrefix_capacity fp (c.forget fp) prompt
  generalize hforward : ((c.forget fp).keepPrefix fp prompt).forward fp
    (prompt.drop ((c.forget fp).reusablePrefix prompt)) _ = p
  obtain ⟨r, c'⟩ := p
  cases r with
  | error e =>
    obtain ⟨hhistory, hcapacity⟩ := forward_error hforward
    refine .inr ⟨rfl, e, c', rfl, hcapacity.trans hcap, ?_⟩
    rw [hhistory]
    exact Nat.le_trans hlen (Nat.le_of_lt (Nat.not_le.1 hlong))
  | ok _ =>
    refine .inl ⟨_, rfl, ?_⟩
    dsimp only
    split
    · rename_i e s' hloop
      rw [hloop]
      rfl
    · rename_i finish s' hloop
      rw [hloop]
      rfl

end Controller

/-- A generation keeps to the constraint, the stop ids and the limits. -/
structure Obeys (fp : ForwardPass M F) (c : Controller M) (prompt : List UInt32) (params : GenerateParams)
    (sampler : Sampler F) (constraint : Option Constraint) (onToken : Callback) : Prop where
  /-- At the head of step `k` the constraint is asked with exactly the `k` tokens emitted so far. -/
  asked : ∀ s k s', c.loopStart fp prompt sampler constraint onToken = some s →
    Heads fp prompt params params.maxNewTokens s k s' → s'.emitted.length = s'.step ∧
      ∀ rules, s'.constraint = some rules → (s'.rule prompt).1 = (rules.rule rules.state prompt s'.emitted).1
  /-- The token of a step, emitted or consumed as a stop id, is permitted by the rule of the step. -/
  permitted : ∀ s k s' t s1, c.loopStart fp prompt sampler constraint onToken = some s →
    Heads fp prompt params params.maxNewTokens s k s' → choose fp prompt s' = (.ok (some t), s1) →
      ∃ rule, (s'.rule prompt).1 = .ok rule ∧ rule.Permits t
  /-- Whether the loop succeeds or fails: the limits, and where its tokens and the stop id were chosen. -/
  ended : ∀ s r e, c.loopStart fp prompt sampler constraint onToken = some s →
    decodeLoop fp prompt params params.maxNewTokens s = (r, e) → Ended fp prompt params params.maxNewTokens s r e
  outcome : ∀ out, (c.generate fp prompt params sampler constraint onToken).1 = .ok out →
    ∃ s, c.loopStart fp prompt sampler constraint onToken = some s ∧
      decodeLoop fp prompt params params.maxNewTokens s =
        (.ok out.finish, (decodeLoop fp prompt params params.maxNewTokens s).2) ∧
      out.emitted = (decodeLoop fp prompt params params.maxNewTokens s).2.emitted
  within : (∀ s k s', c.loopStart fp prompt sampler constraint onToken = some s →
      Heads fp prompt params params.maxNewTokens s k s' → s'.ctl.history.length ≤ s'.ctl.capacity) ∧
    (c.generate fp prompt params sampler constraint onToken).2.history.length ≤ c.capacity ∧
    (c.generate fp prompt params sampler constraint onToken).2.capacity = c.capacity

theorem obeys_of_fits (fp : ForwardPass M F) (c : Controller M) (prompt : List UInt32) (params : GenerateParams)
    (sampler : Sampler F) (constraint : Option Constraint) (onToken : Callback) (hfits : c.history.length ≤ c.capacity) :
    Obeys fp c prompt params sampler constraint onToken where
  asked s k s' hs hheads := by
    have hhead := (Controller.atHead_loopStart params hs).1.heads hheads
    exact ⟨hhead.step.symm, fun rules hrules => hhead.asked hrules⟩
  permitted s k s' t s1 hs hheads hchoose := choose_permitted hchoose
  ended s r e hs hrun := (Controller.atHead_loopStart params hs).1.ended hrun
  outcome out hout := by
    obtain ⟨s, hs, hgen⟩ | ⟨-, e, c', hgen, -⟩ := Controller.generate_cases fp c prompt params sampler constraint onToken hfits
    · rw [hgen] at hout
      refine ⟨s, hs, ?_⟩
      generalize decodeLoop fp prompt params params.maxNewTokens s = p at hout ⊢
      obtain ⟨r, e⟩ := p
      cases r with
      | error err => cases hout
      | ok finish =>
        obtain rfl := Except.ok.inj hout
        exact ⟨rfl, rfl⟩
    · rw [hgen] at hout
      cases hout
  within := by
    refine ⟨fun s k s' hs hheads => ((Controller.atHead_loopStart params hs).1.heads hheads).fits, ?_⟩
    obtain ⟨s, hs, hgen⟩ | ⟨-, e, c', hgen, hcap, hlen⟩ :=
      Controller.generate_cases fp c prompt params sampler constraint onToken hfits
    · obtain ⟨hhead, hcap, -⟩ := Controller.atHead_loopStart params hs
      rw [hgen]
      have hended : Ended fp prompt params params.maxNewTokens s _ _ := hhead.ended rfl
      have hsame := hended.capacity.trans hcap
      exact ⟨hsame ▸ hended.fits, hsame⟩
    · rw [hgen]
      exact ⟨hlen, hcap⟩

/-! ## Reachable controllers -/

theorem call_fits {c : Controller M} (hfits : c.history.length ≤ c.capacity) (call : Call F) :
    (c.call fp call).2.history.length ≤ (c.call fp call).2.capacity := by
  cases call with
  | reset => exact Nat.zero_le _
  | rewind len => exact Nat.le_trans (List.length_take_le' _ _) hfits
  | exportKv start len =>
    show (c.exportKv fp start len).2.history.length ≤ (c.exportKv fp start len).2.capacity
    unfold Controller.exportKv
    split
    · exact hfits
    · split
      · exact hfits
      · exact hfits
  | restoreKv tokens payload =>
    show (c.restoreKv fp tokens payload).2.history.length ≤ (c.restoreKv fp tokens payload).2.capacity
    unfold Controller.restoreKv
    dsimp only
    split
    · exact Nat.zero_le _
    · rename_i hlong
      split
      · exact Nat.le_of_lt (Nat.not_le.1 (not_or.1 hlong).2)
      · exact Nat.zero_le _
      · exact Nat.zero_le _
  | generate prompt params sampler constraint onToken =>
    obtain ⟨-, hlen, hcap⟩ := (obeys_of_fits fp c prompt params sampler constraint onToken hfits).within
    exact hcap.symm ▸ hlen

theorem after_fits (fp : ForwardPass M F) (m : M) (calls : List (Call F)) :
    (Controller.after fp m calls).history.length ≤ (Controller.after fp m calls).capacity := by
  unfold Controller.after
  apply List.foldlRecOn (motive := fun c : Controller M => c.history.length ≤ c.capacity)
  · exact Nat.zero_le _
  · exact fun c hc call _ => call_fits hc call

/-- For every model, sampler, constraint and callback, in every state that calls of the controller lead to. -/
theorem generation_obeys (fp : ForwardPass M F) (m : M) (calls : List (Call F)) (prompt : List UInt32)
    (params : GenerateParams) (sampler : Sampler F) (constraint : Option Constraint) (onToken : Callback) :
    Obeys fp (Controller.after fp m calls) prompt params sampler constraint onToken :=
  obeys_of_fits fp _ prompt params sampler constraint onToken (after_fits fp m calls)

end

end SovereignCore.Generation
