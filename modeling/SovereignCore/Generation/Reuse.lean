import SovereignCore.Generation.Agreement

/-!
# Prefix reuse is invisible

A controller keeps what it stored for an earlier prompt and its answer, and starts the next prompt from the common
part. For a model whose rows and heads are functions of the tokens before them this changes no token: every successful
generation is the one a stateless specification gives, and so is that of a new controller.

* `Causal` : rows and heads are functions of the tokens up to their position;
* `specLoop`, `spec` : generation as a function of the prompt, the parameters and the caller's objects;
* `Holds` : the invariant, the stored rows are those of the ledger;
* `generate_spec` : a successful generation follows the specification, and so does every one of a reliable model;
* `reuse_invisible` : two controllers with different pasts.
-/

namespace SovereignCore.Generation

variable {M F R : Type}

/-! ## Causal models -/

/-- The rows of layer `l` for the tokens `h`: one for each position, from the tokens up to it. -/
def rowsOf (row : Nat → List UInt32 → R) (l : Nat) (h : List UInt32) : List R :=
  (List.range h.length).map fun i => row l (h.take (i + 1))

theorem length_rowsOf {row : Nat → List UInt32 → R} {l : Nat} {h : List UInt32} : (rowsOf row l h).length = h.length := by
  simp [rowsOf]

theorem take_rowsOf {row : Nat → List UInt32 → R} {l n : Nat} {h : List UInt32} :
    (rowsOf row l h).take n = rowsOf row l (h.take n) := by
  unfold rowsOf
  rw [← List.map_take, List.take_range, List.length_take]
  refine List.map_congr_left fun i hi => ?_
  rw [List.mem_range] at hi
  rw [List.take_take, Nat.min_eq_left (by omega)]

/-- A forward function that, on a cache with the rows of `h`, writes the rows of `h ++ ts` and leaves its head. -/
def Extends (stored : M → Nat → List R) (head : M → Option (List F)) (row : Nat → List UInt32 → R)
    (headOf : List UInt32 → List F) (f : M → Nat → List UInt32 → Except String Unit × M) : Prop :=
  ∀ m h ts m', ts ≠ [] → (∀ l, stored m l = rowsOf row l h) → f m h.length ts = (.ok (), m') →
    (∀ l, stored m' l = rowsOf row l (h ++ ts)) ∧ head m' = some (headOf (h ++ ts))

/-- The contract of a model whose rows and heads are functions of the tokens up to their position. An unread head can
be read as its logits, or as their argmax when that is all the controller wants. -/
structure Causal [Logit F] (fp : ForwardPass M F) (stored : M → Nat → List R) (head : M → Option (List F))
    (row : Nat → List UInt32 → R) (headOf : List UInt32 → List F) : Prop where
  lawful : Lawful fp stored fun m => (head m).isSome
  prefill : Extends stored head row headOf fp.prefill
  decode : Extends stored head row headOf fp.decode
  next : ∀ m w r m', fp.next m 0 w = (.ok r, m') →
    ∃ l, head m = some l ∧ (r = .logits l ∨ (w = .greedy ∧ r = .token (sampleArgmax l)))
  nextRows : ∀ m rs vs m', fp.nextRows m 0 rs = (.ok vs, m') → ∃ l, head m = some l ∧ rs.mapM (gatherRow l) = .ok vs

/-- A model that fails no call the controller makes in order. -/
structure Reliable (fp : ForwardPass M F) (stored : M → Nat → List R) (head : M → Option (List F)) : Prop where
  prefill : ∀ m pos ts, ts ≠ [] → (∀ l, (stored m l).length = pos) → pos + ts.length ≤ fp.capacity →
    (fp.prefill m pos ts).1 = .ok ()
  decode : ∀ m pos ts, ts ≠ [] → (∀ l, (stored m l).length = pos) → pos + ts.length ≤ fp.capacity →
    (fp.decode m pos ts).1 = .ok ()
  next : ∀ m w, (head m).isSome → ∃ r, (fp.next m 0 w).1 = .ok r
  nextRows : ∀ m rs, (head m).isSome → (∀ r ∈ rs, r.toNat < fp.vocab) → ∃ vs, (fp.nextRows m 0 rs).1 = .ok vs

/-! ## The specification -/

section

variable [Logit F]

/-- What decides the next token: the tokens so far, the caller's objects, the step number and what was emitted. -/
structure Draw (F : Type) where
  history : List UInt32
  sampler : Sampler F
  constraint : Option Constraint
  onToken : Callback
  step : Nat := 0
  emitted : List UInt32 := []

/-- The sampler's token for `logits`. -/
def Draw.pick (d : Draw F) (logits : List F) : UInt32 × Draw F :=
  let (t, st) := d.sampler.pick d.sampler.state logits d.step
  (t, { d with sampler := { d.sampler with state := st } })

def Draw.rule (d : Draw F) (prompt : List UInt32) : Except String StepRule × Draw F :=
  match d.constraint with
  | none => (.ok .any, d)
  | some k =>
    let (r, st) := k.rule k.state prompt (d.history.drop prompt.length)
    (r, { d with constraint := some { k with state := st } })

def Draw.emit (d : Draw F) (t : UInt32) : Bool × Draw F :=
  let (go, st) := d.onToken.call d.onToken.state t
  (go, { d with emitted := d.emitted ++ [t], onToken := { d.onToken with state := st } })

def specAny (head : List F) (d : Draw F) : UInt32 × Draw F :=
  if d.sampler.wantsLogits d.sampler.state then d.pick head else (sampleArgmax head, d)

def specAllowed (vocab : Nat) (head : List F) (rows : List UInt32) (d : Draw F) : Except String UInt32 × Draw F :=
  match checkAllowed rows vocab with
  | .error e => (.error e, d)
  | .ok () =>
    match rows.mapM (gatherRow head) with
    | .error e => (.error e, d)
    | .ok vals =>
      let (t, d') := d.pick (maskRows vocab rows vals)
      if rows.contains t then (.ok t, d')
      else (.error s!"the sampler picked token {t}, outside the {rows.length} allowed", d')

def specChoose (vocab : Nat) (headOf : List UInt32 → List F) (prompt : List UInt32) (d : Draw F) :
    Except String (Option UInt32) × Draw F :=
  match d.rule prompt with
  | (.error e, d) => (.error e, d)
  | (.ok .finish, d) => (.ok none, d)
  | (.ok (.force t), d) =>
    if vocab ≤ t.toNat then (.error s!"constraint forced token {t}, vocabulary is {vocab}", d) else (.ok (some t), d)
  | (.ok (.allow rows), d) =>
    match specAllowed vocab (headOf d.history) rows d with
    | (.error e, d') => (.error e, d')
    | (.ok t, d') => (.ok (some t), d')
  | (.ok .any, d) => (.ok (some (specAny (headOf d.history) d).1), (specAny (headOf d.history) d).2)

def specLoop (vocab capacity : Nat) (headOf : List UInt32 → List F) (prompt : List UInt32) (params : GenerateParams) :
    Nat → Draw F → Except String (List UInt32 × FinishReason)
  | 0, d => .ok (d.emitted, .length)
  | n + 1, d =>
    match specChoose vocab headOf prompt d with
    | (.error e, _) => .error e
    | (.ok none, d) => .ok (d.emitted, .constraint)
    | (.ok (some t), d) =>
      let d := { d with step := d.step + 1 }
      if params.stopTokenIds.contains t then .ok (d.emitted, .stop) else
      match d.emit t with
      | (false, d) => .ok (d.emitted, .cancelled)
      | (true, d) =>
        if n = 0 ∨ capacity ≤ d.history.length then .ok (d.emitted, .length)
        else specLoop vocab capacity headOf prompt params n { d with history := d.history ++ [t] }

/-- **Generation, without a past**: the emitted tokens and the finish reason as a function of the request. -/
def spec (vocab capacity : Nat) (headOf : List UInt32 → List F) (prompt : List UInt32) (params : GenerateParams)
    (sampler : Sampler F) (constraint : Option Constraint) (onToken : Callback) :
    Except String (List UInt32 × FinishReason) :=
  if prompt = [] then .error "empty prompt"
  else if capacity ≤ prompt.length then .error s!"prompt of {prompt.length} tokens, context is {capacity}"
  else specLoop vocab capacity headOf prompt params params.maxNewTokens
    { history := prompt, sampler, constraint, onToken }

/-! ## One step follows the specification -/

theorem checkAllowed_lt {rows : List UInt32} {vocab : Nat} {u : Unit} (h : checkAllowed rows vocab = .ok u) :
    ∀ r ∈ rows, r.toNat < vocab := by
  unfold checkAllowed at h
  split at h
  · simp at h
  · split at h
    · simp at h
    · split at h
      · simp at h
      · rename_i hnone
        intro r hr
        have := List.find?_eq_none.1 hnone r hr
        simpa using this

def Turn.draw (s : Turn M F) : Draw F :=
  ⟨s.ctl.history, s.sampler, s.constraint, s.onToken, s.step, s.emitted⟩

variable {fp : ForwardPass M F} {stored : M → Nat → List R} {head : M → Option (List F)}
variable {row : Nat → List UInt32 → R} {headOf : List UInt32 → List F} {s s' : Turn M F} {prompt : List UInt32}

omit [Logit F] in
theorem rule_draw (s : Turn M F) (prompt : List UInt32) :
    (s.draw.rule prompt) = ((s.rule prompt).1, (s.rule prompt).2.draw) ∧ (s.rule prompt).2.ctl = s.ctl := by
  unfold Turn.rule Draw.rule
  cases hk : s.constraint with
  | none => simp [Turn.draw, hk]
  | some k => simp [Turn.draw, hk]

namespace Causal

variable (h : Causal fp stored head row headOf)

include h

theorem chooseAny_spec {l : List F} (hhead : head s.ctl.model = some l)
    (hok : Reliable fp stored head ∨ ∃ t, (chooseAny fp s).1 = .ok t) :
    (chooseAny fp s).1 = .ok (specAny l s.draw).1 ∧ (chooseAny fp s).2.draw = (specAny l s.draw).2 := by
  set w : Want := if s.sampler.wantsLogits s.sampler.state then .logits else .greedy with hw
  have hread : ∃ r m, fp.next s.ctl.model 0 w = (.ok r, m) := by
    rcases hcall : fp.next s.ctl.model 0 w with ⟨e | r, m⟩
    · rcases hok with hrel | ⟨t, ht⟩
      · obtain ⟨r, hr⟩ := hrel.next s.ctl.model w (by simp [hhead])
        rw [hcall] at hr
        simp at hr
      · unfold chooseAny at ht
        dsimp only at ht
        rw [← hw, hcall] at ht
        simp at ht
    · exact ⟨r, m, rfl⟩
  obtain ⟨r, m, hcall⟩ := hread
  obtain ⟨l', hl', hr⟩ := h.next _ _ _ _ hcall
  rw [hhead] at hl'
  obtain rfl := Option.some.inj hl'
  have hdraw : s.draw.sampler = s.sampler := rfl
  unfold chooseAny specAny
  dsimp only
  rw [← hw, hcall, hdraw]
  cases hwants : s.sampler.wantsLogits s.sampler.state with
  | true =>
    rcases hr with rfl | ⟨hg, -⟩
    · exact ⟨rfl, rfl⟩
    · simp [hw, hwants] at hg
  | false =>
    rcases hr with rfl | ⟨-, rfl⟩
    · exact ⟨rfl, rfl⟩
    · exact ⟨rfl, rfl⟩

theorem chooseAllowed_spec {l : List F} (rows : List UInt32) (hhead : head s.ctl.model = some l)
    (hok : Reliable fp stored head ∨ ∃ t, (chooseAllowed fp rows s).1 = .ok t) :
    (chooseAllowed fp rows s).1 = (specAllowed fp.vocab l rows s.draw).1 ∧
      (chooseAllowed fp rows s).2.draw = (specAllowed fp.vocab l rows s.draw).2 := by
  unfold chooseAllowed at hok ⊢
  unfold specAllowed
  cases hcheck : checkAllowed rows fp.vocab with
  | error e => exact ⟨rfl, rfl⟩
  | ok u =>
    rw [hcheck] at hok
    dsimp only at hok ⊢
    have hread : ∃ vs m, fp.nextRows s.ctl.model 0 rows = (.ok vs, m) := by
      rcases hcall : fp.nextRows s.ctl.model 0 rows with ⟨e | vs, m⟩
      · rcases hok with hrel | ⟨t, ht⟩
        · obtain ⟨vs, hvs⟩ := hrel.nextRows s.ctl.model rows (by simp [hhead]) (checkAllowed_lt hcheck)
          rw [hcall] at hvs
          simp at hvs
        · rw [hcall] at ht
          simp at ht
      · exact ⟨vs, m, rfl⟩
    obtain ⟨vs, m, hcall⟩ := hread
    obtain ⟨l', hl', hvs⟩ := h.nextRows _ _ _ _ hcall
    rw [hhead] at hl'
    obtain rfl := Option.some.inj hl'
    rw [hcall, hvs]
    have hpick : s.draw.pick (maskRows fp.vocab rows vs) =
        (((s.setModel m).pick (maskRows fp.vocab rows vs)).1, ((s.setModel m).pick (maskRows fp.vocab rows vs)).2.draw) := rfl
    dsimp only
    rw [hpick]
    split <;> exact ⟨rfl, rfl⟩

theorem choose_spec (hhead : head s.ctl.model = some (headOf s.ctl.history))
    (hok : Reliable fp stored head ∨ ∃ t, (choose fp prompt s).1 = .ok t) :
    (choose fp prompt s).1 = (specChoose fp.vocab headOf prompt s.draw).1 ∧
      (choose fp prompt s).2.draw = (specChoose fp.vocab headOf prompt s.draw).2 := by
  obtain ⟨hrule, hctl⟩ := rule_draw s prompt
  unfold choose at hok ⊢
  unfold specChoose
  rw [hrule]
  rcases hr : s.rule prompt with ⟨e | rule, s1⟩
  · exact ⟨rfl, rfl⟩
  · rw [hr] at hok hctl
    dsimp only at hctl
    have hhead1 : head s1.ctl.model = some (headOf s1.draw.history) := by
      rw [hctl]
      show _ = some (headOf s1.ctl.history)
      rw [hctl]
      exact hhead
    cases rule with
    | finish => exact ⟨rfl, rfl⟩
    | force t =>
      dsimp only
      split <;> exact ⟨rfl, rfl⟩
    | allow rows =>
      dsimp only at hok ⊢
      obtain ⟨h1, h2⟩ := h.chooseAllowed_spec rows hhead1 (by
        rcases hok with hok | ⟨t, ht⟩
        · exact Or.inl hok
        · rcases hcall : chooseAllowed fp rows s1 with ⟨e | t', s2⟩
          · rw [hcall] at ht
            simp at ht
          · exact Or.inr ⟨t', rfl⟩)
      rcases hcall : chooseAllowed fp rows s1 with ⟨e | t', s2⟩
      · rcases hspec : specAllowed fp.vocab (headOf s1.draw.history) rows s1.draw with ⟨e' | t'', d2⟩
        · rw [hcall, hspec] at h1 h2
          exact ⟨congrArg _ (Except.error.inj h1), h2⟩
        · rw [hcall, hspec] at h1
          simp at h1
      · rcases hspec : specAllowed fp.vocab (headOf s1.draw.history) rows s1.draw with ⟨e' | t'', d2⟩
        · rw [hcall, hspec] at h1
          simp at h1
        · rw [hcall, hspec] at h1 h2
          simp only [Except.ok.injEq] at h1
          exact ⟨by simp [h1], h2⟩
    | any =>
      dsimp only at hok ⊢
      obtain ⟨h1, h2⟩ := h.chooseAny_spec hhead1 (by
        rcases hok with hok | ⟨t, ht⟩
        · exact Or.inl hok
        · rcases hcall : chooseAny fp s1 with ⟨e | t', s2⟩
          · rw [hcall] at ht
            simp at ht
          · exact Or.inr ⟨t', rfl⟩)
      rcases hcall : chooseAny fp s1 with ⟨e | t', s2⟩
      · rw [hcall] at h1
        simp at h1
      · rw [hcall] at h1 h2
        exact ⟨by simp [Except.ok.inj h1], h2⟩

end Causal

/-! ## The invariant -/

/-- The stored rows are those of the ledger, which fits the cache. -/
structure Holds (fp : ForwardPass M F) (stored : M → Nat → List R) (row : Nat → List UInt32 → R) (c : Controller M) :
    Prop where
  rows : ∀ l, stored c.model l = rowsOf row l c.history
  fits : c.history.length ≤ fp.capacity
  capacity : c.capacity = fp.capacity

variable {c c' : Controller M}

omit [Logit F] in
theorem Holds.positions (hc : Holds fp stored row c) (l : Nat) : (stored c.model l).length = c.history.length := by
  rw [hc.rows, length_rowsOf]

namespace Causal

variable (h : Causal fp stored head row headOf)

include h

theorem reset_holds (hc : c.capacity = fp.capacity) : Holds fp stored row (c.reset fp) where
  rows l := by
    show stored (fp.truncate (fp.beginSequence c.model) 0) l = rowsOf row l []
    rw [h.lawful.truncate]
    rfl
  fits := Nat.zero_le _
  capacity := hc

theorem rewind_holds (hc : Holds fp stored row c) (n : Nat) : Holds fp stored row (c.rewind fp n) where
  rows l := by
    show stored (fp.truncate (fp.clearPending c.model) n) l = rowsOf row l (c.history.take n)
    rw [h.lawful.truncate, (h.lawful.clearPending _).1, hc.rows, take_rowsOf]
  fits := Nat.le_trans (List.length_take_le' _ _) hc.fits
  capacity := hc.capacity

theorem rollback_holds (hcap : c.capacity = fp.capacity) (hfit : c.history.length ≤ fp.capacity)
    (hrows : ∀ l, ∃ part, stored c.model l = rowsOf row l c.history ++ part) : Holds fp stored row (c.rollback fp) where
  rows l := by
    obtain ⟨part, hpart⟩ := hrows l
    show stored (fp.clearPending (fp.truncate c.model c.history.length)) l = rowsOf row l c.history
    rw [(h.lawful.clearPending _).1, h.lawful.truncate, hpart, List.take_left' length_rowsOf]
  fits := hfit
  capacity := hcap

/-- **One forward call**: on success the rows and the head of the longer ledger, on failure the rows as before. -/
theorem forward_holds {f : M → Nat → List UInt32 → Except String Unit × M} (hw : Writes stored f)
    (hf : Extends stored head row headOf f) (hc : Holds fp stored row c) {ts : List UInt32} (hne : ts ≠ [])
    (hfit : c.history.length + ts.length ≤ fp.capacity) {r : Except String Unit}
    (hrun : c.forward fp ts (fun m pos => f m pos ts) = (r, c')) :
    Holds fp stored row c' ∧
      (r = .ok () → c'.history = c.history ++ ts ∧ head c'.model = some (headOf (c.history ++ ts))) := by
  unfold Controller.forward at hrun
  dsimp only at hrun
  rcases hcall : f c.model c.history.length ts with ⟨⟨⟩ | ⟨⟩, m⟩
  · rw [hcall] at hrun
    obtain ⟨rfl, rfl⟩ := Prod.mk.inj hrun
    refine ⟨h.rollback_holds hc.capacity hc.fits fun l => ?_, nofun⟩
    obtain ⟨part, hpart⟩ := hw.error _ _ _ _ _ hc.positions hcall l
    exact ⟨part, by rw [← hc.rows]; exact hpart⟩
  · rw [hcall] at hrun
    obtain ⟨rfl, rfl⟩ := Prod.mk.inj hrun
    obtain ⟨hrows, hhead⟩ := hf _ _ _ _ hne hc.rows hcall
    refine ⟨⟨hrows, ?_, hc.capacity⟩, fun _ => ⟨rfl, hhead⟩⟩
    show (c.history ++ ts).length ≤ fp.capacity
    rw [List.length_append]
    exact hfit

theorem holds_kept : Kept fp stored (Holds fp stored row) fun _ => True where
  capacity _ hc := hc.capacity
  same c c' hc hr hh hk := ⟨fun l => by rw [hr, hh]; exact hc.rows l, by rw [hh]; exact hc.fits, hk.trans hc.capacity⟩
  reset _ hc := h.reset_holds hc.capacity
  rewind _ n hc := h.rewind_holds hc n
  rollback c hc :=
    ⟨h.rollback_holds hc.capacity hc.fits fun l => ⟨[], by rw [List.append_nil]; exact hc.rows l⟩, trivial⟩
  forget c hc := ⟨⟨fun l => by
    show stored (fp.clearPending c.model) l = rowsOf row l c.history
    rw [(h.lawful.clearPending _).1]
    exact hc.rows l, hc.fits, hc.capacity⟩, trivial⟩
  prefill c ts r c' hc hne hfit hrun :=
    ⟨(h.forward_holds h.lawful.prefill h.prefill hc hne hfit hrun).1, fun _ _ => trivial⟩
  decode c ts r c' hc hne hfit hrun :=
    ⟨(h.forward_holds h.lawful.decode h.decode hc hne hfit hrun).1, fun _ _ => trivial⟩

omit h [Logit F] in
theorem forward_reliable {f : M → Nat → Except String Unit × M} {ts : List UInt32} {e : String}
    (hf : (f c.model c.history.length).1 = .ok ()) (hrun : c.forward fp ts f = (.error e, c')) : False := by
  unfold Controller.forward at hrun
  rcases hcall : f c.model c.history.length with ⟨e' | u, m⟩
  · rw [hcall] at hf
    simp at hf
  · rw [hcall] at hrun
    simp at hrun

theorem call_holds {k : Call F} (hc : Holds fp stored row c) (hk : ∀ ts b, k ≠ .restoreKv ts b) :
    Holds fp stored row (c.call fp k).2 := by
  cases k with
  | reset => exact h.reset_holds hc.capacity
  | rewind n => exact h.rewind_holds hc n
  | exportKv i n =>
    have hm := h.lawful.exportBlocks c.model i n
    show Holds fp stored row (c.exportKv fp i n).2
    unfold Controller.exportKv
    split
    · exact hc
    · split <;> rename_i heq <;> rw [heq] at hm <;>
        exact ⟨fun l => by rw [hm]; exact hc.rows l, hc.fits, hc.capacity⟩
  | restoreKv ts b => exact absurd rfl (hk ts b)
  | generate prompt params sampler constraint onToken =>
    rcases hrun : c.generate fp prompt params sampler constraint onToken with ⟨r, c'⟩
    simp only [Controller.call, hrun]
    exact (h.holds_kept.generate h.lawful hc hrun).1

theorem after_holds (m : M) (calls : List (Call F)) (hcalls : ∀ k ∈ calls, ∀ ts b, k ≠ .restoreKv ts b) :
    Holds fp stored row (Controller.after fp m calls) := by
  have key : ∀ (calls : List (Call F)) (c : Controller M), (∀ k ∈ calls, ∀ ts b, k ≠ .restoreKv ts b) →
      Holds fp stored row c → Holds fp stored row (calls.foldl (fun c k => (c.call fp k).2) c) := by
    intro calls
    induction calls with
    | nil => exact fun c _ hc => hc
    | cons k calls ih =>
      intro c hcalls hc
      exact ih _ (fun k' hk' => hcalls k' (List.mem_cons_of_mem _ hk')) (h.call_holds hc (hcalls k List.mem_cons_self))
  exact key calls _ hcalls (h.reset_holds rfl)

/-! ## Generation follows the specification -/

omit h [Logit F] in
theorem take_common {xs ys : List UInt32} {n : Nat} (hn : n ≤ Controller.common xs ys) : xs.take n = ys.take n := by
  induction xs generalizing ys n with
  | nil =>
    obtain rfl : n = 0 := by simpa [Controller.common] using hn
    simp
  | cons x xs ih =>
    cases ys with
    | nil =>
      obtain rfl : n = 0 := by simpa [Controller.common] using hn
      simp
    | cons y ys =>
      cases n with
      | zero => simp
      | succ n =>
        by_cases hxy : x = y
        · have hn' : n ≤ Controller.common xs ys := by
            simp only [Controller.common, List.zip_cons_cons, hxy, decide_true, List.takeWhile_cons_of_pos,
              List.length_cons] at hn
            exact Nat.le_of_succ_le_succ hn
          rw [List.take_succ_cons, List.take_succ_cons, hxy, ih hn']
        · simp [Controller.common, hxy] at hn

omit h [Logit F] in
theorem keepPrefix_append (fp : ForwardPass M F) (c : Controller M) (prompt : List UInt32) :
    (c.keepPrefix fp prompt).history ++ prompt.drop (c.reusablePrefix prompt) = prompt := by
  unfold Controller.keepPrefix
  split
  · show c.history.take (c.reusablePrefix prompt) ++ _ = _
    have htake : c.history.take (c.reusablePrefix prompt) = prompt.take (c.reusablePrefix prompt) :=
      take_common (Nat.min_le_left _ _)
    rw [htake, List.take_append_drop]
  · rename_i hzero
    have : c.reusablePrefix prompt = 0 := by omega
    rw [this]
    rfl

/-- **The decode loop follows the specification**, from a state that has the head of its ledger. -/
theorem decodeLoop_spec (prompt : List UInt32) (params : GenerateParams) (n : Nat) (hc : Holds fp stored row s.ctl)
    (hhead : head s.ctl.model = some (headOf s.ctl.history))
    (hok : Reliable fp stored head ∨ ∃ r, (decodeLoop fp prompt params n s).1 = .ok r) :
    (decodeLoop fp prompt params n s).1.map (fun r => ((decodeLoop fp prompt params n s).2.emitted, r)) =
      specLoop fp.vocab fp.capacity headOf prompt params n s.draw := by
  induction n generalizing s with
  | zero => rfl
  | succ n ih =>
    have hchoose : Reliable fp stored head ∨ ∃ t, (choose fp prompt s).1 = .ok t := by
      rcases hok with hok | ⟨r, hr⟩
      · exact Or.inl hok
      · rcases hch : choose fp prompt s with ⟨e | t, s1⟩
        · unfold decodeLoop at hr
          rw [hch] at hr
          simp at hr
        · exact Or.inr ⟨t, rfl⟩
    obtain ⟨h1, h2⟩ := h.choose_spec hhead hchoose
    have hsame : SameStore stored s (choose fp prompt s).2 := h.lawful.choose_same
    unfold decodeLoop at hok ⊢
    unfold specLoop
    rcases hspec : specChoose fp.vocab headOf prompt s.draw with ⟨r1, d1⟩
    rw [hspec] at h1 h2
    rcases hch : choose fp prompt s with ⟨e | t | t, s1⟩
    · rw [hch] at h1
      dsimp only at h1 ⊢
      rw [← h1]
      rfl
    · rw [hch] at h1 h2
      dsimp only at h1 h2 ⊢
      rw [← h1, ← h2]
      rfl
    · rw [hch] at h1 h2 hok hsame
      dsimp only at h1 h2 hok ⊢
      rw [← h1, ← h2]
      have hs1 : Holds fp stored row s1.ctl := h.holds_kept.same _ _ hc hsame.1 hsame.2.1 hsame.2.2
      dsimp only
      split
      · rfl
      · rename_i hstop
        rw [if_neg hstop] at hok
        -- the callback sees the same token on both sides
        have hemit : Draw.emit { s1.draw with step := s1.draw.step + 1 } t =
            ((Turn.emit { s1 with step := s1.step + 1 } t).1, (Turn.emit { s1 with step := s1.step + 1 } t).2.draw) := rfl
        rw [hemit]
        have hctl : ((Turn.emit { s1 with step := s1.step + 1 } t).2).ctl = s1.ctl := rfl
        rcases hgo : Turn.emit { s1 with step := s1.step + 1 } t with ⟨go, s2⟩
        rw [hgo] at hok hctl
        dsimp only at hctl
        cases go with
        | false => rfl
        | true =>
          have hcap : s2.ctl.capacity = fp.capacity := by rw [hctl]; exact hs1.capacity
          have hlen : s2.draw.history = s2.ctl.history := rfl
          dsimp only at hok ⊢
          rw [hlen, ← hcap]
          split
          · rfl
          · rename_i hroom
            rw [if_neg hroom] at hok
            have hs2 : Holds fp stored row s2.ctl := by rw [hctl]; exact hs1
            have hfit : s2.ctl.history.length + [t].length ≤ fp.capacity := by
              simp only [List.length_cons, List.length_nil]
              omega
            rcases hfw : s2.ctl.forward fp [t] (fun m pos => fp.decode m pos [t]) with ⟨e | u, c2⟩
            · exfalso
              rcases hok with hrel | ⟨r, hr⟩
              · exact forward_reliable (hrel.decode _ _ _ (by simp) hs2.positions hfit) hfw
              · rw [hfw] at hr
                simp at hr
            · rw [hfw] at hok
              obtain ⟨hc2, hok2⟩ := h.forward_holds h.lawful.decode h.decode hs2 (by simp) hfit hfw
              obtain ⟨hhist, hhead2⟩ := hok2 rfl
              dsimp only at hok ⊢
              rw [← hhist] at hhead2 ⊢
              rw [hcap]
              exact ih (s := { s2 with ctl := c2 }) hc2 hhead2 hok

theorem run_spec {params : GenerateParams} {sampler : Sampler F} {constraint : Option Constraint}
    {onToken : Callback} (hc : Holds fp stored row c) (hne : prompt ≠ []) (hlen : prompt.length < fp.capacity)
    (hok : Reliable fp stored head ∨ ∃ o, (c.run fp prompt params sampler constraint onToken).1 = .ok o) :
    (c.run fp prompt params sampler constraint onToken).1.map (fun o => (o.emitted, o.finish)) =
      specLoop fp.vocab fp.capacity headOf prompt params params.maxNewTokens
        { history := prompt, sampler, constraint, onToken } := by
  have hkeep := (h.holds_kept.keepPrefix hc prompt).1
  have hall := keepPrefix_append fp c prompt
  have hroom : (c.keepPrefix fp prompt).history.length + (prompt.drop (c.reusablePrefix prompt)).length ≤ fp.capacity := by
    rw [← List.length_append, hall]
    omega
  have hrest : prompt.drop (c.reusablePrefix prompt) ≠ [] := by
    have hle : c.reusablePrefix prompt ≤ prompt.length - 1 := Nat.min_le_right _ _
    have hpos : 0 < prompt.length := List.length_pos_iff.2 hne
    rw [ne_eq, List.drop_eq_nil_iff]
    omega
  unfold Controller.run at hok ⊢
  dsimp only at hok ⊢
  rcases hfw : (c.keepPrefix fp prompt).forward fp (prompt.drop (c.reusablePrefix prompt))
      (fun m pos => fp.prefill m pos (prompt.drop (c.reusablePrefix prompt))) with ⟨e | u, c2⟩
  · exfalso
    rcases hok with hrel | ⟨o, ho⟩
    · exact forward_reliable (hrel.prefill _ _ _ hrest hkeep.positions hroom) hfw
    · rw [hfw] at ho
      simp at ho
  · rw [hfw] at hok
    obtain ⟨hc2, hok2⟩ := h.forward_holds h.lawful.prefill h.prefill hkeep hrest hroom hfw
    obtain ⟨hhist, hhead⟩ := hok2 rfl
    rw [hall] at hhist hhead
    dsimp only at hok ⊢
    have hdraw : (Turn.draw { ctl := c2, sampler, constraint, onToken } : Draw F) =
        { history := prompt, sampler, constraint, onToken } := by rw [Turn.draw, hhist]
    have hloop := h.decodeLoop_spec (s := { ctl := c2, sampler, constraint, onToken }) prompt params
      params.maxNewTokens hc2 (by rw [hhist]; exact hhead)
    rw [hdraw] at hloop
    rcases hrun : decodeLoop fp prompt params params.maxNewTokens { ctl := c2, sampler, constraint, onToken } with
      ⟨e | r, s2⟩
    · rw [hrun] at hok hloop
      refine hloop ?_
      rcases hok with hrel | ⟨o, ho⟩
      · exact Or.inl hrel
      · simp at ho
    · rw [hrun] at hloop
      exact hloop (Or.inr ⟨r, rfl⟩)

/-- **A generation follows the specification** when it succeeds, and always on a reliable model. -/
theorem generate_spec (prompt : List UInt32) (params : GenerateParams) (sampler : Sampler F)
    (constraint : Option Constraint) (onToken : Callback) (hc : Holds fp stored row c)
    (hok : Reliable fp stored head ∨ ∃ o, (c.generate fp prompt params sampler constraint onToken).1 = .ok o) :
    (c.generate fp prompt params sampler constraint onToken).1.map (fun o => (o.emitted, o.finish)) =
      spec fp.vocab fp.capacity headOf prompt params sampler constraint onToken := by
  obtain ⟨hforget, -⟩ := h.holds_kept.forget c hc
  have hcap := hforget.capacity
  unfold Controller.generate at hok ⊢
  unfold spec
  dsimp only at hok ⊢
  rw [hcap] at hok ⊢
  split
  · rfl
  · rename_i hne
    split
    · rfl
    · rename_i hlong
      rw [if_neg hne, if_neg hlong] at hok
      exact h.run_spec hforget hne (by omega) hok

end Causal

/-- **Prefix reuse is invisible.** Take a causal model, a new controller and any calls on it other than a restore,
failed and cancelled ones included. If it then generates successfully, a new controller given the same prompt,
parameters and caller's objects emits the same tokens and ends for the same reason whenever it succeeds; and it does
succeed when its model, which computes the same heads, fails no call. -/
theorem reuse_invisible {M₁ R₁ : Type} (fp : ForwardPass M F) (stored : M → Nat → List R) (head : M → Option (List F))
    (row : Nat → List UInt32 → R) (headOf : List UInt32 → List F) (h : Causal fp stored head row headOf) (m : M)
    (calls : List (Call F)) (hcalls : ∀ k ∈ calls, ∀ ts b, k ≠ .restoreKv ts b)
    (fp₁ : ForwardPass M₁ F) (stored₁ : M₁ → Nat → List R₁) (head₁ : M₁ → Option (List F))
    (row₁ : Nat → List UInt32 → R₁) (h₁ : Causal fp₁ stored₁ head₁ row₁ headOf) (m₁ : M₁)
    (hvocab : fp₁.vocab = fp.vocab) (hcap : fp₁.capacity = fp.capacity)
    (prompt : List UInt32) (params : GenerateParams) (sampler : Sampler F) (constraint : Option Constraint)
    (onToken : Callback) (o : GenerateOutcome)
    (ho : ((Controller.after fp m calls).generate fp prompt params sampler constraint onToken).1 = .ok o) :
    (∀ o₁, ((Controller.new fp₁ m₁).generate fp₁ prompt params sampler constraint onToken).1 = .ok o₁ →
      o₁.emitted = o.emitted ∧ o₁.finish = o.finish) ∧
    (Reliable fp₁ stored₁ head₁ →
      ∃ o₁, ((Controller.new fp₁ m₁).generate fp₁ prompt params sampler constraint onToken).1 = .ok o₁ ∧
        o₁.emitted = o.emitted ∧ o₁.finish = o.finish) := by
  have hspec := h.generate_spec prompt params sampler constraint onToken (h.after_holds m calls hcalls) (Or.inr ⟨o, ho⟩)
  rw [ho] at hspec
  have hnew : Holds fp₁ stored₁ row₁ (Controller.new fp₁ m₁) := h₁.reset_holds rfl
  constructor
  · intro o₁ ho₁
    have hspec₁ := h₁.generate_spec prompt params sampler constraint onToken hnew (Or.inr ⟨o₁, ho₁⟩)
    rw [ho₁, hvocab, hcap, ← hspec] at hspec₁
    simpa [Except.map] using hspec₁
  · intro hrel
    have hspec₁ := h₁.generate_spec prompt params sampler constraint onToken hnew (Or.inl hrel)
    rw [hvocab, hcap, ← hspec] at hspec₁
    cases hr : ((Controller.new fp₁ m₁).generate fp₁ prompt params sampler constraint onToken).1 with
    | error e =>
      rw [hr] at hspec₁
      simp [Except.map] at hspec₁
    | ok o₁ =>
      rw [hr] at hspec₁
      exact ⟨o₁, rfl, by simpa [Except.map] using hspec₁⟩

end

namespace Echo

def row (_l : Nat) (h : List UInt32) : UInt32 := h.getLast?.getD 0

theorem rowsOf_row (l : Nat) (h : List UInt32) : rowsOf row l h = h := by
  refine List.ext_getElem length_rowsOf fun i h1 h2 => ?_
  have hne : h.take (i + 1) ≠ [] := by
    rw [← List.length_pos_iff, List.length_take]
    omega
  simp only [rowsOf, List.getElem_map, List.getElem_range, row]
  rw [List.getLast?_eq_getLast_of_ne_nil hne, Option.getD_some, List.getLast_eq_getElem]
  simp only [List.length_take, List.getElem_take]
  congr 1
  omega

theorem write_extends : Extends stored Echo.head row headOf write := by
  intro m h ts m' hne hrows hrun
  rcases write_cases m h.length ts with hw | ⟨e, n, n', hw⟩
  · rw [hw] at hrun
    obtain ⟨-, rfl⟩ := Prod.mk.inj hrun
    have hfirst : m.first = h := (hrows 0).trans (rowsOf_row 0 h)
    have hsecond : m.second = h := (hrows 1).trans (rowsOf_row 1 h)
    refine ⟨fun l => ?_, by rw [hfirst]⟩
    rw [rowsOf_row]
    unfold stored
    split
    · rw [hfirst]
    · rw [hsecond]
  · rw [hw] at hrun
    simp at hrun

theorem causal (capacity : Nat) : Causal (pass capacity) stored Echo.head row headOf where
  lawful := lawful capacity
  prefill := write_extends
  decode := write_extends
  next m w r m' hrun := by
    change next m 0 w = _ at hrun
    unfold next at hrun
    split at hrun
    · rename_i l hl
      obtain ⟨hr, -⟩ := Prod.mk.inj hrun
      exact ⟨l, hl, Or.inl (Except.ok.inj hr).symm⟩
    · simp at hrun
  nextRows m rs vs m' hrun := by
    change gatherRows next m 0 rs = _ at hrun
    unfold gatherRows at hrun
    split at hrun <;> rename_i heq
    · unfold next at heq
      split at heq
      · rename_i l hl
        obtain ⟨hr, -⟩ := Prod.mk.inj heq
        obtain rfl := Next.logits.inj (Except.ok.inj hr)
        exact ⟨l, hl, (Prod.mk.inj hrun).1⟩
      · simp at heq
    · simp at hrun
    · simp at hrun

end Echo

/-- A second prompt that shares two tokens with the first one and its answer. -/
theorem reuse_invisible_echo :
    ∃ o o₁, ((Controller.after (Echo.pass 8) {} [.generate [1, 2] ⟨2, []⟩ Echo.greedy none Echo.always]).generate
        (Echo.pass 8) [1, 2, 3] ⟨2, []⟩ Echo.greedy none Echo.always).1 = .ok o ∧ o.reusedPromptTokens = 2 ∧
      ((Controller.new (Echo.pass 8) {}).generate (Echo.pass 8) [1, 2, 3] ⟨2, []⟩ Echo.greedy none Echo.always).1 =
        .ok o₁ ∧ o₁.emitted = o.emitted ∧ o₁.finish = o.finish := by
  have ho : ((Controller.after (Echo.pass 8) {} [.generate [1, 2] ⟨2, []⟩ Echo.greedy none Echo.always]).generate
      (Echo.pass 8) [1, 2, 3] ⟨2, []⟩ Echo.greedy none Echo.always).1 = .ok ⟨[1, 0], .length, 3, 2⟩ := by decide +kernel
  have ho₁ : ((Controller.new (Echo.pass 8) {}).generate (Echo.pass 8) [1, 2, 3] ⟨2, []⟩ Echo.greedy none
      Echo.always).1 = .ok ⟨[1, 0], .length, 3, 0⟩ := by decide +kernel
  obtain ⟨hsame, -⟩ := reuse_invisible (Echo.pass 8) Echo.stored Echo.head Echo.row Echo.headOf (Echo.causal 8) {}
    [.generate [1, 2] ⟨2, []⟩ Echo.greedy none Echo.always] (by simp) (Echo.pass 8) Echo.stored Echo.head Echo.row
    (Echo.causal 8) {} rfl rfl [1, 2, 3] ⟨2, []⟩ Echo.greedy none Echo.always _ ho
  exact ⟨_, _, ho, rfl, ho₁, hsame _ ho₁⟩

end SovereignCore.Generation
