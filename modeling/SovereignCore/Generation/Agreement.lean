import Mathlib
import SovereignCore.Generation.Controller

/-!
# The cache agrees with the ledger

Between calls every layer of the model's cache holds exactly the positions of the controller's history. A forward call
may fail after some layers or positions were written, so every error path has to cut all layers back to one length.

* `Lawful` : what the seam promises about stored positions and unread heads;
* `Agrees` : the invariant; `forward_agrees`, `choose_same` : the parts keep it;
* `Kept` : what makes an invariant of generation; `Kept.generate` : such an invariant is kept;
* `cache_agrees` : after every call of every history of calls.
-/

namespace SovereignCore.Generation

variable {M F R : Type}

/-! ## The contract -/

/-- A forward function: a successful call adds exactly the positions it was given to every layer, a failed one may
leave any further positions, in each layer its own. -/
structure Writes (rows : M → Nat → List R) (f : M → Nat → List UInt32 → Except String Unit × M) : Prop where
  ok : ∀ m pos ts m', (∀ l, (rows m l).length = pos) → f m pos ts = (.ok (), m') →
    ∀ l, ∃ new, rows m' l = rows m l ++ new ∧ new.length = ts.length
  error : ∀ m pos ts e m', (∀ l, (rows m l).length = pos) → f m pos ts = (.error e, m') →
    ∀ l, ∃ part, rows m' l = rows m l ++ part

/-- The contract of a forward pass, for the rows its layers store and the unread heads it holds. -/
structure Lawful (fp : ForwardPass M F) (rows : M → Nat → List R) (pending : M → Bool) : Prop where
  prefill : Writes rows fp.prefill
  decode : Writes rows fp.decode
  next : ∀ m h w, rows (fp.next m h w).2 = rows m
  nextRows : ∀ m h rs, rows (fp.nextRows m h rs).2 = rows m
  clearPending : ∀ m, rows (fp.clearPending m) = rows m ∧ pending (fp.clearPending m) = false
  beginSequence : ∀ m, pending (fp.beginSequence m) = false
  truncate : ∀ m n l, rows (fp.truncate m n) l = (rows m l).take n
  truncate_pending : ∀ m n, pending m = false → pending (fp.truncate m n) = false
  exportBlocks : ∀ m i n, rows (fp.exportBlocks m i n).2 = rows m
  importBlocks : ∀ m n b m', (∀ l, rows m l = []) → fp.importBlocks m 0 n b = (some (.ok ()), m') →
    ∀ l, (rows m' l).length = n

/-- Every layer holds exactly the positions of the ledger, which fits the cache. -/
structure Agrees (fp : ForwardPass M F) (rows : M → Nat → List R) (c : Controller M) : Prop where
  positions : ∀ l, (rows c.model l).length = c.history.length
  fits : c.history.length ≤ fp.capacity
  capacity : c.capacity = fp.capacity

variable {fp : ForwardPass M F} {rows : M → Nat → List R} {pending : M → Bool} {c c' : Controller M}

/-! ## The parts -/

namespace Lawful

variable (h : Lawful fp rows pending)

include h

theorem reset_agrees (hc : c.capacity = fp.capacity) : Agrees fp rows (c.reset fp) where
  positions l := by simp [Controller.reset, h.truncate]
  fits := by simp [Controller.reset]
  capacity := hc

theorem reset_pending : pending (c.reset fp).model = false := h.truncate_pending _ _ (h.beginSequence _)

theorem rewind_agrees (hc : Agrees fp rows c) (len : Nat) : Agrees fp rows (c.rewind fp len) where
  positions l := by
    show (rows (fp.truncate (fp.clearPending c.model) len) l).length = (c.history.take len).length
    rw [h.truncate, (h.clearPending _).1, List.length_take, List.length_take, hc.positions]
  fits := by
    show (c.history.take len).length ≤ fp.capacity
    rw [List.length_take]
    have := hc.fits
    omega
  capacity := hc.capacity

theorem rollback_agrees (hc : c.capacity = fp.capacity) (hfit : c.history.length ≤ fp.capacity)
    (hlen : ∀ l, c.history.length ≤ (rows c.model l).length) : Agrees fp rows (c.rollback fp) where
  positions l := by
    show (rows (fp.clearPending (fp.truncate c.model c.history.length)) l).length = c.history.length
    rw [(h.clearPending _).1, h.truncate, List.length_take]
    have := hlen l
    omega
  fits := hfit
  capacity := hc

theorem rollback_pending : pending (c.rollback fp).model = false := (h.clearPending _).2

/-- **One forward call keeps the agreement**, whether it succeeds or not; a failed one leaves no unread head. -/
theorem forward_agrees {f : M → Nat → List UInt32 → Except String Unit × M} (hf : Writes rows f)
    (hc : Agrees fp rows c) {tokens : List UInt32} (hfit : c.history.length + tokens.length ≤ fp.capacity)
    {r : Except String Unit} (hrun : c.forward fp tokens (fun m pos => f m pos tokens) = (r, c')) :
    Agrees fp rows c' ∧ (∀ e, r = .error e → pending c'.model = false) ∧
      (r = .ok () → c'.history = c.history ++ tokens) := by
  unfold Controller.forward at hrun
  dsimp only at hrun
  rcases hcall : f c.model c.history.length tokens with ⟨⟨⟩ | ⟨⟩, m⟩
  · rw [hcall] at hrun
    simp only [Prod.mk.injEq] at hrun
    obtain ⟨rfl, rfl⟩ := hrun
    refine ⟨h.rollback_agrees hc.capacity hc.fits fun l => ?_, fun _ _ => h.rollback_pending, nofun⟩
    obtain ⟨part, hpart⟩ := hf.error _ _ _ _ _ hc.positions hcall l
    have := hc.positions l
    show c.history.length ≤ (rows m l).length
    rw [hpart, List.length_append]
    omega
  · rw [hcall] at hrun
    simp only [Prod.mk.injEq] at hrun
    obtain ⟨rfl, rfl⟩ := hrun
    refine ⟨⟨fun l => ?_, ?_, hc.capacity⟩, nofun, fun _ => rfl⟩
    · obtain ⟨new, hnew, hlen⟩ := hf.ok _ _ _ _ hc.positions hcall l
      show (rows m l).length = (c.history ++ tokens).length
      rw [hnew, List.length_append, List.length_append, hlen, hc.positions]
    · show (c.history ++ tokens).length ≤ fp.capacity
      rw [List.length_append]
      exact hfit

theorem forget_agrees (hc : Agrees fp rows c) : Agrees fp rows (c.forget fp) where
  positions l := by
    show (rows (fp.clearPending c.model) l).length = c.history.length
    rw [(h.clearPending _).1]
    exact hc.positions l
  fits := hc.fits
  capacity := hc.capacity

theorem restoreKv_agrees {tokens : List UInt32} {payload : List UInt8} (hc : Agrees fp rows c)
    {r : Except String Unit} (hrun : c.restoreKv fp tokens payload = (r, c')) :
    Agrees fp rows c' ∧ ∀ e, r = .error e → pending c'.model = false := by
  have ha := h.reset_agrees hc.capacity
  unfold Controller.restoreKv at hrun
  dsimp only at hrun
  split at hrun
  · obtain ⟨rfl, rfl⟩ := Prod.mk.inj hrun
    exact ⟨ha, fun _ _ => h.reset_pending⟩
  · rename_i hroom
    split at hrun <;> rename_i himp <;> obtain ⟨rfl, rfl⟩ := Prod.mk.inj hrun
    · have hempty : ∀ l, rows (c.reset fp).model l = [] := fun l => List.length_eq_zero_iff.1 (ha.positions l)
      refine ⟨⟨fun l => h.importBlocks _ _ _ _ hempty himp l, ?_, hc.capacity⟩, nofun⟩
      have := ha.capacity
      show tokens.length ≤ fp.capacity
      omega
    · exact ⟨h.reset_agrees hc.capacity, fun _ _ => h.reset_pending⟩
    · exact ⟨h.reset_agrees hc.capacity, fun _ _ => h.reset_pending⟩

theorem exportKv_agrees {start len : Nat} (hc : Agrees fp rows c) : Agrees fp rows (c.exportKv fp start len).2 := by
  have hm := h.exportBlocks c.model start len
  unfold Controller.exportKv
  split
  · exact hc
  · split <;> rename_i heq <;> rw [heq] at hm
    · exact ⟨fun l => by rw [hm]; exact hc.positions l, hc.fits, hc.capacity⟩
    · exact ⟨fun l => by rw [hm]; exact hc.positions l, hc.fits, hc.capacity⟩

end Lawful

/-! ## Choosing a token -/

def SameStore (rows : M → Nat → List R) (s s' : Turn M F) : Prop :=
  rows s'.ctl.model = rows s.ctl.model ∧ s'.ctl.history = s.ctl.history ∧ s'.ctl.capacity = s.ctl.capacity

theorem SameStore.refl {s : Turn M F} : SameStore rows s s := ⟨rfl, rfl, rfl⟩

theorem SameStore.trans {s s' s'' : Turn M F} (h : SameStore rows s s') (h' : SameStore rows s' s'') :
    SameStore rows s s'' :=
  ⟨h'.1.trans h.1, h'.2.1.trans h.2.1, h'.2.2.trans h.2.2⟩

variable {s : Turn M F}

theorem rule_same {prompt : List UInt32} : SameStore rows s (s.rule prompt).2 := by
  unfold Turn.rule
  split
  · exact .refl
  · exact ⟨rfl, rfl, rfl⟩

theorem setModel_same {m : M} (h : rows m = rows s.ctl.model) : SameStore rows s (s.setModel m) := ⟨h, rfl, rfl⟩

theorem pick_same {l : List F} : SameStore rows s (s.pick l).2 := ⟨rfl, rfl, rfl⟩

section

variable [Logit F]

namespace Lawful

variable (h : Lawful fp rows pending)

include h

theorem chooseAny_same : SameStore rows s (chooseAny fp s).2 := by
  have hm := h.next s.ctl.model 0 (if s.sampler.wantsLogits s.sampler.state then .logits else .greedy)
  unfold chooseAny
  dsimp only
  split <;> rename_i heq <;> rw [heq] at hm
  · exact setModel_same hm
  · split <;> exact setModel_same hm
  · split
    · exact (setModel_same hm).trans pick_same
    · exact setModel_same hm

theorem chooseAllowed_same {allowed : List UInt32} : SameStore rows s (chooseAllowed fp allowed s).2 := by
  have hm := h.nextRows s.ctl.model 0 allowed
  unfold chooseAllowed
  split
  · exact .refl
  · split <;> rename_i heq <;> rw [heq] at hm
    · exact setModel_same hm
    · dsimp only
      split <;> exact (setModel_same hm).trans pick_same

theorem choose_same {prompt : List UInt32} : SameStore rows s (choose fp prompt s).2 := by
  have hrule : SameStore rows s (s.rule prompt).2 := rule_same
  unfold choose
  split <;> rename_i heq <;> rw [heq] at hrule
  · exact hrule
  · exact hrule
  · split
    · exact hrule
    · exact hrule.trans (setModel_same (h.clearPending _).1)
  · rename_i allowed s1
    have hch : SameStore rows s1 (chooseAllowed fp allowed s1).2 := h.chooseAllowed_same
    split <;> rename_i heq' <;> rw [heq'] at hch <;> exact hrule.trans hch
  · rename_i s1
    have hch : SameStore rows s1 (chooseAny fp s1).2 := h.chooseAny_same
    split <;> rename_i heq' <;> rw [heq'] at hch <;> exact hrule.trans hch

end Lawful

/-! ## The loop -/

/-- What makes `P` an invariant of generation, with `Q` left by every failure: both hold of what the parts leave. -/
structure Kept (fp : ForwardPass M F) (rows : M → Nat → List R) (P Q : Controller M → Prop) : Prop where
  capacity : ∀ c, P c → c.capacity = fp.capacity
  same : ∀ c c' : Controller M, P c → rows c'.model = rows c.model → c'.history = c.history →
    c'.capacity = c.capacity → P c'
  reset : ∀ c, P c → P (c.reset fp)
  rewind : ∀ c n, P c → P (c.rewind fp n)
  rollback : ∀ c, P c → P (c.rollback fp) ∧ Q (c.rollback fp)
  forget : ∀ c, P c → P (c.forget fp) ∧ Q (c.forget fp)
  prefill : ∀ c ts r c', P c → ts ≠ [] → c.history.length + ts.length ≤ fp.capacity →
    c.forward fp ts (fun m pos => fp.prefill m pos ts) = (r, c') → P c' ∧ ∀ e, r = .error e → Q c'
  decode : ∀ c ts r c', P c → ts ≠ [] → c.history.length + ts.length ≤ fp.capacity →
    c.forward fp ts (fun m pos => fp.decode m pos ts) = (r, c') → P c' ∧ ∀ e, r = .error e → Q c'

namespace Kept

variable {P Q : Controller M → Prop} {prompt : List UInt32} {params : GenerateParams} {sampler : Sampler F}
variable {constraint : Option Constraint} {onToken : Callback}

theorem decodeLoop (h : Lawful fp rows pending) (k : Kept fp rows P Q) (n : Nat) (hc : P s.ctl)
    {r : Except String FinishReason} {s' : Turn M F} (hrun : decodeLoop fp prompt params n s = (r, s')) :
    P s'.ctl ∧ ∀ e, r = .error e → Q s'.ctl := by
  induction n generalizing s with
  | zero =>
    simp only [Generation.decodeLoop, Prod.mk.injEq] at hrun
    obtain ⟨rfl, rfl⟩ := hrun
    exact ⟨hc, nofun⟩
  | succ n ih =>
    have hsame : SameStore rows s (choose fp prompt s).2 := h.choose_same
    unfold Generation.decodeLoop at hrun
    split at hrun <;> rename_i heq <;> rw [heq] at hsame
    · obtain ⟨rfl, rfl⟩ := Prod.mk.inj hrun
      obtain ⟨hp, hq⟩ := k.rollback _ (k.same _ _ hc hsame.1 hsame.2.1 hsame.2.2)
      exact ⟨hp, fun _ _ => hq⟩
    · obtain ⟨rfl, rfl⟩ := Prod.mk.inj hrun
      exact ⟨k.same _ _ hc hsame.1 hsame.2.1 hsame.2.2, nofun⟩
    · rename_i t s1
      have hs : P s1.ctl := k.same _ _ hc hsame.1 hsame.2.1 hsame.2.2
      dsimp only at hrun
      split at hrun
      · obtain ⟨rfl, rfl⟩ := Prod.mk.inj hrun
        exact ⟨hs, nofun⟩
      · have hemit : ((Turn.emit { s1 with step := s1.step + 1 } t).2).ctl = s1.ctl := rfl
        split at hrun <;> rename_i heq' <;> rw [heq'] at hemit <;> dsimp only at hemit
        · obtain ⟨rfl, rfl⟩ := Prod.mk.inj hrun
          rw [hemit]
          exact ⟨hs, nofun⟩
        · rename_i s2
          rw [hemit] at hrun
          split at hrun
          · obtain ⟨rfl, rfl⟩ := Prod.mk.inj hrun
            rw [hemit]
            exact ⟨hs, nofun⟩
          · rename_i hroom
            have hfit : s1.ctl.history.length + [t].length ≤ fp.capacity := by
              have hcap := k.capacity _ hs
              simp only [List.length_cons, List.length_nil]
              omega
            split at hrun <;> rename_i hfw
            · obtain ⟨rfl, rfl⟩ := Prod.mk.inj hrun
              obtain ⟨hp, hq⟩ := k.decode _ _ _ _ hs (by simp) hfit hfw
              exact ⟨hp, fun _ _ => hq _ rfl⟩
            · exact ih (k.decode _ _ _ _ hs (by simp) hfit hfw).1 hrun

omit [Logit F] in
theorem keepPrefix (k : Kept fp rows P Q) (hc : P c) (prompt : List UInt32) :
    P (c.keepPrefix fp prompt) ∧ (c.keepPrefix fp prompt).history.length ≤ c.reusablePrefix prompt := by
  unfold Controller.keepPrefix
  split
  · exact ⟨k.rewind _ _ hc, List.length_take_le _ _⟩
  · exact ⟨k.reset _ hc, Nat.zero_le _⟩

theorem run (h : Lawful fp rows pending) (k : Kept fp rows P Q) (hc : P c) (hne : prompt ≠ [])
    (hfit : prompt.length ≤ fp.capacity) {r : Except String GenerateOutcome}
    (hrun : c.run fp prompt params sampler constraint onToken = (r, c')) :
    P c' ∧ ∀ e, r = .error e → Q c' := by
  obtain ⟨hkeep, hlen⟩ := k.keepPrefix hc prompt
  have hle : c.reusablePrefix prompt ≤ prompt.length - 1 := Nat.min_le_right _ _
  have hpos : 0 < prompt.length := List.length_pos_iff.2 hne
  have hroom : (c.keepPrefix fp prompt).history.length + (prompt.drop (c.reusablePrefix prompt)).length ≤ fp.capacity := by
    rw [List.length_drop]
    omega
  have hrest : prompt.drop (c.reusablePrefix prompt) ≠ [] := by
    rw [ne_eq, List.drop_eq_nil_iff]
    omega
  unfold Controller.run at hrun
  dsimp only at hrun
  split at hrun <;> rename_i hfw
  · obtain ⟨rfl, rfl⟩ := Prod.mk.inj hrun
    obtain ⟨hp, hq⟩ := k.prefill _ _ _ _ hkeep hrest hroom hfw
    exact ⟨hp, fun _ _ => hq _ rfl⟩
  · have hp := (k.prefill _ _ _ _ hkeep hrest hroom hfw).1
    split at hrun <;> rename_i hloop
    · obtain ⟨rfl, rfl⟩ := Prod.mk.inj hrun
      obtain ⟨hp', hq⟩ := k.decodeLoop h _ hp hloop
      exact ⟨hp', fun _ _ => hq _ rfl⟩
    · obtain ⟨rfl, rfl⟩ := Prod.mk.inj hrun
      exact ⟨(k.decodeLoop h _ hp hloop).1, nofun⟩

/-- **A generation keeps the invariant**, whether it succeeds or not. -/
theorem generate (h : Lawful fp rows pending) (k : Kept fp rows P Q) (hc : P c) {r : Except String GenerateOutcome}
    (hrun : c.generate fp prompt params sampler constraint onToken = (r, c')) :
    P c' ∧ ∀ e, r = .error e → Q c' := by
  obtain ⟨hp, hq⟩ := k.forget c hc
  unfold Controller.generate at hrun
  dsimp only at hrun
  split at hrun
  · obtain ⟨rfl, rfl⟩ := Prod.mk.inj hrun
    exact ⟨hp, fun _ _ => hq⟩
  · rename_i hne
    split at hrun
    · obtain ⟨rfl, rfl⟩ := Prod.mk.inj hrun
      exact ⟨hp, fun _ _ => hq⟩
    · have := k.capacity _ hp
      exact k.run h hp hne (by omega) hrun

end Kept

namespace Lawful

variable (h : Lawful fp rows pending)

include h

omit [Logit F] in
/-- The agreement is an invariant of generation, and a failure leaves no unread head. -/
theorem agrees_kept : Kept fp rows (Agrees fp rows) fun c => pending c.model = false where
  capacity _ hc := hc.capacity
  same c c' hc hr hh hk := ⟨fun l => by rw [hr, hh]; exact hc.positions l, by rw [hh]; exact hc.fits, hk.trans hc.capacity⟩
  reset _ hc := h.reset_agrees hc.capacity
  rewind _ n hc := h.rewind_agrees hc n
  rollback c hc :=
    ⟨h.rollback_agrees hc.capacity hc.fits fun l => Nat.le_of_eq (hc.positions l).symm, h.rollback_pending⟩
  forget c hc := ⟨h.forget_agrees hc, (h.clearPending _).2⟩
  prefill c ts r c' hc _ hfit hrun :=
    ⟨(h.forward_agrees h.prefill hc hfit hrun).1, (h.forward_agrees h.prefill hc hfit hrun).2.1⟩
  decode c ts r c' hc _ hfit hrun :=
    ⟨(h.forward_agrees h.decode hc hfit hrun).1, (h.forward_agrees h.decode hc hfit hrun).2.1⟩

/-- **Every call keeps the agreement**, and a failed one other than an export leaves no unread head. -/
theorem call_agrees {k : Call F} (hc : Agrees fp rows c) :
    Agrees fp rows (c.call fp k).2 ∧
      ((∃ e, (c.call fp k).1 = .error e) → (∀ i n, k ≠ .exportKv i n) → pending (c.call fp k).2.model = false) := by
  cases k with
  | reset => exact ⟨h.reset_agrees hc.capacity, fun _ _ => h.reset_pending⟩
  | rewind len => exact ⟨h.rewind_agrees hc len, fun he => by obtain ⟨_, he⟩ := he; simp [Controller.call] at he⟩
  | exportKv start len => exact ⟨h.exportKv_agrees hc, fun _ hk => (hk start len rfl).elim⟩
  | restoreKv tokens payload =>
    rcases hrun : c.restoreKv fp tokens payload with ⟨r, c'⟩
    obtain ⟨h1, h2⟩ := h.restoreKv_agrees hc hrun
    simp only [Controller.call, hrun]
    exact ⟨h1, fun ⟨e, he⟩ _ => h2 e he⟩
  | generate prompt params sampler constraint onToken =>
    rcases hrun : c.generate fp prompt params sampler constraint onToken with ⟨r, c'⟩
    obtain ⟨h1, h2⟩ := h.agrees_kept.generate h hc hrun
    simp only [Controller.call, hrun]
    refine ⟨h1, fun ⟨e, he⟩ _ => ?_⟩
    cases r with
    | ok o => simp [Except.map] at he
    | error e' => exact h2 e' rfl

theorem after_agrees (m : M) (calls : List (Call F)) : Agrees fp rows (Controller.after fp m calls) := by
  have key : ∀ (calls : List (Call F)) (c : Controller M), Agrees fp rows c →
      Agrees fp rows (calls.foldl (fun c k => (c.call fp k).2) c) := by
    intro calls
    induction calls with
    | nil => exact fun c hc => hc
    | cons k calls ih => exact fun c hc => ih _ (h.call_agrees hc).1
  exact key calls _ (h.reset_agrees rfl)

end Lawful

/-- **Cache and ledger agree.** For every lawful model and every history of calls, failed ones included, each layer
holds exactly the positions of the ledger, which fits the cache; and after a failed call other than an export no
unread head is left. -/
theorem cache_agrees (fp : ForwardPass M F) (rows : M → Nat → List R) (pending : M → Bool)
    (h : Lawful fp rows pending) (m : M) (calls : List (Call F)) :
    (∀ l, (rows (Controller.after fp m calls).model l).length = (Controller.after fp m calls).history.length) ∧
    (Controller.after fp m calls).history.length ≤ fp.capacity ∧
    ∀ k e, ((Controller.after fp m calls).call fp k).1 = .error e → (∀ i n, k ≠ .exportKv i n) →
      pending ((Controller.after fp m calls).call fp k).2.model = false := by
  have hc := h.after_agrees m calls
  exact ⟨hc.positions, hc.fits, fun k e he hk => (h.call_agrees hc).2 ⟨e, he⟩ hk⟩

end

/-! ## A two-layer model -/

/-- A model that stores its tokens in two layers, and fails after the first layer at one position. -/
structure Echo where
  first : List UInt32 := []
  second : List UInt32 := []
  head : Option (List Nat) := none
  failAt : Option Nat := none
  deriving DecidableEq, Repr

namespace Echo

instance : Logit Nat where
  gt a b := b < a
  negInfinity := 0

/-- The head after `tokens`: a rotation of the vocabulary by their sum. -/
def headOf (tokens : List UInt32) : List Nat := (List.range 4).map fun i => ((tokens.map UInt32.toNat).sum + i) % 4 + 1

def write (m : Echo) (pos : Nat) (tokens : List UInt32) : Except String Unit × Echo :=
  match m.failAt with
  | some k =>
    if pos ≤ k ∧ k < pos + tokens.length then
      (.error s!"echo-chain: injected failure at position {k} after layer 0",
        { m with first := m.first ++ tokens.take (k - pos + 1), second := m.second ++ tokens.take (k - pos), head := none })
    else (.ok (), { m with
      first := m.first ++ tokens
      second := m.second ++ tokens
      head := some (headOf (m.first ++ tokens)) })
  | none => (.ok (), { m with
      first := m.first ++ tokens
      second := m.second ++ tokens
      head := some (headOf (m.first ++ tokens)) })

def next (m : Echo) (_head : Nat) (_want : Want) : Except String (Next Nat) × Echo :=
  match m.head with
  | some l => (.ok (.logits l), { m with head := none })
  | none => (.error "echo-chain: no pending head", m)

/-- The seam of the model, with room for `capacity` tokens. -/
def pass (capacity : Nat) : ForwardPass Echo Nat where
  vocab := 4
  capacity := capacity
  pathName := "echo-chain"
  prefill := write
  decode := write
  next := next
  nextRows := gatherRows next
  clearPending m := { m with head := none }
  beginSequence m := { m with head := none }
  truncate m n := { m with first := m.first.take n, second := m.second.take n }
  exportBlocks m _ _ := (none, m)
  importBlocks m _ _ _ := (none, m)

def stored (m : Echo) (l : Nat) : List UInt32 := if l = 0 then m.first else m.second

theorem write_cases (m : Echo) (pos : Nat) (tokens : List UInt32) :
    (write m pos tokens = (.ok (), { m with
      first := m.first ++ tokens
      second := m.second ++ tokens
      head := some (headOf (m.first ++ tokens)) })) ∨
    ∃ e n n', write m pos tokens =
      (.error e, { m with first := m.first ++ tokens.take n, second := m.second ++ tokens.take n', head := none }) := by
  unfold write
  split
  · split
    · exact Or.inr ⟨_, _, _, rfl⟩
    · exact Or.inl rfl
  · exact Or.inl rfl

theorem write_writes : Writes stored write where
  ok m pos ts m' _ hrun l := by
    rcases write_cases m pos ts with hw | ⟨e, n, n', hw⟩
    · rw [hw] at hrun
      obtain ⟨-, rfl⟩ := Prod.mk.inj hrun
      refine ⟨ts, ?_, rfl⟩
      unfold stored
      split <;> rfl
    · rw [hw] at hrun
      simp at hrun
  error m pos ts e m' _ hrun l := by
    rcases write_cases m pos ts with hw | ⟨e', n, n', hw⟩
    · rw [hw] at hrun
      simp at hrun
    · rw [hw] at hrun
      obtain ⟨-, rfl⟩ := Prod.mk.inj hrun
      unfold stored
      split
      · exact ⟨ts.take n, rfl⟩
      · exact ⟨ts.take n', rfl⟩

theorem stored_next (m : Echo) (h : Nat) (w : Want) : stored (next m h w).2 = stored m := by
  unfold next
  split <;> rfl

theorem stored_gatherRows (m : Echo) (h : Nat) (rs : List UInt32) : stored (gatherRows next m h rs).2 = stored m := by
  have hm := stored_next m h .logits
  unfold gatherRows
  split <;> rename_i heq <;> rw [heq] at hm <;> exact hm

theorem lawful (capacity : Nat) : Lawful (pass capacity) stored fun m => m.head.isSome where
  prefill := write_writes
  decode := write_writes
  next := stored_next
  nextRows := stored_gatherRows
  clearPending _ := ⟨rfl, rfl⟩
  beginSequence _ := rfl
  truncate m n l := by
    show stored { m with first := m.first.take n, second := m.second.take n } l = _
    unfold stored
    split <;> rfl
  truncate_pending _ _ h := h
  exportBlocks _ _ _ := rfl
  importBlocks _ _ _ _ _ h := by simp [pass] at h

def greedy : Sampler Nat := ⟨Unit, (), fun _ => false, fun s _ _ => (0, s)⟩

def always : Callback := ⟨Unit, (), fun s _ => (true, s)⟩

def onlyPrefill : Call Nat := .generate [1, 2] ⟨0, []⟩ greedy none always

end Echo

/-- A decode step that fails after the first layer is cut back in both layers. -/
theorem cache_agrees_echo :
    ∃ e, ((Controller.after (Echo.pass 8) { failAt := some 3 } []).call (Echo.pass 8)
        (.generate [1, 2] ⟨4, []⟩ Echo.greedy none Echo.always)).1 = .error e ∧
      ((Controller.after (Echo.pass 8) { failAt := some 3 } []).call (Echo.pass 8)
        (.generate [1, 2] ⟨4, []⟩ Echo.greedy none Echo.always)).2.model.head.isSome = false := by
  have herr : ((Controller.after (Echo.pass 8) { failAt := some 3 } []).call (Echo.pass 8)
      (.generate [1, 2] ⟨4, []⟩ Echo.greedy none Echo.always)).1 =
        .error "echo-chain: injected failure at position 3 after layer 0" := by decide +kernel
  obtain ⟨-, -, hclean⟩ := cache_agrees (Echo.pass 8) Echo.stored (fun m => m.head.isSome) (Echo.lawful 8)
    { failAt := some 3 } []
  exact ⟨_, herr, hclean _ _ herr nofun⟩

/-- **A refused export keeps an unread head**: it only reads, and forgets nothing. -/
theorem export_keeps_head :
    ∃ e, ((Controller.after (Echo.pass 8) {} [Echo.onlyPrefill]).call (Echo.pass 8) (.exportKv 0 5)).1 = .error e ∧
      ((Controller.after (Echo.pass 8) {} [Echo.onlyPrefill]).call (Echo.pass 8) (.exportKv 0 5)).2.model.head.isSome
        = true :=
  ⟨"kv export 0+5: only 2 positions stored", by decide +kernel, by decide +kernel⟩

end SovereignCore.Generation
