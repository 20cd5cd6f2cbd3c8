import Mathlib.Data.List.Basic

/-!
# Runs of a machine with partial steps

* `Machine.run` : the steps in order, `none` as soon as one can not be made;
* `Machine.Meets` : every step of a run is as a condition asks of the state before it; `checks` : a test of that;
* `run_inv` : what every such step keeps, the run keeps.
-/

namespace SovereignCore.Machine

variable {σ α : Type} {step : σ → α → Option σ} {C D : σ → α → Prop} {J : σ → Prop} {s s' : σ} {acts : List α}

def run (step : σ → α → Option σ) (acts : List α) (s : σ) : Option σ := acts.foldlM step s

/-- Every step is as `C` asks of the state before it. -/
def Meets (step : σ → α → Option σ) (C : σ → α → Prop) : List α → σ → Prop
  | [], _ => True
  | a :: acts, s => C s a ∧ ∀ s', step s a = some s' → Meets step C acts s'

theorem meets_of_forall (h : ∀ a ∈ acts, ∀ s, C s a) (s : σ) : Meets step C acts s := by
  induction acts generalizing s with
  | nil => trivial
  | cons a acts ih =>
    exact ⟨h a List.mem_cons_self s, fun s' _ => ih (fun b hb => h b (List.mem_cons_of_mem _ hb)) s'⟩

def checks (step : σ → α → Option σ) (c : σ → α → Bool) : List α → σ → Bool
  | [], _ => true
  | a :: acts, s => c s a && (step s a).all (checks step c acts)

theorem meets_of_checks {c : σ → α → Bool} (hC : ∀ s a, c s a = true → C s a) (h : checks step c acts s = true) :
    Meets step C acts s := by
  induction acts generalizing s with
  | nil => trivial
  | cons a acts ih =>
    obtain ⟨ha, hrest⟩ := Bool.and_eq_true_iff.1 h
    refine ⟨hC s a ha, fun s' hs => ih ?_⟩
    rw [hs] at hrest
    exact hrest

theorem Meets.and (hC : Meets step C acts s) (hD : Meets step D acts s) : Meets step (fun s a => C s a ∧ D s a) acts s := by
  induction acts generalizing s with
  | nil => trivial
  | cons a acts ih => exact ⟨⟨hC.1, hD.1⟩, fun s' hs => ih (hC.2 s' hs) (hD.2 s' hs)⟩

theorem run_inv (hstep : ∀ s a s', J s → C s a → step s a = some s' → J s') (h0 : J s) (hm : Meets step C acts s)
    (h : run step acts s = some s') : J s' := by
  induction acts generalizing s with
  | nil =>
    obtain rfl := Option.some.inj h
    exact h0
  | cons a acts ih =>
    obtain ⟨s₁, hs, hrest⟩ := Option.bind_eq_some_iff.1 h
    exact ih (hstep s a s₁ h0 hm.1 hs) (hm.2 s₁ hs) hrest

theorem run_always (hstep : ∀ s a s', J s → step s a = some s' → J s') (h0 : J s)
    (h : run step acts s = some s') : J s' :=
  run_inv (C := fun _ _ => True) (fun s a s' hj _ hs => hstep s a s' hj hs) h0
    (meets_of_forall (fun _ _ _ => trivial) s) h

end SovereignCore.Machine
