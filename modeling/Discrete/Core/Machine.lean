import Discrete.Core.Loop
import Discrete.Core.Lts

/-!
# Machines

A transition system given by a function: `step s a` is the state after the event `a`, or
`none` where `a` cannot happen. `lts G` has the runs whose every event meets the guard `G` in
the state it happens in. `runIf` computes such a run event by event.
-/
namespace Discrete

structure Machine (σ α : Type) where
  Init : σ → Prop
  step : σ → α → Option σ

namespace Machine
variable {σ α : Type} {M : Machine σ α} {G : σ → α → Prop}

/-- The guard that lets every event happen. -/
def anyEvent : σ → α → Prop := fun _ _ => True

instance (s : σ) (a : α) : Decidable (anyEvent s a) := .isTrue trivial

def lts (M : Machine σ α) (G : σ → α → Prop) : Lts σ where
  Init := M.Init
  Step s t := ∃ a, G s a ∧ M.step s a = some t

theorem inductive_of_step {I : σ → Prop} (hinit : ∀ {s}, M.Init s → I s)
    (hstep : ∀ {s a t}, I s → G s a → M.step s a = some t → I t) : (M.lts G).Inductive I where
  init := hinit
  step := by
    rintro s t hs ⟨a, hg, ht⟩
    exact hstep hs hg ht

/-- The run on a list of events, stopped where `g` fails. -/
def runIf (M : Machine σ α) (g : σ → α → Bool) (s : σ) (l : List α) : Option σ :=
  l.foldlM (fun s a => if g s a then M.step s a else none) s

theorem runIf_reachable {g : σ → α → Bool} (hg : ∀ s a, g s a = true → G s a) {l : List α} {s t : σ}
    (hs : (M.lts G).Reachable s) (h : M.runIf g s l = some t) : (M.lts G).Reachable t := by
  refine foldlM_some (fun s a t _ hs hstep => ?_) hs h
  split at hstep
  · rename_i hga
    exact hs.step ⟨a, hg s a hga, hstep⟩
  · cases hstep

/-- A run that meets the guard, computed, with what is decided of its last state. -/
theorem exists_run [∀ s a, Decidable (G s a)] {P : σ → Prop} [DecidablePred P] {s : σ} (hs : (M.lts G).Reachable s)
    (l : List α) (h : (M.runIf (fun s a => decide (G s a)) s l).any (fun t => decide (P t)) = true) :
    ∃ t, (M.lts G).Reachable t ∧ P t := by
  obtain ⟨t, hrun, hp⟩ := (Option.any_eq_true _ _).mp h
  exact ⟨t, runIf_reachable (fun _ _ hg => of_decide_eq_true hg) hs hrun, of_decide_eq_true hp⟩

/-- The run on a list of events, whatever they are. -/
def run (M : Machine σ α) (s : σ) (l : List α) : Option σ := M.runIf (fun _ _ => true) s l

theorem run_reachable {l : List α} {s t : σ} (hs : (M.lts anyEvent).Reachable s) (h : M.run s l = some t) :
    (M.lts anyEvent).Reachable t :=
  runIf_reachable (fun _ _ _ => trivial) hs h

end Machine
end Discrete
