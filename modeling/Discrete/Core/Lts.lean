import Mathlib.Logic.Relation

/-!
# Transition systems

Reachability, the invariant rule and a simulation rule: a system whose every step
is, through a map on states, some number of steps of another one only reaches
states that map to reachable states there. `within` keeps the runs that stay in a set of
states.
-/
namespace Discrete

structure Lts (σ : Type) where
  Init : σ → Prop
  Step : σ → σ → Prop

namespace Lts
variable {σ τ : Type}

inductive Reachable (M : Lts σ) : σ → Prop where
  | init {s : σ} : M.Init s → Reachable M s
  | step {s t : σ} : Reachable M s → M.Step s t → Reachable M t

/-- `I` holds initially and every step out of a state with `I` keeps it. -/
structure Inductive (M : Lts σ) (I : σ → Prop) : Prop where
  init : ∀ {s}, M.Init s → I s
  step : ∀ {s t}, I s → M.Step s t → I t

theorem Inductive.reachable {M : Lts σ} {I : σ → Prop} (h : M.Inductive I) {s : σ} (hs : M.Reachable s) : I s := by
  induction hs with
  | init h0 => exact h.init h0
  | step _ hst ih => exact h.step ih hst

theorem Reachable.mono {M N : Lts σ} (hinit : ∀ {s}, M.Init s → N.Init s) (hstep : ∀ {s t}, M.Step s t → N.Step s t)
    {s : σ} (hs : M.Reachable s) : N.Reachable s := by
  induction hs with
  | init h0 => exact .init (hinit h0)
  | step _ hst ih => exact ih.step (hstep hst)

theorem Reachable.trans {M : Lts σ} {s t : σ} (hs : M.Reachable s) (h : Relation.ReflTransGen M.Step s t) :
    M.Reachable t := by
  induction h with
  | refl => exact hs
  | tail _ hst ih => exact ih.step hst

theorem Reachable.simulate {M : Lts σ} {N : Lts τ} (f : σ → τ) (I : σ → Prop) (hI : M.Inductive I)
    (hinit : ∀ {s}, M.Init s → N.Reachable (f s))
    (hstep : ∀ {s t}, I s → M.Step s t → Relation.ReflTransGen N.Step (f s) (f t)) {s : σ} (hs : M.Reachable s) :
    N.Reachable (f s) := by
  induction hs with
  | init h0 => exact hinit h0
  | step hs hst ih => exact ih.trans (hstep (hI.reachable hs) hst)

/-- The runs that stay in `I`. -/
def within (M : Lts σ) (I : σ → Prop) : Lts σ where
  Init s := M.Init s ∧ I s
  Step s t := M.Step s t ∧ I t

theorem Reachable.of_within {M : Lts σ} {I : σ → Prop} {s : σ} (hs : (M.within I).Reachable s) :
    M.Reachable s ∧ I s := by
  induction hs with
  | init h0 => exact ⟨.init h0.1, h0.2⟩
  | step _ hst ih => exact ⟨ih.1.step hst.1, hst.2⟩

end Lts
end Discrete
