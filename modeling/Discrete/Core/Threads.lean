import Discrete.Core.Machine

/-!
# Threads

Programs over a shared state, cut at the operations on it: between two of them a program
computes alone, so a run of several programs is an interleaving of their operations. `Op` are
the operations and `Ans o` what `o` answers; `exec` performs one, with `ω` for what the shared
state does not decide. A program is a tree of finite depth, so it ends if it gets its turns.
-/
namespace Discrete

inductive Prog (Op : Type) (Ans : Op → Type) : Type where
  | done : Prog Op Ans
  | op (o : Op) (k : Ans o → Prog Op Ans) : Prog Op Ans

structure Threads (σ : Type) (Op : Type) (Ans : Op → Type) where
  shared : σ
  running : List (Prog Op Ans)

/-- A call starts a program, a turn performs the next operation of one, and the rest of the
system may change the shared state. -/
inductive ThreadEvent (γ Ω ε : Type) where
  | call (c : γ)
  | turn (i : Nat) (ω : Ω)
  | env (e : ε)

/-- What threads run on. -/
structure Scheduler (σ γ Ω ε : Type) (Op : Type) (Ans : Op → Type) where
  Init : σ → Prop
  program : γ → Prog Op Ans
  exec : Ω → σ → (o : Op) → σ × Ans o
  env : ε → σ → σ

namespace Scheduler
variable {σ γ Ω ε Op : Type} {Ans : Op → Type} (S : Scheduler σ γ Ω ε Op Ans)

def step (s : Threads σ Op Ans) : ThreadEvent γ Ω ε → Option (Threads σ Op Ans)
  | .call c => some { s with running := s.running ++ [S.program c] }
  | .turn i ω =>
    match s.running[i]? with
    | none => none
    | some .done => some { s with running := s.running.eraseIdx i }
    | some (.op o k) =>
      let r := S.exec ω s.shared o
      some ⟨r.1, s.running.set i (k r.2)⟩
  | .env e => some { s with shared := S.env e s.shared }

def machine : Machine (Threads σ Op Ans) (ThreadEvent γ Ω ε) where
  Init s := S.Init s.shared ∧ s.running = []
  step := S.step

/-- The four kinds of step. -/
inductive Stepped (s : Threads σ Op Ans) : ThreadEvent γ Ω ε → Threads σ Op Ans → Prop where
  | call (c : γ) : Stepped s (.call c) ⟨s.shared, s.running ++ [S.program c]⟩
  | finish {i : Nat} (ω : Ω) : s.running[i]? = some .done → Stepped s (.turn i ω) ⟨s.shared, s.running.eraseIdx i⟩
  | perform {i : Nat} (ω : Ω) {o : Op} {k : Ans o → Prog Op Ans} : s.running[i]? = some (.op o k) →
      Stepped s (.turn i ω) ⟨(S.exec ω s.shared o).1, s.running.set i (k (S.exec ω s.shared o).2)⟩
  | env (e : ε) : Stepped s (.env e) ⟨S.env e s.shared, s.running⟩

theorem stepped {s t : Threads σ Op Ans} {e : ThreadEvent γ Ω ε} (h : S.step s e = some t) : S.Stepped s e t := by
  cases e with
  | call c =>
    cases h
    exact .call c
  | turn i ω =>
    simp only [step] at h
    split at h
    · cases h
    · rename_i hi
      cases h
      exact .finish ω hi
    · rename_i o k hi
      cases h
      exact .perform ω hi
  | env e =>
    cases h
    exact .env e

/-- Turns of the thread at `i` alone. -/
def turns (s : Threads σ Op Ans) (i : Nat) (l : List Ω) : Option (Threads σ Op Ans) :=
  S.machine.run s (l.map (.turn i))

end Scheduler

namespace Threads
variable {σ Op : Type} {Ans : Op → Type} {s : Threads σ Op Ans}

/-- A thread other than the one that had the turn is still there. -/
theorem mem_set_of_ne {i j : Nat} {p q : Prog Op Ans} (hj : s.running[j]? = some q) (hne : i ≠ j) :
    q ∈ s.running.set i p := by
  apply List.mem_of_getElem? (i := j)
  rw [List.getElem?_set_ne hne, hj]

end Threads
end Discrete
