import Discrete.Core.Machine

/-!
# How mining threads pick up a template (`Miner.cpp`)

`set_block_template` replaces template and difficulty and counts the template number up, all
under `m_template_lock`. A worker whose own number differs copies the two under the lock, lets go
of it and only then reads the number. An update in between leaves it with the old block under the
new number, until the next template (`stale_template_kept`).

* `worker_template_current`: where updates succeed, come between no such copy and read, and bring
  a number no worker has, a worker with the current number hashes the current template.
-/
namespace Discrete.L4

/-- `β` is a block without nonce and signature. -/
structure TemplateWorker (β : Type) where
  block : β
  localDiff : UInt64
  localTemplateVer : UInt32
  /-- Between the copy of the template and the read of its number. -/
  copied : Bool

structure TemplateState (β : Type) where
  template : β
  diffic : UInt64
  templateNo : UInt32
  workers : List (TemplateWorker β)

inductive TemplateEvent (β : Type) where
  /-- `failed`: the merge-mining tag could not be made. -/
  | setBlockTemplate (bl : β) (di : UInt64) (failed : Bool)
  | copy (worker : Nat)
  | readNumber (worker : Nat)

section
variable {β : Type}

/-- mirrors Miner.cpp:92-114 and 429-438 -/
def templateStep (s : TemplateState β) : TemplateEvent β → Option (TemplateState β)
  | .setBlockTemplate bl di failed =>
    some (if failed then { s with template := bl }
      else { s with template := bl, diffic := di, templateNo := s.templateNo + 1 })
  | .copy i => s.workers[i]?.bind fun w =>
    if w.copied = false ∧ w.localTemplateVer ≠ s.templateNo then
      some { s with workers := s.workers.set i { w with block := s.template, localDiff := s.diffic, copied := true } }
    else none
  | .readNumber i => s.workers[i]?.bind fun w =>
    if w.copied = true then
      some { s with workers := s.workers.set i { w with localTemplateVer := s.templateNo, copied := false } }
    else none

def templateMachine (β : Type) : Machine (TemplateState β) (TemplateEvent β) where
  Init s := s.templateNo = 0 ∧ ∀ w ∈ s.workers, w.localTemplateVer = 0 ∧ w.copied = false
  step := templateStep

def UpdatesApart (s : TemplateState β) : TemplateEvent β → Prop
  | .setBlockTemplate _ _ failed =>
    failed = false ∧ ∀ w ∈ s.workers, w.copied = false ∧ w.localTemplateVer ≠ s.templateNo + 1
  | _ => True

instance (s : TemplateState β) : (e : TemplateEvent β) → Decidable (UpdatesApart s e)
  | .setBlockTemplate .. => by unfold UpdatesApart; infer_instance
  | .copy _ | .readNumber _ => .isTrue trivial

/-- The worker is hashing (version 0 means that no template has been set) and has the current number. -/
def TemplateWorker.Current (s : TemplateState β) (w : TemplateWorker β) : Prop :=
  w.copied = false ∧ w.localTemplateVer = s.templateNo ∧ w.localTemplateVer ≠ 0

instance (s : TemplateState β) (w : TemplateWorker β) : Decidable (w.Current s) := by
  unfold TemplateWorker.Current; infer_instance

def WorkersOk (s : TemplateState β) : Prop :=
  ∀ w ∈ s.workers, w.copied = true ∨ w.Current s → w.block = s.template ∧ w.localDiff = s.diffic

variable {s t : TemplateState β} {e : TemplateEvent β}

theorem WorkersOk.set {i : Nat} {w : TemplateWorker β} (h : WorkersOk s)
    (hw : w.copied = true ∨ w.Current s → w.block = s.template ∧ w.localDiff = s.diffic) :
    WorkersOk { s with workers := s.workers.set i w } := by
  intro v hv
  rcases List.mem_or_eq_of_mem_set hv with hv | rfl
  · exact h v hv
  · exact hw

theorem WorkersOk.step (h : WorkersOk s) (hg : UpdatesApart s e) (hst : templateStep s e = some t) : WorkersOk t := by
  cases e with
  | setBlockTemplate bl di failed =>
    obtain ⟨rfl, hfresh⟩ := hg
    cases hst
    intro w hw hnow
    obtain ⟨hcopied, hver⟩ := hfresh w hw
    rcases hnow with hc | hc
    · simp [hcopied] at hc
    · exact absurd hc.2.1 hver
  | copy i =>
    obtain ⟨w, hw, hst⟩ := Option.bind_eq_some_iff.mp hst
    obtain ⟨-, hst⟩ := Option.ite_none_right_eq_some.mp hst
    cases hst
    exact h.set fun _ => ⟨rfl, rfl⟩
  | readNumber i =>
    obtain ⟨w, hw, hst⟩ := Option.bind_eq_some_iff.mp hst
    obtain ⟨hcopied, hst⟩ := Option.ite_none_right_eq_some.mp hst
    cases hst
    exact h.set fun _ => h w (List.mem_of_getElem? hw) (.inl hcopied)

theorem worker_template_current (hs : ((templateMachine β).lts UpdatesApart).Reachable s) :
    ∀ w ∈ s.workers, w.Current s → w.block = s.template ∧ w.localDiff = s.diffic := by
  have hind : ((templateMachine β).lts UpdatesApart).Inductive WorkersOk := by
    refine Machine.inductive_of_step (fun hinit w hw hnow => ?_) fun h hg hst => h.step hg hst
    obtain ⟨hver, hcopied⟩ := hinit.2 w hw
    rcases hnow with hc | hc
    · simp [hcopied] at hc
    · exact absurd hver hc.2.2
  exact fun w hw hc => hind.reachable hs w hw (.inr hc)

end

def templateStart : TemplateState Nat := ⟨0, 0, 0, [⟨0, 0, 0, false⟩]⟩

theorem templateStart_reachable (G : TemplateState Nat → TemplateEvent Nat → Prop) :
    ((templateMachine Nat).lts G).Reachable templateStart :=
  .init ⟨rfl, by simp [templateStart]⟩

theorem worker_template_current_two : ∃ s, ((templateMachine Nat).lts UpdatesApart).Reachable s ∧
    s.templateNo = 2 ∧ ∀ w ∈ s.workers, w.Current s → w.block = s.template ∧ w.localDiff = s.diffic := by
  obtain ⟨s, hreach, hp⟩ := Machine.exists_run (P := fun s => s.templateNo = 2) (templateStart_reachable UpdatesApart)
    [.setBlockTemplate 1 10 false, .copy 0, .readNumber 0, .setBlockTemplate 2 20 false, .copy 0, .readNumber 0]
    (by decide)
  exact ⟨s, hreach, hp, worker_template_current hreach⟩

/-- The second template comes between the copy of the first and the read of the number. -/
theorem stale_template_kept : ∃ s, ((templateMachine Nat).lts Machine.anyEvent).Reachable s ∧
    ∃ w ∈ s.workers, w.Current s ∧ w.block = 1 ∧ s.template = 2 ∧ w.localDiff = 10 ∧ s.diffic = 20 := by
  exact Machine.exists_run (templateStart_reachable _)
    [.setBlockTemplate 1 10 false, .copy 0, .setBlockTemplate 2 20 false, .readNumber 0] (by decide)

end Discrete.L4
