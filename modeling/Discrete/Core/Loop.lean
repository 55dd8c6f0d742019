import Mathlib.Data.List.Basic

/-!
# Loops that stop at the first failure

`forEach f l` is `for (x : l) if (!f(x)) return false;`, with the failure kept.
`foldSteps` is the same loop with an accumulator. Each comes with what its
success says about every turn.
-/
namespace Discrete

variable {α ε σ : Type}

def forEach (f : α → Except ε Unit) : List α → Except ε Unit
  | [] => .ok ()
  | a :: l =>
    match f a with
    | .error e => .error e
    | .ok () => forEach f l

theorem forEach_ok {f : α → Except ε Unit} : ∀ {l : List α}, forEach f l = .ok () ↔ ∀ a ∈ l, f a = .ok ()
  | [] => by simp [forEach]
  | a :: l => by
    cases h : f a with
    | error e => simp [forEach, h]
    | ok u => simp [forEach, h, forEach_ok]

/-- A failing loop reports the failure of one of its turns. -/
theorem forEach_error {f : α → Except ε Unit} {e : ε} : ∀ {l : List α}, forEach f l = .error e → ∃ a ∈ l, f a = .error e
  | [], h => by simp [forEach] at h
  | a :: l, h => by
    cases hf : f a with
    | error e' =>
      simp only [forEach, hf, Except.error.injEq] at h
      exact ⟨a, by simp, by rw [hf, h]⟩
    | ok u =>
      simp only [forEach, hf] at h
      obtain ⟨b, hb, hb'⟩ := forEach_error h
      exact ⟨b, by simp [hb], hb'⟩

def foldSteps (f : σ → α → Except ε σ) : σ → List α → Except ε σ
  | s, [] => .ok s
  | s, a :: l =>
    match f s a with
    | .error e => .error e
    | .ok s' => foldSteps f s' l

@[simp] theorem foldSteps_nil (f : σ → α → Except ε σ) (s : σ) : foldSteps f s [] = .ok s := rfl

theorem foldSteps_cons_ok {f : σ → α → Except ε σ} {s t : σ} {a : α} {l : List α} :
    foldSteps f s (a :: l) = .ok t ↔ ∃ s', f s a = .ok s' ∧ foldSteps f s' l = .ok t := by
  cases h : f s a with
  | error e => simp [foldSteps, h]
  | ok s' => simp [foldSteps, h]

theorem foldSteps_error {f : σ → α → Except ε σ} {e : ε} : ∀ {l : List α} {s : σ},
    foldSteps f s l = .error e → ∃ s' a, a ∈ l ∧ f s' a = .error e
  | [], s, h => by simp at h
  | a :: l, s, h => by
    cases hf : f s a with
    | error e' =>
      simp only [foldSteps, hf, Except.error.injEq] at h
      exact ⟨s, a, by simp, by rw [hf, h]⟩
    | ok s' =>
      simp only [foldSteps, hf] at h
      obtain ⟨s'', b, hb, hb'⟩ := foldSteps_error h
      exact ⟨s'', b, by simp [hb], hb'⟩

/-- What every step of a partial fold keeps holds where the fold ends. -/
theorem foldlM_some {f : σ → α → Option σ} {I : σ → Prop} {t : σ} :
    ∀ {l : List α} {s : σ}, (∀ s a t, a ∈ l → I s → f s a = some t → I t) → I s → l.foldlM f s = some t → I t
  | [], _, _, hs, h => by
    cases h
    exact hs
  | a :: l, s, hstep, hs, h => by
    rw [List.foldlM_cons, Option.bind_eq_bind, Option.bind_eq_some_iff] at h
    obtain ⟨s', hone, h⟩ := h
    exact foldlM_some (fun s b t hb => hstep s b t (by simp [hb])) (hstep s a s' (by simp) hs hone) h

/-! ## Conversions that may fail -/

theorem mapM_isSome {β : Type} {f : α → Option β} : ∀ {l : List α}, (∀ a ∈ l, (f a).isSome) → ∃ d, l.mapM f = some d
  | [], _ => ⟨[], rfl⟩
  | a :: l, h => by
    obtain ⟨b, hb⟩ := Option.isSome_iff_exists.mp (h a (by simp))
    obtain ⟨d, hd⟩ := mapM_isSome fun x hx => h x (List.mem_cons_of_mem a hx)
    exact ⟨b :: d, by simp [List.mapM_cons, hb, hd]⟩

theorem mapM_cons_eq_some {β : Type} {f : α → Option β} {a : α} {l : List α} {d : List β} :
    (a :: l).mapM f = some d ↔ ∃ b d', f a = some b ∧ l.mapM f = some d' ∧ d = b :: d' := by
  simp only [List.mapM_cons, Option.bind_eq_bind, Option.bind_eq_some_iff, Option.pure_def, Option.some.injEq]
  constructor
  · rintro ⟨b, hb, d', hd', rfl⟩
    exact ⟨b, d', hb, hd', rfl⟩
  · rintro ⟨b, d', hb, hd', rfl⟩
    exact ⟨b, hb, d', hd', rfl⟩

theorem mapM_getElem? {β : Type} {f : α → Option β} : ∀ {l : List α} {d : List β},
    l.mapM f = some d → ∀ i : Nat, d[i]? = (l[i]?).bind f
  | [], d, h, i => by
    simp only [List.mapM_nil, Option.pure_def, Option.some.injEq] at h
    rw [← h]; rfl
  | a :: l, d, h, i => by
    obtain ⟨b, d', hb, hd', rfl⟩ := mapM_cons_eq_some.mp h
    cases i with
    | zero => simp [hb]
    | succ i => simpa using mapM_getElem? hd' i

theorem mapM_length {β : Type} {f : α → Option β} : ∀ {l : List α} {d : List β}, l.mapM f = some d → d.length = l.length
  | [], d, h => by
    simp only [List.mapM_nil, Option.pure_def, Option.some.injEq] at h
    rw [← h]; rfl
  | a :: l, d, h => by
    obtain ⟨b, d', -, hd', rfl⟩ := mapM_cons_eq_some.mp h
    rw [List.length_cons, List.length_cons, mapM_length hd']

/-- A conversion that is injective where it succeeds is injective on lists. -/
theorem mapM_inj {β : Type} {f : α → Option β} {Q : α → Prop}
    (hf : ∀ a b x, Q a → Q b → f a = some x → f b = some x → a = b) :
    ∀ {l l' : List α} {d : List β}, (∀ a ∈ l, Q a) → (∀ a ∈ l', Q a) → l.mapM f = some d → l'.mapM f = some d → l = l'
  | [], [], _, _, _, _, _ => rfl
  | [], a :: l', d, _, _, h, h' => by
    obtain ⟨b, d', -, -, rfl⟩ := mapM_cons_eq_some.mp h'
    simp at h
  | a :: l, [], d, _, _, h, h' => by
    obtain ⟨b, d', -, -, rfl⟩ := mapM_cons_eq_some.mp h
    simp at h'
  | a :: l, a' :: l', d, hq, hq', h, h' => by
    obtain ⟨b, d1, hb, hd1, rfl⟩ := mapM_cons_eq_some.mp h
    obtain ⟨b', d2, hb', hd2, e⟩ := mapM_cons_eq_some.mp h'
    simp only [List.cons.injEq] at e
    obtain ⟨rfl, rfl⟩ := e
    rw [hf a a' b (hq a (by simp)) (hq' a' (by simp)) hb hb',
      mapM_inj hf (fun x hx => hq x (by simp [hx])) (fun x hx => hq' x (by simp [hx])) hd1 hd2]

theorem mapM_error {α β ε : Type} {f : α → Except ε β} {e : ε} : ∀ {l : List α}, l.mapM f = .error e →
    ∃ a ∈ l, f a = .error e
  | [], h => by simp [List.mapM_nil, pure, Except.pure] at h
  | a :: l, h => by
    rw [List.mapM_cons] at h
    cases ha : f a with
    | error e' =>
      simp only [ha, bind, Except.bind, Except.error.injEq] at h
      exact ⟨a, by simp, by rw [ha, h]⟩
    | ok b =>
      cases hl : l.mapM f with
      | error e' =>
        simp only [ha, hl, bind, Except.bind, Except.error.injEq] at h
        obtain ⟨x, hx, he⟩ := mapM_error hl
        exact ⟨x, by simp [hx], by rw [he, h]⟩
      | ok bs => simp [ha, hl, bind, Except.bind, pure, Except.pure] at h

/-- The result is there and has the property. -/
def okAnd {α : Type} (p : α → Prop) [DecidablePred p] : Except ε α → Bool
  | .ok a => decide (p a)
  | .error _ => false

theorem okAnd_eq_true {α : Type} {p : α → Prop} [DecidablePred p] {x : Except ε α} (h : okAnd p x = true) :
    ∃ a, x = .ok a ∧ p a := by
  cases x with
  | error e => cases h
  | ok a => exact ⟨a, rfl, of_decide_eq_true h⟩

end Discrete
