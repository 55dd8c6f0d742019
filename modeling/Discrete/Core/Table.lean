import Mathlib.Data.List.Basic

/-!
# Key-value tables

A table is the function from keys to stored values; equality of tables is
equality of contents. The operations are those of an ordered key-value store:
`put` overwrites, `remove` of an absent key does nothing. `putFresh` writes a list
of keys one after the other and gives up at the first that is already there.

The law that undoing rests on is `removeAll_putAll`: removing keys that were
absent before they were written restores the table.
-/
namespace Discrete

/-- A key-value table. -/
abbrev Table (α β : Type) : Type := α → Option β

namespace Table
variable {α β : Type}

def empty : Table α β := fun _ => none

@[simp] theorem empty_apply (k : α) : (empty : Table α β) k = none := rfl

variable [DecidableEq α]

def put (t : Table α β) (k : α) (v : β) : Table α β := fun k' => if k' = k then some v else t k'

def remove (t : Table α β) (k : α) : Table α β := fun k' => if k' = k then none else t k'

/-- A write that only happens when there is a key. -/
def putOpt (t : Table α β) (k : Option α) (v : β) : Table α β :=
  match k with
  | none => t
  | some k => t.put k v

def removeOpt (t : Table α β) (k : Option α) : Table α β :=
  match k with
  | none => t
  | some k => t.remove k

def putAll (t : Table α β) (v : β) (ks : List α) : Table α β := ks.foldl (fun t k => t.put k v) t

def removeAll (t : Table α β) (ks : List α) : Table α β := ks.foldl (fun t k => t.remove k) t

/-- Write each key in turn; `none` at the first key that is already present. -/
def putFresh (t : Table α β) (v : β) : List α → Option (Table α β)
  | [] => some t
  | k :: ks => if (t k).isSome then none else (t.put k v).putFresh v ks

theorem put_apply (t : Table α β) (k k' : α) (v : β) :
    t.put k v k' = if k' = k then some v else t k' := rfl

theorem remove_apply (t : Table α β) (k k' : α) : t.remove k k' = if k' = k then none else t k' := rfl

@[simp] theorem put_same (t : Table α β) (k : α) (v : β) : t.put k v k = some v := by simp [put]

theorem put_of_ne (t : Table α β) {k k' : α} (v : β) (h : k' ≠ k) : t.put k v k' = t k' := by
  simp [put, h]

theorem putOpt_apply (t : Table α β) (k : Option α) (k' : α) (v : β) :
    t.putOpt k v k' = if k = some k' then some v else t k' := by
  cases k with
  | none => simp [putOpt]
  | some k => simp [putOpt, put, eq_comm]

theorem removeOpt_apply (t : Table α β) (k : Option α) (k' : α) :
    t.removeOpt k k' = if k = some k' then none else t k' := by
  cases k with
  | none => simp [removeOpt]
  | some k => simp [removeOpt, remove, eq_comm]

theorem putAll_apply (v : β) : ∀ (ks : List α) (t : Table α β) (k : α), t.putAll v ks k = if k ∈ ks then some v else t k
  | [], t, k => by simp [putAll]
  | a :: ks, t, k => by
    have ih := putAll_apply v ks (t.put a v) k
    rw [putAll, List.foldl_cons, ← putAll, ih, put_apply]
    by_cases h : k ∈ ks
    · simp [h]
    · by_cases ha : k = a <;> simp [h, ha]

theorem removeAll_apply : ∀ (ks : List α) (t : Table α β) (k : α), t.removeAll ks k = if k ∈ ks then none else t k
  | [], t, k => by simp [removeAll]
  | a :: ks, t, k => by
    have ih := removeAll_apply ks (t.remove a) k
    rw [removeAll, List.foldl_cons, ← removeAll, ih, remove_apply]
    by_cases h : k ∈ ks
    · simp [h]
    · by_cases ha : k = a <;> simp [h, ha]

theorem remove_put {t : Table α β} {k : α} (v : β) (h : t k = none) : (t.put k v).remove k = t := by
  ext1 k'
  rw [remove_apply, put_apply]
  split
  · rename_i e; rw [e, h]
  · rfl

theorem removeAll_putAll {t : Table α β} {ks : List α} (v : β) (h : ∀ k ∈ ks, t k = none) :
    (t.putAll v ks).removeAll ks = t := by
  ext1 k
  rw [removeAll_apply, putAll_apply]
  split
  · rename_i hk; rw [h k hk]
  · rfl

theorem putFresh_eq_some {v : β} : ∀ {ks : List α} {t t' : Table α β},
    t.putFresh v ks = some t' ↔ (∀ k ∈ ks, t k = none) ∧ ks.Nodup ∧ t' = t.putAll v ks
  | [], t, t' => by simp [putFresh, putAll, eq_comm]
  | a :: ks, t, t' => by
    rw [putFresh]
    cases ha : t a with
    | some b => simp [ha]
    | none =>
      rw [if_neg (by simp), putFresh_eq_some]
      -- a key of the tail is fresh for `t.put a v` iff it is fresh for `t` and not `a`
      have hput : (∀ k ∈ ks, t.put a v k = none) ↔ (∀ k ∈ ks, t k = none) ∧ a ∉ ks := by
        constructor
        · intro h
          refine ⟨fun k hk => ?_, fun hmem => ?_⟩
          · have := h k hk
            rw [put_apply] at this
            split at this
            · cases this
            · exact this
          · simpa using h a hmem
        · rintro ⟨h, hne⟩ k hk
          have hka : k ≠ a := by rintro rfl; exact hne hk
          rw [put_of_ne _ _ hka, h k hk]
      rw [hput]
      simp only [List.forall_mem_cons, List.nodup_cons, ha, true_and]
      exact ⟨fun ⟨⟨h1, h2⟩, h3, h4⟩ => ⟨h1, ⟨h2, h3⟩, h4⟩, fun ⟨h1, ⟨h2, h3⟩, h4⟩ => ⟨⟨h1, h2⟩, h3, h4⟩⟩

end Table
end Discrete
