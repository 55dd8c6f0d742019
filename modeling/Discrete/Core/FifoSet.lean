import Mathlib.Data.Finset.Basic

/-!
# A bounded set with first-in, first-out eviction

A lookup set beside a queue of its members, oldest first: `remember` adds a member to
both and, at capacity, drops the oldest from both. `FifoSet.Ok` says that the two hold the
same members and no more than the capacity.
-/
namespace Discrete

structure FifoSet (α : Type) [DecidableEq α] where
  known : Finset α
  order : List α

namespace FifoSet
variable {α : Type} [DecidableEq α] {cap : Nat} {c : FifoSet α} {a b : α}

def empty : FifoSet α := ⟨∅, []⟩

def contains (c : FifoSet α) (a : α) : Bool := decide (a ∈ c.known)

/-- Drop the oldest member. -/
def evict (c : FifoSet α) : FifoSet α :=
  match c.order with
  | [] => c
  | oldest :: rest => ⟨c.known.erase oldest, rest⟩

def remember (cap : Nat) (c : FifoSet α) (a : α) : FifoSet α :=
  if a ∈ c.known then c
  else
    let c := if cap ≤ c.order.length then c.evict else c
    ⟨insert a c.known, c.order ++ [a]⟩

structure Ok (cap : Nat) (c : FifoSet α) : Prop where
  nodup : c.order.Nodup
  known : c.known = c.order.toFinset
  bounded : c.order.length ≤ cap

theorem ok_empty (cap : Nat) : Ok cap (empty : FifoSet α) := ⟨List.nodup_nil, rfl, Nat.zero_le cap⟩

/-- Dropping the oldest keeps set and queue together, and makes room. -/
theorem Ok.evict (h : Ok cap c) (hcap : 0 < cap) : Ok (cap - 1) c.evict := by
  obtain ⟨known, order⟩ := c
  obtain ⟨hnodup, hknown, hbounded⟩ := h
  cases order with
  | nil => exact ⟨hnodup, hknown, Nat.zero_le _⟩
  | cons oldest rest =>
    simp only at hknown hnodup hbounded
    rw [List.nodup_cons] at hnodup
    refine ⟨hnodup.2, ?_, ?_⟩
    · change known.erase oldest = rest.toFinset
      rw [hknown, List.toFinset_cons, Finset.erase_insert (by simpa using hnodup.1)]
    · change rest.length ≤ cap - 1
      rw [List.length_cons] at hbounded
      omega

/-- A member that is new, added to a set with room. -/
theorem Ok.add (h : Ok (cap - 1) c) (hcap : 0 < cap) (ha : a ∉ c.known) :
    Ok cap ⟨insert a c.known, c.order ++ [a]⟩ := by
  have ha' : a ∉ c.order := by simpa [h.known] using ha
  refine ⟨?_, ?_, ?_⟩
  · exact List.nodup_append.mpr ⟨h.nodup, List.nodup_singleton a, by
      rintro x hx y hy rfl
      exact ha' (List.mem_singleton.mp hy ▸ hx)⟩
  · change insert a c.known = (c.order ++ [a]).toFinset
    ext x
    rw [Finset.mem_insert, List.mem_toFinset, List.mem_append, List.mem_singleton, h.known, List.mem_toFinset, or_comm]
  · have := h.bounded
    rw [List.length_append, List.length_singleton]
    omega

theorem evict_subset : c.evict.known ⊆ c.known := by
  unfold evict
  split
  · exact Finset.Subset.refl _
  · exact Finset.erase_subset _ _

theorem Ok.remember (h : Ok cap c) (hcap : 0 < cap) (a : α) : Ok cap (c.remember cap a) := by
  unfold FifoSet.remember
  split
  · exact h
  · rename_i ha
    dsimp only
    split
    · exact (h.evict hcap).add hcap fun hc => ha (evict_subset hc)
    · rename_i hroom
      exact Ok.add ⟨h.nodup, h.known, by omega⟩ hcap ha

/-- Nothing is remembered but what was known and the new member. -/
theorem known_remember (h : b ∈ (c.remember cap a).known) : b ∈ c.known ∨ b = a := by
  unfold FifoSet.remember at h
  split at h
  · exact .inl h
  · rcases Finset.mem_insert.mp h with rfl | h
    · exact .inr rfl
    · refine .inl ?_
      split at h
      · exact evict_subset h
      · exact h

end FifoSet
end Discrete
