import Mathlib.Data.Finset.Basic
import Mathlib.Data.List.Sort

/-!
# Containers with a unique key and an order

`MultiIndex key` is a list of records no two of which have the same key: a hashed
map when only the key matters, and a map with a second, ordered index when records
are inserted by a comparison (an equivalent record goes behind those already
there).

What a container holds is `find`; each operation comes with its effect on `find`
and, where a loop walks the records, on membership. `TaggedBy` says what a second
table must hold to answer look-ups by something other than the key.
-/
namespace Discrete
open List hiding modify

/-- Records in their order, unique by `key`. -/
@[ext]
structure MultiIndex {α κ : Type} (key : α → κ) where
  entries : List α
  unique : (entries.map key).Nodup

namespace MultiIndex
variable {α κ : Type} {key : α → κ}

def empty : MultiIndex key := ⟨[], by simp⟩

variable [DecidableEq κ]

def find (c : MultiIndex key) (k : κ) : Option α := c.entries.find? fun a => key a = k

/-- `none` when the key is taken. -/
def insert (before : α → α → Bool) (c : MultiIndex key) (a : α) : Option (MultiIndex key) :=
  if h : key a ∈ c.entries.map key then none
  else
    some ⟨c.entries.orderedInsert (fun x y => before x y = true) a,
      (((perm_orderedInsert _ a c.entries).map key).nodup_iff).mpr
        (nodup_cons.mpr ⟨h, c.unique⟩)⟩

def erase (c : MultiIndex key) (k : κ) : MultiIndex key :=
  ⟨c.entries.filter fun a => key a ≠ k, c.unique.sublist (filter_sublist.map key)⟩

/-- Change the record under `k` without changing its key. -/
def modify (c : MultiIndex key) (k : κ) (f : α → α) (hf : ∀ a, key (f a) = key a) : MultiIndex key :=
  ⟨c.entries.map fun a => if key a = k then f a else a, by
    rw [List.map_map]
    convert c.unique using 2
    funext a
    simp only [Function.comp_apply]
    split
    · exact hf a
    · rfl⟩

/-- The record goes behind the others, unless its key is taken. -/
def push (c : MultiIndex key) (a : α) : MultiIndex key :=
  if h : key a ∈ c.entries.map key then c
  else
    ⟨c.entries ++ [a], by
      rw [map_append, map_singleton, nodup_append]
      refine ⟨c.unique, nodup_singleton _, fun k hk k' hk' e => ?_⟩
      rw [mem_singleton.mp hk'] at e
      exact h (e ▸ hk)⟩

theorem find_eq_some {c : MultiIndex key} {k : κ} {a : α} : c.find k = some a ↔ a ∈ c.entries ∧ key a = k := by
  constructor
  · intro h
    exact ⟨mem_of_find?_eq_some h, by simpa using find?_some h⟩
  · rintro ⟨ha, rfl⟩
    cases h : c.find (key a) with
    | none =>
      have := find?_eq_none.mp h a ha
      simp at this
    | some b =>
      have hb : key b = key a := by simpa using find?_some h
      rw [inj_on_of_nodup_map c.unique (mem_of_find?_eq_some h) ha hb]

theorem find_eq_none {c : MultiIndex key} {k : κ} : c.find k = none ↔ ∀ a ∈ c.entries, key a ≠ k := by
  simp [find]

@[simp] theorem find_empty (k : κ) : (empty : MultiIndex key).find k = none := rfl

theorem mem_insert {before : α → α → Bool} {c c' : MultiIndex key} {a b : α} (h : c.insert before a = some c') :
    b ∈ c'.entries ↔ b = a ∨ b ∈ c.entries := by
  unfold insert at h
  split at h
  · cases h
  · simp only [Option.some.injEq] at h
    subst h
    simp [mem_orderedInsert]

theorem insert_isSome {before : α → α → Bool} {c : MultiIndex key} {a : α} :
    (c.insert before a).isSome ↔ c.find (key a) = none := by
  unfold insert
  rw [find_eq_none]
  split
  · rename_i h
    obtain ⟨b, hb, e⟩ := List.mem_map.mp h
    simpa using ⟨b, hb, e⟩
  · rename_i h
    simp only [Option.isSome_some, true_iff]
    intro b hb e
    exact h (List.mem_map.mpr ⟨b, hb, e⟩)

theorem insert_of_free (before : α → α → Bool) {c : MultiIndex key} {a : α} (h : c.find (key a) = none) :
    ∃ c', c.insert before a = some c' :=
  Option.isSome_iff_exists.mp (insert_isSome.mpr h)

theorem find_insert {before : α → α → Bool} {c c' : MultiIndex key} {a : α} (h : c.insert before a = some c') (k : κ) :
    c'.find k = if k = key a then some a else c.find k := by
  split
  · rename_i e
    exact find_eq_some.mpr ⟨(mem_insert h).mpr (.inl rfl), e.symm⟩
  · rename_i hne
    ext b
    rw [find_eq_some, find_eq_some, mem_insert h]
    constructor
    · rintro ⟨rfl | hb, e⟩
      · exact absurd e.symm hne
      · exact ⟨hb, e⟩
    · exact fun ⟨hb, e⟩ => ⟨.inr hb, e⟩

theorem mem_erase {c : MultiIndex key} {k : κ} {a : α} : a ∈ (c.erase k).entries ↔ a ∈ c.entries ∧ key a ≠ k := by
  simp [erase]

theorem find_erase (c : MultiIndex key) (k k' : κ) : (c.erase k).find k' = if k' = k then none else c.find k' := by
  split
  · rename_i e
    rw [find_eq_none]
    intro a ha
    rw [e]
    exact (mem_erase.mp ha).2
  · rename_i hne
    ext a
    rw [find_eq_some, find_eq_some, mem_erase]
    exact ⟨fun ⟨ha, e⟩ => ⟨ha.1, e⟩, fun ⟨ha, e⟩ => ⟨⟨ha, e ▸ hne⟩, e⟩⟩

theorem find_modify (c : MultiIndex key) (k : κ) (f : α → α) (hf : ∀ a, key (f a) = key a) (k' : κ) :
    (c.modify k f hf).find k' = (c.find k').map fun a => if k' = k then f a else a := by
  ext b
  rw [find_eq_some, Option.map_eq_some_iff]
  simp only [modify, List.mem_map, find_eq_some]
  constructor
  · rintro ⟨⟨a, ha, rfl⟩, e⟩
    have hk : key a = k' := by
      split at e
      · rw [← e, hf]
      · exact e
    exact ⟨a, ⟨ha, hk⟩, by rw [hk]⟩
  · rintro ⟨a, ⟨ha, rfl⟩, rfl⟩
    refine ⟨⟨a, ha, rfl⟩, ?_⟩
    split
    · exact hf a
    · rfl

theorem mem_push {c : MultiIndex key} {a b : α} (h : b ∈ (c.push a).entries) : b ∈ c.entries ∨ b = a := by
  unfold push at h
  split at h
  · exact .inl h
  · simpa using h

theorem find_push {c : MultiIndex key} {a : α} (h : c.find (key a) = none) (k : κ) :
    (c.push a).find k = if k = key a then some a else c.find k := by
  have hfree : key a ∉ c.entries.map key := by
    intro hmem
    obtain ⟨b, hb, e⟩ := List.mem_map.mp hmem
    exact find_eq_none.mp h b hb e
  rw [push, dif_neg hfree, find, find?_append]
  split
  · rename_i e
    subst e
    rw [find] at h
    simp [h]
  · rename_i hne
    simp [find, Ne.symm hne]

/-! ## Sweeps over all records -/

section filterMap
variable (f : α → Option α)

omit [DecidableEq κ] in
theorem keys_filterMap (hf : ∀ {a b}, f a = some b → key b = key a) :
    ∀ l : List α, ((l.filterMap f).map key).Sublist (l.map key)
  | [] => .slnil
  | a :: l => by
    cases h : f a with
    | none =>
      rw [filterMap_cons_none h, map_cons]
      exact (keys_filterMap hf l).cons _
    | some b =>
      rw [filterMap_cons_some h, map_cons, map_cons, hf h]
      exact (keys_filterMap hf l).cons_cons _

/-- Drop or change every record, without changing keys. -/
def filterMap (c : MultiIndex key) (hf : ∀ {a b}, f a = some b → key b = key a) : MultiIndex key :=
  ⟨c.entries.filterMap f, c.unique.sublist (keys_filterMap f hf c.entries)⟩

variable {f}

theorem find_filterMap (c : MultiIndex key) (hf : ∀ {a b}, f a = some b → key b = key a) (k : κ) :
    (c.filterMap f hf).find k = (c.find k).bind f := by
  ext b
  simp only [find_eq_some, Option.bind_eq_some_iff, filterMap, mem_filterMap]
  constructor
  · intro ⟨⟨a, ha, hb⟩, e⟩
    exact ⟨a, ⟨ha, (hf hb).symm.trans e⟩, hb⟩
  · intro ⟨a, ⟨ha, e⟩, hb⟩
    exact ⟨⟨a, ha, hb⟩, (hf hb).trans e⟩

end filterMap

/-! ## The records as a collection -/

/-- Containers that answer every look-up alike hold the same records. -/
theorem perm_of_find {c c' : MultiIndex key} (h : ∀ k, c.find k = c'.find k) : c.entries.Perm c'.entries := by
  refine (perm_ext_iff_of_nodup (c.unique.of_map key) (c'.unique.of_map key)).mpr fun a => ?_
  have ha := h (key a)
  constructor
  · intro hm
    exact (find_eq_some.mp (ha ▸ find_eq_some.mpr ⟨hm, rfl⟩)).1
  · intro hm
    exact (find_eq_some.mp (ha ▸ find_eq_some.mpr ⟨hm, rfl⟩)).1

theorem perm_insert {before : α → α → Bool} {c c' : MultiIndex key} {a : α} (h : c.insert before a = some c') :
    c'.entries.Perm (a :: c.entries) := by
  unfold insert at h
  split at h
  · cases h
  · simp only [Option.some.injEq] at h
    subst h
    exact perm_orderedInsert _ a c.entries

theorem perm_erase {c : MultiIndex key} {a : α} (h : a ∈ c.entries) :
    c.entries.Perm (a :: (c.erase (key a)).entries) := by
  have hnd := c.unique.of_map key
  have hnd' : (a :: (c.erase (key a)).entries).Nodup :=
    nodup_cons.mpr ⟨fun hmem => (mem_erase.mp hmem).2 rfl, hnd.filter _⟩
  refine (perm_ext_iff_of_nodup hnd hnd').mpr fun b => ?_
  rw [mem_cons, mem_erase]
  constructor
  · intro hb
    by_cases hk : key b = key a
    · exact .inl (inj_on_of_nodup_map c.unique hb h hk)
    · exact .inr ⟨hb, hk⟩
  · intro hb
    rcases hb with rfl | hb
    · exact h
    · exact hb.1

theorem countP_modify (c : MultiIndex key) (k : κ) {f : α → α} (hf : ∀ a, key (f a) = key a) {p : α → Bool}
    (hp : ∀ a, p (f a) = p a) : (c.modify k f hf).entries.countP p = c.entries.countP p := by
  simp only [modify, countP_map]
  congr 1
  funext a
  simp only [Function.comp_apply]
  split
  · exact hp a
  · rfl

/-- A container filled from a list of records. -/
def ofList (before : α → α → Bool) (l : List α) : MultiIndex key :=
  l.foldl (fun c a => (c.insert before a).getD c) empty

/-- Records with different keys all go in. -/
theorem perm_ofList (before : α → α → Bool) {l : List α} (h : (l.map key).Nodup) :
    (ofList before l : MultiIndex key).entries.Perm l := by
  have hloop : ∀ (l : List α) (c : MultiIndex key), ((c.entries ++ l).map key).Nodup →
      (l.foldl (fun c a => (c.insert before a).getD c) c).entries.Perm (c.entries ++ l) := by
    intro l
    induction l with
    | nil => exact fun c _ => by simp
    | cons a l ih =>
      intro c hnd
      have hfree : c.find (key a) = none := by
        rw [find_eq_none]
        intro b hb hk
        rw [map_append, nodup_append] at hnd
        exact hnd.2.2 _ (List.mem_map_of_mem hb) _ (by simp) hk
      obtain ⟨c', hc'⟩ := insert_of_free before hfree
      have hperm : (c'.entries ++ l).Perm (c.entries ++ a :: l) :=
        ((perm_insert hc').append_right l).trans perm_middle.symm
      rw [foldl_cons, hc', Option.getD_some]
      exact (ih c' (((hperm.map key).nodup_iff).mpr hnd)).trans hperm
  exact hloop l empty h

/-! ## Secondary indices

A record may be looked up by tags that other records share. -/

section TaggedBy
variable {β : Type}

/-- `index` holds the keys of the records under each of their tags, and nothing else. -/
def TaggedBy (tags : α → List β) (c : MultiIndex key) (index : Finset (β × κ)) : Prop :=
  ∀ t k, (t, k) ∈ index ↔ ∃ a ∈ c.entries, key a = k ∧ t ∈ tags a

variable {tags : α → List β} {c c' : MultiIndex key} {index index' : Finset (β × κ)}

variable (h : TaggedBy tags c index)
include h

omit [DecidableEq κ] in
theorem TaggedBy.mem {a : α} (ha : a ∈ c.entries) {t : β} : (t, key a) ∈ index ↔ t ∈ tags a := by
  rw [h]
  constructor
  · intro ⟨b, hb, hk, ht⟩
    rwa [inj_on_of_nodup_map c.unique hb ha hk] at ht
  · exact fun ht => ⟨a, ha, rfl, ht⟩

/-- Only keys that are taken occur. -/
theorem TaggedBy.not_mem {k : κ} (hk : c.find k = none) (t : β) : (t, k) ∉ index := by
  rw [h]
  exact fun ⟨a, ha, e, _⟩ => find_eq_none.mp hk a ha e

theorem TaggedBy.insert {before : α → α → Bool} {a : α} (hc : c.insert before a = some c')
    (hindex : ∀ x, x ∈ index' ↔ x ∈ index ∨ x.2 = key a ∧ x.1 ∈ tags a) : TaggedBy tags c' index' := by
  intro t k
  rw [hindex, h]
  constructor
  · intro hx
    rcases hx with ⟨b, hb, hk, ht⟩ | ⟨hk, ht⟩
    · exact ⟨b, (mem_insert hc).mpr (.inr hb), hk, ht⟩
    · exact ⟨a, (mem_insert hc).mpr (.inl rfl), hk.symm, ht⟩
  · intro ⟨b, hb, hk, ht⟩
    rcases (mem_insert hc).mp hb with rfl | hb
    · exact .inr ⟨hk.symm, ht⟩
    · exact .inl ⟨b, hb, hk, ht⟩

theorem TaggedBy.erase {k : κ} (hindex : ∀ x, x ∈ index' ↔ x ∈ index ∧ x.2 ≠ k) : TaggedBy tags (c.erase k) index' := by
  intro t k'
  rw [hindex, h]
  constructor
  · exact fun ⟨⟨a, ha, hk, ht⟩, hne⟩ => ⟨a, mem_erase.mpr ⟨ha, by rw [hk]; exact hne⟩, hk, ht⟩
  · intro ⟨a, ha, hk, ht⟩
    obtain ⟨ha, hne⟩ := mem_erase.mp ha
    exact ⟨⟨a, ha, hk, ht⟩, by rw [← hk]; exact hne⟩

/-- Changing a record in what it has no tags for. -/
theorem TaggedBy.modify (k : κ) {f : α → α} (hf : ∀ a, key (f a) = key a) (htags : ∀ a, tags (f a) = tags a) :
    TaggedBy tags (c.modify k f hf) index := by
  intro t k'
  rw [h]
  simp only [MultiIndex.modify, List.mem_map]
  constructor
  · intro ⟨a, ha, hk, ht⟩
    refine ⟨_, ⟨a, ha, rfl⟩, ?_⟩
    split
    · exact ⟨(hf a).trans hk, htags a ▸ ht⟩
    · exact ⟨hk, ht⟩
  · intro ⟨_, ⟨a, ha, rfl⟩, hk, ht⟩
    refine ⟨a, ha, ?_⟩
    split at hk
    · rename_i hka
      rw [if_pos hka, htags] at ht
      exact ⟨(hf a).symm.trans hk, ht⟩
    · rename_i hka
      rw [if_neg hka] at ht
      exact ⟨hk, ht⟩

end TaggedBy

end MultiIndex
end Discrete
