import NaoFramework.UnorderedMap
import Mathlib.Algebra.BigOperators.Group.Finset.Basic
/-!
# MapTotals — sums over the entries of a map

`total` sums a count over the entries of a map.  It depends on the lookups alone (`total_congr`), so a change at one key
changes it by what that key counted for (`total_at`).
-/
namespace UnorderedMap

open Finset

variable {κ α : Type*} [DecidableEq κ]

/-- What the entry of a key counts for; nothing, where there is none. -/
def weight (m : UnorderedMap κ α) (f : κ → α → Nat) (k : κ) : Nat := (m.lookup k).elim 0 (f k)

def total (m : UnorderedMap κ α) (f : κ → α → Nat) : Nat := ∑ k ∈ m.keys.toFinset, m.weight f k

variable {m m' : UnorderedMap κ α} {f : κ → α → Nat}

theorem weight_of_lookup {k : κ} {a : α} (h : m.lookup k = some a) : m.weight f k = f k a := by
  rw [weight, h]; rfl

theorem weight_of_none {k : κ} (h : m.lookup k = none) : m.weight f k = 0 := by
  rw [weight, h]; rfl

/-- Keys that have no entry may be summed over as well. -/
theorem total_eq_sum {S : Finset κ} (h : m.keys.toFinset ⊆ S) : m.total f = ∑ k ∈ S, m.weight f k :=
  Finset.sum_subset h fun _ _ hk =>
    weight_of_none (AList.lookup_eq_none.2 fun hm => hk (List.mem_toFinset.2 (AList.mem_keys.1 hm)))

/-- **A total depends on the lookups alone.** -/
theorem total_congr (h : ∀ k, m.weight f k = m'.weight f k) : m.total f = m'.total f := by
  rw [total_eq_sum (S := m.keys.toFinset ∪ m'.keys.toFinset) subset_union_left,
    total_eq_sum (S := m.keys.toFinset ∪ m'.keys.toFinset) subset_union_right]
  exact Finset.sum_congr rfl fun k _ => h k

/-- **A change at one key** changes the total by what the key counted for. -/
theorem total_at (m m' : UnorderedMap κ α) (f : κ → α → Nat) (k : κ) (h : ∀ k', k' ≠ k → m.weight f k' = m'.weight f k') :
    m.total f + m'.weight f k = m'.total f + m.weight f k := by
  have hsplit : ∀ m₀ : UnorderedMap κ α, m₀.keys.toFinset ⊆ insert k (m.keys.toFinset ∪ m'.keys.toFinset) →
      m₀.total f = ∑ k' ∈ (m.keys.toFinset ∪ m'.keys.toFinset).erase k, m₀.weight f k' + m₀.weight f k := by
    intro m₀ hs
    rw [total_eq_sum hs, ← Finset.sum_erase_add _ _ (mem_insert_self k _), erase_insert_eq_erase]
  have hrest : ∑ k' ∈ (m.keys.toFinset ∪ m'.keys.toFinset).erase k, m.weight f k' =
      ∑ k' ∈ (m.keys.toFinset ∪ m'.keys.toFinset).erase k, m'.weight f k' :=
    Finset.sum_congr rfl fun k' hk' => h k' (ne_of_mem_erase hk')
  rw [hsplit m (subset_union_left.trans (subset_insert _ _)), hsplit m' (subset_union_right.trans (subset_insert _ _)), hrest]
  omega

theorem total_insert {k : κ} {a b : α} (h : m.lookup k = some a) :
    total (m.insert k b) f + f k a = m.total f + f k b := by
  have := total_at (m.insert k b) m f k fun k' hk' => by
    rw [weight, weight, AList.lookup_insert_ne hk']
  rwa [weight_of_lookup h, weight_of_lookup (AList.lookup_insert m)] at this

theorem total_erase {k : κ} {a : α} (h : m.lookup k = some a) : total (m.erase k) f + f k a = m.total f := by
  have := total_at (m.erase k) m f k fun k' hk' => by
    rw [weight, weight, AList.lookup_erase_ne hk']
  rwa [weight_of_lookup h, weight_of_none (AList.lookup_erase k m), Nat.add_zero] at this

theorem total_mapValues (g : κ → α → α) (h : ∀ k a, f k (g k a) = f k a) : (m.mapValues g).total f = m.total f := by
  refine total_congr fun k => ?_
  rw [weight, weight, lookup_mapValues]
  cases m.lookup k with
  | none => rfl
  | some a => exact h k a

theorem total_of_entries_nil (h : m.entries = []) : m.total f = 0 := by
  rw [total, AList.keys, h]
  rfl

end UnorderedMap
