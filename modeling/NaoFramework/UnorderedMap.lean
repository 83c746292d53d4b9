import Mathlib.Data.List.AList
/-!
# UnorderedMap — a map with the operations of `std::unordered_map`

A list of entries whose keys are distinct (`AList`): `lookup` is `find`, `insert` is an assignment through
`operator[]`, `emplace` the insertion that leaves an existing entry alone.  Entries are visited in the list's order;
no law here or elsewhere depends on it.
-/

/-- A map from `κ` to `α`; its entries have distinct keys. -/
abbrev UnorderedMap (κ α : Type*) := AList (fun _ : κ => α)

namespace UnorderedMap

variable {κ α : Type*} [DecidableEq κ]

theorem exists_lookup {m : UnorderedMap κ α} {k : κ} (h : k ∈ m) : ∃ a, m.lookup k = some a :=
  Option.isSome_iff_exists.1 (AList.lookup_isSome.2 h)

theorem lookup_insert_if (m : UnorderedMap κ α) (k k' : κ) (a : α) :
    (m.insert k a).lookup k' = if k' = k then some a else m.lookup k' := by
  by_cases h : k' = k
  · subst h; simp [AList.lookup_insert]
  · simp [h, AList.lookup_insert_ne h]

/-- `emplace`: the entry is added unless the key has one already. -/
def emplace (m : UnorderedMap κ α) (k : κ) (a : α) : UnorderedMap κ α :=
  if k ∈ m then m else m.insert k a

theorem lookup_emplace (m : UnorderedMap κ α) (k k' : κ) (a : α) :
    (m.emplace k a).lookup k' = if k' = k then some ((m.lookup k).getD a) else m.lookup k' := by
  unfold emplace
  by_cases hk : k ∈ m
  · obtain ⟨b, hb⟩ := exists_lookup hk
    rw [if_pos hk, hb]
    by_cases h : k' = k
    · subst h; simp [hb]
    · simp [h]
  · rw [if_neg hk, lookup_insert_if, AList.lookup_eq_none.2 hk, Option.getD_none]

example : (emplace (emplace (∅ : UnorderedMap String Nat) "a" 1) "a" 2).lookup "a" = some 1 := by decide

theorem mem_emplace (m : UnorderedMap κ α) (k k' : κ) (a : α) : k' ∈ m.emplace k a ↔ k' = k ∨ k' ∈ m := by
  unfold emplace
  split
  · rename_i hk
    exact ⟨Or.inr, fun h => h.elim (fun e => e ▸ hk) id⟩
  · exact AList.mem_insert m

/-- Whether every entry satisfies `p`. -/
def all (m : UnorderedMap κ α) (p : κ → α → Bool) : Bool := m.entries.all (fun e => p e.1 e.2)

theorem all_iff (m : UnorderedMap κ α) (p : κ → α → Bool) :
    m.all p = true ↔ ∀ k a, m.lookup k = some a → p k a = true := by
  unfold all
  rw [List.all_eq_true]
  constructor
  · intro h k a hk
    exact h ⟨k, a⟩ (AList.mem_lookup_iff.1 hk)
  · rintro h ⟨k, a⟩ he
    exact h k a (AList.mem_lookup_iff.2 he)

def size (m : UnorderedMap κ α) : Nat := m.keys.length

theorem size_insert (m : UnorderedMap κ α) (k : κ) (a : α) :
    size (m.insert k a) = if k ∈ m then m.size else m.size + 1 := by
  unfold size
  rw [AList.keys_insert, List.length_cons]
  split
  · rename_i hk
    have := List.length_pos_of_mem (AList.mem_keys.1 hk)
    rw [List.length_erase_of_mem (AList.mem_keys.1 hk)]
    omega
  · rename_i hk
    rw [List.erase_of_not_mem (fun h => hk (AList.mem_keys.2 h))]

/-- Every value changed in place. -/
def mapValues (m : UnorderedMap κ α) (f : κ → α → α) : UnorderedMap κ α :=
  ⟨m.entries.map (.map id f), m.nodupKeys.map₂ f m.entries⟩

theorem lookup_mapValues (m : UnorderedMap κ α) (f : κ → α → α) (k : κ) :
    (m.mapValues f).lookup k = (m.lookup k).map (f k) := List.dlookup_map₂ k

omit [DecidableEq κ] in
theorem size_mapValues (m : UnorderedMap κ α) (f : κ → α → α) : (m.mapValues f).size = m.size := by
  simp [size, mapValues, AList.keys, List.keys]

end UnorderedMap
