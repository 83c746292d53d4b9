import Mathlib.Data.List.Basic
/-!
# NodeList — a `std::list` that grows at its front

The elements, front first.  An iterator is the number of elements behind the one it points to, so an insertion at the
front leaves every iterator where it was (`at?_emplaceFront`).
-/

/-- A `std::list`, front first. -/
abbrev NodeList (α : Type*) := List α

namespace NodeList

variable {α : Type*}

/-- The element an iterator points to. -/
def at? (l : NodeList α) (it : Nat) : Option α := l.reverse[it]?

def emplaceFront (l : NodeList α) (a : α) : NodeList α := a :: l

/-- The iterator to the front of a list with an element. -/
def begin (l : NodeList α) : Nat := l.length - 1

/-- The element an iterator points to, changed in place. -/
def modifyAt (l : NodeList α) (it : Nat) (f : α → α) : NodeList α := (l.reverse.modify it f).reverse

@[simp] theorem begin_emplaceFront (l : NodeList α) (a : α) : (l.emplaceFront a).begin = l.length := rfl

theorem at?_emplaceFront (l : NodeList α) (a : α) (it : Nat) :
    (l.emplaceFront a).at? it = if it = l.length then some a else l.at? it := by
  unfold at? emplaceFront
  rw [List.reverse_cons, List.getElem?_append]
  by_cases h : it < l.length
  · rw [if_pos (by simpa using h), if_neg (by omega)]
  · rw [if_neg (by simpa using h)]
    by_cases he : it = l.length
    · subst he; simp
    · rw [if_neg he, List.getElem?_eq_none (by simp; omega), List.getElem?_eq_none (by simp; omega)]

example : (emplaceFront [3] 4 : NodeList Nat).at? 0 = some 3 := by decide

theorem at?_modifyAt (l : NodeList α) (it : Nat) (f : α → α) (j : Nat) :
    (l.modifyAt it f).at? j = if j = it then (l.at? j).map f else l.at? j := by
  unfold at? modifyAt
  rw [List.reverse_reverse, List.getElem?_modify]
  by_cases h : j = it
  · subst h; simp
  · simp [h, Ne.symm h]

theorem length_modifyAt (l : NodeList α) (it : Nat) (f : α → α) : (l.modifyAt it f).length = l.length := by
  simp [modifyAt]

theorem lt_of_at? {l : NodeList α} {it : Nat} {a : α} (h : l.at? it = some a) : it < l.length := by
  have := (List.getElem?_eq_some_iff.1 h).1
  simpa using this

theorem at?_length (l : NodeList α) : l.at? l.length = none := List.getElem?_eq_none (by simp)

/-- The elements are those the iterators point to. -/
theorem mem_of_at? {l : NodeList α} {it : Nat} {a : α} (h : l.at? it = some a) : a ∈ l :=
  List.mem_reverse.1 (List.mem_of_getElem? h)

end NodeList
