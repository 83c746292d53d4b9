import Mathlib.Data.List.Basic
/-!
# Separated — words and rows

A list over any alphabet is cut in two ways.  Its words are the longest pieces without a separator, and what separates
them is forgotten (`words`); its rows are what stands before each end of a row, with what follows the last one if there
is anything (`rows`).  `Spelled` and `Rowed` say, without splitting anything, which lists have given words and rows; every
list has some, and those are the ones that splitting finds (`words_eq_iff`, `rows_eq_iff`).
-/
namespace NaoFramework
namespace Separated

variable {α : Type}

def words (sep : α → Bool) (l : List α) : List (List α) := (l.splitOnP sep).filter (· ≠ [])

def rows [DecidableEq α] (nl : α) (l : List α) : List (List α) :=
  let pieces := l.splitOn nl
  if pieces.getLast? = some [] then pieces.dropLast else pieces

/-- **The list is spelled with the words**: gaps of separators, and words that have none, each ended by a separator or by
the end of the list. -/
inductive Spelled (sep : α → Bool) : List α → List (List α) → Prop where
  | gap (l : List α) (hl : ∀ x ∈ l, sep x = true) : Spelled sep l []
  | word (gap w rest : List α) (ws : List (List α)) (hg : ∀ x ∈ gap, sep x = true) (hne : w ≠ [])
      (hw : ∀ x ∈ w, sep x = false) (hr : ∀ x, rest.head? = some x → sep x = true) (h : Spelled sep rest ws) :
      Spelled sep (gap ++ w ++ rest) (w :: ws)

/-- **The list is written in the rows**, each ended, but for the last if it is not empty. -/
inductive Rowed (nl : α) : List α → List (List α) → Prop where
  | nil : Rowed nl [] []
  | last (row : List α) (hne : row ≠ []) (hn : nl ∉ row) : Rowed nl row [row]
  | cons (row rest : List α) (rows : List (List α)) (hn : nl ∉ row) (h : Rowed nl rest rows) :
      Rowed nl (row ++ nl :: rest) (row :: rows)

variable {sep : α → Bool} {nl : α} {l : List α}

/-! ## Words -/

theorem words_cons_sep {x : α} (hx : sep x = true) (l : List α) : words sep (x :: l) = words sep l := by
  simp [words, List.splitOnP_cons_eq_if_modifyHead, hx]

theorem words_gap : ∀ {gap : List α}, (∀ x ∈ gap, sep x = true) → words sep (gap ++ l) = words sep l
  | [], _ => rfl
  | x :: gap, h => by
    rw [List.cons_append, words_cons_sep (h x List.mem_cons_self)]
    exact words_gap fun y hy => h y (List.mem_cons_of_mem _ hy)

theorem words_nil : words sep [] = [] := by simp [words]

/-- A word, and what follows it. -/
theorem words_word {w rest : List α} (hne : w ≠ []) (hw : ∀ x ∈ w, sep x = false)
    (hr : ∀ x, rest.head? = some x → sep x = true) : words sep (w ++ rest) = w :: words sep rest := by
  cases rest with
  | nil =>
    rw [List.append_nil, words_nil, words, List.splitOnP_eq_singleton hw]
    simp [hne]
  | cons x rest =>
    have hx : sep x = true := hr x rfl
    rw [words_cons_sep hx, words, List.splitOnP_append_cons_of_forall_mem hw x hx, List.filter_cons_of_pos (by simpa using hne)]
    rfl

theorem Spelled.words_eq {ws : List (List α)} (h : Spelled sep l ws) : words sep l = ws := by
  induction h with
  | gap l hl =>
    have := words_gap (l := []) hl
    rwa [List.append_nil, words_nil] at this
  | word gap w rest ws hg hne hw hr _ ih => rw [List.append_assoc, words_gap hg, words_word hne hw hr, ih]

/-- Every list is spelled with some words. -/
theorem exists_spelled (sep : α → Bool) (l : List α) : ∃ ws, Spelled sep l ws := by
  induction hn : l.length using Nat.strongRecOn generalizing l with
  | ind n ih =>
    subst hn
    have hgap : ∀ x ∈ l.takeWhile sep, sep x = true := fun x hx => List.all_eq_true.1 List.all_takeWhile x hx
    cases hl : l.dropWhile sep with
    | nil =>
      refine ⟨[], .gap l fun x hx => ?_⟩
      rw [← List.takeWhile_append_dropWhile (p := sep) (l := l), hl, List.append_nil] at hx
      exact hgap x hx
    | cons y tail =>
      -- the first word begins at `y`, and the rest is shorter
      have hy : sep y = false := by
        have := List.head?_dropWhile_not sep l
        simpa [hl] using this
      have hlen : ((y :: tail).dropWhile (! sep ·)).length < l.length := by
        have h1 := (List.dropWhile_sublist (! sep ·) (l := tail)).length_le
        have h2 := (List.dropWhile_sublist sep (l := l)).length_le
        rw [hl, List.length_cons] at h2
        rw [List.dropWhile_cons_of_pos (by simp [hy])]
        omega
      obtain ⟨ws, hws⟩ := ih _ hlen _ rfl
      have hsplit : l = l.takeWhile sep ++ (y :: tail).takeWhile (! sep ·) ++ (y :: tail).dropWhile (! sep ·) := by
        rw [List.append_assoc, List.takeWhile_append_dropWhile, ← hl, List.takeWhile_append_dropWhile]
      refine ⟨(y :: tail).takeWhile (! sep ·) :: ws, ?_⟩
      rw [hsplit]
      refine .word _ _ _ ws hgap (by simp [hy]) (fun x hx => ?_) (fun x hx => ?_) hws
      · simpa using List.all_eq_true.1 List.all_takeWhile x hx
      · have := List.head?_dropWhile_not (! sep ·) (y :: tail)
        simpa [hx] using this

/-- **The words of a list are the ones it is spelled with.** -/
theorem words_eq_iff {ws : List (List α)} : words sep l = ws ↔ Spelled sep l ws := by
  refine ⟨?_, Spelled.words_eq⟩
  rintro rfl
  obtain ⟨ws, h⟩ := exists_spelled sep l
  rwa [h.words_eq]

/-- Words with one separator between any two of them. -/
theorem spelled_intercalate {x : α} (hx : sep x = true) : ∀ {ws : List (List α)}, (∀ w ∈ ws, w ≠ [] ∧ ∀ y ∈ w, sep y = false) →
    Spelled sep ([x].intercalate ws) ws
  | [], _ => .gap [] (by simp)
  | [w], h => by
    obtain ⟨hne, hw⟩ := h w List.mem_cons_self
    have : Spelled sep ([] ++ w ++ []) [w] := .word [] w [] [] (by simp) hne hw (by simp) (.gap [] (by simp))
    simpa using this
  | w :: w' :: ws, h => by
    obtain ⟨hne, hw⟩ := h w List.mem_cons_self
    have ih : Spelled sep ([x].intercalate (w' :: ws)) (w' :: ws) :=
      spelled_intercalate hx fun v hv => h v (List.mem_cons_of_mem _ hv)
    have hws := words_eq_iff.1 ((words_cons_sep hx _).trans ih.words_eq)
    have : Spelled sep ([] ++ w ++ x :: [x].intercalate (w' :: ws)) (w :: w' :: ws) :=
      .word [] w _ _ (by simp) hne hw (fun y hy => by cases hy; exact hx) hws
    simpa using this

/-- What is in a list of words so separated. -/
theorem mem_intercalate {x y : α} : ∀ {ws : List (List α)}, y ∈ [x].intercalate ws → y = x ∨ ∃ w ∈ ws, y ∈ w
  | [], h => by simp at h
  | [w], h => Or.inr ⟨w, List.mem_cons_self, by simpa using h⟩
  | w :: w' :: ws, h => by
    rw [List.intercalate_cons_cons, List.mem_append, List.mem_append, List.mem_singleton] at h
    rcases h with (h | h) | h
    · exact Or.inr ⟨w, List.mem_cons_self, h⟩
    · exact Or.inl h
    · exact (mem_intercalate h).imp_right fun ⟨v, hv, hy⟩ => ⟨v, List.mem_cons_of_mem _ hv, hy⟩

theorem head?_intercalate {x : α} {w : List α} (hw : w ≠ []) (ws : List (List α)) :
    ([x].intercalate (w :: ws)).head? = w.head? := by
  obtain ⟨y, w, rfl⟩ := List.exists_cons_of_ne_nil hw
  cases ws with
  | nil => simp
  | cons w' ws => rw [List.intercalate_cons_cons, List.append_assoc, List.cons_append, List.head?_cons, List.head?_cons]

/-! ## Rows -/

variable [DecidableEq α]

theorem rows_row {row rest : List α} (hn : nl ∉ row) : rows nl (row ++ nl :: rest) = row :: rows nl rest := by
  have hne := List.splitOn_ne_nil nl rest
  rw [rows, rows, List.splitOn_append_cons_self_of_not_mem hn]
  simp only [List.getLast?_cons_of_ne_nil hne, List.dropLast_cons_of_ne_nil hne]
  split <;> rfl

theorem Rowed.rows_eq {rs : List (List α)} (h : Rowed nl l rs) : rows nl l = rs := by
  induction h with
  | nil => simp [rows]
  | last row hne hn => simp [rows, List.splitOn_eq_singleton hn, hne]
  | cons row rest rs hn _ ih => rw [rows_row hn, ih]

/-- Every list is written in some rows. -/
theorem exists_rowed (nl : α) (l : List α) : ∃ rs, Rowed nl l rs := by
  induction hn : l.length using Nat.strongRecOn generalizing l with
  | ind n ih =>
    subst hn
    have hrow : nl ∉ l.takeWhile (· ≠ nl) := fun hx => by
      simpa using List.all_eq_true.1 List.all_takeWhile nl hx
    have hsplit := List.takeWhile_append_dropWhile (p := (· ≠ nl)) (l := l)
    cases hl : l.dropWhile (· ≠ nl) with
    | nil =>
      rw [hl, List.append_nil] at hsplit
      rw [hsplit] at hrow
      by_cases he : l = []
      · exact ⟨[], he ▸ .nil⟩
      · exact ⟨[l], .last l he hrow⟩
    | cons y rest =>
      obtain rfl : y = nl := by
        have := List.head?_dropWhile_not (fun x => decide (x ≠ nl)) l
        rw [hl] at this
        simpa using this
      rw [hl] at hsplit
      have hlen := congrArg List.length hsplit
      rw [List.length_append, List.length_cons] at hlen
      obtain ⟨rs, hrs⟩ := ih rest.length (by omega) rest rfl
      rw [← hsplit]
      exact ⟨_, .cons _ rest rs hrow hrs⟩

/-- **The rows of a list are the ones it is written in.** -/
theorem rows_eq_iff {rs : List (List α)} : rows nl l = rs ↔ Rowed nl l rs := by
  refine ⟨?_, Rowed.rows_eq⟩
  rintro rfl
  obtain ⟨rs, h⟩ := exists_rowed nl l
  rwa [h.rows_eq]

omit [DecidableEq α] in
/-- Rows that are all ended. -/
theorem rowed_flatMap : ∀ {rs : List (List α)}, (∀ row ∈ rs, nl ∉ row) → Rowed nl (rs.flatMap (· ++ [nl])) rs
  | [], _ => .nil
  | row :: rs, h => by
    have ih : Rowed nl (rs.flatMap (· ++ [nl])) rs := rowed_flatMap fun r hr => h r (List.mem_cons_of_mem _ hr)
    rw [List.flatMap_cons, List.append_assoc]
    exact .cons row _ rs (h row List.mem_cons_self) ih

end Separated
end NaoFramework
