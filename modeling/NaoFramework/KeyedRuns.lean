import NaoFramework.Runs
/-!
# KeyedRuns — steps that each concern one key

A state is seen key by key, and a step concerns one key: it leaves alone what is seen at the others, and what it does at
its own, and what it answers, depends on what is seen there (`Local`).  Then what is seen at a key after a run, and the
answers the steps at it were given, are those of its own steps alone (`view_run`, `answers_run`), so runs that order the
steps of every key alike do not differ.
-/
namespace Runs

variable {σ ι κ ν ο : Type*} [DecidableEq κ]

/-- The inputs that concern a key. -/
def ofKey (key : ι → κ) (k : κ) (is : List ι) : List ι := is.filter fun i => key i = k

/-- The answers to the inputs of a run. -/
def answers (step : σ → ι → σ) (answer : σ → ι → ο) : σ → List ι → List (ι × ο)
  | _, [] => []
  | s, i :: is => (i, answer s i) :: answers step answer (step s i) is

/-- **A step concerns its own key**, and nothing else. -/
structure Local (step : σ → ι → σ) (answer : σ → ι → ο) (key : ι → κ) (view : σ → κ → ν) : Prop where
  frame : ∀ s i k, k ≠ key i → view (step s i) k = view s k
  step : ∀ s s' i, view s (key i) = view s' (key i) → view (step s i) (key i) = view (step s' i) (key i)
  answer : ∀ s s' i, view s (key i) = view s' (key i) → answer s i = answer s' i

variable {step : σ → ι → σ} {answer : σ → ι → ο} {key : ι → κ} {view : σ → κ → ν}

namespace Local

/-- **What is seen at a key** after a run is what its own steps make of what was seen there before. -/
theorem view_run (h : Local step answer key view) (k : κ) : ∀ (is : List ι) (s s' : σ), view s k = view s' k →
    view (run step s is) k = view (run step s' (ofKey key k is)) k
  | [], _, _, hs => hs
  | i :: is, s, s', hs => by
    by_cases hk : key i = k
    · subst hk
      rw [ofKey, List.filter_cons_of_pos (by simp)]
      exact h.view_run _ is (step s i) (step s' i) (h.step s s' i hs)
    · rw [ofKey, List.filter_cons_of_neg (by simpa using hk)]
      exact h.view_run k is (step s i) s' ((h.frame s i k (Ne.symm hk)).trans hs)

/-- **What the steps at a key are answered** they are answered by themselves. -/
theorem answers_run (h : Local step answer key view) (k : κ) : ∀ (is : List ι) (s s' : σ), view s k = view s' k →
    (answers step answer s is).filter (fun a => key a.1 = k) = answers step answer s' (ofKey key k is)
  | [], _, _, _ => rfl
  | i :: is, s, s', hs => by
    by_cases hk : key i = k
    · subst hk
      rw [ofKey, List.filter_cons_of_pos (by simp), answers, answers, List.filter_cons_of_pos (by simp),
        h.answer s s' i hs]
      exact congrArg _ (h.answers_run _ is (step s i) (step s' i) (h.step s s' i hs))
    · rw [ofKey, List.filter_cons_of_neg (by simpa using hk), answers, List.filter_cons_of_neg (by simpa using hk)]
      exact h.answers_run k is (step s i) s' ((h.frame s i k (Ne.symm hk)).trans hs)

/-- Runs that take the steps of every key in the same order do not differ in what is seen. -/
theorem view_eq (h : Local step answer key view) {is js : List ι} (hk : ∀ k, ofKey key k is = ofKey key k js) (s : σ) (k : κ) :
    view (run step s is) k = view (run step s js) k := by
  rw [h.view_run k is s s rfl, h.view_run k js s s rfl, hk k]

/-- Nor in what the steps of a key are answered. -/
theorem answers_eq (h : Local step answer key view) {is js : List ι} (hk : ∀ k, ofKey key k is = ofKey key k js) (s : σ) (k : κ) :
    (answers step answer s is).filter (fun a => key a.1 = k) = (answers step answer s js).filter fun a => key a.1 = k := by
  rw [h.answers_run k is s s rfl, h.answers_run k js s s rfl, hk k]

/-- From states that look alike at every key, runs are answered alike. -/
theorem answers_of_view (h : Local step answer key view) {s s' : σ} (hv : ∀ k, view s k = view s' k) :
    ∀ is : List ι, answers step answer s is = answers step answer s' is := by
  intro is
  induction is generalizing s s' with
  | nil => rfl
  | cons i is ih =>
    have hstep : ∀ k, view (step s i) k = view (step s' i) k := by
      intro k
      by_cases hk : k = key i
      · subst hk
        exact h.step s s' i (hv _)
      · rw [h.frame s i k hk, h.frame s' i k hk, hv k]
    rw [answers, answers, h.answer s s' i (hv _), ih hstep]

end Local
end Runs
