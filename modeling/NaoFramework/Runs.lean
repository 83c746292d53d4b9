import Mathlib.Data.List.Induction
/-!
# Runs — a step function folded over its inputs

A run takes the inputs of a list one after another.  A law about a run is either an invariant of the states it goes
through (`run_invariant`) or a property of every input *in the place where it is taken* (`AtEvery`), and the two ways
such properties are related are stated here once: a guarded invariant (`run_invariant_of_atEvery`), and the exactness
rule `atEvery_congr` — two properties that agree wherever everything before was in order agree on the whole run.
-/
namespace Runs

variable {σ ι : Type*}

/-- The state after the inputs of a list. -/
def run (step : σ → ι → σ) (s : σ) (is : List ι) : σ := is.foldl step s

theorem run_append (step : σ → ι → σ) (s : σ) (is js : List ι) :
    run step s (is ++ js) = run step (run step s is) js := List.foldl_append

@[simp] theorem run_snoc (step : σ → ι → σ) (s : σ) (is : List ι) (i : ι) :
    run step s (is ++ [i]) = step (run step s is) i := by
  rw [run_append]; rfl

/-- **What every step preserves, every run preserves.** -/
theorem run_invariant {step : σ → ι → σ} {Inv : σ → Prop} (hstep : ∀ s i, Inv s → Inv (step s i)) :
    ∀ (is : List ι) (s : σ), Inv s → Inv (run step s is)
  | [], _, h => h
  | i :: is, s, h => run_invariant hstep is (step s i) (hstep s i h)

/-! ## Steps that may not be possible -/

/-- The state after the inputs of a list, if each is possible where it is taken. -/
def runPossible (step : σ → ι → Option σ) : σ → List ι → Option σ
  | s, [] => some s
  | s, i :: is => (step s i).bind (runPossible step · is)

theorem runPossible_invariant {step : σ → ι → Option σ} {Inv : σ → Prop}
    (hstep : ∀ s i s', Inv s → step s i = some s' → Inv s') :
    ∀ (is : List ι) (s s' : σ), Inv s → runPossible step s is = some s' → Inv s'
  | [], s, s', h, hr => by
    obtain rfl := Option.some.inj hr
    exact h
  | i :: is, s, s', h, hr => by
    obtain ⟨t, ht, hr⟩ := Option.bind_eq_some_iff.1 hr
    exact runPossible_invariant hstep is t s' (hstep s i t h ht) hr

/-! ## Every input, in its place -/

/-- `P pre i` for every input `i` of the list, `pre` being the inputs before it. -/
def AtEvery (P : List ι → ι → Prop) (is : List ι) : Prop :=
  ∀ pre i post, is = pre ++ i :: post → P pre i

theorem atEvery_nil (P : List ι → ι → Prop) : AtEvery P [] :=
  fun pre i post h => by cases pre <;> cases h

theorem atEvery_snoc {P : List ι → ι → Prop} {is : List ι} {i : ι} :
    AtEvery P (is ++ [i]) ↔ AtEvery P is ∧ P is i := by
  constructor
  · intro h
    refine ⟨fun pre j post hs => h pre j (post ++ [i]) (by rw [hs]; simp), h is i [] rfl⟩
  · rintro ⟨h, hi⟩ pre j post hs
    rcases List.eq_nil_or_concat post with rfl | ⟨post', k, rfl⟩
    · obtain ⟨rfl, hj⟩ := List.append_inj' hs rfl
      simp only [List.cons.injEq, and_true] at hj
      exact hj ▸ hi
    · rw [List.concat_eq_append, ← List.cons_append, ← List.append_assoc] at hs
      exact h pre j post' (List.append_inj' hs rfl).1

theorem atEvery_cons {P : List ι → ι → Prop} {i : ι} {is : List ι} :
    AtEvery P (i :: is) ↔ P [] i ∧ AtEvery (fun pre => P (i :: pre)) is := by
  constructor
  · intro h
    exact ⟨h [] i is rfl, fun pre j post hs => h (i :: pre) j post (by rw [hs]; rfl)⟩
  · rintro ⟨hi, h⟩ pre j post hs
    cases pre with
    | nil =>
      obtain ⟨rfl, -⟩ := List.cons.inj hs
      exact hi
    | cons i' pre =>
      obtain ⟨rfl, hs'⟩ := List.cons.inj hs
      exact h pre j post hs'

theorem atEvery_append {P : List ι → ι → Prop} {is js : List ι} :
    AtEvery P (is ++ js) ↔ AtEvery P is ∧ AtEvery (fun pre => P (is ++ pre)) js := by
  induction js using List.reverseRecOn with
  | nil => simp [atEvery_nil]
  | append_singleton js j ih => rw [← List.append_assoc, atEvery_snoc, atEvery_snoc, ih, and_assoc]

theorem AtEvery.of_append {P : List ι → ι → Prop} {is js : List ι} (h : AtEvery P (is ++ js)) : AtEvery P is :=
  fun pre i post hs => h pre i (post ++ js) (by rw [hs]; simp)

theorem AtEvery.and {P Q : List ι → ι → Prop} {is : List ι} (h : AtEvery P is) (h' : AtEvery Q is) :
    AtEvery (fun pre i => P pre i ∧ Q pre i) is :=
  fun pre i post hs => ⟨h pre i post hs, h' pre i post hs⟩

/-- **The exactness rule.**  Where everything before an input was in order, being in order and being right are the
same for it; then a list is in order everywhere exactly when it is right everywhere.  `R` is what is known of the list
besides. -/
theorem atEvery_congr_of {P Q R : List ι → ι → Prop} {is : List ι} (hR : AtEvery R is)
    (h : ∀ pre i, AtEvery R (pre ++ [i]) → AtEvery Q pre → (P pre i ↔ Q pre i)) : AtEvery P is ↔ AtEvery Q is := by
  induction is using List.reverseRecOn with
  | nil => exact ⟨fun _ => atEvery_nil Q, fun _ => atEvery_nil P⟩
  | append_singleton is i ih =>
    rw [atEvery_snoc, atEvery_snoc, ih (atEvery_snoc.1 hR).1]
    exact and_congr_right (h is i hR)

theorem atEvery_congr {P Q : List ι → ι → Prop} {is : List ι}
    (h : ∀ pre i, AtEvery Q pre → (P pre i ↔ Q pre i)) : AtEvery P is ↔ AtEvery Q is := by
  have hR : AtEvery (fun _ _ => True) is := fun _ _ _ _ => trivial
  exact atEvery_congr_of hR fun pre i _ => h pre i

/-- **A guarded invariant**: what every step that meets its guard preserves, every run whose steps meet it preserves. -/
theorem run_invariant_of_atEvery {step : σ → ι → σ} {Inv : σ → Prop} {G : σ → ι → Prop} {s : σ} (h0 : Inv s)
    (hstep : ∀ s i, Inv s → G s i → Inv (step s i)) {is : List ι}
    (hG : AtEvery (fun pre i => G (run step s pre) i) is) : Inv (run step s is) := by
  induction is using List.reverseRecOn with
  | nil => exact h0
  | append_singleton is i ih =>
    rw [atEvery_snoc] at hG
    rw [run_snoc]
    exact hstep _ i (ih hG.1) hG.2

/-- A property of the state holds all along a run when it holds at the start and after every input. -/
theorem forall_prefix_iff {step : σ → ι → σ} {P : σ → Prop} {s : σ} {is : List ι} (h0 : P s) :
    (∀ pre post, is = pre ++ post → P (run step s pre)) ↔
      AtEvery (fun pre i => P (step (run step s pre) i)) is := by
  constructor
  · intro h pre i post hs
    have := h (pre ++ [i]) post (by rw [hs]; simp)
    rwa [run_snoc] at this
  · rintro h pre post hs
    rcases List.eq_nil_or_concat pre with rfl | ⟨pre', i, rfl⟩
    · exact h0
    · rw [List.concat_eq_append, run_snoc]
      exact h pre' i post (by rw [hs]; simp)

end Runs
