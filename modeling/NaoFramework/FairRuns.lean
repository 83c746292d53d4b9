import NaoFramework.Runs
import Mathlib.Order.WellFounded
import Mathlib.Order.RelClasses
/-!
# FairRuns — infinite runs that are fair, and what they reach

At every moment an infinite run takes an input that is possible, or pauses.  It is fair to an input if it takes it some
time when the input stays possible.  To show that a fair run reaches something it is enough to name, in every state, an
input that helps (`Helpful`): taking it gets nearer, and whatever else is taken gets nearer too or leaves it the one that
helps (`FairRun.eventually`).
-/
namespace Runs

variable {σ ι α : Type*}

/-- An infinite run, `none` being a pause, that is fair to some of the inputs. -/
structure FairRun (step : σ → ι → Option σ) (fair : ι → Prop) (states : ℕ → σ) (inputs : ℕ → Option ι) : Prop where
  taken : ∀ n i, inputs n = some i → step (states n) i = some (states (n + 1))
  paused : ∀ n, inputs n = none → states (n + 1) = states n
  fair : ∀ i, fair i → ∀ n, (∀ m, n ≤ m → (step (states m) i).isSome) → ∃ m, n ≤ m ∧ inputs m = some i

/-- An input that helps to reach the goal, in every state that is not there yet. -/
structure Helpful [LT α] (step : σ → ι → Option σ) (fair : ι → Prop) (Inv Goal : σ → Prop) (rank : σ → α) (help : σ → ι) :
    Prop where
  fair : ∀ s, Inv s → ¬ Goal s → fair (help s)
  possible : ∀ s, Inv s → ¬ Goal s → (step s (help s)).isSome
  helps : ∀ s s', Inv s → ¬ Goal s → step s (help s) = some s' → rank s' < rank s
  keeps : ∀ s i s', Inv s → ¬ Goal s → step s i = some s' → rank s' < rank s ∨ (rank s' = rank s ∧ help s' = help s)

variable {step : σ → ι → Option σ} {fair : ι → Prop} {states : ℕ → σ} {inputs : ℕ → Option ι}

/-- What every step preserves holds all along. -/
theorem FairRun.invariant (h : FairRun step fair states inputs) {Inv : σ → Prop}
    (hstep : ∀ s i s', Inv s → step s i = some s' → Inv s') (h0 : Inv (states 0)) (n : ℕ) : Inv (states n) := by
  induction n with
  | zero => exact h0
  | succ n ih =>
    cases hi : inputs n with
    | none =>
      rw [h.paused n hi]
      exact ih
    | some i => exact hstep _ i _ ih (h.taken n i hi)

/-- **A fair run gets where there is always an input that helps.** -/
theorem FairRun.eventually [LT α] [WellFoundedLT α] (h : FairRun step fair states inputs) {Inv Goal : σ → Prop}
    {rank : σ → α} {help : σ → ι} (hh : Helpful step fair Inv Goal rank help) (hi : ∀ n, Inv (states n)) (n : ℕ) :
    ∃ m, n ≤ m ∧ Goal (states m) := by
  -- by induction on the rank: until it falls the same input helps, and it is taken
  induction hr : rank (states n) using WellFoundedLT.induction generalizing n with
  | ind r ih =>
    by_contra hno
    have hnot : ∀ m, n ≤ m → ¬ Goal (states m) := fun m hm hg => hno ⟨m, hm, hg⟩
    have hfall : ∀ m, n ≤ m → ¬ rank (states m) < r := by
      intro m hm hlt
      obtain ⟨m', hm', hg⟩ := ih _ hlt m rfl
      exact hnot m' (Nat.le_trans hm hm') hg
    have hsame : ∀ m, n ≤ m → rank (states m) = r ∧ help (states m) = help (states n) := by
      intro m hm
      induction m, hm using Nat.le_induction with
      | base => exact ⟨hr, rfl⟩
      | succ m hm ihm =>
        cases him : inputs m with
        | none =>
          rw [h.paused m him]
          exact ihm
        | some i =>
          rcases hh.keeps _ i _ (hi m) (hnot m hm) (h.taken m i him) with hlt | ⟨hrank, hhelp⟩
          · rw [ihm.1] at hlt
            exact absurd hlt (hfall (m + 1) (Nat.le_succ_of_le hm))
          · exact ⟨hrank.trans ihm.1, hhelp.trans ihm.2⟩
    obtain ⟨m, hm, him⟩ := h.fair (help (states n)) (hh.fair _ (hi n) (hnot n (Nat.le_refl n))) n fun m hm => by
      rw [← (hsame m hm).2]
      exact hh.possible _ (hi m) (hnot m hm)
    have hlt := hh.helps _ _ (hi m) (hnot m hm) ((hsame m hm).2 ▸ h.taken m _ him)
    rw [(hsame m hm).1] at hlt
    exact hfall (m + 1) (Nat.le_succ_of_le hm) hlt

end Runs
