import NaoFramework.BrainKeeps
/-!
# BrainLoad — how a load may fail

`makeDynamicModule` is to throw a `std::runtime_error` whenever anything goes wrong, with the library closed again, so
that `addDynamicModule` lets nothing out.  It does whatever the library lacks, and never when the module's constructor
throws: what its handler catches by value it rethrows as a plain `std::exception`, and what is no `std::exception` passes
it by (`load_exact_iff`).
-/
namespace NaoFramework
namespace Core
namespace Brain

open Modules (Thrown Construction Library LoaderEvent constructionOf)

variable {Ty : Type} {Val : Ty → Type} [DecidableEq Ty]

/-- **What is promised of a load**: only a `std::runtime_error` is thrown; a library that was opened and is not wrapped
is closed exactly once; and the command returns 0 or 1. -/
structure LoadsSafely (b : Brain Val) (file : String) (found : Except String (Library Val)) : Prop where
  throws : ∀ own t, (makeDynamicModule own b file found).1 = .error t → ∃ what, t = .runtimeError what
  closes : ∀ own t, (makeDynamicModule own b file found).1 = .error t →
    (makeDynamicModule own b file found).2.loader =
      b.loader ++ if found.isOk then [.opened file, .closed file] else []
  returns : ∀ command wave more, ∃ code, (code = 0 ∨ code = 1) ∧
    (b.addDynamicModule (command :: wave :: file :: more) found).1 = .returned code

omit [DecidableEq Ty] in
theorem constructionOf_eq_some {found : Except String (Library Val)} {c : Construction Val}
    (h : constructionOf found = some c) : found = .ok ⟨.ok c, .ok ()⟩ := by
  match found with
  | .error message | .ok ⟨.error message, dump⟩ | .ok ⟨.ok c', .error message⟩ => cases h
  | .ok ⟨.ok c', .ok ()⟩ => rw [Option.some.inj h]

/-- The library opens, has both symbols, and the module's constructor throws. -/
def ConstructorThrows (found : Except String (Library Val)) : Prop :=
  ∃ c t, constructionOf found = some c ∧ c.ending = .error t

/-- **A constructor's exception is never a `std::runtime_error` when it leaves.** -/
theorem makeDynamicModule_of_throws {found : Except String (Library Val)} {c : Construction Val} {t : Thrown}
    (hc : constructionOf found = some c) (ht : c.ending = .error t) (own : Nat) (b : Brain Val) (file : String) :
    (makeDynamicModule own b file found).1 = .error (t.asException.getD t) ∧
      ∀ what, t.asException.getD t ≠ .runtimeError what := by
  rw [constructionOf_eq_some hc]
  simp only [makeDynamicModule, ht]
  cases t <;> exact ⟨rfl, fun what h => by cases h⟩

/-- What fails before the constructor runs throws a `std::runtime_error`, and closes what was opened. -/
theorem makeDynamicModule_of_refused {found : Except String (Library Val)} (hc : constructionOf found = none) (own : Nat)
    (b : Brain Val) (file : String) :
    (∃ what, (makeDynamicModule own b file found).1 = .error (.runtimeError what)) ∧
      (makeDynamicModule own b file found).2.loader =
        b.loader ++ if found.isOk then [.opened file, .closed file] else [] := by
  match found with
  | .error message => exact ⟨⟨message, rfl⟩, (List.append_nil _).symm⟩
  | .ok ⟨.error message, dump⟩ | .ok ⟨.ok c, .error message⟩ =>
    exact ⟨⟨message, rfl⟩, by simp [makeDynamicModule, logEvent, Except.isOk, Except.toBool]⟩
  | .ok ⟨.ok c, .ok ()⟩ => cases hc

/-- **Where a load fails as it is to**: exactly unless a constructor throws; `b` is a Brain after any inputs. -/
theorem load_exact_iff (inputs : List (Input Val)) (file : String) (found : Except String (Library Val)) :
    LoadsSafely (after inputs) file found ↔ ¬ ConstructorThrows found := by
  constructor
  · rintro h ⟨c, t, hc, ht⟩
    obtain ⟨he, hne⟩ := makeDynamicModule_of_throws hc ht 0 (after inputs) file
    obtain ⟨what, hw⟩ := h.throws 0 _ he
    exact hne what hw
  · intro h
    have hcases : ∀ own t, (makeDynamicModule own (after inputs) file found).1 = .error t →
        constructionOf found = none := by
      intro own t he
      cases hc : constructionOf found with
      | none => rfl
      | some c =>
        cases ht : c.ending with
        | error t' => exact absurd ⟨c, t', hc, ht⟩ h
        | ok name =>
          rw [constructionOf_eq_some hc] at he
          simp only [makeDynamicModule, ht, reduceCtorEq] at he
    refine ⟨fun own t he => ?_, fun own t he => ?_, fun command wave more => ?_⟩
    · obtain ⟨⟨what, hw⟩, -⟩ := makeDynamicModule_of_refused (hcases own t he) own (after inputs) file
      exact ⟨what, Except.error.inj (he.symm.trans hw)⟩
    · exact (makeDynamicModule_of_refused (hcases own t he) own (after inputs) file).2
    · have hr := addDynamicModule_result (after_inv inputs) (command :: wave :: file :: more) found
      generalize (after inputs).addDynamicModule (command :: wave :: file :: more) found = r at hr ⊢
      cases hr with
      | unusable => exact ⟨1, Or.inr rfl, rfl⟩
      | refused => exact ⟨1, Or.inr rfl, rfl⟩
      | threw _ _ _ _ w own c t hw hc ht => exact absurd ⟨c, t, hc, ht⟩ h
      | loaded => exact ⟨0, Or.inl rfl, rfl⟩

/-- A constructor throws a `std::runtime_error`: a `std::exception` leaves `addDynamicModule`. -/
theorem load_not_safe :
    ¬ LoadsSafely (after [.command (.createWave ["createWave", "wave"])] : Brain Comm.Plain.Value) "Writer.so"
      (.ok ⟨.ok ⟨[.provide .int "test"], .error (.runtimeError "no data")⟩, .ok ()⟩) := by
  intro h
  obtain ⟨code, -, hr⟩ := h.returns "addDynamicModule" "wave" []
  have hthrew : ((after [.command (.createWave ["createWave", "wave"])] : Brain Comm.Plain.Value).addDynamicModule
      ["addDynamicModule", "wave", "Writer.so"]
      (.ok ⟨.ok ⟨[.provide .int "test"], .error (.runtimeError "no data")⟩, .ok ()⟩)).1 =
        .threw (.exception "std::exception") := rfl
  rw [hthrew] at hr
  cases hr

end Brain
end Core
end NaoFramework
