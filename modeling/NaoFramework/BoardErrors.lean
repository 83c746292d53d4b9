import NaoFramework.BoardCalls
/-!
# BoardErrors — what a registration tells its caller

A module passes the address of an error variable, tests the variable, and keeps the function it was given.  A
registration accepts and leaves the variable alone, or rejects, writes its error and changes nothing (`Speaks`); only
`registerGlobalRequire` hands a rejection of `registerRequire` on without passing it the variable (`reports_exact_iff`).
-/
namespace NaoFramework
namespace Comm

variable {Ty : Type} {Val : Ty → Type}

/-- **A registration speaks**: whatever variable it is given it accepts, or rejects with one error, or throws. -/
def Speaks {F : Type} (b : Blackboard Val) (r : Option RegistrationError → Registration Val F) : Prop :=
  (∃ f b', ∀ e, r e = accept f e b') ∨ (∃ err, err ≠ .none ∧ ∀ e, r e = reject err e b) ∨ ∀ e, r e = throwOutOfRange e b

theorem Speaks.map {F G : Type} {b : Blackboard Val} {r : Option RegistrationError → Registration Val F}
    (h : Speaks b r) (g : F → G) : Speaks b fun e => (r e).map g := by
  rcases h with ⟨f, b', h⟩ | ⟨err, hne, h⟩ | h
  · exact Or.inl ⟨g f, b', fun e => by simp only [h]; rfl⟩
  · exact Or.inr (Or.inl ⟨err, hne, fun e => by simp only [h]; rfl⟩)
  · exact Or.inr (Or.inr fun e => by simp only [h]; rfl)

namespace Blackboard

variable [DecidableEq Ty] {b : Blackboard Val}

/-- Whatever the caller's variable holds, it holds `err` after the call. -/
def WritesError (b : Blackboard Val) (c : Call Val) (err : RegistrationError) : Prop :=
  ∀ e, (b.register (some e) c).e = some err

/-- **Rejections are reported and have no effect**, `e` being what the caller's variable holds. -/
structure Reports (b : Blackboard Val) (c : Call Val) : Prop where
  empty_iff : ∀ e, (b.register (some e) c).result = .ok none ↔ ∃ err, err ≠ .none ∧ b.WritesError c err
  rejected : ∀ e, (b.register (some e) c).result = .ok none → (b.register (some e) c).board = b
  accepted : ∀ e f, (b.register (some e) c).result = .ok (some f) → (b.register (some e) c).e = some e

theorem reports_of_speaks {c : Call Val} (h : Speaks b fun e => b.register e c) : b.Reports c := by
  have hkept : (∀ e, (b.register (some e) c).e = some e) → ¬ ∃ err, err ≠ .none ∧ b.WritesError c err := by
    rintro hk ⟨err, hne, hw⟩
    exact hne (Option.some.inj ((hw .none).symm.trans (hk .none)))
  unfold Speaks at h
  beta_reduce at h
  rcases h with ⟨f, b', h⟩ | ⟨err, hne, h⟩ | h
  · refine ⟨fun e => iff_of_false (fun hr => ?_) (hkept fun e => by rw [h]; rfl), fun e hr => ?_, fun e g _ => by rw [h]; rfl⟩
    · rw [h] at hr; cases hr
    · rw [h] at hr; cases hr
  · refine ⟨fun e => iff_of_true (by rw [h]; rfl) ⟨err, hne, fun e => by rw [h]; rfl⟩, fun e _ => by rw [h]; rfl, fun e f hr => ?_⟩
    rw [h] at hr; cases hr
  · refine ⟨fun e => iff_of_false (fun hr => ?_) (hkept fun e => by rw [h]; rfl), fun e _ => by rw [h]; rfl, fun e f hr => ?_⟩
    · rw [h] at hr; cases hr
    · rw [h] at hr; cases hr

/-! ## The four registrations -/

theorem registerRequire_speaks (b : Blackboard Val) (T : Ty) (k : String) : Speaks b (b.registerRequire T k) := by
  by_cases hk : k ∈ b.board
  · cases hc : b.typeCheck.lookup k with
    | none => exact Or.inr (Or.inr fun e => by simp only [registerRequire, if_pos hk, hc])
    | some p =>
      obtain ⟨st, U⟩ := p
      by_cases hT : T = U
      · exact Or.inl ⟨_, _, fun e => by
          simp only [registerRequire, if_pos hk, hc, hT, ne_eq, not_true, if_false]; rfl⟩
      · exact Or.inr (Or.inl ⟨.wrongType, by decide, fun e => by
          simp only [registerRequire, if_pos hk, hc, ne_eq, hT, not_false_eq_true, if_true]⟩)
  · exact Or.inl ⟨_, _, fun e => by simp only [registerRequire, if_neg hk]; rfl⟩

omit [DecidableEq Ty] in
theorem registerProvide_speaks (b : Blackboard Val) (T : Ty) (k : String) : Speaks b (b.registerProvide T k) := by
  by_cases hk : k ∈ b.board
  · cases hc : b.typeCheck.lookup k with
    | none => exact Or.inr (Or.inr fun e => by simp only [registerProvide, if_pos hk, hc])
    | some p =>
      obtain ⟨st, U⟩ := p
      cases st with
      | requested =>
        exact Or.inr (Or.inl ⟨.requested, by decide, fun e => by simp only [registerProvide, if_pos hk, hc]⟩)
      | globalProvided =>
        exact Or.inr (Or.inl ⟨.globallyProvided, by decide, fun e => by simp only [registerProvide, if_pos hk, hc]⟩)
      | provided => exact Or.inl ⟨_, _, fun e => by simp only [registerProvide, if_pos hk, hc]; rfl⟩
  · exact Or.inl ⟨_, _, fun e => by simp only [registerProvide, if_neg hk]; rfl⟩

theorem registerGlobalProvide_speaks (b : Blackboard Val) (T : Ty) (k : String) (v : Val T) :
    Speaks b (b.registerGlobalProvide T k v) := by
  by_cases hk : k ∈ b.board
  · cases hc : b.typeCheck.lookup k with
    | none => exact Or.inr (Or.inr fun e => by simp only [registerGlobalProvide, if_pos hk, hc])
    | some p =>
      obtain ⟨st, U⟩ := p
      cases st with
      | provided =>
        exact Or.inr (Or.inl ⟨.locallyProvided, by decide, fun e => by
          simp only [registerGlobalProvide, if_pos hk, hc]⟩)
      | globalProvided =>
        exact Or.inr (Or.inl ⟨.globallyProvided, by decide, fun e => by
          simp only [registerGlobalProvide, if_pos hk, hc]⟩)
      | requested =>
        by_cases hT : T = U
        · exact Or.inl ⟨_, _, fun e => by
            simp only [registerGlobalProvide, if_pos hk, hc, hT, ne_eq, not_true, if_false]; rfl⟩
        · exact Or.inr (Or.inl ⟨.wrongType, by decide, fun e => by
            simp only [registerGlobalProvide, if_pos hk, hc, ne_eq, hT, not_false_eq_true, if_true]⟩)
  · exact Or.inl ⟨_, _, fun e => by simp only [registerGlobalProvide, if_neg hk]; rfl⟩

/-- A global request on a key in `board_` that is not provided locally, and has another type. -/
def SilentlyRejects (b : Blackboard Val) : Call Val → Prop
  | .globalRequire T k => k ∈ b.board ∧ ∃ st U, b.typeCheck.lookup k = some (st, U) ∧ st ≠ .provided ∧ T ≠ U
  | _ => False

/-- A silent rejection is one of `registerRequire`, without its error. -/
theorem register_of_silent {c : Call Val} (h : b.SilentlyRejects c) (e : Option RegistrationError) :
    b.register e c = ⟨.ok none, e, b⟩ := by
  cases c with
  | require T k | provide T k | globalProvide T k v => cases h
  | globalRequire T k =>
    obtain ⟨hk, st, U, hc, hst, hT⟩ := h
    have hr : b.registerRequire T k none = reject .wrongType none b := by
      simp only [registerRequire, if_pos hk, hc, ne_eq, hT, not_false_eq_true, if_true]
    cases st with
    | provided => exact absurd rfl hst
    | requested | globalProvided =>
      simp only [register, registerGlobalRequire, if_pos hk, hc, hr]
      rfl

theorem registerGlobalRequire_speaks (b : Blackboard Val) (T : Ty) (k : String)
    (h : ¬ b.SilentlyRejects (.globalRequire T k)) : Speaks b (b.registerGlobalRequire T k) := by
  by_cases hk : k ∈ b.board
  · cases hc : b.typeCheck.lookup k with
    | none => exact Or.inr (Or.inr fun e => by simp only [registerGlobalRequire, if_pos hk, hc])
    | some p =>
      obtain ⟨st, U⟩ := p
      by_cases hst : st = .provided
      · subst hst
        exact Or.inr (Or.inl ⟨.locallyProvided, by decide, fun e => by
          simp only [registerGlobalRequire, if_pos hk, hc]⟩)
      · have hT : T = U := by
          by_contra hT
          exact h ⟨hk, st, U, hc, hst, hT⟩
        have hr : b.registerRequire T k none = accept (makeRequireFunction T k) none b := by
          simp only [registerRequire, if_pos hk, hc, hT, ne_eq, not_true, if_false]
        refine Or.inl ⟨makeRequireFunction T k, b, fun e => ?_⟩
        cases st with
        | provided => exact absurd rfl hst
        | requested | globalProvided => simp only [registerGlobalRequire, if_pos hk, hc, hr]; rfl
  · have hr : b.registerRequire T k none =
        accept (makeRequireFunction T k) none { b with typeCheck := b.typeCheck.emplace k (.requested, T) } := by
      simp only [registerRequire, if_neg hk]
    exact Or.inl ⟨_, _, fun e => by simp only [registerGlobalRequire, if_neg hk, hr]; rfl⟩

theorem register_speaks (b : Blackboard Val) (c : Call Val) (h : ¬ b.SilentlyRejects c) :
    Speaks b fun e => b.register e c := by
  cases c with
  | require T k => exact (registerRequire_speaks b T k).map _
  | provide T k => exact (registerProvide_speaks b T k).map _
  | globalRequire T k => exact (registerGlobalRequire_speaks b T k h).map _
  | globalProvide T k v => exact (registerGlobalProvide_speaks b T k v).map _

/-- **Where a caller learns of a rejection**: in every state of a Blackboard and of every call, exactly unless it is a
global request on a key in `board_` that is not provided locally, and has another type. -/
theorem reports_exact_iff (b : Blackboard Val) (c : Call Val) : b.Reports c ↔ ¬ b.SilentlyRejects c := by
  constructor
  · intro h hs
    obtain ⟨err, hne, hw⟩ := (h.empty_iff .none).1 (by rw [register_of_silent hs])
    have := hw .none
    rw [register_of_silent hs] at this
    exact hne (Option.some.inj this).symm
  · exact fun h => reports_of_speaks (register_speaks b c h)

/-- A key is provided globally, and then requested globally with another type. -/
theorem rejection_not_reported :
    ¬ ((Blackboard.new "wave").registerAll ([.globalProvide .int "test" (0 : Int)] : List (Call Plain.Value))).Reports
      (.globalRequire .bool "test") := by
  intro h
  obtain ⟨err, hne, hw⟩ := (h.empty_iff .none).1 rfl
  exact hne (Option.some.inj (hw .none)).symm

end Blackboard
end Comm
end NaoFramework
