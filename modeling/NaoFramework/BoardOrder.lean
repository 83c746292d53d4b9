import NaoFramework.BoardFlow
import NaoFramework.KeyedRuns
/-!
# BoardOrder — keys are independent

A call of an accessor locks the entry of its key, and no more.  That is enough because keys are independent: what a
registration or a call of an accessor does concerns its key, and what it answers depends on nothing else (`board_local`).
So two orders of the registrations and calls of a Blackboard in which those of every key come in the same order make the
same Blackboard, and give every one of them the same answer (`orders_agree`).
-/
namespace NaoFramework
namespace Comm

variable {Ty : Type} {Val : Ty → Type}

/-- A registration, with what the error pointer points to, or a call of an accessor. -/
inductive Action (Val : Ty → Type) where
  | register (e : Option RegistrationError) (c : Call Val)
  | call (a : AccessorCall Val)

def Action.key : Action Val → String
  | register _ c => c.key
  | call a => a.key

/-- What it answers: the accessor or what was thrown, with the error; the value that was read; or nothing. -/
inductive Answer (Val : Ty → Type) where
  | registered (result : Except AccessError (Option (Accessor Ty))) (e : Option RegistrationError)
  | read (result : Except AccessError (Sigma Val))
  | wrote

/-- What is seen of a Blackboard at a key. -/
def Blackboard.view (b : Blackboard Val) (k : String) : Option (Any Val) × Option (TypeState × Ty) :=
  (b.board.lookup k, b.typeCheck.lookup k)

variable [DecidableEq Ty]

def Blackboard.act (b : Blackboard Val) : Action Val → Blackboard Val
  | .register e c => (b.register e c).board
  | .call a => b.perform a

def Blackboard.answer (b : Blackboard Val) : Action Val → Answer Val
  | .register e c => .registered (b.register e c).result (b.register e c).e
  | .call (.require T k) => .read (((makeRequireFunction T k).call b).map (⟨T, ·⟩))
  | .call (.provide ..) => .wrote

/-! ## One registration -/

/-- Two registrations answer alike, and leave the same to be seen at the key. -/
structure Registration.Alike {F : Type} (k : String) (r r' : Registration Val F) : Prop where
  result : r.result = r'.result
  e : r.e = r'.e
  view : r.board.view k = r'.board.view k

variable {b b' : Blackboard Val} {k k' : String}

omit [DecidableEq Ty] in
theorem Registration.Alike.map {F G : Type} {r r' : Registration Val F} (h : r.Alike k r') (f : F → G) :
    (r.map f).Alike k (r'.map f) :=
  ⟨congrArg (Except.map (Option.map f)) h.result, h.e, h.view⟩

namespace Blackboard

omit [DecidableEq Ty] in
theorem mem_board_of_view (h : b.view k = b'.view k) : k ∈ b.board ↔ k ∈ b'.board := by
  rw [← AList.lookup_isSome, ← AList.lookup_isSome, (Prod.mk.inj h).1]

theorem registerRequire_alike (h : b.view k = b'.view k) (T : Ty) (e : Option RegistrationError) :
    (b.registerRequire T k e).Alike k (b'.registerRequire T k e) := by
  obtain ⟨hb, ht⟩ := Prod.mk.inj h
  unfold registerRequire
  by_cases hk : k ∈ b.board
  · rw [if_pos hk, if_pos ((mem_board_of_view h).1 hk), ← ht]
    cases b.typeCheck.lookup k with
    | none => exact ⟨rfl, rfl, h⟩
    | some p =>
      simp only
      split
      · exact ⟨rfl, rfl, h⟩
      · exact ⟨rfl, rfl, h⟩
  · rw [if_neg hk, if_neg fun hk' => hk ((mem_board_of_view h).2 hk')]
    refine ⟨rfl, rfl, ?_⟩
    simp only [accept, view, UnorderedMap.lookup_emplace, hb, ht]

theorem registerRequire_frame (hk : k' ≠ k) (T : Ty) (e : Option RegistrationError) :
    (b.registerRequire T k e).board.view k' = b.view k' := by
  unfold registerRequire
  split
  · split
    · rfl
    · split <;> rfl
  · simp only [accept, view, UnorderedMap.lookup_emplace, if_neg hk]

omit [DecidableEq Ty] in
theorem registerProvide_alike (h : b.view k = b'.view k) (T : Ty) (e : Option RegistrationError) :
    (b.registerProvide T k e).Alike k (b'.registerProvide T k e) := by
  obtain ⟨hb, ht⟩ := Prod.mk.inj h
  unfold registerProvide
  by_cases hk : k ∈ b.board
  · rw [if_pos hk, if_pos ((mem_board_of_view h).1 hk), ← ht]
    cases b.typeCheck.lookup k with
    | none => exact ⟨rfl, rfl, h⟩
    | some p =>
      obtain ⟨state, type⟩ := p
      cases state with
      | requested | globalProvided => exact ⟨rfl, rfl, h⟩
      | provided =>
        refine ⟨rfl, rfl, ?_⟩
        simp only [accept, view, UnorderedMap.lookup_insert_if, if_true, hb]
  · rw [if_neg hk, if_neg fun hk' => hk ((mem_board_of_view h).2 hk')]
    refine ⟨rfl, rfl, ?_⟩
    simp only [accept, view, UnorderedMap.lookup_emplace, hb, ht]

omit [DecidableEq Ty] in
theorem registerProvide_frame (hk : k' ≠ k) (T : Ty) (e : Option RegistrationError) :
    (b.registerProvide T k e).board.view k' = b.view k' := by
  unfold registerProvide
  split
  · split
    · rfl
    · rfl
    · rfl
    · simp only [accept, view, UnorderedMap.lookup_insert_if, if_neg hk]
  · simp only [accept, view, UnorderedMap.lookup_emplace, if_neg hk]

/-- A global request that is not turned down for a local provision is a request. -/
theorem registerGlobalRequire_alike (h : b.view k = b'.view k) (T : Ty) (e : Option RegistrationError) :
    (b.registerGlobalRequire T k e).Alike k (b'.registerGlobalRequire T k e) := by
  have ht := (Prod.mk.inj h).2
  have hrequire := registerRequire_alike h T none
  unfold registerGlobalRequire
  by_cases hk : k ∈ b.board
  · rw [if_pos hk, if_pos ((mem_board_of_view h).1 hk), ← ht]
    cases b.typeCheck.lookup k with
    | none => exact ⟨rfl, rfl, h⟩
    | some p =>
      obtain ⟨state, type⟩ := p
      cases state with
      | provided => exact ⟨rfl, rfl, h⟩
      | requested | globalProvided => exact ⟨hrequire.result, rfl, hrequire.view⟩
  · rw [if_neg hk, if_neg fun hk' => hk ((mem_board_of_view h).2 hk')]
    exact ⟨hrequire.result, rfl, hrequire.view⟩

theorem registerGlobalRequire_frame (hk : k' ≠ k) (T : Ty) (e : Option RegistrationError) :
    (b.registerGlobalRequire T k e).board.view k' = b.view k' := by
  unfold registerGlobalRequire
  split
  · split
    · rfl
    · rfl
    · exact registerRequire_frame hk T none
  · exact registerRequire_frame hk T none

theorem registerGlobalProvide_alike (h : b.view k = b'.view k) (T : Ty) (v : Val T) (e : Option RegistrationError) :
    (b.registerGlobalProvide T k v e).Alike k (b'.registerGlobalProvide T k v e) := by
  obtain ⟨hb, ht⟩ := Prod.mk.inj h
  unfold registerGlobalProvide
  by_cases hk : k ∈ b.board
  · rw [if_pos hk, if_pos ((mem_board_of_view h).1 hk), ← ht]
    cases b.typeCheck.lookup k with
    | none => exact ⟨rfl, rfl, h⟩
    | some p =>
      obtain ⟨state, type⟩ := p
      cases state with
      | provided | globalProvided => exact ⟨rfl, rfl, h⟩
      | requested =>
        simp only
        split
        · exact ⟨rfl, rfl, h⟩
        · refine ⟨rfl, rfl, ?_⟩
          simp only [accept, view, UnorderedMap.lookup_insert_if, if_true]
  · rw [if_neg hk, if_neg fun hk' => hk ((mem_board_of_view h).2 hk')]
    refine ⟨rfl, rfl, ?_⟩
    simp only [accept, view, UnorderedMap.lookup_insert_if, UnorderedMap.lookup_emplace, ht]
    rfl

theorem registerGlobalProvide_frame (hk : k' ≠ k) (T : Ty) (v : Val T) (e : Option RegistrationError) :
    (b.registerGlobalProvide T k v e).board.view k' = b.view k' := by
  unfold registerGlobalProvide
  split
  · split
    · rfl
    · rfl
    · rfl
    · split
      · rfl
      · simp only [accept, view, UnorderedMap.lookup_insert_if, if_neg hk]
  · simp only [accept, view, UnorderedMap.lookup_insert_if, UnorderedMap.lookup_emplace, if_neg hk]

theorem register_alike (c : Call Val) (h : b.view c.key = b'.view c.key) (e : Option RegistrationError) :
    (b.register e c).Alike c.key (b'.register e c) := by
  cases c with
  | require T k => exact (registerRequire_alike h T e).map _
  | provide T k => exact (registerProvide_alike h T e).map _
  | globalRequire T k => exact (registerGlobalRequire_alike h T e).map _
  | globalProvide T k v => exact (registerGlobalProvide_alike h T v e).map _

theorem register_frame (c : Call Val) (hk : k ≠ c.key) (e : Option RegistrationError) :
    (b.register e c).board.view k = b.view k := by
  cases c with
  | require T k' => exact registerRequire_frame hk T e
  | provide T k' => exact registerProvide_frame hk T e
  | globalRequire T k' => exact registerGlobalRequire_frame hk T e
  | globalProvide T k' v => exact registerGlobalProvide_frame hk T v e

/-! ## Every action -/

/-- **Keys are independent.** -/
theorem board_local : Runs.Local Blackboard.act (@Blackboard.answer Ty Val _) Action.key Blackboard.view where
  frame b x k hk := by
    cases x with
    | register e c => exact register_frame c hk e
    | call a =>
      cases a with
      | require T k' => rfl
      | provide T k' v =>
        have hk' : k ≠ k' := hk
        simp only [act, perform, ProvideFunction.call, makeProvideFunction, view, UnorderedMap.lookup_insert_if, if_neg hk']
  step b b' x h := by
    cases x with
    | register e c => exact (register_alike c h e).view
    | call a =>
      cases a with
      | require T k' => exact h
      | provide T k' v =>
        have ht : b.typeCheck.lookup k' = b'.typeCheck.lookup k' := (Prod.mk.inj h).2
        simp only [act, perform, ProvideFunction.call, makeProvideFunction, view, Action.key, AccessorCall.key,
          UnorderedMap.lookup_insert_if, if_true, ht]
  answer b b' x h := by
    cases x with
    | register e c =>
      have hc := register_alike c h e
      simp only [answer, hc.result, hc.e]
    | call a =>
      cases a with
      | require T k' =>
        have hb : b.board.lookup k' = b'.board.lookup k' := (Prod.mk.inj h).1
        simp only [answer, RequireFunction.call, makeRequireFunction, hb]
      | provide T k' v => rfl

omit [DecidableEq Ty] in
theorem validateGlobals_of_view (h : ∀ k, b.view k = b'.view k) : b.validateGlobals = b'.validateGlobals := by
  rw [Bool.eq_iff_iff, validateGlobals_iff, validateGlobals_iff]
  have ht : ∀ k, b.typeCheck.lookup k = b'.typeCheck.lookup k := fun k => (Prod.mk.inj (h k)).2
  simp only [ht]

/-- **The order among different keys does not matter**: two orders of registrations and calls in which those of every key
come in the same order leave Blackboards that no further registration or call tells apart, and that validate alike; and
the registrations and calls of every key are answered alike. -/
theorem orders_agree (b : Blackboard Val) (xs ys : List (Action Val))
    (h : ∀ k, Runs.ofKey Action.key k xs = Runs.ofKey Action.key k ys) :
    (∀ k, (Runs.run act b xs).board.lookup k = (Runs.run act b ys).board.lookup k ∧
        (Runs.run act b xs).typeCheck.lookup k = (Runs.run act b ys).typeCheck.lookup k) ∧
      (Runs.run act b xs).validateGlobals = (Runs.run act b ys).validateGlobals ∧
      (∀ more, Runs.answers act answer (Runs.run act b xs) more = Runs.answers act answer (Runs.run act b ys) more) ∧
      ∀ k, (Runs.answers act answer b xs).filter (fun a => a.1.key = k) =
        (Runs.answers act answer b ys).filter fun a => a.1.key = k := by
  have hview : ∀ k, (Runs.run act b xs).view k = (Runs.run act b ys).view k := board_local.view_eq h b
  exact ⟨fun k => Prod.mk.inj (hview k), validateGlobals_of_view hview, board_local.answers_of_view hview,
    board_local.answers_eq h b⟩

/-- Two modules, each with a key of its own: the order of their registrations and calls does not matter. -/
theorem orders_agree_swapped :
    (Runs.run act (Blackboard.new "wave" : Blackboard Plain.Value)
      [.register none (.provide .int "a"), .register none (.provide .bool "b"), .call (.provide .int "a" (5 : Int)),
        .call (.require .bool "b")]).validateGlobals =
    (Runs.run act (Blackboard.new "wave" : Blackboard Plain.Value)
      [.register none (.provide .bool "b"), .call (.require .bool "b"), .register none (.provide .int "a"),
        .call (.provide .int "a" (5 : Int))]).validateGlobals := by
  refine (orders_agree _ _ _ fun k => ?_).2.1
  by_cases ha : k = "a"
  · subst ha
    rfl
  · by_cases hb : k = "b"
    · subst hb
      rfl
    · simp [Runs.ofKey, Action.key, Call.key, AccessorCall.key, Ne.symm ha, Ne.symm hb]

end Blackboard
end Comm
end NaoFramework
