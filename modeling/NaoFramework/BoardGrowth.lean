import NaoFramework.BoardFlow
import NaoFramework.BoardSession
/-!
# BoardGrowth — what a Blackboard keeps while many modules use it

A Blackboard that keeps what the pasts of its keys say (`Coherent`) goes on doing so through registrations and accessor
calls, and neither takes a key out of `board_` or `typeCheck_` (`Grows`): an accessor stays good for ever once it is
(`Backs`).
-/
namespace NaoFramework
namespace Comm

variable {Ty : Type} {Val : Ty → Type}

namespace Blackboard

/-- The Blackboard keeps, of every key, what some past of the key says. -/
def Coherent (b : Blackboard Val) : Prop := ∃ past, Recalls b past

/-- What the accessor presupposes holds: a request left an entry in `typeCheck_`, a provision one in `board_`. -/
def Backs (b : Blackboard Val) : Accessor Ty → Prop
  | .require _ f => f.key ∈ b.typeCheck
  | .provide _ f => f.key ∈ b.board

structure Grows (b b' : Blackboard Val) : Prop where
  typeCheck : ∀ k ∈ b.typeCheck, k ∈ b'.typeCheck
  board : ∀ k ∈ b.board, k ∈ b'.board

theorem Grows.refl (b : Blackboard Val) : b.Grows b := ⟨fun _ h => h, fun _ h => h⟩

theorem Grows.trans {b₁ b₂ b₃ : Blackboard Val} (h : b₁.Grows b₂) (h' : b₂.Grows b₃) : b₁.Grows b₃ :=
  ⟨fun k hk => h'.typeCheck k (h.typeCheck k hk), fun k hk => h'.board k (h.board k hk)⟩

theorem Grows.backs {b b' : Blackboard Val} (h : b.Grows b') {a : Accessor Ty} (ha : b.Backs a) : b'.Backs a := by
  cases a with
  | require T f => exact h.typeCheck _ ha
  | provide T f => exact h.board _ ha

theorem coherent_new (name : String) : (new name : Blackboard Val).Coherent := ⟨_, Recalls.new name⟩

theorem mem_typeCheck {b : Blackboard Val} {past : String → KeyPast Ty} (h : Recalls b past) (k : String) :
    k ∈ b.typeCheck ↔ past k ≠ .fresh := by
  rw [← AList.lookup_isSome, h.check k, Option.isSome_iff_ne_none, ne_eq, KeyPast.check_eq_none]

variable {b : Blackboard Val}

/-- **An accessor call changes no set of keys.** -/
theorem Coherent.perform (h : b.Coherent) {a : AccessorCall Val} (ha : b.Backs a.accessor) :
    (b.perform a).Coherent ∧ b.Grows (b.perform a) := by
  cases a with
  | require T k => exact ⟨h, .refl b⟩
  | provide T k v =>
    obtain ⟨past, h⟩ := h
    have hm := mem_board_call (makeProvideFunction T k) v b ha
    exact ⟨⟨past, h.call _ v ((h.onBoard _).1 ha)⟩, fun k hk => hk, fun k hk => (hm k).2 hk⟩

/-- **Validation backs every request by an entry in `board_`.** -/
theorem Coherent.mem_of_validated (h : b.Coherent) (hv : b.validateGlobals = true) {T : Ty} {f : RequireFunction T}
    (hf : b.Backs (.require T f)) : f.key ∈ b.board := by
  obtain ⟨past, h⟩ := h
  obtain ⟨⟨s, U⟩, hx⟩ := UnorderedMap.exists_lookup hf
  have hs := (validateGlobals_iff b).1 hv _ s U hx
  rw [h.check] at hx
  exact (h.onBoard _).2 (KeyPast.onBoard_of_check hx hs)

theorem name_perform (b : Blackboard Val) (a : AccessorCall Val) : (b.perform a).name = b.name := by
  cases a <;> rfl

variable [DecidableEq Ty]

/-- A registration keeps the Blackboard's name. -/
theorem name_register (b : Blackboard Val) (e : Option RegistrationError) (c : Call Val) :
    (b.register e c).board.name = b.name := by
  have hr : ∀ T k e, (b.registerRequire T k e).board.name = b.name := by
    intro T k e
    unfold registerRequire
    repeat' split
    all_goals rfl
  cases c with
  | require T k => exact hr T k e
  | provide T k =>
    simp only [register, Registration.map, registerProvide]
    repeat' split
    all_goals rfl
  | globalRequire T k =>
    simp only [register, Registration.map, registerGlobalRequire]
    repeat' split
    all_goals first | rfl | exact hr T k none
  | globalProvide T k v =>
    simp only [register, Registration.map, registerGlobalProvide]
    repeat' split
    all_goals rfl

/-- **A registration keeps everything**, and backs the accessor it hands out. -/
theorem Coherent.register (h : b.Coherent) (e : Option RegistrationError) (c : Call Val) :
    (b.register e c).board.Coherent ∧ b.Grows (b.register e c).board ∧
      ∀ a ∈ (b.register e c).returned, (b.register e c).board.Backs a := by
  obtain ⟨past, h⟩ := h
  obtain ⟨hr, hrec⟩ := register_spec h e c
  refine ⟨⟨_, hrec⟩, ⟨fun k hk => ?_, fun k hk => ?_⟩, fun a ha => ?_⟩
  · rw [mem_typeCheck h] at hk
    rw [mem_typeCheck hrec, Function.update_apply]
    split
    · exact KeyPast.next_ne_fresh _ c
    · exact hk
  · rw [h.onBoard] at hk
    rw [hrec.onBoard, Function.update_apply]
    split
    · rename_i e
      exact KeyPast.onBoard_next _ c (e ▸ hk)
    · exact hk
  · have hb := backed_accessor past c
    simp only [Registration.returned, hr] at ha
    split at ha
    · rename_i a' ha'
      obtain rfl := List.mem_singleton.1 ha
      obtain rfl : c.accessor = a := by
        cases hacc : (past c.key).accepts c <;> simp [hacc] at ha'
        exact ha'
      cases hca : c.accessor with
      | require T f => rw [hca] at hb; exact (mem_typeCheck hrec _).2 hb
      | provide T f => rw [hca] at hb; exact (hrec.onBoard _).2 hb
    · cases ha

/-- **What a registration puts on `board_`**: its key, when it is a provision. -/
theorem Coherent.mem_board_register (h : b.Coherent) (e : Option RegistrationError) (c : Call Val) (k : String) :
    k ∈ (b.register e c).board.board ↔ k ∈ b.board ∨ (c.key = k ∧ c.isProvision = true) := by
  obtain ⟨past, h⟩ := h
  obtain ⟨-, hrec⟩ := register_spec h e c
  rw [hrec.onBoard, h.onBoard, Function.update_apply]
  by_cases hk : k = c.key
  · subst hk
    simp [KeyPast.onBoard_next_iff]
  · simp [hk, Ne.symm hk]

/-- A call on a key that is not in `board_` is accepted. -/
theorem Coherent.returned_of_not_mem (h : b.Coherent) (e : Option RegistrationError) (c : Call Val)
    (hk : c.key ∉ b.board) : (b.register e c).returned = [c.accessor] := by
  obtain ⟨past, h⟩ := h
  obtain ⟨hr, -⟩ := register_spec h e c
  rw [h.onBoard] at hk
  have ha : (past c.key).accepts c = true := by
    cases hx : past c.key <;> rw [hx] at hk <;> first | rfl | exact absurd rfl hk
  simp [Registration.returned, hr, ha]

theorem Coherent.eq_of_mem_returned (h : b.Coherent) (e : Option RegistrationError) (c : Call Val) {a : Accessor Ty}
    (ha : a ∈ (b.register e c).returned) : a = c.accessor := by
  obtain ⟨past, h⟩ := h
  obtain ⟨hr, -⟩ := register_spec h e c
  cases hacc : (past c.key).accepts c <;> simp [Registration.returned, hr, hacc] at ha
  exact ha

end Blackboard

end Comm
end NaoFramework
