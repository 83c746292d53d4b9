import NaoFramework.BoardCalls
import Mathlib.Logic.Relation
/-!
# BoardSession — registrations and accessor calls in any order

A `Session` is a blackboard together with the accessors it has handed out; a step is a registration, accepted or not,
or a call of one of these accessors.  `Session.Inv` ties `board_`, `typeCheck_` and every accessor handed out to the
pasts of the keys; every reachable session satisfies it (`reachable_inv`), and the representation invariant of the
class is read off it (`representation_invariant`).
-/
namespace NaoFramework
namespace Comm

open Relation (ReflTransGen)

variable {Ty : Type} {Val : Ty → Type} [DecidableEq Ty]

structure Session (Val : Ty → Type) where
  board : Blackboard Val
  handedOut : List (Accessor Ty)

def Session.new (name : String) : Session Val := ⟨Blackboard.new name, []⟩

/-- The accessor a registration returned, if its function is not empty. -/
def Registration.returned (r : Registration Val (Accessor Ty)) : List (Accessor Ty) :=
  match r.result with
  | .ok (some a) => [a]
  | _ => []

inductive Session.Step : Session Val → Session Val → Prop where
  | register (s : Session Val) (e : Option RegistrationError) (c : Call Val) :
      Step s ⟨(s.board.register e c).board, s.handedOut ++ (s.board.register e c).returned⟩
  | require (s : Session Val) (T : Ty) (f : RequireFunction T) (hf : .require T f ∈ s.handedOut) : Step s s
  | provide (s : Session Val) (T : Ty) (f : ProvideFunction T) (hf : .provide T f ∈ s.handedOut) (input : Val T) :
      Step s ⟨f.call input s.board, s.handedOut⟩

/-- Any number of steps. -/
def Session.Leads (s s' : Session Val) : Prop := ReflTransGen Session.Step s s'

/-! ## The invariant -/

/-- What an accessor handed out presupposes: a request left a past, a provision an entry in `board_`. -/
def Backed (past : String → KeyPast Ty) : Accessor Ty → Prop
  | .require _ f => past f.key ≠ .fresh
  | .provide _ f => (past f.key).onBoard = true

structure Session.InvAt (s : Session Val) (past : String → KeyPast Ty) : Prop where
  recalls : Recalls s.board past
  backed : ∀ a ∈ s.handedOut, Backed past a

def Session.Inv (s : Session Val) : Prop := ∃ past, s.InvAt past

theorem Backed.register {past : String → KeyPast Ty} {a : Accessor Ty} (h : Backed past a) (c : Call Val) :
    Backed (Function.update past c.key ((past c.key).next c)) a := by
  cases a with
  | require T f =>
    simp only [Backed, Function.update_apply]
    split
    · exact KeyPast.next_ne_fresh _ c
    · exact h
  | provide T f =>
    simp only [Backed, Function.update_apply]
    split
    · rename_i hk
      rw [Backed, hk] at h
      exact KeyPast.onBoard_next _ c h
    · exact h

theorem backed_accessor (past : String → KeyPast Ty) (c : Call Val) :
    Backed (Function.update past c.key ((past c.key).next c)) c.accessor := by
  cases c with
  | require T k | globalRequire T k =>
    simpa [Backed, Call.accessor, makeRequireFunction, Call.key] using KeyPast.next_ne_fresh _ _
  | provide T k | globalProvide T k v =>
    simpa [Backed, Call.accessor, makeProvideFunction, Call.key] using
      KeyPast.onBoard_next_of_isProvision _ _ rfl

omit [DecidableEq Ty] in
/-- A provider accessor writes where there is an entry already. -/
theorem mem_board_call {T : Ty} (f : ProvideFunction T) (v : Val T) (b : Blackboard Val) (hf : f.key ∈ b.board)
    (k : String) : k ∈ (f.call v b).board ↔ k ∈ b.board := by
  simp only [ProvideFunction.call, AList.mem_insert]
  exact ⟨fun h => h.elim (fun e => e ▸ hf) id, Or.inr⟩

omit [DecidableEq Ty] in
theorem Recalls.call {b : Blackboard Val} {past : String → KeyPast Ty} (h : Recalls b past) {T : Ty}
    (f : ProvideFunction T) (v : Val T) (hf : (past f.key).onBoard = true) : Recalls (f.call v b) past :=
  ⟨h.check, fun k => by rw [mem_board_call f v b ((h.onBoard _).2 hf) k]; exact h.onBoard k⟩

namespace Session

/-- **What one step keeps**: the invariant, every entry of `board_`, every past of a request and every global
provision. -/
theorem step_inv {s s' : Session Val} {past : String → KeyPast Ty} (hi : s.InvAt past) (h : Step s s') :
    ∃ past', s'.InvAt past' ∧ (∀ a ∈ s.handedOut, a ∈ s'.handedOut) ∧
      (∀ k, (past k).onBoard = true → (past' k).onBoard = true) ∧
      (∀ k T, (past k).check = some (.globalProvided, T) → past' k = past k) := by
  cases h with
  | register e c =>
    obtain ⟨hr, hrec⟩ := register_spec hi.recalls e c
    refine ⟨_, ⟨hrec, ?_⟩, fun a ha => List.mem_append_left _ ha, fun k hk => ?_, fun k T hk => ?_⟩
    · intro a ha
      rcases List.mem_append.1 ha with ha | ha
      · exact (hi.backed a ha).register c
      · simp only [Registration.returned, hr] at ha
        cases hacc : (past c.key).accepts c <;> simp only [hacc, Bool.false_eq_true, if_false, if_true] at ha
        · cases ha
        · obtain rfl := List.mem_singleton.1 ha
          exact backed_accessor past c
    · rw [Function.update_apply]
      split
      · rename_i e; exact KeyPast.onBoard_next _ c (e ▸ hk)
      · exact hk
    · rw [Function.update_apply]
      split
      · rename_i e; rw [e, KeyPast.next_of_globalProvided c (e ▸ hk)]
      · rfl
  | require T f hf => exact ⟨past, hi, fun _ h => h, fun _ h => h, fun _ _ _ => rfl⟩
  | provide T f hf v =>
    exact ⟨past, ⟨hi.recalls.call f v (hi.backed _ hf), hi.backed⟩, fun _ h => h, fun _ h => h, fun _ _ _ => rfl⟩

omit [DecidableEq Ty] in
theorem new_inv (name : String) : (Session.new name : Session Val).InvAt (fun _ => .fresh) :=
  ⟨Recalls.new name, fun a ha => by cases ha⟩

/-- The step law, along any number of steps. -/
theorem leads_inv {s s' : Session Val} {past : String → KeyPast Ty} (hi : s.InvAt past) (h : Leads s s') :
    ∃ past', s'.InvAt past' ∧ (∀ a ∈ s.handedOut, a ∈ s'.handedOut) ∧
      (∀ k, (past k).onBoard = true → (past' k).onBoard = true) ∧
      (∀ k T, (past k).check = some (.globalProvided, T) → past' k = past k) := by
  induction h with
  | refl => exact ⟨past, hi, fun _ h => h, fun _ h => h, fun _ _ _ => rfl⟩
  | tail _ hs ih =>
    obtain ⟨past₁, hi₁, ha₁, hb₁, hg₁⟩ := ih
    obtain ⟨past₂, hi₂, ha₂, hb₂, hg₂⟩ := step_inv hi₁ hs
    refine ⟨past₂, hi₂, fun a h => ha₂ a (ha₁ a h), fun k h => hb₂ k (hb₁ k h), fun k T h => ?_⟩
    rw [hg₂ k T (by rw [hg₁ k T h]; exact h), hg₁ k T h]

theorem reachable_inv {name : String} {s : Session Val} (h : Leads (Session.new name) s) : s.Inv := by
  obtain ⟨past, hi, -⟩ := leads_inv (new_inv name) h
  exact ⟨past, hi⟩

/-! ## The representation invariant -/

/-- **What holds of a session from now on.** -/
structure WellKept (s : Session Val) : Prop where
  /-- `board_` is the smaller map, -/
  checked : ∀ k, k ∈ s.board.board → k ∈ s.board.typeCheck
  /-- so no registration throws. -/
  noThrow : ∀ e c err, (s.board.register e c).result ≠ .error err
  onBoard : ∀ k st T, s.board.typeCheck.lookup k = some (st, T) → st = .provided ∨ st = .globalProvided →
    k ∈ s.board.board
  noNewKey : ∀ T f, .provide T f ∈ s.handedOut → ∀ v k, k ∈ (f.call v s.board).board ↔ k ∈ s.board.board
  globalProvided : ∀ k T, s.board.typeCheck.lookup k = some (.globalProvided, T) →
    ∀ s', Leads s s' → s'.board.typeCheck.lookup k = some (.globalProvided, T)
  validated : s.board.validateGlobals = true →
    ∀ T f, .require T f ∈ s.handedOut → ∀ s', Leads s s' → f.call s'.board ≠ .error .outOfRange

omit [DecidableEq Ty] in
/-- In a validated session every key with a past is in `board_`. -/
theorem InvAt.onBoard_of_validated {s : Session Val} {past : String → KeyPast Ty} (hi : s.InvAt past)
    (hv : s.board.validateGlobals = true) {k : String} (hk : past k ≠ .fresh) : (past k).onBoard = true := by
  rw [Blackboard.validateGlobals_iff] at hv
  cases hc : (past k).check with
  | none => exact absurd (KeyPast.check_eq_none.1 hc) hk
  | some p =>
    obtain ⟨st, T⟩ := p
    exact KeyPast.onBoard_of_check hc (hv k st T (by rw [hi.recalls.check]; exact hc))

theorem call_ne_outOfRange {T : Ty} {f : RequireFunction T} {b : Blackboard Val} (h : f.key ∈ b.board) :
    f.call b ≠ .error .outOfRange := by
  obtain ⟨a, ha⟩ := UnorderedMap.exists_lookup h
  simp only [RequireFunction.call, ha]
  intro he
  unfold anyCast at he
  split at he
  · cases he
  · split at he <;> cases he

theorem InvAt.wellKept {s : Session Val} {past : String → KeyPast Ty} (hi : s.InvAt past) : s.WellKept where
  checked k hk := by
    rw [← AList.lookup_isSome, hi.recalls.check]
    have ho := (hi.recalls.onBoard k).1 hk
    cases hx : past k with
    | fresh | requested T => rw [hx] at ho; cases ho
    | _ => rfl
  noThrow e c err := by
    rw [(register_spec hi.recalls e c).1]; simp
  onBoard k st T hk hst := by
    rw [hi.recalls.check] at hk
    exact (hi.recalls.onBoard k).2 (KeyPast.onBoard_of_check hk (by rcases hst with rfl | rfl <;> simp))
  noNewKey T f hf v k := mem_board_call f v s.board ((hi.recalls.onBoard _).2 (hi.backed _ hf)) k
  globalProvided k T hk s' hs := by
    obtain ⟨past', hi', -, -, hg⟩ := leads_inv hi hs
    rw [hi.recalls.check] at hk
    rw [hi'.recalls.check, hg k T hk, hk]
  validated hv T f hf s' hs := by
    obtain ⟨past', hi', -, hb, -⟩ := leads_inv hi hs
    have ho := hi.onBoard_of_validated hv (k := f.key) (hi.backed _ hf)
    exact call_ne_outOfRange ((hi'.recalls.onBoard _).2 (hb _ ho))

/-- **The representation invariant of Blackboard**, over every interleaving of registrations and accessor calls. -/
theorem representation_invariant (name : String) (s : Session Val) (h : Leads (Session.new name) s) : s.WellKept := by
  obtain ⟨past, hi⟩ := reachable_inv h
  exact hi.wellKept

end Session

/-- A session that provided `int` on a key and wrote to it. -/
theorem representation_invariant_written :
    (⟨ProvideFunction.call (T := Plain.int) ⟨"test"⟩ (5 : Int)
        ((Blackboard.new "wave").register none (.provide Plain.int "test")).board,
      [.provide .int ⟨"test"⟩]⟩ : Session Plain.Value).WellKept := by
  have h : (Session.new "wave" : Session Plain.Value).Leads
      ⟨((Blackboard.new "wave").register none (.provide Plain.int "test")).board, [.provide .int ⟨"test"⟩]⟩ :=
    .single (.register _ none (.provide Plain.int "test"))
  refine Session.representation_invariant "wave" _ (h.tail ?_)
  apply Session.Step.provide
  exact List.mem_cons_self

end Comm
end NaoFramework
