import NaoFramework.Runs
import NaoFramework.Board
import Mathlib.Logic.Function.Basic
/-!
# BoardCalls — sequences of registration calls, and what a Blackboard keeps of them

`Call` is one call of the four registration functions and `accepted` the calls of a sequence whose function was not
empty.  All a Blackboard keeps of the calls on one key is a `KeyPast`, computed from those calls alone; `register_spec`
is the simulation: a registration answers as the key's past does, and moves only that key's past.
-/
namespace NaoFramework
namespace Comm

variable {Ty : Type} {Val : Ty → Type}

inductive Call (Val : Ty → Type) where
  | require (T : Ty) (key : String)
  | provide (T : Ty) (key : String)
  | globalRequire (T : Ty) (key : String)
  | globalProvide (T : Ty) (key : String) (value : Val T)

namespace Call

def key : Call Val → String
  | require _ k | provide _ k | globalRequire _ k | globalProvide _ k _ => k

def type : Call Val → Ty
  | require T _ | provide T _ | globalRequire T _ | globalProvide T _ _ => T

def isProvision : Call Val → Bool
  | require .. | globalRequire .. => false
  | provide .. | globalProvide .. => true

def isGlobal : Call Val → Bool
  | require .. | provide .. => false
  | globalRequire .. | globalProvide .. => true

end Call

/-- A function handed out by a registration. -/
inductive Accessor (Ty : Type) where
  | require (T : Ty) (f : RequireFunction T)
  | provide (T : Ty) (f : ProvideFunction T)
  deriving DecidableEq

/-- The accessor an accepted call returns. -/
def Call.accessor : Call Val → Accessor Ty
  | .require T k | .globalRequire T k => .require T (makeRequireFunction T k)
  | .provide T k | .globalProvide T k _ => .provide T (makeProvideFunction T k)

def Registration.map {F G : Type} (f : F → G) (r : Registration Val F) : Registration Val G :=
  ⟨r.result.map (Option.map f), r.e, r.board⟩

variable [DecidableEq Ty]

def Blackboard.register (b : Blackboard Val) (e : Option RegistrationError) :
    Call Val → Registration Val (Accessor Ty)
  | .require T k => (b.registerRequire T k e).map (.require T)
  | .provide T k => (b.registerProvide T k e).map (.provide T)
  | .globalRequire T k => (b.registerGlobalRequire T k e).map (.require T)
  | .globalProvide T k v => (b.registerGlobalProvide T k v e).map (.provide T)

/-- The blackboard after a call. -/
def Blackboard.after (b : Blackboard Val) (c : Call Val) : Blackboard Val := (b.register none c).board

/-- The returned function is not empty. -/
def Blackboard.accepts (b : Blackboard Val) (c : Call Val) : Bool :=
  match (b.register none c).result with
  | .ok (some _) => true
  | _ => false

def Blackboard.registerAll (b : Blackboard Val) (cs : List (Call Val)) : Blackboard Val := Runs.run Blackboard.after b cs

/-- The accepted calls of a sequence, in order. -/
def accepted (b : Blackboard Val) : List (Call Val) → List (Call Val)
  | [] => []
  | c :: cs => if b.accepts c then c :: accepted (b.after c) cs else accepted (b.after c) cs

theorem accepted_append : ∀ (cs ds : List (Call Val)) (b : Blackboard Val),
    accepted b (cs ++ ds) = accepted b cs ++ accepted (b.registerAll cs) ds
  | [], _, _ => rfl
  | c :: cs, ds, b => by
    simp only [List.cons_append, accepted, accepted_append cs ds (b.after c)]
    split <;> rfl

theorem accepted_snoc (b : Blackboard Val) (cs : List (Call Val)) (c : Call Val) :
    accepted b (cs ++ [c]) = accepted b cs ++ (if (b.registerAll cs).accepts c then [c] else []) := by
  rw [accepted_append]; rfl

theorem mem_of_mem_accepted {c : Call Val} : ∀ {cs : List (Call Val)} {b : Blackboard Val}, c ∈ accepted b cs → c ∈ cs
  | d :: cs, b, h => by
    simp only [accepted] at h
    split at h
    · rcases List.mem_cons.1 h with rfl | h
      · exact List.mem_cons_self
      · exact List.mem_cons_of_mem _ (mem_of_mem_accepted h)
    · exact List.mem_cons_of_mem _ (mem_of_mem_accepted h)

theorem registerAll_snoc (b : Blackboard Val) (cs : List (Call Val)) (c : Call Val) :
    b.registerAll (cs ++ [c]) = (b.registerAll cs).after c := Runs.run_snoc _ _ _ _

/-! ## The past of a key -/

/-- What the calls on a key leave behind: nothing; requests alone, the first of them of type `T`; a local provision
first, the last one of type `T`; a global provision first; requests and then a provision of type `U` (`g`: a global
one); and after that the global provision of `T`. -/
inductive KeyPast (Ty : Type) where
  | fresh
  | requested (T : Ty)
  | locally (T : Ty)
  | globally (T : Ty)
  | late (T U : Ty) (g : Bool)
  | settled (T : Ty) (g : Bool)
  deriving DecidableEq

namespace KeyPast

/-- The key's entry of `typeCheck_`. -/
def check : KeyPast Ty → Option (TypeState × Ty)
  | fresh => none
  | requested T | late T _ _ => some (.requested, T)
  | locally T => some (.provided, T)
  | globally T | settled T _ => some (.globalProvided, T)

/-- Whether the key has an entry in `board_`. -/
def onBoard : KeyPast Ty → Bool
  | fresh | requested _ => false
  | locally _ | globally _ | late .. | settled .. => true

def accepts : KeyPast Ty → Call Val → Bool
  | fresh, _ | requested _, _ => true
  | locally T, .require U _ => decide (U = T)
  | locally _, .provide .. => true
  | locally _, _ => false
  | globally T, .require U _ | globally T, .globalRequire U _ => decide (U = T)
  | globally _, _ => false
  | settled T _, .require U _ | settled T _, .globalRequire U _ => decide (U = T)
  | settled .., _ => false
  | late T _ _, .require U _ | late T _ _, .globalRequire U _ | late T _ _, .globalProvide U _ _ => decide (U = T)
  | late .., .provide .. => false

def next : KeyPast Ty → Call Val → KeyPast Ty
  | fresh, .require T _ | fresh, .globalRequire T _ => requested T
  | fresh, .provide T _ => locally T
  | fresh, .globalProvide T _ _ => globally T
  | requested T, .provide U _ => late T U false
  | requested T, .globalProvide U _ _ => late T U true
  | locally _, .provide U _ => locally U
  | late T U g, .globalProvide W _ _ => if W = T then settled T g else late T U g
  | x, _ => x

/-! ### How a past can move -/

theorem next_late (T U : Ty) (g : Bool) (c : Call Val) :
    (late T U g).next c = late T U g ∨ (late T U g).next c = settled T g := by
  cases c with
  | globalProvide W k v =>
    by_cases h : W = T
    · exact Or.inr (if_pos h)
    · exact Or.inl (if_neg h)
  | _ => exact Or.inl rfl

theorem onBoard_next (x : KeyPast Ty) (c : Call Val) (h : x.onBoard = true) : (x.next c).onBoard = true := by
  cases x with
  | late T U g => rcases next_late T U g c with e | e <;> rw [e] <;> rfl
  | _ => cases c <;> first | exact h | cases h

theorem next_ne_fresh (x : KeyPast Ty) (c : Call Val) : x.next c ≠ fresh := by
  cases x with
  | late T U g => rcases next_late T U g c with e | e <;> rw [e] <;> simp
  | _ => cases c <;> simp [next]

theorem onBoard_next_of_isProvision (x : KeyPast Ty) (c : Call Val) (h : c.isProvision = true) :
    (x.next c).onBoard = true := by
  by_cases hx : x.onBoard = true
  · exact onBoard_next x c hx
  · cases x <;> cases c <;> first | rfl | exact absurd rfl hx | cases h

theorem onBoard_next_iff (x : KeyPast Ty) (c : Call Val) :
    (x.next c).onBoard = true ↔ x.onBoard = true ∨ c.isProvision = true := by
  refine ⟨fun h => ?_, fun h => h.elim (onBoard_next x c) (onBoard_next_of_isProvision x c)⟩
  cases hp : c.isProvision with
  | true => exact Or.inr rfl
  | false =>
    cases x with
    | fresh | requested T => cases c <;> first | cases hp; done | cases h
    | _ => exact Or.inl rfl

omit [DecidableEq Ty] in
theorem check_eq_none {x : KeyPast Ty} : x.check = none ↔ x = fresh := by
  cases x <;> simp [check]

omit [DecidableEq Ty] in
/-- A key whose state is not `Requested` is in `board_`. -/
theorem onBoard_of_check {x : KeyPast Ty} {s : TypeState} {T : Ty} (h : x.check = some (s, T)) (hs : s ≠ .requested) :
    x.onBoard = true := by
  cases x <;> simp_all [check, onBoard]

/-- **A global provision is final.** -/
theorem next_of_globalProvided {x : KeyPast Ty} {T : Ty} (c : Call Val) (h : x.check = some (.globalProvided, T)) :
    x.next c = x := by
  cases x <;> cases c <;> simp_all [check, next]

end KeyPast

/-! ## The simulation -/

/-- The past of a key after a sequence of calls. -/
def keyPast (k : String) (cs : List (Call Val)) : KeyPast Ty :=
  Runs.run (fun x c => if c.key = k then x.next c else x) .fresh cs

@[simp] theorem keyPast_nil (k : String) : keyPast k ([] : List (Call Val)) = .fresh := rfl

theorem keyPast_snoc (k : String) (cs : List (Call Val)) (c : Call Val) :
    keyPast k (cs ++ [c]) = if c.key = k then (keyPast k cs).next c else keyPast k cs := Runs.run_snoc _ _ _ _

/-- The blackboard keeps of every key what its past says. -/
structure Recalls (b : Blackboard Val) (past : String → KeyPast Ty) : Prop where
  check : ∀ k, b.typeCheck.lookup k = (past k).check
  onBoard : ∀ k, k ∈ b.board ↔ (past k).onBoard = true

namespace Recalls

variable {b : Blackboard Val} {past : String → KeyPast Ty}

omit [DecidableEq Ty] in
theorem new (name : String) : Recalls (Blackboard.new name : Blackboard Val) (fun _ => .fresh) :=
  ⟨fun _ => rfl, fun k => by simp [Blackboard.new, KeyPast.onBoard]⟩

omit [DecidableEq Ty] in
theorem same (h : Recalls b past) {k : String} {x : KeyPast Ty} (hx : past k = x) :
    Recalls b (Function.update past k x) := by
  rw [← hx, Function.update_eq_self]; exact h

omit [DecidableEq Ty] in
/-- Both maps changed at one key, to what the key's new past says. -/
theorem update (h : Recalls b past) {k : String} {x : KeyPast Ty} {tc : UnorderedMap String (TypeState × Ty)}
    {bd : UnorderedMap String (Any Val)} (hc : ∀ k', tc.lookup k' = if k' = k then x.check else b.typeCheck.lookup k')
    (ho : ∀ k', k' ∈ bd ↔ if k' = k then x.onBoard = true else k' ∈ b.board) :
    Recalls { b with typeCheck := tc, board := bd } (Function.update past k x) := by
  refine ⟨fun k' => ?_, fun k' => ?_⟩
  · rw [hc k', Function.update_apply]
    split
    · rfl
    · exact h.check k'
  · rw [ho k', Function.update_apply]
    split
    · rfl
    · exact h.onBoard k'

omit [DecidableEq Ty] in
theorem lookup_emplace (h : Recalls b past) {k : String} {p : TypeState × Ty} {x : KeyPast Ty}
    (hx : x.check = some ((past k).check.getD p)) (k' : String) :
    (b.typeCheck.emplace k p).lookup k' = if k' = k then x.check else b.typeCheck.lookup k' := by
  rw [UnorderedMap.lookup_emplace, h.check k, hx]

omit [DecidableEq Ty] in
theorem mem_board (h : Recalls b past) {k : String} {x : KeyPast Ty} (hx : x.onBoard = (past k).onBoard) (k' : String) :
    k' ∈ b.board ↔ if k' = k then x.onBoard = true else k' ∈ b.board := by
  split
  · rename_i e; rw [e, hx]; exact h.onBoard k
  · rfl

end Recalls

omit [DecidableEq Ty] in
theorem mem_board_emplace (b : Blackboard Val) {k : String} {x : KeyPast Ty} (hx : x.onBoard = true) (a : Any Val)
    (k' : String) : k' ∈ b.board.emplace k a ↔ if k' = k then x.onBoard = true else k' ∈ b.board := by
  rw [UnorderedMap.mem_emplace]
  split <;> simp_all

omit [DecidableEq Ty] in
theorem mem_board_insert (b : Blackboard Val) {k : String} {x : KeyPast Ty} (hx : x.onBoard = true) (a : Any Val)
    (k' : String) : k' ∈ b.board.insert k a ↔ if k' = k then x.onBoard = true else k' ∈ b.board := by
  rw [AList.mem_insert]
  split <;> simp_all

/-- **A registration on `k` that answers as the key's past does**, and moves that past alone. -/
def Answers {F : Type} (r : Registration Val F) (past : String → KeyPast Ty) (k : String) (c : Call Val) (f : F) :
    Prop :=
  r.result = .ok (if (past k).accepts c then some f else none) ∧
    Recalls r.board (Function.update past k ((past k).next c))

theorem registerRequire_spec {b : Blackboard Val} {past : String → KeyPast Ty} (h : Recalls b past) (T : Ty) (k : String)
    (e : Option RegistrationError) :
    Answers (b.registerRequire T k e) past k (.require T k) (makeRequireFunction T k) := by
  have hc := h.check k
  have ho := h.onBoard k
  unfold Answers
  cases hx : past k with
  | fresh | requested U =>
    rw [hx] at hc ho
    have hk : k ∉ b.board := by simpa [KeyPast.onBoard] using ho
    simp only [Blackboard.registerRequire, if_neg hk]
    exact ⟨rfl, h.update (h.lookup_emplace (by rw [hx]; rfl)) (h.mem_board (by rw [hx]; rfl))⟩
  | locally U | globally U | late U W g | settled U g =>
    rw [hx] at hc ho
    have hk : k ∈ b.board := by simpa [KeyPast.onBoard] using ho
    by_cases hT : T = U
    · simp [Blackboard.registerRequire, hk, hc, KeyPast.check, hT, accept, KeyPast.accepts, KeyPast.next, h.same hx]
    · simp [Blackboard.registerRequire, hk, hc, KeyPast.check, hT, reject, KeyPast.accepts, KeyPast.next, h.same hx]

theorem registerProvide_spec {b : Blackboard Val} {past : String → KeyPast Ty} (h : Recalls b past) (T : Ty) (k : String)
    (e : Option RegistrationError) :
    Answers (b.registerProvide T k e) past k (.provide T k) (makeProvideFunction T k) := by
  have hc := h.check k
  have ho := h.onBoard k
  unfold Answers
  cases hx : past k with
  | fresh | requested U =>
    rw [hx] at hc ho
    have hk : k ∉ b.board := by simpa [KeyPast.onBoard] using ho
    simp only [Blackboard.registerProvide, if_neg hk]
    exact ⟨rfl, h.update (h.lookup_emplace (by rw [hx]; rfl)) (mem_board_emplace b rfl none)⟩
  | locally U =>
    rw [hx] at hc ho
    have hk : k ∈ b.board := by simpa [KeyPast.onBoard] using ho
    simp only [Blackboard.registerProvide, if_pos hk, hc, KeyPast.check]
    exact ⟨rfl, h.update (UnorderedMap.lookup_insert_if _ _ · _) (h.mem_board (by rw [hx]; rfl))⟩
  | globally U | late U W g | settled U g =>
    rw [hx] at hc ho
    have hk : k ∈ b.board := by simpa [KeyPast.onBoard] using ho
    simp [Blackboard.registerProvide, hk, hc, KeyPast.check, reject, KeyPast.accepts, KeyPast.next, h.same hx]

theorem registerGlobalRequire_spec {b : Blackboard Val} {past : String → KeyPast Ty} (h : Recalls b past) (T : Ty)
    (k : String) (e : Option RegistrationError) :
    Answers (b.registerGlobalRequire T k e) past k (.globalRequire T k) (makeRequireFunction T k) := by
  have hc := h.check k
  have ho := h.onBoard k
  have hr := registerRequire_spec h T k none
  unfold Answers at hr ⊢
  cases hx : past k with
  | fresh | requested U =>
    rw [hx] at ho hr
    have hk : k ∉ b.board := by simpa [KeyPast.onBoard] using ho
    simp only [Blackboard.registerGlobalRequire, if_neg hk]
    exact hr
  | globally U | late U W g | settled U g =>
    rw [hx] at hc ho hr
    have hk : k ∈ b.board := by simpa [KeyPast.onBoard] using ho
    simp only [Blackboard.registerGlobalRequire, if_pos hk, hc, KeyPast.check]
    exact hr
  | locally U =>
    rw [hx] at hc ho
    have hk : k ∈ b.board := by simpa [KeyPast.onBoard] using ho
    simp [Blackboard.registerGlobalRequire, hk, hc, KeyPast.check, reject, KeyPast.accepts, KeyPast.next, h.same hx]

theorem registerGlobalProvide_spec {b : Blackboard Val} {past : String → KeyPast Ty} (h : Recalls b past) (T : Ty)
    (k : String) (v : Val T) (e : Option RegistrationError) :
    Answers (b.registerGlobalProvide T k v e) past k (.globalProvide T k v) (makeProvideFunction T k) := by
  have hc := h.check k
  have ho := h.onBoard k
  unfold Answers
  cases hx : past k with
  | fresh | requested U =>
    rw [hx] at hc ho
    have hk : k ∉ b.board := by simpa [KeyPast.onBoard] using ho
    simp only [Blackboard.registerGlobalProvide, if_neg hk]
    exact ⟨rfl, h.update (h.lookup_emplace (by rw [hx]; rfl)) (mem_board_insert b rfl _)⟩
  | locally U | globally U | settled U g =>
    rw [hx] at hc ho
    have hk : k ∈ b.board := by simpa [KeyPast.onBoard] using ho
    simp [Blackboard.registerGlobalProvide, hk, hc, KeyPast.check, reject, KeyPast.accepts, KeyPast.next, h.same hx]
  | late U W g =>
    rw [hx] at hc ho
    have hk : k ∈ b.board := by simpa [KeyPast.onBoard] using ho
    by_cases hT : T = U
    · subst hT
      simp only [Blackboard.registerGlobalProvide, if_pos hk, hc, KeyPast.check, ne_eq, not_true, if_false,
        KeyPast.next, if_true]
      exact ⟨by simp [accept, KeyPast.accepts],
        h.update (UnorderedMap.lookup_insert_if _ _ · _) (mem_board_insert b rfl _)⟩
    · simp [Blackboard.registerGlobalProvide, hk, hc, KeyPast.check, hT, reject, KeyPast.accepts, KeyPast.next,
        h.same hx]

theorem Answers.map {F G : Type} {r : Registration Val F} {past : String → KeyPast Ty} {k : String} {c : Call Val}
    {f : F} (h : Answers r past k c f) (g : F → G) : Answers (r.map g) past k c (g f) := by
  refine ⟨?_, h.2⟩
  simp only [Registration.map, h.1, Except.map]
  cases (past k).accepts c <;> rfl

/-- **The simulation**: a call is answered as its key's past answers it, whatever `e` is, and only that past moves. -/
theorem register_spec {b : Blackboard Val} {past : String → KeyPast Ty} (h : Recalls b past)
    (e : Option RegistrationError) (c : Call Val) : Answers (b.register e c) past c.key c c.accessor := by
  cases c with
  | require T k => exact (registerRequire_spec h T k e).map (Accessor.require T)
  | provide T k => exact (registerProvide_spec h T k e).map (Accessor.provide T)
  | globalRequire T k => exact (registerGlobalRequire_spec h T k e).map (Accessor.require T)
  | globalProvide T k v => exact (registerGlobalProvide_spec h T k v e).map (Accessor.provide T)

theorem accepts_eq {b : Blackboard Val} {past : String → KeyPast Ty} (h : Recalls b past) (c : Call Val) :
    b.accepts c = (past c.key).accepts c := by
  unfold Blackboard.accepts
  rw [(register_spec h none c).1]
  cases (past c.key).accepts c <;> rfl

/-- A registered sequence leaves of every key the past of its calls. -/
theorem recalls_registerAll (name : String) (cs : List (Call Val)) :
    Recalls ((Blackboard.new name).registerAll cs) (fun k => keyPast k cs) := by
  induction cs using List.reverseRecOn with
  | nil => exact Recalls.new name
  | append_singleton cs c ih =>
    rw [registerAll_snoc]
    have h := (register_spec ih none c).2
    have hp : (fun k => keyPast k (cs ++ [c])) =
        Function.update (fun k => keyPast k cs) c.key ((keyPast c.key cs).next c) := by
      funext k
      rw [keyPast_snoc, Function.update_apply]
      by_cases hk : k = c.key
      · subst hk; simp
      · rw [if_neg (Ne.symm hk), if_neg hk]
    rw [hp]
    exact h

theorem accepts_registerAll (name : String) (cs : List (Call Val)) (c : Call Val) :
    ((Blackboard.new name).registerAll cs).accepts c = (keyPast c.key cs).accepts c :=
  accepts_eq (recalls_registerAll name cs) c

/-- A requested key takes a local provision of any type. -/
example : ((Blackboard.new "wave").registerAll [.require .int "test"]).accepts
    (.provide .bool "test" : Call Plain.Value) = true := by decide

end Comm
end NaoFramework
