import NaoFramework.UnorderedMap
/-!
# Board — the Blackboard and its accessors

`Blackboard` as the source has it: `board`, the map a run reads and writes, and `typeCheck`, the map the four
registration functions decide by.  A registration answers with an accessor (`RequireFunction`, `ProvideFunction`), with
the empty function, or with the `std::out_of_range` of `typeCheck_.at(key)`; `e` is the variable the error pointer
points to, `none` when the pointer is null.

`Ty` are the types `T` of requests and provisions as `typeid` tells them apart (`boost::any` itself, which is unwrapped
when it is assigned to another `boost::any`, is not one of them) and `Val T` the values of `T`.
-/
namespace NaoFramework
namespace Comm

inductive RegistrationError where
  | none
  | requested
  | locallyProvided
  | globallyProvided
  | wrongType
  deriving DecidableEq, Repr

/-- What an accessor or a `typeCheck_.at` can throw: `std::out_of_range` or `boost::bad_any_cast`. -/
inductive AccessError where
  | outOfRange
  | badAnyCast
  deriving DecidableEq, Repr

inductive TypeState where
  | requested
  | provided
  | globalProvided
  deriving DecidableEq, Repr

variable {Ty : Type} {Val : Ty → Type}

/-- `boost::any`: empty, or a value together with its type. -/
abbrev Any (Val : Ty → Type) : Type := Option (Sigma Val)

/-- `boost::any_cast<T>`. -/
def anyCast [DecidableEq Ty] (T : Ty) : Any Val → Except AccessError (Val T)
  | none => .error .badAnyCast
  | some ⟨U, v⟩ => if h : U = T then .ok (h ▸ v) else .error .badAnyCast

/-- **A cast succeeds exactly on a value of its type**, and returns that value. -/
theorem anyCast_eq_ok [DecidableEq Ty] {T : Ty} {a : Any Val} {v : Val T} :
    anyCast T a = .ok v ↔ a = some ⟨T, v⟩ := by
  cases a with
  | none => simp [anyCast]
  | some x =>
    obtain ⟨U, u⟩ := x
    by_cases h : U = T
    · subst h; simp [anyCast]
    · simp only [anyCast, h, dif_neg, not_false_eq_true, reduceCtorEq, Option.some.injEq, false_iff]
      intro he
      exact h (congrArg Sigma.fst he)

structure Blackboard (Val : Ty → Type) where
  name : String
  board : UnorderedMap String (Any Val)
  typeCheck : UnorderedMap String (TypeState × Ty)

/-- The constructor. -/
def Blackboard.new (name : String) : Blackboard Val := ⟨name, ∅, ∅⟩

/-! ## Accessors

The two lambdas capture the blackboard and the key; a call runs under the key's mutex, so it is one step. -/

structure RequireFunction (T : Ty) where
  key : String
  deriving DecidableEq

structure ProvideFunction (T : Ty) where
  key : String
  deriving DecidableEq

def makeRequireFunction (T : Ty) (key : String) : RequireFunction T := ⟨key⟩

def makeProvideFunction (T : Ty) (key : String) : ProvideFunction T := ⟨key⟩

/-- `boost::any_cast<T>(board_.at(key).second)`. -/
def RequireFunction.call [DecidableEq Ty] {T : Ty} (f : RequireFunction T) (b : Blackboard Val) :
    Except AccessError (Val T) :=
  match b.board.lookup f.key with
  | none => .error .outOfRange
  | some a => anyCast T a

/-- `board_[key].second = input`. -/
def ProvideFunction.call {T : Ty} (f : ProvideFunction T) (input : Val T) (b : Blackboard Val) : Blackboard Val :=
  { b with board := b.board.insert f.key (some ⟨T, input⟩) }

/-! ## Registration -/

/-- The outcome of a registration: what it returned or threw, `*e`, and the blackboard after it. -/
structure Registration (Val : Ty → Type) (F : Type) where
  result : Except AccessError (Option F)
  e : Option RegistrationError
  board : Blackboard Val

/-- `return makeRequireFunction<T>(key)`, `return makeProvideFunction<T>(key)`. -/
def accept {F : Type} (f : F) (e : Option RegistrationError) (b : Blackboard Val) : Registration Val F :=
  ⟨.ok (some f), e, b⟩

/-- `if ( e ) *e = err;`, and the empty function. -/
def reject {F : Type} (err : RegistrationError) (e : Option RegistrationError) (b : Blackboard Val) :
    Registration Val F :=
  ⟨.ok none, e.map (fun _ => err), b⟩

/-- The exception of `typeCheck_.at(key)`. -/
def throwOutOfRange {F : Type} (e : Option RegistrationError) (b : Blackboard Val) : Registration Val F :=
  ⟨.error .outOfRange, e, b⟩

namespace Blackboard

variable [DecidableEq Ty]

def registerRequire (b : Blackboard Val) (T : Ty) (key : String) (e : Option RegistrationError) :
    Registration Val (RequireFunction T) :=
  if key ∈ b.board then
    match b.typeCheck.lookup key with
    | none => throwOutOfRange e b
    | some (_, type) =>
      if T ≠ type then reject .wrongType e b
      else accept (makeRequireFunction T key) e b
  else accept (makeRequireFunction T key) e { b with typeCheck := b.typeCheck.emplace key (.requested, T) }

def registerProvide (b : Blackboard Val) (T : Ty) (key : String) (e : Option RegistrationError) :
    Registration Val (ProvideFunction T) :=
  if key ∈ b.board then
    match b.typeCheck.lookup key with
    | none => throwOutOfRange e b
    | some (.requested, _) => reject .requested e b
    | some (.globalProvided, _) => reject .globallyProvided e b
    | some (.provided, _) =>
      -- the type is overwritten, and `board_[key]` finds the entry there
      accept (makeProvideFunction T key) e { b with typeCheck := b.typeCheck.insert key (.provided, T) }
  else
    accept (makeProvideFunction T key) e
      { b with typeCheck := b.typeCheck.emplace key (.provided, T), board := b.board.emplace key none }

def registerGlobalRequire (b : Blackboard Val) (T : Ty) (key : String) (e : Option RegistrationError) :
    Registration Val (RequireFunction T) :=
  if key ∈ b.board then
    match b.typeCheck.lookup key with
    | none => throwOutOfRange e b
    | some (.provided, _) => reject .locallyProvided e b
    -- `registerRequire<T>(key)` is called without `e`
    | some _ => { b.registerRequire T key none with e := e }
  else { b.registerRequire T key none with e := e }

def registerGlobalProvide (b : Blackboard Val) (T : Ty) (key : String) (value : Val T)
    (e : Option RegistrationError) : Registration Val (ProvideFunction T) :=
  if key ∈ b.board then
    match b.typeCheck.lookup key with
    | none => throwOutOfRange e b
    | some (.provided, _) => reject .locallyProvided e b
    | some (.globalProvided, _) => reject .globallyProvided e b
    | some (.requested, type) =>
      if T ≠ type then reject .wrongType e b
      else
        accept (makeProvideFunction T key) e
          { b with typeCheck := b.typeCheck.insert key (.globalProvided, type),
                   board := b.board.insert key (some ⟨T, value⟩) }
  else
    accept (makeProvideFunction T key) e
      { b with typeCheck := b.typeCheck.emplace key (.globalProvided, T),
               board := b.board.insert key (some ⟨T, value⟩) }

end Blackboard

def Blackboard.validateGlobals (b : Blackboard Val) : Bool :=
  b.typeCheck.all (fun _ pair => decide (pair.1 ≠ TypeState.requested))

theorem Blackboard.validateGlobals_iff (b : Blackboard Val) :
    b.validateGlobals = true ↔ ∀ k s T, b.typeCheck.lookup k = some (s, T) → s ≠ .requested := by
  unfold validateGlobals
  rw [UnorderedMap.all_iff]
  constructor
  · intro h k s T hk
    simpa using h k (s, T) hk
  · rintro h k ⟨s, T⟩ hk
    simpa using h k s T hk

/-- Two plain types, for the runs on fixed inputs. -/
inductive Plain where
  | int
  | bool
  deriving DecidableEq, Repr

abbrev Plain.Value : Plain → Type
  | int => Int
  | bool => Bool

instance : (T : Plain) → Inhabited T.Value
  | .int => ⟨(0 : Int)⟩
  | .bool => ⟨false⟩

end Comm
end NaoFramework
