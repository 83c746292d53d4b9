import NaoFramework.Wave
import NaoFramework.BoardSession
/-!
# DynamicModule — modules loaded from shared libraries

The dynamic loader is abstract: `dlopen` finds a `Library` or fails, each of its two symbols is there or is missing, and
what was opened and closed is recorded.  A `Construction` is one run of a module's constructor: the calls it makes on
the adapters it is given — in whatever way it decides on them — and how it ends.
-/
namespace NaoFramework
namespace Modules

open Comm (Accessor)

variable {Ty : Type} {Val : Ty → Type}

/-- A thrown object: a `std::runtime_error`, another `std::exception`, or neither. -/
inductive Thrown where
  | runtimeError (what : String)
  | exception (what : String)
  | other
  deriving DecidableEq, Repr

/-- `catch ( std::exception e )`: the copy of the `std::exception` in the thrown object, if it has one. -/
def Thrown.asException : Thrown → Option Thrown
  | runtimeError _ | exception _ => some (.exception "std::exception")
  | other => none

/-- A call on the adapters: on the wave's own Blackboard, `others[wave]`, or a global request through it. -/
inductive AdapterCall (Val : Ty → Type) where
  | require (T : Ty) (key : String)
  | provide (T : Ty) (key : String)
  | globalProvide (T : Ty) (key : String) (value : Val T)
  | others (wave : String)
  | globalRequire (wave : String) (T : Ty) (key : String)

/-- One run of a module's constructor; it ends with the module's name, or throws. -/
structure Construction (Val : Ty → Type) where
  calls : List (AdapterCall Val)
  ending : Except Thrown String

/-- The two symbols of a library, each there or missing with the message of `dlerror`. -/
structure Library (Val : Ty → Type) where
  factory : Except String (Construction Val)
  dump : Except String Unit

inductive LoaderEvent where
  | opened (file : String)
  | closed (file : String)
  deriving DecidableEq, Repr

/-- The wrapper of a loaded module: its own name, its library, and the accessors the module holds, each with the
Blackboard it points to. -/
structure DynamicModule (Ty : Type) where
  name : String
  dllModule : String
  held : List (Nat × Accessor Ty)

instance : Core.ModuleInterface (DynamicModule Ty) := ⟨DynamicModule.name⟩

/-- The constructor a load runs: that of a library that opens and has both symbols. -/
def constructionOf : Except String (Library Val) → Option (Construction Val)
  | .ok ⟨.ok construction, .ok ()⟩ => some construction
  | _ => none

end Modules
end NaoFramework
