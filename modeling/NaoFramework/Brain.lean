import NaoFramework.BoardFlow
import NaoFramework.DynamicModule
import NaoFramework.NodeList
/-!
# Brain — waves, Blackboards and commands

`blackboards` is a list with stable iterators and `waves` maps a name to its wave and the iterator of its Blackboard.
The Console calls `createWave`, `addDynamicModule` and `execute`; a module's constructor comes back to the Brain through
`ExternalBlackboardMap`, whose `operator[]` makes the waves it is asked for.  A Brain's life (`Brain.step`) is these
commands and the calls the modules of running waves make of their accessors.  What is printed is left out.
-/
namespace NaoFramework
namespace Core

open Comm (Blackboard Call Accessor AccessorCall Registration)
open Modules (Thrown AdapterCall Construction Library LoaderEvent DynamicModule)

variable {Ty : Type} {Val : Ty → Type}

structure Brain (Val : Ty → Type) where
  blackboards : NodeList (Blackboard Val)
  waves : UnorderedMap String (BrainWave String (DynamicModule Ty) × Nat)
  /-- What was opened and closed so far. -/
  loader : List LoaderEvent

/-- How a command ends: it returns, an exception leaves it, or the process does. -/
inductive Exit where
  | returned (code : Nat)
  | threw (t : Thrown)
  | terminated
  deriving DecidableEq, Repr

namespace Brain

def new : Brain Val := ⟨[], ∅, []⟩

def waveExists (b : Brain Val) (wave : String) : Bool := decide (wave ∈ b.waves)

def makeWave (b : Brain Val) (key : String) : Brain Val :=
  let blackboards := b.blackboards.emplaceFront (Blackboard.new key)
  { b with blackboards := blackboards, waves := b.waves.emplace key (.new key, blackboards.begin) }

/-- `ExternalBlackboardMap::operator[]`, with the Blackboard of the adapter it returns. -/
def others (b : Brain Val) (key : String) : Brain Val × Option Nat :=
  let b := if b.waveExists key then b else b.makeWave key
  (b, (b.waves.lookup key).map Prod.snd)

def createWave (b : Brain Val) (inputs : List String) : Exit × Brain Val :=
  match inputs with
  | _ :: wave :: _ => (.returned 0, if b.waveExists wave then b else b.makeWave wave)
  | _ => (.returned 1, b)

def logEvent (b : Brain Val) (e : LoaderEvent) : Brain Val := { b with loader := b.loader ++ [e] }

variable [DecidableEq Ty]

/-! ## Loading a module -/

/-- A registration on a Blackboard, and the accessor it handed out. -/
def registerOn (b : Brain Val) (board : Nat) (c : Call Val) : Brain Val × List (Nat × Accessor Ty) :=
  match b.blackboards.at? board with
  | some blackboard =>
    let r := blackboard.register none c
    ({ b with blackboards := b.blackboards.modifyAt board fun _ => r.board }, r.returned.map (board, ·))
  | none => (b, [])

/-- A call on the adapters; `own` is the Blackboard of the local one. -/
def adapterCall (own : Nat) (b : Brain Val) : AdapterCall Val → Brain Val × List (Nat × Accessor Ty)
  | .require T k => b.registerOn own (.require T k)
  | .provide T k => b.registerOn own (.provide T k)
  | .globalProvide T k v => b.registerOn own (.globalProvide T k v)
  | .others wave => ((b.others wave).1, [])
  | .globalRequire wave T k =>
    match (b.others wave).2 with
    | some board => (b.others wave).1.registerOn board (.globalRequire T k)
    | none => ((b.others wave).1, [])

/-- The calls of a constructor, and the accessors they handed out. -/
def construct (own : Nat) (b : Brain Val) : List (AdapterCall Val) → Brain Val × List (Nat × Accessor Ty)
  | [] => (b, [])
  | c :: cs =>
    let first := adapterCall own b c
    let rest := construct own first.1 cs
    (rest.1, first.2 ++ rest.2)

/-- `found` is what `dlopen` finds under the file name. -/
def makeDynamicModule (own : Nat) (b : Brain Val) (file : String) (found : Except String (Library Val)) :
    Except Thrown (DynamicModule Ty) × Brain Val :=
  match found with
  | .error message => (.error (.runtimeError message), b)
  | .ok dll =>
    let b := b.logEvent (.opened file)
    match dll.factory with
    | .error message => (.error (.runtimeError message), b.logEvent (.closed file))
    | .ok construction =>
      match dll.dump with
      | .error message => (.error (.runtimeError message), b.logEvent (.closed file))
      | .ok () =>
        let built := construct own b construction.calls
        match construction.ending with
        | .ok name => (.ok ⟨"Dynamic" ++ name, file, built.2⟩, built.1)
        | .error t =>
          -- the handler throws the copy it caught, and what it does not catch passes it by
          match t.asException with
          | some e => (.error e, built.1.logEvent (.closed file))
          | none => (.error t, built.1)

def addDynamicModule (b : Brain Val) (inputs : List String) (found : Except String (Library Val)) :
    Exit × Brain Val :=
  match inputs with
  | _ :: wave :: file :: _ =>
    match b.waves.lookup wave with
    | none => (.returned 1, b)
    | some (_, own) =>
      match makeDynamicModule own b file found with
      | (.error (.runtimeError _), b) => (.returned 1, b)
      | (.error t, b) => (.threw t, b)
      | (.ok dynModule, b) =>
        match b.waves.lookup wave with
        | none => (.threw (.exception "std::out_of_range"), b.logEvent (.closed file))
        | some (w, board) =>
          let added := w.addModule wave dynModule
          let b := { b with waves := b.waves.insert wave (added.state, board) }
          match added.fault with
          | none => (.returned 0, b)
          -- a `std::system_error` is a `std::runtime_error`; the module goes with its owner
          | some .systemError => (.returned 1, b.logEvent (.closed file))
          | some .terminate => (.terminated, b)
  | _ => (.returned 1, b)

omit [DecidableEq Ty] in
def execute (b : Brain Val) : Exit × Brain Val :=
  if b.blackboards.all Blackboard.validateGlobals then
    (if b.waves.all fun wave p => (p.1.execute wave).fault.isNone then .returned 0 else .terminated,
      { b with waves := b.waves.mapValues fun wave p => ((p.1.execute wave).state, p.2) })
  else (.returned 1, b)

/-! ## The life of a Brain -/

inductive Command (Val : Ty → Type) where
  | createWave (inputs : List String)
  | addDynamicModule (inputs : List String) (found : Except String (Library Val))
  | execute (inputs : List String)

inductive Input (Val : Ty → Type) where
  | command (c : Command Val)
  | call (board : Nat) (a : AccessorCall Val)

def command (b : Brain Val) : Command Val → Exit × Brain Val
  | .createWave inputs => b.createWave inputs
  | .addDynamicModule inputs found => b.addDynamicModule inputs found
  | .execute _ => b.execute

/-- A module of a running wave holds the accessor. -/
def heldRunning (b : Brain Val) (h : Nat × Accessor Ty) : Bool :=
  !b.waves.all fun _ p => !(p.1.isRunning && p.1.modules.any fun m => decide (h ∈ m.held))

/-- A command, or a call of an accessor that a module of a running wave holds; any other call is skipped. -/
def step (b : Brain Val) : Input Val → Brain Val
  | .command c => (b.command c).2
  | .call board a =>
    if b.heldRunning (board, a.accessor) then
      { b with blackboards := b.blackboards.modifyAt board (·.perform a) }
    else b

def after (inputs : List (Input Val)) : Brain Val := Runs.run step new inputs

end Brain

end Core
end NaoFramework
