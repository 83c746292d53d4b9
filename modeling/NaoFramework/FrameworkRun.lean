import NaoFramework.Brain
/-!
# FrameworkRun — waves that run while modules are loaded

The framework as it runs: the Console's thread gives the Brain one command after another, and the thread of every running
wave executes the wave's modules, one after another and pass after pass.  What a module's `execute` does here is call the
accessors it holds, in whatever way it decides on them; an exception that leaves it ends the process, as one does that
leaves a command.  A load takes a step for each call of the constructor, and its last one, `addModule`, waits for the end
of the pass the wave is in: between these steps the waves go on.  Where they do not, a load is the Brain's
(`load_alone`).
-/
namespace NaoFramework

namespace Comm

variable {Ty : Type} {Val : Ty → Type}

/-- What an accessor throws when it is called. -/
def AccessorCall.failure [DecidableEq Ty] (B : Blackboard Val) : AccessorCall Val → Option AccessError
  | .require T key =>
    match (makeRequireFunction T key).call B with
    | .error e => some e
    | .ok _ => none
  | .provide .. => none

end Comm

namespace Core

open Comm (Blackboard Accessor AccessorCall AccessError)
open Modules (Thrown AdapterCall Construction Library LoaderEvent DynamicModule constructionOf)

variable {Ty : Type} {Val : Ty → Type}

/-- The accessors a wave's modules hold, each with the Blackboard it points to, in the order of the modules. -/
def BrainWave.accessors {A : Type} (w : BrainWave A (DynamicModule Ty)) : List (Nat × Accessor Ty) :=
  w.modules.flatMap DynamicModule.held

/-- How many of them the modules before the one numbered `index` hold. -/
def BrainWave.heldBefore {A : Type} (w : BrainWave A (DynamicModule Ty)) (index : Nat) : Nat :=
  ((w.modules.take index).flatMap DynamicModule.held).length

/-- A call made in a pass: of the accessor at `place` among the wave's, which points to `board`. -/
structure MadeCall (Val : Ty → Type) where
  place : Nat
  board : Nat
  call : AccessorCall Val

/-- A pass of a wave's thread: the number of the module it executes, and the calls made in it so far. -/
structure Pass (Val : Ty → Type) where
  index : Nat
  calls : List (MadeCall Val)

/-- A load under way: the module's constructor has calls to make still, and has been handed accessors; or `addModule` is
to take the module. -/
inductive Loading (Val : Ty → Type) where
  | constructing (wave : String) (own : Nat) (file : String) (calls : List (AdapterCall Val))
      (held : List (Nat × Accessor Ty)) (ending : Except Thrown String)
  | adding (wave file : String) (module : DynamicModule Ty)

/-- What ended the process: an exception that left a command, `std::terminate`, or an accessor that threw in the thread
of a wave. -/
inductive Ending where
  | threw (t : Thrown)
  | terminated
  | failed (e : AccessError)
  deriving DecidableEq, Repr

structure Framework (Val : Ty → Type) where
  brain : Brain Val
  /-- The passes the waves are in. -/
  passes : String → Option (Pass Val)
  loading : Option (Loading Val)
  ended : Option Ending

/-- Who takes the next step: the Console's thread, beginning a command or going on with a load; or the thread of a wave,
which begins a pass, has the module it executes call an accessor, or goes on to the next module. -/
inductive Turn (Val : Ty → Type) where
  | createWave (inputs : List String)
  | execute (inputs : List String)
  | addDynamicModule (inputs : List String) (found : Except String (Library Val))
  | load
  | pass (wave : String)
  | call (wave : String) (place : Nat) (a : AccessorCall Val)
  | next (wave : String)

/-- `catch ( std::runtime_error & e )` of `addDynamicModule`. -/
def Exit.caught : Thrown → Exit
  | .runtimeError _ => .returned 1
  | t => .threw t

/-- The end of `addDynamicModule`: the wave takes the module. -/
def Brain.giveModule (b : Brain Val) (wave file : String) (dynModule : DynamicModule Ty) : Exit × Brain Val :=
  match b.waves.lookup wave with
  | none => (.threw (.exception "std::out_of_range"), b.logEvent (.closed file))
  | some (w, board) =>
    let added := w.addModule wave dynModule
    let b := { b with waves := b.waves.insert wave (added.state, board) }
    match added.fault with
    | none => (.returned 0, b)
    | some .systemError => (.returned 1, b.logEvent (.closed file))
    | some .terminate => (.terminated, b)

namespace Framework

def new : Framework Val := ⟨.new, fun _ => none, none, none⟩

/-- A command is over. -/
def exit (s : Framework Val) (r : Exit × Brain Val) : Framework Val :=
  { s with
    brain := r.2
    loading := none
    ended := match r.1 with
      | .returned _ => none
      | .threw t => some (.threw t)
      | .terminated => some .terminated }

variable [DecidableEq Ty]

/-- `addDynamicModule` up to the call of the module's factory. -/
def beginLoad (s : Framework Val) (inputs : List String) (found : Except String (Library Val)) : Framework Val :=
  match inputs with
  | _ :: wave :: file :: _ =>
    match s.brain.waves.lookup wave with
    | none => s
    | some (_, own) =>
      match constructionOf found with
      | some c =>
        { s with
          brain := s.brain.logEvent (.opened file)
          loading := some (.constructing wave own file c.calls [] c.ending) }
      -- the library does not open or lacks a symbol, which is a `std::runtime_error`
      | none => { s with brain := (Brain.makeDynamicModule own s.brain file found).2 }
  | _ => s

def load (s : Framework Val) : Framework Val :=
  match s.loading with
  | none => s
  | some (.constructing wave own file (c :: calls) held ending) =>
    let r := Brain.adapterCall own s.brain c
    { s with brain := r.1, loading := some (.constructing wave own file calls (held ++ r.2) ending) }
  | some (.constructing wave _ file [] held (.ok name)) =>
    { s with loading := some (.adding wave file ⟨"Dynamic" ++ name, file, held⟩) }
  | some (.constructing _ _ file [] _ (.error t)) =>
    s.exit (.caught (t.asException.getD t),
      if t.asException.isSome then s.brain.logEvent (.closed file) else s.brain)
  | some (.adding wave file module) =>
    -- `addModule` pauses a wave that runs, and the join waits for the end of its pass
    if (s.passes wave).isSome then s else s.exit (s.brain.giveModule wave file module)

/-- The thread finds the flag set and goes through the modules again. -/
def pass (s : Framework Val) (wave : String) : Framework Val :=
  match s.brain.waves.lookup wave, s.passes wave with
  | some (w, _), none =>
    if w.isRunning then { s with passes := Function.update s.passes wave (some ⟨0, []⟩) } else s
  | _, _ => s

/-- The module that the wave executes calls the accessor at `place`, if that is one of its own. -/
def call (s : Framework Val) (wave : String) (place : Nat) (a : AccessorCall Val) : Framework Val :=
  match s.brain.waves.lookup wave, s.passes wave with
  | some (w, _), some p =>
    match w.accessors[place]? with
    | none => s
    | some (board, accessor) =>
      if w.heldBefore p.index ≤ place ∧ place < w.heldBefore (p.index + 1) ∧ accessor = a.accessor then
        match s.brain.blackboards.at? board with
        | none => s
        | some B =>
          match a.failure B with
          | some e => { s with ended := some (.failed e) }
          | none =>
            { s with
              brain := { s.brain with blackboards := s.brain.blackboards.modifyAt board (·.perform a) }
              passes := Function.update s.passes wave (some { p with calls := p.calls ++ [⟨place, board, a⟩] }) }
      else s
  | _, _ => s

/-- The module that the wave executes returns; past the last one the pass is over. -/
def next (s : Framework Val) (wave : String) : Framework Val :=
  match s.brain.waves.lookup wave, s.passes wave with
  | some (w, _), some p =>
    let pass := if p.index < w.modules.length then some { p with index := p.index + 1 } else none
    { s with passes := Function.update s.passes wave pass }
  | _, _ => s

/-- One turn.  A command is not begun while another is under way, and nothing happens after the end. -/
def step (s : Framework Val) (t : Turn Val) : Framework Val :=
  match s.ended with
  | some _ => s
  | none =>
    match t with
    | .createWave inputs => if s.loading.isSome then s else s.exit (s.brain.createWave inputs)
    | .execute _ => if s.loading.isSome then s else s.exit s.brain.execute
    | .addDynamicModule inputs found => if s.loading.isSome then s else s.beginLoad inputs found
    | .load => s.load
    | .pass wave => s.pass wave
    | .call wave place a => s.call wave place a
    | .next wave => s.next wave

def after (turns : List (Turn Val)) : Framework Val := Runs.run step new turns

/-! ## A load by itself -/

variable {s : Framework Val}

theorem addDynamicModule_eq (b : Brain Val) (command wave file : String) (more : List String)
    (found : Except String (Library Val)) :
    b.addDynamicModule (command :: wave :: file :: more) found =
      match b.waves.lookup wave with
      | none => (.returned 1, b)
      | some (_, own) =>
        match Brain.makeDynamicModule own b file found with
        | (.error t, b) => (.caught t, b)
        | (.ok dynModule, b) => b.giveModule wave file dynModule := by
  simp only [Brain.addDynamicModule]
  cases b.waves.lookup wave with
  | none => rfl
  | some p =>
    simp only
    rcases Brain.makeDynamicModule p.2 b file found with ⟨t | m, b'⟩
    · cases t <;> rfl
    · rfl

/-- The calls of a constructor, one step after another. -/
theorem run_constructing (wave file : String) (own : Nat) (ending : Except Thrown String) (he : s.ended = none) :
    ∀ (calls : List (AdapterCall Val)) (b : Brain Val) (held : List (Nat × Accessor Ty)),
      Runs.run step { s with brain := b, loading := some (.constructing wave own file calls held ending) }
          (List.replicate calls.length .load) =
        { s with
          brain := (Brain.construct own b calls).1
          loading := some (.constructing wave own file [] (held ++ (Brain.construct own b calls).2) ending) }
  | [], b, held => by simp [Runs.run, Brain.construct]
  | c :: calls, b, held => by
    have hs : step { s with brain := b, loading := some (.constructing wave own file (c :: calls) held ending) } .load =
        { s with
          brain := (Brain.adapterCall own b c).1
          loading := some (.constructing wave own file calls (held ++ (Brain.adapterCall own b c).2) ending) } := by
      simp only [step, he, load]
    have ih := run_constructing wave file own ending he calls
      (Brain.adapterCall own b c).1 (held ++ (Brain.adapterCall own b c).2)
    rw [List.append_assoc] at ih
    rw [List.length_cons, List.replicate_succ, Runs.run, List.foldl_cons, hs]
    exact ih

/-- **A load by itself is the Brain's**: begun between commands, while the wave it names is in no pass, and gone on with to
its end, it leaves what `addDynamicModule` does. -/
theorem load_alone (s : Framework Val) (inputs : List String) (found : Except String (Library Val)) (he : s.ended = none)
    (hl : s.loading = none) (hp : ∀ wave, inputs[1]? = some wave → s.passes wave = none) :
    ∃ n, Runs.run step s (.addDynamicModule inputs found :: List.replicate n .load) =
      s.exit (s.brain.addDynamicModule inputs found) := by
  obtain ⟨brain, passes, loading, ended⟩ := s
  obtain rfl : ended = none := he
  obtain rfl : loading = none := hl
  match inputs with
  | [] | [_] | [_, _] => exact ⟨0, rfl⟩
  | command :: wave :: file :: more =>
    have hpw : passes wave = none := hp wave rfl
    rw [addDynamicModule_eq]
    cases hw : brain.waves.lookup wave with
    | none =>
      refine ⟨0, ?_⟩
      simp only [List.replicate_zero, Runs.run, List.foldl_cons, List.foldl_nil, step, beginLoad, hw]
      rfl
    | some p =>
      obtain ⟨w, own⟩ := p
      match found with
      | .error message | .ok ⟨.error message, dump⟩ | .ok ⟨.ok c, .error message⟩ =>
        refine ⟨0, ?_⟩
        simp only [List.replicate_zero, Runs.run, List.foldl_cons, List.foldl_nil, step, beginLoad, hw]
        rfl
      | .ok ⟨.ok c, .ok ()⟩ =>
        have hb : step ⟨brain, passes, none, none⟩
              (.addDynamicModule (command :: wave :: file :: more) (.ok ⟨.ok c, .ok ()⟩)) =
            ⟨brain.logEvent (.opened file), passes, some (.constructing wave own file c.calls [] c.ending), none⟩ := by
          simp only [step, beginLoad, hw]
          rfl
        have hend : (⟨brain, passes, none, none⟩ : Framework Val).ended = none := rfl
        have hrun := run_constructing wave file own c.ending hend c.calls (brain.logEvent (.opened file)) []
        cases ht : c.ending with
        | error t =>
          refine ⟨c.calls.length + 1, ?_⟩
          rw [List.replicate_succ', Runs.run, List.foldl_cons, hb]
          refine (Runs.run_snoc _ _ _ _).trans ?_
          rw [hrun]
          simp only [step, load, ht, Brain.makeDynamicModule]
          cases t <;> rfl
        | ok name =>
          refine ⟨c.calls.length + 1 + 1, ?_⟩
          rw [List.replicate_succ', List.replicate_succ', Runs.run, List.foldl_cons, hb]
          refine (Runs.run_snoc _ _ _ _).trans ?_
          refine (congrArg (step · .load) (Runs.run_snoc _ _ _ _)).trans ?_
          rw [hrun]
          simp only [step, load, ht, Brain.makeDynamicModule, hpw]
          rfl

/-- Into a wave that was just created. -/
theorem load_alone_created : ∃ n, Runs.run step (after [.createWave ["create", "wave"]] : Framework Comm.Plain.Value)
    (.addDynamicModule ["add", "wave", "Writer.so"] (.ok ⟨.ok ⟨[.provide .int "test"], .ok "Writer"⟩, .ok ()⟩) ::
      List.replicate n .load) =
    (after [.createWave ["create", "wave"]]).exit ((after [.createWave ["create", "wave"]]).brain.addDynamicModule
      ["add", "wave", "Writer.so"] (.ok ⟨.ok ⟨[.provide .int "test"], .ok "Writer"⟩, .ok ()⟩)) :=
  load_alone _ _ _ rfl rfl fun _ _ => rfl

end Framework
end Core
end NaoFramework
