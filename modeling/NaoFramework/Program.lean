import NaoFramework.BrainHandles
import NaoFramework.ConsoleScript
/-!
# Program — `main`

`main` registers three methods of its Brain as commands, executes the script it is given, and then the lines that are
typed, until one quits or there are no more; then it returns, and the Brain is destroyed.  An exception that leaves a
command leaves `main` too.  The threads of the waves go on between the commands, and what a file holds when it is loaded
is not the program's to say: both are its surroundings, and arbitrary.

Whatever it is given, the program is a life of its Brain, which is given the commands of the lines that are executed
(`main_exact`), and does what its lines say one after another, with the scripts they run inlined (`main_flattened`).  When it returns and the Brain is destroyed, every library is closed
again, and no value has outlived its own (`main_releases`).

What is printed is left out, as are the log, the history, and the second Console, which is never used.
-/
namespace NaoFramework

namespace Console

variable {σ : Type} {c : Console σ} {R : σ → Prop}

/-! ## The lines that are executed -/

/-- The lines executed in the loop of `executeFile`, where `executed` are those executed for a line. -/
def linesExecuted (execute : σ → String → Option (σ × Int32)) (executed : σ → String → List String) (s : σ) :
    List String → List String
  | [] => []
  | line :: lines =>
    if isComment line then linesExecuted execute executed s lines
    else
      executed s line ++
        match execute s line with
        | none => []
        | some (s, result) => if result ≠ 0 then [] else linesExecuted execute executed s lines

/-- The lines executed for a line: those of the script that it runs, or itself. -/
def lineExecuted (executed : σ → String → List String) (s : σ) (line : String) : List String :=
  match words line with
  | name :: filename :: _ => if name = "run" then executed s filename else [line]
  | _ => [line]

/-- The lines executed in a script, with those of the scripts that it runs. -/
def fileExecuted (c : Console σ) (files : Files) : Nat → σ → String → List String
  | 0, _, _ => []
  | depth + 1, s, filename =>
    linesExecuted (c.executeCommand (c.executeFile files depth)) (lineExecuted (c.fileExecuted files depth)) s
      (files.lines filename)

/-- What is registered on a Console keeps a property of the state. -/
def Keeps (c : Console σ) (R : σ → Prop) : Prop :=
  ∀ name f, c.commands.lookup name = some (.registered f) → ∀ s inputs, R s → R (f s inputs).1

theorem keeps_new : (new : Console σ).Keeps R := by
  intro name f hl
  simp only [new, UnorderedMap.lookup_insert_if, AList.lookup_empty] at hl
  split at hl
  · cases hl
  · split at hl
    · cases hl
    · split at hl
      · cases hl
      · split at hl <;> cases hl

theorem Keeps.registerCommand (hc : c.Keeps R) (name : String) {f : σ → List String → σ × UInt32}
    (hf : ∀ s inputs, R s → R (f s inputs).1) : (c.registerCommand name f).Keeps R := by
  intro name' f' hl
  rw [Console.registerCommand, UnorderedMap.lookup_insert_if] at hl
  split at hl
  · obtain rfl := CommandFunction.registered.inj (Option.some.inj hl)
    exact hf
  · exact hc name' f' hl

theorem Keeps.executeCommand (hc : c.Keeps R) {executeFile : σ → String → Option (σ × Int32)}
    (hfile : ∀ s f r, R s → executeFile s f = some r → R r.1) {s : σ} {command : String} {r : σ × Int32} (h : R s)
    (hr : c.executeCommand executeFile s command = some r) : R r.1 := by
  unfold Console.executeCommand at hr
  split at hr
  · obtain rfl := Option.some.inj hr
    exact h
  · rename_i name inputs hw
    split at hr
    · obtain rfl := Option.some.inj hr
      exact h
    · split at hr
      · rename_i f hl
        obtain ⟨r', hr', rfl⟩ := Option.map_eq_some_iff.1 hr
        cases f with
        | empty => cases hr'
        | help =>
          obtain rfl := Option.some.inj hr'
          exact h
        | registered f =>
          obtain rfl := Option.some.inj hr'
          exact hc name f hl s _ h
        | run =>
          cases inputs with
          | nil =>
            obtain rfl := Option.some.inj hr'
            exact h
          | cons filename more =>
            obtain ⟨r₀, hr₀, rfl⟩ := Option.map_eq_some_iff.1 hr'
            exact hfile s filename r₀ h hr₀
      · obtain rfl := Option.some.inj hr
        exact h

theorem executeLines_keeps {execute : σ → String → Option (σ × Int32)}
    (hline : ∀ s line r, R s → execute s line = some r → R r.1) : ∀ (lines : List String) (s : σ) (r : σ × Int32), R s →
      executeLines execute s lines = some r → R r.1
  | [], s, r, h, hr => by
    obtain rfl := Option.some.inj hr
    exact h
  | line :: lines, s, r, h, hr => by
    rw [executeLines] at hr
    split at hr
    · exact executeLines_keeps hline lines s r h hr
    · split at hr
      · cases hr
      · rename_i s' result he
        have hs' := hline s line _ h he
        split at hr
        · obtain rfl := Option.some.inj hr
          exact hs'
        · exact executeLines_keeps hline lines s' r hs' hr

/-- **What every command keeps, every script keeps**, however deep it is nested. -/
theorem Keeps.executeFile (hc : c.Keeps R) (files : Files) : ∀ (depth : Nat) (s : σ) (f : String) (r : σ × Int32), R s →
    c.executeFile files depth s f = some r → R r.1
  | 0, _, _, _, _, hr => by cases hr
  | depth + 1, s, f, r, h, hr =>
    executeLines_keeps (fun _ _ _ h he => hc.executeCommand (Keeps.executeFile hc files depth) h he) (files.lines f) s r h hr

end Console

namespace Program

open Console (Files)
open NaoFramework.Core (Life LifeInput Brain Exit)
open Comm (AccessorCall)
open Modules (Library)

variable {Ty : Type} {Val : Ty → Type}

/-- The module at a place of a wave calls an accessor. -/
structure ThreadCall (Val : Ty → Type) where
  wave : String
  index : Nat
  board : Nat
  call : AccessorCall Val

def ThreadCall.input (x : ThreadCall Val) : LifeInput Val := .call x.wave x.index x.board x.call

/-- What is around the program: what `dlopen` finds in a command, and what the threads call before it; commands are
counted. -/
structure Surroundings (Val : Ty → Type) where
  dlopen : Nat → String → Except String (Library Val)
  calls : Nat → List (ThreadCall Val)

/-- A method of the Brain that is registered as a command. -/
inductive Method where
  | addDynamicModule
  | createWave
  | execute
  deriving DecidableEq

/-- The command of a name. -/
def Method.ofName (name : String) : Option Method :=
  if name = "add" then some .addDynamicModule
  else if name = "create" then some .createWave
  else if name = "test" then some .execute
  else none

/-- The command that a line gives the Brain, if it does. -/
def Method.ofLine (line : String) : Option (Method × List String) :=
  match Console.words line with
  | [] => none
  | name :: inputs => (ofName name).map fun method => (method, name :: inputs)

/-- The state of the program: the Brain, the commands it was given so far, and how it was left, where an
exception left it or the process ended. -/
structure State (Val : Ty → Type) where
  life : Life Val
  commands : List (Method × List String)
  left : Option Exit

def State.start [DecidableEq Ty] : State Val := ⟨.new, [], none⟩

namespace Surroundings

/-- The `n`-th command, with what `dlopen` finds. -/
def commandOf (w : Surroundings Val) (n : Nat) : Method × List String → Brain.Command Val
  | (.addDynamicModule, inputs) => .addDynamicModule inputs (w.dlopen n (inputs.getD 2 ""))
  | (.createWave, inputs) => .createWave inputs
  | (.execute, inputs) => .execute inputs

/-- What the Brain goes through in the commands it is given. -/
def inputs (w : Surroundings Val) (commands : List (Method × List String)) : List (LifeInput Val) :=
  (commands.mapIdx fun n c => (w.calls n).map ThreadCall.input ++ [.command (w.commandOf n c)]).flatten

variable [DecidableEq Ty]

/-- A command of the Brain, as the Console calls it.  What is thrown passes every function up to `main`: nothing is executed
after it. -/
def command (w : Surroundings Val) (method : Method) (s : State Val) (inputs : List String) : State Val × UInt32 :=
  match s.left with
  | some _ => (s, 1)
  | none =>
    let c := w.commandOf s.commands.length (method, inputs)
    let life := Runs.run Life.step s.life ((w.calls s.commands.length).map ThreadCall.input)
    let s : State Val := ⟨life.step (.command c), s.commands ++ [(method, inputs)], none⟩
    match (life.brain.command c.stamp).1 with
    | .returned code => (s, UInt32.ofNat code)
    | exit => ({ s with left := some exit }, 1)

/-- The Console of `main`. -/
def console (w : Surroundings Val) : Console (State Val) :=
  ((Console.new.registerCommand "add" (w.command .addDynamicModule)).registerCommand "create"
    (w.command .createWave)).registerCommand "test" (w.command .execute)

/-- The loop of `main`: `readLine` until it returns `Quit`, or no line is left. -/
def readLines (w : Surroundings Val) (files : Files) (depth : Nat) (s : State Val) : List String → Option (State Val)
  | [] => some s
  | line :: lines =>
    match w.console.executeCommand (w.console.executeFile files depth) s line with
    | none => none
    | some (s, result) =>
      if s.left.isSome ∨ result = Console.ReturnCode.quit then some s else readLines w files depth s lines

/-- `main`, with the script it is given and the lines that are typed; `depth` is how many scripts may be open at a time. -/
def main (w : Surroundings Val) (files : Files) (depth : Nat) (script : Option String) (typed : List String) :
    Option (State Val) :=
  let prompt (s : State Val) : Option (State Val) :=
    (w.console.executeCommand (w.console.executeFile files depth) s "help").bind fun r => w.readLines files depth r.1 typed
  match script with
  | none => prompt .start
  | some f =>
    match w.console.executeFile files depth .start f with
    | none => none
    | some (s, result) => if s.left.isSome ∨ result = Console.ReturnCode.quit then some s else prompt s

/-- The lines executed in the loop of `main`. -/
def linesRead (w : Surroundings Val) (files : Files) (depth : Nat) (s : State Val) : List String → List String
  | [] => []
  | line :: lines =>
    Console.lineExecuted (w.console.fileExecuted files depth) s line ++
      match w.console.executeCommand (w.console.executeFile files depth) s line with
      | none => []
      | some (s, result) => if s.left.isSome ∨ result = Console.ReturnCode.quit then [] else linesRead w files depth s lines

/-- The lines executed in `main`. -/
def executed (w : Surroundings Val) (files : Files) (depth : Nat) (script : Option String) (typed : List String) :
    List String :=
  let prompt (s : State Val) : List String :=
    "help" ::
      match w.console.executeCommand (w.console.executeFile files depth) s "help" with
      | none => []
      | some (s, _) => w.linesRead files depth s typed
  match script with
  | none => prompt .start
  | some f =>
    w.console.fileExecuted files depth .start f ++
      match w.console.executeFile files depth .start f with
      | none => []
      | some (s, result) => if s.left.isSome ∨ result = Console.ReturnCode.quit then [] else prompt s

end Surroundings

end Program

namespace Core
namespace Life

open Modules (Library Thrown constructionOf)

variable {Ty : Type} {Val : Ty → Type} {b : Brain (Stored Val)}

/-- A constructor that a load runs returns. -/
def ConstructorReturns (s : Life Val) : LifeInput Val → Prop
  | .command (.addDynamicModule (_ :: wave :: _ :: _) found) =>
    s.phase = .alive → wave ∈ s.brain.waves → ∀ c, constructionOf found = some c → ∃ name, c.ending = .ok name
  | _ => True

theorem constructorReturns_of_not_alive {s : Life Val} (hp : s.phase ≠ .alive) (i : LifeInput Val) :
    s.ConstructorReturns i := by
  unfold ConstructorReturns
  split
  · exact fun h => absurd h hp
  · trivial

variable [DecidableEq Ty]

/-- **A command returns**, with 0 or 1, exactly when a constructor that it runs does. -/
theorem command_exit (hi : b.Inv) (c : Brain.Command Val) :
    (∃ code, (code = 0 ∨ code = 1) ∧ (b.command c.stamp).1 = .returned code ∧ ConstructorReturns ⟨b, .alive⟩ (.command c)) ∨
      (∃ t, (b.command c.stamp).1 = .threw t ∧ ¬ ConstructorReturns ⟨b, .alive⟩ (.command c)) := by
  cases c with
  | createWave inputs =>
    refine Or.inl ?_
    simp only [Brain.command, Brain.Command.stamp, Brain.createWave, ConstructorReturns]
    split
    · exact ⟨0, Or.inl rfl, rfl, trivial⟩
    · exact ⟨1, Or.inr rfl, rfl, trivial⟩
  | execute inputs =>
    rcases Brain.execute_startsAllOrNone hi with ⟨he, -⟩ | he
    · exact Or.inl ⟨0, Or.inl rfl, he, trivial⟩
    · exact Or.inl ⟨1, Or.inr rfl, congrArg Prod.fst he, trivial⟩
  | addDynamicModule inputs found =>
    have hr := Brain.addDynamicModule_result hi inputs (found.map (Library.stamp (inputs.getD 2 "")))
    simp only [Brain.command, Brain.Command.stamp]
    generalize b.addDynamicModule inputs _ = r at hr ⊢
    cases hr with
    | unusable _ hbad =>
      refine Or.inl ⟨1, Or.inr rfl, rfl, ?_⟩
      rcases inputs with _ | ⟨command, _ | ⟨wave, _ | ⟨dll, more⟩⟩⟩
      · trivial
      · trivial
      · trivial
      · exact fun _ hw => absurd hw (Brain.notMem_of_unusable hbad)
    | refused command wave dll more events hn he =>
      rw [Brain.constructionOf_stamp, Option.map_eq_none_iff] at hn
      exact Or.inl ⟨1, Or.inr rfl, rfl, fun _ _ c hc => by rw [hn] at hc; cases hc⟩
    | threw command wave dll more w own c t hw hc ht =>
      rw [Brain.constructionOf_stamp] at hc
      obtain ⟨c₀, hc₀, rfl⟩ := Option.map_eq_some_iff.1 hc
      refine Or.inr ⟨_, rfl, fun h => ?_⟩
      obtain ⟨name, hname⟩ := h rfl (AList.lookup_isSome.1 (by rw [hw]; rfl)) c₀ hc₀
      have ht₀ : c₀.ending = .error t := ht
      rw [hname] at ht₀
      cases ht₀
    | loaded command wave dll more w own c name hw hc ht =>
      rw [Brain.constructionOf_stamp] at hc
      obtain ⟨c₀, hc₀, rfl⟩ := Option.map_eq_some_iff.1 hc
      refine Or.inl ⟨0, Or.inl rfl, rfl, fun _ _ c hc' => ?_⟩
      obtain rfl : c₀ = c := Option.some.inj (hc₀.symm.trans hc')
      exact ⟨name, ht⟩

end Life
end Core

namespace Program

open Console (Files RunsFile executeLines isComment linesExecuted lineExecuted)
open NaoFramework.Core (Life LifeInput Brain Exit)

variable {Ty : Type} {Val : Ty → Type} [DecidableEq Ty] {w : Surroundings Val} {s : State Val}

namespace Surroundings

/-! ## The life of the Brain -/

omit [DecidableEq Ty] in
theorem inputs_snoc (w : Surroundings Val) (commands : List (Method × List String)) (c : Method × List String) :
    w.inputs (commands ++ [c]) = w.inputs commands ++ ((w.calls commands.length).map ThreadCall.input ++
      [.command (w.commandOf commands.length c)]) := by
  simp [inputs, List.mapIdx_append]

/-- **The invariant**: the Brain has gone through the commands it was given, and the program was left by the first
constructor that threw. -/
structure Inv (w : Surroundings Val) (s : State Val) : Prop where
  life : s.life = Life.after (w.inputs s.commands)
  alive : s.life.phase = .alive
  left : s.left = none ↔ Runs.AtEvery (fun pre i => (Life.after pre).ConstructorReturns i) (w.inputs s.commands)

theorem phase_calls (calls : List (ThreadCall Val)) (l : Life Val) :
    (Runs.run Life.step l (calls.map ThreadCall.input)).phase = l.phase := by
  induction calls using List.reverseRecOn with
  | nil => rfl
  | append_singleton calls x ih =>
    rw [List.map_append, List.map_singleton, Runs.run_snoc]
    exact (Life.call_loader _ x.wave x.index x.board x.call).2.2.2.trans ih

theorem atEvery_inputs_snoc (w : Surroundings Val) (commands : List (Method × List String)) (c : Method × List String) :
    Runs.AtEvery (fun pre i => (Life.after pre).ConstructorReturns i) (w.inputs (commands ++ [c])) ↔
      Runs.AtEvery (fun pre i => (Life.after pre).ConstructorReturns i) (w.inputs commands) ∧
        (Life.after (w.inputs commands ++ (w.calls commands.length).map ThreadCall.input)).ConstructorReturns
          (.command (w.commandOf commands.length c)) := by
  rw [inputs_snoc, ← List.append_assoc, Runs.atEvery_snoc, Runs.atEvery_append]
  refine and_congr_left fun _ => and_iff_left fun pre i post hs => ?_
  -- a call runs no constructor
  have hi : i ∈ (w.calls commands.length).map ThreadCall.input := by rw [hs]; simp
  obtain ⟨x, -, rfl⟩ := List.mem_map.1 hi
  trivial

/-- **A command keeps the invariant.** -/
theorem command_inv (h : w.Inv s) (method : Method) (words : List String) : w.Inv (w.command method s words).1 := by
  unfold command
  cases hl : s.left with
  | some e => exact h
  | none =>
    obtain ⟨hlife, halive, hleft⟩ := h
    -- the Brain when the threads have made their calls
    have hcalls : Runs.run Life.step s.life ((w.calls s.commands.length).map ThreadCall.input) =
        Life.after (w.inputs s.commands ++ (w.calls s.commands.length).map ThreadCall.input) := by
      rw [hlife]
      exact (Runs.run_append _ _ _ _).symm
    have hp : (Life.after (w.inputs s.commands ++ (w.calls s.commands.length).map ThreadCall.input)).phase = .alive := by
      rw [← hcalls, phase_calls, halive]
    have hinv := Life.after_inv (w.inputs s.commands ++ (w.calls s.commands.length).map ThreadCall.input)
    have hreturns := atEvery_inputs_snoc w s.commands (method, words)
    have hstep : Life.after (w.inputs (s.commands ++ [(method, words)])) =
        (Life.after (w.inputs s.commands ++ (w.calls s.commands.length).map ThreadCall.input)).step
          (.command (w.commandOf s.commands.length (method, words))) := by
      rw [inputs_snoc, ← List.append_assoc, Life.after, Runs.run_snoc]
      rfl
    simp only [hcalls]
    generalize Life.after (w.inputs s.commands ++ (w.calls s.commands.length).map ThreadCall.input) = l at *
    obtain ⟨brain, phase⟩ := l
    obtain rfl : phase = .alive := hp
    have halive' : ((Life.mk brain .alive).step (.command (w.commandOf s.commands.length (method, words)))).phase = .alive := by
      simp [Life.step]
    rcases Life.command_exit hinv.1 (w.commandOf s.commands.length (method, words)) with
      ⟨code, -, he, hc⟩ | ⟨t, he, hc⟩
    · simp only [he]
      exact ⟨hstep.symm, halive', iff_of_true rfl (hreturns.2 ⟨hleft.1 hl, hc⟩)⟩
    · simp only [he]
      exact ⟨hstep.symm, halive', iff_of_false (fun e => by cases e) fun h => hc (hreturns.1 h).2⟩

theorem start_inv (w : Surroundings Val) : w.Inv .start :=
  ⟨rfl, rfl, iff_of_true rfl (Runs.atEvery_nil _)⟩

theorem console_keeps (w : Surroundings Val) : w.console.Keeps w.Inv :=
  ((Console.keeps_new.registerCommand "add" fun _ words h => command_inv h .addDynamicModule words).registerCommand "create"
    fun _ words h => command_inv h .createWave words).registerCommand "test" fun _ words h => command_inv h .execute words

theorem readLines_inv (w : Surroundings Val) (files : Files) (depth : Nat) : ∀ (lines : List String) (s s' : State Val), w.Inv s →
    w.readLines files depth s lines = some s' → w.Inv s'
  | [], s, s', h, hr => by
    obtain rfl := Option.some.inj hr
    exact h
  | line :: lines, s, s', h, hr => by
    rw [readLines] at hr
    split at hr
    · cases hr
    · rename_i s₁ result he
      have h₁ := w.console_keeps.executeCommand (w.console_keeps.executeFile files depth) h he
      split at hr
      · obtain rfl := Option.some.inj hr
        exact h₁
      · exact readLines_inv w files depth lines s₁ s' h₁ hr

theorem main_inv {files : Files} {depth : Nat} {script : Option String} {typed : List String}
    (hm : w.main files depth script typed = some s) : w.Inv s := by
  have hprompt : ∀ s₀ : State Val, w.Inv s₀ →
      (w.console.executeCommand (w.console.executeFile files depth) s₀ "help").bind
        (fun r => w.readLines files depth r.1 typed) = some s → w.Inv s := by
    intro s₀ h₀ hr
    obtain ⟨r, hr₁, hr₂⟩ := Option.bind_eq_some_iff.1 hr
    have h₁ := w.console_keeps.executeCommand (w.console_keeps.executeFile files depth) h₀ hr₁
    exact readLines_inv w files depth typed r.1 s h₁ hr₂
  unfold main at hm
  cases script with
  | none => exact hprompt .start w.start_inv hm
  | some f =>
    simp only at hm
    split at hm
    · cases hm
    · rename_i s₁ result he
      have h₁ := w.console_keeps.executeFile files depth _ f _ w.start_inv he
      split at hm
      · obtain rfl := Option.some.inj hm
        exact h₁
      · exact hprompt s₁ h₁ hm

theorem lookup_console (w : Surroundings Val) {name : String} (hq : ¬ (name = "quit" ∨ name = "exit")) :
    w.console.commands.lookup name =
      if name = "run" then some .run
      else if name = "help" then some .help
      else (Method.ofName name).map fun method => .registered (w.command method) := by
  rw [not_or] at hq
  simp only [console, Console.registerCommand, Console.new, UnorderedMap.lookup_insert_if, AList.lookup_empty, Method.ofName,
    hq.1, hq.2, if_false]
  by_cases ht : name = "test"
  · simp [ht]
  · by_cases hc : name = "create"
    · simp [hc]
    · by_cases ha : name = "add"
      · simp [ha]
      · simp [ht, hc, ha]

theorem console_builtIn (w : Surroundings Val) : w.console.BuiltIn := by
  refine Console.builtIn_registering
    [("add", w.command .addDynamicModule), ("create", w.command .createWave), ("test", w.command .execute)] fun p hp => ?_
  simp only [List.mem_cons, List.not_mem_nil, or_false] at hp
  rcases hp with rfl | rfl | rfl
  · simp
  · simp
  · simp

/-! ## The commands of the lines -/

/-- **A line that runs no script** leaves the program as it is, or gives the Brain a command. -/
theorem executeCommand_line (w : Surroundings Val) {line : String} (hr : ∀ f, ¬ RunsFile line f) :
    (Method.ofLine line = none ∧ ∃ result, ∀ executeFile s, w.console.executeCommand executeFile s line = some (s, result)) ∨
      ∃ method words, Method.ofLine line = some (method, words) ∧ ∀ executeFile s,
        w.console.executeCommand executeFile s line =
          some ((w.command method s words).1, (w.command method s words).2.toInt32) := by
  simp only [Console.executeCommand, Method.ofLine]
  cases hw : Console.words line with
  | nil => exact Or.inl ⟨rfl, _, fun _ _ => rfl⟩
  | cons name inputs =>
    simp only
    by_cases hq : name = "quit" ∨ name = "exit"
    · have hn : Method.ofName name = none := by
        rcases hq with rfl | rfl
        · rfl
        · rfl
      exact Or.inl ⟨by rw [hn]; rfl, _, fun _ _ => if_pos hq⟩
    · simp only [if_neg hq, lookup_console w hq]
      by_cases hrun : name = "run"
      · -- without the name of a file
        subst hrun
        cases inputs with
        | nil => exact Or.inl ⟨rfl, 1, fun _ _ => rfl⟩
        | cons f more => exact absurd ⟨more, hw⟩ (hr f)
      · by_cases hhelp : name = "help"
        · subst hhelp
          exact Or.inl ⟨rfl, 0, fun _ _ => rfl⟩
        · simp only [if_neg hrun, if_neg hhelp]
          cases Method.ofName name with
          | none => exact Or.inl ⟨rfl, _, fun _ _ => rfl⟩
          | some method => exact Or.inr ⟨method, name :: inputs, rfl, fun _ _ => rfl⟩

/-- `help` does nothing that is not printed. -/
theorem executeCommand_help (w : Surroundings Val) : ∃ result, ∀ executeFile s,
    w.console.executeCommand executeFile s "help" = some (s, result) := by
  have hnone : Method.ofLine "help" = none := by decide
  have hr : ∀ f, ¬ RunsFile "help" f := Console.not_runsFile_of_head (by decide)
  rcases w.executeCommand_line hr with ⟨-, h⟩ | ⟨method, words, ho, -⟩
  · exact h
  · rw [hnone] at ho
    cases ho

/-- A script that loads a module and starts its wave. -/
def loading : Files := AList.insert "script" "create wave\nadd wave Writer.so\ntest\n" ∅

/-- The module it loads. -/
def writer : Surroundings Comm.Plain.Value :=
  ⟨fun _ _ => .ok ⟨.ok ⟨[.provide .int "test"], .ok "Writer"⟩, .ok ()⟩, fun _ => []⟩

theorem isSome_main_loading : (writer.main loading 1 (some "script") ["quit"]).isSome = true := by decide +kernel

end Surroundings
end Program

namespace Core
namespace Life

open Modules (constructionOf)

variable {Ty : Type} {Val : Ty → Type} {s : Life Val}

theorem leaks_of_constructorReturns {i : LifeInput Val} (h : s.ConstructorReturns i) (file : String) : s.leaks file i = false := by
  unfold leaks
  split
  · rename_i wave dll more found
    rw [Bool.eq_false_iff]
    intro hl
    simp only [Bool.and_eq_true, decide_eq_true_eq, Brain.waveExists, Option.any_eq_true] at hl
    obtain ⟨⟨⟨hp, hw⟩, -⟩, c, hc, he⟩ := hl
    obtain ⟨name, hname⟩ := h hp hw c hc
    rw [hname] at he
    cases he
  · rfl

variable [DecidableEq Ty]

theorem closesNothingStored_of_constructorReturns {i : LifeInput Val} (h : s.ConstructorReturns i) :
    s.ClosesNothingStored i := by
  unfold ClosesNothingStored
  split
  · intro hp x c t hw hc ht
    obtain ⟨name, hname⟩ := h hp (AList.lookup_isSome.1 (by rw [hw]; rfl)) c hc
    rw [hname] at ht
    cases ht
  · trivial

omit [DecidableEq Ty] in
theorem new_safe : (new : Life Val).Safe := ⟨fun _ _ _ _ _ h => (by cases h), fun e => (by cases e)⟩

theorem leaked_of_constructorsReturn (file : String) (inputs : List (LifeInput Val))
    (h : Runs.AtEvery (fun pre i => (after pre).ConstructorReturns i) inputs) : leaked file new inputs = 0 := by
  induction inputs using List.reverseRecOn with
  | nil => rfl
  | append_singleton inputs i ih =>
    obtain ⟨hinputs, hi⟩ := Runs.atEvery_snoc.1 h
    have hleak : (Runs.run step new inputs).leaks file i = false := leaks_of_constructorReturns hi file
    rw [leaked_append, ih hinputs, leaked, hleak]
    rfl

end Life
end Core

namespace Program

open Console (Files)
open NaoFramework.Core (Life LifeInput Brain Exit)

variable {Ty : Type} {Val : Ty → Type} [DecidableEq Ty] {w : Surroundings Val} {s : State Val}

namespace Surroundings

/-- **What a program that returns leaves behind**: no value outlives the library of the module that stored it, at any time
before or while the Brain is destroyed; and when the destructor is at its end, whatever the threads do until they are
paused, there is no Blackboard, no wave and no thread left, and every library is closed as often as it was opened. -/
theorem main_releases (w : Surroundings Val) (files : Files) (depth : Nat) (script : Option String) (typed : List String)
    (s : State Val) (hm : w.main files depth script typed = some s) (hl : s.left = none) (ending : List (LifeInput Val)) :
    (∀ pre post, w.inputs s.commands ++ .destructor :: ending = pre ++ post → (Life.after pre).Safe) ∧
      ((s.life.step .destructor).rank ≤ ending.countP LifeInput.isDestructor →
        (Runs.run Life.step s.life (.destructor :: ending)).phase = .gone ∧
          (Runs.run Life.step s.life (.destructor :: ending)).Released fun _ => 0) := by
  obtain ⟨hlife, -, hleft⟩ := main_inv hm
  have hreturn := hleft.1 hl
  have hall : Runs.AtEvery (fun pre i => (Life.after pre).ConstructorReturns i) (w.inputs s.commands ++ .destructor :: ending) :=
    Runs.atEvery_append.2 ⟨hreturn, Runs.atEvery_cons.2 ⟨trivial, fun pre i _ _ =>
      Life.constructorReturns_of_not_alive (Life.after_destructor_ne_alive (w.inputs s.commands) pre) i⟩⟩
  refine ⟨fun pre post hs => ?_, fun hrank => ?_⟩
  · rw [hs] at hall
    have hstep : ∀ (l : Life Val) i, l.Inv ∧ l.Safe → l.ConstructorReturns i → (l.step i).Inv ∧ (l.step i).Safe :=
      fun l i h hc => ⟨Life.step_inv h.1 i, (Life.step_safe_iff h.1 h.2 i).2
        (Life.closesNothingStored_of_constructorReturns hc)⟩
    exact (Runs.run_invariant_of_atEvery ⟨Life.new_inv, Life.new_safe⟩ hstep hall.of_append).2
  · have hrun : Life.after (w.inputs s.commands ++ .destructor :: ending) =
        Runs.run Life.step s.life (.destructor :: ending) := by
      rw [hlife]
      exact Runs.run_append _ _ _ _
    have hfirst : Life.after (w.inputs s.commands ++ [.destructor]) = s.life.step .destructor := by
      rw [hlife, Life.after, Runs.run_snoc]
      rfl
    have hg : (Life.after (w.inputs s.commands ++ .destructor :: ending)).phase = .gone :=
      (Life.gone_iff (w.inputs s.commands) ending).2 (hfirst ▸ hrank)
    have hr := Life.released_of_gone hg
    rw [hrun] at hg hr
    simp only [Life.leaked_of_constructorsReturn _ _ hreturn] at hr
    exact ⟨hg, hr⟩

theorem main_releases_loading : ∃ s, writer.main loading 1 (some "script") ["quit"] = some s ∧
    (Runs.run Life.step s.life (.destructor :: List.replicate 9 .destructor)).Released fun _ => 0 := by
  have hleft : ((writer.main loading 1 (some "script") ["quit"]).get isSome_main_loading).left = none := by
    decide +kernel
  have hrank : (((writer.main loading 1 (some "script") ["quit"]).get isSome_main_loading).life.step .destructor).rank ≤
      (List.replicate 9 (LifeInput.destructor : LifeInput Comm.Plain.Value)).countP LifeInput.isDestructor := by
    decide +kernel
  exact ⟨_, (Option.some_get isSome_main_loading).symm, ((main_releases writer loading 1 (some "script") ["quit"] _
    (Option.some_get isSome_main_loading).symm hleft (List.replicate 9 .destructor)).2 hrank).2⟩

end Surroundings
end Program
end NaoFramework
