import NaoFramework.UnorderedMap
/-!
# Console — commands and scripts

`executeCommand` splits a line into words and calls the function registered under the first; `executeFile` executes the
lines of a file until one returns what is not zero.  They call each other through the built-in command `run`, so a
script may run others.  The program state a command works on is `σ`; files are read as they were at the start.  A result
passes from a script through `run` as an unsigned code, and is cast back to `int`.
-/
namespace NaoFramework
namespace Console

/-- The files there are, with their texts. -/
abbrev Files : Type := UnorderedMap String String

/-- White space, as `std::isspace` has it in the default locale. -/
def isspace (c : Char) : Bool := c = ' ' || ('\t' ≤ c && c ≤ '\r')

/-- The words `operator>>` reads from a line. -/
def words (line : String) : List String := ((line.toList.splitOnP isspace).filter (· ≠ [])).map String.ofList

example : words " run\tscript.txt " = ["run", "script.txt"] := by decide

/-- The lines `std::getline` reads from a text; an end of line at its end begins no further one. -/
def getlines (text : String) : List String :=
  let pieces := text.toList.splitOn '\n'
  (if pieces.getLast? = some [] then pieces.dropLast else pieces).map String.ofList

example : getlines "create wave\n\nquit\n" = ["create wave", "", "quit"] ∧ getlines "" = [] := by decide

/-- The lines of a file; there are none in a file that cannot be opened. -/
def Files.lines (files : Files) (filename : String) : List String := getlines ((files.lookup filename).getD "")

/-- `command[0] == '#'`. -/
def isComment (command : String) : Bool := command.toList.head? = some '#'

namespace ReturnCode

def quit : Int32 := -1

def ok : Int32 := 0

def error : Int32 := 1

end ReturnCode

variable {σ : Type}

/-- A `std::function` of the commands: empty, one of the two built in, or one that was registered. -/
inductive CommandFunction (σ : Type) where
  | empty
  | help
  | run
  | registered (f : σ → List String → σ × UInt32)

/-- The call of a command; `none` when it does not return, as the call of an empty function, which throws. -/
def CommandFunction.call (executeFile : σ → String → Option (σ × Int32)) (s : σ) (inputs : List String) :
    CommandFunction σ → Option (σ × UInt32)
  | empty => none
  | help => some (s, 0)
  | run =>
    match inputs with
    | _ :: filename :: _ => (executeFile s filename).map fun r => (r.1, r.2.toUInt32)
    | _ => some (s, 1)
  | registered f => some (f s inputs)

end Console

structure Console (σ : Type) where
  commands : UnorderedMap String (Console.CommandFunction σ)

namespace Console

variable {σ : Type}

/-- The constructor. -/
def new : Console σ :=
  ⟨((((∅ : UnorderedMap String (CommandFunction σ)).insert "quit" .empty).insert "exit" .empty).insert "help" .help).insert
    "run" .run⟩

def registerCommand (c : Console σ) (s : String) (f : σ → List String → σ × UInt32) : Console σ :=
  ⟨c.commands.insert s (.registered f)⟩

/-- `executeFile` is what `run` calls. -/
def executeCommand (c : Console σ) (executeFile : σ → String → Option (σ × Int32)) (s : σ) (command : String) :
    Option (σ × Int32) :=
  match words command with
  | [] => some (s, 1)
  | name :: inputs =>
    if name = "quit" ∨ name = "exit" then some (s, ReturnCode.quit)
    else
      match c.commands.lookup name with
      | some f => (f.call executeFile s (name :: inputs)).map fun r => (r.1, r.2.toInt32)
      | none => some (s, ReturnCode.error)

/-- The loop of `executeFile`. -/
def executeLines (executeCommand : σ → String → Option (σ × Int32)) (s : σ) : List String → Option (σ × Int32)
  | [] => some (s, ReturnCode.ok)
  | command :: commands =>
    if isComment command then executeLines executeCommand s commands
    else
      match executeCommand s command with
      | none => none
      | some (s, result) => if result ≠ 0 then some (s, result) else executeLines executeCommand s commands

/-- `depth` is how many calls of it may be open at a time; `none` when that is not enough. -/
def executeFile (c : Console σ) (files : Files) : Nat → σ → String → Option (σ × Int32)
  | 0, _, _ => none
  | depth + 1, s, filename => executeLines (c.executeCommand (c.executeFile files depth)) s (files.lines filename)

end Console
end NaoFramework
