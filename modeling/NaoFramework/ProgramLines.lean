import NaoFramework.Program
/-!
# ProgramLines — what the lines of a program say

A script that runs others is the list of its lines with theirs inlined, and so is a typed line.  The program executes one
such list after another; in a list it stops at a line that does not pass, and at a line that quits, or that an exception
leaves, it ends (`plain`).  What `main` does with nested scripts, with results cast to `unsigned` and back and with `Quit`
among them, is no more than that (`main_flattened`).
-/
namespace NaoFramework
namespace Program

open Console (Files RunsFile executeInTurn not_runsFile_of_head)
open NaoFramework.Core (Life LifeInput Brain Exit)

variable {Ty : Type} {Val : Ty → Type}

/-- What a line comes to. -/
inductive Answer where
  | passed
  | failed
  | quits
  deriving DecidableEq

/-- The code that stands for it. -/
def Answer.Is (result : Int32) : Answer → Prop
  | passed => result = 0
  | failed => result ≠ 0 ∧ result ≠ Console.ReturnCode.quit
  | quits => result = Console.ReturnCode.quit

namespace Surroundings

variable [DecidableEq Ty]

/-- A line that runs no script. -/
def answer (w : Surroundings Val) (s : State Val) (line : String) : State Val × Answer :=
  match Console.words line with
  | [] => (s, .failed)
  | name :: inputs =>
    if name = "quit" ∨ name = "exit" then (s, .quits)
    else if name = "help" then (s, .passed)
    else
      match Method.ofName name with
      | none => (s, .failed)
      | some method =>
        let r := w.command method s (name :: inputs)
        (r.1, if r.2 = 0 then .passed else .failed)

/-- Lines up to the first that does not pass. -/
def block (w : Surroundings Val) (s : State Val) : List String → State Val × Answer
  | [] => (s, .passed)
  | line :: lines =>
    match w.answer s line with
    | (s, .passed) => w.block s lines
    | r => r

/-- One list of lines after another, until one quits or an exception leaves it. -/
def plain (w : Surroundings Val) (s : State Val) : List (List String) → State Val
  | [] => s
  | lines :: blocks =>
    let r := w.block s lines
    if r.1.left.isSome ∨ r.2 = .quits then r.1 else w.plain r.1 blocks

end Surroundings

/-- What a typed line stands for: the lines of the script that it runs, or itself.  No typed line is a comment. -/
def Typed (files : Files) (line : String) (lines : List String) : Prop :=
  (∃ f, RunsFile line f ∧ files.Flattens (files.lines f) lines) ∨ ((∀ f, ¬ RunsFile line f) ∧ lines = [line])

/-- The lists of lines of a program: that of its script, and one for every line that is typed. -/
def Blocks (files : Files) (script : Option String) (typed : List String) (blocks : List (List String)) : Prop :=
  ∃ first rest, blocks = first ++ rest ∧ List.Forall₂ (fun f lines => files.Flattens (files.lines f) lines) script.toList first ∧
    List.Forall₂ (Typed files) typed rest

/-! ## One line -/

theorem Answer.Is.quit_iff {a : Answer} {result : Int32} (h : a.Is result) :
    result = Console.ReturnCode.quit ↔ a = .quits := by
  cases a with
  | passed =>
    obtain rfl : result = 0 := h
    exact iff_of_false (by decide) (by decide)
  | failed => exact iff_of_false h.2 (by decide)
  | quits => exact iff_of_true h rfl

namespace Surroundings

variable [DecidableEq Ty] {w : Surroundings Val} {s : State Val} {files : Files} {line : String}

theorem command_result (h : w.Inv s) (method : Method) (words : List String) :
    (w.command method s words).2 = 0 ∨ (w.command method s words).2 = 1 := by
  unfold command
  cases hl : s.left with
  | some e => exact Or.inr rfl
  | none =>
    have hp := (phase_calls (w.calls s.commands.length) s.life).trans h.alive
    have hi : (Runs.run Life.step s.life ((w.calls s.commands.length).map ThreadCall.input)).Inv := by
      rw [h.life]
      have hstep : ∀ (l : Life Val) i, l.Inv → (l.step i).Inv := fun _ i h => Life.step_inv h i
      exact Runs.run_invariant hstep _ _ (Life.after_inv _)
    simp only
    generalize Runs.run Life.step s.life ((w.calls s.commands.length).map ThreadCall.input) = l at *
    obtain ⟨brain, phase⟩ := l
    obtain rfl : phase = .alive := hp
    rcases Life.command_exit hi.1 (w.commandOf s.commands.length (method, words)) with ⟨code, hc, he, -⟩ | ⟨t, he, -⟩
    · simp only [he]
      rcases hc with rfl | rfl
      · exact Or.inl rfl
      · exact Or.inr rfl
    · exact Or.inr (by simp only [he])

/-- **A line that runs no script** is answered, whatever scripts would do. -/
theorem executeCommand_answer (h : w.Inv s) (hr : ∀ f, ¬ RunsFile line f) :
    ∃ result, (∀ executeFile, w.console.executeCommand executeFile s line = some ((w.answer s line).1, result)) ∧
      (w.answer s line).2.Is result := by
  unfold Console.executeCommand answer
  cases hw : Console.words line with
  | nil => exact ⟨1, fun _ => rfl, by decide, by decide⟩
  | cons name inputs =>
    simp only
    by_cases hq : name = "quit" ∨ name = "exit"
    · simp only [if_pos hq]
      exact ⟨Console.ReturnCode.quit, fun _ => rfl, rfl⟩
    · simp only [if_neg hq, lookup_console w hq]
      by_cases hrun : name = "run"
      · -- without the name of a file
        subst hrun
        cases inputs with
        | nil => exact ⟨1, fun _ => rfl, by decide, by decide⟩
        | cons f more => exact absurd ⟨more, hw⟩ (hr f)
      · by_cases hhelp : name = "help"
        · subst hhelp
          exact ⟨0, fun _ => rfl, rfl⟩
        · simp only [if_neg hrun, if_neg hhelp]
          cases Method.ofName name with
          | none => exact ⟨Console.ReturnCode.error, fun _ => rfl, by decide, by decide⟩
          | some method =>
            refine ⟨(w.command method s (name :: inputs)).2.toInt32, fun _ => rfl, ?_⟩
            rcases command_result h method (name :: inputs) with hc | hc
            · simp only [hc, if_true]
              rfl
            · simp only [hc]
              exact ⟨by decide, by decide⟩

theorem answer_inv (h : w.Inv s) (line : String) : w.Inv (w.answer s line).1 := by
  unfold answer
  split
  · exact h
  · split
    · exact h
    · split
      · exact h
      · split
        · exact h
        · exact command_inv h _ _

/-! ## Lists of lines -/

theorem block_inv : ∀ (lines : List String) (s : State Val), w.Inv s → w.Inv (w.block s lines).1
  | [], _, h => h
  | line :: lines, s, h => by
    have ha := answer_inv h line
    rw [block]
    split
    · rename_i s' he
      rw [he] at ha
      exact block_inv lines s' ha
    · exact ha

/-- Lines that run no scripts, executed in turn. -/
theorem executeInTurn_block : ∀ (lines : List String) (s : State Val), w.Inv s → (∀ line ∈ lines, ∀ f, ¬ RunsFile line f) →
    ∃ result, executeInTurn (w.console.executeCommand fun _ _ => none) s lines = some ((w.block s lines).1, result) ∧
      (w.block s lines).2.Is result
  | [], s, _, _ => ⟨0, rfl, rfl⟩
  | line :: lines, s, h, hr => by
    obtain ⟨result, he, ha⟩ := executeCommand_answer h (hr line List.mem_cons_self)
    have hi := answer_inv h line
    rw [executeInTurn, block, he]
    generalize w.answer s line = r at ha hi ⊢
    obtain ⟨s', a⟩ := r
    cases a with
    | passed =>
      obtain rfl : result = 0 := ha
      simp only [ne_eq, not_true_eq_false, if_false]
      exact executeInTurn_block lines s' hi fun l hl => hr l (List.mem_cons_of_mem _ hl)
    | failed =>
      simp only [if_pos ha.1]
      exact ⟨result, rfl, ha⟩
    | quits =>
      obtain rfl : result = Console.ReturnCode.quit := ha
      exact ⟨Console.ReturnCode.quit, rfl, rfl⟩

/-- A script does what its lines say. -/
theorem executeFile_block {f : String} {lines : List String} (hf : files.Flattens (files.lines f) lines) :
    ∃ depth, ∀ d, depth ≤ d → ∀ s : State Val, w.Inv s → ∃ result,
      w.console.executeFile files d s f = some ((w.block s lines).1, result) ∧ (w.block s lines).2.Is result := by
  obtain ⟨depth, hsim⟩ := w.console_builtIn.simulates hf
  refine ⟨depth + 1, fun d hd s h => ?_⟩
  obtain ⟨d, rfl⟩ : ∃ d', d = d' + 1 := ⟨d - 1, by omega⟩
  obtain ⟨result, he, ha⟩ := executeInTurn_block lines s h (Console.Flattens.not_runsFile hf)
  exact ⟨result, (hsim d (by omega) s).trans he, ha⟩

theorem block_singleton (w : Surroundings Val) (s : State Val) (line : String) : w.block s [line] = w.answer s line := by
  rw [block]
  split
  · rename_i s' he
    rw [he]
    rfl
  · rfl

/-- A typed line does what it stands for. -/
theorem executeCommand_block {lines : List String} (ht : Typed files line lines) :
    ∃ depth, ∀ d, depth ≤ d → ∀ s : State Val, w.Inv s → ∃ result,
      w.console.executeCommand (w.console.executeFile files d) s line = some ((w.block s lines).1, result) ∧
        (w.block s lines).2.Is result := by
  rcases ht with ⟨f, hr, hf⟩ | ⟨hr, rfl⟩
  · obtain ⟨depth, hd⟩ := executeFile_block (w := w) hf
    refine ⟨depth, fun d hle s h => ?_⟩
    rw [w.console_builtIn.executeCommand_run _ s hr]
    exact hd d hle s h
  · refine ⟨0, fun d _ s h => ?_⟩
    obtain ⟨result, he, ha⟩ := executeCommand_answer h hr
    rw [block_singleton]
    exact ⟨result, he _, ha⟩

/-! ## The program -/

theorem readLines_plain {typed : List String} {blocks : List (List String)} (ht : List.Forall₂ (Typed files) typed blocks) :
    ∃ depth, ∀ d, depth ≤ d → ∀ s : State Val, w.Inv s → w.readLines files d s typed = some (w.plain s blocks) := by
  induction ht with
  | nil => exact ⟨0, fun _ _ _ _ => rfl⟩
  | @cons line lines typed blocks hl _ ih =>
    obtain ⟨depth₁, hline⟩ := executeCommand_block (w := w) hl
    obtain ⟨depth₂, hrest⟩ := ih
    refine ⟨max depth₁ depth₂, fun d hd s h => ?_⟩
    obtain ⟨result, he, ha⟩ := hline d (by omega) s h
    rw [readLines, he, plain]
    simp only [ha.quit_iff]
    split
    · rfl
    · exact hrest d (by omega) _ (block_inv lines s h)

theorem main_plain {script : Option String} {typed : List String} {blocks : List (List String)}
    (hb : Blocks files script typed blocks) :
    ∃ depth, ∀ d, depth ≤ d → w.main files d script typed = some (w.plain .start blocks) := by
  obtain ⟨first, rest, rfl, hfirst, hrest⟩ := hb
  obtain ⟨depth₂, hrest⟩ := readLines_plain (w := w) hrest
  have hprompt : ∀ d, depth₂ ≤ d → ∀ s : State Val, w.Inv s →
      ((w.console.executeCommand (w.console.executeFile files d) s "help").bind fun r => w.readLines files d r.1 typed) =
        some (w.plain s rest) := by
    intro d hd s h
    obtain ⟨result, he⟩ := w.executeCommand_help
    rw [he, Option.bind_some]
    exact hrest d hd s h
  cases script with
  | none =>
    cases hfirst
    exact ⟨depth₂, fun d hd => hprompt d hd .start w.start_inv⟩
  | some f =>
    obtain ⟨lines, none, hf, hnil, rfl⟩ := List.forall₂_cons_left_iff.1 hfirst
    cases hnil
    obtain ⟨depth₁, hscript⟩ := executeFile_block (w := w) hf
    refine ⟨max depth₁ depth₂, fun d hd => ?_⟩
    obtain ⟨result, he, ha⟩ := hscript d (by omega) .start w.start_inv
    rw [main]
    simp only [he, ha.quit_iff, List.cons_append, List.nil_append, plain]
    split
    · rfl
    · exact hprompt d (by omega) _ (block_inv lines .start w.start_inv)

theorem typed_unique {lines lines' : List String} (h : Typed files line lines) (h' : Typed files line lines') : lines' = lines := by
  rcases h with ⟨f, hr, hf⟩ | ⟨hr, rfl⟩
  · rcases h' with ⟨f', hr', hf'⟩ | ⟨hr', -⟩
    · obtain rfl := hr.unique hr'
      exact Console.Flattens.unique hf hf'
    · exact absurd hr (hr' f)
  · rcases h' with ⟨f', hr', -⟩ | ⟨-, rfl⟩
    · exact absurd hr' (hr f')
    · rfl

/-- A program has one list of lists of lines. -/
theorem blocks_unique {script : Option String} {typed : List String} {blocks blocks' : List (List String)}
    (h : Blocks files script typed blocks) (h' : Blocks files script typed blocks') : blocks' = blocks := by
  obtain ⟨first, rest, rfl, hf, hr⟩ := h
  obtain ⟨first', rest', rfl, hf', hr'⟩ := h'
  have hscript : Relator.RightUnique fun f lines => files.Flattens (files.lines f) lines :=
    fun _ _ _ h h' => Console.Flattens.unique h' h
  have htyped : Relator.RightUnique (Typed files) := fun _ _ _ h h' => typed_unique h' h
  rw [List.right_unique_forall₂' hscript hf' hf, List.right_unique_forall₂' htyped hr' hr]

theorem exists_blocks (hfiles : files.Acyclic) (script : Option String) (typed : List String) :
    ∃ blocks, Blocks files script typed blocks := by
  have hfirst : ∀ fs : List String, ∃ first, List.Forall₂ (fun f lines => files.Flattens (files.lines f) lines) fs first := by
    intro fs
    induction fs with
    | nil => exact ⟨[], .nil⟩
    | cons f fs ih =>
      obtain ⟨first, hf⟩ := ih
      obtain ⟨lines, hl⟩ := hfiles.flattens f
      exact ⟨lines :: first, .cons hl hf⟩
  have hrest : ∃ rest, List.Forall₂ (Typed files) typed rest := by
    induction typed with
    | nil => exact ⟨[], .nil⟩
    | cons line typed ih =>
      obtain ⟨rest, hr⟩ := ih
      by_cases hrun : ∃ f, RunsFile line f
      · obtain ⟨f, hf⟩ := hrun
        obtain ⟨lines, hl⟩ := hfiles.flattens f
        exact ⟨lines :: rest, .cons (Or.inl ⟨f, hf, hl⟩) hr⟩
      · exact ⟨[line] :: rest, .cons (Or.inr ⟨fun f hf => hrun ⟨f, hf⟩, rfl⟩) hr⟩
  obtain ⟨first, hf⟩ := hfirst script.toList
  obtain ⟨rest, hr⟩ := hrest
  exact ⟨first ++ rest, first, rest, rfl, hf, hr⟩

/-- **A program does what its lines say**: its script and the lines that are typed stand for one list of lists of lines, and
with depth enough `main` comes to its end, where executing these one after another comes. -/
theorem main_flattened (w : Surroundings Val) (files : Files) (hfiles : files.Acyclic) (script : Option String)
    (typed : List String) : ∃ blocks, Blocks files script typed blocks ∧
      (∀ blocks', Blocks files script typed blocks' → blocks' = blocks) ∧
        ∃ depth, ∀ d, depth ≤ d → w.main files d script typed = some (w.plain .start blocks) := by
  obtain ⟨blocks, hb⟩ := exists_blocks hfiles script typed
  exact ⟨blocks, hb, fun _ hb' => blocks_unique hb hb', main_plain hb⟩

theorem main_flattened_loading : ∃ depth, ∀ d, depth ≤ d → writer.main loading d (some "script") ["quit"] =
    some (writer.plain .start [["create wave", "add wave Writer.so", "test"], ["quit"]]) := by
  have hlines : loading.lines "script" = ["create wave", "add wave Writer.so", "test"] := by decide
  have hacyclic : loading.Acyclic := Files.acyclic_of_rank (fun _ => 0) (by decide)
  have hb : Blocks loading (some "script") ["quit"] [["create wave", "add wave Writer.so", "test"], ["quit"]] := by
    refine ⟨[_], [["quit"]], rfl, .cons ?_ .nil, .cons (Or.inr ⟨not_runsFile_of_head (by decide), rfl⟩) .nil⟩
    rw [hlines]
    refine .line _ _ _ (by decide) (not_runsFile_of_head (by decide)) ?_
    refine .line _ _ _ (by decide) (not_runsFile_of_head (by decide)) ?_
    exact .line _ _ _ (by decide) (not_runsFile_of_head (by decide)) .nil
  obtain ⟨blocks, -, hunique, depth, h⟩ := main_flattened writer loading hacyclic (some "script") ["quit"]
  exact ⟨depth, hunique _ hb ▸ h⟩

end Surroundings
end Program
end NaoFramework
