import NaoFramework.ConsoleScript
/-!
# ConsoleResult — what a script returns of its commands

A script should succeed exactly when its commands do: comments and lines without a word are no commands, and a file that
cannot be opened is an error.  `executeFile` returns `Ok` for a file it cannot open, and `executeCommand` has
`return true` for a line without a word, which the loop takes for an error and ends on (`script_exact_iff`).
-/
namespace NaoFramework
namespace Console

variable {σ : Type}

/-- A line with a word that is no comment. -/
def isCommandLine (line : String) : Bool := !isComment line && !(words line).isEmpty

/-- The lines that the loop of `executeFile` gives to `executeCommand`. -/
def executedLines (executeCommand : σ → String → Option (σ × Int32)) (s : σ) : List String → List String
  | [] => []
  | command :: commands =>
    if isComment command then executedLines executeCommand s commands
    else
      command ::
        match executeCommand s command with
        | none => []
        | some (s, result) => if result ≠ 0 then [] else executedLines executeCommand s commands

/-- The lines that are executed of a list, executed in turn until one returns what is not zero. -/
def executedInTurn (execute : σ → String → Option (σ × Int32)) (s : σ) : List String → List String
  | [] => []
  | line :: lines =>
    line ::
      match execute s line with
      | none => []
      | some (s, result) => if result ≠ 0 then [] else executedInTurn execute s lines

/-- **A script does as its commands do**, where it returns `r`; `execute` executes a line of it.  It returns `Ok` exactly
when it can be opened and its commands, in turn, all return `Ok`; otherwise its result is that of the first command that
does not, and no command after it is executed. -/
structure AsItsCommands (execute : σ → String → Option (σ × Int32)) (files : Files) (s : σ) (filename : String)
    (r : σ × Int32) : Prop where
  ok_iff : r.2 = ReturnCode.ok ↔ filename ∈ files ∧
    ∃ s', executeInTurn execute s ((files.lines filename).filter isCommandLine) = some (s', ReturnCode.ok)
  unopened : filename ∉ files → ReturnCode.error ≤ r.2
  result : filename ∈ files → executeInTurn execute s ((files.lines filename).filter isCommandLine) = some r
  executed : filename ∈ files → (executedLines execute s (files.lines filename)).filter isCommandLine =
    executedInTurn execute s ((files.lines filename).filter isCommandLine)

/-- The script comes to a line without a word: everything before it returns `Ok`. -/
inductive ComesToBlank (execute : σ → String → Option (σ × Int32)) : σ → List String → Prop where
  | blank (s : σ) (line : String) (rest : List String) (hc : isComment line = false) (hw : words line = []) :
      ComesToBlank execute s (line :: rest)
  | comment (s : σ) (line : String) (rest : List String) (hc : isComment line = true) (h : ComesToBlank execute s rest) :
      ComesToBlank execute s (line :: rest)
  | command (s s' : σ) (line : String) (rest : List String) (hc : isCommandLine line = true)
      (he : execute s line = some (s', ReturnCode.ok)) (h : ComesToBlank execute s' rest) :
      ComesToBlank execute s (line :: rest)

/-! ## The loop -/

/-- The loop does on its lines as the commands among them do. -/
def LoopRight (execute : σ → String → Option (σ × Int32)) (s : σ) (lines : List String) (r : σ × Int32) : Prop :=
  executeInTurn execute s (lines.filter isCommandLine) = some r ∧
    (executedLines execute s lines).filter isCommandLine = executedInTurn execute s (lines.filter isCommandLine)

variable {execute : σ → String → Option (σ × Int32)} {s s' : σ} {line : String} {lines : List String} {r : σ × Int32}

theorem isCommandLine_iff : isCommandLine line = true ↔ isComment line = false ∧ words line ≠ [] := by
  simp [isCommandLine]

/-- A comment is passed over. -/
theorem loopRight_comment (hc : isComment line = true) :
    LoopRight execute s (line :: lines) r ↔ LoopRight execute s lines r := by
  have hno : ¬ isCommandLine line = true := by
    rw [isCommandLine_iff, hc]
    simp
  simp only [LoopRight, executedLines, if_pos hc, List.filter_cons_of_neg hno]

theorem comesToBlank_comment (hc : isComment line = true) :
    ComesToBlank execute s (line :: lines) ↔ ComesToBlank execute s lines := by
  refine ⟨?_, .comment s line lines hc⟩
  rintro (⟨_, _, _, hc', -⟩ | ⟨_, _, _, -, h⟩ | ⟨_, _, _, _, hl, -, -⟩)
  · rw [hc] at hc'; cases hc'
  · exact h
  · rw [(isCommandLine_iff.1 hl).1] at hc; cases hc

/-- A line without a word ends the loop where the commands would go on, or be done. -/
theorem not_loopRight_blank (hc : isComment line = false) (hw : words line = [])
    (he : execute s line = some (s, ReturnCode.error)) :
    ¬ LoopRight execute s (line :: lines) (s, ReturnCode.error) := by
  have hno : ¬ isCommandLine line = true := fun hl => (isCommandLine_iff.1 hl).2 hw
  have hne : ReturnCode.error ≠ 0 := by decide
  rintro ⟨hr, hx⟩
  simp only [executedLines, if_neg (ne_true_of_eq_false hc), he, if_pos hne, List.filter_cons_of_neg hno, List.filter_nil] at hx
  rw [List.filter_cons_of_neg hno] at hr
  cases hl : lines.filter isCommandLine with
  | nil =>
    rw [hl] at hr
    have : ReturnCode.ok = ReturnCode.error := congrArg Prod.snd (Option.some.inj hr)
    exact absurd this (by decide)
  | cons command commands =>
    rw [hl] at hx
    cases hx

/-- A command that does not return `Ok` ends the loop, and so it is to be. -/
theorem loopRight_failed (hl : isCommandLine line = true) (he : execute s line = some r) (hr : r.2 ≠ ReturnCode.ok) :
    LoopRight execute s (line :: lines) r := by
  have hc := (isCommandLine_iff.1 hl).1
  have hne : r.2 ≠ 0 := hr
  refine ⟨?_, ?_⟩
  · simp only [List.filter_cons_of_pos hl, executeInTurn, he, if_pos hne]
  · simp only [List.filter_cons_of_pos hl, executedLines, executedInTurn, if_neg (ne_true_of_eq_false hc), he, if_pos hne,
      List.filter_nil]

/-- A command that returns `Ok` is followed by the rest. -/
theorem loopRight_passed (hl : isCommandLine line = true) (he : execute s line = some (s', ReturnCode.ok)) :
    LoopRight execute s (line :: lines) r ↔ LoopRight execute s' lines r := by
  have hc := (isCommandLine_iff.1 hl).1
  simp only [LoopRight, List.filter_cons_of_pos hl, executeInTurn, executedLines, executedInTurn,
    if_neg (ne_true_of_eq_false hc), he, ReturnCode.ok, ne_eq, not_true_eq_false, if_false, List.cons.injEq, true_and]

theorem comesToBlank_command (hl : isCommandLine line = true) (he : execute s line = some r) :
    ComesToBlank execute s (line :: lines) ↔ r.2 = ReturnCode.ok ∧ ComesToBlank execute r.1 lines := by
  obtain ⟨hc, hw⟩ := isCommandLine_iff.1 hl
  constructor
  · rintro (⟨_, _, _, -, hw'⟩ | ⟨_, _, _, hc', -⟩ | ⟨_, s', _, _, -, he', h⟩)
    · exact absurd hw' hw
    · rw [hc] at hc'; cases hc'
    · obtain rfl := Option.some.inj (he.symm.trans he')
      exact ⟨rfl, h⟩
  · rintro ⟨hr, h⟩
    exact .command s r.1 line lines hl (by rw [he, ← hr]) h

/-- **Where the loop is right**: exactly unless it comes to a line without a word. -/
theorem loopRight_iff (hblank : ∀ s line, words line = [] → execute s line = some (s, ReturnCode.error)) :
    ∀ (lines : List String) (s : σ) (r : σ × Int32), executeLines execute s lines = some r →
      (LoopRight execute s lines r ↔ ¬ ComesToBlank execute s lines)
  | [], s, r, h => iff_of_true ⟨h, rfl⟩ (by rintro ⟨⟩)
  | line :: lines, s, r, h => by
    cases hc : isComment line with
    | true =>
      rw [executeLines, if_pos hc] at h
      rw [loopRight_comment hc, comesToBlank_comment hc]
      exact loopRight_iff hblank lines s r h
    | false =>
      rw [executeLines, if_neg (ne_true_of_eq_false hc)] at h
      by_cases hw : words line = []
      · have he := hblank s line hw
        have hne : ReturnCode.error ≠ 0 := by decide
        rw [he] at h
        simp only [if_pos hne] at h
        obtain rfl := Option.some.inj h
        exact iff_of_false (not_loopRight_blank hc hw he) (not_not.2 (.blank s line lines hc hw))
      · have hl := isCommandLine_iff.2 ⟨hc, hw⟩
        cases he : execute s line with
        | none => rw [he] at h; cases h
        | some x =>
          obtain ⟨s', result⟩ := x
          rw [he] at h
          rw [comesToBlank_command hl he]
          by_cases hr : result = ReturnCode.ok
          · subst hr
            simp only [ReturnCode.ok, ne_eq, not_true_eq_false, if_false] at h
            rw [loopRight_passed hl he, loopRight_iff hblank lines s' r h]
            simp
          · simp only [if_pos (show result ≠ 0 from hr)] at h
            obtain rfl := Option.some.inj h
            exact iff_of_true (loopRight_failed hl he hr) fun hb => hr hb.1

/-! ## Whole scripts -/

theorem executeCommand_blank (c : Console σ) (executeFile : σ → String → Option (σ × Int32)) (s : σ) {line : String}
    (h : words line = []) : c.executeCommand executeFile s line = some (s, ReturnCode.error) := by
  simp only [executeCommand, h]
  rfl

/-- **Where a script does as its commands do**: whenever it returns, exactly if it can be opened and comes to no line
without a word. -/
theorem script_exact_iff (c : Console σ) (files : Files) (depth : Nat) (s : σ) (filename : String) (r : σ × Int32)
    (h : c.executeFile files (depth + 1) s filename = some r) :
    AsItsCommands (c.executeCommand (c.executeFile files depth)) files s filename r ↔
      filename ∈ files ∧ ¬ ComesToBlank (c.executeCommand (c.executeFile files depth)) s (files.lines filename) := by
  have hloop := loopRight_iff (fun s _ => c.executeCommand_blank (c.executeFile files depth) s) _ s r h
  constructor
  · intro hr
    have hf : filename ∈ files := by
      by_contra hf
      rw [executeFile, Files.lines_of_notMem hf] at h
      obtain rfl := Option.some.inj h
      have : ReturnCode.error ≤ ReturnCode.ok := hr.unopened hf
      exact absurd this (by decide)
    exact ⟨hf, hloop.1 ⟨hr.result hf, hr.executed hf⟩⟩
  · rintro ⟨hf, hb⟩
    obtain ⟨hr, hx⟩ := hloop.2 hb
    refine ⟨?_, fun hn => absurd hf hn, fun _ => hr, fun _ => hx⟩
    rw [hr]
    constructor
    · intro hok
      exact ⟨hf, r.1, congrArg some (Prod.ext rfl hok)⟩
    · rintro ⟨-, s', hs'⟩
      exact congrArg Prod.snd (Option.some.inj hs')

/-- A script with a comment and a command. -/
theorem script_of_one_command :
    AsItsCommands ((registering [("create", fun s _ => (s + 1, 0))] : Console Nat).executeCommand
        ((registering [("create", fun s _ => (s + 1, 0))]).executeFile (AList.insert "main" "# start\ncreate wave\n" ∅) 0))
      (AList.insert "main" "# start\ncreate wave\n" ∅) 0 "main" (1, ReturnCode.ok) := by
  have hlines : Files.lines (AList.insert "main" "# start\ncreate wave\n" ∅) "main" = ["# start", "create wave"] := by decide
  refine (script_exact_iff _ _ 0 0 "main" (1, ReturnCode.ok) (by decide)).2 ⟨by decide, ?_⟩
  rw [hlines, comesToBlank_comment (by decide), comesToBlank_command (by decide) (r := (1, ReturnCode.ok)) (by decide)]
  rintro ⟨-, ⟨⟩⟩

/-- A command, a blank line and a command: the script stops at the blank line, with an error. -/
theorem script_stops_at_blank :
    ¬ ∀ r, (registering [("create", fun s _ => (s + 1, 0))] : Console Nat).executeFile
        (AList.insert "main" "create wave\n\ncreate body\n" ∅) 1 0 "main" = some r →
      AsItsCommands ((registering [("create", fun s _ => (s + 1, 0))] : Console Nat).executeCommand
          ((registering [("create", fun s _ => (s + 1, 0))]).executeFile
            (AList.insert "main" "create wave\n\ncreate body\n" ∅) 0))
        (AList.insert "main" "create wave\n\ncreate body\n" ∅) 0 "main" r := by
  intro h
  have hr := (h (1, ReturnCode.error) (by decide)).result (by decide)
  exact absurd hr (by decide)

end Console
end NaoFramework
