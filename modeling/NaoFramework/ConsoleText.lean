import NaoFramework.ConsoleScript
import NaoFramework.Separated
/-!
# ConsoleText — what the text of a script says

A script is a list of statements: comments, and commands given by their words.  Its text spells them in many ways
(`Script`): with any white space around the words, and with or without an end of line at the end.  Every text spells one
list of statements, and executing files by their texts, one file running another, is executing the statements
(`executes_statements`).  What is written in the plainest way is read back (`executes_written`).
-/
namespace NaoFramework
namespace Console

inductive Statement where
  | comment (text : String)
  | command (inputs : List String)
  deriving DecidableEq

/-- The line means the statement. -/
inductive Means : List Char → Statement → Prop where
  | comment (text : String) : Means ('#' :: text.toList) (.comment text)
  | command (line : List Char) (inputs : List String) (hc : line.head? ≠ some '#')
      (h : Separated.Spelled isspace line (inputs.map String.toList)) : Means line (.command inputs)

/-- **The text spells the statements**, one in a row. -/
def Script (text : List Char) (statements : List Statement) : Prop :=
  ∃ rows, Separated.Rowed '\n' text rows ∧ List.Forall₂ Means rows statements

/-- The files that can be opened are scripts of the statements. -/
def ReadAs (files : Files) (scripts : UnorderedMap String (List Statement)) : Prop :=
  ∀ filename, Option.Rel (fun text statements => Script text.toList statements) (files.lookup filename) (scripts.lookup filename)

variable {σ : Type}

/-- A command, by its words. -/
def invoke (c : Console σ) (executeFile : σ → String → Option (σ × Int32)) (s : σ) : List String → Option (σ × Int32)
  | [] => some (s, ReturnCode.error)
  | name :: inputs =>
    if name = "quit" ∨ name = "exit" then some (s, ReturnCode.quit)
    else
      match c.commands.lookup name with
      | some f => (f.call executeFile s (name :: inputs)).map fun r => (r.1, r.2.toInt32)
      | none => some (s, ReturnCode.error)

/-- Statements in turn, until a command returns what is not zero. -/
def executeStatements (invoke : σ → List String → Option (σ × Int32)) (s : σ) : List Statement → Option (σ × Int32)
  | [] => some (s, ReturnCode.ok)
  | .comment _ :: statements => executeStatements invoke s statements
  | .command inputs :: statements =>
    match invoke s inputs with
    | none => none
    | some (s, result) => if result ≠ 0 then some (s, result) else executeStatements invoke s statements

/-- **Scripts without texts**; `depth` is as for `executeFile`. -/
def executeScript (c : Console σ) (scripts : UnorderedMap String (List Statement)) : Nat → σ → String → Option (σ × Int32)
  | 0, _, _ => none
  | depth + 1, s, filename =>
    executeStatements (c.invoke (c.executeScript scripts depth)) s ((scripts.lookup filename).getD [])

/-! ## Lines -/

theorem words_toList (line : String) : (words line).map String.toList = Separated.words isspace line.toList := by
  simp [words, Separated.words, List.map_map, Function.comp_def]

theorem getlines_toList (text : String) : (getlines text).map String.toList = Separated.rows '\n' text.toList := by
  simp [getlines, Separated.rows, List.map_map, Function.comp_def]

theorem words_of_spelled {line : String} {inputs : List String}
    (h : Separated.Spelled isspace line.toList (inputs.map String.toList)) : words line = inputs := by
  have hw := (words_toList line).trans h.words_eq
  exact List.map_injective_iff.2 (fun _ _ => String.toList_inj.1) hw

/-- A line means one statement. -/
theorem exists_means (line : List Char) : ∃! statement, Means line statement := by
  by_cases hc : line.head? = some '#'
  · obtain ⟨text, rfl⟩ : ∃ text, line = '#' :: text := by
      cases line with
      | nil => cases hc
      | cons c text => exact ⟨text, by rw [Option.some.inj hc]⟩
    refine ⟨.comment (String.ofList text), ?_, ?_⟩
    · have := Means.comment (String.ofList text)
      rwa [String.toList_ofList] at this
    · rintro _ (⟨text'⟩ | ⟨_, _, hc', -⟩)
      · rw [String.ofList_toList]
      · exact absurd rfl hc'
  · obtain ⟨ws, hws⟩ := Separated.exists_spelled isspace line
    have hmap : (ws.map String.ofList).map String.toList = ws := by simp [List.map_map, Function.comp_def]
    refine ⟨.command (ws.map String.ofList), .command line _ hc (hmap.symm ▸ hws), ?_⟩
    rintro _ (⟨text⟩ | ⟨_, inputs, -, h⟩)
    · exact absurd rfl hc
    · rw [← hws.words_eq, h.words_eq]
      simp [List.map_map, Function.comp_def]

/-- **A text is one script.** -/
theorem exists_script (text : List Char) : ∃! statements, Script text statements := by
  choose meaning hmeans hone using exists_means
  refine ⟨(Separated.rows '\n' text).map meaning, ⟨_, Separated.rows_eq_iff.1 rfl, ?_⟩, ?_⟩
  · rw [List.forall₂_map_right_iff, List.forall₂_same]
    exact fun row _ => hmeans row
  · rintro statements ⟨rows, hrows, h⟩
    rw [Separated.rows_eq_iff.2 hrows]
    have heq : List.Forall₂ (· = ·) (rows.map meaning) statements :=
      List.forall₂_map_left_iff.2 (h.imp fun row statement hm => (hone row statement hm).symm)
    rw [List.forall₂_eq_eq_eq] at heq
    exact heq.symm

/-! ## Execution -/

variable {c : Console σ}

theorem executeCommand_eq_invoke (executeFile : σ → String → Option (σ × Int32)) (s : σ) (command : String) :
    c.executeCommand executeFile s command = c.invoke executeFile s (words command) := by
  simp only [executeCommand]
  cases words command <;> rfl

/-- Lines do what they mean. -/
theorem executeLines_means (executeFile : σ → String → Option (σ × Int32)) {lines : List String} {statements : List Statement}
    (h : List.Forall₂ Means (lines.map String.toList) statements) (s : σ) :
    executeLines (c.executeCommand executeFile) s lines = executeStatements (c.invoke executeFile) s statements := by
  induction lines generalizing statements s with
  | nil =>
    cases h
    rfl
  | cons line lines ih =>
    rw [List.map_cons] at h
    obtain ⟨statement, rest, hs, hrest, rfl⟩ := List.forall₂_cons_left_iff.1 h
    have ih : ∀ s, _ := fun s => ih hrest s
    generalize hl : line.toList = l at hs
    cases hs with
    | comment text =>
      have hc : isComment line = true := by simp [isComment, hl]
      simp only [executeLines, if_pos hc, executeStatements]
      exact ih s
    | command _ inputs hc hw =>
      subst hl
      have hc : ¬ isComment line = true := by simpa [isComment] using hc
      simp only [executeLines, if_neg hc, executeStatements, executeCommand_eq_invoke, words_of_spelled hw]
      cases c.invoke executeFile s inputs with
      | none => rfl
      | some r => simp only [ih]

theorem lines_means {text : String} {statements : List Statement} (h : Script text.toList statements) :
    List.Forall₂ Means ((getlines text).map String.toList) statements := by
  obtain ⟨rows, hrows, hs⟩ := h
  rwa [getlines_toList, hrows.rows_eq]

/-- **Files do what their statements do**, by induction on how deep they are nested. -/
theorem executeFile_eq_executeScript {files : Files} {scripts : UnorderedMap String (List Statement)} (h : ReadAs files scripts)
    (depth : Nat) : c.executeFile files depth = c.executeScript scripts depth := by
  induction depth with
  | zero => rfl
  | succ depth ih =>
    funext s filename
    rw [executeFile, executeScript, ← ih]
    refine executeLines_means _ ?_ s
    have hf := h filename
    rw [Files.lines]
    cases hl : files.lookup filename with
    | none =>
      cases hs : scripts.lookup filename with
      | none => exact .nil
      | some statements =>
        rw [hl, hs] at hf
        cases hf
    | some text =>
      cases hs : scripts.lookup filename with
      | none =>
        rw [hl, hs] at hf
        cases hf
      | some statements =>
        rw [hl, hs] at hf
        cases hf with
        | some hf => exact lines_means hf

/-- **What a script says is what it does.**  Every text spells one list of statements; and a file, with the files it runs
and those they run, does what the statements of their texts do. -/
theorem executes_statements (c : Console σ) (files : Files) (scripts : UnorderedMap String (List Statement))
    (h : ReadAs files scripts) : (∀ text : String, ∃! statements, Script text.toList statements) ∧
      ∀ depth s filename, c.executeFile files depth s filename = c.executeScript scripts depth s filename :=
  ⟨fun text => exists_script text.toList, fun depth s filename => by rw [executeFile_eq_executeScript h]⟩

/-! ## Writing -/

namespace Statement

/-- A statement in a line: the words of a command with a blank between them. -/
def line : Statement → List Char
  | .comment text => '#' :: text.toList
  | .command inputs => [' '].intercalate (inputs.map String.toList)

/-- Words are not empty and have no white space, and the first is no comment; a comment has no end of line. -/
def Writable : Statement → Prop
  | .comment text => '\n' ∉ text.toList
  | .command inputs => (∀ word ∈ inputs, word ≠ "" ∧ word.toList.all (!isspace ·) = true) ∧
      ∀ word ∈ inputs.head?, word.toList.head? ≠ some '#'

theorem Writable.word {inputs : List String} (h : (command inputs).Writable) {word : String} (hw : word ∈ inputs) :
    word.toList ≠ [] ∧ ∀ x ∈ word.toList, isspace x = false := by
  obtain ⟨hne, hall⟩ := h.1 word hw
  exact ⟨fun e => hne (String.toList_eq_nil_iff.1 e), fun x hx => by simpa using List.all_eq_true.1 hall x hx⟩

theorem Writable.means {statement : Statement} (h : statement.Writable) : Means statement.line statement := by
  cases statement with
  | comment text => exact .comment text
  | command inputs =>
    refine .command _ inputs ?_ (Separated.spelled_intercalate (by decide) fun w hm => ?_)
    · cases inputs with
      | nil => simp [line]
      | cons word inputs =>
        rw [line, List.map_cons, Separated.head?_intercalate (h.word List.mem_cons_self).1]
        exact h.2 word rfl
    · obtain ⟨word, hin, rfl⟩ := List.mem_map.1 hm
      exact h.word hin

theorem Writable.no_newline {statement : Statement} (h : statement.Writable) : '\n' ∉ statement.line := by
  cases statement with
  | comment text => exact List.not_mem_cons_of_ne_of_not_mem (by decide) h
  | command inputs =>
    intro hn
    rcases Separated.mem_intercalate hn with he | ⟨w, hm, hx⟩
    · exact absurd he (by decide)
    · obtain ⟨word, hin, rfl⟩ := List.mem_map.1 hm
      exact absurd ((h.word hin).2 _ hx) (by decide)

end Statement

/-- The text of a script, a statement in a line. -/
def write (statements : List Statement) : String := String.ofList ((statements.map Statement.line).flatMap (· ++ ['\n']))

example : write [.comment " start", .command ["create", "wave"]] = "# start\ncreate wave\n" := by decide

theorem script_write {statements : List Statement} (h : ∀ statement ∈ statements, statement.Writable) :
    Script (write statements).toList statements := by
  rw [write, String.toList_ofList]
  refine ⟨_, Separated.rowed_flatMap fun row hr => ?_, ?_⟩
  · obtain ⟨statement, hs, rfl⟩ := List.mem_map.1 hr
    exact (h statement hs).no_newline
  · rw [List.forall₂_map_left_iff, List.forall₂_same]
    exact fun statement hs => (h statement hs).means

theorem readAs_of_written {files : Files} {scripts : UnorderedMap String (List Statement)}
    (hw : ∀ filename statements, scripts.lookup filename = some statements → ∀ statement ∈ statements, statement.Writable)
    (hf : ∀ filename, files.lookup filename = (scripts.lookup filename).map write) : ReadAs files scripts := by
  intro filename
  rw [hf]
  cases hs : scripts.lookup filename with
  | none => exact .none
  | some statements => exact .some (script_write (hw filename statements hs))

/-- **Scripts that are written do what they are written for**: files in which statements are written do what these do, and
different lists of statements are written differently. -/
theorem executes_written (c : Console σ) (files : Files) (scripts : UnorderedMap String (List Statement))
    (hw : ∀ filename statements, scripts.lookup filename = some statements → ∀ statement ∈ statements, statement.Writable)
    (hf : ∀ filename, files.lookup filename = (scripts.lookup filename).map write) :
    (∀ depth s filename, c.executeFile files depth s filename = c.executeScript scripts depth s filename) ∧
      ∀ filename filename' statements statements', scripts.lookup filename = some statements →
        scripts.lookup filename' = some statements' → (files.lookup filename = files.lookup filename' ↔ statements = statements') := by
  have h := readAs_of_written hw hf
  refine ⟨fun depth s filename => by rw [executeFile_eq_executeScript h], fun filename filename' sts sts' hs hs' => ?_⟩
  rw [hf, hf, hs, hs']
  refine ⟨fun he => ?_, fun he => by rw [he]⟩
  have hsts := script_write (hw filename sts hs)
  rw [Option.some.inj he] at hsts
  exact (exists_script _).unique hsts (script_write (hw filename' sts' hs'))

/-- A script that runs another. -/
def nested : UnorderedMap String (List Statement) :=
  (AList.insert "main" [.comment " start", .command ["run", "waves"], .command ["test"]] ∅).insert "waves"
    [.command ["create", "wave"]]

def nestedFiles : Files :=
  (AList.insert "main" "# start\nrun waves\ntest\n" ∅).insert "waves" "create wave\n"

theorem nested_written (filename : String) : nestedFiles.lookup filename = (nested.lookup filename).map write := by
  have hm : write [.comment " start", .command ["run", "waves"], .command ["test"]] = "# start\nrun waves\ntest\n" := by decide
  have hw : write [.command ["create", "wave"]] = "create wave\n" := by decide
  simp only [nestedFiles, nested, UnorderedMap.lookup_insert_if]
  split
  · rw [Option.map_some, hw]
  · split
    · rw [Option.map_some, hm]
    · rfl

theorem nested_writable (filename : String) (statements : List Statement) (h : nested.lookup filename = some statements) :
    ∀ statement ∈ statements, statement.Writable := by
  simp only [nested, UnorderedMap.lookup_insert_if] at h
  split at h
  · obtain rfl := Option.some.inj h
    intro statement hs
    obtain rfl := List.mem_singleton.1 hs
    exact ⟨by decide, by decide⟩
  · split at h
    · obtain rfl := Option.some.inj h
      intro statement hs
      simp only [List.mem_cons, List.not_mem_nil, or_false] at hs
      rcases hs with rfl | rfl | rfl
      · exact fun hn => absurd hn (by decide)
      · exact ⟨by decide, by decide⟩
      · exact ⟨by decide, by decide⟩
    · cases h

theorem executes_statements_nested : (∀ text : String, ∃! statements, Script text.toList statements) ∧
    ∀ depth s filename, (new : Console Unit).executeFile nestedFiles depth s filename =
      (new : Console Unit).executeScript nested depth s filename :=
  executes_statements new nestedFiles nested (readAs_of_written nested_writable nested_written)

theorem executes_written_nested :
    (∀ depth s filename, (new : Console Unit).executeFile nestedFiles depth s filename =
      (new : Console Unit).executeScript nested depth s filename) ∧
      ∀ filename filename' statements statements', nested.lookup filename = some statements →
        nested.lookup filename' = some statements' →
          (nestedFiles.lookup filename = nestedFiles.lookup filename' ↔ statements = statements') :=
  executes_written new nestedFiles nested nested_writable nested_written

end Console
end NaoFramework
