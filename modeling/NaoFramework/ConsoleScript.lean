import NaoFramework.Console
import Mathlib.Data.Fintype.Card
import Mathlib.Data.Set.Finite.Basic
import Mathlib.Logic.Relation
import Mathlib.Order.WellFounded
/-!
# ConsoleScript — scripts that run scripts

A script with nested `run` lines behaves as the flat list of lines they stand for (`Flattens`), executed in turn until
one does not return zero (`executeFile_flattened`).  Where no script runs itself, directly or through others, there is
such a list, and the nesting has a bound.
-/
namespace NaoFramework
namespace Console

/-! ## Flat lists of lines -/

/-- The line runs a file: `run`, in words, and the name of the file. -/
def RunsFile (line filename : String) : Prop := ∃ more, words line = "run" :: filename :: more

/-- **The flattening of a list of lines**: comments are dropped, and a line that runs a file is replaced by the
flattening of the file. -/
inductive Files.Flattens (files : Files) : List String → List String → Prop where
  | nil : Flattens files [] []
  | comment (line : String) (rest lines : List String) (hc : isComment line = true) (h : Flattens files rest lines) :
      Flattens files (line :: rest) lines
  | run (line filename : String) (rest inlined lines : List String) (hc : isComment line = false)
      (hr : RunsFile line filename) (hf : Flattens files (files.lines filename) inlined) (h : Flattens files rest lines) :
      Flattens files (line :: rest) (inlined ++ lines)
  | line (line : String) (rest lines : List String) (hc : isComment line = false) (hr : ∀ filename, ¬ RunsFile line filename)
      (h : Flattens files rest lines) : Flattens files (line :: rest) (line :: lines)

/-- A script runs another. -/
def Files.RefersTo (files : Files) (f g : String) : Prop := ∃ line ∈ files.lines f, isComment line = false ∧ RunsFile line g

/-- No script runs itself, directly or through others. -/
def Files.Acyclic (files : Files) : Prop := ∀ f, ¬ Relation.TransGen files.RefersTo f f

variable {σ : Type}

/-- Lines executed one after another, until one returns what is not zero. -/
def executeInTurn (execute : σ → String → Option (σ × Int32)) (s : σ) : List String → Option (σ × Int32)
  | [] => some (s, ReturnCode.ok)
  | line :: lines =>
    match execute s line with
    | none => none
    | some (s, result) => if result ≠ 0 then some (s, result) else executeInTurn execute s lines

theorem executeInTurn_append (execute : σ → String → Option (σ × Int32)) : ∀ (lines more : List String) (s : σ),
    executeInTurn execute s (lines ++ more) = (executeInTurn execute s lines).bind fun r =>
      if r.2 ≠ 0 then some r else executeInTurn execute r.1 more
  | [], more, s => by simp [executeInTurn, ReturnCode.ok]
  | line :: lines, more, s => by
    simp only [List.cons_append, executeInTurn]
    cases execute s line with
    | none => rfl
    | some r =>
      obtain ⟨s', result⟩ := r
      by_cases hr : result = 0
      · simp only [hr, ne_eq, not_true_eq_false, if_false]
        exact executeInTurn_append execute lines more s'
      · simp [hr]

/-- The loop of `executeFile` executes in turn what is no comment. -/
theorem executeLines_eq (execute : σ → String → Option (σ × Int32)) : ∀ (lines : List String) (s : σ),
    executeLines execute s lines = executeInTurn execute s (lines.filter (!isComment ·))
  | [], _ => rfl
  | line :: lines, s => by
    rw [executeLines, List.filter_cons]
    cases isComment line with
    | true => exact executeLines_eq execute lines s
    | false =>
      simp only [Bool.false_eq_true, if_false, Bool.not_false, if_true, executeInTurn]
      cases execute s line with
      | none => rfl
      | some r =>
        obtain ⟨s', result⟩ := r
        simp only [executeLines_eq execute lines]

theorem executeLines_append (execute : σ → String → Option (σ × Int32)) (lines more : List String) (s : σ) :
    executeLines execute s (lines ++ more) = (executeLines execute s lines).bind fun r =>
      if r.2 ≠ 0 then some r else executeLines execute r.1 more := by
  simp only [executeLines_eq, List.filter_append]
  exact executeInTurn_append execute _ _ s

/-- What executes the lines alike executes the list alike. -/
theorem executeInTurn_congr {execute execute' : σ → String → Option (σ × Int32)} : ∀ {lines : List String} (s : σ),
    (∀ line ∈ lines, ∀ s, execute s line = execute' s line) → executeInTurn execute s lines = executeInTurn execute' s lines
  | [], _, _ => rfl
  | line :: lines, s, h => by
    have ih : ∀ s', executeInTurn execute s' lines = executeInTurn execute' s' lines :=
      fun s' => executeInTurn_congr s' fun l hl => h l (List.mem_cons_of_mem _ hl)
    simp only [executeInTurn, h line List.mem_cons_self, ih]

theorem executeInTurn_isSome {execute : σ → String → Option (σ × Int32)} : ∀ {lines : List String} (s : σ),
    (∀ line ∈ lines, ∀ s, (execute s line).isSome = true) → (executeInTurn execute s lines).isSome = true
  | [], _, _ => rfl
  | line :: lines, s, h => by
    obtain ⟨⟨s', result⟩, hr⟩ := Option.isSome_iff_exists.1 (h line List.mem_cons_self s)
    simp only [executeInTurn, hr]
    split
    · rfl
    · exact executeInTurn_isSome s' fun l hl => h l (List.mem_cons_of_mem _ hl)

/-! ## Commands -/

/-- `run`, and nothing else, is the command built in for it, and only the names that quit have no function. -/
structure BuiltIn (c : Console σ) : Prop where
  run : ∀ name, c.commands.lookup name = some .run ↔ name = "run"
  empty : ∀ name, c.commands.lookup name = some .empty → name = "quit" ∨ name = "exit"

/-- The Console with the commands registered on it. -/
def registering (registered : List (String × (σ → List String → σ × UInt32))) : Console σ :=
  registered.foldl (fun c p => c.registerCommand p.1 p.2) new

theorem builtIn_new : (new : Console σ).BuiltIn := by
  refine ⟨fun name => ?_, fun name h => ?_⟩
  · simp only [new, UnorderedMap.lookup_insert_if]
    by_cases hn : name = "run"
    · simp [hn]
    · simp only [hn, if_false, iff_false]
      split
      · simp
      · split
        · simp
        · split <;> simp
  · simp only [new, UnorderedMap.lookup_insert_if] at h
    split at h
    · cases h
    · split at h
      · cases h
      · split at h
        · rename_i e
          exact Or.inr e
        · split at h
          · rename_i e
            exact Or.inl e
          · cases h

variable {c : Console σ}

/-- The command is the built-in one that runs a file. -/
def Runs (c : Console σ) (command filename : String) : Prop :=
  ∃ name more, words command = name :: filename :: more ∧ ¬ (name = "quit" ∨ name = "exit") ∧
    c.commands.lookup name = some .run

/-- Only the names that quit have no function. -/
def Callable (c : Console σ) : Prop := ∀ name, c.commands.lookup name = some .empty → name = "quit" ∨ name = "exit"

/-- A function of a Console was registered, or is as the constructor left it. -/
theorem lookup_registering {registered : List (String × (σ → List String → σ × UInt32))} {name : String}
    {f : CommandFunction σ} (h : (registering registered).commands.lookup name = some f) :
    (∃ g, f = .registered g) ∨ new.commands.lookup name = some f := by
  induction registered using List.reverseRecOn with
  | nil => exact Or.inr h
  | append_singleton registered p ih =>
    rw [registering, List.foldl_append, List.foldl_cons, List.foldl_nil, registerCommand, UnorderedMap.lookup_insert_if] at h
    split at h
    · exact Or.inl ⟨p.2, (Option.some.inj h).symm⟩
    · exact ih h

/-- It is, where nothing was registered under its name. -/
theorem lookup_registering_of_ne {registered : List (String × (σ → List String → σ × UInt32))} {name : String}
    (h : ∀ p ∈ registered, p.1 ≠ name) : (registering registered).commands.lookup name = new.commands.lookup name := by
  induction registered using List.reverseRecOn with
  | nil => rfl
  | append_singleton registered p ih =>
    have hne : name ≠ p.1 := Ne.symm (h p (by simp))
    rw [registering, List.foldl_append, List.foldl_cons, List.foldl_nil, registerCommand, UnorderedMap.lookup_insert_if,
      if_neg hne]
    exact ih fun q hq => h q (List.mem_append_left _ hq)

theorem callable_registering (registered : List (String × (σ → List String → σ × UInt32))) :
    (registering registered).Callable := by
  intro name h
  rcases lookup_registering h with ⟨g, hg⟩ | h
  · cases hg
  · exact builtIn_new.empty name h

theorem builtIn_registering (registered : List (String × (σ → List String → σ × UInt32)))
    (h : ∀ p ∈ registered, p.1 ≠ "run") : (registering registered).BuiltIn := by
  refine ⟨fun name => ⟨fun hl => ?_, ?_⟩, callable_registering registered⟩
  · rcases lookup_registering hl with ⟨g, hg⟩ | hl
    · cases hg
    · exact (builtIn_new.run name).1 hl
  · rintro rfl
    rw [lookup_registering_of_ne h]
    exact (builtIn_new.run "run").2 rfl

/-- `run` is built in under its own name, unless another command is registered there. -/
theorem runsFile_of_runs {registered : List (String × (σ → List String → σ × UInt32))} {command filename : String}
    (h : (registering registered).Runs command filename) : RunsFile command filename := by
  obtain ⟨name, more, hw, -, hl⟩ := h
  rcases lookup_registering hl with ⟨g, hg⟩ | hl
  · cases hg
  · obtain rfl := (builtIn_new.run name).1 hl
    exact ⟨more, hw⟩

/-- **What a command does with files**: it runs one, and its result comes back through the casts as it is; or it returns
whatever files do. -/
theorem Callable.executeCommand_cases (h : c.Callable) (s : σ) (command : String) :
    (∃ r, ∀ executeFile, c.executeCommand executeFile s command = some r) ∨
      ∃ filename, c.Runs command filename ∧ ∀ executeFile, c.executeCommand executeFile s command = executeFile s filename := by
  unfold executeCommand
  cases hw : words command with
  | nil => exact Or.inl ⟨_, fun _ => rfl⟩
  | cons name inputs =>
    simp only
    by_cases hq : name = "quit" ∨ name = "exit"
    · exact Or.inl ⟨_, fun _ => if_pos hq⟩
    · simp only [if_neg hq]
      cases hl : c.commands.lookup name with
      | none => exact Or.inl ⟨_, fun _ => rfl⟩
      | some f =>
        cases f with
        | empty => exact absurd (h name hl) hq
        | help => exact Or.inl ⟨_, fun _ => rfl⟩
        | registered f => exact Or.inl ⟨_, fun _ => rfl⟩
        | run =>
          cases inputs with
          | nil => exact Or.inl ⟨_, fun _ => rfl⟩
          | cons filename more =>
            refine Or.inr ⟨filename, ⟨name, more, hw, hq, hl⟩, fun executeFile => ?_⟩
            simp only [CommandFunction.call, Option.map_map]
            exact Option.map_id'

/-- A line that runs a file executes it: the code is back after the casts. -/
theorem executeCommand_runs (executeFile : σ → String → Option (σ × Int32))
    (s : σ) {command filename : String} (hr : c.Runs command filename) :
    c.executeCommand executeFile s command = executeFile s filename := by
  obtain ⟨name, more, hw, hq, hl⟩ := hr
  simp only [executeCommand, hw, if_neg hq, hl, CommandFunction.call, Option.map_map]
  exact Option.map_id'

/-- A line that runs a file executes it. -/
theorem BuiltIn.executeCommand_run (h : c.BuiltIn) (executeFile : σ → String → Option (σ × Int32)) (s : σ)
    {line filename : String} (hr : RunsFile line filename) :
    c.executeCommand executeFile s line = executeFile s filename := by
  obtain ⟨more, hw⟩ := hr
  exact executeCommand_runs executeFile s ⟨"run", more, hw, by decide, (h.run "run").2 rfl⟩

/-- Any other line returns, and executes no file. -/
theorem BuiltIn.executeCommand_line (h : c.BuiltIn) (s : σ) {line : String} (hr : ∀ filename, ¬ RunsFile line filename) :
    ∃ r, ∀ executeFile, c.executeCommand executeFile s line = some r := by
  rcases Callable.executeCommand_cases h.empty s line with hc | ⟨filename, ⟨name, more, hw, -, hl⟩, -⟩
  · exact hc
  · obtain rfl := (h.run name).1 hl
    exact absurd ⟨more, hw⟩ (hr filename)

theorem not_runsFile_of_head {line : String} (h : (words line).head? ≠ some "run") (filename : String) :
    ¬ RunsFile line filename := by
  rintro ⟨more, hw⟩
  rw [hw] at h
  exact h rfl

/-! ## The simulation -/

/-- What is left in a flattening runs no file. -/
theorem Flattens.not_runsFile {files : Files} {script lines : List String} (h : files.Flattens script lines) :
    ∀ line ∈ lines, ∀ filename, ¬ RunsFile line filename := by
  induction h with
  | nil => simp
  | comment line rest lines hc h ih => exact ih
  | run line filename rest inlined lines hc hr hf h ihf ih =>
    intro l hl
    exact (List.mem_append.1 hl).elim (ihf l) (ih l)
  | line line rest lines hc hr h ih =>
    intro l hl
    rcases List.mem_cons.1 hl with rfl | hl
    · exact hr
    · exact ih l hl

/-- **The simulation**: with depth enough, a script does what its flattening does. -/
theorem BuiltIn.simulates (h : c.BuiltIn) {files : Files} {script lines : List String}
    (hf : files.Flattens script lines) : ∃ depth, ∀ d, depth ≤ d → ∀ s,
      executeLines (c.executeCommand (c.executeFile files d)) s script =
        executeInTurn (c.executeCommand fun _ _ => none) s lines := by
  induction hf with
  | nil => exact ⟨0, fun _ _ _ => rfl⟩
  | comment line rest lines hc hf ih =>
    obtain ⟨depth, ih⟩ := ih
    refine ⟨depth, fun d hd s => ?_⟩
    rw [executeLines, if_pos hc]
    exact ih d hd s
  | line line rest lines hc hr hf ih =>
    obtain ⟨depth, ih⟩ := ih
    refine ⟨depth, fun d hd s => ?_⟩
    obtain ⟨⟨s', result⟩, hx⟩ := h.executeCommand_line s hr
    simp only [executeLines, executeInTurn, hc, hx, ih d hd, Bool.false_eq_true, if_false]
  | run line filename rest inlined lines hc hr hin hf ihin ih =>
    obtain ⟨depth₁, ihin⟩ := ihin
    obtain ⟨depth₂, ih⟩ := ih
    refine ⟨max (depth₁ + 1) depth₂, fun d hd s => ?_⟩
    -- the file that is run has one level less
    obtain ⟨d', rfl⟩ : ∃ d', d = d' + 1 := ⟨d - 1, by omega⟩
    rw [executeLines, if_neg (by simp [hc]), h.executeCommand_run _ s hr, executeFile, ihin d' (by omega) s,
      executeInTurn_append]
    cases executeInTurn (c.executeCommand fun _ _ => none) s inlined with
    | none => rfl
    | some r => simp only [Option.bind_some, ih (d' + 1) (by omega)]

/-! ## Acyclic scripts -/

/-- A relation without cycles, in which finitely many have a successor, is well-founded. -/
theorem wellFounded_of_acyclic {α : Type} {r : α → α → Prop} (hfin : {a | ∃ b, r a b}.Finite)
    (h : ∀ a, ¬ Relation.TransGen r a a) : WellFounded (flip r) := by
  have hsub : Finite {a // ∃ b, r a b} := hfin.to_subtype
  let q : {a // ∃ b, r a b} → {a // ∃ b, r a b} → Prop := fun b a => Relation.TransGen r a.1 b.1
  have htrans : IsTrans _ q := ⟨fun _ _ _ hab hbc => hbc.trans hab⟩
  have hirrefl : Std.Irrefl q := ⟨fun a ha => h a.1 ha⟩
  have hq : WellFounded q := Finite.wellFounded_of_trans_of_irrefl q
  have hend : ∀ a, (¬ ∃ b, r a b) → Acc (flip r) a := fun a ha => ⟨a, fun b hb => absurd ⟨b, hb⟩ ha⟩
  have hacc : ∀ x : {a // ∃ b, r a b}, Acc (flip r) x.1 := by
    intro x
    induction x using hq.induction with
    | h x ih =>
      refine ⟨x.1, fun y hy => ?_⟩
      by_cases hc : ∃ c, r y c
      · exact ih ⟨y, hc⟩ (.single hy)
      · exact hend y hc
  refine ⟨fun a => ?_⟩
  by_cases ha : ∃ b, r a b
  · exact hacc ⟨a, ha⟩
  · exact hend a ha

/-- A file that cannot be opened has no lines. -/
theorem Files.lines_of_notMem {files : Files} {f : String} (h : f ∉ files) : files.lines f = [] := by
  rw [Files.lines, AList.lookup_eq_none.2 h]
  rfl

theorem Files.mem_of_mem_lines {files : Files} {f line : String} (h : line ∈ files.lines f) : f ∈ files := by
  by_contra hf
  rw [Files.lines_of_notMem hf] at h
  cases h

theorem Files.Acyclic.wellFounded {files : Files} (h : files.Acyclic) : WellFounded (flip files.RefersTo) := by
  refine wellFounded_of_acyclic ((List.finite_toSet files.keys).subset ?_) h
  rintro f ⟨g, line, hl, -⟩
  exact AList.mem_keys.1 (Files.mem_of_mem_lines hl)

/-- Files are without cycles if every script that one of them runs ranks below it. -/
theorem Files.acyclic_of_rank {files : Files} (rank : String → Nat) (h : ∀ f ∈ files.keys, ∀ line ∈ files.lines f,
    (words line).head? = some "run" → ∀ g ∈ (words line)[1]?, rank g < rank f) : files.Acyclic := by
  have hstep : ∀ f g, files.RefersTo f g → rank g < rank f := by
    rintro f g ⟨line, hl, -, more, hw⟩
    exact h f (AList.mem_keys.1 (Files.mem_of_mem_lines hl)) line hl (by rw [hw]; rfl) g (by rw [hw]; rfl)
  have hrun : ∀ f g, Relation.TransGen files.RefersTo f g → rank g < rank f := by
    intro f g hfg
    induction hfg with
    | single hg => exact hstep _ _ hg
    | tail _ hg ih => exact (hstep _ _ hg).trans ih
  exact fun f hf => Nat.lt_irrefl _ (hrun f f hf)

theorem exists_flattens {files : Files} : ∀ {script : List String},
    (∀ line ∈ script, isComment line = false → ∀ g, RunsFile line g → ∃ lines, files.Flattens (files.lines g) lines) →
      ∃ lines, files.Flattens script lines
  | [], _ => ⟨[], .nil⟩
  | line :: script, h => by
    obtain ⟨lines, hl⟩ := exists_flattens fun l hl => h l (List.mem_cons_of_mem _ hl)
    cases hc : isComment line with
    | true => exact ⟨lines, .comment line script lines hc hl⟩
    | false =>
      by_cases hr : ∃ g, RunsFile line g
      · obtain ⟨g, hr⟩ := hr
        obtain ⟨inlined, hin⟩ := h line List.mem_cons_self hc g hr
        exact ⟨inlined ++ lines, .run line g script inlined lines hc hr hin hl⟩
      · exact ⟨line :: lines, .line line script lines hc (fun g hg => hr ⟨g, hg⟩) hl⟩

theorem Files.Acyclic.flattens {files : Files} (h : files.Acyclic) (f : String) :
    ∃ lines, files.Flattens (files.lines f) lines := by
  induction f using h.wellFounded.induction with
  | h f ih => exact exists_flattens fun line hl hc g hr => ih g ⟨line, hl, hc, hr⟩

theorem RunsFile.unique {line f g : String} (hf : RunsFile line f) (hg : RunsFile line g) : f = g := by
  obtain ⟨more, hf⟩ := hf
  obtain ⟨more', hg⟩ := hg
  have he := hf.symm.trans hg
  simp only [List.cons.injEq, true_and] at he
  exact he.1

/-- A script has one flattening. -/
theorem Flattens.unique {files : Files} {script lines : List String} (h : files.Flattens script lines) :
    ∀ {lines'}, files.Flattens script lines' → lines' = lines := by
  induction h with
  | nil =>
    intro lines' h'
    cases h'
    rfl
  | comment line rest lines hc h ih =>
    intro lines' h'
    cases h' with
    | comment _ _ _ _ h' => exact ih h'
    | run _ _ _ _ _ hc' | line _ _ _ hc' => rw [hc] at hc'; cases hc'
  | run line filename rest inlined lines hc hr hf h ihf ih =>
    intro lines' h'
    cases h' with
    | comment _ _ _ hc' => rw [hc] at hc'; cases hc'
    | run _ filename' _ inlined' lines' _ hr' hf' h' =>
      obtain rfl := hr.unique hr'
      rw [ihf hf', ih h']
    | line _ _ _ _ hr' => exact absurd hr (hr' filename)
  | line line rest lines hc hr h ih =>
    intro lines' h'
    cases h' with
    | comment _ _ _ hc' => rw [hc] at hc'; cases hc'
    | run _ filename _ _ _ _ hr' => exact absurd hr' (hr filename)
    | line _ _ _ _ _ h' => rw [ih h']

/-! ## Whole scripts -/

/-- The line is `quit` or `exit`, whatever follows. -/
def Quits (line : String) : Prop := ∃ more, words line = "quit" :: more ∨ words line = "exit" :: more

theorem executeCommand_quits (c : Console σ) (executeFile : σ → String → Option (σ × Int32)) (s : σ) {line : String}
    (h : Quits line) : c.executeCommand executeFile s line = some (s, ReturnCode.quit) := by
  obtain ⟨more, hw | hw⟩ := h
  · simp [executeCommand, hw]
  · simp [executeCommand, hw]

/-- **Nested scripts behave as if inlined**: a script has one flattening, with depth enough it returns, and then what it
does to the state and what it returns are what the lines of the flattening do and return, executed in turn; a line that
quits, at whatever depth it stood, ends it all. -/
theorem executeFile_flattened (registered : List (String × (σ → List String → σ × UInt32)))
    (hrun : ∀ p ∈ registered, p.1 ≠ "run") (files : Files) (hfiles : files.Acyclic) (f : String) :
    ∃ lines, files.Flattens (files.lines f) lines ∧ (∀ lines', files.Flattens (files.lines f) lines' → lines' = lines) ∧
      ∃ depth, ∀ d, depth ≤ d → ∀ s, ∃ r,
        (registering registered).executeFile files d s f = some r ∧
        executeInTurn ((registering registered).executeCommand ((registering registered).executeFile files d)) s lines =
          some r ∧
        ∀ before line after s', lines = before ++ line :: after → Quits line →
          executeInTurn ((registering registered).executeCommand ((registering registered).executeFile files d)) s before =
            some (s', ReturnCode.ok) → r = (s', ReturnCode.quit) := by
  have hc := builtIn_registering registered hrun
  generalize registering registered = c at hc ⊢
  obtain ⟨lines, hl⟩ := hfiles.flattens f
  obtain ⟨depth, hsim⟩ := hc.simulates hl
  refine ⟨lines, hl, fun lines' hl' => Flattens.unique hl hl', depth + 1, fun d hd s => ?_⟩
  obtain ⟨d, rfl⟩ : ∃ d', d = d' + 1 := ⟨d - 1, by omega⟩
  have hnot := Flattens.not_runsFile hl
  have hany : ∀ s, executeInTurn (c.executeCommand (c.executeFile files (d + 1))) s lines =
      executeInTurn (c.executeCommand fun _ _ => none) s lines := by
    refine fun s => executeInTurn_congr s fun line hline s => ?_
    obtain ⟨r, hr⟩ := hc.executeCommand_line s (hnot line hline)
    rw [hr, hr]
  have hsome : (executeInTurn (c.executeCommand fun _ _ => none) s lines).isSome = true := by
    refine executeInTurn_isSome s fun line hline s => ?_
    obtain ⟨r, hr⟩ := hc.executeCommand_line s (hnot line hline)
    rw [hr]; rfl
  obtain ⟨r, hr⟩ := Option.isSome_iff_exists.1 hsome
  refine ⟨r, (hsim d (by omega) s).trans hr, (hany s).trans hr, ?_⟩
  rintro before line after s' rfl hq hbefore
  have hr' := (hany s).trans hr
  rw [executeInTurn_append, hbefore] at hr'
  simp only [ReturnCode.ok, Option.bind_some, ne_eq, not_true_eq_false, if_false, executeInTurn,
    executeCommand_quits _ _ _ hq] at hr'
  exact (Option.some.inj hr').symm

/-- A script runs another, which quits. -/
theorem executeFile_flattened_quit :
    ∃ files : Files, files.lookup "main" = some "create wave\nrun last\ntest\n" ∧
      files.lookup "last" = some "# the end\nquit\n" ∧ ∃ depth, ∀ d, depth ≤ d → ∀ s : Nat,
        (registering [("create", fun s _ => (s + 1, 0))]).executeFile files d s "main" = some (s + 1, -1) := by
  let files : Files :=
    AList.insert "main" "create wave\nrun last\ntest\n" (AList.insert "last" "# the end\nquit\n" ∅)
  have hlines : files.lines "main" = ["create wave", "run last", "test"] ∧ files.lines "last" = ["# the end", "quit"] := by
    decide
  have hwords : words "create wave" = ["create", "wave"] ∧ words "run last" = ["run", "last"] ∧ words "quit" = ["quit"] := by
    decide
  have hquit : files.Flattens ["# the end", "quit"] ["quit"] :=
    .comment _ _ _ (by decide) (.line _ _ _ (by decide) (not_runsFile_of_head (by decide)) .nil)
  have hflat : files.Flattens (files.lines "main") ["create wave", "quit", "test"] := by
    rw [hlines.1]
    refine .line _ _ _ (by decide) (not_runsFile_of_head (by decide)) ?_
    refine .run _ "last" _ ["quit"] _ (by decide) ⟨[], hwords.2.1⟩ ?_ ?_
    · rw [hlines.2]
      exact hquit
    · exact .line _ _ _ (by decide) (not_runsFile_of_head (by decide)) .nil
  have hacyclic : files.Acyclic := Files.acyclic_of_rank (fun f => if f = "main" then 1 else 0) (by decide)
  refine ⟨files, rfl, rfl, ?_⟩
  obtain ⟨lines, -, hu, depth, h⟩ := executeFile_flattened [("create", fun (s : Nat) _ => (s + 1, 0))]
    (by simp) files hacyclic "main"
  obtain rfl := hu _ hflat
  refine ⟨depth, fun d hd s => ?_⟩
  obtain ⟨r, hr, -, hq⟩ := h d hd s
  rw [hr, hq ["create wave"] "quit" ["test"] (s + 1) rfl ⟨[], Or.inl hwords.2.2⟩ ?_]
  · rfl
  · have hcreate : ∀ execute, (registering [("create", fun (s : Nat) _ => (s + 1, 0))]).executeCommand execute s
        "create wave" = some (s + 1, 0) := fun execute => by
      simp only [executeCommand, hwords.1]
      rfl
    simp only [executeInTurn, hcreate]
    rfl

end Console
end NaoFramework
