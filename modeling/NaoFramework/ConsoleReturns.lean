import NaoFramework.ConsoleScript
import Mathlib.Data.List.Nodup
/-!
# ConsoleReturns — scripts that return

A script may run any file, itself included, and nothing keeps count: whether `executeFile` returns is decided by the calls
of it that are made within it (`Opens`), and it does exactly unless they go on without end.  They cannot where no script
that is reached runs itself, directly or through others, and then there are no more of them open than there are files,
and one (`returns_exact`).
-/
namespace NaoFramework
namespace Console

variable {σ : Type}

/-- With calls of `executeFile` enough, `executeFile` returns. -/
def Returns (c : Console σ) (files : Files) (s : σ) (filename : String) : Prop :=
  ∃ depth, (c.executeFile files depth s filename).isSome = true

/-- With calls of `executeFile` enough, `executeCommand` returns. -/
def CommandReturns (c : Console σ) (files : Files) (s : σ) (command : String) : Prop :=
  ∃ depth, (c.executeCommand (c.executeFile files depth) s command).isSome = true

/-- **A call within a call**: of `executeFile` on the file and in the state of `inner`, within that of `outer`, whose
script comes to a line that runs the file. -/
def Opens (c : Console σ) (files : Files) (inner outer : σ × String) : Prop :=
  ∃ before line after, files.lines outer.2 = before ++ line :: after ∧ isComment line = false ∧ c.Runs line inner.2 ∧
    ∃ depth, executeLines (c.executeCommand (c.executeFile files depth)) outer.1 before = some (inner.1, ReturnCode.ok)

/-- Calls that go on without end, each within the one before it. -/
def RunsOn (c : Console σ) (files : Files) (s : σ) (filename : String) : Prop :=
  ∃ calls : Nat → σ × String, calls 0 = (s, filename) ∧ ∀ n, c.Opens files (calls (n + 1)) (calls n)

/-- No script that is reached from this one runs itself, directly or through others. -/
def Files.AcyclicFrom (files : Files) (filename : String) : Prop :=
  ∀ f, Relation.ReflTransGen files.RefersTo filename f → ¬ Relation.TransGen files.RefersTo f f

/-! ## More calls -/

section

variable {execute execute' : σ → String → Option (σ × Int32)}

theorem executeInTurn_mono (h : ∀ s line r, execute s line = some r → execute' s line = some r) :
    ∀ (lines : List String) (s : σ) (r : σ × Int32), executeInTurn execute s lines = some r →
      executeInTurn execute' s lines = some r
  | [], _, _, hr => hr
  | line :: lines, s, r, hr => by
    rw [executeInTurn] at hr ⊢
    cases he : execute s line with
    | none => rw [he] at hr; cases hr
    | some x =>
      obtain ⟨s', result⟩ := x
      rw [he] at hr
      simp only [h s line _ he]
      by_cases hres : result = 0
      · simp only [hres, ne_eq, not_true_eq_false, if_false] at hr ⊢
        exact executeInTurn_mono h lines s' r hr
      · simp only [ne_eq, hres, not_false_eq_true, if_true] at hr ⊢
        exact hr

theorem executeLines_mono (h : ∀ s line r, execute s line = some r → execute' s line = some r) (lines : List String)
    (s : σ) (r : σ × Int32) (hr : executeLines execute s lines = some r) : executeLines execute' s lines = some r := by
  rw [executeLines_eq] at hr ⊢
  exact executeInTurn_mono h _ s r hr

end

section

variable {c : Console σ} {files : Files}

/-- What returns with some calls returns the same with more. -/
theorem Callable.executeCommand_mono (h : c.Callable) {executeFile executeFile' : σ → String → Option (σ × Int32)}
    (hf : ∀ s f r, executeFile s f = some r → executeFile' s f = some r) (s : σ) (command : String) (r : σ × Int32)
    (hr : c.executeCommand executeFile s command = some r) : c.executeCommand executeFile' s command = some r := by
  rcases h.executeCommand_cases s command with ⟨r', hc⟩ | ⟨filename, -, hc⟩
  · rw [hc] at hr ⊢
    exact hr
  · rw [hc] at hr ⊢
    exact hf s filename r hr

theorem Callable.executeFile_succ (h : c.Callable) : ∀ (depth : Nat) (s : σ) (f : String) (r : σ × Int32),
    c.executeFile files depth s f = some r → c.executeFile files (depth + 1) s f = some r
  | 0, _, _, _, hr => by cases hr
  | depth + 1, s, f, r, hr => by
    rw [executeFile] at hr ⊢
    exact executeLines_mono (h.executeCommand_mono (h.executeFile_succ depth)) _ s r hr

theorem Callable.executeFile_mono (h : c.Callable) {depth depth' : Nat} (hd : depth ≤ depth') (s : σ) (f : String)
    (r : σ × Int32) (hr : c.executeFile files depth s f = some r) : c.executeFile files depth' s f = some r := by
  induction hd with
  | refl => exact hr
  | step _ ih => exact h.executeFile_succ _ s f r ih

theorem Callable.lines_mono (h : c.Callable) {depth depth' : Nat} (hd : depth ≤ depth') {lines : List String} {s : σ}
    {r : σ × Int32} (hr : executeLines (c.executeCommand (c.executeFile files depth)) s lines = some r) :
    executeLines (c.executeCommand (c.executeFile files depth')) s lines = some r :=
  executeLines_mono (h.executeCommand_mono (h.executeFile_mono hd)) lines s r hr

/-! ## Calls within calls -/

theorem executeLines_singleton (execute : σ → String → Option (σ × Int32)) (s : σ) {line : String}
    (hc : isComment line = false) : executeLines execute s [line] = execute s line := by
  simp only [executeLines, hc, Bool.false_eq_true, if_false]
  cases execute s line with
  | none => rfl
  | some r =>
    obtain ⟨s', result⟩ := r
    by_cases hr : result = 0
    · simp [hr, ReturnCode.ok]
    · simp [hr]

theorem executeLines_snoc {execute : σ → String → Option (σ × Int32)} {s s' : σ} {before : List String} {line : String}
    (hb : executeLines execute s before = some (s', ReturnCode.ok)) (hc : isComment line = false) :
    executeLines execute s (before ++ [line]) = execute s' line := by
  rw [executeLines_append, hb, Option.bind_some, executeLines_singleton execute s' hc]
  rfl

/-- **Within a call that returns, calls come to an end.** -/
theorem Callable.acc_of_returns (h : c.Callable) : ∀ (depth : Nat) (s : σ) (f : String) (r : σ × Int32),
    c.executeFile files depth s f = some r → Acc (c.Opens files) (s, f)
  | 0, _, _, _, hr => by cases hr
  | depth + 1, s, f, r, hr => by
    refine ⟨_, ?_⟩
    rintro ⟨s', g⟩ ⟨before, line, after, hl, hc, hg, d, hb⟩
    rw [executeFile, hl, List.append_cons, executeLines_append, executeLines_append] at hr
    obtain ⟨x, hx, -⟩ := Option.bind_eq_some_iff.1 hr
    obtain ⟨y, hy, hrun⟩ := Option.bind_eq_some_iff.1 hx
    -- what comes before the line is the same, whatever the number of calls
    obtain rfl : y = (s', ReturnCode.ok) := by
      have hy' := h.lines_mono (Nat.le_max_left depth d) hy
      exact Option.some.inj (hy'.symm.trans (h.lines_mono (Nat.le_max_right depth d) hb))
    simp only [ReturnCode.ok, ne_eq, not_true_eq_false, if_false, executeLines_singleton _ s' hc,
      executeCommand_runs _ s' hg] at hrun
    exact h.acc_of_returns depth s' g x hrun

/-- Where the calls that a script makes return, its lines do, one after another. -/
theorem Callable.lines_return (h : c.Callable) {s : σ} {f : String}
    (hcalls : ∀ call, c.Opens files call (s, f) → c.Returns files call.1 call.2) :
    ∀ before after, files.lines f = before ++ after →
      ∃ depth r, executeLines (c.executeCommand (c.executeFile files depth)) s before = some r := by
  intro before
  induction before using List.reverseRecOn with
  | nil => exact fun _ _ => ⟨0, _, rfl⟩
  | append_singleton before line ih =>
    intro after hl
    rw [List.append_assoc] at hl
    obtain ⟨depth, ⟨s', result⟩, hb⟩ := ih _ hl
    by_cases hres : result = ReturnCode.ok
    · subst hres
      cases hc : isComment line with
      | true => exact ⟨depth, _, by rw [executeLines_append, hb, Option.bind_some, executeLines, if_pos hc]; rfl⟩
      | false =>
        rcases h.executeCommand_cases s' line with ⟨r, he⟩ | ⟨g, hg, he⟩
        · exact ⟨depth, r, (executeLines_snoc hb hc).trans (he _)⟩
        · obtain ⟨d, hr⟩ := hcalls (s', g) ⟨before, line, after, hl, hc, hg, depth, hb⟩
          obtain ⟨r, hr⟩ := Option.isSome_iff_exists.1 hr
          -- calls enough for the lines before it, and for the file that it runs
          refine ⟨max depth d, r, (executeLines_snoc (h.lines_mono (Nat.le_max_left _ _) hb) hc).trans ((he _).trans ?_)⟩
          exact h.executeFile_mono (Nat.le_max_right _ _) s' g r hr
    · exact ⟨depth, (s', result), by rw [executeLines_append, hb]; exact if_pos hres⟩

/-- **Where calls come to an end, they return.** -/
theorem Callable.returns_of_acc (h : c.Callable) {call : σ × String} (ha : Acc (c.Opens files) call) :
    c.Returns files call.1 call.2 := by
  induction ha with
  | intro call _ ih =>
    obtain ⟨s, f⟩ := call
    obtain ⟨depth, r, hr⟩ := h.lines_return ih (files.lines f) [] (List.append_nil _).symm
    exact ⟨depth + 1, Option.isSome_iff_exists.2 ⟨r, hr⟩⟩

/-- **A call returns exactly unless calls go on without end within it.** -/
theorem Callable.returns_iff (h : c.Callable) (s : σ) (f : String) : c.Returns files s f ↔ ¬ c.RunsOn files s f := by
  rw [RunsOn, ← not_acc_iff_exists_descending_chain, not_not]
  constructor
  · rintro ⟨depth, hr⟩
    obtain ⟨r, hr⟩ := Option.isSome_iff_exists.1 hr
    exact h.acc_of_returns depth s f r hr
  · exact fun ha => h.returns_of_acc ha

theorem Callable.commandReturns_iff (h : c.Callable) (s : σ) (command : String) :
    c.CommandReturns files s command ↔ ∀ f, c.Runs command f → c.Returns files s f := by
  constructor
  · rintro ⟨depth, hr⟩ f hf
    rw [executeCommand_runs _ s hf] at hr
    exact ⟨depth, hr⟩
  · intro hr
    rcases h.executeCommand_cases s command with ⟨r, he⟩ | ⟨f, hf, he⟩
    · exact ⟨0, by rw [he]; rfl⟩
    · obtain ⟨depth, hd⟩ := hr f hf
      exact ⟨depth, by rw [he]; exact hd⟩

/-! ## Acyclic scripts -/

theorem Files.AcyclicFrom.of_refersTo {f g : String} (h : files.AcyclicFrom f) (hg : files.RefersTo f g) :
    files.AcyclicFrom g := fun k hk => h k (.head hg hk)

/-- **Files without cycles**: the files that are open are different ones, so there are no more of them than there are
files; one more may be opened that is not there. -/
theorem Callable.isSome_of_acyclicFrom (h : c.Callable) (hrun : ∀ command g, c.Runs command g → RunsFile command g) :
    ∀ (depth : Nat) (s : σ) (f : String) (opened : List String), opened.Nodup →
      (∀ g ∈ opened, g ∈ files ∧ Relation.TransGen files.RefersTo g f) → files.AcyclicFrom f →
        UnorderedMap.size files < depth + opened.length → (c.executeFile files depth s f).isSome = true
  | 0, s, f, opened, hn, ho, ha, hd => by
    have hsub : opened ⊆ files.keys := fun g hg => AList.mem_keys.1 (ho g hg).1
    have := (hn.subperm hsub).length_le
    rw [Nat.zero_add] at hd
    exact absurd hd (Nat.not_lt.2 this)
  | depth + 1, s, f, opened, hn, ho, ha, hd => by
    rw [executeFile, executeLines_eq]
    refine executeInTurn_isSome s fun line hl s => ?_
    obtain ⟨hl, hc⟩ := List.mem_filter.1 hl
    rcases h.executeCommand_cases s line with ⟨r, he⟩ | ⟨g, hg, he⟩
    · rw [he]; rfl
    · have hfg : files.RefersTo f g := ⟨line, hl, by simpa using hc, hrun line g hg⟩
      have hnot : f ∉ opened := fun hf => ha f .refl (ho f hf).2
      rw [he]
      refine h.isSome_of_acyclicFrom hrun depth s g (f :: opened) (hn.cons hnot) (fun k hk => ?_) (ha.of_refersTo hfg) ?_
      · rcases List.mem_cons.1 hk with rfl | hk
        · exact ⟨Files.mem_of_mem_lines hl, .single hfg⟩
        · exact ⟨(ho k hk).1, (ho k hk).2.tail hfg⟩
      · rw [List.length_cons]
        omega

end

/-! ## Every script -/

/-- **When scripts return**: a call of `executeFile` does exactly unless calls of it go on without end within it, and a
command exactly if the file it runs does, should it run one; and no more calls than there are files, and one, are open at
a time where no script that is reached runs itself. -/
theorem returns_exact (registered : List (String × (σ → List String → σ × UInt32))) (files : Files) (s : σ) :
    (∀ f, (registering registered).Returns files s f ↔ ¬ (registering registered).RunsOn files s f) ∧
      (∀ command, (registering registered).CommandReturns files s command ↔
        ∀ f, (registering registered).Runs command f → (registering registered).Returns files s f) ∧
      ∀ f, files.AcyclicFrom f → ∀ depth, UnorderedMap.size files < depth →
        ((registering registered).executeFile files depth s f).isSome = true := by
  have h := callable_registering registered
  refine ⟨fun f => h.returns_iff s f, fun command => h.commandReturns_iff s command, fun f ha depth hd => ?_⟩
  exact h.isSome_of_acyclicFrom (fun _ _ => runsFile_of_runs) depth s f [] List.nodup_nil (by simp) ha hd

/-- A script that runs one that runs a third, and runs the third itself. -/
def walking : Files :=
  AList.insert "main" "run walk\nrun turn\n" (AList.insert "walk" "# to the left\ncreate legs\nrun turn\n"
    (AList.insert "turn" "create head\n" ∅))

theorem returns_exact_walking : walking.AcyclicFrom "main" ∧ UnorderedMap.size walking = 3 ∧
    ((registering [("create", fun s _ => (s + 1, 0))]).executeFile walking 4 (0 : Nat) "main").isSome = true ∧
      (registering [("create", fun s _ => (s + 1, 0))]).Returns walking (0 : Nat) "main" ∧
        ¬ (registering [("create", fun s _ => (s + 1, 0))]).RunsOn walking (0 : Nat) "main" := by
  have hacyclic : walking.AcyclicFrom "main" := fun f _ =>
    Files.acyclic_of_rank (fun f => if f = "main" then 2 else if f = "walk" then 1 else 0) (by decide) f
  obtain ⟨hreturns, -, hdepth⟩ := returns_exact [("create", fun (s : Nat) _ => (s + 1, 0))] walking 0
  have hr := hdepth "main" hacyclic 4 (by decide)
  exact ⟨hacyclic, by decide, hr, ⟨4, hr⟩, (hreturns "main").1 ⟨4, hr⟩⟩

example : (registering [("create", fun s _ => (s + 1, 0))]).executeFile walking 4 (0 : Nat) "main" = some (3, 0) := by decide

/-- A script runs itself. -/
theorem script_does_not_return :
    ¬ (registering [] : Console Unit).Returns (AList.insert "main" "run main\n" ∅) () "main" := by
  have hlines : Files.lines (AList.insert "main" "run main\n" ∅) "main" = ["run main"] := by decide
  have hnone : ∀ depth, (registering [] : Console Unit).executeFile (AList.insert "main" "run main\n" ∅) depth () "main" =
      none := by
    intro depth
    induction depth with
    | zero => rfl
    | succ depth ih =>
      have hr : (registering [] : Console Unit).Runs "run main" "main" := ⟨"run", [], by decide, by decide, rfl⟩
      rw [executeFile, hlines, executeLines_singleton _ _ (by decide), executeCommand_runs _ _ hr, ih]
  rintro ⟨depth, hd⟩
  rw [hnone depth] at hd
  cases hd

end Console
end NaoFramework
