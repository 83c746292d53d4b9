import NaoFramework.Loggable
import Mathlib.Data.Set.Card
/-!
# LogJournal — what the log files say

Without the sinks, their filters and the registry a log is simple: whatever is logged through an object is a line of the
object's own file, and the root file says when an object gets its sink and when the sink goes; only to a file that did not
open nothing is written (`Journal`).  Where every object has a sink of its own, the files hold exactly that, line by line and
in order, through all moves of the objects (`journal_exact`), and the root file accounts for the objects there are
(`root_accounts`).
-/
namespace NaoFramework
namespace Log

/-- The objects, and the lines of all files; `opened` says of the path of a file whether it opened. -/
structure Journal (A : Type) where
  logFolder : String
  objects : A → Option Loggable
  opened : String → Bool
  lines : List (String × MessagePriority × String)

namespace Journal

variable {A : Type}

def write (j : Journal A) (path : String) (priority : MessagePriority) (message : String) : Journal A :=
  if j.opened path then { j with lines := j.lines ++ [(j.logFolder ++ path, priority, message)] } else j

/-- An object lets its sink go; one that was moved from has none. -/
def release (j : Journal A) (o : Loggable) : Journal A :=
  if o.name = "" then j else j.write "Log" .info ("Removing sink for client: " ++ o.name)

theorem logFolder_write (j : Journal A) (path : String) (priority : MessagePriority) (message : String) :
    (j.write path priority message).logFolder = j.logFolder ∧ (j.write path priority message).opened = j.opened := by
  unfold write
  split <;> exact ⟨rfl, rfl⟩

theorem lines_write (j : Journal A) (path : String) (priority : MessagePriority) (message : String) :
    (j.write path priority message).lines =
      j.lines ++ if j.opened path then [(j.logFolder ++ path, priority, message)] else [] := by
  unfold write
  split
  · rfl
  · exact (List.append_nil _).symm

theorem logFolder_release (j : Journal A) (o : Loggable) :
    (j.release o).logFolder = j.logFolder ∧ (j.release o).opened = j.opened := by
  unfold release
  split
  · exact ⟨rfl, rfl⟩
  · exact j.logFolder_write _ _ _

theorem lines_release (j : Journal A) (o : Loggable) : (j.release o).lines =
    if o.name = "" then j.lines else (j.write "Log" .info ("Removing sink for client: " ++ o.name)).lines := by
  unfold release
  split <;> rfl

variable [DecidableEq A]

def step (j : Journal A) : LoggableOp A → Journal A
  | .construct a disk name folder =>
    match j.objects a with
    | none =>
      if disk.creates (j.logFolder ++ folderize folder) then
        let path := folderize folder ++ name
        { j.write "Log" .info ("Set sink for client: " ++ name) with
          objects := Function.update j.objects a (some ⟨name, folder⟩)
          opened := Function.update j.opened path (disk.opens (j.logFolder ++ path)) }
      else j
    | some _ => j
  | .moveConstruct a other =>
    match j.objects a, j.objects other with
    | none, some o => { j with objects := Function.update (Function.update j.objects other (some .movedFrom)) a (some o) }
    | _, _ => j
  | .moveAssign a other =>
    match j.objects a, j.objects other with
    | some t, some o =>
      if a = other then j
      else { j.release t with objects := Function.update (Function.update j.objects other (some .movedFrom)) a (some o) }
    | _, _ => j
  | .destroy a =>
    match j.objects a with
    | some o => { j.release o with objects := Function.update j.objects a none }
    | none => j
  | .log a message priority =>
    match j.objects a with
    | some o => if o.name = "" then j else j.write o.path priority message
    | none => j

omit [DecidableEq A] in
/-- The root sink tells of itself. -/
def init (opens : String → Bool) (folder : String) : Journal A :=
  write ⟨folderize folder, fun _ => none, fun path => opens (folderize folder ++ path), []⟩ "Log" .info
    ("Set sink for client: " ++ "Log")

def after (opens : String → Bool) (folder : String) (ops : List (LoggableOp A)) : Journal A :=
  Runs.run step (init opens folder) ops

end Journal

namespace Loggables

variable {A : Type}

/-- What gives an object a sink of its own: a call names it, gives no two the same path, and its name is free. -/
def InOrder [DecidableEq A] (W : Loggables A) (op : LoggableOp A) : Prop :=
  op.Named ∧ (W.step op).Distinct ∧ W.NameIsFree op

/-- The files hold the lines of the journal. -/
structure Writes (W : Loggables A) (j : Journal A) : Prop where
  logFolder : W.frontend.logFolder = j.logFolder
  objects : W.objects = j.objects
  opened : ∀ k ∈ W.frontend.availableSinks, W.frontend.opened k = j.opened k
  lines : W.frontend.written = j.lines

variable {W : Loggables A} {j : Journal A}

/-! ## The sinks -/

theorem Inv.root_mem (h : W.Inv) : folderize "" ++ "Log" ∈ W.frontend.availableSinks := by
  have he : folderize "" ++ "Log" = "Log" := by decide
  rw [he]
  exact (h.registered _).2 (Or.inl rfl)

/-- **What is logged under a registered path** is a line of its file, as the journal has it. -/
theorem Writes.written (hw : Writes W j) (h : W.Inv) {client subfolder : String}
    (hk : folderize subfolder ++ client ∈ W.frontend.availableSinks) (message : String) (priority : MessagePriority) :
    (W.frontend.log client subfolder message priority).written =
      (j.write (folderize subfolder ++ client) priority message).lines := by
  rw [h.written hk, Journal.lines_write, hw.lines, hw.opened _ hk, hw.logFolder]

/-- What the frontend tells of itself is a line of the root file. -/
theorem Writes.written_root (hw : Writes W j) (h : W.Inv) (message : String) (priority : MessagePriority) :
    (W.frontend.log "Log" "" message priority).written = (j.write "Log" priority message).lines := by
  have he : folderize "" ++ "Log" = "Log" := by decide
  rw [hw.written h h.root_mem, he]

/-- A sink that is made takes nothing of what tells of it. -/
theorem Writes.written_makeSink (hw : Writes W j) (h : W.Inv) {disk : Disk} {client subfolder : String}
    (hd : disk.creates (W.frontend.logFolder ++ folderize subfolder) = true) (hc : client ∉ W.frontend.availableSinks)
    (hp : folderize subfolder ++ client ≠ "Log") :
    (W.frontend.makeSink false disk client subfolder).2.written =
      (j.write "Log" .info ("Set sink for client: " ++ client)).lines := by
  have hroot : folderize "" ++ "Log" = "Log" := by decide
  rw [← hw.written_root h]
  simp only [Frontend.makeSink, if_pos hd, if_neg hc, Bool.false_eq_true, if_false, Frontend.log, List.filterMap_append]
  have hnew : ∀ (f : Frontend) (s : Sink), f.sinks = W.frontend.sinks ++ [s] → s.filter = some (folderize subfolder ++ client) →
      f.lineOf (folderize "" ++ "Log") ("Set sink for client: " ++ client) .info W.frontend.sinks.length = none := by
    intro f s hf hs
    simp [Frontend.lineOf, hf, Sink.accepts, hs, hroot, hp]
  have hold : ∀ (f : Frontend) (s : Sink), f.sinks = W.frontend.sinks ++ [s] → ∀ n ∈ W.frontend.attached,
      f.lineOf (folderize "" ++ "Log") ("Set sink for client: " ++ client) .info n =
        W.frontend.lineOf (folderize "" ++ "Log") ("Set sink for client: " ++ client) .info n := by
    intro f s hf n hn
    rw [Frontend.lineOf, Frontend.lineOf, hf, List.getElem?_append_left (h.frontend.lt_length hn)]
  rw [List.filterMap_congr (hold _ _ rfl), List.filterMap_cons, hnew _ _ rfl rfl]
  simp

theorem removeSink_frame (f : Frontend) (client subfolder : String) : (f.removeSink client subfolder).logFolder = f.logFolder := by
  unfold Frontend.removeSink
  simp only
  split <;> rfl

/-- **A sink that goes** is told of, if there is one. -/
theorem Writes.written_removeSink (hw : Writes W j) (h : W.Inv) {a : A} {o : Loggable} (ha : W.objects a = some o) :
    (W.frontend.removeSink o.name o.folder).written = (j.release o).lines := by
  rw [Journal.lines_release]
  by_cases hm : o = .movedFrom
  · have hn : W.frontend.availableSinks.lookup (folderize o.folder ++ o.name) = none := by
      refine AList.lookup_eq_none.2 fun hk => ?_
      rcases (h.registered _).1 hk with he | ⟨b, x, hx, he⟩
      · rw [hm] at he
        exact absurd he (by decide)
      · rw [hm] at he
        exact h.path_ne hx (k := folderize Loggable.movedFrom.folder ++ Loggable.movedFrom.name) (by decide) he
    have hname : Loggable.movedFrom.name = "" := rfl
    rw [hm] at hn ⊢
    rw [if_pos hname]
    simp only [Frontend.removeSink, hn]
    exact hw.lines
  · have ho := (holds_iff h ha).2 hm
    obtain ⟨n, hn⟩ := UnorderedMap.exists_lookup ((h.registered o.path).2 (Or.inr ⟨a, o, ho, rfl⟩))
    have hn' : W.frontend.availableSinks.lookup (folderize o.folder ++ o.name) = some n := hn
    rw [if_neg ho.2, ← hw.written_root h]
    simp only [Frontend.removeSink, hn']

/-- A message through an object that was moved from is lost. -/
theorem written_movedFrom (h : W.Inv) (message : String) (priority : MessagePriority) :
    (W.frontend.log "" "" message priority).written = W.frontend.written := by
  have hlines : W.frontend.attached.filterMap (W.frontend.lineOf (folderize "" ++ "") message priority) = [] := by
    refine List.filterMap_eq_nil_iff.2 fun n hn => ?_
    obtain ⟨k, hk⟩ := (h.frontend.attached n).1 hn
    have hne : k ≠ folderize "" ++ "" := by
      rintro rfl
      rcases (h.registered _).1 (AList.lookup_isSome.1 (by rw [hk]; rfl)) with he | ⟨b, x, hx, he⟩
      · exact absurd he (by decide)
      · exact h.path_ne hx (k := folderize "" ++ "") (by decide) he
    simp only [Frontend.lineOf, h.frontend.sinks k n hk, Sink.accepts, decide_eq_false hne, Bool.false_and,
      Bool.false_eq_true, if_false]
  simp only [Frontend.log, hlines, List.append_nil]

/-! ## One call -/

variable [DecidableEq A]

/-- A call that constructs nothing. -/
theorem Writes.opened_step (hw : Writes W j) {op : LoggableOp A} (hop : ∀ a disk name folder, op ≠ .construct a disk name folder)
    {k : String} (hk : k ∈ (W.step op).frontend.availableSinks) : (W.step op).frontend.opened k = j.opened k := by
  obtain ⟨hk₀, he⟩ := Loggables.opened_step hop hk
  exact he.trans (hw.opened k hk₀)

theorem Writes.destroy (hw : Writes W j) (h : W.Inv) (a : A) : Writes (W.step (.destroy a)) (j.step (.destroy a)) := by
  have hopened := @Writes.opened_step A W j _ hw (.destroy a) fun _ _ _ _ e => by cases e
  simp only [step, Journal.step, ← hw.objects] at hopened ⊢
  cases ha : W.objects a with
  | none => exact hw
  | some o =>
    rw [ha] at hopened
    refine ⟨?_, by simp only [hw.objects], fun k hk => ?_, hw.written_removeSink h ha⟩
    · exact (removeSink_frame _ _ _).trans (hw.logFolder.trans (j.logFolder_release o).1.symm)
    · exact (hopened hk).trans (congrFun (j.logFolder_release o).2 k).symm

theorem Writes.moveAssign (hw : Writes W j) (h : W.Inv) (a other : A) :
    Writes (W.step (.moveAssign a other)) (j.step (.moveAssign a other)) := by
  have hopened := @Writes.opened_step A W j _ hw (.moveAssign a other) fun _ _ _ _ e => by cases e
  simp only [step, Journal.step, ← hw.objects] at hopened ⊢
  cases ha : W.objects a with
  | none => exact hw
  | some t =>
    cases hb : W.objects other with
    | none => exact hw
    | some o =>
      simp only [ha, hb] at hopened ⊢
      split
      · exact hw
      · rename_i hne
        simp only [if_neg hne] at hopened
        refine ⟨?_, by simp only [hw.objects], fun k hk => ?_, hw.written_removeSink h ha⟩
        · exact (removeSink_frame _ _ _).trans (hw.logFolder.trans (j.logFolder_release t).1.symm)
        · exact (hopened hk).trans (congrFun (j.logFolder_release t).2 k).symm

theorem Writes.moveConstruct (hw : Writes W j) (a other : A) :
    Writes (W.step (.moveConstruct a other)) (j.step (.moveConstruct a other)) := by
  simp only [step, Journal.step, ← hw.objects]
  cases ha : W.objects a with
  | some t => exact hw
  | none =>
    cases hb : W.objects other with
    | none => exact hw
    | some o => exact ⟨hw.logFolder, by simp only [hw.objects], hw.opened, hw.lines⟩

/-- A message through an object is a line of its own file. -/
theorem Writes.log (hw : Writes W j) (h : W.Inv) (a : A) (message : String) (priority : MessagePriority) :
    Writes (W.step (.log a message priority)) (j.step (.log a message priority)) := by
  simp only [step, Journal.step, ← hw.objects]
  cases ha : W.objects a with
  | none => exact hw
  | some o =>
    by_cases hm : o = .movedFrom
    · subst hm
      exact ⟨hw.logFolder, hw.objects, hw.opened, (written_movedFrom h message priority).trans hw.lines⟩
    · have ho := (holds_iff h ha).2 hm
      have hmem : folderize o.folder ++ o.name ∈ W.frontend.availableSinks := (h.registered _).2 (Or.inr ⟨a, o, ho, rfl⟩)
      have hwrite := j.logFolder_write o.path priority message
      simp only [if_neg ho.2]
      refine ⟨hw.logFolder.trans hwrite.1.symm, ?_, fun k hk => ?_, hw.written h hmem message priority⟩
      · have hobjects : (j.write o.path priority message).objects = j.objects := by
          unfold Journal.write
          split <;> rfl
        exact hw.objects.trans hobjects.symm
      · exact (hw.opened k hk).trans (congrFun hwrite.2 k).symm

theorem Writes.construct (hw : Writes W j) (h : W.Inv) {a : A} {disk : Disk} {name folder : String}
    (hop : W.InOrder (.construct a disk name folder)) :
    Writes (W.step (.construct a disk name folder)) (j.step (.construct a disk name folder)) := by
  cases ha : W.objects a with
  | some o =>
    simp only [step, Journal.step, ← hw.objects, ha]
    exact hw
  | none =>
    by_cases hd : disk.creates (W.frontend.logFolder ++ folderize folder) = true
    · have hd' : disk.creates (j.logFolder ++ folderize folder) = true := hw.logFolder ▸ hd
      obtain ⟨hnamed, -, hfree⟩ := hop
      have hname := h.notMem_of_free (hfree ha hd)
      have hpath : folderize folder ++ name ≠ "Log" := fun he =>
        absurd (he ▸ slash_mem_path hnamed.2 name) (by decide)
      have hopened := Frontend.opened_makeSink h.frontend false hd hname
      have hlines := hw.written_makeSink h hd hname hpath
      obtain ⟨lines, hm⟩ := Frontend.makeSink_made false hd hname
      rw [step_construct name ha hd]
      simp only [Journal.step, ← hw.objects, ha, if_pos hd']
      refine ⟨?_, rfl, fun k hk => ?_, hlines⟩
      · rw [hm]
        exact hw.logFolder.trans (j.logFolder_write _ _ _).1.symm
      · have hk : k ∈ W.frontend.availableSinks.insert (folderize folder ++ name) W.frontend.sinks.length := by
          rw [hm] at hk
          exact hk
        rw [hopened, hw.logFolder]
        simp only [Function.update_apply]
        split
        · rfl
        · rename_i hne
          exact hw.opened k (((AList.mem_insert _).1 hk).resolve_left hne)
    · have hd' : ¬ disk.creates (j.logFolder ++ folderize folder) = true := hw.logFolder ▸ hd
      simp only [step, Journal.step, ← hw.objects, ha, if_neg hd', Frontend.makeSink, if_neg hd]
      exact hw

/-- **One call of the code is one step of the journal.** -/
theorem Writes.step (hw : Writes W j) (h : W.Inv) {op : LoggableOp A} (hop : W.InOrder op) : Writes (W.step op) (j.step op) := by
  cases op with
  | construct a disk name folder => exact hw.construct h hop
  | moveConstruct a other => exact hw.moveConstruct a other
  | moveAssign a other => exact hw.moveAssign h a other
  | destroy a => exact hw.destroy h a
  | log a message priority => exact hw.log h a message priority

/-! ## Whole sequences -/

omit [DecidableEq A] in
theorem init_writes (opens : String → Bool) (folder : String) :
    Writes (init opens folder : Loggables A) (Journal.init opens folder) := by
  have hroot : folderize "" ++ "Log" = "Log" := by decide
  have hempty : (⟨folderize folder, [], [], ∅, []⟩ : Frontend).Inv := Frontend.empty_inv _
  have hopened := @Frontend.opened_makeSink _ hempty false ⟨fun _ => true, opens⟩ "Log" "" rfl (AList.notMem_empty _)
  have hlines : (init opens folder : Loggables A).frontend.written =
      if opens (folderize folder ++ (folderize "" ++ "Log")) then
        [(folderize folder ++ (folderize "" ++ "Log"), .info, "Set sink for client: " ++ "Log")] else [] := by
    rw [← String.append_assoc]
    cases hb : opens (folderize folder ++ folderize "" ++ "Log") <;>
      simp [init, Frontend.init, Frontend.makeSink, Frontend.log, Frontend.lineOf, Sink.accepts, hb]
  have hwrite := (⟨folderize folder, fun _ => none, fun path => opens (folderize folder ++ path), []⟩ : Journal A).logFolder_write
    "Log" .info ("Set sink for client: " ++ "Log")
  rw [hroot] at hlines hopened
  refine ⟨hwrite.1.symm, ?_, fun k hk => ?_, ?_⟩
  · unfold Journal.init Journal.write
    split <;> rfl
  · obtain rfl := (mem_init opens folder k).1 hk
    exact (hopened "Log").trans ((if_pos rfl).trans (congrFun hwrite.2 "Log").symm)
  · rw [hlines, Journal.init, Journal.lines_write]
    rfl

theorem run_writes (opens : String → Bool) (folder : String) (ops : List (LoggableOp A))
    (h : Runs.AtEvery (fun pre op => (after opens folder pre).InOrder op) ops) :
    (after opens folder ops).Inv ∧ Writes (after opens folder ops) (Journal.after opens folder ops) := by
  induction ops using List.reverseRecOn with
  | nil => exact ⟨init_inv opens folder, init_writes opens folder⟩
  | append_singleton ops op ih =>
    obtain ⟨hops, hop⟩ := Runs.atEvery_snoc.1 h
    obtain ⟨hi, hw⟩ := ih hops
    rw [after, Journal.after, Runs.run_snoc, Runs.run_snoc]
    exact ⟨(step_cases hi hop.1 hop.2.1).1 hop.2.2, hw.step hi hop⟩

omit [DecidableEq A] in
/-- One object that has a name is distinct. -/
theorem distinct_of_one {k : A} (h : ∀ a, a ≠ k → W.objects a = none ∨ W.objects a = some .movedFrom) : W.Distinct := by
  have hk : ∀ a o, W.Holds a o → a = k := by
    intro a o ho
    by_contra hne
    rcases h a hne with hn | hm
    · rw [ho.1] at hn; cases hn
    · rw [ho.1, Option.some.injEq] at hm
      exact ho.2 (hm ▸ rfl)
  exact fun a b o o' ho ho' _ => (hk a o ho).trans (hk b o' ho').symm

/-- **The files hold the journal**: over every sequence of constructions, moves, destructions and messages that gives every
object a sink of its own, what was written, line by line and file by file, is what the journal says, whatever files open. -/
theorem journal_exact (opens : String → Bool) (folder : String) (ops : List (LoggableOp A))
    (h : Runs.AtEvery (fun pre op => (after opens folder pre).InOrder op) ops) :
    (after opens folder ops).frontend.written = (Journal.after opens folder ops).lines ∧
      (after opens folder ops).objects = (Journal.after opens folder ops).objects :=
  ⟨(run_writes opens folder ops h).2.lines, (run_writes opens folder ops h).2.objects⟩

/-- An object is made, moves, logs and goes; the file of the next does not open. -/
def moving : List (LoggableOp Nat) :=
  [.construct 0 .good "Reader" "Modules", .moveConstruct 1 0, .log 1 "five" .info, .destroy 1,
    .construct 2 ⟨fun _ => true, fun _ => false⟩ "a/b" "Modules", .log 2 "six" .info]

theorem moving_inOrder : Runs.AtEvery (fun pre op => (after (fun _ => true) "log" pre).InOrder op) moving := by
  have hone : ∀ n, n = 2 ∨ n = 3 ∨ n = 4 → (after (fun _ => true) "log" (moving.take n)).Distinct := by
    intro n hn
    refine distinct_of_one (k := 1) ?_
    rcases hn with rfl | rfl | rfl
    all_goals
      rintro (_ | _ | a) ha
      · exact Or.inr rfl
      · exact absurd rfl ha
      · exact Or.inl rfl
  have htwo : ∀ n, n = 5 ∨ n = 6 → (after (fun _ => true) "log" (moving.take n)).Distinct := by
    intro n hn
    refine distinct_of_one (k := 2) ?_
    rcases hn with rfl | rfl
    all_goals
      rintro (_ | _ | _ | a) ha
      · exact Or.inr rfl
      · exact Or.inl rfl
      · exact absurd rfl ha
      · exact Or.inl rfl
  have hnobody : ∀ b o, ¬ (after (fun _ => true) "log" (moving.take 4)).Holds b o := by
    rintro (_ | _ | b) o ⟨ho, hn⟩
    · obtain rfl := Option.some.inj ho
      exact hn rfl
    · cases ho
    · cases ho
  refine Runs.atEvery_cons.2 ⟨⟨⟨by decide, by decide⟩, ?_, fun _ _ => ⟨by decide, fun b o ho => by cases ho.1⟩⟩,
    Runs.atEvery_cons.2 ⟨⟨trivial, hone 2 (by decide), trivial⟩,
      Runs.atEvery_cons.2 ⟨⟨trivial, hone 3 (by decide), trivial⟩,
        Runs.atEvery_cons.2 ⟨⟨trivial, hone 4 (by decide), trivial⟩,
          Runs.atEvery_cons.2 ⟨⟨⟨by decide, by decide⟩, htwo 5 (by decide),
              fun _ _ => ⟨by decide, fun b o ho => absurd ho (hnobody b o)⟩⟩,
            Runs.atEvery_cons.2 ⟨⟨trivial, htwo 6 (by decide), trivial⟩, Runs.atEvery_nil _⟩⟩⟩⟩⟩⟩
  refine distinct_of_one (k := 0) ?_
  rintro (_ | a) ha
  · exact absurd rfl ha
  · exact Or.inl rfl

theorem journal_exact_moving :
    (after (fun _ => true) "log" moving).frontend.written = (Journal.after (fun _ => true) "log" moving).lines ∧
      (after (fun _ => true) "log" moving).objects = (Journal.after (fun _ => true) "log" moving).objects :=
  journal_exact (fun _ => true) "log" moving moving_inOrder

end Loggables

/-! ## The root file -/

section

variable {A : Type}

/-- The objects of a name. -/
def holdersOf (objects : A → Option Loggable) (n : String) : Set A := {a | ∃ o, objects a = some o ∧ o.name = n}

def setLine (logFolder n : String) : String × MessagePriority × String :=
  (logFolder ++ "Log", .info, "Set sink for client: " ++ n)

def removingLine (logFolder n : String) : String × MessagePriority × String :=
  (logFolder ++ "Log", .info, "Removing sink for client: " ++ n)

/-- **The root file accounts for the objects of a name**: a sink was set once more than one was removed for each of them,
and for the root itself. -/
structure Accounts (logFolder : String) (lines : List (String × MessagePriority × String)) (objects : A → Option Loggable)
    (n : String) : Prop where
  finite : (holdersOf objects n).Finite
  count : lines.count (setLine logFolder n) =
    lines.count (removingLine logFolder n) + (holdersOf objects n).ncard + if n = "Log" then 1 else 0

theorem setLine_ne (logFolder m n : String) : setLine logFolder m ≠ removingLine logFolder n := by
  intro h
  have hs : "Set sink for client: " ++ m = "Removing sink for client: " ++ n := (Prod.mk.inj (Prod.mk.inj h).2).2
  have hl := congrArg String.toList hs
  simp only [String.toList_append] at hl
  exact absurd (List.cons.inj hl).1 (by decide)

theorem setLine_inj {logFolder m n : String} : setLine logFolder m = setLine logFolder n ↔ m = n :=
  ⟨fun h => (String.append_right_inj _).1 (Prod.mk.inj (Prod.mk.inj h).2).2, congrArg _⟩

theorem removingLine_inj {logFolder m n : String} : removingLine logFolder m = removingLine logFolder n ↔ m = n :=
  ⟨fun h => (String.append_right_inj _).1 (Prod.mk.inj (Prod.mk.inj h).2).2, congrArg _⟩

variable {logFolder n : String} {lines : List (String × MessagePriority × String)} {objects : A → Option Loggable}

theorem mem_holdersOf {a : A} {o : Loggable} (ha : objects a = some o) : a ∈ holdersOf objects n ↔ o.name = n := by
  constructor
  · rintro ⟨o', ho, hn⟩
    rwa [Option.some.inj (ha.symm.trans ho)]
  · exact fun hn => ⟨o, ha, hn⟩

theorem notMem_holdersOf {a : A} (ha : objects a = none) : a ∉ holdersOf objects n := by
  rintro ⟨o, ho, -⟩
  rw [ha] at ho
  cases ho

/-- What is no line about a sink of the name does not count. -/
theorem Accounts.other (h : Accounts logFolder lines objects n) (line : String × MessagePriority × String)
    (hs : line ≠ setLine logFolder n) (hr : line ≠ removingLine logFolder n) :
    Accounts logFolder (lines ++ [line]) objects n := by
  refine ⟨h.finite, ?_⟩
  rw [List.count_append, List.count_append, List.count_singleton, List.count_singleton, if_neg (by simpa using hs),
    if_neg (by simpa using hr)]
  exact h.count

variable [DecidableEq A]

theorem holdersOf_update (objects : A → Option Loggable) (a : A) (o : Loggable) :
    holdersOf (Function.update objects a (some o)) n =
      if o.name = n then insert a (holdersOf objects n) else holdersOf objects n \ {a} := by
  ext b
  by_cases hb : b = a
  · subst hb
    split <;> simp [holdersOf, *]
  · split <;> simp [holdersOf, hb]

theorem holdersOf_update_none (objects : A → Option Loggable) (a : A) :
    holdersOf (Function.update objects a none) n = holdersOf objects n \ {a} := by
  ext b
  by_cases hb : b = a
  · subst hb
    simp [holdersOf]
  · simp [holdersOf, hb]

/-- An object gets its sink. -/
theorem Accounts.construct (h : Accounts logFolder lines objects n) {a : A} (ha : objects a = none) (name folder : String) :
    Accounts logFolder (lines ++ [setLine logFolder name]) (Function.update objects a (some ⟨name, folder⟩)) n := by
  by_cases hn : name = n
  · subst hn
    refine ⟨?_, ?_⟩
    · rw [holdersOf_update, if_pos rfl]
      exact h.finite.insert a
    · have hc := h.count
      rw [holdersOf_update, if_pos rfl, Set.ncard_insert_of_notMem (notMem_holdersOf ha) h.finite, List.count_append,
        List.count_append, List.count_singleton_self, List.count_singleton, if_neg (by simpa using setLine_ne logFolder name name)]
      omega
  · have hhold : holdersOf (Function.update objects a (some ⟨name, folder⟩)) n = holdersOf objects n := by
      rw [holdersOf_update, if_neg hn, Set.sdiff_singleton_eq_self (notMem_holdersOf ha)]
    have ho := h.other (setLine logFolder name) (fun e => hn (setLine_inj.1 e)) (setLine_ne logFolder name n)
    exact ⟨hhold ▸ ho.finite, hhold ▸ ho.count⟩

/-- An object goes, and lets its sink go. -/
theorem Accounts.destroy (h : Accounts logFolder lines objects n) (hn : n ≠ "") {a : A} {o : Loggable}
    (ha : objects a = some o) : Accounts logFolder
      (if o.name = "" then lines else lines ++ [removingLine logFolder o.name]) (Function.update objects a none) n := by
  by_cases hon : o.name = n
  · subst hon
    have hmem : a ∈ holdersOf objects o.name := (mem_holdersOf ha).2 rfl
    rw [if_neg hn]
    refine ⟨?_, ?_⟩
    · rw [holdersOf_update_none]
      exact h.finite.sdiff
    · have hc := h.count
      have hcard := Set.ncard_sdiff_singleton_add_one hmem h.finite
      rw [holdersOf_update_none, List.count_append, List.count_append, List.count_singleton_self, List.count_singleton,
        if_neg (by simpa using (setLine_ne logFolder o.name o.name).symm)]
      omega
  · have hhold : holdersOf (Function.update objects a none) n = holdersOf objects n := by
      rw [holdersOf_update_none, Set.sdiff_singleton_eq_self fun hm => hon ((mem_holdersOf ha).1 hm)]
    split
    · exact ⟨hhold ▸ h.finite, hhold ▸ h.count⟩
    · have ho := h.other (removingLine logFolder o.name) (setLine_ne logFolder n o.name).symm
        fun e => hon (removingLine_inj.1 e)
      exact ⟨hhold ▸ ho.finite, hhold ▸ ho.count⟩

/-- An object moves, and its sink with it. -/
theorem Accounts.move (h : Accounts logFolder lines objects n) (hn : n ≠ "") {a other : A} {o : Loggable}
    (ha : objects a = none) (hb : objects other = some o) : Accounts logFolder lines
      (Function.update (Function.update objects other (some .movedFrom)) a (some o)) n := by
  have hempty : Loggable.movedFrom.name ≠ n := Ne.symm hn
  have hcard : (holdersOf (Function.update (Function.update objects other (some .movedFrom)) a (some o)) n).ncard =
      (holdersOf objects n).ncard := by
    rw [holdersOf_update, holdersOf_update, if_neg hempty]
    by_cases hon : o.name = n
    · rw [if_pos hon]
      exact Set.ncard_exchange (notMem_holdersOf ha) ((mem_holdersOf hb).2 hon)
    · rw [if_neg hon, Set.sdiff_singleton_eq_self fun hm => hon ((mem_holdersOf hb).1 hm),
        Set.sdiff_singleton_eq_self (notMem_holdersOf ha)]
  refine ⟨?_, hcard ▸ h.count⟩
  rw [holdersOf_update, holdersOf_update, if_neg hempty]
  split
  · exact h.finite.sdiff.insert a
  · exact h.finite.sdiff.sdiff

end

namespace Loggables

variable {A : Type} [DecidableEq A] {W : Loggables A} {j : Journal A} {n : String}

/-- A move assignment that does something is a destruction and a move construction of the journal, too. -/
theorem journal_moveAssign (j : Journal A) {a other : A} (hne : a ≠ other) {t o : Loggable} (ha : j.objects a = some t)
    (hb : j.objects other = some o) :
    j.step (.moveAssign a other) = (j.step (.destroy a)).step (.moveConstruct a other) := by
  simp only [Journal.step, ha, hb, if_neg hne, Function.update_self, Function.update_of_ne (Ne.symm hne)]
  rw [Function.update_comm hne, Function.update_idem]

theorem logFolder_step (j : Journal A) (op : LoggableOp A) : (j.step op).logFolder = j.logFolder := by
  cases op with
  | construct a disk name folder =>
    simp only [Journal.step]
    split
    · split
      · exact (j.logFolder_write _ _ _).1
      · rfl
    · rfl
  | moveConstruct a other =>
    simp only [Journal.step]
    split <;> rfl
  | moveAssign a other =>
    simp only [Journal.step]
    split
    · split
      · rfl
      · exact (j.logFolder_release _).1
    · rfl
  | destroy a =>
    simp only [Journal.step]
    split
    · exact (j.logFolder_release _).1
    · rfl
  | log a message priority =>
    simp only [Journal.step]
    split
    · split
      · rfl
      · exact (j.logFolder_write _ _ _).1
    · rfl

/-- The root's file is opened by `init` only. -/
theorem opened_root_step (j : Journal A) {op : LoggableOp A} (hn : op.Named) : (j.step op).opened "Log" = j.opened "Log" := by
  cases op with
  | construct a disk name folder =>
    have hpath : "Log" ≠ folderize folder ++ name := fun he => absurd (he ▸ slash_mem_path hn.2 name) (by decide)
    simp only [Journal.step]
    split
    · split
      · exact Function.update_of_ne hpath _ _
      · rfl
    · rfl
  | moveConstruct a other =>
    simp only [Journal.step]
    split <;> rfl
  | moveAssign a other =>
    simp only [Journal.step]
    split
    · split
      · rfl
      · exact congrFun (j.logFolder_release _).2 _
    · rfl
  | destroy a =>
    simp only [Journal.step]
    split
    · exact congrFun (j.logFolder_release _).2 _
    · rfl
  | log a message priority =>
    simp only [Journal.step]
    split
    · split
      · rfl
      · exact congrFun (j.logFolder_write _ _ _).2 _
    · rfl

theorem accounts_destroy (hn : n ≠ "") (hroot : j.opened "Log" = true) (h : Accounts j.logFolder j.lines j.objects n)
    (a : A) : Accounts j.logFolder (j.step (.destroy a)).lines (j.step (.destroy a)).objects n := by
  simp only [Journal.step]
  cases ha : j.objects a with
  | none => exact h
  | some o =>
    simp only [Journal.lines_release, Journal.lines_write, hroot, if_true]
    exact h.destroy hn ha

theorem accounts_moveConstruct (hn : n ≠ "") (h : Accounts j.logFolder j.lines j.objects n) (a other : A) :
    Accounts j.logFolder (j.step (.moveConstruct a other)).lines (j.step (.moveConstruct a other)).objects n := by
  simp only [Journal.step]
  cases ha : j.objects a with
  | some t => exact h
  | none =>
    cases hb : j.objects other with
    | none => exact h
    | some o => exact h.move hn ha hb

/-- **Every step keeps the accounts.** -/
theorem accounts_step (hi : W.Inv) (hw : Writes W j) (hn : n ≠ "") (hroot : j.opened "Log" = true)
    (h : Accounts j.logFolder j.lines j.objects n) (op : LoggableOp A) :
    Accounts j.logFolder (j.step op).lines (j.step op).objects n := by
  cases op with
  | destroy a => exact accounts_destroy hn hroot h a
  | moveConstruct a other => exact accounts_moveConstruct hn h a other
  | moveAssign a other =>
    cases ha : j.objects a with
    | none =>
      simp only [Journal.step, ha]
      exact h
    | some t =>
      cases hb : j.objects other with
      | none =>
        simp only [Journal.step, ha, hb]
        exact h
      | some o =>
        by_cases hne : a = other
        · simp only [Journal.step, ha, hb, if_pos hne]
          exact h
        · rw [journal_moveAssign j hne ha hb]
          have hd := accounts_destroy hn hroot h a
          rw [← logFolder_step j (.destroy a)] at hd ⊢
          exact accounts_moveConstruct hn hd a other
  | construct a disk name folder =>
    simp only [Journal.step]
    cases ha : j.objects a with
    | some o => exact h
    | none =>
      simp only
      split
      · simp only [Journal.lines_write, hroot, if_true]
        exact h.construct ha name folder
      · exact h
  | log a message priority =>
    simp only [Journal.step]
    cases ha : j.objects a with
    | none => exact h
    | some o =>
      simp only
      split
      · exact h
      · rename_i hname
        -- a path has a slash, and the root's has none
        have hfile : j.logFolder ++ o.path ≠ j.logFolder ++ "Log" := by
          rw [Ne, String.append_right_inj]
          exact hi.path_ne ⟨hw.objects ▸ ha, hname⟩ (by decide)
        unfold Journal.write
        split
        · exact h.other _ (fun e => hfile (Prod.mk.inj e).1) fun e => hfile (Prod.mk.inj e).1
        · exact h

omit [DecidableEq A] in
/-- The root tells of itself only. -/
theorem init_accounts {opens : String → Bool} {folder : String} (ho : opens (folderize folder ++ "Log") = true) (n : String) :
    Accounts (folderize folder) (Journal.init opens folder : Journal A).lines
      (Journal.init opens folder : Journal A).objects n := by
  have hinit : (Journal.init opens folder : Journal A) = ⟨folderize folder, fun _ => none,
      fun path => opens (folderize folder ++ path), [setLine (folderize folder) "Log"]⟩ := by
    unfold Journal.init Journal.write
    rw [if_pos ho]
    rfl
  have hnone : holdersOf (fun _ => none : A → Option Loggable) n = ∅ :=
    Set.eq_empty_iff_forall_notMem.2 fun a => notMem_holdersOf rfl
  rw [hinit]
  refine ⟨hnone ▸ Set.finite_empty, ?_⟩
  rw [hnone, Set.ncard_empty, List.count_singleton, List.count_singleton,
    if_neg (c := setLine (folderize folder) "Log" == removingLine (folderize folder) n)
      (by simpa using setLine_ne (folderize folder) "Log" n)]
  by_cases hn : n = "Log"
  · rw [hn, if_pos rfl, if_pos (by simp)]
  · rw [if_neg hn, if_neg (by simpa [setLine_inj] using Ne.symm hn)]

/-- **The root file accounts for the objects there are**: if it opens, then at any time, of every name, the sinks that were
set and not removed since are as many as the objects that bear it, wherever these have moved to, and whatever files open. -/
theorem root_accounts (opens : String → Bool) (folder : String) (ho : opens (folderize folder ++ "Log") = true)
    (ops : List (LoggableOp A)) (h : Runs.AtEvery (fun pre op => (after opens folder pre).InOrder op) ops) (n : String)
    (hn : n ≠ "") :
    Accounts (folderize folder) (after opens folder ops).frontend.written (after opens folder ops).objects n := by
  have hrun : (Journal.after opens folder ops : Journal A).logFolder = folderize folder ∧
      (Journal.after opens folder ops : Journal A).opened "Log" = true ∧
      Accounts (folderize folder) (Journal.after opens folder ops : Journal A).lines
        (Journal.after opens folder ops).objects n := by
    induction ops using List.reverseRecOn with
    | nil =>
      have hw := init_writes (A := A) opens folder
      exact ⟨hw.logFolder.symm, (congrFun (Journal.logFolder_write _ _ _ _).2 _).trans ho, init_accounts ho n⟩
    | append_singleton ops op ih =>
      obtain ⟨hops, hop⟩ := Runs.atEvery_snoc.1 h
      obtain ⟨hf, hroot, ha⟩ := ih hops
      obtain ⟨hi, hw⟩ := run_writes opens folder ops hops
      rw [Journal.after, Runs.run_snoc]
      refine ⟨(logFolder_step _ op).trans hf, (opened_root_step _ hop.1).trans hroot, ?_⟩
      rw [← hf] at ha ⊢
      exact accounts_step hi hw hn hroot ha op
  obtain ⟨-, hw⟩ := run_writes opens folder ops h
  rw [hw.lines, hw.objects]
  exact hrun.2.2

theorem root_accounts_moving :
    Accounts (folderize "log") (after (fun _ => true) "log" moving).frontend.written
      (after (fun _ => true) "log" moving).objects "Reader" :=
  root_accounts (fun _ => true) "log" rfl moving moving_inOrder "Reader" (by decide)

end Loggables
end Log
end NaoFramework
