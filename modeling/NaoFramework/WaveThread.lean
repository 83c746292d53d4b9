import NaoFramework.Wave
/-!
# WaveThread — one wave, its controlling thread and its own

The steps of `execute`, `pause` and `addModule` interleaved with those of the threads they launch.  The controlling
thread takes a step for each access to `running_`, `wave_` and `modules_`; a launched thread reads the flag, then
executes one module at a time.  The invariant (`Inv`) says where the controlling thread is, which thread may still be
live there, and how far it has got in its pass; `whole_passes` reads the three laws of a wave off it.
-/
namespace NaoFramework
namespace Core

variable {M : Type}

/-- A thread in `launchWave`: before its read of the flag, in a pass over `size` modules of which it has executed
`done`, or ended. -/
inductive Worker where
  | loop
  | pass (done size : Nat)
  | ended
  deriving DecidableEq, Repr

/-- Where the controlling thread is.  `next` is what follows a `pause`: its return, or, in `addModule`, the insertion
of a module and a restart. -/
inductive Control (M : Type) where
  | idle
  | executeLoad
  | executeStore
  | executeSpawn
  | executeAssign (thread : Nat)
  | pauseLoad (next : Option M)
  | pauseStore (next : Option M)
  | pauseJoin (next : Option M)
  | addLoad (module : M)
  | addPush (module : M) (running : Bool)
  | fault (f : Fault)
  deriving DecidableEq

/-- What the trace records: an insertion into `modules_`, the start of a pass, the execution of a module. -/
inductive Event (M : Type) where
  | added (module : M)
  | passStarted
  | ran (module : M)
  deriving DecidableEq

/-- The wave, its handle holding the number of a thread; every thread launched so far; and the trace. -/
structure Threads (M : Type) where
  object : BrainWave Nat M
  threads : List Worker
  control : Control M
  trace : List (Event M)

inductive Command (M : Type) where
  | execute
  | pause
  | addModule (module : M)

/-- Who takes the next step: the controlling thread, beginning a call or going on with it, or a launched thread. -/
inductive Label (M : Type) where
  | call (c : Command M)
  | control
  | worker (thread : Nat)

namespace Threads

def new (name : String) : Threads M := ⟨.new name, [], .idle, []⟩

/-- What follows a `pause`. -/
def returned : Option M → Control M
  | none => .idle
  | some m => .addPush m true

def begin (s : Threads M) (c : Command M) : Option (Threads M) :=
  match s.control with
  | .idle =>
    match c with
    | .execute => some { s with control := .executeLoad }
    | .pause => some { s with control := .pauseLoad none }
    | .addModule m => some { s with control := .addLoad m }
  | _ => none

def controlStep [ModuleInterface M] (s : Threads M) : Option (Threads M) :=
  match s.control with
  | .idle | .fault _ => none
  | .executeLoad => some { s with control := if s.object.running then .idle else .executeStore }
  | .executeStore => some { s with object := { s.object with running := true }, control := .executeSpawn }
  | .executeSpawn => some { s with threads := s.threads ++ [.loop], control := .executeAssign s.threads.length }
  | .executeAssign n =>
    match s.object.wave with
    | none => some { s with object := { s.object with wave := some n }, control := .idle }
    | some _ => some { s with control := .fault .terminate }
  | .pauseLoad next => some { s with control := if s.object.running then .pauseStore next else returned next }
  | .pauseStore next => some { s with object := { s.object with running := false }, control := .pauseJoin next }
  | .pauseJoin next =>
    match s.object.wave with
    | none => some { s with control := .fault .systemError }
    -- the join blocks until the thread has ended
    | some n =>
      if s.threads[n]? = some .ended then
        some { s with object := { s.object with wave := none }, control := returned next }
      else none
  | .addLoad m => some { s with control := if s.object.running then .pauseLoad (some m) else .addPush m false }
  | .addPush m running =>
    some { s with object := s.object.pushBack m, trace := s.trace ++ [.added m],
                  control := if running then .executeLoad else .idle }

def workerStep (s : Threads M) (n : Nat) : Option (Threads M) :=
  match s.threads[n]? with
  | some .loop =>
    if s.object.running then
      some { s with threads := s.threads.set n (.pass 0 s.object.modules.length), trace := s.trace ++ [.passStarted] }
    else some { s with threads := s.threads.set n .ended }
  | some (.pass done size) =>
    if done < size then
      (s.object.modules[done]?).map fun m =>
        { s with threads := s.threads.set n (.pass (done + 1) size), trace := s.trace ++ [.ran m] }
    else some { s with threads := s.threads.set n .loop }
  | some .ended | none => none

def step [ModuleInterface M] (s : Threads M) : Label M → Option (Threads M)
  | .call c => s.begin c
  | .control => s.controlStep
  | .worker n => s.workerStep n

/-- The states a new wave can get to, by any interleaving. -/
def Reachable [ModuleInterface M] (name : String) (s : Threads M) : Prop :=
  ∃ labels, Runs.runPossible step (new name) labels = some s

end Threads

/-! ## The laws -/

/-- The modules a trace added, in order. -/
def addedIn (trace : List (Event M)) : List M :=
  trace.filterMap fun
    | .added m => some m
    | _ => none

/-- **Insertions and whole passes**, each over the modules added before it started. -/
inductive WholePasses : List (Event M) → Prop where
  | nil : WholePasses []
  | added (t : List (Event M)) (m : M) (h : WholePasses t) : WholePasses (t ++ [.added m])
  | pass (t : List (Event M)) (h : WholePasses t) : WholePasses (t ++ .passStarted :: (addedIn t).map .ran)

namespace Threads

/-- Every launched thread has ended. -/
def Stopped (s : Threads M) : Prop := ∀ w ∈ s.threads, w = .ended

/-- The thread numbered `n` has been launched and has not ended; only then it may iterate over `modules_`. -/
def Live (s : Threads M) (n : Nat) : Prop := ∃ w, s.threads[n]? = some w ∧ w ≠ .ended

/-! ## The invariant -/

/-- How far a thread has got: the trace is whole passes, or whole passes and the beginning of one over all modules. -/
def Progress (modules : List M) (trace : List (Event M)) : Worker → Prop
  | .loop | .ended => WholePasses trace
  | .pass done size =>
    size = modules.length ∧ done ≤ size ∧
      ∃ t, WholePasses t ∧ addedIn t = modules ∧ trace = t ++ .passStarted :: (modules.take done).map .ran

/-- No thread is live, and the trace is whole passes. -/
structure Quiet (threads : List Worker) (modules : List M) (trace : List (Event M)) : Prop where
  stopped : ∀ w ∈ threads, w = .ended
  whole : WholePasses trace
  added : addedIn trace = modules

/-- No thread is live but, perhaps, the one launched last, numbered `n`. -/
structure Active (n : Nat) (threads : List Worker) (modules : List M) (trace : List (Event M)) : Prop where
  split : ∃ earlier w, threads = earlier ++ [w] ∧ earlier.length = n ∧ (∀ x ∈ earlier, x = .ended) ∧
    Progress modules trace w
  added : addedIn trace = modules

/-- Between calls: running, with the last thread in the handle; or paused, with none. -/
def Settled (s : Threads M) : Prop :=
  (s.object.running = true ∧ ∃ n, s.object.wave = some n ∧ Active n s.threads s.object.modules s.trace) ∨
    (s.object.running = false ∧ s.object.wave = none ∧ Quiet s.threads s.object.modules s.trace)

def Inv (s : Threads M) : Prop :=
  match s.control with
  | .idle | .executeLoad | .pauseLoad _ | .addLoad _ => s.Settled
  | .executeStore | .addPush _ _ =>
    s.object.running = false ∧ s.object.wave = none ∧ Quiet s.threads s.object.modules s.trace
  | .executeSpawn => s.object.running = true ∧ s.object.wave = none ∧ Quiet s.threads s.object.modules s.trace
  | .executeAssign n => s.object.running = true ∧ s.object.wave = none ∧ Active n s.threads s.object.modules s.trace
  | .pauseStore _ => s.object.running = true ∧ ∃ n, s.object.wave = some n ∧ Active n s.threads s.object.modules s.trace
  | .pauseJoin _ => s.object.running = false ∧ ∃ n, s.object.wave = some n ∧ Active n s.threads s.object.modules s.trace
  | .fault _ => False

theorem addedIn_append (t u : List (Event M)) : addedIn (t ++ u) = addedIn t ++ addedIn u := List.filterMap_append ..

theorem getElem?_snoc {earlier : List Worker} {w x : Worker} {j : Nat} (h : (earlier ++ [w])[j]? = some x) :
    x ∈ earlier ∨ (j = earlier.length ∧ x = w) := by
  rw [List.getElem?_append] at h
  split at h
  · exact Or.inl (List.mem_of_getElem? h)
  · have hj : j - earlier.length = 0 := by
      have := (List.getElem?_eq_some_iff.1 h).1
      simpa using this
    rw [hj] at h
    exact Or.inr ⟨by omega, (Option.some.inj h).symm⟩

theorem Quiet.worker {s : Threads M} (h : Quiet s.threads s.object.modules s.trace) (j : Nat) : s.workerStep j = none := by
  unfold workerStep
  cases hj : s.threads[j]? with
  | none => rfl
  | some w =>
    obtain rfl := h.stopped w (List.mem_of_getElem? hj)
    rfl

/-- A launched thread touches neither the wave nor the controlling thread. -/
theorem workerStep_frame {s s' : Threads M} {j : Nat} (hs : s.workerStep j = some s') :
    s'.object = s.object ∧ s'.control = s.control := by
  unfold workerStep at hs
  split at hs
  · split at hs <;> obtain rfl := Option.some.inj hs <;> exact ⟨rfl, rfl⟩
  · split at hs
    · obtain ⟨m, -, rfl⟩ := Option.map_eq_some_iff.1 hs
      exact ⟨rfl, rfl⟩
    · obtain rfl := Option.some.inj hs
      exact ⟨rfl, rfl⟩
  · cases hs
  · cases hs

/-- **A thread's step**: only the last one can take it, and it goes on with its pass. -/
theorem Active.worker {s s' : Threads M} {n j : Nat} (h : Active n s.threads s.object.modules s.trace)
    (hs : s.workerStep j = some s') :
    Active n s'.threads s.object.modules s'.trace := by
  obtain ⟨⟨earlier, w, ht, rfl, hended, hw⟩, hadded⟩ := h
  have hset : ∀ w', s.threads.set earlier.length w' = earlier ++ [w'] := fun w' => by
    rw [ht, List.set_append_right _ _ (Nat.le_refl _), Nat.sub_self]; rfl
  have hlast : ∀ x, s.threads[j]? = some x → x ≠ .ended → j = earlier.length ∧ x = w := by
    intro x hx hne
    rw [ht] at hx
    rcases getElem?_snoc hx with hx | hx
    · exact absurd (hended x hx) hne
    · exact hx
  unfold workerStep at hs
  cases hj : s.threads[j]? with
  | none => rw [hj] at hs; cases hs
  | some x =>
    rw [hj] at hs
    cases x with
    | ended => cases hs
    | loop =>
      obtain ⟨rfl, rfl⟩ := hlast _ hj (by simp)
      simp only at hs
      split at hs
      · obtain rfl := Option.some.inj hs
        refine ⟨⟨earlier, _, hset _, rfl, hended, rfl, Nat.zero_le _, s.trace, hw, hadded, ?_⟩, ?_⟩
        · rw [List.take_zero]; rfl
        · simpa [addedIn_append, addedIn] using hadded
      · obtain rfl := Option.some.inj hs
        exact ⟨⟨earlier, _, hset _, rfl, hended, hw⟩, hadded⟩
    | pass done size =>
      obtain ⟨rfl, rfl⟩ := hlast _ hj (by simp)
      obtain ⟨rfl, hle, t, hwhole, hmods, htrace⟩ := hw
      simp only at hs
      split at hs
      · rename_i hlt
        obtain ⟨m, hm, rfl⟩ := Option.map_eq_some_iff.1 hs
        refine ⟨⟨earlier, _, hset _, rfl, hended, rfl, hlt, t, hwhole, hmods, ?_⟩, ?_⟩
        · simp [htrace, List.take_add_one, hm]
        · simpa [addedIn_append, addedIn] using hadded
      · obtain rfl := Option.some.inj hs
        obtain rfl : done = s.object.modules.length := by omega
        refine ⟨⟨earlier, _, hset _, rfl, hended, ?_⟩, hadded⟩
        show WholePasses s.trace
        rw [htrace, List.take_length, ← hmods]
        exact .pass t hwhole

/-- A thread that was joined leaves everything quiet. -/
theorem Active.quiet {threads : List Worker} {modules : List M} {trace : List (Event M)} {n : Nat}
    (h : Active n threads modules trace) (hn : threads[n]? = some .ended) : Quiet threads modules trace := by
  obtain ⟨⟨earlier, w, rfl, rfl, hended, hw⟩, hadded⟩ := h
  obtain rfl : w = .ended := by simpa using hn
  refine ⟨fun x hx => ?_, hw, hadded⟩
  rcases List.mem_append.1 hx with hx | hx
  · exact hended x hx
  · exact List.mem_singleton.1 hx

/-- A thread launched where all is quiet is the only one. -/
theorem Quiet.spawn {threads : List Worker} {modules : List M} {trace : List (Event M)}
    (h : Quiet threads modules trace) : Active threads.length (threads ++ [.loop]) modules trace :=
  ⟨⟨threads, .loop, rfl, rfl, h.stopped, h.whole⟩, h.added⟩

theorem Quiet.push [ModuleInterface M] {threads : List Worker} {w : BrainWave Nat M} {trace : List (Event M)}
    (h : Quiet threads w.modules trace) (m : M) : Quiet threads (w.pushBack m).modules (trace ++ [.added m]) :=
  ⟨h.stopped, .added trace m h.whole, by rw [addedIn_append, h.added]; rfl⟩

theorem workerStep_inv {s s' : Threads M} {j : Nat} (h : s.Inv) (hs : s.workerStep j = some s') : s'.Inv := by
  obtain ⟨ho, hc⟩ := workerStep_frame hs
  have hq : ¬ Quiet s.threads s.object.modules s.trace := fun hq => by rw [hq.worker j] at hs; cases hs
  have ha : ∀ n, Active n s.threads s.object.modules s.trace → Active n s'.threads s.object.modules s'.trace :=
    fun n ha => ha.worker hs
  have hset : s.Settled → s'.Settled := by
    rintro (⟨hr, n, hw, h⟩ | ⟨-, -, h⟩)
    · exact Or.inl ⟨by rw [ho]; exact hr, n, by rw [ho]; exact hw, by rw [ho]; exact ha n h⟩
    · exact absurd h hq
  unfold Inv at h ⊢
  rw [hc]
  cases hcs : s.control with
  | idle | executeLoad | pauseLoad next | addLoad m => rw [hcs] at h; exact hset h
  | executeStore | executeSpawn | addPush m r => rw [hcs] at h; exact absurd h.2.2 hq
  | executeAssign n => rw [hcs] at h; rw [ho]; exact ⟨h.1, h.2.1, ha n h.2.2⟩
  | pauseStore next | pauseJoin next =>
    rw [hcs] at h
    obtain ⟨hr, n, hw, h⟩ := h
    rw [ho]
    exact ⟨hr, n, hw, ha n h⟩
  | fault f => rw [hcs] at h; exact h

theorem begin_inv {s s' : Threads M} {c : Command M} (h : s.Inv) (hs : s.begin c = some s') : s'.Inv := by
  unfold begin at hs
  cases hc : s.control with
  | idle =>
    rw [hc] at hs
    unfold Inv at h
    rw [hc] at h
    cases c <;> obtain rfl := Option.some.inj hs <;> exact h
  | _ => rw [hc] at hs; cases hs

variable [ModuleInterface M]

theorem controlStep_inv {s s' : Threads M} (h : s.Inv) (hs : s.controlStep = some s') : s'.Inv := by
  unfold controlStep at hs
  unfold Inv at h
  cases hc : s.control with
  | idle | fault f => rw [hc] at hs; cases hs
  | executeLoad =>
    rw [hc] at hs h
    obtain rfl := Option.some.inj hs
    rcases h with ⟨hr, n, hw, ha⟩ | ⟨hr, hw, hq⟩
    · simp only [hr, if_true]; exact Or.inl ⟨hr, n, hw, ha⟩
    · simp only [hr, Bool.false_eq_true, if_false]; exact ⟨hr, hw, hq⟩
  | executeStore =>
    rw [hc] at hs h
    obtain rfl := Option.some.inj hs
    exact ⟨rfl, h.2.1, h.2.2⟩
  | executeSpawn =>
    rw [hc] at hs h
    obtain rfl := Option.some.inj hs
    exact ⟨h.1, h.2.1, h.2.2.spawn⟩
  | executeAssign n =>
    rw [hc] at hs h
    obtain ⟨hr, hw, ha⟩ := h
    simp only [hw] at hs
    obtain rfl := Option.some.inj hs
    exact Or.inl ⟨hr, n, rfl, ha⟩
  | pauseLoad next =>
    rw [hc] at hs h
    obtain rfl := Option.some.inj hs
    rcases h with ⟨hr, n, hw, ha⟩ | ⟨hr, hw, hq⟩
    · simp only [hr, if_true]; exact ⟨hr, n, hw, ha⟩
    · simp only [hr, Bool.false_eq_true, if_false]
      cases next with
      | none => exact Or.inr ⟨hr, hw, hq⟩
      | some m => exact ⟨hr, hw, hq⟩
  | pauseStore next =>
    rw [hc] at hs h
    obtain rfl := Option.some.inj hs
    exact ⟨rfl, h.2⟩
  | pauseJoin next =>
    rw [hc] at hs h
    obtain ⟨hr, n, hw, ha⟩ := h
    simp only [hw] at hs
    split at hs
    · rename_i hended
      obtain rfl := Option.some.inj hs
      cases next with
      | none => exact Or.inr ⟨hr, rfl, ha.quiet hended⟩
      | some m => exact ⟨hr, rfl, ha.quiet hended⟩
    · cases hs
  | addLoad m =>
    rw [hc] at hs h
    obtain rfl := Option.some.inj hs
    rcases h with ⟨hr, n, hw, ha⟩ | ⟨hr, hw, hq⟩
    · simp only [hr, if_true]; exact Or.inl ⟨hr, n, hw, ha⟩
    · simp only [hr, Bool.false_eq_true, if_false]; exact ⟨hr, hw, hq⟩
  | addPush m running =>
    rw [hc] at hs h
    obtain rfl := Option.some.inj hs
    obtain ⟨hr, hw, hq⟩ := h
    cases running <;> exact Or.inr ⟨hr, hw, hq.push m⟩

/-- **The step lemma.** -/
theorem step_inv {s s' : Threads M} {l : Label M} (h : s.Inv) (hs : s.step l = some s') : s'.Inv := by
  cases l with
  | call c => exact begin_inv h hs
  | control => exact controlStep_inv h hs
  | worker n => exact workerStep_inv h hs

theorem reachable_inv {name : String} {s : Threads M} (h : Reachable name s) : s.Inv := by
  obtain ⟨labels, hr⟩ := h
  have h0 : (new name : Threads M).Inv := Or.inr ⟨rfl, rfl, ⟨fun w hw => (List.not_mem_nil hw).elim, .nil, rfl⟩⟩
  exact Runs.runPossible_invariant (fun _ _ _ => step_inv) labels _ _ h0 hr

/-! ## What follows -/

omit [ModuleInterface M] in
/-- In every state all is quiet, or one thread may be live. -/
theorem Inv.quiet_or_active {s : Threads M} (h : s.Inv) :
    Quiet s.threads s.object.modules s.trace ∨ ∃ n, Active n s.threads s.object.modules s.trace := by
  unfold Inv at h
  cases hc : s.control <;> rw [hc] at h
  case idle | executeLoad | pauseLoad | addLoad =>
    rcases h with ⟨-, n, -, h⟩ | ⟨-, -, h⟩
    · exact Or.inr ⟨n, h⟩
    · exact Or.inl h
  case executeStore | executeSpawn | addPush => exact Or.inl h.2.2
  case executeAssign n => exact Or.inr ⟨n, h.2.2⟩
  case pauseStore | pauseJoin => exact Or.inr (h.2.imp fun _ h => h.2)
  case fault => cases h

omit [ModuleInterface M] in
theorem Active.live_eq {s : Threads M} {n m : Nat} (h : Active n s.threads s.object.modules s.trace) (hm : s.Live m) :
    m = n := by
  obtain ⟨earlier, w, ht, rfl, hended, -⟩ := h.split
  obtain ⟨x, hx, hne⟩ := hm
  rw [ht] at hx
  rcases getElem?_snoc hx with hx | hx
  · exact absurd (hended x hx) hne
  · exact hx.1

omit [ModuleInterface M] in
theorem Quiet.not_live {s : Threads M} {m : Nat} (h : Quiet s.threads s.object.modules s.trace) : ¬ s.Live m := by
  rintro ⟨x, hx, hne⟩
  exact hne (h.stopped x (List.mem_of_getElem? hx))

/-- **The module list changes only where all is quiet.** -/
theorem modules_of_step {s s' : Threads M} {l : Label M} (h : s.Inv) (hs : s.step l = some s')
    (hne : s'.object.modules ≠ s.object.modules) : Quiet s.threads s.object.modules s.trace := by
  cases l with
  | worker n => exact absurd (by rw [(workerStep_frame hs).1]) hne
  | call c =>
    simp only [step, begin] at hs
    split at hs
    · cases c <;> obtain rfl := Option.some.inj hs <;> exact absurd rfl hne
    · cases hs
  | control =>
    simp only [step, controlStep] at hs
    unfold Inv at h
    cases hc : s.control <;> rw [hc] at hs h
    case idle | fault => cases hs
    case addPush m r => exact h.2.2
    case executeLoad | executeStore | executeSpawn | pauseLoad | pauseStore | addLoad =>
      obtain rfl := Option.some.inj hs
      exact absurd rfl hne
    case executeAssign n =>
      simp only at hs
      split at hs <;> obtain rfl := Option.some.inj hs <;> exact absurd rfl hne
    case pauseJoin next =>
      simp only at hs
      split at hs
      · obtain rfl := Option.some.inj hs
        exact absurd rfl hne
      · split at hs
        · obtain rfl := Option.some.inj hs
          exact absurd rfl hne
        · cases hs

/-- **A wave runs whole passes over a stable module list**: at most one thread is live; `modules_` changes only while
none is; whenever every thread has ended the trace is whole passes; and between calls that is so when the wave is not
running. -/
theorem whole_passes (name : String) (s : Threads M) (h : Reachable name s) :
    (∀ m n, s.Live m → s.Live n → m = n) ∧
      (∀ l s', s.step l = some s' → s'.object.modules ≠ s.object.modules → ∀ n, ¬ s.Live n) ∧
      (s.Stopped → WholePasses s.trace) ∧
      (s.control = .idle → s.object.isRunning = false → s.Stopped) := by
  have hi := reachable_inv h
  refine ⟨fun m n hm hn => ?_, fun l s' hs hne n => (modules_of_step hi hs hne).not_live, fun hstop => ?_,
    fun hidle hr => ?_⟩
  · rcases hi.quiet_or_active with hq | ⟨k, ha⟩
    · exact absurd hm hq.not_live
    · rw [ha.live_eq hm, ha.live_eq hn]
  · rcases hi.quiet_or_active with hq | ⟨k, ha⟩
    · exact hq.whole
    · obtain ⟨earlier, w, ht, -, -, hw⟩ := ha.split
      obtain rfl := hstop w (by rw [ht]; simp)
      exact hw
  · unfold Inv at hi
    rw [hidle] at hi
    rcases hi with ⟨hr', -⟩ | ⟨-, -, hq⟩
    · exact absurd (hr'.symm.trans hr) (by simp)
    · exact hq.stopped

/-- A wave gets a module, runs one pass and is paused. -/
theorem whole_passes_paused : WholePasses ([.added "Writer", .passStarted, .ran "Writer"] : List (Event String)) :=
  (whole_passes "wave" ⟨⟨"wave", ["Writer"], _, false, none⟩, [.ended], .idle, _⟩
    ⟨[.call (.addModule "Writer"), .control, .control, .call .execute, .control, .control, .control, .control,
      .worker 0, .worker 0, .worker 0, .call .pause, .control, .control, .worker 0, .control], rfl⟩).2.2.1 (by
        intro w hw
        exact List.mem_singleton.1 hw)

end Threads

/-! ## One call at a time

Seen from outside, the calls take effect as `BrainWave`'s own do, in the order they are begun. -/

variable {A : Type} [ModuleInterface M]

def Command.call (self : A) (w : BrainWave A M) : Command M → Outcome (BrainWave A M)
  | execute => w.execute self
  | pause => w.pause
  | addModule m => w.addModule self m

namespace Threads

/-- The wave, its handle holding the object the thread runs on. -/
def view (self : A) (w : BrainWave Nat M) : BrainWave A M :=
  ⟨w.name, w.modules, w.indices, w.running, w.wave.map fun _ => self⟩

/-- What follows a `pause`, in one. -/
def resume (self : A) : Option M → BrainWave A M → BrainWave A M
  | none, w => w
  | some m, w => ((w.pushBack m).execute self).state

/-- **The wave when the call in progress will have returned.** -/
def finish (self : A) (s : Threads M) : BrainWave A M :=
  let w := view self s.object
  match s.control with
  | .idle | .fault _ => w
  | .executeLoad => (w.execute self).state
  | .executeStore | .executeSpawn | .executeAssign _ => { w with running := true, wave := some self }
  | .pauseLoad next => resume self next w.pause.state
  | .pauseStore next | .pauseJoin next => resume self next { w with running := false, wave := none }
  | .addLoad m => (w.addModule self m).state
  | .addPush m running => if running then ((w.pushBack m).execute self).state else w.pushBack m

def commandsOf (labels : List (Label M)) : List (Command M) :=
  labels.filterMap fun
    | .call c => some c
    | _ => none

omit [ModuleInterface M] in
theorem Settled.sound {s : Threads M} (h : s.Settled) (self : A) : (view self s.object).Sound self := by
  unfold view BrainWave.Sound
  rcases h with ⟨hr, n, hw, -⟩ | ⟨hr, hw, -⟩ <;> rw [hr, hw] <;> rfl

theorem finish_begin (self : A) {s s' : Threads M} {c : Command M} (hs : s.begin c = some s') :
    s'.finish self = (c.call self (s.finish self)).state := by
  unfold begin at hs
  cases hc : s.control with
  | idle =>
    rw [hc] at hs
    have hf : s.finish self = view self s.object := by unfold finish; rw [hc]
    rw [hf]
    cases c <;> obtain rfl := Option.some.inj hs <;> rfl
  | _ => rw [hc] at hs; cases hs

theorem finish_worker (self : A) {s s' : Threads M} {n : Nat} (hs : s.workerStep n = some s') :
    s'.finish self = s.finish self := by
  obtain ⟨ho, hc⟩ := workerStep_frame hs
  unfold finish
  rw [ho, hc]

theorem finish_control (self : A) {s s' : Threads M} (h : s.Inv) (hs : s.controlStep = some s') :
    s'.finish self = s.finish self := by
  obtain ⟨⟨name, modules, indices, running, wave⟩, threads, control, trace⟩ := s
  cases control with
  | idle | fault f => cases hs
  | executeStore | executeSpawn | pauseStore next =>
    obtain rfl := Option.some.inj hs
    rfl
  | addPush m restart =>
    obtain rfl := Option.some.inj hs
    cases restart <;> rfl
  | executeLoad =>
    obtain rfl := Option.some.inj hs
    rcases h with ⟨hr, n, hw, -⟩ | ⟨hr, hw, -⟩
    all_goals
      obtain rfl : running = _ := hr
      obtain rfl : wave = _ := hw
      rfl
  | pauseLoad next =>
    obtain rfl := Option.some.inj hs
    rcases h with ⟨hr, n, hw, -⟩ | ⟨hr, hw, -⟩
    all_goals
      obtain rfl : running = _ := hr
      obtain rfl : wave = _ := hw
      cases next <;> rfl
  | addLoad m =>
    obtain rfl := Option.some.inj hs
    rcases h with ⟨hr, n, hw, -⟩ | ⟨hr, hw, -⟩
    all_goals
      obtain rfl : running = _ := hr
      obtain rfl : wave = _ := hw
      rfl
  | executeAssign n =>
    obtain ⟨hr, hw, -⟩ := h
    obtain rfl : running = _ := hr
    obtain rfl : wave = _ := hw
    obtain rfl := Option.some.inj hs
    rfl
  | pauseJoin next =>
    obtain ⟨hr, n, hw, -⟩ := h
    obtain rfl : running = _ := hr
    obtain rfl : wave = _ := hw
    simp only [controlStep] at hs
    split at hs
    · obtain rfl := Option.some.inj hs
      cases next <;> rfl
    · cases hs

/-- **The refinement**: whatever the interleaving, the wave is, once the call in progress has returned, what the calls
begun so far make of it one after another. -/
theorem finish_run (self : A) : ∀ (labels : List (Label M)) (s s' : Threads M), s.Inv →
    Runs.runPossible step s labels = some s' →
      s'.finish self = Runs.run (fun w c => (Command.call self w c).state) (s.finish self) (commandsOf labels)
  | [], s, s', _, hr => by
    obtain rfl := Option.some.inj hr
    rfl
  | l :: labels, s, s', h, hr => by
    obtain ⟨t, ht, hr⟩ := Option.bind_eq_some_iff.1 hr
    rw [finish_run self labels t s' (step_inv h ht) hr]
    cases l with
    | call c => rw [finish_begin self ht]; rfl
    | control => rw [finish_control self h ht]; rfl
    | worker n => rw [finish_worker self ht]; rfl

theorem idle_refines (self : A) (name : String) (labels : List (Label M)) (s : Threads M)
    (hr : Runs.runPossible step (new name) labels = some s) (hidle : s.control = .idle) :
    view self s.object = Runs.run (fun w c => (Command.call self w c).state) (.new name) (commandsOf labels) ∧
      (view self s.object).Sound self := by
  have h0 : (new name : Threads M).Inv := reachable_inv ⟨[], rfl⟩
  have hi : s.Inv := reachable_inv ⟨labels, hr⟩
  have hf : s.finish self = view self s.object := by unfold finish; rw [hidle]
  unfold Inv at hi
  rw [hidle] at hi
  exact ⟨hf ▸ finish_run self labels _ s h0 hr, hi.sound self⟩

/-- A wave that gets a module and is executed, in the middle of its first pass. -/
theorem idle_refines_executed :
    (view "wave" ⟨"wave", ["Writer"], (∅ : UnorderedMap String UInt64).insert "Writer" (UInt64.ofNat 0 - 1), true, some 0⟩ :
        BrainWave String String) =
      Runs.run (fun w c => (Command.call "wave" w c).state) (.new "wave") [.addModule "Writer", .execute] ∧
      (view "wave" ⟨"wave", ["Writer"], (∅ : UnorderedMap String UInt64).insert "Writer" (UInt64.ofNat 0 - 1), true,
        some 0⟩ : BrainWave String String).Sound "wave" :=
  idle_refines "wave" "wave"
    [.call (.addModule "Writer"), .control, .control, .call .execute, .control, .control, .control, .worker 0, .worker 0,
      .control]
    ⟨_, [.pass 1 1], .idle, [.added "Writer", .passStarted, .ran "Writer"]⟩ rfl rfl

end Threads

end Core
end NaoFramework
