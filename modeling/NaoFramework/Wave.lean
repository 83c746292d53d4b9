import NaoFramework.Runs
import NaoFramework.UnorderedMap
import Mathlib.Logic.Function.Basic
/-!
# Wave — BrainWave objects and the calls made on them

A `BrainWave` owns its modules, the flag `running_` and the handle `wave_` of its thread; the thread loops in
`launchWave` on the object that launched it, and ends once that object's flag is cleared.  A `World` holds the live
objects by address, and `World.step` makes one call.  Flag and handle agree (`BrainWave.Sound`) after every call but
one: a move takes the flag over from a running wave and then has `execute` return early on it (`moves_exact_iff`).

The operations take effect one after another here; `WaveThread` interleaves them with the wave's own thread.
-/
namespace NaoFramework
namespace Core

/-- What ends a call otherwise than by returning: the `std::system_error` of joining no thread, or `std::terminate`. -/
inductive Fault where
  | systemError
  | terminate
  deriving DecidableEq, Repr

/-- What a call leaves behind, and the fault that ended it. -/
structure Outcome (σ : Type) where
  state : σ
  fault : Option Fault
  deriving DecidableEq

namespace Outcome

variable {σ τ : Type}

def ok (s : σ) : Outcome σ := ⟨s, none⟩

def map (f : σ → τ) (o : Outcome σ) : Outcome τ := ⟨f o.state, o.fault⟩

def andThen (o : Outcome σ) (f : σ → Outcome σ) : Outcome σ :=
  match o.fault with
  | none => f o.state
  | some _ => o

@[simp] theorem map_ok (f : σ → τ) (s : σ) : (ok s).map f = ok (f s) := rfl

end Outcome

class ModuleInterface (M : Type) where
  getName : M → String

/-- A module that is nothing but its name. -/
instance : ModuleInterface String := ⟨id⟩

/-- A wave of modules `M`, at addresses `A`: `wave` is the joinable thread, by the object it runs `launchWave` on. -/
structure BrainWave (A M : Type) where
  name : String
  modules : List M
  indices : UnorderedMap String UInt64
  running : Bool
  wave : Option A

variable {A M : Type}

namespace BrainWave

/-- The constructor. -/
def new (name : String) : BrainWave A M := ⟨name, [], ∅, false, none⟩

def isRunning (w : BrainWave A M) : Bool := w.running

/-- `self` is `this`; assigning a thread over a joinable one terminates. -/
def execute (self : A) (w : BrainWave A M) : Outcome (BrainWave A M) :=
  if w.running then .ok w
  else
    match w.wave with
    | none => .ok { w with running := true, wave := some self }
    | some _ => ⟨{ w with running := true }, some .terminate⟩

/-- The join of no thread throws, after the flag has been cleared. -/
def pause (w : BrainWave A M) : Outcome (BrainWave A M) :=
  if w.running then
    match w.wave with
    | some _ => .ok { w with running := false, wave := none }
    | none => ⟨{ w with running := false }, some .systemError⟩
  else .ok w

variable [ModuleInterface M]

/-- The index entry, computed before the module is appended, and the append. -/
def pushBack (w : BrainWave A M) (module : M) : BrainWave A M :=
  { w with
    indices := w.indices.insert (ModuleInterface.getName module) (UInt64.ofNat w.modules.length - 1)
    modules := w.modules ++ [module] }

def addModule (self : A) (w : BrainWave A M) (module : M) : Outcome (BrainWave A M) :=
  let running := w.isRunning
  (if running then w.pause else .ok w).andThen fun w =>
    if running then (w.pushBack module).execute self else .ok (w.pushBack module)

omit [ModuleInterface M] in
/-- The move constructor, on `other`: the object constructed, if it is, and `other`. -/
def moveConstruct (self : A) (other : BrainWave A M) : Outcome (Option (BrainWave A M) × BrainWave A M) :=
  let running := other.running
  let moved := { other with name := "" }
  let paused := if running then moved.pause else .ok moved
  match paused.fault with
  | some _ => paused.map (none, ·)
  | none =>
    let target : BrainWave A M := ⟨other.name, paused.state.modules, paused.state.indices, running, none⟩
    (if running then target.execute self else .ok target).map
      (some ·, { paused.state with modules := [], indices := ∅ })

omit [ModuleInterface M] in
/-- The move assignment of `other` to `w`: `w` and `other` after it. -/
def moveAssign (self : A) (w other : BrainWave A M) : Outcome (BrainWave A M × BrainWave A M) :=
  let stopped := w.pause
  match stopped.fault with
  | some _ => stopped.map (·, other)
  | none =>
    let running := other.running
    let target := { stopped.state with name := other.name, running := running }
    let moved := { other with name := "" }
    let paused := if running then moved.pause else .ok moved
    match paused.fault with
    | some _ => paused.map (target, ·)
    | none =>
      let target := { target with modules := paused.state.modules, indices := paused.state.indices }
      (if running then target.execute self else .ok target).map
        (·, { paused.state with modules := [], indices := ∅ })

omit [ModuleInterface M] in
/-- The destructor: no exception leaves it, and a joinable thread terminates. -/
def destroy (w : BrainWave A M) : Outcome Unit :=
  match w.pause with
  | ⟨w, none⟩ => if w.wave.isSome then ⟨(), some .terminate⟩ else .ok ()
  | ⟨_, some _⟩ => ⟨(), some .terminate⟩

end BrainWave

/-! ## Many objects -/

/-- The live objects, by address. -/
abbrev World (A M : Type) := A → Option (BrainWave A M)

inductive Op (A M : Type) where
  | construct (a : A) (name : String)
  | execute (a : A)
  | pause (a : A)
  | addModule (a : A) (module : M)
  | moveConstruct (a other : A)
  | moveAssign (a other : A)
  | destroy (a : A)

variable [DecidableEq A] [ModuleInterface M]

/-- One call.  A call on an object that does not exist, a construction over one that does and a move of an object to
itself are skipped. -/
def World.step (W : World A M) : Op A M → Outcome (World A M)
  | .construct a name =>
    match W a with
    | none => .ok (Function.update W a (some (.new name)))
    | some _ => .ok W
  | .execute a =>
    match W a with
    | some w => (w.execute a).map (Function.update W a <| some ·)
    | none => .ok W
  | .pause a =>
    match W a with
    | some w => w.pause.map (Function.update W a <| some ·)
    | none => .ok W
  | .addModule a module =>
    match W a with
    | some w => (w.addModule a module).map (Function.update W a <| some ·)
    | none => .ok W
  | .moveConstruct a other =>
    match W a, W other with
    | none, some o => (BrainWave.moveConstruct a o).map fun p => Function.update (Function.update W other p.2) a p.1
    | _, _ => .ok W
  | .moveAssign a other =>
    match W a, W other with
    | some w, some o =>
      if a = other then .ok W
      else (w.moveAssign a o).map fun p => Function.update (Function.update W other p.2) a p.1
    | _, _ => .ok W
  | .destroy a =>
    match W a with
    | some w => w.destroy.map fun _ => Function.update W a none
    | none => .ok W

/-- What a call comes to: nothing, or what its operation makes of the objects it is made on. -/
inductive World.StepResult (W : World A M) : Op A M → Outcome (World A M) → Prop where
  | skipped (op : Op A M) : StepResult W op (.ok W)
  | constructed (a : A) (name : String) : StepResult W (.construct a name) (.ok (Function.update W a (some (.new name))))
  | executed (a : A) (w : BrainWave A M) (ha : W a = some w) :
      StepResult W (.execute a) ((w.execute a).map (Function.update W a <| some ·))
  | paused (a : A) (w : BrainWave A M) (ha : W a = some w) :
      StepResult W (.pause a) (w.pause.map (Function.update W a <| some ·))
  | added (a : A) (module : M) (w : BrainWave A M) (ha : W a = some w) :
      StepResult W (.addModule a module) ((w.addModule a module).map (Function.update W a <| some ·))
  | moved (a b : A) (o : BrainWave A M) (ha : W a = none) (hb : W b = some o) : StepResult W (.moveConstruct a b)
      ((BrainWave.moveConstruct a o).map fun p => Function.update (Function.update W b p.2) a p.1)
  | assigned (a b : A) (w o : BrainWave A M) (ha : W a = some w) (hb : W b = some o) (hab : a ≠ b) :
      StepResult W (.moveAssign a b) ((w.moveAssign a o).map fun p => Function.update (Function.update W b p.2) a p.1)
  | destroyed (a : A) (w : BrainWave A M) (ha : W a = some w) :
      StepResult W (.destroy a) (w.destroy.map fun _ => Function.update W a none)

theorem World.step_result (W : World A M) (op : Op A M) : StepResult W op (W.step op) := by
  cases op with
  | construct a name =>
    cases ha : W a with
    | none => simp only [step, ha]; exact .constructed a name
    | some w => simp only [step, ha]; exact .skipped _
  | execute a =>
    cases ha : W a with
    | none => simp only [step, ha]; exact .skipped _
    | some w => simp only [step, ha]; exact .executed a w ha
  | pause a =>
    cases ha : W a with
    | none => simp only [step, ha]; exact .skipped _
    | some w => simp only [step, ha]; exact .paused a w ha
  | addModule a module =>
    cases ha : W a with
    | none => simp only [step, ha]; exact .skipped _
    | some w => simp only [step, ha]; exact .added a module w ha
  | moveConstruct a b =>
    cases ha : W a with
    | some w => simp only [step, ha]; exact .skipped _
    | none =>
      cases hb : W b with
      | none => simp only [step, ha, hb]; exact .skipped _
      | some o => simp only [step, ha, hb]; exact .moved a b o ha hb
  | moveAssign a b =>
    cases ha : W a with
    | none => simp only [step, ha]; exact .skipped _
    | some w =>
      cases hb : W b with
      | none => simp only [step, ha, hb]; exact .skipped _
      | some o =>
        by_cases hab : a = b
        · simp only [step, ha, hb, if_pos hab]; exact .skipped _
        · simp only [step, ha, hb, if_neg hab]; exact .assigned a b w o ha hb hab
  | destroy a =>
    cases ha : W a with
    | none => simp only [step, ha]; exact .skipped _
    | some w => simp only [step, ha]; exact .destroyed a w ha

/-- The objects after a sequence of calls. -/
def World.after (ops : List (Op A M)) : World A M := Runs.run (fun W op => (W.step op).state) (fun _ => none) ops

/-! ## The flag and the thread -/

/-- **The flag agrees with the handle**: a wave holds a thread, its own, exactly when it is running. -/
def BrainWave.Sound (a : A) (w : BrainWave A M) : Prop := w.wave = if w.running then some a else none

namespace BrainWave

variable {a b : A} {w o : BrainWave A M}

omit [DecidableEq A] [ModuleInterface M] in
theorem sound_mk {name : String} {ms : List M} {is : UnorderedMap String UInt64} {running : Bool} {t : Option A} :
    Sound a ⟨name, ms, is, running, t⟩ ↔ (running = false ∧ t = none) ∨ (running = true ∧ t = some a) := by
  cases running <;> simp [Sound]

omit [DecidableEq A] [ModuleInterface M] in
theorem execute_spec (h : w.Sound a) : w.execute a = .ok { w with running := true, wave := some a } := by
  obtain ⟨n, ms, is, running, t⟩ := w
  obtain ⟨rfl, rfl⟩ | ⟨rfl, rfl⟩ := sound_mk.1 h <;> rfl

omit [DecidableEq A] [ModuleInterface M] in
/-- Sound or not, a wave that was to pause has its modules still, and does not run. -/
theorem pause_state (w : BrainWave A M) :
    w.pause.state.modules = w.modules ∧ w.pause.state.indices = w.indices ∧ w.pause.state.running = false := by
  obtain ⟨n, ms, is, running, t⟩ := w
  cases running <;> cases t <;> exact ⟨rfl, rfl, rfl⟩

omit [DecidableEq A] [ModuleInterface M] in
theorem pause_spec (h : w.Sound a) : w.pause = .ok { w with running := false, wave := none } := by
  obtain ⟨n, ms, is, running, t⟩ := w
  obtain ⟨rfl, rfl⟩ | ⟨rfl, rfl⟩ := sound_mk.1 h <;> rfl

omit [DecidableEq A] in
theorem addModule_spec (h : w.Sound a) (module : M) : w.addModule a module = .ok (w.pushBack module) := by
  obtain ⟨n, ms, is, running, t⟩ := w
  obtain ⟨rfl, rfl⟩ | ⟨rfl, rfl⟩ := sound_mk.1 h <;> rfl

/-- The index of the first module is that of no module. -/
example : ((BrainWave.new "wave" : BrainWave Nat String).pushBack "Writer").indices.lookup "Writer" =
    some 18446744073709551615 := by decide

omit [DecidableEq A] [ModuleInterface M] in
theorem destroy_spec (h : w.Sound a) : w.destroy = .ok () := by
  unfold destroy
  rw [pause_spec h]; rfl

omit [DecidableEq A] [ModuleInterface M] in
/-- **A moved wave is never launched**: the target has the flag of the source, and no thread. -/
theorem moveConstruct_spec (h : o.Sound b) :
    moveConstruct a o = .ok (some ⟨o.name, o.modules, o.indices, o.running, none⟩, ⟨"", [], ∅, false, none⟩) := by
  obtain ⟨n, ms, is, running, t⟩ := o
  obtain ⟨rfl, rfl⟩ | ⟨rfl, rfl⟩ := sound_mk.1 h <;> rfl

omit [DecidableEq A] [ModuleInterface M] in
theorem moveAssign_spec (hw : w.Sound a) (ho : o.Sound b) :
    w.moveAssign a o = .ok (⟨o.name, o.modules, o.indices, o.running, none⟩, ⟨"", [], ∅, false, none⟩) := by
  obtain ⟨n, ms, is, running, t⟩ := o
  unfold moveAssign
  rw [pause_spec hw]
  obtain ⟨rfl, rfl⟩ | ⟨rfl, rfl⟩ := sound_mk.1 ho <;> rfl

end BrainWave

namespace World

def Sound (W : World A M) : Prop := ∀ a w, W a = some w → w.Sound a

/-- `op` moves the wave at `b` to `a`. -/
inductive Moves (W : World A M) : Op A M → A → A → Prop where
  | construct (a b : A) (o : BrainWave A M) (ha : W a = none) (hb : W b = some o) : Moves W (.moveConstruct a b) a b
  | assign (a b : A) (w o : BrainWave A M) (ha : W a = some w) (hb : W b = some o) (hab : a ≠ b) :
      Moves W (.moveAssign a b) a b

/-- A thread runs `launchWave` on the object at `a`, and does not end by itself. -/
def Executing (W : World A M) (a : A) : Prop := ∃ w, W a = some w ∧ w.isRunning = true ∧ w.wave = some a

/-- **A call does right**: no fault; in every object the flag is set exactly when it holds a thread of its own; and the
target of a move executes exactly when the source did. -/
def DoesRight (W : World A M) (op : Op A M) : Prop :=
  (W.step op).fault = none ∧
    (∀ a w, (W.step op).state a = some w → (w.isRunning = true ↔ w.wave = some a)) ∧
      ∀ a b, Moves W op a b → (Executing (W.step op).state a ↔ Executing W b)

/-- The call moves no running wave. -/
def MovesPaused (W : World A M) (op : Op A M) : Prop :=
  ∀ a b, Moves W op a b → ∀ o, W b = some o → o.isRunning = false

variable {W : World A M}

omit [ModuleInterface M] in
theorem Sound.update (h : W.Sound) {a : A} {x : Option (BrainWave A M)} (hx : ∀ w, x = some w → w.Sound a) :
    Sound (Function.update W a x) := by
  refine (Function.forall_update_iff W fun a x => ∀ w, x = some w → w.Sound a).2 ?_
  exact ⟨hx, fun b _ => h b⟩

omit [DecidableEq A] [ModuleInterface M] in
theorem sound_emptied (b : A) : BrainWave.Sound b (⟨"", [], ∅, false, none⟩ : BrainWave A M) := rfl

/-- **What a move does**: the target takes everything over but a thread, and the source is left empty. -/
theorem step_of_moves (h : W.Sound) {op : Op A M} {a b : A} (hm : Moves W op a b) :
    ∃ o, W b = some o ∧ W.step op = .ok (Function.update
      (Function.update W b (some ⟨"", [], ∅, false, none⟩)) a (some ⟨o.name, o.modules, o.indices, o.running, none⟩)) := by
  cases hm with
  | construct _ _ o ha hb =>
    refine ⟨o, hb, ?_⟩
    simp only [step, ha, hb, BrainWave.moveConstruct_spec (h b o hb), Outcome.map_ok]
  | assign _ _ w o ha hb hab =>
    refine ⟨o, hb, ?_⟩
    simp only [step, ha, hb, if_neg hab, BrainWave.moveAssign_spec (h a w ha) (h b o hb), Outcome.map_ok]

/-- **The step lemma**: a call that moves no running wave ends without a fault and keeps flags and handles in
agreement. -/
theorem step_sound (h : W.Sound) {op : Op A M} (hp : MovesPaused W op) :
    (W.step op).fault = none ∧ Sound (W.step op).state := by
  have hmoved : ∀ a b, Moves W op a b → (W.step op).fault = none ∧ Sound (W.step op).state := by
    intro a b hm
    obtain ⟨o, hb, hs⟩ := step_of_moves h hm
    have ho := hp a b hm o hb
    rw [hs]
    refine ⟨rfl, (h.update ?_).update ?_⟩
    · rintro w ⟨⟩
      exact sound_emptied b
    · rintro w ⟨⟩
      show none = if o.running then some a else none
      rw [show o.running = false from ho]; rfl
  have hr := step_result W op
  generalize hs : W.step op = r at hr hmoved ⊢
  cases hr with
  | skipped => exact ⟨rfl, h⟩
  | constructed a name => exact ⟨rfl, h.update (by rintro w ⟨⟩; rfl)⟩
  | executed a w ha =>
    rw [BrainWave.execute_spec (h a w ha), Outcome.map_ok]
    exact ⟨rfl, h.update (by rintro w ⟨⟩; rfl)⟩
  | paused a w ha =>
    rw [BrainWave.pause_spec (h a w ha), Outcome.map_ok]
    exact ⟨rfl, h.update (by rintro w ⟨⟩; rfl)⟩
  | added a module w ha =>
    rw [BrainWave.addModule_spec (h a w ha), Outcome.map_ok]
    exact ⟨rfl, h.update (by rintro w' ⟨⟩; exact h a w ha)⟩
  | moved a b o ha hb => exact hmoved a b (.construct a b o ha hb)
  | assigned a b w o ha hb hab => exact hmoved a b (.assign a b w o ha hb hab)
  | destroyed a w ha =>
    rw [BrainWave.destroy_spec (h a w ha), Outcome.map_ok]
    exact ⟨rfl, h.update (by rintro w ⟨⟩)⟩

omit [DecidableEq A] [ModuleInterface M] in
theorem Sound.running_iff (h : W.Sound) (a : A) (w : BrainWave A M) (ha : W a = some w) :
    w.isRunning = true ↔ w.wave = some a := by
  rw [h a w ha, BrainWave.isRunning]
  cases w.running <;> simp

/-- **A call does right exactly when it moves no running wave**, where flags and handles agree. -/
theorem doesRight_iff (h : W.Sound) (op : Op A M) : DoesRight W op ↔ MovesPaused W op := by
  constructor
  · rintro ⟨-, hiff, -⟩ a b hm o hb
    obtain ⟨o', hb', hs⟩ := step_of_moves h hm
    obtain rfl : o = o' := Option.some.inj (hb.symm.trans hb')
    rw [hs] at hiff
    have := hiff a _ (Function.update_self ..)
    cases ho : o.isRunning with
    | false => rfl
    | true => exact absurd (this.1 ho) (by simp)
  · intro hp
    obtain ⟨hf, hs⟩ := step_sound h hp
    refine ⟨hf, hs.running_iff, fun a b hm => ?_⟩
    obtain ⟨o, hb, hst⟩ := step_of_moves h hm
    have ho := hp a b hm o hb
    refine iff_of_false ?_ ?_
    · rintro ⟨w, hw, -, ht⟩
      simp only [hst, Outcome.ok, Function.update_self, Option.some.injEq] at hw
      rw [← hw] at ht; cases ht
    · rintro ⟨w, hw, hr, -⟩
      obtain rfl : o = w := Option.some.inj (hb.symm.trans hw)
      rw [ho] at hr; cases hr

theorem after_sound {ops : List (Op A M)} (h : Runs.AtEvery (fun pre op => MovesPaused (after pre) op) ops) :
    Sound (after ops) := by
  have h0 : Sound (fun _ => none : World A M) := fun a w ha => by cases ha
  have hstep : ∀ (W : World A M) op, W.Sound → MovesPaused W op → Sound (W.step op).state :=
    fun W op hs hp => (step_sound hs hp).2
  exact Runs.run_invariant_of_atEvery h0 hstep h

/-- **Where waves do what they say**: over every sequence of calls, each call does right exactly when each moves no
running wave. -/
theorem moves_exact_iff (ops : List (Op A M)) :
    Runs.AtEvery (fun pre op => DoesRight (after pre) op) ops ↔
      Runs.AtEvery (fun pre op => MovesPaused (after pre) op) ops :=
  Runs.atEvery_congr (fun _ op hpre => doesRight_iff (after_sound hpre) op)

/-- A running wave is moved: the new object says that it runs, and has no thread. -/
theorem moves_not_right :
    ¬ Runs.AtEvery (fun pre op => DoesRight (after pre) op)
      ([.construct 0 "wave", .execute 0, .moveConstruct 1 0] : List (Op Nat String)) := by
  intro h
  obtain ⟨-, hiff, -⟩ := h [.construct 0 "wave", .execute 0] (.moveConstruct 1 0) [] rfl
  have := (hiff 1 ⟨"wave", [], ∅, true, none⟩ rfl).1 rfl
  cases this

end World

end Core
end NaoFramework
