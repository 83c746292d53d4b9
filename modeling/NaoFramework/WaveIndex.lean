import NaoFramework.Wave
/-!
# WaveIndex — the index of a wave's modules

`addModule` enters a module under its name in `indices_` with the position `modules_.size() - 1`, computed before the
module is appended: the position of the module before it, or, for the first one, the largest `size_t`.  So no index is
ever right that a module was added to (`not_indexCorrect_pushBack`).
-/
namespace NaoFramework
namespace Core

variable {A M : Type} [ModuleInterface M]

namespace BrainWave

/-- **The module index is correct**: its keys are the names of the modules, and each leads to the newest module of that
name. -/
structure IndexCorrect (w : BrainWave A M) : Prop where
  keys : ∀ n, n ∈ w.indices ↔ ∃ m ∈ w.modules, ModuleInterface.getName m = n
  inBounds : ∀ n i, w.indices.lookup n = some i → i.toNat < w.modules.length
  named : ∀ n i, w.indices.lookup n = some i → ∀ m, w.modules[i.toNat]? = some m → ModuleInterface.getName m = n
  newest : ∀ n i, w.indices.lookup n = some i → ∀ j, i.toNat < j → ∀ m, w.modules[j]? = some m →
    ModuleInterface.getName m ≠ n

/-- The position that is entered for a module appended to `n` others. -/
theorem toNat_position (n : Nat) : (UInt64.ofNat n - 1).toNat =
    if n % UInt64.size = 0 then UInt64.size - 1 else n % UInt64.size - 1 := by
  have h1 : (1 : UInt64).toNat = 1 := rfl
  rw [UInt64.toNat_sub, UInt64.toNat_ofNat', h1]
  simp only [UInt64.size]
  split <;> omega

/-- **An index is wrong once a module was added.** -/
theorem not_indexCorrect_pushBack (w : BrainWave A M) (module : M) : ¬ (w.pushBack module).IndexCorrect := by
  intro h
  have hi : (w.pushBack module).indices.lookup (ModuleInterface.getName module) =
      some (UInt64.ofNat w.modules.length - 1) := AList.lookup_insert _
  have hlt := h.inBounds _ _ hi
  have hm : (w.pushBack module).modules[w.modules.length]? = some module := by simp [pushBack]
  have hle : w.modules.length ≤ (UInt64.ofNat w.modules.length - 1).toNat := by
    by_contra hlt
    exact h.newest _ _ hi _ (Nat.lt_of_not_le hlt) module hm rfl
  simp only [pushBack, List.length_append, List.length_singleton] at hlt
  rw [toNat_position] at hlt hle
  simp only [UInt64.size] at hlt hle
  split at hle
  · rename_i h0
    rw [if_pos h0] at hlt
    omega
  · omega

omit [ModuleInterface M] in
/-- The wave has no modules, and an empty index. -/
def Empty (w : BrainWave A M) : Prop := w.modules = [] ∧ w.indices = ∅

theorem Empty.indexCorrect {w : BrainWave A M} (h : w.Empty) : w.IndexCorrect := by
  obtain ⟨hm, hi⟩ := h
  refine ⟨fun n => ?_, fun n i hn => ?_, fun n i hn => ?_, fun n i hn => ?_⟩
  · simp [hm, hi]
  all_goals rw [hi] at hn; cases hn

/-- Wrong or right, an index is so whatever the wave's thread does. -/
theorem IndexCorrect.congr {w w' : BrainWave A M} (hm : w'.modules = w.modules) (hi : w'.indices = w.indices)
    (h : w'.IndexCorrect) : w.IndexCorrect :=
  ⟨hm ▸ hi ▸ h.keys, hm ▸ hi ▸ h.inBounds, hm ▸ hi ▸ h.named, hm ▸ hi ▸ h.newest⟩

variable [DecidableEq A] {a b : A} {w o : BrainWave A M}

omit [ModuleInterface M] [DecidableEq A] in
theorem execute_keeps (a : A) (w : BrainWave A M) :
    (w.execute a).state.modules = w.modules ∧ (w.execute a).state.indices = w.indices := by
  unfold execute
  repeat' split
  all_goals exact ⟨rfl, rfl⟩

omit [ModuleInterface M] [DecidableEq A] in
theorem Empty.of_keeps {w' : BrainWave A M} (h : w.Empty) (hk : w'.modules = w.modules ∧ w'.indices = w.indices) :
    w'.Empty := ⟨hk.1.trans h.1, hk.2.trans h.2⟩

/-- The wave claims to run, and holds no thread: a `pause` throws. -/
def Threadless (w : BrainWave A M) : Prop := w.running = true ∧ w.wave = none

omit [DecidableEq A] in
theorem addModule_threadless (h : w.Threadless) (a : A) (module : M) :
    (w.addModule a module).state.modules = w.modules ∧ (w.addModule a module).state.indices = w.indices := by
  obtain ⟨n, ms, is, running, t⟩ := w
  obtain ⟨rfl, rfl⟩ : running = true ∧ t = none := h
  exact ⟨rfl, rfl⟩

omit [DecidableEq A] in
/-- Any other wave gets the module. -/
theorem addModule_keeps (h : ¬ w.Threadless) (a : A) (module : M) :
    (w.addModule a module).state.modules = (w.pushBack module).modules ∧
      (w.addModule a module).state.indices = (w.pushBack module).indices := by
  obtain ⟨n, ms, is, running, t⟩ := w
  cases running <;> cases t
  case true.none => exact absurd ⟨rfl, rfl⟩ h
  all_goals exact ⟨rfl, rfl⟩

omit [ModuleInterface M] [DecidableEq A] in
theorem Empty.moveConstruct (h : o.Empty) (a : A) :
    (∀ w, (moveConstruct a o).state.1 = some w → w.Empty) ∧ (BrainWave.moveConstruct a o).state.2.Empty := by
  obtain ⟨n, ms, is, running, t⟩ := o
  obtain ⟨rfl, rfl⟩ : ms = [] ∧ is = ∅ := h
  cases running <;> cases t <;> refine ⟨?_, rfl, rfl⟩ <;> rintro w ⟨⟩ <;> exact ⟨rfl, rfl⟩

omit [ModuleInterface M] [DecidableEq A] in
theorem Empty.moveAssign (hw : w.Empty) (h : o.Empty) (a : A) :
    (w.moveAssign a o).state.1.Empty ∧ (w.moveAssign a o).state.2.Empty := by
  obtain ⟨n, ms, is, running, t⟩ := o
  obtain ⟨n', ms', is', running', t'⟩ := w
  obtain ⟨rfl, rfl⟩ : ms = [] ∧ is = ∅ := h
  obtain ⟨rfl, rfl⟩ : ms' = [] ∧ is' = ∅ := hw
  cases running <;> cases t <;> cases running' <;> cases t' <;> exact ⟨⟨rfl, rfl⟩, rfl, rfl⟩

end BrainWave

namespace World

variable [DecidableEq A] {W : World A M}

/-- Every wave's index is correct. -/
def IndicesCorrect (W : World A M) : Prop := ∀ a w, W a = some w → w.IndexCorrect

/-- The call adds no module: it is another call, or the `pause` in it throws. -/
def AddsNothing (W : World A M) : Op A M → Prop
  | .addModule a _ => ∀ w, W a = some w → w.Threadless
  | _ => True

omit [ModuleInterface M] in
def AllEmpty (W : World A M) : Prop := ∀ a w, W a = some w → w.Empty

omit [ModuleInterface M] in
theorem AllEmpty.update (h : W.AllEmpty) {a : A} {x : Option (BrainWave A M)} (hx : ∀ w, x = some w → w.Empty) :
    AllEmpty (Function.update W a x) := by
  refine (Function.forall_update_iff W fun _ x => ∀ w, x = some w → w.Empty).2 ?_
  exact ⟨hx, fun b _ => h b⟩

/-- **The step lemma**: waves without modules stay so until one is added. -/
theorem AllEmpty.step (h : W.AllEmpty) {op : Op A M} (hop : AddsNothing W op) : AllEmpty (W.step op).state := by
  have hr := step_result W op
  generalize W.step op = r at hr ⊢
  cases hr with
  | skipped => exact h
  | constructed a name => exact h.update (by rintro w ⟨⟩; exact ⟨rfl, rfl⟩)
  | executed a w ha => exact h.update (by rintro w' ⟨⟩; exact (h a w ha).of_keeps (w.execute_keeps a))
  | paused a w ha => exact h.update (by rintro w' ⟨⟩; exact (h a w ha).of_keeps ⟨w.pause_state.1, w.pause_state.2.1⟩)
  | added a module w ha =>
    exact h.update (by rintro w' ⟨⟩; exact (h a w ha).of_keeps (BrainWave.addModule_threadless (hop w ha) a module))
  | moved a b o ha hb =>
    obtain ⟨ht, hs⟩ := (h b o hb).moveConstruct a
    exact (h.update (by rintro w ⟨⟩; exact hs)).update ht
  | assigned a b w o ha hb hab =>
    obtain ⟨ht, hs⟩ := (h a w ha).moveAssign (h b o hb) a
    exact (h.update (by rintro w ⟨⟩; exact hs)).update (by rintro w ⟨⟩; exact ht)
  | destroyed a w ha => exact h.update (by rintro w ⟨⟩)

omit [DecidableEq A] in
theorem AllEmpty.indicesCorrect (h : W.AllEmpty) : W.IndicesCorrect := fun a w hw => (h a w hw).indexCorrect

/-- Where no wave has a module, a call keeps the indices correct exactly when it adds none. -/
theorem indicesCorrect_step_iff (h : W.AllEmpty) (op : Op A M) :
    IndicesCorrect (W.step op).state ↔ AddsNothing W op := by
  refine ⟨fun hc => ?_, fun hop => (h.step hop).indicesCorrect⟩
  cases op with
  | addModule a module =>
    intro w ha
    by_contra hn
    have hk := BrainWave.addModule_keeps hn a module
    simp only [World.step, ha] at hc
    exact w.not_indexCorrect_pushBack module ((hc a _ (Function.update_self ..)).congr hk.1 hk.2)
  | _ => trivial

/-- **Where module indices are correct**: in every state of every sequence of calls, exactly when it adds no module to
any wave. -/
theorem indices_exact_iff (ops : List (Op A M)) :
    (∀ pre post, ops = pre ++ post → (after pre).IndicesCorrect) ↔
      Runs.AtEvery (fun pre op => AddsNothing (after pre) op) ops := by
  have h0 : AllEmpty (fun _ => none : World A M) := fun a w hw => by cases hw
  refine (Runs.forall_prefix_iff h0.indicesCorrect).trans (Runs.atEvery_congr fun pre op hpre => ?_)
  have hstep : ∀ (W : World A M) op, W.AllEmpty → AddsNothing W op → AllEmpty (W.step op).state :=
    fun W op h hop => h.step hop
  exact indicesCorrect_step_iff (Runs.run_invariant_of_atEvery h0 hstep hpre) op

/-- A wave gets its first module. -/
theorem index_not_correct :
    ¬ (after [.construct 0 "wave", .addModule 0 "Writer"] : World Nat String).IndicesCorrect := by
  intro h
  have := (h 0 _ rfl).inBounds "Writer" 18446744073709551615 (by decide)
  exact absurd this (by decide)

end World
end Core
end NaoFramework
