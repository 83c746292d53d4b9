import NaoFramework.BrainStored
/-!
# BrainLife — values and the libraries they come from

The destructor pauses the waves, clears the Blackboards and only then the waves, whose modules close their libraries:
what a module stored is deleted while its library is there.  A Brain's life goes on through the steps of its destructor.
The order is right, and one path breaks the law before it: the handler of a load closes the library of a constructor
that threw, and what the constructor had provided stays where it is (`values_exact_iff`).
-/
namespace NaoFramework
namespace Core

open Comm (Blackboard Call Accessor AccessorCall Registration Any accepted)
open Modules (Thrown AdapterCall Construction Library LoaderEvent DynamicModule constructionOf)

variable {Ty : Type} {Val : Ty → Type}

/-! ## The life of a Brain, to its end -/

/-- Where a Brain is in its life: its destructor pauses one wave after another, clears the Blackboards one by one, and
then the waves with their modules. -/
inductive Phase where
  | alive
  | pausing (todo : List String)
  | clearing
  | unloading
  | gone
  deriving DecidableEq, Repr

structure Life (Val : Ty → Type) where
  brain : Brain (Stored Val)
  phase : Phase

inductive LifeInput (Val : Ty → Type) where
  | command (c : Brain.Command Val)
  /-- The module at a place of a wave calls an accessor. -/
  | call (wave : String) (index : Nat) (board : Nat) (a : AccessorCall Val)
  | destructor

namespace Life

open Brain (Command)

variable [DecidableEq Ty]

def new : Life Val := ⟨.new, .alive⟩

/-- Only the modules of a running wave are executed, and they call what they hold. -/
def call (s : Life Val) (wave : String) (index board : Nat) (a : AccessorCall Val) : Life Val :=
  match s.brain.waves.lookup wave with
  | none => s
  | some (w, _) =>
    match w.modules[index]? with
    | none => s
    | some m =>
      if w.isRunning && m.held.any (· = (board, a.accessor)) then
        { s with brain := s.brain.step (.call board (a.stamp m.dllModule)) }
      else s

omit [DecidableEq Ty] in
/-- The next step of the destructor. -/
def destructor (s : Life Val) : Life Val :=
  match s.phase with
  | .alive => { s with phase := .pausing s.brain.waves.keys }
  | .pausing [] => { s with phase := .clearing }
  | .pausing (key :: todo) =>
    { brain := { s.brain with
        waves := s.brain.waves.mapValues fun k p => if k = key then (p.1.pause.state, p.2) else p }
      phase := .pausing todo }
  | .clearing =>
    match s.brain.blackboards with
    | [] => { s with phase := .unloading }
    | _ :: blackboards => { s with brain := { s.brain with blackboards := blackboards } }
  | .unloading =>
    match s.brain.waves.entries with
    | [] => { s with phase := .gone }
    | ⟨key, w, board⟩ :: _ =>
      -- the wave's destructor: it pauses, and its modules go, each with its wrapper
      match w.modules with
      | m :: modules =>
        { s with
          brain := Brain.logEvent
            { s.brain with waves := s.brain.waves.insert key ({ w.pause.state with modules := modules }, board) }
            (.closed m.dllModule) }
      | [] => { s with brain := { s.brain with waves := s.brain.waves.erase key } }
  | .gone => s

/-- Commands end with the first step of the destructor. -/
def step (s : Life Val) : LifeInput Val → Life Val
  | .command c => if s.phase = .alive then { s with brain := (s.brain.command c.stamp).2 } else s
  | .call wave index board a => s.call wave index board a
  | .destructor => s.destructor

def after (inputs : List (LifeInput Val)) : Life Val := Runs.run step new inputs

end Life

/-- The library was opened more often than it was closed. -/
def Loaded (events : List LoaderEvent) (file : String) : Prop :=
  events.count (.closed file) < events.count (.opened file)

instance (events : List LoaderEvent) (file : String) : Decidable (Loaded events file) :=
  inferInstanceAs (Decidable (_ < _))

/-- What the Blackboards store was stored by modules whose libraries are loaded. -/
def Brain.ValuesLoaded (b : Brain (Stored Val)) : Prop :=
  ∀ board k T v file, b.stored board k = some ⟨T, v, file⟩ → Loaded b.loader file

namespace Life

open Brain (Command onWave)

/-- **Values never outlive their library**: each was stored by a module whose library is still loaded, and no wave is
running when the Blackboards are cleared. -/
structure Safe (s : Life Val) : Prop where
  values : s.brain.ValuesLoaded
  paused : s.phase = .clearing → ∀ k w board, s.brain.waves.lookup k = some (w, board) → w.isRunning = false

variable [DecidableEq Ty]

/-- A load whose constructor throws a `std::exception` — whereupon its library is closed — is of a library that is
loaded already, or no global provision of the constructor was accepted. -/
def ClosesNothingStored (s : Life Val) : LifeInput Val → Prop
  | .command (.addDynamicModule (_ :: wave :: file :: _) found) =>
    s.phase = .alive → ∀ x c t, s.brain.waves.lookup wave = some x → constructionOf found = some c →
      c.ending = .error t → t.asException.isSome = true → Loaded s.brain.loader file ∨
        ∀ T k v, .globalProvide T k v ∉
          accepted (s.brain.boardOf wave) ((c.stamp file).calls.flatMap (onWave wave wave))
  | _ => True

end Life

/-! ## Handles -/

theorem Loaded.opened {events : List LoaderEvent} {file : String} (h : Loaded events file) (f : String) :
    Loaded (events ++ [.opened f]) file := by
  unfold Loaded at h ⊢
  simp only [List.count_append, List.count_singleton]
  simp only [beq_iff_eq, reduceCtorEq, if_false]
  split <;> omega

/-- What was opened and closed again is as before. -/
theorem loaded_closed {events : List LoaderEvent} {f file : String} :
    Loaded (events ++ [.opened f] ++ [.closed f]) file ↔ Loaded events file := by
  unfold Loaded
  simp only [List.count_append, List.count_singleton]
  by_cases h : f = file
  · simp [h]
  · simp [h]

namespace Brain

/-- Nothing is closed that was not opened, and the modules' libraries are loaded. -/
structure KeepsOpen (b : Brain Val) : Prop where
  balance : ∀ file, b.loader.count (.closed file) ≤ b.loader.count (.opened file)
  modules : ∀ k w board, b.waves.lookup k = some (w, board) → ∀ m ∈ w.modules, Loaded b.loader m.dllModule

variable {b b' : Brain Val}

theorem KeepsOpen.builds (h : b.KeepsOpen) (hb : b.Builds b') : b'.KeepsOpen where
  balance := by rw [hb.loader]; exact h.balance
  modules k w board hw m hm := by
    rw [hb.loader]
    rcases hb.fresh k w board hw with hw | ⟨rfl, -, -⟩
    · exact h.modules k w board hw m hm
    · cases hm

theorem KeepsOpen.loaded_opened (h : b.KeepsOpen) (file : String) : Loaded (b.loader ++ [.opened file]) file := by
  have := h.balance file
  unfold Loaded
  simp only [List.count_append, List.count_singleton]
  simp only [beq_iff_eq, reduceCtorEq, if_false, BEq.rfl, if_true]
  omega

theorem KeepsOpen.opened (h : b.KeepsOpen) (file : String) : (b.logEvent (.opened file)).KeepsOpen where
  balance f := by
    have := h.balance f
    simp only [logEvent, List.count_append, List.count_singleton]
    simp only [beq_iff_eq, reduceCtorEq, if_false]
    omega
  modules k w board hw m hm := (h.modules k w board hw m hm).opened file

/-- A library that was opened and closed since leaves the handles as they were. -/
theorem KeepsOpen.closed (h : b.KeepsOpen) {file : String} (hb : (b.logEvent (.opened file)).Builds b') :
    (b'.logEvent (.closed file)).KeepsOpen where
  balance f := by
    have := h.balance f
    simp only [logEvent, hb.loader, List.count_append, List.count_singleton]
    by_cases hf : file = f <;> simp [hf, this]
  modules k w board hw m hm := by
    simp only [logEvent, hb.loader]
    rw [loaded_closed]
    rcases hb.fresh k w board hw with hw | ⟨rfl, -, -⟩
    · exact h.modules k w board hw m hm
    · cases hm

theorem execute_keepsOpen (hi : b.Inv) (h : b.KeepsOpen) : b.execute.2.KeepsOpen := by
  refine ⟨by rw [loader_execute]; exact h.balance, fun k w board hw m hm => ?_⟩
  rw [loader_execute]
  rcases lookup_execute hi hw with hw | ⟨-, w₀, hw₀, rfl⟩
  · exact h.modules k w board hw m hm
  · exact h.modules k w₀ board hw₀ m hm

variable [DecidableEq Ty]

theorem addDynamicModule_keepsOpen (hi : b.Inv) (h : b.KeepsOpen) (inputs : List String)
    (found : Except String (Library Val)) : (b.addDynamicModule inputs found).2.KeepsOpen := by
  have hr := addDynamicModule_result hi inputs found
  generalize b.addDynamicModule inputs found = r at hr ⊢
  cases hr with
  | unusable => exact h
  | refused command wave file more events hn he =>
    rcases he with rfl | rfl
    · simpa using h
    · have hb := h.closed (Builds.refl (hi.logEvent (.opened file)).coherent)
      simpa [logEvent] using hb
  | threw command wave file more w own c t hw hc ht =>
    have hb := (built_builds hi own file c).1
    split
    · exact h.closed hb
    · exact (h.opened file).builds hb
  | loaded command wave file more w own c name hw hc ht =>
    have hb := (built_builds hi own file c).1
    have hk := (h.opened file).builds hb
    refine ⟨hk.balance, fun k w₀ board hw₀ m hm => ?_⟩
    rw [UnorderedMap.lookup_insert_if] at hw₀
    split at hw₀
    · obtain ⟨rfl, -⟩ := Prod.mk.inj (Option.some.inj hw₀)
      rcases List.mem_append.1 hm with hm | hm
      · exact hk.modules wave w own (hb.waves wave _ hw) m hm
      · obtain rfl := List.mem_singleton.1 hm
        simp only [hb.loader]
        exact h.loaded_opened file
    · exact hk.modules k w₀ board hw₀ m hm

theorem command_keepsOpen (hi : b.Inv) (h : b.KeepsOpen) (c : Command Val) : (b.command c).2.KeepsOpen := by
  cases c with
  | createWave inputs => exact h.builds (createWave_builds hi.coherent inputs)
  | addDynamicModule inputs found => exact addDynamicModule_keepsOpen hi h inputs found
  | execute inputs => exact execute_keepsOpen hi h

end Brain

/-! ## Whole lives -/

namespace Life

open Brain (Command onWave)

/-- **The invariant**, phase by phase: a living Brain is in order; a wave that runs while the destructor pauses them is
one it has not come to; then none runs; and then there is no Blackboard left. -/
def Inv (s : Life Val) : Prop :=
  match s.phase with
  | .alive => s.brain.Inv ∧ s.brain.OneToOne ∧ s.brain.KeepsOpen
  | .pausing todo => s.brain.KeepsOpen ∧
      ∀ k w board, s.brain.waves.lookup k = some (w, board) → w.isRunning = true → k ∈ todo
  | .clearing => ∀ k w board, s.brain.waves.lookup k = some (w, board) → w.isRunning = false
  | .unloading | .gone => s.brain.blackboards = []

variable {s : Life Val}

variable [DecidableEq Ty]

/-! ### Calls -/

theorem waves_call (b : Brain Val) (board : Nat) (a : AccessorCall Val) :
    (b.step (.call board a)).waves = b.waves ∧ (b.step (.call board a)).loader = b.loader := by
  simp only [Brain.step]
  split <;> exact ⟨rfl, rfl⟩

theorem blackboards_call {b : Brain Val} (h : b.blackboards = []) (board : Nat) (a : AccessorCall Val) :
    (b.step (.call board a)).blackboards = [] := by
  simp only [Brain.step]
  split
  · simp [h, NodeList.modifyAt]
  · exact h

/-- **What a call does**: nothing, or a module of a running wave makes it. -/
theorem call_cases (s : Life Val) (wave : String) (index board : Nat) (a : AccessorCall Val) :
    s.call wave index board a = s ∨ ∃ w it m, s.brain.waves.lookup wave = some (w, it) ∧ w.isRunning = true ∧
      m ∈ w.modules ∧
        s.call wave index board a = { s with brain := s.brain.step (.call board (a.stamp m.dllModule)) } := by
  unfold call
  cases hw : s.brain.waves.lookup wave with
  | none => exact Or.inl rfl
  | some p =>
    obtain ⟨w, it⟩ := p
    cases hm : w.modules[index]? with
    | none => exact Or.inl (by simp only [hm])
    | some m =>
      simp only [hm]
      split
      · rename_i hr
        simp only [Bool.and_eq_true] at hr
        exact Or.inr ⟨w, it, m, rfl, hr.1, List.mem_of_getElem? hm, rfl⟩
      · exact Or.inl rfl

theorem call_inv (hi : s.Inv) (wave : String) (index board : Nat) (a : AccessorCall Val) :
    (s.call wave index board a).Inv := by
  rcases call_cases s wave index board a with he | ⟨w, it, m, hw, hr, hm, he⟩
  · rw [he]; exact hi
  · rw [he]
    obtain ⟨brain, phase⟩ := s
    obtain ⟨hwaves, hloader⟩ := waves_call brain board (a.stamp m.dllModule)
    have hopen : brain.KeepsOpen → (brain.step (.call board (a.stamp m.dllModule))).KeepsOpen :=
      fun h => ⟨by rw [hloader]; exact h.balance, by rw [hwaves, hloader]; exact h.modules⟩
    cases phase with
    | alive =>
      obtain ⟨hb, ho, hk⟩ := hi
      have hb' := Brain.step_inv hb (.call board (a.stamp m.dllModule))
      have ho' := (Brain.step_oneToOne hb ho (.call board (a.stamp m.dllModule))).1
      exact ⟨hb', ho', hopen hk⟩
    | pausing todo =>
      refine ⟨hopen hi.1, ?_⟩
      rw [hwaves]
      exact hi.2
    | clearing =>
      show ∀ k w board', _
      rw [hwaves]
      exact hi
    | unloading | gone =>
      exact blackboards_call hi board _

theorem call_safe (hi : s.Inv) (h : s.Safe) (wave : String) (index board : Nat) (a : AccessorCall Val) :
    (s.call wave index board a).Safe := by
  rcases call_cases s wave index board a with he | ⟨w, it, m, hw, hr, hm, he⟩
  · rw [he]; exact h
  · have hloaded : s.brain.blackboards = [] ∨ Loaded s.brain.loader m.dllModule := by
      obtain ⟨brain, phase⟩ := s
      cases phase with
      | alive => exact Or.inr (hi.2.2.modules wave w it hw m hm)
      | pausing todo => exact Or.inr (hi.1.modules wave w it hw m hm)
      | clearing =>
        have hn := hi wave w it hw
        rw [hr] at hn; cases hn
      | unloading | gone => exact Or.inl hi
    rw [he]
    obtain ⟨hwaves, hloader⟩ := waves_call s.brain board (a.stamp m.dllModule)
    refine ⟨fun board' k T v file hx => ?_, by rw [hwaves]; exact h.paused⟩
    rw [hloader]
    rcases Brain.stored_call _ _ _ hx with hx | ha
    · exact h.values board' k T v file hx
    · obtain rfl : file = m.dllModule := Brain.storedOn_stamp ha
      rcases hloaded with hn | hl
      · rw [Brain.stored_of_nil (blackboards_call hn board _)] at hx
        cases hx
      · exact hl

/-! ### Commands -/

section

variable {b : Brain (Stored Val)} {wave file : String} {w : BrainWave String (DynamicModule Ty)} {own : Nat}

/-- What a constructor stores is safe while its library is open. -/
theorem built_valuesLoaded (hi : b.Inv) (h : b.OneToOne) (hk : b.KeepsOpen) (hv : b.ValuesLoaded)
    (hw : b.waves.lookup wave = some (w, own)) (c : Construction Val) :
    (b.built own file (c.stamp file)).1.ValuesLoaded := by
  intro board k T v f hx
  rw [(Brain.built_builds hi own file (c.stamp file)).1.loader]
  rcases Brain.stored_built hi h hw hx with hx | ⟨hf, -⟩
  · exact (hv board k T v f hx).opened file
  · exact hf ▸ hk.loaded_opened file

/-- **A constructor throws, and its library is closed**: what the Blackboards store is safe exactly when the library is
still loaded or nothing of it was stored. -/
theorem closed_valuesLoaded_iff (hi : b.Inv) (h : b.OneToOne) (hv : b.ValuesLoaded)
    (hw : b.waves.lookup wave = some (w, own)) (c : Construction Val) :
    ((b.built own file (c.stamp file)).1.logEvent (.closed file)).ValuesLoaded ↔ Loaded b.loader file ∨
      ∀ T k v, .globalProvide T k v ∉ accepted (b.boardOf wave) ((c.stamp file).calls.flatMap (onWave wave wave)) := by
  have hloader : ((b.built own file (c.stamp file)).1.logEvent (.closed file)).loader =
      b.loader ++ [.opened file] ++ [.closed file] :=
    congrArg (· ++ _) (Brain.built_builds hi own file (c.stamp file)).1.loader
  constructor
  · intro hs
    by_contra hn
    simp only [not_or, not_forall, not_not] at hn
    obtain ⟨hl, T, k, v, hc⟩ := hn
    obtain ⟨U, u, hu⟩ := Brain.exists_stored_built hi h hw hc
    have hloaded := hs own k U u file hu
    rw [hloader, loaded_closed] at hloaded
    exact hl hloaded
  · intro hs board k T v f hx
    rw [hloader, loaded_closed]
    rcases Brain.stored_built hi h hw hx with hx | ⟨rfl, hc⟩
    · exact hv board k T v f hx
    · exact hs.resolve_right fun hn => hn T k _ hc

end

theorem load_valuesLoaded_iff {b : Brain (Stored Val)} (hi : b.Inv) (h : b.OneToOne) (hk : b.KeepsOpen)
    (hv : b.ValuesLoaded) (inputs : List String) (found : Except String (Library Val)) :
    (b.addDynamicModule inputs (found.map (Library.stamp (inputs.getD 2 "")))).2.ValuesLoaded ↔
      ClosesNothingStored ⟨b, .alive⟩ (.command (.addDynamicModule inputs found)) := by
  have hr := Brain.addDynamicModule_result hi inputs (found.map (Library.stamp (inputs.getD 2 "")))
  generalize b.addDynamicModule inputs _ = r at hr ⊢
  cases hr with
  | unusable _ hbad =>
    refine iff_of_true hv ?_
    rcases inputs with _ | ⟨command, _ | ⟨wave, _ | ⟨file, more⟩⟩⟩
    · trivial
    · trivial
    · trivial
    · intro _ x c t hx
      rw [AList.lookup_eq_none.2 (Brain.notMem_of_unusable hbad)] at hx
      cases hx
  | refused command wave file more events hn he =>
    rw [Brain.constructionOf_stamp, Option.map_eq_none_iff] at hn
    refine iff_of_true (fun board k T v f hx => ?_) (fun _ x c t _ hc => by rw [hn] at hc; cases hc)
    have hl := hv board k T v f hx
    rcases he with rfl | rfl
    · simpa using hl
    · simpa using loaded_closed.2 hl
  | threw command wave file more w own c t hw hc ht =>
    rw [Brain.constructionOf_stamp] at hc
    obtain ⟨c₀, hc₀, rfl⟩ := Option.map_eq_some_iff.1 hc
    have hfile : (command :: wave :: file :: more).getD 2 "" = file := rfl
    rw [hfile]
    cases hex : t.asException.isSome with
    | false =>
      refine iff_of_true (built_valuesLoaded hi h hk hv hw c₀) (fun _ x c' t' _ hc' ht' hex' => ?_)
      obtain rfl : c₀ = c' := Option.some.inj (hc₀.symm.trans hc')
      obtain rfl : t = t' := Except.error.inj (ht.symm.trans ht')
      rw [hex] at hex'; cases hex'
    | true =>
      refine (closed_valuesLoaded_iff hi h hv hw c₀).trans ⟨fun hs _ x c' t' _ hc' _ _ => ?_, fun hs => ?_⟩
      · obtain rfl : c₀ = c' := Option.some.inj (hc₀.symm.trans hc')
        exact hs
      · exact hs rfl (w, own) c₀ t hw hc₀ ht hex
  | loaded command wave file more w own c name hw hc ht =>
    rw [Brain.constructionOf_stamp] at hc
    obtain ⟨c₀, hc₀, rfl⟩ := Option.map_eq_some_iff.1 hc
    refine iff_of_true (built_valuesLoaded hi h hk hv hw c₀) (fun _ x c' t' _ hc' ht' _ => ?_)
    obtain rfl : c₀ = c' := Option.some.inj (hc₀.symm.trans hc')
    have := ht.symm.trans ht'
    cases this

theorem command_inv {b : Brain (Stored Val)} (hi : Inv ⟨b, .alive⟩) (c : Command (Stored Val)) :
    Inv ⟨(b.command c).2, .alive⟩ :=
  ⟨Brain.step_inv hi.1 (.command c), (Brain.step_oneToOne hi.1 hi.2.1 (.command c)).1, Brain.command_keepsOpen hi.1 hi.2.2 c⟩

theorem command_safe_iff {b : Brain (Stored Val)} (hi : Inv ⟨b, .alive⟩) (h : b.ValuesLoaded) (c : Command Val) :
    (b.command c.stamp).2.ValuesLoaded ↔ ClosesNothingStored ⟨b, .alive⟩ (.command c) := by
  cases c with
  | createWave inputs =>
    refine iff_of_true (fun board k T v file hx => ?_) trivial
    have hl : (b.createWave inputs).2.loader = b.loader := (Brain.createWave_builds hi.1.coherent inputs).loader
    have hs : (b.createWave inputs).2.stored board k = some ⟨T, v, file⟩ := hx
    rw [Brain.stored_createWave] at hs
    show Loaded (b.createWave inputs).2.loader file
    rw [hl]
    exact h board k T v file hs
  | addDynamicModule inputs found => exact load_valuesLoaded_iff hi.1 hi.2.1 hi.2.2 h inputs found
  | execute inputs =>
    refine iff_of_true (fun board k T v file hx => ?_) trivial
    simp only [Brain.command, Command.stamp, Brain.stored, Brain.blackboards_execute] at hx
    simp only [Brain.command, Command.stamp, Brain.loader_execute]
    exact h board k T v file hx

/-! ### The destructor -/

omit [DecidableEq Ty] in
theorem destructor_inv (hi : s.Inv) : s.destructor.Inv := by
  obtain ⟨brain, phase⟩ := s
  cases phase with
  | alive =>
    refine ⟨hi.2.2, fun k w board hw _ => AList.mem_keys.1 (AList.lookup_isSome.1 ?_)⟩
    exact Option.isSome_iff_exists.2 ⟨_, hw⟩
  | pausing todo =>
    obtain ⟨hk, hr⟩ := hi
    cases todo with
    | nil =>
      intro k w board hw
      cases hrun : w.isRunning with
      | false => rfl
      | true => cases hr k w board hw hrun
    | cons key todo =>
      have hw : ∀ k w board, (brain.waves.mapValues fun k p => if k = key then (p.1.pause.state, p.2) else p).lookup k =
          some (w, board) → ∃ w₀, brain.waves.lookup k = some (w₀, board) ∧ w.modules = w₀.modules ∧
            (w.isRunning = true → k ≠ key ∧ w₀.isRunning = true) := by
        intro k w board hw
        rw [UnorderedMap.lookup_mapValues] at hw
        obtain ⟨⟨w₀, board₀⟩, hw₀, he⟩ := Option.map_eq_some_iff.1 hw
        split at he
        · obtain ⟨rfl, rfl⟩ := Prod.mk.inj he
          refine ⟨w₀, hw₀, w₀.pause_state.1, fun hrun => ?_⟩
          rw [BrainWave.isRunning, w₀.pause_state.2.2] at hrun
          cases hrun
        · rename_i hne
          obtain ⟨rfl, rfl⟩ := Prod.mk.inj he
          exact ⟨w₀, hw₀, rfl, fun hrun => ⟨hne, hrun⟩⟩
      refine ⟨⟨hk.balance, fun k w board hx m hm => ?_⟩, fun k w board hx hrun => ?_⟩
      · obtain ⟨w₀, hw₀, hm₀, -⟩ := hw k w board hx
        exact hk.modules k w₀ board hw₀ m (hm₀ ▸ hm)
      · obtain ⟨w₀, hw₀, -, hr₀⟩ := hw k w board hx
        obtain ⟨hne, hrun₀⟩ := hr₀ hrun
        exact (List.mem_cons.1 (hr k w₀ board hw₀ hrun₀)).resolve_left hne
  | clearing =>
    simp only [destructor]
    split
    · rename_i hn
      exact hn
    · exact hi
  | unloading =>
    simp only [destructor]
    split
    · exact hi
    · split <;> exact hi
  | gone => exact hi

omit [DecidableEq Ty] in
/-- **The destructor is in order**: a library is closed when nothing is stored any more. -/
theorem destructor_safe (hi : s.Inv) (h : s.Safe) : s.destructor.Safe := by
  have hinv := destructor_inv hi
  obtain ⟨brain, phase⟩ := s
  cases phase with
  | alive => exact ⟨h.values, fun e => by cases e⟩
  | pausing todo =>
    cases todo with
    | nil => exact ⟨h.values, fun _ => hinv⟩
    | cons key todo => exact ⟨h.values, fun e => by cases e⟩
  | clearing =>
    simp only [destructor] at hinv ⊢
    split
    · exact ⟨h.values, fun e => by cases e⟩
    · rename_i B blackboards hB
      refine ⟨fun board k T v file hx => h.values board k T v file ?_, h.paused⟩
      obtain ⟨B', hB', hx⟩ := Option.bind_eq_some_iff.1 hx
      have hat : brain.blackboards.at? board = some B' := by
        rw [hB]
        exact (NodeList.at?_emplaceFront blackboards B board).trans
          ((if_neg (Nat.ne_of_lt (NodeList.lt_of_at? hB'))).trans hB')
      exact Option.bind_eq_some_iff.2 ⟨B', hat, hx⟩
  | unloading =>
    have hn : (destructor ⟨brain, .unloading⟩).brain.blackboards = [] := by
      simp only [destructor]
      split
      · exact hi
      · split <;> exact hi
    refine ⟨fun board k T v file hx => ?_, fun e => ?_⟩
    · rw [Brain.stored_of_nil hn] at hx
      cases hx
    · simp only [destructor] at e
      split at e
      · cases e
      · split at e <;> cases e
  | gone => exact h

/-! ### Every input -/

theorem step_inv (hi : s.Inv) (i : LifeInput Val) : (s.step i).Inv := by
  cases i with
  | command c =>
    simp only [step]
    split
    · rename_i hp
      obtain ⟨brain, phase⟩ := s
      obtain rfl : phase = .alive := hp
      exact command_inv hi c.stamp
    · exact hi
  | call wave index board a => exact call_inv hi wave index board a
  | destructor => exact destructor_inv hi

theorem step_safe_iff (hi : s.Inv) (h : s.Safe) (i : LifeInput Val) : (s.step i).Safe ↔ s.ClosesNothingStored i := by
  cases i with
  | command c =>
    simp only [step]
    split
    · rename_i hp
      obtain ⟨brain, phase⟩ := s
      obtain rfl : phase = .alive := hp
      rw [← command_safe_iff hi h.values c]
      exact ⟨Safe.values, fun hv => ⟨hv, fun e => by cases e⟩⟩
    · rename_i hp
      refine iff_of_true h ?_
      unfold ClosesNothingStored
      split
      · exact fun hp' => absurd hp' hp
      · trivial
  | call wave index board a => exact iff_of_true (call_safe hi h wave index board a) trivial
  | destructor => exact iff_of_true (destructor_safe hi h) trivial

/-- **When no value outlives its library**: over every life of a Brain, to the end of its destructor, exactly when no
constructor that throws leaves a value of a library that is loaded for it alone. -/
theorem values_exact_iff (inputs : List (LifeInput Val)) :
    (∀ pre post, inputs = pre ++ post → (after pre).Safe) ↔
      Runs.AtEvery (fun pre i => (after pre).ClosesNothingStored i) inputs := by
  have hi0 : (new : Life Val).Inv :=
    ⟨Brain.after_inv [], Brain.after_oneToOne [], ⟨fun _ => Nat.le_refl _, fun _ _ _ h => (by cases h)⟩⟩
  have hs0 : (new : Life Val).Safe := ⟨fun _ _ _ _ _ h => (by cases h), fun e => (by cases e)⟩
  refine (Runs.forall_prefix_iff hs0).trans (Runs.atEvery_congr fun pre i hpre => ?_)
  have hstep : ∀ (s : Life Val) i, s.Inv ∧ s.Safe → s.ClosesNothingStored i → (s.step i).Inv ∧ (s.step i).Safe :=
    fun s i h hc => ⟨step_inv h.1 i, (step_safe_iff h.1 h.2 i).2 hc⟩
  obtain ⟨hi, hs⟩ := Runs.run_invariant_of_atEvery ⟨hi0, hs0⟩ hstep hpre
  exact step_safe_iff hi hs i

/-- A constructor provides a value and throws: its library is closed, and the value stays. -/
theorem value_not_safe :
    ¬ (after [.command (.createWave ["createWave", "wave"]), .command (.addDynamicModule
      ["addDynamicModule", "wave", "Writer.so"]
        (.ok ⟨.ok ⟨[.globalProvide .int "test" 3], .error (.runtimeError "no data")⟩, .ok ()⟩))] :
        Life Comm.Plain.Value).Safe := by
  intro h
  have hl := h.values 0 "test" .int 3 "Writer.so" rfl
  exact absurd hl (by decide)

end Life
end Core
end NaoFramework
