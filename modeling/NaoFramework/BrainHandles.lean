import NaoFramework.BrainLife
import NaoFramework.MapTotals
/-!
# BrainHandles — every library opened, and who closes it

A library is opened by a load, and closed by the handler of the load or by the wrapper of the module it made.  What is
open at any time is therefore one handle for each module in a wave, and one for each load that left no wrapper and no
handler: its constructor threw what is no `std::exception` (`handles_exact`).  The destructor comes to its end after a
fixed number of steps, whatever the threads do meanwhile, and then only handles of the latter kind are open
(`destructor_ends`).
-/
namespace NaoFramework
namespace Core

open Comm (Blackboard AccessorCall)
open Modules (Thrown Construction Library LoaderEvent DynamicModule constructionOf)

variable {Ty : Type} {Val : Ty → Type}

namespace Brain

/-- The modules of the waves that come from a library. -/
def wrapped (b : Brain Val) (file : String) : Nat :=
  b.waves.total fun _ p => p.1.modules.countP fun m => m.dllModule = file

/-- **The handles of a library**: one for each module in a wave, and `n` more. -/
def Balance (b : Brain Val) (file : String) (n : Nat) : Prop :=
  b.loader.count (.opened file) = b.loader.count (.closed file) + b.wrapped file + n

end Brain

def LifeInput.isDestructor : LifeInput Val → Bool
  | .destructor => true
  | _ => false

namespace Life

/-- Whether the input is a load of the library whose constructor throws what is no `std::exception`: the handler does not
catch it. -/
def leaks (s : Life Val) (file : String) : LifeInput Val → Bool
  | .command (.addDynamicModule (_ :: wave :: dll :: _) found) =>
    s.phase = .alive && s.brain.waveExists wave && dll = file &&
      (constructionOf found).any fun c =>
        match c.ending with
        | .error t => t.asException.isNone
        | .ok _ => false
  | _ => false

/-- How many of the inputs do. -/
def leaked [DecidableEq Ty] (file : String) : Life Val → List (LifeInput Val) → Nat
  | _, [] => 0
  | s, i :: inputs => (if s.leaks file i then 1 else 0) + leaked file (s.step i) inputs

/-- How many steps the destructor has yet to make. -/
def rank (s : Life Val) : Nat :=
  let unloading := s.brain.waves.total (fun _ p => p.1.modules.length + 1) + 1
  let clearing := s.brain.blackboards.length + 1 + unloading
  match s.phase with
  | .alive => s.brain.waves.keys.length + 2 + clearing
  | .pausing todo => todo.length + 1 + clearing
  | .clearing => clearing
  | .unloading => unloading
  | .gone => 0

/-- What is left of a Brain: no Blackboard and no wave, and of a library the handles that nobody has. -/
structure Released (s : Life Val) (leaked : String → Nat) : Prop where
  blackboards : s.brain.blackboards = []
  waves : s.brain.waves.entries = []
  handles : ∀ file, s.brain.loader.count (.opened file) = s.brain.loader.count (.closed file) + leaked file

end Life

/-! ## The handles of a Brain -/

namespace Brain

variable {b b' : Brain Val} {file : String} {n : Nat}

theorem wrapped_builds (hb : b.Builds b') (file : String) : b'.wrapped file = b.wrapped file := by
  refine UnorderedMap.total_congr fun k => ?_
  cases hw : b'.waves.lookup k with
  | none =>
    have hn : b.waves.lookup k = none := by
      cases hw' : b.waves.lookup k with
      | none => rfl
      | some p =>
        rw [hb.waves k p hw'] at hw
        cases hw
    rw [UnorderedMap.weight_of_none hw, UnorderedMap.weight_of_none hn]
  | some p =>
    obtain ⟨w, board⟩ := p
    cases hw' : b.waves.lookup k with
    | some p =>
      rw [UnorderedMap.weight_of_lookup hw, UnorderedMap.weight_of_lookup hw',
        Option.some.inj ((hb.waves k p hw').symm.trans hw)]
    | none =>
      -- a wave that was made has no module
      rcases hb.fresh k w board hw with hw'' | ⟨rfl, -, -⟩
      · rw [hw'] at hw''
        cases hw''
      · rw [UnorderedMap.weight_of_lookup hw, UnorderedMap.weight_of_none hw']
        rfl

theorem Balance.builds (h : b.Balance file n) (hb : b.Builds b') : b'.Balance file n := by
  rw [Balance, hb.loader, wrapped_builds hb]
  exact h

theorem Balance.opened (h : b.Balance file n) (dll : String) :
    (b.logEvent (.opened dll)).Balance file (n + if dll = file then 1 else 0) := by
  have hw : (b.logEvent (.opened dll)).wrapped file = b.wrapped file := rfl
  unfold Balance at h ⊢
  rw [hw, logEvent, List.count_append, List.count_append, List.count_singleton, List.count_singleton]
  simp only [beq_iff_eq, LoaderEvent.opened.injEq, reduceCtorEq, if_false]
  omega

theorem Balance.closed {dll : String} (h : b.Balance file (n + if dll = file then 1 else 0)) :
    (b.logEvent (.closed dll)).Balance file n := by
  have hw : (b.logEvent (.closed dll)).wrapped file = b.wrapped file := rfl
  unfold Balance at h ⊢
  rw [hw, logEvent, List.count_append, List.count_append, List.count_singleton, List.count_singleton]
  simp only [beq_iff_eq, LoaderEvent.closed.injEq, reduceCtorEq, if_false]
  omega

/-- A handle goes to the module that is appended to a wave. -/
theorem Balance.pushBack {wave : String} {w : BrainWave String (DynamicModule Ty)} {own : Nat} {m : DynamicModule Ty}
    (h : b.Balance file (n + if m.dllModule = file then 1 else 0)) (hw : b.waves.lookup wave = some (w, own)) :
    Balance { b with waves := b.waves.insert wave (w.pushBack m, own) } file n := by
  have ht := UnorderedMap.total_insert (b := (w.pushBack m, own)) (f := fun _ p => p.1.modules.countP fun m => m.dllModule = file) hw
  simp only [BrainWave.pushBack, List.countP_append, List.countP_singleton, decide_eq_true_eq] at ht
  unfold Balance wrapped at h ⊢
  simp only [BrainWave.pushBack] at h ⊢
  omega

theorem wrapped_execute (b : Brain Val) (file : String) : b.execute.2.wrapped file = b.wrapped file := by
  unfold execute
  split
  · refine UnorderedMap.total_mapValues _ fun k p => ?_
    obtain ⟨⟨name, modules, indices, running, wave⟩, board⟩ := p
    cases running <;> cases wave <;> rfl
  · rfl

end Brain

/-! ## Commands -/

namespace Life

open Brain (Command)

variable {b : Brain (Stored Val)} {file : String} {n : Nat}

/-- Whether a load leaks is up to how its constructor ends. -/
theorem leaks_load (file command dll : String) (more : List String) {wave : String} {found : Except String (Library Val)}
    {w : BrainWave String (DynamicModule Ty)} {own : Nat} {c : Construction Val}
    (hw : b.waves.lookup wave = some (w, own)) (hc : constructionOf found = some c) :
    leaks ⟨b, .alive⟩ file (.command (.addDynamicModule (command :: wave :: dll :: more) found)) = true ↔
      dll = file ∧ ∃ t, c.ending = .error t ∧ t.asException = none := by
  have hm : wave ∈ b.waves := AList.lookup_isSome.1 (by rw [hw]; rfl)
  simp only [leaks, Brain.waveExists, hm, hc, Option.any_some, decide_true, Bool.true_and, Bool.and_eq_true,
    decide_eq_true_eq]
  refine and_congr_right fun _ => ?_
  cases c.ending with
  | ok name => simp
  | error t => simp

variable [DecidableEq Ty]

/-- **A load**: its library is closed by its handler, or the module it made is in a wave, or it leaks. -/
theorem addDynamicModule_balance (hi : b.Inv) (h : b.Balance file n) (inputs : List String)
    (found : Except String (Library Val)) :
    (b.addDynamicModule inputs (found.map (Modules.Library.stamp (inputs.getD 2 "")))).2.Balance file
      (n + if leaks ⟨b, .alive⟩ file (.command (.addDynamicModule inputs found)) then 1 else 0) := by
  have hr := Brain.addDynamicModule_result hi inputs (found.map (Modules.Library.stamp (inputs.getD 2 "")))
  generalize b.addDynamicModule inputs _ = r at hr ⊢
  cases hr with
  | unusable _ hbad =>
    have hl : leaks ⟨b, .alive⟩ file (.command (.addDynamicModule inputs found)) = false := by
      rcases inputs with _ | ⟨command, _ | ⟨wave, _ | ⟨dll, more⟩⟩⟩
      · rfl
      · rfl
      · rfl
      · simp [leaks, Brain.waveExists, Brain.notMem_of_unusable hbad]
    rw [hl]
    exact h
  | refused command wave dll more events hn he =>
    have hl : leaks ⟨b, .alive⟩ file (.command (.addDynamicModule (command :: wave :: dll :: more) found)) = false := by
      rw [Brain.constructionOf_stamp, Option.map_eq_none_iff] at hn
      simp [leaks, hn]
    rw [hl]
    rcases he with rfl | rfl
    · rw [List.append_nil]
      exact h
    · have hc := (h.opened dll).closed
      rwa [Brain.logEvent, Brain.logEvent, List.append_assoc] at hc
  | threw command wave dll more w own c t hw hc ht =>
    rw [Brain.constructionOf_stamp] at hc
    obtain ⟨c₀, hc₀, rfl⟩ := Option.map_eq_some_iff.1 hc
    have hb := (h.opened dll).builds (Brain.built_builds hi own dll (c₀.stamp dll)).1
    have hl := leaks_load file command dll more hw hc₀
    have ht₀ : c₀.ending = .error t := ht
    cases hex : t.asException with
    | some e =>
      simp only [Option.isSome_some, if_true]
      rw [if_neg fun hleak => ?_]
      · exact hb.closed
      · obtain ⟨-, t', ht', hn⟩ := hl.1 hleak
        obtain rfl : t = t' := Except.error.inj (ht₀.symm.trans ht')
        rw [hex] at hn
        cases hn
    | none =>
      have hiff : leaks ⟨b, .alive⟩ file (.command (.addDynamicModule (command :: wave :: dll :: more) found)) = true ↔
          dll = file := hl.trans ⟨And.left, fun e => ⟨e, t, ht₀, hex⟩⟩
      simp only [Option.isSome_none, Bool.false_eq_true, if_false, hiff]
      exact hb
  | loaded command wave dll more w own c name hw hc ht =>
    rw [Brain.constructionOf_stamp] at hc
    obtain ⟨c₀, hc₀, rfl⟩ := Option.map_eq_some_iff.1 hc
    have hb := (Brain.built_builds hi own dll (c₀.stamp dll)).1
    have ht₀ : c₀.ending = .ok name := ht
    rw [if_neg fun hleak => ?_]
    · exact Brain.Balance.pushBack ((h.opened dll).builds hb) (hb.waves wave _ hw)
    · obtain ⟨-, t', ht', -⟩ := (leaks_load _ _ _ _ hw hc₀).1 hleak
      rw [ht₀] at ht'
      cases ht'

theorem command_balance (hi : b.Inv) (h : b.Balance file n) (c : Command Val) :
    (b.command c.stamp).2.Balance file (n + if leaks ⟨b, .alive⟩ file (.command c) then 1 else 0) := by
  cases c with
  | createWave inputs => exact h.builds (Brain.createWave_builds hi.coherent inputs)
  | addDynamicModule inputs found => exact addDynamicModule_balance hi h inputs found
  | execute inputs =>
    show b.execute.2.Balance file n
    rw [Brain.Balance, Brain.loader_execute, Brain.wrapped_execute]
    exact h

/-! ## The destructor -/

variable {s : Life Val}

omit [DecidableEq Ty] in
/-- A wave that is paused keeps its modules. -/
theorem total_paused (waves : UnorderedMap String (BrainWave String (DynamicModule Ty) × Nat)) (key : String)
    (count : List (DynamicModule Ty) → Nat) :
    (waves.mapValues fun k p => if k = key then (p.1.pause.state, p.2) else p).total (fun _ p => count p.1.modules) =
      waves.total fun _ p => count p.1.modules := by
  refine UnorderedMap.total_mapValues _ fun k p => ?_
  split
  · rw [p.1.pause_state.1]
  · rfl

omit [DecidableEq Ty] in
/-- **The destructor closes what it drops**: a module's library with the module. -/
theorem destructor_balance (h : s.brain.Balance file n) : s.destructor.brain.Balance file n := by
  obtain ⟨brain, phase⟩ := s
  cases phase with
  | alive => exact h
  | pausing todo =>
    cases todo with
    | nil => exact h
    | cons key todo =>
      unfold Brain.Balance Brain.wrapped at h ⊢
      simp only [destructor]
      rw [total_paused brain.waves key fun modules => modules.countP fun m => m.dllModule = file]
      exact h
  | clearing =>
    simp only [destructor]
    split
    · exact h
    · exact h
  | unloading =>
    simp only [destructor]
    split
    · exact h
    · rename_i key w board rest he
      have hw : brain.waves.lookup key = some (w, board) := AList.mem_lookup_iff.2 (by rw [he]; exact List.mem_cons_self)
      split
      · rename_i m modules hm
        refine Brain.Balance.closed ?_
        have ht := UnorderedMap.total_insert (b := ({ w.pause.state with modules := modules }, board))
          (f := fun _ p => p.1.modules.countP fun m => m.dllModule = file) hw
        simp only [hm, List.countP_cons, decide_eq_true_eq] at ht
        simp only [Brain.Balance, Brain.wrapped] at h ⊢
        omega
      · rename_i hm
        have ht := UnorderedMap.total_erase (f := fun _ p => p.1.modules.countP fun m => m.dllModule = file) hw
        simp only [hm, List.countP_nil, Nat.add_zero] at ht
        simp only [Brain.Balance, Brain.wrapped] at h ⊢
        rw [ht]
        exact h
  | gone => exact h

omit [DecidableEq Ty] in
/-- **Every step of the destructor** brings its end nearer. -/
theorem destructor_rank (s : Life Val) : s.destructor.rank = s.rank - 1 := by
  obtain ⟨brain, phase⟩ := s
  cases phase with
  | alive => simp only [destructor, rank]; omega
  | pausing todo =>
    cases todo with
    | nil => simp only [destructor, rank, List.length_nil]; omega
    | cons key todo =>
      simp only [destructor, rank, List.length_cons]
      rw [total_paused brain.waves key fun modules => modules.length + 1]
      omega
  | clearing =>
    simp only [destructor]
    split
    · rename_i hn
      simp only [rank, hn, List.length_nil]; omega
    · rename_i hn
      simp only [rank, hn, List.length_cons]; omega
  | unloading =>
    simp only [destructor]
    split
    · rename_i he
      simp only [rank, UnorderedMap.total_of_entries_nil he]
    · rename_i key w board rest he
      have hw : brain.waves.lookup key = some (w, board) := AList.mem_lookup_iff.2 (by rw [he]; exact List.mem_cons_self)
      split
      · rename_i m modules hm
        have ht := UnorderedMap.total_insert (b := ({ w.pause.state with modules := modules }, board))
          (f := fun _ p => p.1.modules.length + 1) hw
        simp only [hm, List.length_cons] at ht
        simp only [rank, Brain.logEvent]
        omega
      · rename_i hm
        have ht := UnorderedMap.total_erase (f := fun _ p => p.1.modules.length + 1) hw
        simp only [hm, List.length_nil] at ht
        simp only [rank]
        omega
  | gone => rfl

/-! ## Whole lives -/

omit [DecidableEq Ty] in
theorem leaks_of_not_alive (hp : s.phase ≠ .alive) (file : String) (i : LifeInput Val) : s.leaks file i = false := by
  unfold leaks
  split
  · simp [hp]
  · rfl

theorem call_loader (s : Life Val) (wave : String) (index board : Nat) (a : AccessorCall Val) :
    (s.call wave index board a).brain.waves = s.brain.waves ∧ (s.call wave index board a).brain.loader = s.brain.loader ∧
      (s.call wave index board a).brain.blackboards.length = s.brain.blackboards.length ∧
      (s.call wave index board a).phase = s.phase := by
  rcases call_cases s wave index board a with he | ⟨w, it, m, -, -, -, he⟩
  · rw [he]
    exact ⟨rfl, rfl, rfl, rfl⟩
  · rw [he]
    obtain ⟨hwaves, hloader⟩ := waves_call s.brain board (a.stamp m.dllModule)
    refine ⟨hwaves, hloader, ?_, rfl⟩
    simp only [Brain.step]
    split
    · simp [NodeList.modifyAt]
    · rfl

/-- **The step lemma.** -/
theorem step_balance (hi : s.Inv) (h : s.brain.Balance file n) (i : LifeInput Val) :
    (s.step i).brain.Balance file (n + if s.leaks file i then 1 else 0) := by
  cases i with
  | command c =>
    simp only [step]
    split
    · rename_i hp
      obtain ⟨brain, phase⟩ := s
      obtain rfl : phase = .alive := hp
      exact command_balance hi.1 h c
    · rename_i hp
      rw [leaks_of_not_alive hp]
      exact h
  | call wave index board a =>
    obtain ⟨hwaves, hloader, -, -⟩ := call_loader s wave index board a
    show Brain.Balance (s.call wave index board a).brain file n
    rw [Brain.Balance, Brain.wrapped, hwaves, hloader]
    exact h
  | destructor => exact destructor_balance h

theorem run_balance (file : String) : ∀ (inputs : List (LifeInput Val)) (s : Life Val) (n : Nat), s.Inv →
    s.brain.Balance file n → (Runs.run step s inputs).brain.Balance file (n + leaked file s inputs)
  | [], _, _, _, h => h
  | i :: inputs, s, n, hi, h => by
    have ht := run_balance file inputs (s.step i) _ (step_inv hi i) (step_balance hi h i)
    rw [Nat.add_assoc] at ht
    exact ht

theorem new_inv : (new : Life Val).Inv :=
  ⟨Brain.after_inv [], Brain.after_oneToOne [], ⟨fun _ => Nat.le_refl _, fun _ _ _ h => (by cases h)⟩⟩

theorem after_inv (inputs : List (LifeInput Val)) : (after inputs).Inv := by
  have hstep : ∀ (l : Life Val) i, l.Inv → (l.step i).Inv := fun _ i h => step_inv h i
  exact Runs.run_invariant hstep inputs new new_inv

theorem after_balance (inputs : List (LifeInput Val)) (file : String) :
    (after inputs).brain.Balance file (leaked file new inputs) := by
  have h := run_balance file inputs new 0 new_inv rfl
  rw [Nat.zero_add] at h
  exact h

/-- **Every handle is accounted for**: at any time of a Brain's life, destructor included, a library was opened as often as
it was closed, once more for each module of it in a wave, and once more for each load that leaked. -/
theorem handles_exact (inputs : List (LifeInput Val)) (file : String) :
    (after inputs).brain.loader.count (.opened file) = (after inputs).brain.loader.count (.closed file) +
      (after inputs).brain.wrapped file + leaked file new inputs := after_balance inputs file

theorem step_destructor_ne_alive (s : Life Val) : (s.step .destructor).phase ≠ .alive := by
  show s.destructor.phase ≠ .alive
  unfold destructor
  split
  · simp
  · simp
  · simp
  · split <;> simp [*]
  · split
    · simp
    · split <;> simp [*]
  · simp [*]

/-- Once the destructor has begun, only its own steps bring its end nearer. -/
theorem step_rank (hp : s.phase ≠ .alive) (i : LifeInput Val) :
    (s.step i).phase ≠ .alive ∧ (s.step i).rank = s.rank - if i.isDestructor then 1 else 0 := by
  cases i with
  | command c =>
    simp only [step, if_neg hp]
    exact ⟨hp, rfl⟩
  | call wave index board a =>
    obtain ⟨hwaves, -, hlength, hphase⟩ := call_loader s wave index board a
    show (s.call wave index board a).phase ≠ .alive ∧ (s.call wave index board a).rank = s.rank
    refine ⟨hphase ▸ hp, ?_⟩
    simp only [rank, hwaves, hlength, hphase]
  | destructor => exact ⟨step_destructor_ne_alive s, destructor_rank s⟩

theorem run_rank : ∀ (inputs : List (LifeInput Val)) (s : Life Val), s.phase ≠ .alive →
    (Runs.run step s inputs).phase ≠ .alive ∧
      (Runs.run step s inputs).rank = s.rank - inputs.countP LifeInput.isDestructor
  | [], _, hp => ⟨hp, rfl⟩
  | i :: inputs, s, hp => by
    obtain ⟨hp', hr⟩ := step_rank hp i
    obtain ⟨hp'', hr'⟩ := run_rank inputs (s.step i) hp'
    refine ⟨hp'', hr'.trans ?_⟩
    rw [hr, List.countP_cons]
    omega

theorem after_destructor_ne_alive (inputs more : List (LifeInput Val)) :
    (after (inputs ++ .destructor :: more)).phase ≠ .alive := by
  have hrun : after (inputs ++ .destructor :: more) = Runs.run step ((after inputs).step .destructor) more :=
    Runs.run_append _ _ _ _
  rw [hrun]
  exact (run_rank more _ (step_destructor_ne_alive _)).1

omit [DecidableEq Ty] in
theorem rank_eq_zero : s.rank = 0 ↔ s.phase = .gone := by
  obtain ⟨brain, phase⟩ := s
  cases phase <;> simp [rank]

theorem leaked_append (file : String) : ∀ (inputs more : List (LifeInput Val)) (s : Life Val),
    leaked file s (inputs ++ more) = leaked file s inputs + leaked file (Runs.run step s inputs) more
  | [], _, _ => (Nat.zero_add _).symm
  | i :: inputs, more, s => by
    rw [List.cons_append, leaked, leaked, leaked_append file inputs more (s.step i), Nat.add_assoc]
    rfl

/-- Nothing is loaded when the destructor has begun. -/
theorem leaked_of_not_alive (file : String) : ∀ (inputs : List (LifeInput Val)) (s : Life Val), s.phase ≠ .alive →
    leaked file s inputs = 0
  | [], _, _ => rfl
  | i :: inputs, s, hp => by
    rw [leaked, leaks_of_not_alive hp, leaked_of_not_alive file inputs (s.step i) (step_rank hp i).1]
    rfl

/-- A Brain that is gone has no wave. -/
theorem step_gone (h : s.phase = .gone → s.brain.waves.entries = []) (i : LifeInput Val) :
    (s.step i).phase = .gone → (s.step i).brain.waves.entries = [] := by
  cases i with
  | command c =>
    simp only [step]
    split
    · rename_i hp
      exact fun e => by rw [hp] at e; cases e
    · exact h
  | call wave index board a =>
    obtain ⟨hwaves, -, -, hphase⟩ := call_loader s wave index board a
    show (s.call wave index board a).phase = .gone → (s.call wave index board a).brain.waves.entries = []
    rw [hwaves, hphase]
    exact h
  | destructor =>
    show s.destructor.phase = .gone → s.destructor.brain.waves.entries = []
    unfold destructor
    split
    · exact fun e => by cases e
    · exact fun e => by cases e
    · exact fun e => by cases e
    · rename_i hp
      split
      · exact fun e => by cases e
      · exact fun e => by rw [hp] at e; cases e
    · rename_i hp
      split
      · rename_i he
        exact fun _ => he
      · split
        · exact fun e => by rw [hp] at e; cases e
        · exact fun e => by rw [hp] at e; cases e
    · exact h

theorem gone_iff (inputs more : List (LifeInput Val)) : (after (inputs ++ .destructor :: more)).phase = .gone ↔
    (after (inputs ++ [.destructor])).rank ≤ more.countP LifeInput.isDestructor := by
  have hrun : after (inputs ++ .destructor :: more) = Runs.run step (after (inputs ++ [.destructor])) more := by
    rw [List.append_cons]
    exact Runs.run_append _ _ _ _
  rw [← rank_eq_zero, hrun, (run_rank more _ (after_destructor_ne_alive inputs [])).2]
  omega

theorem released_of_gone {inputs more : List (LifeInput Val)} (hg : (after (inputs ++ .destructor :: more)).phase = .gone) :
    (after (inputs ++ .destructor :: more)).Released fun file => leaked file new inputs := by
  have hi := after_inv (inputs ++ .destructor :: more)
  have hstep : ∀ (l : Life Val) i, (l.phase = .gone → l.brain.waves.entries = []) →
      (l.step i).phase = .gone → (l.step i).brain.waves.entries = [] := fun _ i h => step_gone h i
  have hw : (after (inputs ++ .destructor :: more)).brain.waves.entries = [] :=
    Runs.run_invariant hstep (inputs ++ .destructor :: more) new (fun e => by cases e) hg
  refine ⟨?_, hw, fun file => ?_⟩
  · rw [Inv, hg] at hi
    exact hi
  · have hh := after_balance (inputs ++ .destructor :: more) file
    have hl : leaked file new (inputs ++ .destructor :: more) = leaked file new inputs := by
      have hmore := leaked_of_not_alive file more _ (after_destructor_ne_alive inputs [])
      rw [List.append_cons, leaked_append, leaked_append]
      rw [after] at hmore
      rw [hmore]
      rfl
    rw [hl, Brain.Balance, Brain.wrapped, UnorderedMap.total_of_entries_nil hw] at hh
    exact hh

end Life
end Core
end NaoFramework
