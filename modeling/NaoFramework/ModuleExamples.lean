import NaoFramework.FrameworkFlow
/-!
# ModuleExamples — Reader and Writer

`Writer` provides an `int` under `"test"` and stores 5 in it whenever it is executed; `Reader` requests the `int` and reads
it whenever it is executed.  A constructor whose registration leaves an error in its variable throws the error.  Nothing
else is loaded, but the two are loaded any number of times, in any order and into any waves, while waves run.  As long as
no Reader comes to a running wave before a Writer does, every Reader reads 5 (`reader_reads_five`).
-/
namespace NaoFramework
namespace ModuleExamples

open Comm (Blackboard Call Accessor AccessorCall RegistrationError TypeState Plain makeRequireFunction)
open Modules (Thrown AdapterCall Construction Library DynamicModule constructionOf)
open NaoFramework.Core

inductive Example where
  | reader
  | writer
  deriving DecidableEq

namespace Example

def name : Example → String
  | reader => "Reader"
  | writer => "Writer"

/-- The registration that the constructor makes. -/
def registration : Example → Call Plain.Value
  | reader => .require .int "test"
  | writer => .provide .int "test"

/-- The call on the adapter for it. -/
def adapterCall : Example → AdapterCall Plain.Value
  | reader => .require .int "test"
  | writer => .provide .int "test"

/-- How the constructor ends: `e` is `RegistrationError::None` before the registration. -/
def ending (m : Example) (B : Blackboard Plain.Value) : Except Thrown String :=
  let r := B.register (some .none) m.registration
  match r.result with
  | .error _ => .error (.exception "std::out_of_range")
  | .ok _ => if r.e = some .none then .ok m.name else .error .other

/-- `execute`. -/
def execute : Example → AccessorCall Plain.Value
  | reader => .require .int "test"
  | writer => .provide .int "test" (5 : Int)

end Example

/-- The turns that a framework takes with nothing but the two modules. -/
def Taken (s : Framework Plain.Value) : Turn Plain.Value → Prop
  | .addDynamicModule _ found => ∀ c, constructionOf found = some c → ∃ m : Example, c.calls = [m.adapterCall]
  | .load => ∀ wave own file m held ending B, s.loading = some (.constructing wave own file [Example.adapterCall m] held ending) →
      s.brain.blackboards.at? own = some B → ending = m.ending B
  | .call wave place a => (∃ m : Example, a = m.execute) ∧ ∀ w own p, s.brain.waves.lookup wave = some (w, own) →
      s.passes wave = some p → place = w.heldBefore p.index
  | .next wave => ∀ w own p, s.brain.waves.lookup wave = some (w, own) → s.passes wave = some p →
      ∀ q, w.heldBefore p.index ≤ q → q < w.heldBefore (p.index + 1) → ∃ m ∈ p.calls, m.place = q
  | _ => True

/-! ## What the two modules keep -/

/-- **Nothing else is there**: keys have the type `int` and are not provided globally, a module holds one accessor at most,
and what was stored is 5. -/
structure Plainly (s : Framework Plain.Value) : Prop where
  checks : ∀ board k st T, s.brain.checkOf board k = some (st, T) → T = .int ∧ st ≠ .globalProvided
  modules : ∀ wave w own, s.brain.waves.lookup wave = some (w, own) → ∀ m ∈ w.modules, m.held.length ≤ 1
  constructing : ∀ wave own file calls held ending, s.loading = some (.constructing wave own file calls held ending) →
    (held = [] ∧ ∃ m : Example, calls = [m.adapterCall]) ∨
      (held.length ≤ 1 ∧ calls = [] ∧ ∀ t, ending = .error t → t = .other)
  adding : ∀ wave file module, s.loading = some (.adding wave file module) → module.held.length ≤ 1
  calls : ∀ wave p, s.passes wave = some p → ∀ m ∈ p.calls, ∃ x : Example, m.call = x.execute
  ended : ∀ x, s.ended = some x → x = .threw .other

section

variable {A : Type} {w : BrainWave A (DynamicModule Plain)}

theorem heldBefore_succ (h : ∀ m ∈ w.modules, m.held.length ≤ 1) (i : Nat) : w.heldBefore (i + 1) ≤ w.heldBefore i + 1 := by
  unfold BrainWave.heldBefore
  rw [List.take_add_one, List.flatMap_append, List.length_append]
  cases hm : w.modules[i]? with
  | none => simp
  | some m => simpa using h m (List.mem_of_getElem? hm)

end

/-- A registration of the two keeps the types. -/
theorem checks_after {B : Blackboard Plain.Value} (h : ∀ k st T, B.typeCheck.lookup k = some (st, T) →
    T = .int ∧ st ≠ .globalProvided) (m : Example) (k : String) (st : TypeState) (T : Plain)
    (hk : (B.after m.registration).typeCheck.lookup k = some (st, T)) : T = .int ∧ st ≠ .globalProvided := by
  have hnew : ∀ st₀, st₀ ≠ TypeState.globalProvided → (B.typeCheck.emplace "test" (st₀, .int)).lookup k = some (st, T) →
      T = .int ∧ st ≠ .globalProvided := by
    intro st₀ hst he
    rw [UnorderedMap.lookup_emplace] at he
    split at he
    · rename_i e
      subst e
      cases hl : B.typeCheck.lookup "test" with
      | none =>
        rw [hl] at he
        obtain ⟨rfl, rfl⟩ := Prod.mk.inj (Option.some.inj he)
        exact ⟨rfl, hst⟩
      | some x =>
        rw [hl] at he
        exact h _ st T (hl.trans he)
    · exact h k st T he
  cases m with
  | reader =>
    simp only [Blackboard.after, Example.registration, Blackboard.register, Comm.Registration.map, Blackboard.registerRequire] at hk
    split at hk
    · split at hk
      · exact h k st T hk
      · split at hk <;> exact h k st T hk
    · exact hnew .requested (by decide) hk
  | writer =>
    simp only [Blackboard.after, Example.registration, Blackboard.register, Comm.Registration.map, Blackboard.registerProvide] at hk
    split at hk
    · split at hk
      · exact h k st T hk
      · exact h k st T hk
      · exact h k st T hk
      · simp only [Comm.accept, UnorderedMap.lookup_insert_if] at hk
        split at hk
        · obtain ⟨rfl, rfl⟩ := Prod.mk.inj (Option.some.inj hk)
          exact ⟨rfl, by decide⟩
        · exact h k st T hk
    · exact hnew .provided (by decide) hk

/-- A constructor that throws, throws its error. -/
theorem ending_other {B : Blackboard Plain.Value} (h : B.Coherent) {m : Example} {t : Thrown} (ht : m.ending B = .error t) :
    t = .other := by
  obtain ⟨past, h⟩ := h
  have hr := (Comm.register_spec h (some .none) m.registration).1
  simp only [Example.ending, hr] at ht
  split at ht
  · cases ht
  · exact (Except.error.inj ht).symm

variable {s : Framework Plain.Value}

theorem Plainly.wellUsed (h : Plainly s) (hi : s.Inv) {t : Turn Plain.Value} (ht : Taken s t) (hv : s.KeepsValid t) :
    s.WellUsed t := by
  refine ⟨?_, hv, ?_⟩
  · cases t with
    | load =>
      intro wave own file c calls held ending hl name d hd
      rcases h.constructing _ _ _ _ _ _ hl with ⟨-, m, hm⟩ | ⟨-, hm, -⟩
      swap
      · cases hm
      obtain ⟨rfl, -⟩ := List.cons.inj hm
      obtain ⟨w, hw⟩ := hi.constructing _ _ _ _ _ _ hl
      obtain ⟨rfl, rfl⟩ : name = wave ∧ d = m.registration := by
        cases m <;> simp only [Example.adapterCall, Brain.onWave] at hd <;> split at hd
        · rename_i e
          exact ⟨e.symm, List.mem_singleton.1 hd⟩
        · cases hd
        · rename_i e
          exact ⟨e.symm, List.mem_singleton.1 hd⟩
        · cases hd
      intro _ st T hT
      have hB := Brain.boardOf_eq hi.brain hw
      have hint := (h.checks own _ st T (by rw [Brain.checkOf, hB]; exact hT)).1
      rw [hint]
      cases m <;> rfl
    | _ => trivial
  · cases t with
    | call wave place a =>
      intro w own p board hw hp ha hloc
      obtain rfl := ht.2 w own p hw hp
      obtain ⟨w', own', hw', -, hok⟩ := hi.passes wave p hp
      obtain ⟨rfl, rfl⟩ := Prod.mk.inj (Option.some.inj (hw.symm.trans hw'))
      refine ⟨fun m hm _ _ _ => ?_, fun T q U _ hge hlt => absurd hge (Nat.not_le.2 hlt)⟩
      have hlt := (hok.made m hm).1
      have := heldBefore_succ (h.modules wave w own hw) p.index
      omega
    | next wave =>
      intro w own p hw hp q board U k hge hlt _ _
      exact ht w own p hw hp q hge hlt
    | _ => trivial

/-! ## Every turn keeps it -/

/-- What leaves the passes alone, gives no key another type and no wave a module. -/
theorem Plainly.same (h : Plainly s) {s' : Framework Plain.Value} (hp : s'.passes = s.passes) (hl : s'.loading = none)
    (he : ∀ x, s'.ended = some x → x = .threw .other)
    (hc : ∀ board k, s'.brain.checkOf board k = s.brain.checkOf board k)
    (hw : ∀ wave w own, s'.brain.waves.lookup wave = some (w, own) →
      w.modules = [] ∨ ∃ w₀, s.brain.waves.lookup wave = some (w₀, own) ∧ w.modules = w₀.modules) : Plainly s' := by
  refine ⟨fun board k st T hk => h.checks board k st T (hc board k ▸ hk), fun wave w own hw' m hm => ?_, ?_, ?_,
    fun wave p hp' => h.calls wave p (hp ▸ hp'), he⟩
  · rcases hw wave w own hw' with hn | ⟨w₀, hw₀, hm₀⟩
    · rw [hn] at hm; cases hm
    · exact h.modules wave w₀ own hw₀ m (hm₀ ▸ hm)
  · rw [hl]
    rintro _ _ _ _ _ _ ⟨⟩
  · rw [hl]
    rintro _ _ _ ⟨⟩

theorem Plainly.createWave (h : Plainly s) (hi : s.Inv) (inputs : List String) : Plainly (s.exit (s.brain.createWave inputs)) := by
  have hb := Brain.createWave_builds hi.brain.coherent inputs
  refine h.same rfl rfl (fun x hx => ?_) (fun board k => ?_) fun wave w own hw => ?_
  · match inputs with
    | [] | [_] | _ :: _ :: _ => cases hx
  · simp only [Framework.exit, Brain.createWave]
    split
    · exact Brain.checkOf_others _ _ _ _
    · rfl
  · rcases hb.fresh wave w own hw with hw | ⟨rfl, -, -⟩
    · exact Or.inr ⟨w, hw, rfl⟩
    · exact Or.inl rfl

theorem Plainly.execute (h : Plainly s) (hi : s.Inv) : Plainly (s.exit s.brain.execute) := by
  refine h.same rfl rfl (fun x hx => ?_) (fun board k => ?_) fun wave w own hw => ?_
  · rcases Brain.execute_startsAllOrNone hi.brain with ⟨hr, -⟩ | hr
    · simp only [Framework.exit, hr] at hx; cases hx
    · simp only [Framework.exit, hr] at hx; cases hx
  · simp only [Framework.exit, Brain.checkOf, Brain.blackboards_execute]
  · simp only [Framework.exit, Brain.execute] at hw
    split at hw
    · rw [UnorderedMap.lookup_mapValues] at hw
      obtain ⟨⟨w₀, own₀⟩, hw₀, e⟩ := Option.map_eq_some_iff.1 hw
      obtain ⟨rfl, rfl⟩ := Prod.mk.inj e
      exact Or.inr ⟨w₀, hw₀, w₀.execute_modules wave⟩
    · exact Or.inr ⟨w, hw, rfl⟩

theorem Plainly.beginLoad (h : Plainly s) (inputs : List String)
    (found : Except String (Library Plain.Value)) (ht : Taken s (.addDynamicModule inputs found)) :
    Plainly (s.beginLoad inputs found) := by
  unfold Framework.beginLoad
  split
  swap
  · exact h
  split
  · exact h
  split
  · rename_i c hc
    obtain ⟨m, hm⟩ := ht c hc
    refine ⟨h.checks, h.modules, fun _ _ _ _ _ _ e => ?_, fun _ _ _ e => (by cases e), h.calls, h.ended⟩
    cases e
    exact Or.inl ⟨rfl, m, hm⟩
  · rename_i hc
    match found with
    | .error message => exact ⟨h.checks, h.modules, h.constructing, h.adding, h.calls, h.ended⟩
    | .ok ⟨.error message, dump⟩ => exact ⟨h.checks, h.modules, h.constructing, h.adding, h.calls, h.ended⟩
    | .ok ⟨.ok c, .error message⟩ => exact ⟨h.checks, h.modules, h.constructing, h.adding, h.calls, h.ended⟩
    | .ok ⟨.ok c, .ok ()⟩ => cases hc

theorem adapterCall_eq (b : Brain Plain.Value) (own : Nat) (m : Example) :
    Brain.adapterCall own b m.adapterCall = b.registerOn own m.registration := by
  cases m <;> rfl

/-- **The constructor of one of the two** registers, and throws its error. -/
theorem Plainly.construct (h : Plainly s) (hi : s.Inv) {wave file : String} {own : Nat} {m : Example}
    {ending : Except Thrown String} (hl : s.loading = some (.constructing wave own file [m.adapterCall] [] ending))
    (ht : Taken s .load) : Plainly { s with
      brain := (Brain.adapterCall own s.brain m.adapterCall).1
      loading := some (.constructing wave own file [] ([] ++ (Brain.adapterCall own s.brain m.adapterCall).2) ending) } := by
  obtain ⟨w, hw⟩ := hi.constructing _ _ _ _ _ _ hl
  have hB := Brain.boardOf_eq hi.brain hw
  have hcoh := hi.brain.coherent own _ hB
  have hb := Brain.adapterCall_builds hi.brain.coherent own m.adapterCall
  rw [adapterCall_eq] at hb ⊢
  refine ⟨fun board k st T hk => ?_, fun name w' own' hw' x hx => ?_, fun _ _ _ _ _ _ e => ?_, fun _ _ _ e => (by cases e),
    h.calls, h.ended⟩
  · have hk : (s.brain.registerOn own m.registration).1.checkOf board k = some (st, T) := hk
    rw [Brain.checkOf_registerOn hi.brain.coherent hB] at hk
    split at hk
    · refine checks_after (fun k st T hT => h.checks own k st T ?_) m _ st T hk
      rw [Brain.checkOf, hB]
      exact hT
    · exact h.checks board k st T hk
  · rcases hb.fresh name w' own' hw' with hw' | ⟨rfl, -, -⟩
    · exact h.modules name w' own' hw' x hx
    · cases hx
  · cases e
    refine Or.inr ⟨?_, rfl, fun t e => ?_⟩
    · rw [List.nil_append, Brain.registerOn_eq hi.brain.coherent hB]
      split <;> simp
    · obtain rfl := ht wave own file m [] ending _ hl hB
      exact ending_other hcoh e

theorem Plainly.give (h : Plainly s) (hi : s.Inv) {wave file : String} {module : DynamicModule Plain}
    (hl : s.loading = some (.adding wave file module)) : Plainly (s.exit (s.brain.giveModule wave file module)) := by
  obtain ⟨w, own, hw⟩ := hi.adding wave file module hl
  have hg : s.brain.giveModule wave file module =
      (.returned 0, { s.brain with waves := s.brain.waves.insert wave (w.pushBack module, own) }) := by
    simp only [Brain.giveModule, hw, BrainWave.addModule_spec (hi.brain.sound wave w own hw)]
    rfl
  rw [hg]
  refine ⟨h.checks, fun name w' own' hw' x hx => ?_, fun _ _ _ _ _ _ e => (by cases e), fun _ _ _ e => (by cases e), h.calls,
    fun _ e => by cases e⟩
  simp only [Framework.exit, UnorderedMap.lookup_insert_if] at hw'
  split at hw'
  · obtain ⟨rfl, rfl⟩ := Prod.mk.inj (Option.some.inj hw')
    rcases List.mem_append.1 hx with hx | hx
    · exact h.modules wave w own hw x hx
    · obtain rfl := List.mem_singleton.1 hx
      exact h.adding wave file _ hl
  · exact h.modules name w' own' hw' x hx

theorem Plainly.load (h : Plainly s) (hi : s.Inv) (ht : Taken s .load) : Plainly s.load := by
  unfold Framework.load
  split
  · exact h
  · rename_i wave own file c calls held ending hl
    rcases h.constructing _ _ _ _ _ _ hl with ⟨rfl, m, hm⟩ | ⟨-, hm, -⟩
    · obtain ⟨rfl, rfl⟩ := List.cons.inj hm
      exact h.construct hi hl ht
    · cases hm
  · rename_i wave own file held name hl
    rcases h.constructing _ _ _ _ _ _ hl with ⟨-, m, hm⟩ | ⟨hlen, -, -⟩
    · cases hm
    · refine ⟨h.checks, h.modules, fun _ _ _ _ _ _ e => (by cases e), fun _ _ _ e => ?_, h.calls, h.ended⟩
      cases e
      exact hlen
  · rename_i t hl
    rcases h.constructing _ _ _ _ _ _ hl with ⟨-, m, hm⟩ | ⟨-, -, hother⟩
    · cases hm
    · obtain rfl := hother t rfl
      refine h.same rfl rfl (fun x e => ?_) (fun _ _ => rfl) fun wave w own hw => Or.inr ⟨w, hw, rfl⟩
      exact (Option.some.inj e).symm
  · rename_i wave file module hl
    split
    · exact h
    · exact h.give hi hl

theorem Plainly.call (h : Plainly s) {wave : String} {place : Nat} {a : AccessorCall Plain.Value}
    (ht : Taken s (.call wave place a)) (hok : (s.call wave place a).ended = none) : Plainly (s.call wave place a) := by
  unfold Framework.call at hok ⊢
  split
  swap
  · exact h
  rename_i w own p hw hp
  split
  · exact h
  rename_i board accessor ha
  split
  swap
  · exact h
  rename_i hplace
  split
  · exact h
  rename_i B hB
  split
  · rename_i e hfail
    simp only [hw, hp, ha, if_pos hplace, hB, hfail] at hok
    cases hok
  refine ⟨fun board' k st T hk => ?_, h.modules, h.constructing, h.adding, fun other p' hp' m hm => ?_, h.ended⟩
  · exact h.checks board' k st T ((Brain.checkOf_perform s.brain board a board' k).symm.trans hk)
  · simp only [Function.update_apply] at hp'
    split at hp'
    · obtain rfl := Option.some.inj hp'
      rcases List.mem_append.1 hm with hm | hm
      · exact h.calls wave p hp m hm
      · obtain rfl := List.mem_singleton.1 hm
        exact ht.1
    · exact h.calls other p' hp' m hm

/-- A pass that begins, or goes on. -/
theorem Plainly.setPass (h : Plainly s) {wave : String} {p : Option (Pass Plain.Value)}
    (hp : ∀ p', p = some p' → ∀ m ∈ p'.calls, ∃ x : Example, m.call = x.execute) :
    Plainly { s with passes := Function.update s.passes wave p } := by
  refine ⟨h.checks, h.modules, h.constructing, h.adding, fun other p' hp' => ?_, h.ended⟩
  simp only [Function.update_apply] at hp'
  split at hp'
  · exact hp p' hp'
  · exact h.calls other p' hp'

theorem Plainly.pass (h : Plainly s) (wave : String) : Plainly (s.pass wave) := by
  unfold Framework.pass
  split
  · split
    · refine h.setPass fun p' e m hm => ?_
      obtain rfl := Option.some.inj e
      cases hm
    · exact h
  · exact h

theorem Plainly.next (h : Plainly s) (wave : String) : Plainly (s.next wave) := by
  unfold Framework.next
  split
  · rename_i w own p hw hp
    refine h.setPass fun p' e => ?_
    split at e
    · obtain rfl := Option.some.inj e
      exact h.calls wave p hp
    · cases e
  · exact h

theorem Plainly.step (h : Plainly s) (hi : s.Inv) (he : s.ended = none) {t : Turn Plain.Value} (ht : Taken s t)
    (hu : s.WellUsed t) : Plainly (s.step t) := by
  simp only [Framework.step, he]
  cases t with
  | createWave inputs =>
    simp only
    split
    · exact h
    · exact h.createWave hi inputs
  | execute inputs =>
    simp only
    split
    · exact h
    · exact h.execute hi
  | addDynamicModule inputs found =>
    simp only
    split
    · exact h
    · exact h.beginLoad inputs found ht
  | load => exact h.load hi ht
  | pass wave => exact h.pass wave
  | call wave place a => exact h.call ht (hi.call he hu.order).2
  | next wave => exact h.next wave

theorem plainly_new : Plainly Framework.new := by
  refine ⟨fun _ _ _ _ h => ?_, fun _ _ _ h => ?_, fun _ _ _ _ _ _ h => ?_, fun _ _ _ h => ?_, fun _ _ h => ?_, fun _ h => ?_⟩
  all_goals cases h

/-! ## Whole runs -/

/-- What the modules do, and what is asked of the user. -/
def RunOf (turns : List (Turn Plain.Value)) : Prop :=
  Runs.AtEvery (fun pre t => Taken (Framework.after pre) t ∧ (Framework.after pre).KeepsValid t) turns

/-- **The two modules keep to what is asked of modules**, so the framework goes on in order. -/
theorem RunOf.holds {turns : List (Turn Plain.Value)} (h : RunOf turns) :
    (Framework.after turns).Holds ∧ Plainly (Framework.after turns) := by
  induction turns using List.reverseRecOn with
  | nil => exact ⟨Framework.holds_new, plainly_new⟩
  | append_singleton turns t ih =>
    obtain ⟨hpre, ht, hv⟩ := Runs.atEvery_snoc.1 h
    obtain ⟨hholds, hplain⟩ := ih hpre
    rw [Framework.after, Runs.run_snoc]
    rcases hholds with ⟨hi, he⟩ | ⟨e, he⟩
    · have hu := hplain.wellUsed hi ht hv
      exact ⟨Framework.Holds.step (Or.inl ⟨hi, he⟩) hu, hplain.step hi he ht hu⟩
    · have hsame : (Framework.after turns).step t = Framework.after turns := by simp only [Framework.step, he]
      exact ⟨hsame.symm ▸ Or.inr ⟨e, he⟩, hsame.symm ▸ hplain⟩

/-- A Reader of a running wave reads what a Writer stored in the same pass. -/
theorem Plainly.reads (h : Plainly s) (hi : s.Inv) {wave : String} {w : BrainWave String (DynamicModule Plain)} {own board : Nat}
    {p : Pass Plain.Value} (hw : s.brain.waves.lookup wave = some (w, own)) (hp : s.passes wave = some p)
    (ha : w.accessors[w.heldBefore p.index]? = some (board, Example.reader.execute.accessor))
    (hu : s.KeepsOrder (.call wave (w.heldBefore p.index) Example.reader.execute)) :
    ∃ B, s.brain.blackboards.at? board = some B ∧ (makeRequireFunction Plain.int "test").call B = .ok (5 : Int) := by
  obtain ⟨w', own', hw', hrun, -⟩ := hi.passes wave p hp
  obtain ⟨rfl, rfl⟩ := Prod.mk.inj (Option.some.inj (hw.symm.trans hw'))
  have hx := List.mem_of_getElem? ha
  have hback := hi.wired.backs wave _ (Framework.mem_held hw hx)
  obtain ⟨v, hstored, hread⟩ := hi.reads hw hp ha le_rfl hu
  -- the key is provided, for a wave with the request runs, and nothing is provided globally
  have hloc : s.brain.Locally board "test" := by
    cases hc : s.brain.checkOf board "test" with
    | none => exact absurd hc (Brain.checkOf_of_backs hi.brain.coherent hback)
    | some x =>
      obtain ⟨st, T⟩ := x
      cases st with
      | requested => exact absurd hc (hi.valid wave w own hw hrun _ hx T)
      | provided => exact ⟨T, hc⟩
      | globalProvided => exact absurd rfl (h.checks board "test" _ T hc).2
  obtain ⟨m, hlast, hm, -⟩ := hread hloc
  obtain ⟨x, hexec⟩ := h.calls wave p hp m (Pass.lastOn_mem hlast).1
  obtain rfl : v = (5 : Int) := by
    rw [hm] at hexec
    cases x with
    | reader => cases hexec
    | writer =>
      cases hexec
      rfl
  obtain ⟨B, hB, -⟩ := hback
  rw [Brain.stored, hB] at hstored
  exact ⟨B, hB, Comm.RequireFunction.call_eq_ok.2 (Option.join_eq_some_iff.1 hstored)⟩

/-- **A Reader reads 5**, and no thread of a wave ends the process: only a constructor can, by the error it throws when
`"test"` was requested before it was provided. -/
theorem reader_reads_five (turns : List (Turn Plain.Value)) (h : RunOf turns) :
    ((Framework.after turns).ended = none ∨ (Framework.after turns).ended = some (.threw .other)) ∧
      Runs.AtEvery (fun pre t => ∀ wave place, t = .call wave place Example.reader.execute →
        (Framework.after pre).ended = none → ∀ w own p board, (Framework.after pre).brain.waves.lookup wave = some (w, own) →
          (Framework.after pre).passes wave = some p →
            w.accessors[place]? = some (board, Example.reader.execute.accessor) →
              ∃ B, (Framework.after pre).brain.blackboards.at? board = some B ∧
                (makeRequireFunction Plain.int "test").call B = .ok (5 : Int)) turns := by
  refine ⟨?_, ?_⟩
  · cases he : (Framework.after turns).ended with
    | none => exact Or.inl rfl
    | some x => exact Or.inr (congrArg some (h.holds.2.ended x he))
  rintro pre t post rfl wave place rfl he w own p board hw hp ha
  obtain ⟨hholds, hplain⟩ := RunOf.holds (Runs.AtEvery.of_append h)
  obtain ⟨ht, hv⟩ := h pre _ post rfl
  obtain rfl := ht.2 w own p hw hp
  rcases hholds with ⟨hi, -⟩ | ⟨t, hthrew⟩
  · exact hplain.reads hi hw hp ha (hplain.wellUsed hi ht hv).order
  · rw [hthrew] at he
    cases he

/-- A Writer and a Reader are loaded into a wave, and executed. -/
def playing : List (Turn Plain.Value) :=
  [.createWave ["create", "wave"],
    .addDynamicModule ["add", "wave", "Writer.so"] (.ok ⟨.ok ⟨[Example.writer.adapterCall], .ok "Writer"⟩, .ok ()⟩),
    .load, .load, .load,
    .addDynamicModule ["add", "wave", "Reader.so"] (.ok ⟨.ok ⟨[Example.reader.adapterCall], .ok "Reader"⟩, .ok ()⟩),
    .load, .load, .load, .execute [], .pass "wave", .call "wave" 0 Example.writer.execute, .next "wave",
    .call "wave" 1 Example.reader.execute]

theorem playing_run : RunOf playing := by
  simp only [RunOf, playing, Runs.atEvery_cons, Runs.atEvery_nil, and_true]
  refine ⟨⟨trivial, trivial⟩, ⟨?_, trivial⟩, ⟨?_, ?_⟩, ⟨?_, ?_⟩, ⟨?_, ?_⟩, ⟨?_, trivial⟩, ⟨?_, ?_⟩, ⟨?_, ?_⟩, ⟨?_, ?_⟩,
    ⟨trivial, trivial⟩, ⟨trivial, trivial⟩, ⟨⟨⟨.writer, rfl⟩, ?_⟩, trivial⟩, ⟨?_, trivial⟩, ⟨⟨.reader, rfl⟩, ?_⟩, trivial⟩
  · rintro c ⟨⟩
    exact ⟨.writer, rfl⟩
  · rintro _ _ _ (_ | _) _ _ _ hl hB <;> cases hl
    cases hB
    rfl
  · rintro _ _ _ _ _ ⟨⟩
  · rintro _ _ _ _ _ _ _ ⟨⟩
  · rintro _ _ _ _ _ ⟨⟩
  · rintro _ _ _ _ _ _ _ ⟨⟩
  · rintro _ _ _ _ _ ⟨⟩ ⟨⟩ ⟨⟩
  · rintro c ⟨⟩
    exact ⟨.reader, rfl⟩
  · rintro _ _ _ (_ | _) _ _ _ hl hB <;> cases hl
    cases hB
    rfl
  · rintro _ _ _ _ _ ⟨⟩
  · rintro _ _ _ _ _ _ _ ⟨⟩
  · rintro _ _ _ _ _ ⟨⟩
  · rintro _ _ _ _ _ _ _ ⟨⟩
  · rintro _ _ _ _ _ ⟨⟩ ⟨⟩ ⟨⟩
  · rintro _ _ _ ⟨⟩ ⟨⟩
    rfl
  · rintro _ _ _ ⟨⟩ ⟨⟩ q - hlt
    exact ⟨_, List.mem_cons_self, (Nat.lt_one_iff.1 hlt).symm⟩
  · rintro _ _ _ ⟨⟩ ⟨⟩
    rfl

theorem reader_reads_five_playing :
    ((Framework.after playing).ended = none ∨ (Framework.after playing).ended = some (.threw .other)) ∧
      Runs.AtEvery (fun pre t => ∀ wave place, t = .call wave place Example.reader.execute →
        (Framework.after pre).ended = none → ∀ w own p board, (Framework.after pre).brain.waves.lookup wave = some (w, own) →
          (Framework.after pre).passes wave = some p →
            w.accessors[place]? = some (board, Example.reader.execute.accessor) →
              ∃ B, (Framework.after pre).brain.blackboards.at? board = some B ∧
                (makeRequireFunction Plain.int "test").call B = .ok (5 : Int)) playing :=
  reader_reads_five playing playing_run

end ModuleExamples
end NaoFramework
