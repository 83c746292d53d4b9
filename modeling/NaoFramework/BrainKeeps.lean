import NaoFramework.Brain
import NaoFramework.BoardGrowth
/-!
# BrainKeeps — what every command keeps

The calls a constructor makes only add (`Builds`): Blackboards grow, waves stay as they are, and new waves are empty.
`addDynamicModule_result` says once what a load can do; from it, and from the other commands, every input of a Brain's
life keeps the invariant (`Inv`): flags and threads of the waves agree, every wave has its Blackboard, and every
Blackboard backs the accessors held on it.
-/
namespace NaoFramework
namespace Core
namespace Brain

open Comm (Blackboard Call Accessor AccessorCall Registration)
open Modules (Thrown AdapterCall Construction Library LoaderEvent DynamicModule constructionOf)

variable {Ty : Type} {Val : Ty → Type}

def OnBoard (b : Brain Val) (board : Nat) (k : String) : Prop :=
  ∃ blackboard, b.blackboards.at? board = some blackboard ∧ k ∈ blackboard.board

/-- The Blackboard an accessor points to backs it. -/
def Backs (b : Brain Val) (h : Nat × Accessor Ty) : Prop :=
  ∃ blackboard, b.blackboards.at? h.1 = some blackboard ∧ blackboard.Backs h.2

def Coherent (b : Brain Val) : Prop := ∀ board blackboard, b.blackboards.at? board = some blackboard → blackboard.Coherent

structure Inv (b : Brain Val) : Prop where
  coherent : b.Coherent
  board : ∀ k w board, b.waves.lookup k = some (w, board) → ∃ blackboard, b.blackboards.at? board = some blackboard
  sound : ∀ k w board, b.waves.lookup k = some (w, board) → w.Sound k
  held : ∀ k w board, b.waves.lookup k = some (w, board) → ∀ m ∈ w.modules, ∀ h ∈ m.held, b.Backs h

/-- **What can be built**: every Blackboard grows, every wave stays, and a new wave is empty and has a new
Blackboard. -/
structure Builds (b b' : Brain Val) : Prop where
  grows : ∀ board blackboard, b.blackboards.at? board = some blackboard →
    ∃ blackboard', b'.blackboards.at? board = some blackboard' ∧ blackboard.Grows blackboard'
  coherent : b'.Coherent
  waves : ∀ k x, b.waves.lookup k = some x → b'.waves.lookup k = some x
  fresh : ∀ k w board, b'.waves.lookup k = some (w, board) → b.waves.lookup k = some (w, board) ∨
    (w = .new k ∧ b.blackboards.at? board = none ∧ ∃ blackboard, b'.blackboards.at? board = some blackboard)
  loader : b'.loader = b.loader

variable {b b' : Brain Val}

theorem Builds.refl (h : b.Coherent) : b.Builds b :=
  ⟨fun _ B hB => ⟨B, hB, .refl B⟩, h, fun _ _ h => h, fun _ _ _ h => Or.inl h, rfl⟩

theorem Builds.trans {b'' : Brain Val} (h : b.Builds b') (h' : b'.Builds b'') : b.Builds b'' where
  grows board B hB := by
    obtain ⟨B', hB', hg⟩ := h.grows board B hB
    obtain ⟨B'', hB'', hg'⟩ := h'.grows board B' hB'
    exact ⟨B'', hB'', hg.trans hg'⟩
  coherent := h'.coherent
  waves k x hx := h'.waves k x (h.waves k x hx)
  fresh k w board hw := by
    rcases h'.fresh k w board hw with hw' | ⟨rfl, hn, hB⟩
    · rcases h.fresh k w board hw' with hw'' | ⟨rfl, hn, B, hB⟩
      · exact Or.inl hw''
      · obtain ⟨B', hB', -⟩ := h'.grows board B hB
        exact Or.inr ⟨rfl, hn, B', hB'⟩
    · refine Or.inr ⟨rfl, ?_, hB⟩
      cases hb : b.blackboards.at? board with
      | none => rfl
      | some B =>
        obtain ⟨B', hB', -⟩ := h.grows board B hb
        rw [hn] at hB'; cases hB'
  loader := h'.loader.trans h.loader

theorem Builds.backs (h : b.Builds b') {x : Nat × Accessor Ty} (hx : b.Backs x) : b'.Backs x := by
  obtain ⟨B, hB, ha⟩ := hx
  obtain ⟨B', hB', hg⟩ := h.grows _ B hB
  exact ⟨B', hB', hg.backs ha⟩

theorem Builds.onBoard (h : b.Builds b') {board : Nat} {k : String} (hk : b.OnBoard board k) : b'.OnBoard board k := by
  obtain ⟨B, hB, hk⟩ := hk
  obtain ⟨B', hB', hg⟩ := h.grows _ B hB
  exact ⟨B', hB', hg.board k hk⟩

/-- **Building keeps the invariant.** -/
theorem Builds.inv (h : b.Builds b') (hi : b.Inv) : b'.Inv where
  coherent := h.coherent
  board k w board hw := by
    rcases h.fresh k w board hw with hw | ⟨-, -, hB⟩
    · obtain ⟨B, hB⟩ := hi.board k w board hw
      obtain ⟨B', hB', -⟩ := h.grows board B hB
      exact ⟨B', hB'⟩
    · exact hB
  sound k w board hw := by
    rcases h.fresh k w board hw with hw | ⟨rfl, -, -⟩
    · exact hi.sound k w board hw
    · rfl
  held k w board hw m hm x hx := by
    rcases h.fresh k w board hw with hw | ⟨rfl, -, -⟩
    · exact h.backs (hi.held k w board hw m hm x hx)
    · cases hm

/-! ## Building -/

theorem makeWave_builds (h : b.Coherent) {key : String} (hk : key ∉ b.waves) : b.Builds (b.makeWave key) where
  grows board B hB := by
    refine ⟨B, ?_, .refl B⟩
    simp only [makeWave, NodeList.at?_emplaceFront]
    rw [if_neg (Nat.ne_of_lt (NodeList.lt_of_at? hB)), hB]
  coherent board B hB := by
    simp only [makeWave, NodeList.at?_emplaceFront] at hB
    split at hB
    · obtain rfl := Option.some.inj hB
      exact Blackboard.coherent_new key
    · exact h board B hB
  waves k x hx := by
    simp only [makeWave, UnorderedMap.lookup_emplace]
    rw [if_neg, hx]
    rintro rfl
    rw [AList.lookup_eq_none.2 hk] at hx; cases hx
  fresh k w board hw := by
    simp only [makeWave, UnorderedMap.lookup_emplace, AList.lookup_eq_none.2 hk, Option.getD_none] at hw
    split at hw
    · rename_i e
      obtain ⟨rfl, rfl⟩ := Prod.mk.inj (Option.some.inj hw)
      refine Or.inr ⟨by rw [e], NodeList.at?_length _, Blackboard.new key, ?_⟩
      simp only [makeWave, NodeList.begin_emplaceFront, NodeList.at?_emplaceFront, if_true]
    · exact Or.inl hw
  loader := rfl

/-- A wave is made unless it exists. -/
theorem ensure_builds (h : b.Coherent) (key : String) : b.Builds (if b.waveExists key then b else b.makeWave key) := by
  split
  · exact .refl h
  · rename_i hk
    exact makeWave_builds h (by simpa [waveExists] using hk)

theorem others_builds (h : b.Coherent) (key : String) : b.Builds (b.others key).1 := ensure_builds h key

/-- One Blackboard grows in place. -/
theorem modifyAt_builds (h : b.Coherent) {board : Nat} {f : Blackboard Val → Blackboard Val}
    (hf : ∀ B, b.blackboards.at? board = some B → (f B).Coherent ∧ B.Grows (f B)) :
    b.Builds { b with blackboards := b.blackboards.modifyAt board f } where
  grows board' B hB := by
    simp only [NodeList.at?_modifyAt, hB]
    split
    · rename_i e
      exact ⟨f B, rfl, (hf B (e ▸ hB)).2⟩
    · exact ⟨B, rfl, .refl B⟩
  coherent board' B hB := by
    rw [NodeList.at?_modifyAt] at hB
    split at hB
    · rename_i e
      obtain ⟨B₀, hB₀, rfl⟩ := Option.map_eq_some_iff.1 hB
      exact (hf B₀ (e ▸ hB₀)).1
    · exact h board' B hB
  waves _ _ hx := hx
  fresh _ _ _ hw := Or.inl hw
  loader := rfl

variable [DecidableEq Ty]

theorem registerOn_builds (h : b.Coherent) (board : Nat) (c : Call Val) : b.Builds (b.registerOn board c).1 := by
  unfold registerOn
  split
  · rename_i B hB
    refine modifyAt_builds h (fun B' hB' => ?_)
    obtain rfl : B = B' := Option.some.inj (hB.symm.trans hB')
    exact ⟨((h board B hB).register none c).1, ((h board B hB).register none c).2.1⟩
  · exact .refl h

theorem backs_registerOn (h : b.Coherent) (board : Nat) (c : Call Val) :
    ∀ x ∈ (b.registerOn board c).2, (b.registerOn board c).1.Backs x := by
  unfold registerOn
  split
  · rename_i B hB
    intro x hx
    obtain ⟨a, ha, rfl⟩ := List.mem_map.1 hx
    exact ⟨_, by simp only [NodeList.at?_modifyAt, if_true, hB, Option.map_some],
      ((h board B hB).register none c).2.2 a ha⟩
  · intro x hx; cases hx

theorem adapterCall_builds (h : b.Coherent) (own : Nat) (c : AdapterCall Val) : b.Builds (adapterCall own b c).1 := by
  cases c with
  | require T k => exact registerOn_builds h own _
  | provide T k => exact registerOn_builds h own _
  | globalProvide T k v => exact registerOn_builds h own _
  | others wave => exact others_builds h wave
  | globalRequire wave T k =>
    have ho := others_builds h wave
    simp only [adapterCall]
    split
    · exact ho.trans (registerOn_builds ho.coherent _ _)
    · exact ho

theorem backs_adapterCall (h : b.Coherent) (own : Nat) (c : AdapterCall Val) :
    ∀ x ∈ (adapterCall own b c).2, (adapterCall own b c).1.Backs x := by
  cases c with
  | require T k => exact backs_registerOn h own _
  | provide T k => exact backs_registerOn h own _
  | globalProvide T k v => exact backs_registerOn h own _
  | others wave => intro x hx; cases hx
  | globalRequire wave T k =>
    simp only [adapterCall]
    split
    · exact backs_registerOn (others_builds h wave).coherent _ _
    · intro x hx; cases hx

/-- **A constructor builds**, and every accessor it is handed is backed. -/
theorem construct_builds (own : Nat) : ∀ (cs : List (AdapterCall Val)) (b : Brain Val), b.Coherent →
    b.Builds (construct own b cs).1 ∧ ∀ x ∈ (construct own b cs).2, (construct own b cs).1.Backs x
  | [], b, h => ⟨.refl h, fun x hx => by cases hx⟩
  | c :: cs, b, h => by
    have hc := adapterCall_builds h own c
    obtain ⟨hcs, hb⟩ := construct_builds own cs (adapterCall own b c).1 hc.coherent
    refine ⟨hc.trans hcs, fun x hx => ?_⟩
    rcases List.mem_append.1 hx with hx | hx
    · exact hcs.backs (backs_adapterCall h own c x hx)
    · exact hb x hx

/-! ## Loads -/

omit [DecidableEq Ty] in
theorem Inv.logEvent (h : b.Inv) (e : LoaderEvent) : (b.logEvent e).Inv := ⟨h.coherent, h.board, h.sound, h.held⟩

omit [DecidableEq Ty] in
/-- A wave replaced by one that is sound and holds accessors that are backed. -/
theorem Inv.setWave (h : b.Inv) {k : String} {w w' : BrainWave String (DynamicModule Ty)} {board : Nat}
    (hw : b.waves.lookup k = some (w, board)) (hs : w'.Sound k) (hb : ∀ m ∈ w'.modules, ∀ x ∈ m.held, b.Backs x) :
    Inv { b with waves := b.waves.insert k (w', board) } where
  coherent := h.coherent
  board k' w₀ board' hw₀ := by
    rw [UnorderedMap.lookup_insert_if] at hw₀
    split at hw₀
    · obtain ⟨-, rfl⟩ := Prod.mk.inj (Option.some.inj hw₀)
      exact h.board k w board hw
    · exact h.board k' w₀ board' hw₀
  sound k' w₀ board' hw₀ := by
    rw [UnorderedMap.lookup_insert_if] at hw₀
    split at hw₀
    · rename_i e
      obtain ⟨rfl, -⟩ := Prod.mk.inj (Option.some.inj hw₀)
      exact e ▸ hs
    · exact h.sound k' w₀ board' hw₀
  held k' w₀ board' hw₀ := by
    rw [UnorderedMap.lookup_insert_if] at hw₀
    split at hw₀
    · obtain ⟨rfl, -⟩ := Prod.mk.inj (Option.some.inj hw₀)
      exact hb
    · exact h.held k' w₀ board' hw₀

/-- The Brain when the constructor has made its calls, and the accessors it was handed. -/
def built (b : Brain Val) (own : Nat) (file : String) (c : Construction Val) : Brain Val × List (Nat × Accessor Ty) :=
  construct own (b.logEvent (.opened file)) c.calls

/-- **What a load can do**: nothing, at most opening and closing the library; run a constructor that throws; or run one
that returns, and append the module to the wave. -/
inductive LoadResult (b : Brain Val) (found : Except String (Library Val)) : List String → Exit × Brain Val → Prop where
  | unusable (inputs : List String) (h : inputs.length < 3 ∨ ∀ wave, inputs[1]? = some wave → wave ∉ b.waves) :
      LoadResult b found inputs (.returned 1, b)
  | refused (command wave file : String) (more : List String) (events : List LoaderEvent)
      (hn : constructionOf found = none) (he : events = [] ∨ events = [.opened file, .closed file]) :
      LoadResult b found (command :: wave :: file :: more) (.returned 1, { b with loader := b.loader ++ events })
  | threw (command wave file : String) (more : List String) (w : BrainWave String (DynamicModule Ty)) (own : Nat)
      (c : Construction Val) (t : Thrown) (hw : b.waves.lookup wave = some (w, own))
      (hc : constructionOf found = some c) (ht : c.ending = .error t) :
      LoadResult b found (command :: wave :: file :: more)
        (.threw (t.asException.getD t),
          if t.asException.isSome then (b.built own file c).1.logEvent (.closed file) else (b.built own file c).1)
  | loaded (command wave file : String) (more : List String) (w : BrainWave String (DynamicModule Ty)) (own : Nat)
      (c : Construction Val) (name : String) (hw : b.waves.lookup wave = some (w, own))
      (hc : constructionOf found = some c) (ht : c.ending = .ok name) :
      LoadResult b found (command :: wave :: file :: more)
        (.returned 0, { (b.built own file c).1 with
          waves := (b.built own file c).1.waves.insert wave
            (w.pushBack ⟨"Dynamic" ++ name, file, (b.built own file c).2⟩, own) })

omit [DecidableEq Ty] in
/-- A load with all its words is unusable only for the wave it names. -/
theorem notMem_of_unusable {command wave file : String} {more : List String}
    (h : (command :: wave :: file :: more).length < 3 ∨
      ∀ wave', (command :: wave :: file :: more)[1]? = some wave' → wave' ∉ b.waves) : wave ∉ b.waves := by
  rcases h with hlen | hno
  · simp only [List.length_cons] at hlen
    omega
  · exact hno wave rfl

theorem built_builds (h : b.Inv) (own : Nat) (file : String) (c : Construction Val) :
    (b.logEvent (.opened file)).Builds (b.built own file c).1 ∧
      ∀ x ∈ (b.built own file c).2, (b.built own file c).1.Backs x :=
  construct_builds own c.calls _ (h.logEvent _).coherent

theorem addDynamicModule_result (h : b.Inv) (inputs : List String) (found : Except String (Library Val)) :
    LoadResult b found inputs (b.addDynamicModule inputs found) := by
  match inputs with
  | [] | [_] | [_, _] => exact .unusable _ (Or.inl (by simp))
  | command :: wave :: file :: more =>
    simp only [addDynamicModule]
    cases hw : b.waves.lookup wave with
    | none => exact .unusable _ (Or.inr (by rintro w ⟨⟩; exact AList.lookup_eq_none.1 hw))
    | some p =>
      obtain ⟨w, own⟩ := p
      have hevents : (b.logEvent (.opened file)).logEvent (.closed file) =
          { b with loader := b.loader ++ [.opened file, .closed file] } := by simp [logEvent]
      match found with
      | .error message =>
        have hr : LoadResult b (.error message) (command :: wave :: file :: more) (.returned 1, _) :=
          .refused command wave file more [] rfl (Or.inl rfl)
        simpa [makeDynamicModule] using hr
      | .ok ⟨.error message, dump⟩ =>
        simp only [makeDynamicModule, hevents]
        exact .refused command wave file more _ rfl (Or.inr rfl)
      | .ok ⟨.ok c, .error message⟩ =>
        simp only [makeDynamicModule, hevents]
        exact .refused command wave file more _ rfl (Or.inr rfl)
      | .ok ⟨.ok c, .ok ()⟩ =>
        simp only [makeDynamicModule]
        cases ht : c.ending with
        | error t =>
          have hr : LoadResult b (.ok ⟨.ok c, .ok ()⟩) (command :: wave :: file :: more) _ :=
            .threw command wave file more w own c t hw rfl ht
          cases t <;> exact hr
        | ok name =>
          have hb := (built_builds h own file c).1
          have hw' : (b.built own file c).1.waves.lookup wave = some (w, own) := hb.waves wave _ hw
          have hs : w.Sound wave := h.sound wave w own hw
          simp only [built] at hw'
          simp only [hw', BrainWave.addModule_spec hs]
          exact .loaded command wave file more w own c name hw rfl ht

/-! ## The invariant -/

omit [DecidableEq Ty] in
theorem blackboards_execute (b : Brain Val) : b.execute.2.blackboards = b.blackboards := by
  unfold execute
  split <;> rfl

omit [DecidableEq Ty] in
theorem loader_execute (b : Brain Val) : b.execute.2.loader = b.loader := by
  unfold execute
  split <;> rfl

omit [DecidableEq Ty] in
/-- A wave of the Brain after `execute`: the same, and running. -/
theorem lookup_execute (h : b.Inv) {k : String} {w : BrainWave String (DynamicModule Ty)} {board : Nat}
    (hw : b.execute.2.waves.lookup k = some (w, board)) :
    b.waves.lookup k = some (w, board) ∨
      (b.blackboards.all Blackboard.validateGlobals = true ∧ ∃ w₀, b.waves.lookup k = some (w₀, board) ∧
        w = { w₀ with running := true, wave := some k }) := by
  unfold execute at hw
  split at hw
  · rename_i hv
    rw [UnorderedMap.lookup_mapValues] at hw
    obtain ⟨⟨w₀, board₀⟩, hw₀, he⟩ := Option.map_eq_some_iff.1 hw
    rw [BrainWave.execute_spec (h.sound k w₀ board₀ hw₀)] at he
    obtain ⟨rfl, rfl⟩ := Prod.mk.inj he
    exact Or.inr ⟨hv, w₀, hw₀, rfl⟩
  · exact Or.inl hw

omit [DecidableEq Ty] in
theorem execute_inv (h : b.Inv) : b.execute.2.Inv := by
  refine ⟨by rw [Coherent, blackboards_execute]; exact h.coherent, fun k w board hw => ?_, fun k w board hw => ?_,
    fun k w board hw m hm x hx => ?_⟩
  · rw [blackboards_execute]
    rcases lookup_execute h hw with hw | ⟨-, w₀, hw₀, -⟩
    · exact h.board k w board hw
    · exact h.board k w₀ board hw₀
  · rcases lookup_execute h hw with hw | ⟨-, w₀, hw₀, rfl⟩
    · exact h.sound k w board hw
    · rfl
  · rw [Backs, blackboards_execute]
    rcases lookup_execute h hw with hw | ⟨-, w₀, hw₀, rfl⟩
    · exact h.held k w board hw m hm x hx
    · exact h.held k w₀ board hw₀ m hm x hx

omit [DecidableEq Ty] in
theorem createWave_builds (h : b.Coherent) (inputs : List String) : b.Builds (b.createWave inputs).2 := by
  unfold createWave
  split
  · exact ensure_builds h _
  · exact .refl h

theorem addDynamicModule_inv (h : b.Inv) (inputs : List String) (found : Except String (Library Val)) :
    (b.addDynamicModule inputs found).2.Inv := by
  have hr := addDynamicModule_result h inputs found
  generalize b.addDynamicModule inputs found = r at hr ⊢
  cases hr with
  | unusable => exact h
  | refused => exact ⟨h.coherent, h.board, h.sound, h.held⟩
  | threw command wave file more w own c t hw hc ht =>
    have hi := (built_builds h own file c).1.inv (h.logEvent _)
    split
    · exact hi.logEvent _
    · exact hi
  | loaded command wave file more w own c name hw hc ht =>
    obtain ⟨hb, hbacks⟩ := built_builds h own file c
    refine (hb.inv (h.logEvent _)).setWave (hb.waves wave _ hw) ?_ (fun m hm x hx => ?_)
    · exact h.sound wave w own hw
    · rcases List.mem_append.1 hm with hm | hm
      · exact hb.backs (h.held wave w own hw m hm x hx)
      · obtain rfl := List.mem_singleton.1 hm
        exact hbacks x hx

/-- An accessor that a running wave's module holds. -/
theorem held_of_heldRunning {x : Nat × Accessor Ty} (hx : b.heldRunning x = true) :
    ∃ k w board m, b.waves.lookup k = some (w, board) ∧ w.isRunning = true ∧ m ∈ w.modules ∧ x ∈ m.held := by
  by_contra hn
  have hall : (b.waves.all fun _ p => !(p.1.isRunning && p.1.modules.any fun m => decide (x ∈ m.held))) = true := by
    rw [UnorderedMap.all_iff]
    rintro k ⟨w, board⟩ hw
    by_contra hc
    simp only [Bool.not_eq_true', Bool.not_eq_false, Bool.and_eq_true, List.any_eq_true, decide_eq_true_eq] at hc
    obtain ⟨hr, m, hm, hxm⟩ := hc
    exact hn ⟨k, w, board, m, hw, hr, hm, hxm⟩
  rw [heldRunning, hall] at hx
  cases hx

theorem call_builds (h : b.Inv) (board : Nat) (a : AccessorCall Val) : b.Builds (b.step (.call board a)) := by
  simp only [step]
  split
  · rename_i hx
    obtain ⟨k, w, board', m, hw, -, hm, hxm⟩ := held_of_heldRunning hx
    obtain ⟨B, hB, hback⟩ := h.held k w board' hw m hm _ hxm
    refine modifyAt_builds h.coherent (fun B' hB' => ?_)
    obtain rfl : B = B' := Option.some.inj (hB.symm.trans hB')
    exact (h.coherent board B hB).perform hback
  · exact .refl h.coherent

/-- **The step lemma.** -/
theorem step_inv (h : b.Inv) (i : Input Val) : (b.step i).Inv := by
  cases i with
  | call board a => exact (call_builds h board a).inv h
  | command c =>
    cases c with
    | createWave inputs => exact (createWave_builds h.coherent inputs).inv h
    | addDynamicModule inputs found => exact addDynamicModule_inv h inputs found
    | execute inputs => exact execute_inv h

theorem after_inv (inputs : List (Input Val)) : (after inputs).Inv := by
  have h0 : (new : Brain Val).Inv :=
    ⟨fun _ _ h => (by cases h), fun _ _ _ h => (by cases h), fun _ _ _ h => (by cases h), fun _ _ _ h => (by cases h)⟩
  have hstep : ∀ (b : Brain Val) i, b.Inv → (b.step i).Inv := fun b i h => step_inv h i
  exact Runs.run_invariant hstep inputs _ h0

end Brain
end Core
end NaoFramework
