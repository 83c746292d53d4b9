import NaoFramework.BrainKeeps
/-!
# BrainBoards — every wave has its Blackboard

`makeWave` puts a Blackboard at the front of one container and its iterator into the other, and it is come back to from
the constructor of a module that is being loaded.  The two containers correspond one to one all the same (`OneToOne`),
a name keeps its Blackboard for ever, and `execute`, which asks the Blackboards, starts all waves or none
(`correspondence`).
-/
namespace NaoFramework
namespace Core
namespace Brain

open Comm (Blackboard Call Accessor AccessorCall Registration RegistrationError)
open Modules (AdapterCall Construction Library LoaderEvent DynamicModule)

variable {Ty : Type} {Val : Ty → Type}

/-- **Waves and Blackboards correspond**: as many of the one as of the other, and the iterator stored with the wave of a
name, itself of that name, points to a Blackboard of that name. -/
structure OneToOne (b : Brain Val) : Prop where
  size : b.waves.size = b.blackboards.length
  named : ∀ k w it, b.waves.lookup k = some (w, it) →
    w.name = k ∧ ∃ blackboard, b.blackboards.at? it = some blackboard ∧ blackboard.name = k

/-- Every name keeps its Blackboard. -/
def KeepsBoards (b b' : Brain Val) : Prop :=
  ∀ k w it, b.waves.lookup k = some (w, it) → ∃ w', b'.waves.lookup k = some (w', it)

/-- `execute` starts every wave, each with a Blackboard that validates, or it changes nothing. -/
def StartsAllOrNone (b : Brain Val) : Prop :=
  (b.execute.1 = .returned 0 ∧ (∀ k w it, b.execute.2.waves.lookup k = some (w, it) → w.isRunning = true) ∧
      ∀ k w it, b.waves.lookup k = some (w, it) →
        ∃ blackboard, b.blackboards.at? it = some blackboard ∧ blackboard.validateGlobals = true) ∨
    b.execute = (.returned 1, b)

variable {b b' : Brain Val}

/-- Different names have different Blackboards. -/
theorem OneToOne.name_eq (h : b.OneToOne) {k k' : String} {w w' : BrainWave String (DynamicModule Ty)} {it : Nat}
    (hk : b.waves.lookup k = some (w, it)) (hk' : b.waves.lookup k' = some (w', it)) : k = k' := by
  obtain ⟨-, B, hB, hn⟩ := h.named k w it hk
  obtain ⟨-, B', hB', hn'⟩ := h.named k' w' it hk'
  obtain rfl : B = B' := Option.some.inj (hB.symm.trans hB')
  exact hn.symm.trans hn'

theorem KeepsBoards.refl (b : Brain Val) : b.KeepsBoards b := fun _ w _ h => ⟨w, h⟩

theorem KeepsBoards.trans {b'' : Brain Val} (h : b.KeepsBoards b') (h' : b'.KeepsBoards b'') : b.KeepsBoards b'' := by
  intro k w it hw
  obtain ⟨w', hw'⟩ := h k w it hw
  exact h' k w' it hw'

theorem Builds.keepsBoards (h : b.Builds b') : b.KeepsBoards b' := fun k w _ hw => ⟨w, h.waves k _ hw⟩

/-! ## Building -/

theorem OneToOne.makeWave (h : b.OneToOne) {key : String} (hk : key ∉ b.waves) : (b.makeWave key).OneToOne where
  size := by
    simp only [Brain.makeWave, UnorderedMap.emplace, if_neg hk, UnorderedMap.size_insert, h.size]
    rfl
  named k w it hw := by
    simp only [Brain.makeWave, UnorderedMap.lookup_emplace, AList.lookup_eq_none.2 hk, Option.getD_none] at hw
    simp only [Brain.makeWave, NodeList.at?_emplaceFront]
    split at hw
    · rename_i e
      obtain ⟨rfl, rfl⟩ := Prod.mk.inj (Option.some.inj hw)
      exact ⟨e.symm, Blackboard.new key, by rw [NodeList.begin_emplaceFront, if_pos rfl], e.symm⟩
    · obtain ⟨hn, B, hB, hBn⟩ := h.named k w it hw
      exact ⟨hn, B, by rw [if_neg (Nat.ne_of_lt (NodeList.lt_of_at? hB)), hB], hBn⟩

theorem OneToOne.others (h : b.OneToOne) (key : String) : (b.others key).1.OneToOne := by
  simp only [Brain.others]
  split
  · exact h
  · rename_i hk
    exact h.makeWave (by simpa [waveExists] using hk)

/-- A Blackboard changed in place keeps its name. -/
theorem OneToOne.modifyAt (h : b.OneToOne) {it : Nat} {f : Blackboard Val → Blackboard Val}
    (hf : ∀ B, b.blackboards.at? it = some B → (f B).name = B.name) :
    OneToOne { b with blackboards := b.blackboards.modifyAt it f } where
  size := by rw [NodeList.length_modifyAt]; exact h.size
  named k w it' hw := by
    obtain ⟨hn, B, hB, hBn⟩ := h.named k w it' hw
    refine ⟨hn, ?_⟩
    simp only [NodeList.at?_modifyAt, hB]
    split
    · rename_i e
      exact ⟨f B, rfl, (hf B (e ▸ hB)).trans hBn⟩
    · exact ⟨B, rfl, hBn⟩

variable [DecidableEq Ty]

theorem OneToOne.registerOn (h : b.OneToOne) (it : Nat) (c : Call Val) : (b.registerOn it c).1.OneToOne := by
  unfold Brain.registerOn
  split
  · rename_i B hB
    refine h.modifyAt (fun B' hB' => ?_)
    obtain rfl : B = B' := Option.some.inj (hB.symm.trans hB')
    exact Blackboard.name_register B none c
  · exact h

theorem OneToOne.adapterCall (h : b.OneToOne) (own : Nat) (c : AdapterCall Val) :
    (Brain.adapterCall own b c).1.OneToOne := by
  cases c with
  | require T k => exact h.registerOn own _
  | provide T k => exact h.registerOn own _
  | globalProvide T k v => exact h.registerOn own _
  | others wave => exact h.others wave
  | globalRequire wave T k =>
    simp only [Brain.adapterCall]
    split
    · exact (h.others wave).registerOn _ _
    · exact h.others wave

theorem OneToOne.construct (own : Nat) : ∀ (cs : List (AdapterCall Val)) (b : Brain Val), b.OneToOne →
    (Brain.construct own b cs).1.OneToOne
  | [], _, h => h
  | c :: cs, _, h => OneToOne.construct own cs _ (h.adapterCall own c)

/-! ## Whole lives -/

omit [DecidableEq Ty] in
theorem OneToOne.setWave (h : b.OneToOne) {k : String} {w w' : BrainWave String (DynamicModule Ty)} {it : Nat}
    (hw : b.waves.lookup k = some (w, it)) (hn : w'.name = w.name) :
    OneToOne { b with waves := b.waves.insert k (w', it) } where
  size := by
    have hk : k ∈ b.waves := AList.lookup_isSome.1 (by rw [hw]; rfl)
    simp only [UnorderedMap.size_insert, if_pos hk]
    exact h.size
  named k' w₀ it' hw₀ := by
    rw [UnorderedMap.lookup_insert_if] at hw₀
    split at hw₀
    · rename_i e
      obtain ⟨rfl, rfl⟩ := Prod.mk.inj (Option.some.inj hw₀)
      obtain ⟨hwn, hB⟩ := h.named k w it hw
      exact ⟨(hn.trans hwn).trans e.symm, e ▸ hB⟩
    · exact h.named k' w₀ it' hw₀

omit [DecidableEq Ty] in
theorem execute_oneToOne (hi : b.Inv) (h : b.OneToOne) : b.execute.2.OneToOne := by
  refine ⟨?_, fun k w it hw => ?_⟩
  · rw [blackboards_execute, ← h.size]
    unfold execute
    split
    · exact UnorderedMap.size_mapValues _ _
    · rfl
  · rw [blackboards_execute]
    rcases lookup_execute hi hw with hw | ⟨-, w₀, hw₀, rfl⟩
    · exact h.named k w it hw
    · exact h.named k w₀ it hw₀

theorem addDynamicModule_keeps (hi : b.Inv) (h : b.OneToOne) (inputs : List String)
    (found : Except String (Library Val)) :
    (b.addDynamicModule inputs found).2.OneToOne ∧ b.KeepsBoards (b.addDynamicModule inputs found).2 := by
  have hr := addDynamicModule_result hi inputs found
  have hlog : ∀ e, (b.logEvent e).OneToOne := fun e => ⟨h.size, h.named⟩
  generalize b.addDynamicModule inputs found = r at hr ⊢
  cases hr with
  | unusable => exact ⟨h, .refl b⟩
  | refused => exact ⟨⟨h.size, h.named⟩, .refl b⟩
  | threw command wave file more w own c t hw hc ht =>
    have hb := OneToOne.construct own c.calls _ (hlog (.opened file))
    have hk : b.KeepsBoards (b.built own file c).1 := (built_builds hi own file c).1.keepsBoards
    split
    · exact ⟨⟨hb.size, hb.named⟩, hk⟩
    · exact ⟨hb, hk⟩
  | loaded command wave file more w own c name hw hc ht =>
    have hb := OneToOne.construct own c.calls _ (hlog (.opened file))
    have hbuilds := (built_builds hi own file c).1
    refine ⟨hb.setWave (hbuilds.waves wave _ hw) rfl, fun k w₀ it hw₀ => ?_⟩
    rw [UnorderedMap.lookup_insert_if]
    split
    · rename_i e
      rw [e, hw] at hw₀
      obtain ⟨-, rfl⟩ := Prod.mk.inj (Option.some.inj hw₀)
      exact ⟨_, rfl⟩
    · exact ⟨w₀, hbuilds.waves k _ hw₀⟩

/-- **The step lemma.** -/
theorem step_oneToOne (hi : b.Inv) (h : b.OneToOne) (i : Input Val) :
    (b.step i).OneToOne ∧ b.KeepsBoards (b.step i) := by
  cases i with
  | call board a =>
    refine ⟨?_, (call_builds hi board a).keepsBoards⟩
    simp only [step]
    split
    · exact h.modifyAt (fun B _ => Blackboard.name_perform B a)
    · exact h
  | command c =>
    cases c with
    | createWave inputs =>
      refine ⟨?_, (createWave_builds hi.coherent inputs).keepsBoards⟩
      simp only [step, command, createWave]
      split
      · exact h.others _
      · exact h
    | addDynamicModule inputs found => exact addDynamicModule_keeps hi h inputs found
    | execute inputs =>
      refine ⟨execute_oneToOne hi h, fun k w it hw => ?_⟩
      simp only [step, command, execute]
      split
      · exact ⟨_, by rw [UnorderedMap.lookup_mapValues, hw]; rfl⟩
      · exact ⟨w, hw⟩

theorem after_oneToOne (inputs : List (Input Val)) : (after inputs).OneToOne := by
  have h0 : (new : Brain Val).Inv ∧ (new : Brain Val).OneToOne :=
    ⟨after_inv [], rfl, fun _ _ _ h => (by cases h)⟩
  have hstep : ∀ (b : Brain Val) i, b.Inv ∧ b.OneToOne → (b.step i).Inv ∧ (b.step i).OneToOne :=
    fun b i h => ⟨step_inv h.1 i, (step_oneToOne h.1 h.2 i).1⟩
  exact (Runs.run_invariant hstep inputs _ h0).2

theorem after_keepsBoards (inputs more : List (Input Val)) : (after inputs).KeepsBoards (after (inputs ++ more)) := by
  induction more using List.reverseRecOn with
  | nil => rw [List.append_nil]; exact .refl _
  | append_singleton more i ih =>
    have hs : after (inputs ++ (more ++ [i])) = (after (inputs ++ more)).step i := by
      rw [← List.append_assoc]
      exact Runs.run_snoc _ _ _ _
    rw [hs]
    exact ih.trans (step_oneToOne (after_inv _) (after_oneToOne _) i).2

omit [DecidableEq Ty] in
theorem execute_startsAllOrNone (hi : b.Inv) : b.StartsAllOrNone := by
  by_cases hv : b.blackboards.all Blackboard.validateGlobals = true
  · refine Or.inl ⟨?_, fun k w it hw => ?_, fun k w it hw => ?_⟩
    · have hall : (b.waves.all fun wave p => (p.1.execute wave).fault.isNone) = true := by
        rw [UnorderedMap.all_iff]
        rintro k ⟨w, it⟩ hw
        rw [BrainWave.execute_spec (hi.sound k w it hw)]
        rfl
      simp only [execute, if_pos hv, hall, if_true]
    · simp only [execute, if_pos hv, UnorderedMap.lookup_mapValues] at hw
      obtain ⟨⟨w₀, it₀⟩, hw₀, he⟩ := Option.map_eq_some_iff.1 hw
      rw [BrainWave.execute_spec (hi.sound k w₀ it₀ hw₀)] at he
      obtain ⟨rfl, -⟩ := Prod.mk.inj he
      rfl
    · obtain ⟨B, hB⟩ := hi.board k w it hw
      exact ⟨B, hB, List.all_eq_true.1 hv B (NodeList.mem_of_at? hB)⟩
  · exact Or.inr (by simp only [execute, if_neg hv])

/-- **Waves and Blackboards stay in one-to-one correspondence**, whatever was created, loaded and started: different
names have different Blackboards, a name keeps its Blackboard whatever follows, and `execute` starts every wave or
none. -/
theorem correspondence (inputs : List (Input Val)) :
    (after inputs).OneToOne ∧
      (∀ k k' w w' it, (after inputs).waves.lookup k = some (w, it) → (after inputs).waves.lookup k' = some (w', it) →
        k = k') ∧
      (∀ more, (after inputs).KeepsBoards (after (inputs ++ more))) ∧ (after inputs).StartsAllOrNone :=
  ⟨after_oneToOne inputs, fun _ _ _ _ _ hk hk' => (after_oneToOne inputs).name_eq hk hk',
    after_keepsBoards inputs, execute_startsAllOrNone (after_inv inputs)⟩

/-- A module is loaded whose constructor names a new wave, its own, and the new one again; then one into the new wave, whose
constructor names a third, and throws. -/
def looking : List (Input Comm.Plain.Value) :=
  [.command (.createWave ["create", "wave"]),
    .command (.addDynamicModule ["add", "wave", "Looker.so"]
      (.ok ⟨.ok ⟨[.globalProvide .int "test" (3 : Int), .others "side", .globalRequire "wave" .int "test", .others "side"],
        .ok "Looker"⟩, .ok ()⟩)),
    .command (.addDynamicModule ["add", "side", "Broken.so"]
      (.ok ⟨.ok ⟨[.others "far"], .error (.exception "std::out_of_range")⟩, .ok ()⟩))]

theorem correspondence_looking : (after looking).OneToOne ∧ (after looking).waves.size = 3 ∧
    (∃ w it, (after (looking.take 2)).waves.lookup "side" = some (w, it) ∧
      ∃ w', (after looking).waves.lookup "side" = some (w', it)) ∧
    (after looking).execute.1 = .returned 0 ∧
      ∀ k w it, (after looking).execute.2.waves.lookup k = some (w, it) → w.isRunning = true := by
  obtain ⟨hone, -, -, hstarts⟩ := correspondence looking
  obtain ⟨-, -, hkeeps, -⟩ := correspondence (looking.take 2)
  have hside : ((after (looking.take 2)).waves.lookup "side").isSome = true := by decide
  obtain ⟨⟨w, it⟩, hw⟩ := Option.isSome_iff_exists.1 hside
  have hstarted : (after looking).execute.1 = .returned 0 := by decide
  refine ⟨hone, by decide, ⟨w, it, hw, hkeeps (looking.drop 2) "side" w it hw⟩, hstarted, ?_⟩
  rcases hstarts with ⟨-, hrunning, -⟩ | hnone
  · exact hrunning
  · rw [hnone] at hstarted
    exact absurd hstarted (by decide)

end Brain
end Core
end NaoFramework
