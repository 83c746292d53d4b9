import NaoFramework.BrainBoards
import NaoFramework.BrainSupply
/-!
# BrainFailure — what a failed load leaves behind

A registration cannot be taken back, and neither can a wave that was referred to and thus created.  So a load that fails
before the module's constructor runs leaves everything as it was, and one whose constructor throws leaves exactly what
the constructor registered: `failed_load_leaves` says of every wave and every Blackboard what has become of it.
-/
namespace NaoFramework
namespace Core
namespace Brain

open Comm (Blackboard Call Accessor AccessorCall Registration)
open Modules (Thrown AdapterCall Construction Library LoaderEvent DynamicModule constructionOf)

variable {Ty : Type} {Val : Ty → Type}

/-- The Blackboard of a wave; that of a wave that does not exist is new. -/
def boardOf (b : Brain Val) (k : String) : Blackboard Val :=
  ((b.waves.lookup k).bind fun p => b.blackboards.at? p.2).getD (Blackboard.new k)

/-- The registration that a call on the adapters makes on the Blackboard of wave `k`; `wave` is the module's own. -/
def onWave (wave k : String) : AdapterCall Val → List (Call Val)
  | .require T key => if wave = k then [.require T key] else []
  | .provide T key => if wave = k then [.provide T key] else []
  | .globalProvide T key v => if wave = k then [.globalProvide T key v] else []
  | .others _ => []
  | .globalRequire other T key => if other = k then [.globalRequire T key] else []

/-- The call names wave `k` to `ExternalBlackboardMap::operator[]`. -/
def refersTo (k : String) : AdapterCall Val → Bool
  | .others wave | .globalRequire wave _ _ => decide (wave = k)
  | _ => false

variable [DecidableEq Ty]

/-- **What the calls of a constructor leave**, `wave` being the module's own: every wave stays, a wave that was named and
did not exist is new, and every Blackboard has had the registrations made on it. -/
structure Leaves (b : Brain Val) (wave : String) (calls : List (AdapterCall Val)) (b' : Brain Val) : Prop where
  stays : ∀ k x, b.waves.lookup k = some x → b'.waves.lookup k = some x
  created : ∀ k, k ∉ b.waves → (b'.waves.lookup k).map Prod.fst =
    if calls.any (refersTo k) then some (BrainWave.new k) else none
  boards : ∀ k, b'.boardOf k = (b.boardOf k).registerAll (calls.flatMap (onWave wave k))

variable {b b' : Brain Val}

/-! ## One call -/

omit [DecidableEq Ty] in
theorem boardOf_eq (h : b.Inv) {k : String} {w : BrainWave String (DynamicModule Ty)} {it : Nat}
    (hw : b.waves.lookup k = some (w, it)) : b.blackboards.at? it = some (b.boardOf k) := by
  obtain ⟨B, hB⟩ := h.board k w it hw
  simp [boardOf, hw, hB]

omit [DecidableEq Ty] in
theorem boardOf_of_notMem {k : String} (hk : k ∉ b.waves) : b.boardOf k = Blackboard.new k := by
  simp [boardOf, AList.lookup_eq_none.2 hk]

theorem boardOf_registerOn (hi : b.Inv) (h : b.OneToOne) {n : String} {w : BrainWave String (DynamicModule Ty)} {it : Nat}
    (hw : b.waves.lookup n = some (w, it)) (c : Call Val) (k : String) :
    (b.registerOn it c).1.boardOf k = if n = k then (b.boardOf k).after c else b.boardOf k := by
  have hB := boardOf_eq hi hw
  simp only [registerOn, hB, boardOf, NodeList.at?_modifyAt]
  cases hk : b.waves.lookup k with
  | none =>
    rw [if_neg (by rintro rfl; rw [hw] at hk; cases hk)]
    rfl
  | some p =>
    obtain ⟨w', it'⟩ := p
    by_cases hn : n = k
    · subst hn
      obtain ⟨rfl, rfl⟩ := Prod.mk.inj (Option.some.inj (hw.symm.trans hk))
      simp [hB, Blackboard.after]
      rfl
    · have hit : it' ≠ it := by
        rintro rfl
        exact hn (h.name_eq hw hk)
      simp [hn, hit]

omit [DecidableEq Ty] in
theorem boardOf_others (h : b.Inv) (wave k : String) : (b.others wave).1.boardOf k = b.boardOf k := by
  simp only [others]
  split
  · rfl
  · rename_i hex
    have hwave : wave ∉ b.waves := by simpa [waveExists] using hex
    by_cases hk : k = wave
    · subst hk
      rw [boardOf_of_notMem hwave]
      simp [boardOf, makeWave, UnorderedMap.lookup_emplace, AList.lookup_eq_none.2 hwave, NodeList.at?_emplaceFront]
    · simp only [boardOf, makeWave, UnorderedMap.lookup_emplace, if_neg hk]
      cases hw : b.waves.lookup k with
      | none => rfl
      | some p =>
        obtain ⟨B, hB⟩ := h.board k p.1 p.2 hw
        have hlt := NodeList.lt_of_at? hB
        simp only [Option.bind_some, NodeList.at?_emplaceFront, if_neg (Nat.ne_of_lt hlt)]

omit [DecidableEq Ty] in
/-- `operator[]` finds the wave, made if need be, and hands out its Blackboard. -/
theorem lookup_others (b : Brain Val) (wave : String) :
    ∃ w it, (b.others wave).1.waves.lookup wave = some (w, it) ∧ (b.others wave).2 = some it := by
  obtain ⟨it, hit⟩ := others_snd b wave
  obtain ⟨⟨w, it⟩, hw, rfl⟩ := Option.map_eq_some_iff.1 hit
  exact ⟨w, it, hw, hit⟩

/-- **What a call on the adapters does**: it refers to a wave, its own or another, and may make a registration on the
Blackboard of it, which is global if the wave is another. -/
theorem adapterCall_cases {wave : String} {w : BrainWave String (DynamicModule Ty)} {own : Nat}
    (hw : b.waves.lookup wave = some (w, own)) (c : AdapterCall Val) :
    ∃ name, Brain.adapterCall own b c = ((b.others name).1, []) ∨
      ∃ w' it d, (b.others name).1.waves.lookup name = some (w', it) ∧ d ∈ onWave wave name c ∧
        (d.isGlobal = false → name = wave) ∧ Brain.adapterCall own b c = (b.others name).1.registerOn it d := by
  have hsame : (b.others wave).1 = b := by
    simp only [others, waveExists, AList.lookup_isSome.1 (by rw [hw]; rfl : (b.waves.lookup wave).isSome), decide_true,
      if_true]
  have hon : ∀ d : Call Val, d ∈ (if wave = wave then [d] else []) := fun d => by simp
  cases c with
  | require T k => exact ⟨wave, Or.inr ⟨w, own, _, hsame.symm ▸ hw, hon _, fun _ => rfl, by rw [hsame]; rfl⟩⟩
  | provide T k => exact ⟨wave, Or.inr ⟨w, own, _, hsame.symm ▸ hw, hon _, fun _ => rfl, by rw [hsame]; rfl⟩⟩
  | globalProvide T k v => exact ⟨wave, Or.inr ⟨w, own, _, hsame.symm ▸ hw, hon _, fun _ => rfl, by rw [hsame]; rfl⟩⟩
  | others other => exact ⟨other, Or.inl rfl⟩
  | globalRequire other T k =>
    obtain ⟨w', it, hw', hit⟩ := lookup_others b other
    refine ⟨other, Or.inr ⟨w', it, .globalRequire T k, hw', ?_, (fun h => by cases h), ?_⟩⟩
    · rw [onWave, if_pos rfl]
      exact List.mem_singleton.2 rfl
    · simp only [Brain.adapterCall, hit]

theorem boardOf_adapterCall (hi : b.Inv) (h : b.OneToOne) {wave : String} {w : BrainWave String (DynamicModule Ty)}
    {own : Nat} (hw : b.waves.lookup wave = some (w, own)) (c : AdapterCall Val) (k : String) :
    (adapterCall own b c).1.boardOf k = (b.boardOf k).registerAll (onWave wave k c) := by
  have hone : ∀ (B : Blackboard Val) n d, (if n = k then B.after d else B) = B.registerAll (if n = k then [d] else []) := by
    intro B n d
    split <;> rfl
  cases c with
  | require T key => exact (boardOf_registerOn hi h hw _ k).trans (hone _ _ _)
  | provide T key => exact (boardOf_registerOn hi h hw _ k).trans (hone _ _ _)
  | globalProvide T key v => exact (boardOf_registerOn hi h hw _ k).trans (hone _ _ _)
  | others other => exact boardOf_others hi other k
  | globalRequire other T key =>
    obtain ⟨w', it, hw', hit⟩ := lookup_others b other
    have hb := others_builds hi.coherent other
    simp only [adapterCall, hit]
    rw [boardOf_registerOn (hb.inv hi) (h.others other) hw', boardOf_others hi]
    exact hone _ _ _

/-- The waves a call creates. -/
theorem lookup_adapterCall (b : Brain Val) (own : Nat) (c : AdapterCall Val) {k : String} (hk : k ∉ b.waves) :
    ((adapterCall own b c).1.waves.lookup k).map Prod.fst = if refersTo k c then some (BrainWave.new k) else none := by
  have hothers : ∀ wave, ((b.others wave).1.waves.lookup k).map Prod.fst =
      if decide (wave = k) then some (BrainWave.new k) else none := by
    intro wave
    have hnone := AList.lookup_eq_none.2 hk
    simp only [others]
    split
    · rename_i hex
      have hne : wave ≠ k := by
        rintro rfl
        exact hk (by simpa [waveExists] using hex)
      simp [hnone, hne]
    · simp only [makeWave, UnorderedMap.lookup_emplace]
      by_cases hne : k = wave
      · subst hne; simp [hnone]
      · simp [hne, Ne.symm hne, hnone]
  have hstay : ∀ it d, ((b.registerOn it d).1.waves.lookup k).map Prod.fst = none := fun it d => by
    rw [waves_registerOn, AList.lookup_eq_none.2 hk]; rfl
  cases c with
  | require T key => exact hstay own _
  | provide T key => exact hstay own _
  | globalProvide T key v => exact hstay own _
  | others other => exact hothers other
  | globalRequire other T key =>
    obtain ⟨w', it, hw', hit⟩ := lookup_others b other
    simp only [adapterCall, hit, waves_registerOn]
    exact hothers other

/-! ## A whole constructor -/

/-- **A constructor's calls, Blackboard by Blackboard.** -/
theorem construct_leaves (own : Nat) (wave : String) (w : BrainWave String (DynamicModule Ty)) :
    ∀ (cs : List (AdapterCall Val)) (b : Brain Val), b.Inv → b.OneToOne → b.waves.lookup wave = some (w, own) →
      Leaves b wave cs (construct own b cs).1
  | [], b, _, _, _ => ⟨fun _ _ h => h, fun k hk => by simp [construct, AList.lookup_eq_none.2 hk], fun _ => rfl⟩
  | c :: cs, b, hi, h, hw => by
    have hc := adapterCall_builds hi.coherent own c
    have ih := construct_leaves own wave w cs (adapterCall own b c).1 (hc.inv hi) (h.adapterCall own c) (hc.waves wave _ hw)
    refine ⟨fun k x hx => ih.stays k x (hc.waves k x hx), fun k hk => ?_, fun k => ?_⟩
    · have hnew := lookup_adapterCall b own c hk
      cases hr : refersTo k c with
      | true =>
        rw [hr, if_pos rfl] at hnew
        obtain ⟨x, hx, hxk⟩ := Option.map_eq_some_iff.1 hnew
        rw [construct, ih.stays k x hx]
        simp [hr, hxk]
      | false =>
        rw [hr, if_neg Bool.false_ne_true, Option.map_eq_none_iff] at hnew
        rw [construct, ih.created k (AList.lookup_eq_none.1 hnew)]
        simp [hr]
    · rw [construct, ih.boards k, boardOf_adapterCall hi h hw, List.flatMap_cons]
      exact (Runs.run_append _ _ _ _).symm

/-! ## Failed loads -/

/-- The constructor that a load runs, with the wave it is loaded into. -/
def constructorRun (b : Brain Val) (inputs : List String) (found : Except String (Library Val)) :
    Option (String × Construction Val) :=
  match inputs with
  | _ :: wave :: _ :: _ => if b.waveExists wave then (constructionOf found).map (wave, ·) else none
  | _ => none

/-- **What a load that fails leaves behind**: everything as it was, when no constructor ran; and otherwise what the
constructor registered. -/
theorem failed_load_leaves (past : List (Input Val)) (inputs : List String) (found : Except String (Library Val))
    (hf : ((after past).addDynamicModule inputs found).1 ≠ .returned 0) :
    match (after past).constructorRun inputs found with
    | none =>
      ((after past).addDynamicModule inputs found).2.waves = (after past).waves ∧
        ((after past).addDynamicModule inputs found).2.blackboards = (after past).blackboards
    | some (wave, c) => (after past).Leaves wave c.calls ((after past).addDynamicModule inputs found).2 := by
  have hi := after_inv past
  have h := after_oneToOne past
  have hr := addDynamicModule_result hi inputs found
  generalize (after past).addDynamicModule inputs found = r at hr hf ⊢
  cases hr with
  | unusable _ hbad =>
    have hnone : (after past).constructorRun inputs found = none := by
      rcases inputs with _ | ⟨command, _ | ⟨wave, _ | ⟨file, more⟩⟩⟩
      · rfl
      · rfl
      · rfl
      · exact if_neg (by simpa [waveExists] using notMem_of_unusable hbad)
    rw [hnone]
    exact ⟨rfl, rfl⟩
  | refused command wave file more events hn he =>
    have hnone : (after past).constructorRun (command :: wave :: file :: more) found = none := by
      simp only [constructorRun, hn, Option.map_none, ite_self]
    rw [hnone]
    exact ⟨rfl, rfl⟩
  | threw command wave file more w own c t hw hc ht =>
    have hex : (after past).waveExists wave = true := decide_eq_true (AList.lookup_isSome.1 (by rw [hw]; rfl))
    have hsome : (after past).constructorRun (command :: wave :: file :: more) found = some (wave, c) := by
      simp only [constructorRun, hex, if_true, hc, Option.map_some]
    rw [hsome]
    have hl : Leaves (after past) wave c.calls ((after past).built own file c).1 := by
      have hl := construct_leaves own wave w c.calls ((after past).logEvent (.opened file)) (hi.logEvent _)
        ⟨h.size, h.named⟩ hw
      exact ⟨hl.stays, hl.created, hl.boards⟩
    simp only
    split
    · exact ⟨hl.stays, hl.created, hl.boards⟩
    · exact hl
  | loaded => exact absurd rfl hf

/-- A constructor provides a key, refers to another wave, and throws. -/
theorem failed_load_leaves_provided :
    (after [.command (.createWave ["createWave", "wave"])] : Brain Comm.Plain.Value).Leaves "wave"
      [.provide Comm.Plain.int "test", .others "motion"]
      (addDynamicModule (after [.command (.createWave ["createWave", "wave"])] : Brain Comm.Plain.Value)
        ["addDynamicModule", "wave", "Writer.so"]
        (.ok ⟨.ok ⟨[.provide Comm.Plain.int "test", .others "motion"], .error (.runtimeError "no data")⟩, .ok ()⟩)).2 :=
  failed_load_leaves [.command (.createWave ["createWave", "wave"])] ["addDynamicModule", "wave", "Writer.so"]
    (.ok ⟨.ok ⟨[.provide Comm.Plain.int "test", .others "motion"], .error (.runtimeError "no data")⟩, .ok ()⟩)
    (by intro h; cases h)

/-- **A load that is all or nothing**: when the module does not get into the wave's list, the waves, their modules and
their running state, and both maps of every Blackboard are as before. -/
def AllOrNothing (b : Brain Val) (inputs : List String) (found : Except String (Library Val)) : Prop :=
  (b.addDynamicModule inputs found).1 ≠ .returned 0 →
    (∀ k, ((b.addDynamicModule inputs found).2.waves.lookup k).map (fun p => (p.1.modules, p.1.running)) =
        (b.waves.lookup k).map fun p => (p.1.modules, p.1.running)) ∧
      ∀ it, ((b.addDynamicModule inputs found).2.blackboards.at? it).map (fun B => (B.board, B.typeCheck)) =
        (b.blackboards.at? it).map fun B => (B.board, B.typeCheck)

/-- A constructor registers a provision, and throws. -/
theorem load_not_all_or_nothing :
    ¬ AllOrNothing (after [.command (.createWave ["createWave", "wave"])] : Brain Comm.Plain.Value)
      ["addDynamicModule", "wave", "Writer.so"]
      (.ok ⟨.ok ⟨[.provide .int "test"], .error (.runtimeError "no data")⟩, .ok ()⟩) := by
  intro h
  have hb := (h (by intro hr; cases hr)).2 0
  have hmaps := Option.some.inj hb
  have hcheck := congrArg (fun p => p.2.entries.length) hmaps
  cases hcheck

end Brain
end Core
end NaoFramework
