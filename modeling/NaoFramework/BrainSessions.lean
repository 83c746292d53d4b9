import NaoFramework.BrainFailure
/-!
# BrainSessions — every Blackboard of a Brain by itself

Seen from one Blackboard, all that a Brain does, whichever modules are loaded into whichever waves and whatever the
threads of the waves call, is a session: registrations, and calls of accessors that were handed out.  So what holds of
every session of a Blackboard holds of the Blackboards of a Brain, at any time of its life (`boards_are_sessions`).
-/
namespace NaoFramework
namespace Core
namespace Brain

open Comm (Blackboard Call Accessor AccessorCall Registration Session)
open Modules (AdapterCall Construction Library LoaderEvent DynamicModule)

variable {Ty : Type} {Val : Ty → Type} [DecidableEq Ty]

/-- The Blackboard of a wave, with what it has handed out. -/
def sessionOf (b : Brain Val) (handed : String → List (Accessor Ty)) (k : String) : Session Val := ⟨b.boardOf k, handed k⟩

/-- Every Blackboard, going on as a session, comes to be what it is after. -/
def Goes (b : Brain Val) (handed : String → List (Accessor Ty)) (b' : Brain Val) (handed' : String → List (Accessor Ty)) :
    Prop :=
  ∀ k, (b.sessionOf handed k).Leads (b'.sessionOf handed' k)

/-- The accessor was handed out by the Blackboard it points to. -/
def Handed (b : Brain Val) (handed : String → List (Accessor Ty)) (x : Nat × Accessor Ty) : Prop :=
  ∃ name w, b.waves.lookup name = some (w, x.1) ∧ x.2 ∈ handed name

/-- What the modules hold was handed out. -/
def HoldsHanded (b : Brain Val) (handed : String → List (Accessor Ty)) : Prop :=
  ∀ wave w own, b.waves.lookup wave = some (w, own) → ∀ m ∈ w.modules, ∀ x ∈ m.held, b.Handed handed x

end Brain
end Core

theorem Comm.Session.Leads.handedOut {Ty : Type} {Val : Ty → Type} [DecidableEq Ty] {s s' : Comm.Session Val} (h : s.Leads s')
    {a : Comm.Accessor Ty} (ha : a ∈ s.handedOut) : a ∈ s'.handedOut := by
  induction h with
  | refl => exact ha
  | tail _ hs ih =>
    cases hs with
    | register e c => exact List.mem_append_left _ ih
    | require T f hf => exact ih
    | provide T f hf input => exact ih

namespace Core
namespace Brain

open Comm (Blackboard Call Accessor AccessorCall Registration Session)
open Modules (AdapterCall Construction Library LoaderEvent DynamicModule)

variable {Ty : Type} {Val : Ty → Type} [DecidableEq Ty] {b b' b'' : Brain Val} {handed handed' : String → List (Accessor Ty)}

theorem Goes.refl (b : Brain Val) (handed : String → List (Accessor Ty)) : b.Goes handed b handed := fun _ => .refl

theorem Goes.trans {handed'' : String → List (Accessor Ty)} (h : b.Goes handed b' handed')
    (h' : b'.Goes handed' b'' handed'') : b.Goes handed b'' handed'' := fun k => (h k).trans (h' k)

/-- What leaves the Blackboards alone. -/
theorem Goes.of_boardOf (h : ∀ k, b'.boardOf k = b.boardOf k) : b.Goes handed b' handed := by
  intro k
  rw [sessionOf, sessionOf, h k]
  exact .refl

/-- What was handed out stays so. -/
theorem Handed.mono {x : Nat × Accessor Ty} (hx : b.Handed handed x) (hb : b.KeepsBoards b') (hg : b.Goes handed b' handed') :
    b'.Handed handed' x := by
  obtain ⟨name, w, hw, ha⟩ := hx
  obtain ⟨w', hw'⟩ := hb name w x.1 hw
  exact ⟨name, w', hw', (hg name).handedOut ha⟩

theorem HoldsHanded.builds (h : b.HoldsHanded handed) (hb : b.Builds b') (hg : b.Goes handed b' handed') :
    b'.HoldsHanded handed' := by
  intro wave w own hw m hm x hx
  rcases hb.fresh wave w own hw with hw | ⟨rfl, -, -⟩
  · exact (h wave w own hw m hm x hx).mono hb.keepsBoards hg
  · cases hm

omit [DecidableEq Ty] in
/-- A wave's Blackboard is found by its iterator. -/
theorem boardOf_congr (hb : b'.blackboards = b.blackboards)
    (hw : ∀ k, (b'.waves.lookup k).map Prod.snd = (b.waves.lookup k).map Prod.snd) (k : String) : b'.boardOf k = b.boardOf k := by
  have hbind : ∀ b : Brain Val, b.boardOf k =
      (((b.waves.lookup k).map Prod.snd).bind b.blackboards.at?).getD (Blackboard.new k) := by
    intro b
    rw [boardOf, Option.bind_map]
    rfl
  rw [hbind, hbind, hw, hb]

omit [DecidableEq Ty] in
theorem boardOf_modifyAt (hi : b.Inv) (h : b.OneToOne) {n : String} {w : BrainWave String (DynamicModule Ty)} {it : Nat}
    (hw : b.waves.lookup n = some (w, it)) (f : Blackboard Val → Blackboard Val) (k : String) :
    boardOf { b with blackboards := b.blackboards.modifyAt it f } k = if n = k then f (b.boardOf k) else b.boardOf k := by
  have hB := boardOf_eq hi hw
  split
  · rename_i e
    subst e
    rw [boardOf, hw, Option.bind_some, NodeList.at?_modifyAt, if_pos rfl, hB]
    rfl
  · rename_i hne
    cases hk : b.waves.lookup k with
    | none => rw [boardOf, boardOf, hk]; rfl
    | some p =>
      obtain ⟨w', it'⟩ := p
      have hit : it' ≠ it := by
        rintro rfl
        exact hne (h.name_eq hw hk)
      rw [boardOf, boardOf, hk, Option.bind_some, Option.bind_some, NodeList.at?_modifyAt, if_neg hit]

omit [DecidableEq Ty] in
/-- A wave replaced by another keeps its Blackboard. -/
theorem lookup_setWave {k : String} {w : BrainWave String (DynamicModule Ty)} {it : Nat} (hw : b.waves.lookup k = some (w, it))
    (w' : BrainWave String (DynamicModule Ty)) (name : String) :
    ((b.waves.insert k (w', it)).lookup name).map Prod.snd = (b.waves.lookup name).map Prod.snd := by
  rw [UnorderedMap.lookup_insert_if]
  split
  · rename_i e
    rw [e, hw]
    rfl
  · rfl

theorem setWave_goes (handed : String → List (Accessor Ty)) {k : String} {w : BrainWave String (DynamicModule Ty)} {it : Nat}
    (hw : b.waves.lookup k = some (w, it)) (w' : BrainWave String (DynamicModule Ty)) :
    b.KeepsBoards { b with waves := b.waves.insert k (w', it) } ∧
      b.Goes handed { b with waves := b.waves.insert k (w', it) } handed := by
  refine ⟨fun name w₀ it₀ hw₀ => ?_, .of_boardOf (boardOf_congr rfl (lookup_setWave hw w'))⟩
  have he := lookup_setWave hw w' name
  rw [hw₀] at he
  obtain ⟨⟨w₁, it₁⟩, hw₁, rfl⟩ := Option.map_eq_some_iff.1 he
  exact ⟨w₁, hw₁⟩

/-! ## Building -/

/-- **A registration is a step of the session it is made in.** -/
theorem registerOn_goes (hi : b.Inv) (ho : b.OneToOne) {name : String} {w : BrainWave String (DynamicModule Ty)} {it : Nat}
    (hw : b.waves.lookup name = some (w, it)) (c : Call Val) (handed : String → List (Accessor Ty)) :
    ∃ handed', b.Goes handed (b.registerOn it c).1 handed' ∧
      ∀ x ∈ (b.registerOn it c).2, (b.registerOn it c).1.Handed handed' x := by
  have hB := boardOf_eq hi hw
  refine ⟨Function.update handed name (handed name ++ ((b.boardOf name).register none c).returned), fun k => ?_,
    fun x hx => ?_⟩
  · rw [sessionOf, sessionOf, boardOf_registerOn hi ho hw]
    by_cases hk : name = k
    · subst hk
      rw [if_pos rfl, Function.update_self]
      exact .single (.register _ none c)
    · rw [if_neg hk, Function.update_of_ne (Ne.symm hk)]
      exact .refl
  · simp only [registerOn, hB] at hx ⊢
    obtain ⟨a, ha, rfl⟩ := List.mem_map.1 hx
    exact ⟨name, w, hw, by rw [Function.update_self]; exact List.mem_append_right _ ha⟩

theorem adapterCall_goes (hi : b.Inv) (ho : b.OneToOne) {wave : String} {w : BrainWave String (DynamicModule Ty)} {own : Nat}
    (hw : b.waves.lookup wave = some (w, own)) (c : AdapterCall Val) (handed : String → List (Accessor Ty)) :
    ∃ handed', b.Goes handed (adapterCall own b c).1 handed' ∧
      ∀ x ∈ (adapterCall own b c).2, (adapterCall own b c).1.Handed handed' x := by
  obtain ⟨name, he | ⟨w', it, d, hw', -, -, he⟩⟩ := adapterCall_cases hw c
  · rw [he]
    exact ⟨handed, .of_boardOf (boardOf_others hi name), fun x hx => by cases hx⟩
  · have hb := others_builds hi.coherent name
    obtain ⟨handed', hg, hx⟩ := registerOn_goes (hb.inv hi) (ho.others name) hw' d handed
    rw [he]
    exact ⟨handed', (Goes.of_boardOf (boardOf_others hi name)).trans hg, hx⟩

/-- **A constructor goes on with the sessions**, and what it is handed was handed out in them. -/
theorem construct_goes (own : Nat) (wave : String) (w : BrainWave String (DynamicModule Ty)) :
    ∀ (cs : List (AdapterCall Val)) (b : Brain Val) (handed : String → List (Accessor Ty)), b.Inv → b.OneToOne →
      b.waves.lookup wave = some (w, own) →
        ∃ handed', b.Goes handed (construct own b cs).1 handed' ∧
          ∀ x ∈ (construct own b cs).2, (construct own b cs).1.Handed handed' x
  | [], b, handed, _, _, _ => ⟨handed, .refl b handed, fun x hx => by cases hx⟩
  | c :: cs, b, handed, hi, ho, hw => by
    have hb := adapterCall_builds hi.coherent own c
    obtain ⟨handed₁, hg₁, hx₁⟩ := adapterCall_goes hi ho hw c handed
    obtain ⟨handed₂, hg₂, hx₂⟩ := construct_goes own wave w cs (adapterCall own b c).1 handed₁ (hb.inv hi)
      (ho.adapterCall own c) (hb.waves wave _ hw)
    refine ⟨handed₂, hg₁.trans hg₂, fun x hx => ?_⟩
    rcases List.mem_append.1 hx with hx | hx
    · exact (hx₁ x hx).mono (construct_builds own cs _ hb.coherent).1.keepsBoards hg₂
    · exact hx₂ x hx

/-! ## Whole lives -/

/-- **A load goes on with the sessions.** -/
theorem addDynamicModule_goes (hi : b.Inv) (ho : b.OneToOne) (h : b.HoldsHanded handed) (inputs : List String)
    (found : Except String (Library Val)) :
    ∃ handed', (b.addDynamicModule inputs found).2.HoldsHanded handed' ∧
      b.Goes handed (b.addDynamicModule inputs found).2 handed' := by
  have hr := addDynamicModule_result hi inputs found
  generalize b.addDynamicModule inputs found = r at hr ⊢
  cases hr with
  | unusable => exact ⟨handed, h, .refl b handed⟩
  | refused => exact ⟨handed, h, .of_boardOf fun _ => rfl⟩
  | threw command wave file more w own c t hw hc ht =>
    obtain ⟨handed', hg, -⟩ := construct_goes own wave w c.calls (b.logEvent (.opened file)) handed (hi.logEvent _)
      ⟨ho.size, ho.named⟩ hw
    have hh : (b.built own file c).1.HoldsHanded handed' :=
      HoldsHanded.builds (b := b.logEvent (.opened file)) h (built_builds hi own file c).1 hg
    refine ⟨handed', ?_, ?_⟩
    · split <;> exact hh
    · split <;> exact hg
  | loaded command wave file more w own c name hw hc ht =>
    obtain ⟨handed', hg, hx⟩ := construct_goes own wave w c.calls (b.logEvent (.opened file)) handed (hi.logEvent _)
      ⟨ho.size, ho.named⟩ hw
    have hb := (built_builds hi own file c).1
    have hw' : (b.built own file c).1.waves.lookup wave = some (w, own) := hb.waves wave _ hw
    have hh : (b.built own file c).1.HoldsHanded handed' := HoldsHanded.builds (b := b.logEvent (.opened file)) h hb hg
    obtain ⟨hkeep, hgo⟩ := setWave_goes handed' hw'
      (w.pushBack ⟨"Dynamic" ++ name, file, (b.built own file c).2⟩)
    refine ⟨handed', fun other w₀ it hw₀ m hm x hxm => ?_, Goes.trans hg hgo⟩
    rw [UnorderedMap.lookup_insert_if] at hw₀
    split at hw₀
    · obtain ⟨rfl, rfl⟩ := Prod.mk.inj (Option.some.inj hw₀)
      rcases List.mem_append.1 hm with hm | hm
      · exact (hh wave w own hw' m hm x hxm).mono hkeep hgo
      · obtain rfl := List.mem_singleton.1 hm
        exact (hx x hxm).mono hkeep hgo
    · exact (hh other w₀ it hw₀ m hm x hxm).mono hkeep hgo

omit [DecidableEq Ty] in
theorem boardOf_execute (b : Brain Val) (k : String) : b.execute.2.boardOf k = b.boardOf k := by
  refine boardOf_congr (blackboards_execute b) (fun k => ?_) k
  unfold execute
  split
  · rw [UnorderedMap.lookup_mapValues, Option.map_map]
    rfl
  · rfl

/-- **A call of an accessor is a step of the session that handed it out.** -/
theorem call_goes (hi : b.Inv) (ho : b.OneToOne) (h : b.HoldsHanded handed) (board : Nat) (a : AccessorCall Val) :
    b.Goes handed (b.step (.call board a)) handed := by
  simp only [step]
  split
  · rename_i hx
    obtain ⟨k, w, board', m, hw, -, hm, hxm⟩ := held_of_heldRunning hx
    obtain ⟨name, w', hw', ha⟩ := h k w board' hw m hm _ hxm
    intro k
    rw [sessionOf, sessionOf, boardOf_modifyAt hi ho hw']
    split
    · rename_i e
      subst e
      cases a with
      | require T key => exact .single (.require _ T _ ha)
      | provide T key v => exact .single (.provide _ T _ ha v)
    · exact .refl
  · exact .refl b handed

/-- **The step lemma.** -/
theorem step_goes (hi : b.Inv) (ho : b.OneToOne) (h : b.HoldsHanded handed) (i : Input Val) :
    ∃ handed', (b.step i).HoldsHanded handed' ∧ b.Goes handed (b.step i) handed' := by
  cases i with
  | call board a =>
    have hg := call_goes hi ho h board a
    exact ⟨handed, h.builds (call_builds hi board a) hg, hg⟩
  | command c =>
    cases c with
    | createWave inputs =>
      have hg : b.Goes handed (b.createWave inputs).2 handed := .of_boardOf fun k => by
        unfold createWave
        split
        · exact boardOf_others hi _ k
        · rfl
      exact ⟨handed, h.builds (createWave_builds hi.coherent inputs) hg, hg⟩
    | addDynamicModule inputs found => exact addDynamicModule_goes hi ho h inputs found
    | execute inputs =>
      have hg : b.Goes handed b.execute.2 handed := .of_boardOf fun k => boardOf_execute b k
      have hk := (step_oneToOne hi ho (.command (.execute inputs))).2
      refine ⟨handed, fun wave w own hw m hm x hx => ?_, hg⟩
      rcases lookup_execute hi hw with hw | ⟨-, w₀, hw₀, rfl⟩
      · exact (h wave w own hw m hm x hx).mono hk hg
      · exact (h wave w₀ own hw₀ m hm x hx).mono hk hg

theorem run_goes : ∀ (inputs : List (Input Val)) (b : Brain Val) (handed : String → List (Accessor Ty)), b.Inv → b.OneToOne →
    b.HoldsHanded handed → ∃ handed', (Runs.run step b inputs).HoldsHanded handed' ∧
      b.Goes handed (Runs.run step b inputs) handed'
  | [], b, handed, _, _, h => ⟨handed, h, .refl b handed⟩
  | i :: inputs, b, handed, hi, ho, h => by
    obtain ⟨handed₁, h₁, hg₁⟩ := step_goes hi ho h i
    obtain ⟨handed₂, h₂, hg₂⟩ := run_goes inputs (b.step i) handed₁ (step_inv hi i) (step_oneToOne hi ho i).1 h₁
    exact ⟨handed₂, h₂, hg₁.trans hg₂⟩

/-- **The Blackboards of a Brain are sessions**, one for each wave: at any time of its life each is what registrations and
calls of accessors have made of a new Blackboard, it goes on so, and whatever the modules hold was handed out in the
session of the Blackboard it points to. -/
theorem boards_are_sessions (inputs more : List (Input Val)) :
    ∃ handed handed', (after inputs).HoldsHanded handed ∧ (after (inputs ++ more)).HoldsHanded handed' ∧
      ∀ k, Session.Leads (.new k) ((after inputs).sessionOf handed k) ∧
        ((after inputs).sessionOf handed k).Leads ((after (inputs ++ more)).sessionOf handed' k) := by
  have h0 : (new : Brain Val).HoldsHanded fun _ => [] := fun _ _ _ hw => by cases hw
  obtain ⟨handed, h, hg⟩ := run_goes inputs new (fun _ => []) (after_inv []) (after_oneToOne []) h0
  obtain ⟨handed', h', hg'⟩ := run_goes more (after inputs) handed (after_inv inputs) (after_oneToOne inputs) h
  have hrun : after (inputs ++ more) = Runs.run step (after inputs) more := Runs.run_append _ _ _ _
  exact ⟨handed, handed', h, hrun ▸ h', fun k => ⟨hg k, hrun ▸ hg' k⟩⟩

end Brain
end Core
end NaoFramework
