import NaoFramework.BrainKeeps
/-!
# BrainSupply — whether running modules find their data

`execute` starts the waves only when every Blackboard validates, and then every request the modules hold is on a key in
`board_` (`execute_supplied`).  `addDynamicModule` restarts a running wave without asking: the new module finds its data
exactly when each of its requests is on a key that was there, or that its own constructor provided (`built_supplies_iff`).
-/
namespace NaoFramework
namespace Core
namespace Brain

open Comm (Blackboard Call Accessor AccessorCall Registration RequireFunction)
open Modules (AdapterCall Construction Library LoaderEvent DynamicModule constructionOf)

variable {Ty : Type} {Val : Ty → Type}

/-- Every request among the accessors is on a key in `board_` of its Blackboard. -/
def Supplies (b : Brain Val) (held : List (Nat × Accessor Ty)) : Prop :=
  ∀ x ∈ held, ∀ T f, x.2 = .require T f → b.OnBoard x.1 f.key

/-- **Every module of a running wave finds its data.** -/
def Supplied (b : Brain Val) : Prop :=
  ∀ k w board, b.waves.lookup k = some (w, board) → w.isRunning = true → ∀ m ∈ w.modules, b.Supplies m.held

/-- The call provides the key. -/
def Provides (k : String) : AdapterCall Val → Prop
  | .provide _ k' | .globalProvide _ k' _ => k' = k
  | _ => False

/-- The request is met: its key is in `board_`, or it asks the constructor's own Blackboard for a key the constructor
provides. -/
def Met (b : Brain Val) (own : Nat) (calls : List (AdapterCall Val)) : AdapterCall Val → Prop
  | .require _ k => b.OnBoard own k ∨ ∃ c ∈ calls, Provides k c
  | .globalRequire wave _ k => ∃ w board, b.waves.lookup wave = some (w, board) ∧
      (b.OnBoard board k ∨ (board = own ∧ ∃ c ∈ calls, Provides k c))
  | _ => True

/-- **What is loaded into a running wave has its requests met.** -/
def LoadsSupplied (b : Brain Val) : Input Val → Prop
  | .command (.addDynamicModule (_ :: wave :: _ :: _) found) =>
    ∀ w own c name, b.waves.lookup wave = some (w, own) → w.isRunning = true → constructionOf found = some c →
      c.ending = .ok name → ∀ call ∈ c.calls, b.Met own c.calls call
  | _ => True

variable {b b' : Brain Val}

theorem Builds.supplies (h : b.Builds b') {held : List (Nat × Accessor Ty)} (hs : b.Supplies held) : b'.Supplies held :=
  fun x hx T f hf => h.onBoard (hs x hx T f hf)

/-- Building takes nothing away from a running wave, and starts none. -/
theorem Builds.supplied (h : b.Builds b') (hs : b.Supplied) : b'.Supplied := by
  intro k w board hw hr m hm
  rcases h.fresh k w board hw with hw | ⟨rfl, -, -⟩
  · exact h.supplies (hs k w board hw hr m hm)
  · cases hr

/-- **A validated Brain supplies every module.** -/
theorem supplies_of_validated (h : b.Inv) (hv : b.blackboards.all Blackboard.validateGlobals = true) {k : String}
    {w : BrainWave String (DynamicModule Ty)} {board : Nat} (hw : b.waves.lookup k = some (w, board)) :
    ∀ m ∈ w.modules, b.Supplies m.held := by
  rintro m hm ⟨it, a⟩ hx T f rfl
  obtain ⟨B, hB, hback⟩ := h.held k w board hw m hm _ hx
  have hvB := List.all_eq_true.1 hv B (NodeList.mem_of_at? hB)
  exact ⟨B, hB, (h.coherent _ B hB).mem_of_validated hvB hback⟩

theorem execute_supplied (h : b.Inv) (hs : b.Supplied) : b.execute.2.Supplied := by
  intro k w board hw hr m hm x hx T f hf
  rw [OnBoard, blackboards_execute]
  rcases lookup_execute h hw with hw | ⟨hv, w₀, hw₀, rfl⟩
  · exact hs k w board hw hr m hm x hx T f hf
  · exact supplies_of_validated h hv hw₀ m hm x hx T f hf

/-! ## What a constructor leaves on the Blackboards -/

theorem onBoard_others (b : Brain Val) (wave : String) (board : Nat) (k : String) :
    (b.others wave).1.OnBoard board k ↔ b.OnBoard board k := by
  unfold others
  simp only
  split
  · rfl
  · simp only [OnBoard, makeWave, NodeList.at?_emplaceFront]
    constructor
    · rintro ⟨B, hB, hk⟩
      split at hB
      · obtain rfl := Option.some.inj hB
        exact absurd hk (AList.notMem_empty k)
      · exact ⟨B, hB, hk⟩
    · rintro ⟨B, hB, hk⟩
      exact ⟨B, by rw [if_neg (Nat.ne_of_lt (NodeList.lt_of_at? hB)), hB], hk⟩

variable [DecidableEq Ty]

theorem onBoard_registerOn (h : b.Coherent) {it : Nat} {B : Blackboard Val} (hB : b.blackboards.at? it = some B)
    (c : Call Val) (board : Nat) (k : String) :
    (b.registerOn it c).1.OnBoard board k ↔
      b.OnBoard board k ∨ (board = it ∧ c.key = k ∧ c.isProvision = true) := by
  unfold registerOn
  simp only [hB, OnBoard, NodeList.at?_modifyAt]
  by_cases hi : board = it
  · subst hi
    simp only [if_true, hB, Option.map_some, Option.some.injEq, exists_eq_left', true_and]
    exact (h board B hB).mem_board_register none c k
  · simp [hi]

theorem onBoard_adapterCall (h : b.Inv) {own : Nat} {B : Blackboard Val} (hB : b.blackboards.at? own = some B)
    (c : AdapterCall Val) (board : Nat) (k : String) :
    (adapterCall own b c).1.OnBoard board k ↔ b.OnBoard board k ∨ (board = own ∧ Provides k c) := by
  cases c with
  | require T k' => simp [adapterCall, onBoard_registerOn h.coherent hB, Call.isProvision, Provides]
  | provide T k' | globalProvide T k' v =>
    simp [adapterCall, onBoard_registerOn h.coherent hB, Call.isProvision, Call.key, Provides]
  | others wave => simp [adapterCall, onBoard_others, Provides]
  | globalRequire wave T k' =>
    simp only [adapterCall, Provides, and_false, or_false]
    split
    · rename_i it hit
      obtain ⟨⟨w, it'⟩, hw, rfl⟩ := Option.map_eq_some_iff.1 hit
      have ho := others_builds h.coherent wave
      obtain ⟨B', hB'⟩ := (ho.inv h).board wave w it' hw
      rw [onBoard_registerOn ho.coherent hB', onBoard_others]
      simp [Call.isProvision]
    · exact onBoard_others b wave board k

theorem onBoard_construct {own : Nat} : ∀ (cs : List (AdapterCall Val)) (b : Brain Val), b.Inv →
    (∃ B, b.blackboards.at? own = some B) → ∀ board k,
      (construct own b cs).1.OnBoard board k ↔ b.OnBoard board k ∨ (board = own ∧ ∃ c ∈ cs, Provides k c)
  | [], b, _, _, board, k => by simp [construct]
  | c :: cs, b, h, ⟨B, hB⟩, board, k => by
    have hc := adapterCall_builds h.coherent own c
    obtain ⟨B', hB', -⟩ := hc.grows own B hB
    simp only [construct, onBoard_construct cs _ (hc.inv h) ⟨B', hB'⟩, onBoard_adapterCall h hB, List.mem_cons]
    constructor
    · rintro ((hk | ⟨rfl, hk⟩) | ⟨rfl, c', hc', hk⟩)
      · exact Or.inl hk
      · exact Or.inr ⟨rfl, c, Or.inl rfl, hk⟩
      · exact Or.inr ⟨rfl, c', Or.inr hc', hk⟩
    · rintro (hk | ⟨rfl, c', rfl | hc', hk⟩)
      · exact Or.inl (Or.inl hk)
      · exact Or.inl (Or.inr ⟨rfl, hk⟩)
      · exact Or.inr ⟨rfl, c', hc', hk⟩

/-! ## The requests a constructor holds -/

/-- The call requests `k` on `board`. -/
def Asks (b : Brain Val) (own board : Nat) (k : String) : AdapterCall Val → Prop
  | .require _ k' => own = board ∧ k' = k
  | .globalRequire wave _ k' => (b.waves.lookup wave).map Prod.snd = some board ∧ k' = k
  | _ => False

theorem waves_registerOn (b : Brain Val) (it : Nat) (c : Call Val) : (b.registerOn it c).1.waves = b.waves := by
  unfold registerOn
  split <;> rfl

theorem eq_of_mem_registerOn (h : b.Coherent) {it : Nat} {c : Call Val} {x : Nat × Accessor Ty}
    (hx : x ∈ (b.registerOn it c).2) : x = (it, c.accessor) := by
  unfold registerOn at hx
  split at hx
  · rename_i B hB
    obtain ⟨a, ha, rfl⟩ := List.mem_map.1 hx
    rw [(h it B hB).eq_of_mem_returned none c ha]
  · cases hx

theorem mem_registerOn (h : b.Coherent) {it : Nat} {B : Blackboard Val} (hB : b.blackboards.at? it = some B)
    {c : Call Val} (hk : ¬ b.OnBoard it c.key) : (it, c.accessor) ∈ (b.registerOn it c).2 := by
  have hkB : c.key ∉ B.board := fun hm => hk ⟨B, hB, hm⟩
  simp only [registerOn, hB, (h it B hB).returned_of_not_mem none c hkB]
  exact List.mem_cons_self

omit [DecidableEq Ty] in
/-- `operator[]` finds or makes the wave. -/
theorem others_snd (b : Brain Val) (wave : String) : ∃ it, (b.others wave).2 = some it := by
  unfold others waveExists
  by_cases hk : wave ∈ b.waves
  · obtain ⟨x, hx⟩ := UnorderedMap.exists_lookup hk
    exact ⟨x.2, by simp [hk, hx]⟩
  · refine ⟨b.blackboards.length, ?_⟩
    simp [hk, makeWave, UnorderedMap.lookup_emplace, AList.lookup_eq_none.2 hk]

theorem asks_of_held (h : b.Inv) {own : Nat} {c : AdapterCall Val} {x : Nat × Accessor Ty} {T : Ty}
    {f : RequireFunction T} (hx : x ∈ (adapterCall own b c).2) (hf : x.2 = .require T f) :
    Asks (adapterCall own b c).1 own x.1 f.key c := by
  cases c with
  | require U k =>
    obtain rfl := eq_of_mem_registerOn h.coherent hx
    cases hf
    exact ⟨rfl, rfl⟩
  | provide U k | globalProvide U k v =>
    obtain rfl := eq_of_mem_registerOn h.coherent hx
    cases hf
  | others wave => cases hx
  | globalRequire wave U k =>
    obtain ⟨it, hit⟩ := others_snd b wave
    simp only [adapterCall, hit] at hx ⊢
    obtain rfl := eq_of_mem_registerOn (others_builds h.coherent wave).coherent hx
    cases hf
    exact ⟨by rw [waves_registerOn]; exact hit, rfl⟩

theorem held_of_asks (h : b.Inv) {own : Nat} {B : Blackboard Val} (hB : b.blackboards.at? own = some B)
    {c : AdapterCall Val} {board : Nat} {k : String} (ha : Asks (adapterCall own b c).1 own board k c) :
    (∃ T, (board, .require T ⟨k⟩) ∈ (adapterCall own b c).2) ∨ (adapterCall own b c).1.OnBoard board k := by
  cases c with
  | provide U k' | globalProvide U k' v | others wave => cases ha
  | require U k' =>
    obtain ⟨rfl, rfl⟩ := ha
    by_cases hk : b.OnBoard own k'
    · exact Or.inr ((registerOn_builds h.coherent own _).onBoard hk)
    · exact Or.inl ⟨U, mem_registerOn h.coherent hB hk⟩
  | globalRequire wave U k' =>
    obtain ⟨it, hit⟩ := others_snd b wave
    have ho := others_builds h.coherent wave
    simp only [adapterCall, hit] at ha ⊢
    obtain ⟨ha, rfl⟩ := ha
    rw [waves_registerOn] at ha
    obtain rfl : it = board := Option.some.inj (hit.symm.trans ha)
    obtain ⟨⟨w, it'⟩, hw, rfl⟩ := Option.map_eq_some_iff.1 hit
    obtain ⟨B', hB'⟩ := (ho.inv h).board wave w it' hw
    by_cases hk : (b.others wave).1.OnBoard it' k'
    · exact Or.inr ((registerOn_builds ho.coherent it' _).onBoard hk)
    · exact Or.inl ⟨U, mem_registerOn ho.coherent hB' hk⟩

/-- What a call asked when it was made it asks for ever. -/
theorem Builds.asks_iff (own : Nat) {b₀ : Brain Val} {c : AdapterCall Val} (h : (adapterCall own b₀ c).1.Builds b)
    (board : Nat) (k : String) : Asks b own board k c ↔ Asks (adapterCall own b₀ c).1 own board k c := by
  cases c with
  | require U k' | provide U k' | globalProvide U k' v | others wave => rfl
  | globalRequire wave U k' =>
    obtain ⟨it, hit⟩ := others_snd b₀ wave
    have hw : ((adapterCall own b₀ (.globalRequire wave U k')).1.waves.lookup wave).map Prod.snd = some it := by
      simp only [adapterCall, hit, waves_registerOn]
      exact hit
    obtain ⟨x, hx, rfl⟩ := Option.map_eq_some_iff.1 hw
    simp only [Asks, h.waves wave x hx, hx]

theorem construct_asks (own : Nat) : ∀ (cs : List (AdapterCall Val)) (b : Brain Val), b.Inv →
    (∃ B, b.blackboards.at? own = some B) →
      (∀ x ∈ (construct own b cs).2, ∀ T f, x.2 = .require T f →
        ∃ c ∈ cs, Asks (construct own b cs).1 own x.1 f.key c) ∧
      ∀ c ∈ cs, ∀ board k, Asks (construct own b cs).1 own board k c →
        (∃ T, (board, .require T ⟨k⟩) ∈ (construct own b cs).2) ∨ (construct own b cs).1.OnBoard board k
  | [], b, _, _ => ⟨fun x hx => (by cases hx), fun c hc => (by cases hc)⟩
  | c :: cs, b, h, ⟨B, hB⟩ => by
    have hc := adapterCall_builds h.coherent own c
    have hcs := (construct_builds own cs (adapterCall own b c).1 hc.coherent).1
    obtain ⟨B', hB', -⟩ := hc.grows own B hB
    obtain ⟨ih₁, ih₂⟩ := construct_asks own cs (adapterCall own b c).1 (hc.inv h) ⟨B', hB'⟩
    refine ⟨fun x hx T f hf => ?_, fun d hd board k ha => ?_⟩
    · rcases List.mem_append.1 hx with hx | hx
      · exact ⟨c, List.mem_cons_self, (hcs.asks_iff own _ _).2 (asks_of_held h hx hf)⟩
      · obtain ⟨d, hd, ha⟩ := ih₁ x hx T f hf
        exact ⟨d, List.mem_cons_of_mem _ hd, ha⟩
    · rcases List.mem_cons.1 hd with rfl | hd
      · rcases held_of_asks h hB ((hcs.asks_iff own _ _).1 ha) with ⟨T, hT⟩ | hk
        · exact Or.inl ⟨T, List.mem_append_left _ hT⟩
        · exact Or.inr (hcs.onBoard hk)
      · rcases ih₂ d hd board k ha with ⟨T, hT⟩ | hk
        · exact Or.inl ⟨T, List.mem_append_right _ hT⟩
        · exact Or.inr hk

/-- Every wave a constructor asked exists. -/
theorem construct_waves (own : Nat) {wave : String} {T : Ty} {k : String} : ∀ (cs : List (AdapterCall Val)) (b : Brain Val),
    b.Coherent → .globalRequire wave T k ∈ cs → ∃ x, (construct own b cs).1.waves.lookup wave = some x
  | c :: cs, b, h, hmem => by
    have hc := adapterCall_builds h own c
    rcases List.mem_cons.1 hmem with rfl | hmem
    · obtain ⟨it, hit⟩ := others_snd b wave
      have hw : ((adapterCall own b (.globalRequire wave T k)).1.waves.lookup wave).map Prod.snd = some it := by
        simp only [adapterCall, hit, waves_registerOn]
        exact hit
      obtain ⟨x, hx, -⟩ := Option.map_eq_some_iff.1 hw
      exact ⟨x, (construct_builds own cs _ hc.coherent).1.waves wave x hx⟩
    · exact construct_waves own cs _ hc.coherent hmem

/-- **A new module finds its data exactly when its requests are met.** -/
theorem built_supplies_iff (h : b.Inv) (file : String) {wave : String} {w : BrainWave String (DynamicModule Ty)} {own : Nat}
    (hw : b.waves.lookup wave = some (w, own)) (c : Construction Val) :
    (b.built own file c).1.Supplies (b.built own file c).2 ↔ ∀ call ∈ c.calls, b.Met own c.calls call := by
  obtain ⟨B, hB⟩ := h.board wave w own hw
  have hbuilds := (built_builds h own file c).1
  have hboard := onBoard_construct c.calls _ (h.logEvent (.opened file)) ⟨B, hB⟩
  obtain ⟨hheld, hasks⟩ := construct_asks own c.calls _ (h.logEvent (.opened file)) ⟨B, hB⟩
  constructor
  · intro hs call hcall
    have hon : ∀ board k, Asks (b.built own file c).1 own board k call →
        b.OnBoard board k ∨ (board = own ∧ ∃ c' ∈ c.calls, Provides k c') := by
      intro board k ha
      rcases hasks call hcall board k ha with ⟨T, hT⟩ | hk
      · exact (hboard board k).1 (hs _ hT T ⟨k⟩ rfl)
      · exact (hboard board k).1 hk
    cases call with
    | require T k => exact (hon own k ⟨rfl, rfl⟩).imp id And.right
    | globalRequire v T k =>
      obtain ⟨⟨w', board⟩, hx⟩ := construct_waves own c.calls _ (h.logEvent (.opened file)).coherent hcall
      have hk := hon board k ⟨by rw [built, hx]; rfl, rfl⟩
      rcases hbuilds.fresh v w' board hx with hx | ⟨-, hn, -⟩
      · exact ⟨w', board, hx, hk⟩
      · have hn : b.blackboards.at? board = none := hn
        rcases hk with ⟨B', hB', -⟩ | ⟨rfl, -⟩
        · rw [hn] at hB'; cases hB'
        · rw [hn] at hB; cases hB
    | provide T k | globalProvide T k value | others v => trivial
  · rintro hmet x hx T f hf
    obtain ⟨call, hcall, ha⟩ := hheld x hx T f hf
    refine (hboard x.1 f.key).2 ?_
    have hm := hmet call hcall
    cases call with
    | require U k =>
      obtain ⟨rfl, rfl⟩ := ha
      exact hm.imp id fun hp => ⟨rfl, hp⟩
    | globalRequire v U k =>
      obtain ⟨w', board, hv, hk⟩ := hm
      obtain ⟨hboard', rfl⟩ := ha
      have hv' : (construct own (b.logEvent (.opened file)) c.calls).1.waves.lookup v = some (w', board) :=
        hbuilds.waves v (w', board) hv
      rw [hv'] at hboard'
      obtain rfl : board = x.1 := Option.some.inj hboard'
      exact hk
    | provide U k | globalProvide U k value | others v => cases ha

/-! ## Whole lives -/

/-- A loaded module is supplied, or its wave is not running, exactly when its requests are met. -/
theorem supplied_loaded_iff (h : b.Inv) (hs : b.Supplied) {wave file name : String}
    {w : BrainWave String (DynamicModule Ty)} {own : Nat} (hw : b.waves.lookup wave = some (w, own))
    (c : Construction Val) :
    Supplied { (b.built own file c).1 with
      waves := (b.built own file c).1.waves.insert wave
        (w.pushBack ⟨"Dynamic" ++ name, file, (b.built own file c).2⟩, own) } ↔
      (w.isRunning = true → ∀ call ∈ c.calls, b.Met own c.calls call) := by
  have hb := (built_builds h own file c).1
  have hs' : (b.built own file c).1.Supplied := hb.supplied hs
  rw [← built_supplies_iff h file hw c]
  constructor
  · intro hsup hr
    exact hsup wave _ own (AList.lookup_insert _) hr ⟨"Dynamic" ++ name, file, (b.built own file c).2⟩ (by
      simp [BrainWave.pushBack])
  · intro hnew k w₀ board hw₀ hr m hm
    rw [UnorderedMap.lookup_insert_if] at hw₀
    split at hw₀
    · obtain ⟨rfl, rfl⟩ := Prod.mk.inj (Option.some.inj hw₀)
      rcases List.mem_append.1 hm with hm | hm
      · exact hs' wave w own (hb.waves wave _ hw) hr m hm
      · obtain rfl := List.mem_singleton.1 hm
        exact hnew hr
    · exact hs' k w₀ board hw₀ hr m hm

/-- **The step**: where everything is supplied, it stays so exactly when what is loaded into a running wave has its
requests met. -/
theorem supplied_step_iff (h : b.Inv) (hs : b.Supplied) (i : Input Val) :
    (b.step i).Supplied ↔ b.LoadsSupplied i := by
  cases i with
  | call board a => exact iff_of_true ((call_builds h board a).supplied hs) trivial
  | command c =>
    cases c with
    | createWave inputs => exact iff_of_true ((createWave_builds h.coherent inputs).supplied hs) trivial
    | execute inputs => exact iff_of_true (execute_supplied h hs) trivial
    | addDynamicModule inputs found =>
      have hr := addDynamicModule_result h inputs found
      simp only [step, command]
      generalize b.addDynamicModule inputs found = r at hr ⊢
      cases hr with
      | unusable _ hbad =>
        refine iff_of_true hs ?_
        rcases inputs with _ | ⟨command, _ | ⟨wave, _ | ⟨file, more⟩⟩⟩
        · trivial
        · trivial
        · trivial
        · intro w own c name hw
          rw [AList.lookup_eq_none.2 (notMem_of_unusable hbad)] at hw
          cases hw
      | refused command wave file more events hn he =>
        refine iff_of_true hs ?_
        intro w own c name _ _ hc
        rw [hn] at hc; cases hc
      | threw command wave file more w own c t hw hc ht =>
        refine iff_of_true ?_ ?_
        · have hb := (built_builds h own file c).1.supplied (b := b.logEvent (.opened file)) hs
          split
          · exact hb
          · exact hb
        · intro w' own' c' name _ _ hc' ht'
          obtain rfl : c = c' := Option.some.inj (hc.symm.trans hc')
          rw [ht] at ht'; cases ht'
      | loaded command wave file more w own c name hw hc ht =>
        rw [supplied_loaded_iff h hs hw c]
        constructor
        · intro hmet w' own' c' name' hw' hr hc' _
          obtain ⟨rfl, rfl⟩ := Prod.mk.inj (Option.some.inj (hw.symm.trans hw'))
          obtain rfl : c = c' := Option.some.inj (hc.symm.trans hc')
          exact hmet hr
        · intro hmet hr
          exact hmet w own c name hw hr hc ht

/-- **When running modules find their data**: in every state a Brain gets to, exactly when, each time a module is loaded
into a running wave, its requests are met. -/
theorem supplied_exact_iff (inputs : List (Input Val)) :
    (∀ pre post, inputs = pre ++ post → (after pre).Supplied) ↔
      Runs.AtEvery (fun pre i => (after pre).LoadsSupplied i) inputs := by
  have h0 : (new : Brain Val).Supplied := fun _ _ _ hw => (by cases hw)
  refine (Runs.forall_prefix_iff h0).trans (Runs.atEvery_congr fun pre i hpre => ?_)
  refine supplied_step_iff (after_inv pre) ?_ i
  have hstep : ∀ (b : Brain Val) i, b.Inv ∧ b.Supplied → b.LoadsSupplied i → (b.step i).Inv ∧ (b.step i).Supplied :=
    fun b i h hl => ⟨step_inv h.1 i, (supplied_step_iff h.1 h.2 i).2 hl⟩
  exact (Runs.run_invariant_of_atEvery ⟨after_inv [], h0⟩ hstep hpre).2

/-- A module that requires what nobody provides is loaded into a running wave. -/
theorem not_supplied_loaded :
    ¬ (after [.command (.createWave ["createWave", "wave"]), .command (.execute ["execute"]),
      .command (.addDynamicModule ["addDynamicModule", "wave", "Reader.so"]
        (.ok ⟨.ok ⟨[.require .int "test"], .ok "Reader"⟩, .ok ()⟩))] : Brain Comm.Plain.Value).Supplied := by
  intro h
  obtain ⟨B, hB, hk⟩ := h "wave" _ 0 rfl rfl ⟨"DynamicReader", "Reader.so", [(0, .require .int ⟨"test"⟩)]⟩
    List.mem_cons_self _ List.mem_cons_self .int ⟨"test"⟩ rfl
  obtain rfl := Option.some.inj hB
  exact absurd hk (by decide)

end Brain
end Core
end NaoFramework
