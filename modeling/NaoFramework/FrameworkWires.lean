import NaoFramework.BrainStored
/-!
# FrameworkWires — which accessors a key connects, and with which types

Every accessor that was handed out points to a key of a Blackboard, and the state of the key in `typeCheck_` says what is
agreed there.  On a key that is not provided locally every accessor has one type, and so has the value, once there is a
global provider.  On one that is, all accessors belong to the modules of the Blackboard's own wave, and each request has
the type of the last provider registered before it.  This is kept (`Wired`) by what constructors register and by what
accessors store, as long as a key that is requested before it is provided is of one type (`Blackboard.Agrees`).
-/
namespace NaoFramework

namespace Comm

variable {Ty : Type} {Val : Ty → Type}

namespace Accessor

def key : Accessor Ty → String
  | require _ f => f.key
  | provide _ f => f.key

def type : Accessor Ty → Ty
  | require T _ | provide T _ => T

end Accessor

theorem Call.key_accessor (c : Call Val) : c.accessor.key = c.key := by cases c <;> rfl

theorem Call.type_accessor (c : Call Val) : c.accessor.type = c.type := by cases c <;> rfl

theorem Call.storedOn_eq_none {k : String} {c : Call Val} (h : c.key = k → c.isProvision = false) : c.storedOn k = none := by
  refine Option.eq_none_iff_forall_ne_some.2 fun x hx => ?_
  obtain ⟨hk, hp, -⟩ := Call.of_storedOn hx
  rw [h hk] at hp
  cases hp

/-! ## The state of a key -/

namespace KeyPast

variable [DecidableEq Ty] {x : KeyPast Ty} {c : Call Val} {T : Ty} {st : TypeState}

theorem type_of_next (ha : x.accepts c = true) (hag : ∀ U, x = requested U → c.type = U)
    (hn : (x.next c).check = some (st, T)) : c.type = T := by
  cases x with
  | requested U =>
    have := hag U rfl
    cases c <;> simp_all [next, check, Call.type]
  | late U W g =>
    rcases next_late U W g c with e | e <;> rw [e] at hn <;> cases c <;> simp_all [accepts, check, Call.type]
  | _ => cases c <;> simp_all [next, check, accepts, Call.type]

/-- Where an agreed type comes from. -/
theorem check_of_next (hn : (x.next c).check = some (st, T)) (hst : st ≠ .provided) :
    x = fresh ∨ ∃ st₀, st₀ ≠ .provided ∧ x.check = some (st₀, T) := by
  cases x with
  | late U W g =>
    rcases next_late U W g c with e | e <;> rw [e] at hn <;> simp_all [check]
  | _ => cases c <;> simp_all [next, check]

theorem requested_of_next (hn : (x.next c).check = some (.requested, T)) : x = fresh ∨ x.check = some (.requested, T) := by
  cases x with
  | late U W g =>
    rcases next_late U W g c with e | e <;> rw [e] at hn <;> simp_all [check]
  | _ => cases c <;> simp_all [next, check]

/-- A key is provided locally from its first call on; then it is provided again, or requested with the type it has. -/
theorem provided_of_next (hn : (x.next c).check = some (.provided, T)) :
    (x = fresh ∧ x.accepts c = true ∧ ∃ k, c = .provide T k) ∨ ∃ U, x.check = some (.provided, U) ∧
      ((x.accepts c = true ∧ ∃ k, c = .provide T k) ∨ (U = T ∧ (x.accepts c = true → ∃ k, c = .require T k))) := by
  cases x with
  | late U W g =>
    rcases next_late U W g c with e | e <;> rw [e] at hn <;> cases hn
  | _ => cases c <;> simp_all [next, check, accepts]

/-- A key is provided globally from one call on, which stores a value; then it is only requested. -/
theorem globalProvided_of_next (hn : (x.next c).check = some (.globalProvided, T)) :
    (x.check = some (.globalProvided, T) ∧ (x.accepts c = true → c.isProvision = false)) ∨
      (x.accepts c = true ∧ ∃ k v, c = .globalProvide T k v) := by
  cases x with
  | fresh =>
    cases c with
    | globalProvide V k v =>
      obtain rfl : V = T := congrArg Prod.snd (Option.some.inj hn)
      exact Or.inr ⟨rfl, k, v, rfl⟩
    | _ => cases hn
  | late U W g =>
    cases c with
    | globalProvide V k v =>
      by_cases hV : V = U
      · subst hV
        simp only [next, if_true, check, Option.some.injEq, Prod.mk.injEq, true_and] at hn
        subst hn
        exact Or.inr ⟨by simp [accepts], k, v, rfl⟩
      · simp [next, hV, check] at hn
    | _ => cases hn
  | _ => cases c <;> simp_all [next, check, accepts, Call.isProvision]

end KeyPast

namespace Blackboard

variable {B : Blackboard Val}

/-- A key that was requested and is not provided yet is called with the type that was requested. -/
def Agrees (B : Blackboard Val) (c : Call Val) : Prop :=
  c.key ∉ B.board → ∀ st T, B.typeCheck.lookup c.key = some (st, T) → c.type = T

/-- What is handed out has an entry in `typeCheck_`. -/
theorem Coherent.mem_of_backs (h : B.Coherent) {a : Accessor Ty} (ha : B.Backs a) : a.key ∈ B.typeCheck := by
  cases a with
  | require T f => exact ha
  | provide T f =>
    obtain ⟨past, h⟩ := h
    rw [mem_typeCheck h]
    have ho := (h.onBoard f.key).1 ha
    intro hf
    rw [Accessor.key] at hf
    rw [hf] at ho
    cases ho

variable [DecidableEq Ty]

theorem lookup_after_of_ne (h : B.Coherent) (c : Call Val) {k : String} (hk : k ≠ c.key) :
    (B.after c).typeCheck.lookup k = B.typeCheck.lookup k := by
  obtain ⟨past, h⟩ := h
  have hr := (register_spec h none c).2.check k
  rw [Function.update_of_ne hk, ← h.check] at hr
  exact hr

theorem returned_eq (h : B.Coherent) (c : Call Val) :
    (B.register none c).returned = if B.accepts c then [c.accessor] else [] := by
  obtain ⟨past, h⟩ := h
  rw [accepts_eq h, Registration.returned, (register_spec h none c).1]
  cases (past c.key).accepts c <;> rfl

/-- **What a registration does to its key**, read off the key's past. -/
theorem Coherent.exists_past (h : B.Coherent) (c : Call Val) (hag : B.Agrees c) :
    ∃ x : KeyPast Ty, B.typeCheck.lookup c.key = x.check ∧ (B.after c).typeCheck.lookup c.key = (x.next c).check ∧
      B.accepts c = x.accepts c ∧ ∀ U, x = .requested U → c.type = U := by
  obtain ⟨past, h⟩ := h
  have hr := (register_spec h none c).2.check c.key
  rw [Function.update_self] at hr
  refine ⟨past c.key, h.check _, hr, accepts_eq h c, fun U hU => ?_⟩
  refine hag (fun hm => ?_) .requested U (by rw [h.check, hU]; rfl)
  have ho := (h.onBoard _).1 hm
  rw [hU] at ho
  cases ho

end Blackboard

end Comm

namespace Core

open Comm (Blackboard Call Accessor AccessorCall TypeState KeyPast)
open Modules (AdapterCall DynamicModule)

variable {Ty : Type} {Val : Ty → Type}

/-! ## Registration order -/

/-- The type of the last of the accessors that provides a key of a Blackboard. -/
def providedAs (board : Nat) (k : String) (l : List (Nat × Accessor Ty)) : Option Ty :=
  (l.filterMap fun
    | (it, .provide T f) => if it = board ∧ f.key = k then some T else none
    | _ => none).getLast?

/-- **Each request of the key has the type of the last provider before it.** -/
def Follows (board : Nat) (k : String) (l : List (Nat × Accessor Ty)) : Prop :=
  Runs.AtEvery (fun pre x => ∀ T, x = (board, .require T ⟨k⟩) → providedAs board k pre = some T) l

theorem providedAs_snoc_provide (board : Nat) (k : String) (l : List (Nat × Accessor Ty)) (T : Ty) :
    providedAs board k (l ++ [(board, .provide T ⟨k⟩)]) = some T := by
  simp [providedAs]

theorem providedAs_snoc {board : Nat} {k : String} (l : List (Nat × Accessor Ty)) {x : Nat × Accessor Ty}
    (hx : ∀ T, x ≠ (board, .provide T ⟨k⟩)) : providedAs board k (l ++ [x]) = providedAs board k l := by
  obtain ⟨it, a⟩ := x
  cases a with
  | require T f => simp [providedAs]
  | provide T f =>
    have hn : ¬ (it = board ∧ f.key = k) := by
      rintro ⟨rfl, rfl⟩
      exact hx T rfl
    simp [providedAs, hn]

theorem Follows.snoc {board : Nat} {k : String} {l : List (Nat × Accessor Ty)} {x : Nat × Accessor Ty} :
    Follows board k (l ++ [x]) ↔
      Follows board k l ∧ ∀ T, x = (board, .require T ⟨k⟩) → providedAs board k l = some T := Runs.atEvery_snoc

/-- An accessor of another key says nothing. -/
theorem Follows.snoc_of_ne {board : Nat} {k : String} {l : List (Nat × Accessor Ty)} {T : Ty} {x : Nat × Accessor Ty}
    (h : Follows board k l ∧ providedAs board k l = some T) (hx : ¬ (x.1 = board ∧ x.2.key = k)) :
    Follows board k (l ++ [x]) ∧ providedAs board k (l ++ [x]) = some T := by
  refine ⟨Follows.snoc.2 ⟨h.1, ?_⟩, ?_⟩
  · rintro U rfl
    exact absurd ⟨rfl, rfl⟩ hx
  · rw [providedAs_snoc l, h.2]
    rintro U rfl
    exact hx ⟨rfl, rfl⟩

namespace Brain

/-- The entry of a key in `typeCheck_` of a Blackboard. -/
def checkOf (b : Brain Val) (board : Nat) (k : String) : Option (TypeState × Ty) :=
  (b.blackboards.at? board).bind (·.typeCheck.lookup k)

/-- **What connects the accessors held in the name of each wave**, those of its modules and of one that is being loaded into
it. -/
structure Wired (b : Brain Val) (held : String → List (Nat × Accessor Ty)) : Prop where
  home : ∀ wave, ∀ x ∈ held wave, ∃ name w, b.waves.lookup name = some (w, x.1)
  backs : ∀ wave, ∀ x ∈ held wave, b.Backs x
  typed : ∀ wave, ∀ x ∈ held wave, ∀ st T, b.checkOf x.1 x.2.key = some (st, T) → st ≠ .provided → x.2.type = T
  values : ∀ board k T, b.checkOf board k = some (.globalProvided, T) → ∃ v, b.stored board k = some ⟨T, v⟩
  /-- Of a key provided locally, the requests follow the providers, the last of which says the type. -/
  order : ∀ wave w own k T, b.waves.lookup wave = some (w, own) → b.checkOf own k = some (.provided, T) →
    Follows own k (held wave) ∧ providedAs own k (held wave) = some T
  /-- Only the Blackboard's own wave has accessors of it. -/
  own : ∀ wave w own k T, b.waves.lookup wave = some (w, own) → b.checkOf own k = some (.provided, T) →
    ∀ other, ∀ x ∈ held other, x.1 = own → x.2.key = k → other = wave

variable {b b' : Brain Val} {held : String → List (Nat × Accessor Ty)}

theorem checkOf_of_backs (h : b.Coherent) {x : Nat × Accessor Ty} (hx : b.Backs x) : b.checkOf x.1 x.2.key ≠ none := by
  obtain ⟨B, hB, hback⟩ := hx
  obtain ⟨p, hp⟩ := UnorderedMap.exists_lookup ((h x.1 B hB).mem_of_backs hback)
  rw [checkOf, hB, Option.bind_some, hp]
  exact Option.some_ne_none p

/-- What changes no entry of a key keeps the wires, if it stores no value of another type. -/
theorem Wired.congr (h : b.Wired held) (hb : b.Builds b') (hc : ∀ board k, b'.checkOf board k = b.checkOf board k)
    (hs : ∀ board k T, b.checkOf board k = some (.globalProvided, T) → (∃ v, b.stored board k = some ⟨T, v⟩) →
      ∃ v, b'.stored board k = some ⟨T, v⟩) : b'.Wired held := by
  have hold : ∀ wave w own k T, b'.waves.lookup wave = some (w, own) → b'.checkOf own k = some (.provided, T) →
      b.waves.lookup wave = some (w, own) ∧ b.checkOf own k = some (.provided, T) := by
    intro wave w own k T hw hk
    rw [hc] at hk
    rcases hb.fresh wave w own hw with hw | ⟨-, hn, -⟩
    · exact ⟨hw, hk⟩
    · rw [checkOf, hn] at hk
      cases hk
  refine ⟨fun wave x hx => ?_, fun wave x hx => hb.backs (h.backs wave x hx), fun wave x hx st T hk hst => ?_,
    fun board k T hk => ?_, fun wave w own k T hw hk => ?_, fun wave w own k T hw hk => ?_⟩
  · obtain ⟨name, w, hw⟩ := h.home wave x hx
    exact ⟨name, w, hb.waves name _ hw⟩
  · rw [hc] at hk
    exact h.typed wave x hx st T hk hst
  · rw [hc] at hk
    exact hs board k T hk (h.values board k T hk)
  · obtain ⟨hw, hk⟩ := hold wave w own k T hw hk
    exact h.order wave w own k T hw hk
  · obtain ⟨hw, hk⟩ := hold wave w own k T hw hk
    exact h.own wave w own k T hw hk

/-- The wires do not depend on what the waves are, but on which there are and where their Blackboards are. -/
theorem Wired.setWaves (h : b.Wired held) {waves : UnorderedMap String (BrainWave String (DynamicModule Ty) × Nat)}
    (hw : ∀ name it, (∃ w, waves.lookup name = some (w, it)) ↔ ∃ w, b.waves.lookup name = some (w, it)) :
    Wired { b with waves := waves } held where
  home wave x hx := by
    obtain ⟨name, hn⟩ := h.home wave x hx
    exact ⟨name, (hw name x.1).2 hn⟩
  backs := h.backs
  typed := h.typed
  values := h.values
  order wave w own k T hl hk := by
    obtain ⟨w₀, hw₀⟩ := (hw wave own).1 ⟨w, hl⟩
    exact h.order wave w₀ own k T hw₀ hk
  own wave w own k T hl hk := by
    obtain ⟨w₀, hw₀⟩ := (hw wave own).1 ⟨w, hl⟩
    exact h.own wave w₀ own k T hw₀ hk

theorem Wired.setWave (h : b.Wired held) {k : String} {w : BrainWave String (DynamicModule Ty)} {own : Nat}
    (hw : b.waves.lookup k = some (w, own)) (w' : BrainWave String (DynamicModule Ty)) :
    Wired { b with waves := b.waves.insert k (w', own) } held := by
  refine h.setWaves fun name it => ?_
  rw [UnorderedMap.lookup_insert_if]
  split
  · rename_i e
    subst e
    constructor
    · rintro ⟨w₁, e⟩
      obtain ⟨-, rfl⟩ := Prod.mk.inj (Option.some.inj e)
      exact ⟨w, hw⟩
    · rintro ⟨w₁, hw₁⟩
      obtain ⟨-, rfl⟩ := Prod.mk.inj (Option.some.inj (hw.symm.trans hw₁))
      exact ⟨_, rfl⟩
  · rfl

/-! ### Waves that are made -/

theorem checkOf_others (b : Brain Val) (wave : String) (board : Nat) (k : String) :
    (b.others wave).1.checkOf board k = b.checkOf board k := by
  simp only [others]
  split
  · rfl
  · simp only [checkOf, makeWave, NodeList.at?_emplaceFront]
    split
    · rename_i e
      rw [e, NodeList.at?_length]; rfl
    · rfl

theorem Wired.others (h : b.Wired held) (hi : b.Coherent) (wave : String) : (b.others wave).1.Wired held :=
  h.congr (others_builds hi wave) (checkOf_others b wave) fun board k T _ hv => by rwa [stored_others]

theorem Wired.createWave (h : b.Wired held) (hi : b.Coherent) (inputs : List String) : (b.createWave inputs).2.Wired held := by
  unfold Brain.createWave
  split
  · exact h.others hi _
  · exact h

/-! ### Waves that are started -/

theorem lookup_executed (hv : b.blackboards.all Blackboard.validateGlobals = true) (wave : String) :
    b.execute.2.waves.lookup wave = (b.waves.lookup wave).map fun p => ((p.1.execute wave).state, p.2) := by
  simp only [Brain.execute, if_pos hv, UnorderedMap.lookup_mapValues]

theorem Wired.execute (h : b.Wired held) : b.execute.2.Wired held := by
  by_cases hv : b.blackboards.all Blackboard.validateGlobals = true
  · have he : b.execute.2 = { b with waves := b.execute.2.waves } := by simp only [Brain.execute, if_pos hv]
    rw [he]
    refine h.setWaves fun name it => ?_
    rw [lookup_executed hv]
    constructor
    · rintro ⟨w, hw⟩
      obtain ⟨⟨w₀, it₀⟩, hw₀, e⟩ := Option.map_eq_some_iff.1 hw
      obtain ⟨-, rfl⟩ := Prod.mk.inj e
      exact ⟨w₀, hw₀⟩
    · rintro ⟨w, hw⟩
      exact ⟨_, by rw [hw]; rfl⟩
  · simp only [Brain.execute, if_neg hv]
    exact h

/-! ### Accessor calls -/

/-- The Brain with a call made of an accessor that points to a Blackboard. -/
def perform (b : Brain Val) (it : Nat) (a : AccessorCall Val) : Brain Val :=
  { b with blackboards := b.blackboards.modifyAt it (·.perform a) }

theorem checkOf_perform (b : Brain Val) (it : Nat) (a : AccessorCall Val) (board : Nat) (k : String) :
    (b.perform it a).checkOf board k = b.checkOf board k := by
  simp only [checkOf, perform, NodeList.at?_modifyAt]
  split
  · cases b.blackboards.at? board with
    | none => rfl
    | some B => cases a <;> rfl
  · rfl

theorem stored_perform_eq {b : Brain Val} {it : Nat} {B : Blackboard Val} (hB : b.blackboards.at? it = some B)
    (a : AccessorCall Val) (board : Nat) (k : String) :
    (b.perform it a).stored board k = if board = it then (a.storedOn k).or (b.stored board k) else b.stored board k := by
  simp only [stored, perform, NodeList.at?_modifyAt]
  split
  · rename_i e
    subst e
    rw [hB, Option.map_some, Option.bind_some, Blackboard.stored_perform]
    rfl
  · rfl

theorem perform_builds (hi : b.Coherent) {it : Nat} {a : AccessorCall Val} (ha : b.Backs (it, a.accessor)) :
    b.Builds (b.perform it a) := by
  obtain ⟨B, hB, hback⟩ := ha
  refine modifyAt_builds hi fun B' hB' => ?_
  obtain rfl : B = B' := Option.some.inj (hB.symm.trans hB')
  exact (hi it B hB).perform hback

/-- **An accessor that was handed out keeps the wires.** -/
theorem Wired.perform (h : b.Wired held) (hi : b.Coherent) {wave : String} {it : Nat} {a : AccessorCall Val}
    (ha : (it, a.accessor) ∈ held wave) : (b.perform it a).Wired held := by
  have hback := h.backs wave _ ha
  obtain ⟨B, hB, -⟩ := id hback
  refine h.congr (perform_builds hi hback) (checkOf_perform b it a) fun board k T hk hv => ?_
  rw [stored_perform_eq hB]
  split
  · rename_i e
    subst e
    cases hs : a.storedOn k with
    | none => exact hv
    | some x =>
      have hacc : a.accessor = .provide x.1 ⟨k⟩ := congrArg AccessorCall.accessor (AccessorCall.of_storedOn hs)
      have hT := h.typed wave _ ha .globalProvided T (by rw [hacc]; exact hk) (by decide)
      rw [hacc] at hT
      obtain rfl : x.1 = T := hT
      exact ⟨x.2, rfl⟩
  · exact hv

/-! ### Registrations -/

variable [DecidableEq Ty]

section

variable {it : Nat} {B : Blackboard Val} {c : Call Val}

theorem registerOn_eq (h : b.Coherent) (hB : b.blackboards.at? it = some B) (c : Call Val) :
    b.registerOn it c = ({ b with blackboards := b.blackboards.modifyAt it fun _ => B.after c },
      if B.accepts c then [(it, c.accessor)] else []) := by
  simp only [registerOn, hB, Blackboard.returned_eq (h it B hB) c]
  cases B.accepts c <;> rfl

theorem checkOf_registerOn (h : b.Coherent) (hB : b.blackboards.at? it = some B) (c : Call Val) (board : Nat) (k : String) :
    (b.registerOn it c).1.checkOf board k =
      if board = it ∧ k = c.key then (B.after c).typeCheck.lookup c.key else b.checkOf board k := by
  rw [registerOn_eq h hB]
  simp only [checkOf, NodeList.at?_modifyAt]
  by_cases hb : board = it
  · subst hb
    simp only [if_true, hB, Option.map_some, Option.bind_some, true_and]
    split
    · rename_i hk
      rw [hk]
    · rename_i hk
      exact Blackboard.lookup_after_of_ne (h board B hB) c hk
  · simp [hb]

theorem stored_registerOn_eq (h : b.Coherent) (hB : b.blackboards.at? it = some B) (c : Call Val) (board : Nat) (k : String) :
    (b.registerOn it c).1.stored board k =
      if board = it ∧ B.accepts c = true then (c.storedOn k).or (b.stored board k) else b.stored board k := by
  rw [registerOn_eq h hB]
  simp only [stored, NodeList.at?_modifyAt]
  by_cases hb : board = it
  · subst hb
    simp only [if_true, hB, Option.map_some, Option.bind_some, true_and, Blackboard.stored_after]
  · simp [hb]

/-- What a registration agrees on a key has no accessor of another type. -/
theorem checkOf_of_registerOn (h : b.Coherent) (hB : b.blackboards.at? it = some B) (hag : B.Agrees c) {board : Nat}
    {k : String} {st : TypeState} {T : Ty} (hk : (b.registerOn it c).1.checkOf board k = some (st, T))
    (hst : st ≠ .provided) :
    b.checkOf board k = none ∨ ∃ st₀, st₀ ≠ .provided ∧ b.checkOf board k = some (st₀, T) := by
  rw [checkOf_registerOn h hB] at hk
  split at hk
  · rename_i e
    obtain ⟨rfl, rfl⟩ := e
    obtain ⟨x, hx, hx', -, -⟩ := (h board B hB).exists_past c hag
    rw [hx'] at hk
    rw [checkOf, hB, Option.bind_some, hx]
    rcases KeyPast.check_of_next hk hst with rfl | hold
    · exact Or.inl rfl
    · exact Or.inr hold
  · exact Or.inr ⟨st, hst, hk⟩

/-- A key that is only requested after a registration was before, or is new. -/
theorem requested_of_registerOn (h : b.Coherent) (hB : b.blackboards.at? it = some B) (hag : B.Agrees c) {board : Nat}
    {k : String} {T : Ty} (hk : (b.registerOn it c).1.checkOf board k = some (.requested, T)) :
    b.checkOf board k = none ∨ b.checkOf board k = some (.requested, T) := by
  rw [checkOf_registerOn h hB] at hk
  split at hk
  · rename_i e
    obtain ⟨rfl, rfl⟩ := e
    obtain ⟨x, hx, hx', -, -⟩ := (h board B hB).exists_past c hag
    rw [hx'] at hk
    rw [checkOf, hB, Option.bind_some, hx]
    exact (KeyPast.requested_of_next hk).imp_left fun e => by rw [e]; rfl
  · exact Or.inr hk

/-- **A key that is provided locally** after a registration. -/
theorem provided_of_registerOn (h : b.Coherent) (hB : b.blackboards.at? it = some B) (hag : B.Agrees c) {board : Nat}
    {k : String} {T : Ty} (hk : (b.registerOn it c).1.checkOf board k = some (.provided, T)) :
    (b.checkOf board k = none ∧ board = it ∧ B.accepts c = true ∧ c = .provide T k) ∨
      ∃ U, b.checkOf board k = some (.provided, U) ∧ ((board = it ∧ B.accepts c = true ∧ c = .provide T k) ∨
        (U = T ∧ (board = it → k = c.key → B.accepts c = true → c = .require T k))) := by
  rw [checkOf_registerOn h hB] at hk
  split at hk
  · rename_i e
    obtain ⟨rfl, rfl⟩ := e
    obtain ⟨x, hx, hx', ha, -⟩ := (h board B hB).exists_past c hag
    rw [hx'] at hk
    rw [checkOf, hB, Option.bind_some, hx, ha]
    rcases KeyPast.provided_of_next hk with ⟨rfl, hacc, k, rfl⟩ | ⟨U, hU, ⟨hacc, k, rfl⟩ | ⟨rfl, hr⟩⟩
    · exact Or.inl ⟨rfl, rfl, hacc, rfl⟩
    · exact Or.inr ⟨U, hU, Or.inl ⟨rfl, hacc, rfl⟩⟩
    · refine Or.inr ⟨U, hU, Or.inr ⟨rfl, fun _ _ hacc => ?_⟩⟩
      obtain ⟨k, rfl⟩ := hr hacc
      rfl
  · rename_i hne
    exact Or.inr ⟨T, hk, Or.inr ⟨rfl, fun hb hkey => absurd ⟨hb, hkey⟩ hne⟩⟩

/-- A registration stores nothing on a key that is provided locally. -/
theorem stored_of_provided (h : b.Coherent) (hB : b.blackboards.at? it = some B) (hag : B.Agrees c) {board : Nat}
    {k : String} {T U : Ty} (hk : (b.registerOn it c).1.checkOf board k = some (.provided, T))
    (hk₀ : b.checkOf board k = some (.provided, U)) : (b.registerOn it c).1.stored board k = b.stored board k := by
  rw [stored_registerOn_eq h hB]
  split
  · rename_i ha
    have hn : c.storedOn k = none := by
      by_cases hkey : k = c.key
      · rcases provided_of_registerOn h hB hag hk with ⟨hn, -⟩ | ⟨V, -, ⟨-, -, rfl⟩ | ⟨-, hr⟩⟩
        · rw [hk₀] at hn
          cases hn
        · rfl
        · rw [hr ha.1 hkey ha.2]; rfl
      · exact Call.storedOn_eq_none fun e => absurd e.symm hkey
    rw [hn, Option.none_or]
  · rfl

/-- A key that is provided globally after a registration was before, with the same value, or has one now. -/
theorem globalProvided_of_registerOn (h : b.Coherent) (hB : b.blackboards.at? it = some B) (hag : B.Agrees c)
    {board : Nat} {k : String} {T : Ty} (hk : (b.registerOn it c).1.checkOf board k = some (.globalProvided, T)) :
    (b.checkOf board k = some (.globalProvided, T) ∧ (b.registerOn it c).1.stored board k = b.stored board k) ∨
      ∃ v, (b.registerOn it c).1.stored board k = some ⟨T, v⟩ := by
  rw [checkOf_registerOn h hB] at hk
  rw [stored_registerOn_eq h hB]
  split at hk
  · rename_i e
    obtain ⟨rfl, rfl⟩ := e
    obtain ⟨x, hx, hx', ha, -⟩ := (h board B hB).exists_past c hag
    rw [hx'] at hk
    rw [checkOf, hB, Option.bind_some, hx, ha]
    rcases KeyPast.globalProvided_of_next hk with ⟨hold, hp⟩ | ⟨hacc, k, v, rfl⟩
    · refine Or.inl ⟨hold, ?_⟩
      split
      · rename_i hacc
        rw [Call.storedOn_eq_none fun _ => hp hacc.2, Option.none_or]
      · rfl
    · exact Or.inr ⟨v, by rw [if_pos ⟨rfl, hacc⟩, Call.storedOn, Call.key, if_pos rfl]; rfl⟩
  · rename_i hne
    refine Or.inl ⟨hk, ?_⟩
    split
    · rename_i hacc
      rw [Call.storedOn_eq_none fun hkey => absurd ⟨hacc.1, hkey.symm⟩ hne, Option.none_or]
    · rfl

/-- A key is provided locally anew only by a registration that is not global. -/
theorem provided_before_or_local (h : b.Coherent) (hB : b.blackboards.at? it = some B) (hag : B.Agrees c) {board : Nat}
    {k : String} {T : Ty} (hk : (b.registerOn it c).1.checkOf board k = some (.provided, T)) :
    b.checkOf board k = some (.provided, T) ∨ (board = it ∧ c.isGlobal = false) := by
  rcases provided_of_registerOn h hB hag hk with ⟨-, e, -, rfl⟩ | ⟨U, hU, ⟨e, -, rfl⟩ | ⟨rfl, -⟩⟩
  · exact Or.inr ⟨e, rfl⟩
  · exact Or.inr ⟨e, rfl⟩
  · exact Or.inl hU

/-- What a wave holds after a registration it held before, or was handed out. -/
theorem held_of_registerOn (h : b.Coherent) (hB : b.blackboards.at? it = some B) {wave other : String}
    {x : Nat × Accessor Ty} (hx : x ∈ Function.update held wave (held wave ++ (b.registerOn it c).2) other) :
    x ∈ held other ∨ (other = wave ∧ B.accepts c = true ∧ x = (it, c.accessor)) := by
  rw [Function.update_apply, registerOn_eq h hB] at hx
  split at hx
  · rename_i e
    subst e
    rcases List.mem_append.1 hx with hx | hx
    · exact Or.inl hx
    · split at hx
      · rename_i ha
        exact Or.inr ⟨rfl, ha, List.mem_singleton.1 hx⟩
      · cases hx
  · exact Or.inl hx

/-- **Requests still have the type of the last provider** when a wave is handed out one accessor more. -/
theorem follows_registerOn (h : b.Coherent) (hB : b.blackboards.at? it = some B) (hag : B.Agrees c)
    {l : List (Nat × Accessor Ty)} (hl : ∀ x ∈ l, b.checkOf x.1 x.2.key ≠ none) {own : Nat} {k : String} {T : Ty}
    (ho : ∀ U, b.checkOf own k = some (.provided, U) → Follows own k l ∧ providedAs own k l = some U)
    (hk : (b.registerOn it c).1.checkOf own k = some (.provided, T)) :
    Follows own k (l ++ (b.registerOn it c).2) ∧ providedAs own k (l ++ (b.registerOn it c).2) = some T := by
  have hnew : (b.registerOn it c).2 = if B.accepts c then [(it, c.accessor)] else [] := by rw [registerOn_eq h hB]
  rw [hnew]
  rcases provided_of_registerOn h hB hag hk with ⟨hn, rfl, ha, rfl⟩ | ⟨U, hU, ⟨rfl, ha, rfl⟩ | ⟨rfl, hr⟩⟩
  · -- the key is new: nobody has requested it
    rw [if_pos ha]
    refine ⟨Follows.snoc.2 ⟨?_, fun T' e => by cases e⟩, providedAs_snoc_provide _ _ _ _⟩
    rintro pre x post e T' rfl
    exact absurd hn (hl (own, .require T' ⟨k⟩) (by rw [e]; simp))
  · rw [if_pos ha]
    exact ⟨Follows.snoc.2 ⟨(ho U hU).1, fun T' e => by cases e⟩, providedAs_snoc_provide _ _ _ _⟩
  · have hord := ho U hU
    split
    · rename_i ha
      by_cases hx : it = own ∧ c.key = k
      · obtain ⟨rfl, rfl⟩ := hx
        rw [hr rfl rfl ha]
        refine ⟨Follows.snoc.2 ⟨hord.1, ?_⟩, ?_⟩
        · rintro T' e
          cases e
          exact hord.2
        · exact (providedAs_snoc _ fun T' e => by cases e).trans hord.2
      · exact Follows.snoc_of_ne hord (by rwa [Call.key_accessor])
    · rw [List.append_nil]
      exact hord

end

/-- **A registration keeps the wires**, and adds what it hands out to those of a wave: of its own Blackboard, unless the
registration is global. -/
theorem Wired.registerOn (h : b.Wired held) (hi : b.Inv) (ho : b.OneToOne) {name wave : String}
    {w : BrainWave String (DynamicModule Ty)} {it : Nat} (hw : b.waves.lookup name = some (w, it)) (c : Call Val)
    (hag : ∀ B, b.blackboards.at? it = some B → B.Agrees c) (hlocal : c.isGlobal = false → name = wave) :
    (b.registerOn it c).1.Wired (Function.update held wave (held wave ++ (b.registerOn it c).2)) := by
  obtain ⟨B, hB⟩ := hi.board name w it hw
  have hag := hag B hB
  have hco := hi.coherent
  have hbuilds := registerOn_builds hco it c
  have hold : ∀ other, ∀ x ∈ held other, b.checkOf x.1 x.2.key ≠ none :=
    fun other x hx => checkOf_of_backs hco (h.backs other x hx)
  refine ⟨fun other x hx => ?_, fun other x hx => ?_, fun other x hx st T hk hst => ?_, fun board k T hk => ?_,
    fun other w' own k T hw' hk => ?_, fun other w' own k T hw' hk other' x hx hx₁ hxk => ?_⟩
  · rw [waves_registerOn]
    rcases held_of_registerOn hco hB hx with hx | ⟨-, -, rfl⟩
    · exact h.home other x hx
    · exact ⟨name, w, hw⟩
  · rcases held_of_registerOn hco hB hx with hx | ⟨-, ha, rfl⟩
    · exact hbuilds.backs (h.backs other x hx)
    · exact backs_registerOn hco it c _ (by rw [registerOn_eq hco hB, if_pos ha]; exact List.mem_cons_self)
  · rcases held_of_registerOn hco hB hx with hx | ⟨-, ha, rfl⟩
    · rcases checkOf_of_registerOn hco hB hag hk hst with hn | ⟨st₀, hst₀, hk₀⟩
      · exact absurd hn (hold other x hx)
      · exact h.typed other x hx st₀ T hk₀ hst₀
    · obtain ⟨y, -, hy', hya, hyag⟩ := (hco it B hB).exists_past c hag
      rw [Call.key_accessor, checkOf_registerOn hco hB, if_pos ⟨rfl, rfl⟩, hy'] at hk
      rw [Call.type_accessor]
      exact KeyPast.type_of_next (hya ▸ ha) hyag hk
  · rcases globalProvided_of_registerOn hco hB hag hk with ⟨hk, hs⟩ | hv
    · rw [hs]
      exact h.values board k T hk
    · exact hv
  · rw [waves_registerOn] at hw'
    rw [Function.update_apply]
    split
    · rename_i e
      subst e
      exact follows_registerOn hco hB hag (hold other) (fun U hU => h.order other w' own k U hw' hU) hk
    · rename_i hne
      rcases provided_before_or_local hco hB hag hk with hU | ⟨rfl, hg⟩
      · exact h.order other w' own k T hw' hU
      · exact absurd ((ho.name_eq hw' hw).trans (hlocal hg)) hne
  · rw [waves_registerOn] at hw'
    rcases held_of_registerOn hco hB hx with hx | ⟨rfl, ha, rfl⟩
    · rcases provided_of_registerOn hco hB hag hk with ⟨hn, -⟩ | ⟨U, hU, -⟩
      · exact absurd hn (by rw [← hx₁, ← hxk]; exact hold other' x hx)
      · exact h.own other w' own k U hw' hU other' x hx hx₁ hxk
    · obtain rfl : it = own := hx₁
      rw [Call.key_accessor] at hxk
      refine ((ho.name_eq hw' hw).trans (hlocal ?_)).symm
      rcases provided_of_registerOn hco hB hag hk with ⟨-, -, -, rfl⟩ | ⟨U, -, ⟨-, -, rfl⟩ | ⟨-, hr⟩⟩
      · rfl
      · rfl
      · rw [hr rfl hxk.symm ha]; rfl

omit [DecidableEq Ty] in
/-- Every registration that a call on the adapters makes agrees with what was requested; `wave` is the module's own. -/
def Agrees (b : Brain Val) (wave : String) (c : AdapterCall Val) : Prop :=
  ∀ name, ∀ d ∈ onWave wave name c, (b.boardOf name).Agrees d

omit [DecidableEq Ty] in
/-- A registration that a call on the adapters makes finds the Blackboard as it was before the call. -/
theorem Agrees.of_others (hi : b.Inv) {wave name : String} {c : AdapterCall Val} (hag : b.Agrees wave c)
    {w : BrainWave String (DynamicModule Ty)} {it : Nat} (hw : (b.others name).1.waves.lookup name = some (w, it))
    {d : Call Val} (hd : d ∈ onWave wave name c) :
    (b.others name).1.blackboards.at? it = some (b.boardOf name) ∧ (b.boardOf name).Agrees d := by
  refine ⟨?_, hag name d hd⟩
  rw [boardOf_eq ((others_builds hi.coherent name).inv hi) hw, boardOf_others hi]

section

variable {wave : String} {w : BrainWave String (DynamicModule Ty)} {own : Nat} {c : AdapterCall Val}

/-- **The calls of a constructor keep the wires.** -/
theorem Wired.adapterCall (h : b.Wired held) (hi : b.Inv) (ho : b.OneToOne) (hw : b.waves.lookup wave = some (w, own))
    (hag : b.Agrees wave c) : (Brain.adapterCall own b c).1.Wired
      (Function.update held wave (held wave ++ (Brain.adapterCall own b c).2)) := by
  obtain ⟨name, he | ⟨w', it, d, hw', hd, hl, he⟩⟩ := adapterCall_cases hw c
  · rw [he, List.append_nil, Function.update_eq_self]
    exact h.others hi.coherent name
  · have hb := others_builds hi.coherent name
    obtain ⟨hB, hagd⟩ := hag.of_others hi hw' hd
    rw [he]
    exact (h.others hi.coherent name).registerOn (hb.inv hi) (ho.others name) hw' d
      (fun B hB' => Option.some.inj (hB.symm.trans hB') ▸ hagd) hl

/-- A key that is only requested after a call on the adapters was before, or is new. -/
theorem requested_of_adapterCall (hi : b.Inv) (hw : b.waves.lookup wave = some (w, own)) (hag : b.Agrees wave c)
    {board : Nat} {k : String} {T : Ty} (hk : (Brain.adapterCall own b c).1.checkOf board k = some (.requested, T)) :
    b.checkOf board k = none ∨ b.checkOf board k = some (.requested, T) := by
  obtain ⟨name, he | ⟨w', it, d, hw', hd, -, he⟩⟩ := adapterCall_cases hw c
  · rw [he, checkOf_others] at hk
    exact Or.inr hk
  · obtain ⟨hB, hagd⟩ := hag.of_others hi hw' hd
    rw [he] at hk
    rw [← checkOf_others b name]
    exact requested_of_registerOn (others_builds hi.coherent name).coherent hB hagd hk

/-- **A key that is provided locally after a call on the adapters** was before, with the same value, or is new. -/
theorem provided_of_adapterCall (hi : b.Inv) (hw : b.waves.lookup wave = some (w, own)) (hag : b.Agrees wave c)
    {board : Nat} {k : String} {T : Ty} (hk : (Brain.adapterCall own b c).1.checkOf board k = some (.provided, T)) :
    b.checkOf board k = none ∨ ((∃ U, b.checkOf board k = some (.provided, U)) ∧
      (Brain.adapterCall own b c).1.stored board k = b.stored board k) := by
  obtain ⟨name, he | ⟨w', it, d, hw', hd, -, he⟩⟩ := adapterCall_cases hw c
  · rw [he, checkOf_others] at hk
    rw [he, stored_others]
    exact Or.inr ⟨⟨T, hk⟩, rfl⟩
  · obtain ⟨hB, hagd⟩ := hag.of_others hi hw' hd
    have hco := (others_builds hi.coherent name).coherent
    rw [he] at hk ⊢
    rw [← checkOf_others b name, ← stored_others b name]
    rcases provided_of_registerOn hco hB hagd hk with ⟨hn, -⟩ | ⟨U, hU, -⟩
    · exact Or.inl hn
    · exact Or.inr ⟨⟨U, hU⟩, stored_of_provided hco hB hagd hk hU⟩

end

end Brain

end Core

end NaoFramework
