import NaoFramework.FrameworkRun
import NaoFramework.FrameworkWires
/-!
# FrameworkFlow — what requests read while modules are loaded

While a module is loaded the waves run on, and its constructor registers on the very Blackboards they use.  No accessor
throws for it: as long as modules and users keep to what is asked of them (`WellUsed`), a thread never ends the process
(`never_fails`), and a request of a key that is provided locally reads what the provider registered last before it stored
in the same pass (`reads_in_pass`), wherever in the pass the load stands.
-/
namespace NaoFramework
namespace Core

open Comm (Blackboard Call Accessor AccessorCall AccessError TypeState makeRequireFunction)
open Modules (Thrown AdapterCall Library LoaderEvent DynamicModule constructionOf)

variable {Ty : Type} {Val : Ty → Type}

namespace Brain

/-- The modules of the wave provide the key locally. -/
def Locally (b : Brain Val) (board : Nat) (k : String) : Prop := ∃ T, b.checkOf board k = some (.provided, T)

/-- The accessors the modules of a wave hold. -/
def accessorsOf (b : Brain Val) (wave : String) : List (Nat × Accessor Ty) :=
  match b.waves.lookup wave with
  | some (w, _) => w.accessors
  | none => []

end Brain

/-- The call stored a value on the key. -/
def MadeCall.stores (board : Nat) (k : String) (m : MadeCall Val) : Bool :=
  decide (m.board = board) && (m.call.storedOn k).isSome

namespace Pass

/-- The last call of the pass that stored a value on the key. -/
def lastOn (p : Pass Val) (board : Nat) (k : String) : Option (MadeCall Val) := (p.calls.filter (MadeCall.stores board k)).getLast?

/-- What the calls of a pass come to, on a key provided locally: the providers of the modules that were executed have been
called, and the last call that stored a value was of the latest provider called. -/
structure KeyOk (p : Pass Val) (b : Brain Val) (w : BrainWave String (DynamicModule Ty)) (own : Nat) (k : String) :
    Prop where
  complete : ∀ q U, q < w.heldBefore p.index → w.accessors[q]? = some (own, .provide U ⟨k⟩) → ∃ m ∈ p.calls, m.place = q
  latest : ∀ m, p.lastOn own k = some m → ∀ m' ∈ p.calls, m'.stores own k = true → m'.place ≤ m.place
  stored : ∀ m, p.lastOn own k = some m → b.stored own k = m.call.storedOn k

/-- **A request reads what its provider stored in the same pass**: the last call of the pass that stored on the key was of
the provider registered last before the request, with the value and with the type. -/
def ReadsProvider (p : Pass Val) (w : BrainWave String (DynamicModule Ty)) (board place : Nat) (T : Ty) (k : String)
    (v : Val T) : Prop :=
  ∃ m, p.lastOn board k = some m ∧ m.call = .provide T k v ∧ w.accessors[m.place]? = some (board, .provide T ⟨k⟩) ∧
    m.place < place ∧ ∀ q U, m.place < q → q < place → w.accessors[q]? ≠ some (board, .provide U ⟨k⟩)

structure Ok (p : Pass Val) (b : Brain Val) (w : BrainWave String (DynamicModule Ty)) (own : Nat) : Prop where
  made : ∀ m ∈ p.calls, m.place < w.heldBefore (p.index + 1) ∧ w.accessors[m.place]? = some (m.board, m.call.accessor)
  key : ∀ k, b.Locally own k → p.KeyOk b w own k

end Pass

namespace Framework

/-- The accessors handed to the module that is being loaded into a wave. -/
def pending (s : Framework Val) (wave : String) : List (Nat × Accessor Ty) :=
  match s.loading with
  | some (.constructing name _ _ _ held _) => if wave = name then held else []
  | some (.adding name _ module) => if wave = name then module.held else []
  | none => []

def held (s : Framework Val) (wave : String) : List (Nat × Accessor Ty) := s.brain.accessorsOf wave ++ s.pending wave

/-! ## What is asked of modules and users -/

/-- A module calls its accessors of a key provided locally in the order of their registration, and calls every provider. -/
def KeepsOrder (s : Framework Val) : Turn Val → Prop
  | .call wave place a => ∀ w own p board, s.brain.waves.lookup wave = some (w, own) → s.passes wave = some p →
      w.accessors[place]? = some (board, a.accessor) → s.brain.Locally board a.key →
      (∀ m ∈ p.calls, w.heldBefore p.index ≤ m.place → m.board = board → m.call.key = a.key → m.place ≤ place) ∧
        ∀ T q U, a.accessor = .require T ⟨a.key⟩ → w.heldBefore p.index ≤ q → q < place →
          w.accessors[q]? = some (board, .provide U ⟨a.key⟩) → ∃ m ∈ p.calls, m.place = q
  | .next wave => ∀ w own p, s.brain.waves.lookup wave = some (w, own) → s.passes wave = some p →
      ∀ q board U k, w.heldBefore p.index ≤ q → q < w.heldBefore (p.index + 1) →
        w.accessors[q]? = some (board, .provide U ⟨k⟩) → s.brain.Locally board k → ∃ m ∈ p.calls, m.place = q
  | _ => True

/-- No two modules differ on the type of a key that is requested before it is provided. -/
def KeepsTypes (s : Framework Val) : Turn Val → Prop
  | .load => ∀ wave own file c calls held ending, s.loading = some (.constructing wave own file (c :: calls) held ending) →
      s.brain.Agrees wave c
  | _ => True

/-- What a module of a running wave requests has been provided when the wave takes the module, as `execute` finds it for
the waves it starts. -/
def KeepsValid (s : Framework Val) : Turn Val → Prop
  | .load => ∀ wave file module w own, s.loading = some (.adding wave file module) →
      s.brain.waves.lookup wave = some (w, own) → w.isRunning = true →
        ∀ x ∈ module.held, ∀ T, s.brain.checkOf x.1 x.2.key ≠ some (.requested, T)
  | _ => True

structure WellUsed (s : Framework Val) (t : Turn Val) : Prop where
  types : s.KeepsTypes t
  valid : s.KeepsValid t
  order : s.KeepsOrder t

/-! ## The invariant -/

structure Inv (s : Framework Val) : Prop where
  brain : s.brain.Inv
  oneToOne : s.brain.OneToOne
  wired : s.brain.Wired s.held
  constructing : ∀ wave own file calls held ending, s.loading = some (.constructing wave own file calls held ending) →
    ∃ w, s.brain.waves.lookup wave = some (w, own)
  adding : ∀ wave file module, s.loading = some (.adding wave file module) →
    ∃ w own, s.brain.waves.lookup wave = some (w, own)
  /-- What the modules of a running wave request has been provided. -/
  valid : ∀ wave w own, s.brain.waves.lookup wave = some (w, own) → w.isRunning = true → ∀ x ∈ w.accessors, ∀ T,
    s.brain.checkOf x.1 x.2.key ≠ some (.requested, T)
  passes : ∀ wave p, s.passes wave = some p → ∃ w own, s.brain.waves.lookup wave = some (w, own) ∧ w.isRunning = true ∧
    p.Ok s.brain w own

end Framework

/-! ## Places -/

section

variable {A : Type} (w : BrainWave A (DynamicModule Ty))

theorem BrainWave.heldBefore_mono {i j : Nat} (h : i ≤ j) : w.heldBefore i ≤ w.heldBefore j := by
  unfold heldBefore
  rw [← Nat.add_sub_of_le h, List.take_add, List.flatMap_append, List.length_append]
  exact Nat.le_add_right _ _

theorem BrainWave.execute_modules (wave : A) : (w.execute wave).state.modules = w.modules := by
  unfold BrainWave.execute
  split
  · rfl
  · split <;> rfl

end

/-- **The provider that says the type of a key** is the nearest one. -/
theorem exists_nearest {board : Nat} {k : String} {l : List (Nat × Accessor Ty)} {T : Ty} (h : providedAs board k l = some T) :
    ∃ q : Nat, l[q]? = some (board, .provide T ⟨k⟩) ∧
      ∀ (r : Nat) (U : Ty), q < r → l[r]? ≠ some (board, .provide U ⟨k⟩) := by
  induction l using List.reverseRecOn with
  | nil => cases h
  | append_singleton l x ih =>
    by_cases hx : ∃ U, x = (board, Accessor.provide U ⟨k⟩)
    · obtain ⟨U, rfl⟩ := hx
      obtain rfl : U = T := Option.some.inj ((providedAs_snoc_provide board k l U).symm.trans h)
      refine ⟨l.length, by simp, fun r V hr => ?_⟩
      rw [List.getElem?_eq_none (by simp; omega)]
      exact fun e => by cases e
    · rw [providedAs_snoc l fun U e => hx ⟨U, e⟩] at h
      obtain ⟨q, hq, hnear⟩ := ih h
      refine ⟨q, List.getElem?_append_left (List.getElem?_eq_some_iff.1 hq).1 ▸ hq, fun r U hr e => ?_⟩
      rcases Nat.lt_or_ge r l.length with hlt | hge
      · rw [List.getElem?_append_left hlt] at e
        exact hnear r U hr e
      · rw [List.getElem?_append_right hge] at e
        have hm := List.mem_of_getElem? e
        exact hx ⟨U, (List.mem_singleton.1 hm).symm⟩

theorem AccessorCall.of_provide {a : AccessorCall Val} {T : Ty} {k : String} (h : a.accessor = .provide T ⟨k⟩) :
    ∃ v, a = .provide T k v := by
  cases a with
  | require U k' => cases h
  | provide U k' v =>
    cases h
    exact ⟨v, rfl⟩

theorem MadeCall.of_stores {board : Nat} {k : String} {m : MadeCall Val} (h : m.stores board k = true) :
    m.board = board ∧ ∃ T v, m.call = .provide T k v := by
  simp only [stores, Bool.and_eq_true, decide_eq_true_eq] at h
  obtain ⟨x, hx⟩ := Option.isSome_iff_exists.1 h.2
  exact ⟨h.1, x.1, x.2, AccessorCall.of_storedOn hx⟩

namespace Pass

variable {p : Pass Val} {b b' : Brain Val} {w : BrainWave String (DynamicModule Ty)} {own : Nat} {k : String}

theorem lastOn_mem {m : MadeCall Val} (h : p.lastOn own k = some m) : m ∈ p.calls ∧ m.stores own k = true :=
  List.mem_filter.1 (List.mem_of_getLast? h)

theorem lastOn_snoc (p : Pass Val) (m : MadeCall Val) :
    lastOn { p with calls := p.calls ++ [m] } own k = if m.stores own k then some m else p.lastOn own k := by
  simp only [lastOn, List.filter_append]
  split
  · rename_i h
    rw [List.filter_cons_of_pos h, List.filter_nil, List.getLast?_append]
    rfl
  · rename_i h
    rw [List.filter_cons_of_neg h, List.filter_nil, List.append_nil]

/-- A pass in which a provider was called has a last call that stored. -/
theorem exists_lastOn {m : MadeCall Val} (hm : m ∈ p.calls) (hs : m.stores own k = true) : ∃ m', p.lastOn own k = some m' :=
  Option.isSome_iff_exists.1 (List.getLast?_isSome.2 (List.ne_nil_of_mem (List.mem_filter.2 ⟨hm, hs⟩)))

/-- **What leaves the keys that are provided as they are leaves the pass in order**; on a key that is provided newly no
module of the wave has an accessor. -/
theorem Ok.congr (h : p.Ok b w own) (hk : ∀ k, b'.Locally own k →
    (∀ (q : Nat) (a : Accessor Ty), w.accessors[q]? = some (own, a) → a.key ≠ k) ∨
      (b.Locally own k ∧ b'.stored own k = b.stored own k)) : p.Ok b' w own := by
  refine ⟨h.made, fun k hl => ?_⟩
  rcases hk k hl with hnone | ⟨hl, hs⟩
  · have hlast : ∀ m, p.lastOn own k = some m → False := by
      intro m hm
      obtain ⟨hm, hs⟩ := lastOn_mem hm
      obtain ⟨hb, T, v, hc⟩ := MadeCall.of_stores hs
      have ha := (h.made m hm).2
      rw [hb, hc] at ha
      exact hnone _ _ ha rfl
    exact ⟨fun q U _ hq => absurd rfl (hnone q _ hq), fun m hm => (hlast m hm).elim, fun m hm => (hlast m hm).elim⟩
  · obtain ⟨hc, hlast, hst⟩ := h.key k hl
    exact ⟨hc, hlast, fun m hm => hs.trans (hst m hm)⟩

/-- **What is stored when the nearest provider has been called**, and no provider after it. -/
theorem Ok.reads (h : p.Ok b w own) (hl : b.Locally own k) {place q : Nat} {T : Ty}
    (ha : w.accessors[place]? = some (own, .require T ⟨k⟩)) (hqp : q < place)
    (hq : w.accessors[q]? = some (own, .provide T ⟨k⟩))
    (hnear : ∀ r U, q < r → r < place → w.accessors[r]? ≠ some (own, .provide U ⟨k⟩)) (hm : ∃ m ∈ p.calls, m.place = q)
    (hle : ∀ m ∈ p.calls, m.stores own k = true → m.place ≤ place) :
    ∃ v, b.stored own k = some ⟨T, v⟩ ∧ p.ReadsProvider w own place T k v := by
  obtain ⟨m, hm, rfl⟩ := hm
  obtain ⟨hmb, hma⟩ := Prod.mk.inj (Option.some.inj ((h.made m hm).2.symm.trans hq))
  obtain ⟨v, hv⟩ := AccessorCall.of_provide hma
  have hs : m.stores own k = true := by simp [MadeCall.stores, hmb, hv, AccessorCall.storedOn]
  obtain ⟨l, hlast⟩ := exists_lastOn hm hs
  obtain ⟨hlm, hls⟩ := lastOn_mem hlast
  obtain ⟨hlb, U, u, hlc⟩ := MadeCall.of_stores hls
  have hla := (h.made l hlm).2
  rw [hlb, hlc] at hla
  have hlt : l.place < place := by
    refine Nat.lt_of_le_of_ne (hle l hlm hls) fun e => ?_
    rw [e, ha] at hla
    cases hla
  have heq : l.place = m.place :=
    Nat.le_antisymm (Nat.le_of_not_lt fun hgt => hnear l.place U hgt hlt hla) ((h.key k hl).latest l hlast m hm hs)
  rw [heq, hq] at hla
  obtain rfl : T = U := by cases hla; rfl
  refine ⟨u, ?_, l, hlast, hlc, by rw [heq]; exact hq, hlt, fun r V hr hrp => hnear r V (heq ▸ hr) hrp⟩
  rw [(h.key k hl).stored l hlast, hlc, AccessorCall.storedOn, if_pos rfl]

/-- A call that keeps to the order keeps the pass in order. -/
theorem Ok.call (h : p.Ok b w own) {board place : Nat} {a : AccessorCall Val} {B : Blackboard Val}
    (hB : b.blackboards.at? board = some B) (ha : w.accessors[place]? = some (board, a.accessor))
    (hge : w.heldBefore p.index ≤ place) (hlt : place < w.heldBefore (p.index + 1))
    (hu : b.Locally board a.key → ∀ m ∈ p.calls, w.heldBefore p.index ≤ m.place → m.board = board →
      m.call.key = a.key → m.place ≤ place) :
    Ok { p with calls := p.calls ++ [⟨place, board, a⟩] } (b.perform board a) w own := by
  refine ⟨fun m hm => ?_, fun k hl => ?_⟩
  · rcases List.mem_append.1 hm with hm | hm
    · exact h.made m hm
    · obtain rfl := List.mem_singleton.1 hm
      exact ⟨hlt, ha⟩
  have hl : b.Locally own k := by
    obtain ⟨T, hT⟩ := hl
    exact ⟨T, (Brain.checkOf_perform _ _ _ _ _).symm.trans hT⟩
  obtain ⟨hcomplete, hlatest, hstored⟩ := h.key k hl
  refine ⟨fun q U hq hqa => ?_, fun m hm m' hm' hs => ?_, fun m hm => ?_⟩
  · obtain ⟨m, hm, rfl⟩ := hcomplete q U hq hqa
    exact ⟨m, List.mem_append_left _ hm, rfl⟩
  · rw [lastOn_snoc] at hm
    split at hm
    · rename_i hnew
      obtain rfl := Option.some.inj hm
      rcases List.mem_append.1 hm' with hmem | hm'
      · obtain ⟨rfl, T, v, hc⟩ := MadeCall.of_stores hnew
        obtain ⟨hmb, U, u, hmc⟩ := MadeCall.of_stores hs
        obtain rfl : a = .provide T k v := hc
        rcases Nat.lt_or_ge m'.place (w.heldBefore p.index) with hlt | hge'
        · exact Nat.le_of_lt (Nat.lt_of_lt_of_le hlt hge)
        · exact hu hl m' hmem hge' hmb (by rw [hmc]; rfl)
      · obtain rfl := List.mem_singleton.1 hm'
        exact Nat.le_refl _
    · rename_i hnew
      rcases List.mem_append.1 hm' with hm' | hm'
      · exact hlatest m hm m' hm' hs
      · obtain rfl := List.mem_singleton.1 hm'
        exact absurd hs hnew
  · rw [Brain.stored_perform_eq hB]
    rw [lastOn_snoc] at hm
    split at hm
    · rename_i hnew
      obtain rfl := Option.some.inj hm
      obtain ⟨rfl, T, v, hc⟩ := MadeCall.of_stores hnew
      obtain rfl : a = .provide T k v := hc
      simp [AccessorCall.storedOn]
    · rename_i hnew
      split
      · rename_i e
        have hn : a.storedOn k = none := by
          simp only [MadeCall.stores, Bool.and_eq_true, decide_eq_true_eq, not_and, Bool.not_eq_true,
            Option.isSome_eq_false_iff, Option.isNone_iff_eq_none] at hnew
          exact hnew e.symm
        rw [hn, Option.none_or]
        exact hstored m hm
      · exact hstored m hm

end Pass

namespace Framework

variable {s : Framework Val}

/-! ## What a request reads -/

theorem mem_held {wave : String} {w : BrainWave String (DynamicModule Ty)} {own : Nat}
    (hw : s.brain.waves.lookup wave = some (w, own)) {x : Nat × Accessor Ty} (hx : x ∈ w.accessors) : x ∈ s.held wave := by
  refine List.mem_append_left _ ?_
  rw [Brain.accessorsOf, hw]
  exact hx

section

variable {wave : String} {w : BrainWave String (DynamicModule Ty)} {own : Nat} {p : Pass Val} {board place : Nat}

/-- The accessors of a key provided locally are of the wave's own Blackboard. -/
theorem Inv.own_eq (h : s.Inv) (hw : s.brain.waves.lookup wave = some (w, own)) {x : Nat × Accessor Ty}
    (hx : x ∈ w.accessors) {name : String} {w' : BrainWave String (DynamicModule Ty)}
    (hw' : s.brain.waves.lookup name = some (w', x.1)) (hl : s.brain.Locally x.1 x.2.key) : name = wave ∧ x.1 = own := by
  obtain ⟨T, hT⟩ := hl
  obtain rfl : wave = name := h.wired.own name w' x.1 x.2.key T hw' hT wave x (mem_held hw hx) rfl rfl
  exact ⟨rfl, congrArg Prod.snd (Option.some.inj (hw'.symm.trans hw))⟩

/-- **The provider of a request**: of the accessors that provide the key, the last before it, and of its type. -/
theorem Inv.exists_provider (h : s.Inv) {T : Ty} {k : String} (hw : s.brain.waves.lookup wave = some (w, own))
    (ha : w.accessors[place]? = some (own, .require T ⟨k⟩)) (hl : s.brain.Locally own k) :
    ∃ q, q < place ∧ w.accessors[q]? = some (own, .provide T ⟨k⟩) ∧
      ∀ r U, q < r → r < place → w.accessors[r]? ≠ some (own, .provide U ⟨k⟩) := by
  obtain ⟨U, hU⟩ := hl
  obtain ⟨hlt, hget⟩ := List.getElem?_eq_some_iff.1 ha
  -- the registrations of the wave, split at the request
  have hsplit : s.held wave = w.accessors.take place ++ (own, .require T ⟨k⟩) ::
      (w.accessors.drop (place + 1) ++ s.pending wave) := by
    have hdrop : w.accessors.drop place = (own, .require T ⟨k⟩) :: w.accessors.drop (place + 1) := by
      rw [List.drop_eq_getElem_cons hlt, hget]
    rw [held, Brain.accessorsOf, hw, ← List.cons_append, ← hdrop, ← List.append_assoc, List.take_append_drop]
  obtain ⟨q, hq, hnear⟩ := exists_nearest ((h.wired.order wave w own k U hw hU).1 _ _ _ hsplit T rfl)
  have hqp : q < place := by
    have hlen := (List.getElem?_eq_some_iff.1 hq).1
    rw [List.length_take] at hlen
    omega
  refine ⟨q, hqp, (List.getElem?_take_of_lt hqp).symm.trans hq, fun r V hr hrp => ?_⟩
  rw [← List.getElem?_take_of_lt hrp]
  exact hnear r V hr

/-- **Every request of a running wave reads a value of its type.** -/
theorem Inv.reads (h : s.Inv) {T : Ty} {k : String} (hw : s.brain.waves.lookup wave = some (w, own))
    (hp : s.passes wave = some p) (ha : w.accessors[place]? = some (board, .require T ⟨k⟩))
    (hb : w.heldBefore p.index ≤ place) (hu : s.KeepsOrder (.call wave place (.require T k))) :
    ∃ v, s.brain.stored board k = some ⟨T, v⟩ ∧ (s.brain.Locally board k → p.ReadsProvider w board place T k v) := by
  obtain ⟨w', own', hw', hrun, hok⟩ := h.passes wave p hp
  obtain ⟨rfl, rfl⟩ := Prod.mk.inj (Option.some.inj (hw.symm.trans hw'))
  have hx := List.mem_of_getElem? ha
  have hxh := mem_held hw hx
  cases hc : s.brain.checkOf board k with
  | none => exact absurd hc (Brain.checkOf_of_backs h.brain.coherent (h.wired.backs wave _ hxh))
  | some r =>
    obtain ⟨st, U⟩ := r
    cases st with
    | requested => exact absurd hc (h.valid wave w own hw hrun _ hx U)
    | globalProvided =>
      obtain rfl : T = U := h.wired.typed wave _ hxh .globalProvided U hc (by decide)
      obtain ⟨v, hv⟩ := h.wired.values board k T hc
      refine ⟨v, hv, ?_⟩
      rintro ⟨V, hV⟩
      rw [hc] at hV
      cases hV
    | provided =>
      obtain ⟨name, w₁, hw₁⟩ := h.wired.home wave _ hxh
      obtain ⟨rfl, rfl⟩ := h.own_eq hw hx hw₁ ⟨U, hc⟩
      obtain ⟨hnearer, hall⟩ := hu w board p board hw hp ha ⟨U, hc⟩
      obtain ⟨q, hqp, hq, hnear⟩ := h.exists_provider hw ha ⟨U, hc⟩
      -- the provider was called in the pass, and no later one, by an earlier module or by this one
      have hm : ∃ m ∈ p.calls, m.place = q := by
        rcases Nat.lt_or_ge q (w.heldBefore p.index) with hlt | hge
        · exact (hok.key k ⟨U, hc⟩).complete q T hlt hq
        · exact hall T q T rfl hge hqp hq
      have hle : ∀ m ∈ p.calls, m.stores board k = true → m.place ≤ place := by
        intro m hm hs
        obtain ⟨hmb, V, u, hmc⟩ := MadeCall.of_stores hs
        rcases Nat.lt_or_ge m.place (w.heldBefore p.index) with hlt | hge
        · exact Nat.le_of_lt (Nat.lt_of_lt_of_le hlt hb)
        · exact hnearer m hm hge hmb (by rw [hmc]; rfl)
      obtain ⟨v, hv, hr⟩ := hok.reads ⟨U, hc⟩ ha hqp hq hnear hm hle
      exact ⟨v, hv, fun _ => hr⟩

end

/-! ## The turns of a wave's thread -/

/-- A call of an accessor of another wave stores nothing on a key provided locally. -/
theorem Inv.stored_perform_others (h : s.Inv) {wave other : String} {w w' : BrainWave String (DynamicModule Ty)}
    {own own' board : Nat} {a : AccessorCall Val} {k : String} (hw : s.brain.waves.lookup wave = some (w, own))
    (hx : (board, a.accessor) ∈ w.accessors) (hw' : s.brain.waves.lookup other = some (w', own')) (hne : other ≠ wave)
    (hl : s.brain.Locally own' k) : (s.brain.perform board a).stored own' k = s.brain.stored own' k := by
  obtain ⟨B, hB, -⟩ := h.wired.backs wave _ (mem_held hw hx)
  rw [Brain.stored_perform_eq hB]
  split
  · rename_i e
    subst e
    cases hs : a.storedOn k with
    | none => exact Option.none_or
    | some x =>
      rw [AccessorCall.of_storedOn hs] at hx
      exact absurd (h.own_eq hw hx hw' hl).1 hne
  · rfl

variable [DecidableEq Ty]

/-- **A call keeps the invariant**, and throws nothing. -/
theorem Inv.call (h : s.Inv) (he : s.ended = none) {wave : String} {place : Nat} {a : AccessorCall Val}
    (hu : s.KeepsOrder (.call wave place a)) : (s.call wave place a).Inv ∧ (s.call wave place a).ended = none := by
  unfold Framework.call
  split
  swap
  · exact ⟨h, he⟩
  rename_i w own p hw hp
  obtain ⟨w', own', hw', hrun, hok⟩ := h.passes wave p hp
  obtain ⟨rfl, rfl⟩ := Prod.mk.inj (Option.some.inj (hw.symm.trans hw'))
  split
  · exact ⟨h, he⟩
  rename_i board accessor ha
  split
  swap
  · exact ⟨h, he⟩
  rename_i hplace
  obtain ⟨hge, hlt, rfl⟩ := hplace
  have hx := List.mem_of_getElem? ha
  split
  · exact ⟨h, he⟩
  rename_i B hB
  have hfail : a.failure B = none := by
    cases a with
    | provide T k v => rfl
    | require T k =>
      obtain ⟨v, hv, -⟩ := h.reads hw hp ha hge hu
      rw [Brain.stored, hB] at hv
      rw [AccessorCall.failure, Comm.RequireFunction.call_eq_ok.2 (Option.join_eq_some_iff.1 hv)]
  simp only [hfail]
  have hb := Brain.perform_builds h.brain.coherent (h.wired.backs wave _ (mem_held hw hx))
  refine ⟨⟨hb.inv h.brain, h.oneToOne.modifyAt fun B _ => Blackboard.name_perform B a,
    h.wired.perform h.brain.coherent (mem_held hw hx), h.constructing, h.adding,
    fun wave w own hw hrun x hx T hk => ?_, fun other p' hp' => ?_⟩, he⟩
  · exact h.valid wave w own hw hrun x hx T ((Brain.checkOf_perform _ _ _ _ _).symm.trans hk)
  · have hloc : ∀ own' k, (s.brain.perform board a).Locally own' k → s.brain.Locally own' k := by
      rintro own' k ⟨T, hT⟩
      exact ⟨T, (Brain.checkOf_perform _ _ _ _ _).symm.trans hT⟩
    simp only [Function.update_apply] at hp'
    split at hp'
    · rename_i e
      subst e
      obtain rfl := Option.some.inj hp'
      exact ⟨w, own, hw, hrun, hok.call hB ha hge hlt fun hl => (hu w own p board hw hp ha hl).1⟩
    · rename_i hne
      obtain ⟨w', own', hw', hrun', hok'⟩ := h.passes other p' hp'
      exact ⟨w', own', hw', hrun', hok'.congr fun k hl =>
        Or.inr ⟨hloc own' k hl, h.stored_perform_others hw hx hw' hne (hloc own' k hl)⟩⟩

omit [DecidableEq Ty] in
theorem ended_pass (s : Framework Val) (wave : String) : (s.pass wave).ended = s.ended := by
  unfold Framework.pass
  split
  · split <;> rfl
  · rfl

omit [DecidableEq Ty] in
theorem ended_next (s : Framework Val) (wave : String) : (s.next wave).ended = s.ended := by
  unfold Framework.next
  split <;> rfl

theorem ended_beginLoad (s : Framework Val) (inputs : List String) (found : Except String (Library Val)) :
    (s.beginLoad inputs found).ended = s.ended := by
  unfold Framework.beginLoad
  split
  · split
    · rfl
    · split <;> rfl
  · rfl

omit [DecidableEq Ty] in
theorem Inv.pass (h : s.Inv) (wave : String) : (s.pass wave).Inv := by
  unfold Framework.pass
  split
  swap
  · exact h
  rename_i w own hw _
  split
  swap
  · exact h
  rename_i hrun
  refine ⟨h.brain, h.oneToOne, h.wired, h.constructing, h.adding, h.valid, fun other p hp => ?_⟩
  simp only [Function.update_apply] at hp
  split at hp
  · rename_i e
    subst e
    obtain rfl := Option.some.inj hp
    refine ⟨w, own, hw, hrun, ⟨fun m hm => ?_, fun k hl => ⟨fun q U hq => ?_, fun m hm => ?_, fun m hm => ?_⟩⟩⟩
    · cases hm
    · simp [BrainWave.heldBefore] at hq
    · cases hm
    · cases hm
  · exact h.passes other p hp

omit [DecidableEq Ty] in
theorem Inv.next (h : s.Inv) {wave : String} (hu : s.KeepsOrder (.next wave)) : (s.next wave).Inv := by
  unfold Framework.next
  split
  swap
  · exact h
  rename_i w own p hw hp
  refine ⟨h.brain, h.oneToOne, h.wired, h.constructing, h.adding, h.valid, fun other p' hp' => ?_⟩
  simp only [Function.update_apply] at hp'
  split at hp'
  swap
  · exact h.passes other p' hp'
  rename_i e
  subst e
  split at hp'
  swap
  · cases hp'
  obtain rfl := Option.some.inj hp'
  obtain ⟨w', own', hw', hrun, hok⟩ := h.passes other p hp
  obtain ⟨rfl, rfl⟩ := Prod.mk.inj (Option.some.inj (hw.symm.trans hw'))
  refine ⟨w, own, hw, hrun, ⟨fun m hm => ⟨?_, (hok.made m hm).2⟩, fun k hl => ⟨fun q U hq ha => ?_,
    (hok.key k hl).latest, (hok.key k hl).stored⟩⟩⟩
  · exact Nat.lt_of_lt_of_le (hok.made m hm).1 (w.heldBefore_mono (Nat.le_succ _))
  · rcases Nat.lt_or_ge q (w.heldBefore p.index) with hlt | hge
    · exact (hok.key k hl).complete q U hlt ha
    · exact hu w own p hw hp q own U k hge hq ha hl

/-! ## The turns of the Console's thread -/

omit [DecidableEq Ty] in
theorem accessorsOf_builds {b b' : Brain Val} (hb : b.Builds b') (wave : String) : b'.accessorsOf wave = b.accessorsOf wave := by
  unfold Brain.accessorsOf
  cases hw : b'.waves.lookup wave with
  | none =>
    cases hw₀ : b.waves.lookup wave with
    | none => rfl
    | some x =>
      rw [hb.waves wave x hw₀] at hw
      cases hw
  | some x =>
    obtain ⟨w, board⟩ := x
    rcases hb.fresh wave w board hw with hw₀ | ⟨rfl, hn, -⟩
    · rw [hw₀]
    · cases hw₀ : b.waves.lookup wave with
      | none => rfl
      | some x =>
        obtain rfl : (BrainWave.new wave, board) = x := Option.some.inj (hw.symm.trans (hb.waves wave x hw₀))
        rfl

omit [DecidableEq Ty] in
/-- **Building keeps the invariant**, if it leaves the keys that modules have accessors of as they are. -/
theorem Inv.build (h : s.Inv) {s' : Framework Val} (hp : s'.passes = s.passes) (hb : s.brain.Builds s'.brain)
    (ho : s'.brain.OneToOne) (hw : s'.brain.Wired s'.held)
    (hreq : ∀ board k T, s'.brain.checkOf board k = some (.requested, T) →
      s.brain.checkOf board k = none ∨ s.brain.checkOf board k = some (.requested, T))
    (hprov : ∀ board k T, s'.brain.checkOf board k = some (.provided, T) → s.brain.checkOf board k = none ∨
      ((∃ U, s.brain.checkOf board k = some (.provided, U)) ∧ s'.brain.stored board k = s.brain.stored board k))
    (hc : ∀ wave own file calls held ending, s'.loading = some (.constructing wave own file calls held ending) →
      ∃ w, s'.brain.waves.lookup wave = some (w, own))
    (ha : ∀ wave file module, s'.loading = some (.adding wave file module) →
      ∃ w own, s'.brain.waves.lookup wave = some (w, own)) : s'.Inv := by
  have hnone : ∀ wave w own, s.brain.waves.lookup wave = some (w, own) → ∀ x ∈ w.accessors,
      s.brain.checkOf x.1 x.2.key ≠ none :=
    fun wave w own hw x hx => Brain.checkOf_of_backs h.brain.coherent (h.wired.backs wave x (mem_held hw hx))
  refine ⟨hb.inv h.brain, ho, hw, hc, ha, fun wave w own hw hrun x hx T hk => ?_, fun wave p hwp => ?_⟩
  · rcases hb.fresh wave w own hw with hw | ⟨rfl, -, -⟩
    · rcases hreq _ _ T hk with hn | hk
      · exact hnone wave w own hw x hx hn
      · exact h.valid wave w own hw hrun x hx T hk
    · cases hrun
  · rw [hp] at hwp
    obtain ⟨w, own, hw, hrun, hok⟩ := h.passes wave p hwp
    refine ⟨w, own, hb.waves wave _ hw, hrun, hok.congr fun k hl => ?_⟩
    obtain ⟨T, hT⟩ := hl
    refine (hprov own k T hT).imp_left fun hn q a hq hk => ?_
    exact hnone wave w own hw _ (List.mem_of_getElem? hq) (hk ▸ hn)

omit [DecidableEq Ty] in
/-- What leaves waves and Blackboards alone. -/
theorem Inv.same (h : s.Inv) {s' : Framework Val} (hp : s'.passes = s.passes) (hw : s'.brain.waves = s.brain.waves)
    (hb : s'.brain.blackboards = s.brain.blackboards) (hl : ∀ wave, s'.pending wave = s.pending wave)
    (hc : ∀ wave own file calls held ending, s'.loading = some (.constructing wave own file calls held ending) →
      ∃ w, s.brain.waves.lookup wave = some (w, own))
    (ha : ∀ wave file module, s'.loading = some (.adding wave file module) →
      ∃ w own, s.brain.waves.lookup wave = some (w, own)) : s'.Inv := by
  have hheld : s'.held = s.held := funext fun wave => by rw [held, held, hl wave, Brain.accessorsOf, hw]; rfl
  have hwired : s.brain.Wired s'.held := hheld ▸ h.wired
  obtain ⟨⟨blackboards, waves, loader⟩, passes, loading, ended⟩ := s'
  obtain rfl : passes = s.passes := hp
  obtain rfl : waves = s.brain.waves := hw
  obtain rfl : blackboards = s.brain.blackboards := hb
  refine ⟨⟨h.brain.coherent, h.brain.board, h.brain.sound, h.brain.held⟩, ⟨h.oneToOne.size, h.oneToOne.named⟩,
    ⟨hwired.home, hwired.backs, hwired.typed, hwired.values, hwired.order, hwired.own⟩, hc, ha, h.valid,
    fun wave p hwp => ?_⟩
  obtain ⟨w, own, hw, hrun, hok⟩ := h.passes wave p hwp
  exact ⟨w, own, hw, hrun, hok.congr fun k hl => Or.inr ⟨hl, rfl⟩⟩

theorem Inv.createWave (h : s.Inv) (hl : s.loading = none) (inputs : List String) :
    (s.exit (s.brain.createWave inputs)).Inv := by
  have hb := Brain.createWave_builds h.brain.coherent inputs
  have hcheck : ∀ board k, (s.brain.createWave inputs).2.checkOf board k = s.brain.checkOf board k := by
    intro board k
    unfold Brain.createWave
    split
    · exact Brain.checkOf_others _ _ _ _
    · rfl
  refine @Inv.build Ty Val s h (s.exit (s.brain.createWave inputs)) rfl hb ?_ ?_ (fun board k T hk => ?_) (fun board k T hk => ?_)
    (fun _ _ _ _ _ _ hl => by cases hl) fun _ _ _ hl => by cases hl
  · exact (Brain.step_oneToOne h.brain h.oneToOne (.command (.createWave inputs))).1
  · have hheld : (s.exit (s.brain.createWave inputs)).held = s.held := by
      funext wave
      simp only [held, pending, exit, hl, accessorsOf_builds hb]
    exact hheld ▸ h.wired.createWave h.brain.coherent inputs
  · exact Or.inr ((hcheck board k).symm.trans hk)
  · exact Or.inr ⟨⟨T, (hcheck board k).symm.trans hk⟩, Brain.stored_createWave _ _ _ _⟩

omit [DecidableEq Ty] in
theorem Inv.execute (h : s.Inv) (hl : s.loading = none) : (s.exit s.brain.execute).Inv := by
  have hi := Brain.execute_inv h.brain
  have ho := Brain.execute_oneToOne h.brain h.oneToOne
  by_cases hv : s.brain.blackboards.all Blackboard.validateGlobals = true
  swap
  · have he : s.brain.execute = (.returned 1, s.brain) := by simp only [Brain.execute, if_neg hv]
    rw [he]
    refine h.same rfl rfl rfl (fun wave => ?_) (fun _ _ _ _ _ _ hl => by cases hl) fun _ _ _ hl => by cases hl
    simp only [pending, exit, hl]
  -- every wave is as it was, or is started
  have hlook := Brain.lookup_executed hv
  have hheld : (s.exit s.brain.execute).held = s.held := by
    funext wave
    simp only [held, pending, exit, hl, Brain.accessorsOf, hlook]
    cases s.brain.waves.lookup wave with
    | none => rfl
    | some x => simp only [Option.map_some, BrainWave.accessors, BrainWave.execute_modules]
  have hcheck : ∀ board k, s.brain.execute.2.checkOf board k = s.brain.checkOf board k := by
    intro board k
    rw [Brain.checkOf, Brain.blackboards_execute]; rfl
  have hstored : ∀ board k, s.brain.execute.2.stored board k = s.brain.stored board k := by
    intro board k
    rw [Brain.stored, Brain.blackboards_execute]; rfl
  refine ⟨hi, ho, hheld ▸ h.wired.execute, fun _ _ _ _ _ _ hl => (by cases hl), fun _ _ _ hl => (by cases hl),
    fun wave w own hw hrun x hx T hk => ?_, fun wave p hp => ?_⟩
  · obtain ⟨⟨w₀, own₀⟩, hw₀, e⟩ := Option.map_eq_some_iff.1 ((hlook wave).symm.trans hw)
    obtain ⟨rfl, rfl⟩ := Prod.mk.inj e
    have hx₀ : x ∈ w₀.accessors := by rwa [BrainWave.accessors, BrainWave.execute_modules] at hx
    obtain ⟨B, hB, -⟩ := h.wired.backs wave x (mem_held hw₀ hx₀)
    have hvalid := B.validateGlobals_iff.1 (List.all_eq_true.1 hv B (NodeList.mem_of_at? hB))
    have hk : s.brain.checkOf x.1 x.2.key = some (.requested, T) := (hcheck _ _).symm.trans hk
    rw [Brain.checkOf, hB] at hk
    exact hvalid _ _ T hk rfl
  · obtain ⟨w, own, hw, hrun, hok⟩ := h.passes wave p hp
    have hst : (w.execute wave).state = w := by
      have hr : w.running = true := hrun
      simp [BrainWave.execute, hr, Outcome.ok]
    refine ⟨w, own, (hlook wave).trans (by rw [hw, Option.map_some, hst]), hrun, hok.congr fun k hl => Or.inr ?_⟩
    obtain ⟨T, hT⟩ := hl
    exact ⟨⟨T, (hcheck own k).symm.trans hT⟩, hstored own k⟩

omit [DecidableEq Ty] in
/-- **The module that was loaded keeps the invariant** when its wave takes it. -/
theorem Inv.give (h : s.Inv) {wave file : String} {module : DynamicModule Ty}
    (hl : s.loading = some (.adding wave file module)) (hp : s.passes wave = none) (hu : s.KeepsValid .load) :
    (s.exit (s.brain.giveModule wave file module)).Inv ∧ (s.exit (s.brain.giveModule wave file module)).ended = none := by
  obtain ⟨w, own, hw⟩ := h.adding wave file module hl
  have hg : s.brain.giveModule wave file module =
      (.returned 0, { s.brain with waves := s.brain.waves.insert wave (w.pushBack module, own) }) := by
    simp only [Brain.giveModule, hw, BrainWave.addModule_spec (h.brain.sound wave w own hw)]
    rfl
  have hacc : (w.pushBack module).accessors = w.accessors ++ module.held := by
    simp [BrainWave.accessors, BrainWave.pushBack]
  have hpend : ∀ x ∈ module.held, x ∈ s.held wave := by
    intro x hx
    refine List.mem_append_right _ ?_
    rw [pending, hl]
    simpa using hx
  rw [hg]
  refine ⟨⟨h.brain.setWave hw (h.brain.sound wave w own hw) fun m hm x hx => ?_, h.oneToOne.setWave hw rfl, ?_,
    fun _ _ _ _ _ _ hl => (by cases hl), fun _ _ _ hl => (by cases hl), fun other w' own' hw' hrun x hx T hk => ?_,
    fun other p hp' => ?_⟩, rfl⟩
  · rcases List.mem_append.1 hm with hm | hm
    · exact h.brain.held wave w own hw m hm x hx
    · obtain rfl := List.mem_singleton.1 hm
      exact h.wired.backs wave x (hpend x hx)
  · have hheld : (s.exit (.returned 0, { s.brain with waves := s.brain.waves.insert wave (w.pushBack module, own) })).held =
        s.held := by
      funext other
      simp only [held, pending, exit, hl, Brain.accessorsOf, UnorderedMap.lookup_insert_if, List.append_nil]
      by_cases e : other = wave
      · subst e
        simp only [if_true, hw, hacc]
      · simp only [if_neg e, List.append_nil]
    rw [hheld]
    exact h.wired.setWave hw _
  · simp only [exit, UnorderedMap.lookup_insert_if] at hw'
    split at hw'
    · obtain ⟨rfl, rfl⟩ := Prod.mk.inj (Option.some.inj hw')
      rw [hacc] at hx
      rcases List.mem_append.1 hx with hx | hx
      · exact h.valid wave w own hw hrun x hx T hk
      · exact hu wave file module w own hl hw hrun x hx T hk
    · exact h.valid other w' own' hw' hrun x hx T hk
  · have hne : other ≠ wave := by
      rintro rfl
      rw [show s.passes other = some p from hp'] at hp
      cases hp
    obtain ⟨w', own', hw', hrun, hok⟩ := h.passes other p hp'
    refine ⟨w', own', ?_, hrun, hok.congr fun k hl => Or.inr ⟨hl, rfl⟩⟩
    simp only [exit, UnorderedMap.lookup_insert_if, if_neg hne, hw']

theorem Inv.beginLoad (h : s.Inv) (hl : s.loading = none) (inputs : List String) (found : Except String (Library Val)) :
    (s.beginLoad inputs found).Inv := by
  unfold Framework.beginLoad
  split
  swap
  · exact h
  rename_i wave file more
  split
  · exact h
  rename_i w own hw
  split
  · refine h.same rfl rfl rfl (fun other => ?_) (fun wave own file calls held ending e => ?_) fun _ _ _ e => by cases e
    · simp [pending, hl]
    · cases e
      exact ⟨w, hw⟩
  · rename_i hc
    match found with
    | .error message => exact h.same rfl rfl rfl (fun _ => rfl) h.constructing h.adding
    | .ok ⟨.error message, dump⟩ => exact h.same rfl rfl rfl (fun _ => rfl) h.constructing h.adding
    | .ok ⟨.ok c, .error message⟩ => exact h.same rfl rfl rfl (fun _ => rfl) h.constructing h.adding
    | .ok ⟨.ok c, .ok ()⟩ => cases hc

/-- A call that a constructor makes keeps the invariant. -/
theorem Inv.construct (h : s.Inv) {wave file : String} {own : Nat} {c : AdapterCall Val} {calls : List (AdapterCall Val)}
    {held₀ : List (Nat × Accessor Ty)} {ending : Except Thrown String}
    (hl : s.loading = some (.constructing wave own file (c :: calls) held₀ ending)) (hag : s.brain.Agrees wave c) :
    Inv { s with
      brain := (Brain.adapterCall own s.brain c).1
      loading := some (.constructing wave own file calls (held₀ ++ (Brain.adapterCall own s.brain c).2) ending) } := by
  obtain ⟨w, hw⟩ := h.constructing _ _ _ _ _ _ hl
  have hb := Brain.adapterCall_builds h.brain.coherent own c
  refine h.build rfl hb (h.oneToOne.adapterCall own c) ?_ (fun board k T => Brain.requested_of_adapterCall h.brain hw hag)
    (fun board k T => Brain.provided_of_adapterCall h.brain hw hag) (fun _ _ _ _ _ _ e => ?_) fun _ _ _ e => by cases e
  · have hheld : held { s with
        brain := (Brain.adapterCall own s.brain c).1
        loading := some (.constructing wave own file calls (held₀ ++ (Brain.adapterCall own s.brain c).2) ending) } =
        Function.update s.held wave (s.held wave ++ (Brain.adapterCall own s.brain c).2) := by
      funext other
      rw [Function.update_apply]
      simp only [held, pending, hl, accessorsOf_builds hb]
      split
      · rename_i e
        simp only [e, if_true, List.append_assoc]
      · rfl
    rw [hheld]
    exact h.wired.adapterCall h.brain h.oneToOne hw hag
  · cases e
    exact ⟨w, hb.waves wave _ hw⟩

/-- **A load keeps the invariant**, unless a constructor throws. -/
theorem Inv.load (h : s.Inv) (he : s.ended = none) (hu : s.WellUsed .load) :
    (s.load.Inv ∧ s.load.ended = none) ∨ ∃ t, s.load.ended = some (.threw t) := by
  unfold Framework.load
  split
  · exact Or.inl ⟨h, he⟩
  · rename_i wave own file c calls held ending hl
    exact Or.inl ⟨h.construct hl (hu.types wave own file c calls held ending hl), he⟩
  · rename_i wave own file held name hl
    obtain ⟨w, hw⟩ := h.constructing _ _ _ _ _ _ hl
    refine Or.inl ⟨h.same rfl rfl rfl (fun other => ?_) (fun _ _ _ _ _ _ e => by cases e) fun _ _ _ e => ?_, he⟩
    · simp [pending, hl]
    · cases e
      exact ⟨w, own, hw⟩
  · rename_i t hl
    refine Or.inr ⟨t.asException.getD t, ?_⟩
    cases t <;> rfl
  · rename_i wave file module hl
    split
    · exact Or.inl ⟨h, he⟩
    · rename_i hp
      exact Or.inl (h.give hl (Option.not_isSome_iff_eq_none.1 hp) hu.valid)

/-! ## Whole runs -/

/-- The framework goes on in order, or a constructor has thrown. -/
def Holds (s : Framework Val) : Prop := (s.Inv ∧ s.ended = none) ∨ ∃ t, s.ended = some (.threw t)

/-- **The step lemma.** -/
theorem Holds.step (h : s.Holds) {t : Turn Val} (hu : s.WellUsed t) : (s.step t).Holds := by
  rcases h with ⟨h, he⟩ | ⟨e, he⟩
  swap
  · exact Or.inr ⟨e, by simp only [Framework.step, he]⟩
  simp only [Framework.step, he]
  have hidle : ∀ {s' : Framework Val}, (s.loading = none → s'.Holds) → (if s.loading.isSome then s else s').Holds := by
    intro s' hs
    split
    · exact Or.inl ⟨h, he⟩
    · rename_i hl
      exact hs (Option.not_isSome_iff_eq_none.1 hl)
  cases t with
  | createWave inputs =>
    refine hidle fun hl => Or.inl ⟨h.createWave hl inputs, ?_⟩
    rcases inputs with _ | ⟨_, _ | ⟨_, _⟩⟩ <;> rfl
  | execute inputs =>
    refine hidle fun hl => Or.inl ⟨h.execute hl, ?_⟩
    rcases Brain.execute_startsAllOrNone h.brain with ⟨hr, -⟩ | hr
    · simp only [exit, hr]
    · simp only [exit, hr]
  | addDynamicModule inputs found =>
    exact hidle fun hl => Or.inl ⟨h.beginLoad hl inputs found, (ended_beginLoad s inputs found).trans he⟩
  | load => exact h.load he hu
  | pass wave => exact Or.inl ⟨h.pass wave, (ended_pass s wave).trans he⟩
  | call wave place a => exact Or.inl (h.call he hu.order)
  | next wave => exact Or.inl ⟨h.next hu.order, (ended_next s wave).trans he⟩

omit [DecidableEq Ty] in
theorem holds_new : (new : Framework Val).Holds := by
  refine Or.inl ⟨⟨⟨fun _ _ h => ?_, fun _ _ _ h => ?_, fun _ _ _ h => ?_, fun _ _ _ h => ?_⟩, ⟨rfl, fun _ _ _ h => ?_⟩,
    ⟨fun _ _ h => ?_, fun _ _ h => ?_, fun _ _ h => ?_, fun _ _ _ h => ?_, fun _ _ _ _ _ h => ?_, fun _ _ _ _ _ h => ?_⟩,
    fun _ _ _ _ _ _ h => ?_, fun _ _ _ h => ?_, fun _ _ _ h => ?_, fun _ _ h => ?_⟩, rfl⟩
  all_goals cases h

end Framework

end Core
end NaoFramework
