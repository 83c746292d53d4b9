import NaoFramework.Runs
import Mathlib.Logic.Function.Basic
/-!
# ModuleOwners — who deletes a module and closes its library

The pointers of `DynamicModule` objects and what is done with them: every successful `makeDynamicModule` obtains a
module instance and a library handle, which moves hand on and `release` gives back.  The n-th load's instance and handle
are both called `n`.

Beside it stands a `Ledger`, which knows of no pointers: by the calls alone, which object owns which load, and which loads
were let go of.  The pointers follow the ledger through all calls, so that each load has one owner until its instance is
deleted and its handle closed, once and in this order (`owned_once`).
-/
namespace NaoFramework
namespace Modules

/-- A call of a library's deleter on a module pointer, or a `dlclose`. -/
inductive Release where
  | deleted (deleter : String) (module : Option Nat)
  | closed (dllModule : Nat)
  deriving DecidableEq, Repr

/-- The load whose instance or handle is given back; none for a deleter called on null. -/
def Release.load : Release → Option Nat
  | deleted _ m => m
  | closed n => some n

/-- The pointers of a `DynamicModule`: `dllModule_`, `module_`, and `moduleDeleter_`, a function of the library named. -/
structure ModulePointers where
  dllModule : Option Nat
  module : Option Nat
  moduleDeleter : String
  deriving DecidableEq, Repr

namespace ModulePointers

/-- `if (module_) moduleDeleter_(&module_); if (dllModule_) dlclose(dllModule_);` — the deleter nulls the pointer it is
given. -/
def release (p : ModulePointers) : ModulePointers × List Release :=
  let deleting : ModulePointers × List Release :=
    if p.module.isSome then ({ p with module := none }, [.deleted p.moduleDeleter p.module]) else (p, [])
  match deleting.1.dllModule with
  | some handle => (deleting.1, deleting.2 ++ [.closed handle])
  | none => deleting

/-- What a move leaves of the object moved from. -/
def movedFrom (p : ModulePointers) : ModulePointers := { p with dllModule := none, module := none }

theorem movedFrom_release (p : ModulePointers) : p.release.1.movedFrom = p.movedFrom := by
  obtain ⟨dll, m, d⟩ := p
  cases dll <;> cases m <;> rfl

end ModulePointers

/-- The live objects, by address; the libraries of the successful loads; and what was given back. -/
structure Owners (A : Type) where
  objects : A → Option ModulePointers
  loads : List String
  releases : List Release

inductive OwnerOp (A : Type) where
  | makeDynamicModule (a : A) (file : String)
  | moveConstruct (a other : A)
  | moveAssign (a other : A)
  | destroy (a : A)

namespace Owners

variable {A : Type} [DecidableEq A]

omit [DecidableEq A] in
def new : Owners A := ⟨fun _ => none, [], []⟩

/-- One call, in the order of the source's writes.  A call on an object that does not exist and a construction over one
that does are skipped. -/
def step (s : Owners A) : OwnerOp A → Owners A
  | .makeDynamicModule a file =>
    match s.objects a with
    | none =>
      { s with objects := Function.update s.objects a (some ⟨some s.loads.length, some s.loads.length, file⟩),
               loads := s.loads ++ [file] }
    | some _ => s
  | .moveConstruct a b =>
    match s.objects a, s.objects b with
    | none, some o =>
      { s with objects := Function.update (Function.update s.objects a (some o)) b (some o.movedFrom) }
    | _, _ => s
  | .moveAssign a b =>
    match s.objects a, s.objects b with
    | some p, some _ =>
      let objects := Function.update s.objects a (some p.release.1)
      let s := { s with objects := objects, releases := s.releases ++ p.release.2 }
      -- `other` may be the object itself, as it is by now
      match objects b with
      | some o => { s with objects := Function.update (Function.update objects a (some o)) b (some o.movedFrom) }
      | none => s
    | _, _ => s
  | .destroy a =>
    match s.objects a with
    | some p => { s with objects := Function.update s.objects a none, releases := s.releases ++ p.release.2 }
    | none => s

def after (ops : List (OwnerOp A)) : Owners A := Runs.run step new ops

omit [DecidableEq A] in
/-- The object at `a` owns the instance and the handle of load `n`. -/
def Owns (s : Owners A) (a : A) (n : Nat) : Prop :=
  ∃ p, s.objects a = some p ∧ p.module = some n ∧ p.dllModule = some n

omit [DecidableEq A] in
/-- What was given back of load `n`. -/
def releasesOf (s : Owners A) (n : Nat) : List Release := s.releases.filter fun r => decide (r.load = some n)

end Owners

/-! ## The ledger -/

/-- **Who owns what, by the calls alone**: the live objects, each with the load it owns, if any; the libraries of the
loads; and the loads that were let go of, in that order. -/
structure Ledger (A : Type) where
  holder : A → Option (Option Nat)
  loads : List String
  ended : List Nat

namespace Ledger

variable {A : Type}

def new : Ledger A := ⟨fun _ => none, [], []⟩

def Owns (l : Ledger A) (a : A) (n : Nat) : Prop := l.holder a = some (some n)

variable [DecidableEq A]

/-- The object at `a` lets go of what it owns, and is `x` from then on: gone, or without a load. -/
def letGo (l : Ledger A) (a : A) (x : Option (Option Nat)) : Ledger A :=
  { l with holder := Function.update l.holder a x, ended := l.ended ++ (l.holder a).join.toList }

/-- The object at `b` hands what it owns on to `a`, and owns nothing from then on. -/
def handOn (l : Ledger A) (a b : A) : Ledger A :=
  { l with holder := Function.update (Function.update l.holder a (l.holder b)) b (some none) }

/-- A load is owned by the object it makes; a move hands a load on; what an object owns when it is assigned to, be it
itself, or destroyed, it lets go of.  The calls that are skipped are those that `Owners.step` skips. -/
def step (l : Ledger A) : OwnerOp A → Ledger A
  | .makeDynamicModule a file =>
    match l.holder a with
    | none =>
      { l with holder := Function.update l.holder a (some (some l.loads.length)), loads := l.loads ++ [file] }
    | some _ => l
  | .moveConstruct a b =>
    match l.holder a, l.holder b with
    | none, some _ => l.handOn a b
    | _, _ => l
  | .moveAssign a b =>
    match l.holder a, l.holder b with
    | some _, some _ => (l.letGo a (some none)).handOn a b
    | _, _ => l
  | .destroy a =>
    match l.holder a with
    | some _ => l.letGo a none
    | none => l

def after (ops : List (OwnerOp A)) : Ledger A := Runs.run step new ops

omit [DecidableEq A] in
/-- **The invariant**: a load has one owner, or it was let go of, once. -/
structure Inv (l : Ledger A) : Prop where
  held_lt : ∀ a n, l.Owns a n → n < l.loads.length
  unique : ∀ a b n, l.Owns a n → l.Owns b n → a = b
  once : ∀ n, n < l.loads.length → ((∃ a, l.Owns a n) ∧ l.ended.count n = 0) ∨ ((¬ ∃ a, l.Owns a n) ∧ l.ended.count n = 1)
  ended_lt : ∀ n ∈ l.ended, n < l.loads.length

variable {l : Ledger A} {a b : A}

theorem owns_letGo {x : Option (Option Nat)} (hx : x.join = none) (c : A) (n : Nat) :
    (l.letGo a x).Owns c n ↔ c ≠ a ∧ l.Owns c n := by
  simp only [Owns, letGo, Function.update_apply]
  by_cases hc : c = a
  · rw [if_pos hc]
    refine iff_of_false (fun e => ?_) fun h => h.1 hc
    rw [e] at hx
    cases hx
  · rw [if_neg hc]
    exact (and_iff_right hc).symm

omit [DecidableEq A] in
/-- What an object owns that lets go of it. -/
theorem mem_ended (l : Ledger A) (a : A) (n : Nat) : n ∈ (l.holder a).join.toList ↔ l.Owns a n := by
  unfold Owns
  cases l.holder a with
  | none => simp
  | some x => cases x <;> simp [eq_comm]

theorem Inv.letGo (h : l.Inv) (a : A) {x : Option (Option Nat)} (hx : x.join = none) : (l.letGo a x).Inv := by
  have howns := owns_letGo (l := l) (a := a) hx
  refine ⟨fun c n hc => h.held_lt c n ((howns c n).1 hc).2, fun c d n hc hd => ?_, fun n hn => ?_, fun n hn => ?_⟩
  · exact h.unique c d n ((howns c n).1 hc).2 ((howns d n).1 hd).2
  · have hcount : (l.letGo a x).ended.count n = l.ended.count n + (l.holder a).join.toList.count n := List.count_append
    rw [hcount]
    simp only [howns]
    by_cases ha : l.Owns a n
    · have hone : (l.holder a).join.toList.count n = 1 := by
        rw [Owns] at ha
        simp [ha]
      rw [hone]
      rcases h.once n hn with ⟨-, hz⟩ | ⟨hno, -⟩
      · refine Or.inr ⟨?_, by rw [hz]⟩
        rintro ⟨c, hca, hc⟩
        exact hca (h.unique c a n hc ha)
      · exact absurd ⟨a, ha⟩ hno
    · rw [List.count_eq_zero.2 fun hmem => ha ((l.mem_ended a n).1 hmem), Nat.add_zero]
      have hex : (∃ c, c ≠ a ∧ l.Owns c n) ↔ ∃ c, l.Owns c n := by
        refine exists_congr fun c => and_iff_right_of_imp fun hc e => ?_
        exact ha (e ▸ hc)
      rw [hex]
      exact h.once n hn
  · rcases List.mem_append.1 hn with hn | hn
    · exact h.ended_lt n hn
    · exact h.held_lt a n ((l.mem_ended a n).1 hn)

theorem owns_handOn (c : A) (n : Nat) :
    (l.handOn a b).Owns c n ↔ c ≠ b ∧ if c = a then l.Owns b n else l.Owns c n := by
  simp only [Owns, handOn, Function.update_apply]
  by_cases hc : c = b
  · simp [hc]
  · by_cases hca : c = a
    · subst hca
      simp [hc]
    · simp [hc, hca]

theorem Inv.handOn (h : l.Inv) (ha : ∀ n, ¬ l.Owns a n) (b : A) : (l.handOn a b).Inv := by
  have howns := owns_handOn (l := l) (a := a) (b := b)
  refine ⟨fun c n hc => ?_, fun c d n hc hd => ?_, fun n hn => ?_, h.ended_lt⟩
  · obtain ⟨-, hc⟩ := (howns c n).1 hc
    split at hc
    · exact h.held_lt b n hc
    · exact h.held_lt c n hc
  · obtain ⟨hcb, hc⟩ := (howns c n).1 hc
    obtain ⟨hdb, hd⟩ := (howns d n).1 hd
    split at hc <;> split at hd
    · rename_i e e'
      rw [e, e']
    · exact absurd (h.unique d b n hd hc) hdb
    · exact absurd (h.unique c b n hc hd) hcb
    · exact h.unique c d n hc hd
  · have hex : (∃ c, c ≠ b ∧ if c = a then l.Owns b n else l.Owns c n) ↔ ∃ c, l.Owns c n := by
      constructor
      · rintro ⟨c, -, hc⟩
        split at hc
        · exact ⟨b, hc⟩
        · exact ⟨c, hc⟩
      · rintro ⟨c, hc⟩
        have hca : c ≠ a := fun e => ha n (e ▸ hc)
        by_cases hcb : c = b
        · subst hcb
          exact ⟨a, Ne.symm hca, by rw [if_pos rfl]; exact hc⟩
        · exact ⟨c, hcb, by rw [if_neg hca]; exact hc⟩
    have honce := h.once n hn
    simp only [howns, hex]
    exact honce

theorem Inv.load (h : l.Inv) (ha : l.holder a = none) (file : String) :
    Inv ⟨Function.update l.holder a (some (some l.loads.length)), l.loads ++ [file], l.ended⟩ := by
  have howns : ∀ c n, Owns ⟨Function.update l.holder a (some (some l.loads.length)), l.loads ++ [file], l.ended⟩ c n ↔
      l.Owns c n ∨ (c = a ∧ n = l.loads.length) := by
    intro c n
    simp only [Owns, Function.update_apply]
    by_cases hc : c = a
    · subst hc
      simp [ha, eq_comm]
    · simp [hc]
  have hlen : (l.loads ++ [file]).length = l.loads.length + 1 := by simp
  refine ⟨fun c n hc => ?_, fun c d n hc hd => ?_, fun n hn => ?_, fun n hn => ?_⟩
  · rw [hlen]
    rcases (howns c n).1 hc with hc | ⟨-, rfl⟩
    · exact Nat.lt_succ_of_lt (h.held_lt c n hc)
    · exact Nat.lt_succ_self _
  · rcases (howns c n).1 hc with hc | ⟨hca, hcn⟩ <;> rcases (howns d n).1 hd with hd | ⟨hda, hdn⟩
    · exact h.unique c d n hc hd
    · exact absurd hdn (Nat.ne_of_lt (h.held_lt c n hc))
    · exact absurd hcn (Nat.ne_of_lt (h.held_lt d n hd))
    · rw [hca, hda]
  · rw [hlen] at hn
    simp only [howns]
    rcases Nat.lt_succ_iff_lt_or_eq.1 hn with hn | rfl
    · have hex : (∃ c, l.Owns c n ∨ (c = a ∧ n = l.loads.length)) ↔ ∃ c, l.Owns c n :=
        exists_congr fun c => or_iff_left fun hc => Nat.ne_of_lt hn hc.2
      rw [hex]
      exact h.once n hn
    · refine Or.inl ⟨⟨a, Or.inr ⟨rfl, rfl⟩⟩, List.count_eq_zero.2 fun hmem => ?_⟩
      exact Nat.lt_irrefl _ (h.ended_lt _ hmem)
  · rw [hlen]
    exact Nat.lt_succ_of_lt (h.ended_lt n hn)

/-- **The step lemma.** -/
theorem step_inv (h : l.Inv) (op : OwnerOp A) : (l.step op).Inv := by
  cases op with
  | makeDynamicModule a file =>
    cases ha : l.holder a with
    | none => simp only [step, ha]; exact h.load ha file
    | some x => simp only [step, ha]; exact h
  | moveConstruct a b =>
    cases ha : l.holder a with
    | some x => simp only [step, ha]; exact h
    | none =>
      cases hb : l.holder b with
      | none => simp only [step, ha, hb]; exact h
      | some y =>
        simp only [step, ha, hb]
        refine h.handOn (fun n hn => ?_) b
        rw [Owns, ha] at hn
        cases hn
  | moveAssign a b =>
    cases ha : l.holder a with
    | none => simp only [step, ha]; exact h
    | some x =>
      cases hb : l.holder b with
      | none => simp only [step, ha, hb]; exact h
      | some y =>
        simp only [step, ha, hb]
        exact (h.letGo a rfl).handOn (fun n hn => ((owns_letGo rfl a n).1 hn).1 rfl) b
  | destroy a =>
    cases ha : l.holder a with
    | none => simp only [step, ha]; exact h
    | some x => simp only [step, ha]; exact h.letGo a rfl

theorem after_inv (ops : List (OwnerOp A)) : (after ops : Ledger A).Inv := by
  have h0 : (new : Ledger A).Inv :=
    ⟨fun _ _ h => (by cases h), fun _ _ _ h => (by cases h), fun _ h => (by cases h), fun _ h => (by cases h)⟩
  have hstep : ∀ (l : Ledger A) op, l.Inv → (l.step op).Inv := fun _ op h => step_inv h op
  exact Runs.run_invariant hstep ops _ h0

end Ledger

/-! ## The pointers follow the ledger -/

/-- What is given back of a load: its instance, to its own library's deleter, and then its handle. -/
def givenBack (loads : List String) (n : Nat) : List Release := [.deleted (loads.getD n "") (some n), .closed n]

/-- The pointers of an object that owns load `x`, or none: both are null, or are the load's, with its library's deleter. -/
structure ModulePointers.Hold (loads : List String) (p : ModulePointers) (x : Option Nat) : Prop where
  dllModule : p.dllModule = x
  module : p.module = x
  deleter : ∀ n, x = some n → loads[n]? = some p.moduleDeleter

theorem ModulePointers.Hold.release {loads : List String} {p : ModulePointers} {x : Option Nat} (h : p.Hold loads x) :
    p.release.2 = x.toList.flatMap (givenBack loads) := by
  obtain ⟨dll, m, d⟩ := p
  obtain ⟨hdll, hm, hd⟩ := h
  obtain rfl : dll = x := hdll
  obtain rfl : m = dll := hm
  cases m with
  | none => rfl
  | some n =>
    have hn : loads.getD n "" = d := by rw [List.getD_eq_getElem?_getD, hd n rfl]; rfl
    rw [Option.toList_some, List.flatMap_singleton, givenBack, hn]
    rfl

namespace Owners

variable {A : Type}

/-- **The objects' pointers are as the ledger has it**, and given back is what was let go of, in that order. -/
structure Follows (s : Owners A) (l : Ledger A) : Prop where
  objects : ∀ a, Option.Rel (ModulePointers.Hold l.loads) (s.objects a) (l.holder a)
  loads : s.loads = l.loads
  releases : s.releases = l.ended.flatMap (givenBack l.loads)

variable {s : Owners A} {l : Ledger A} {a b : A}

theorem Follows.cases (h : s.Follows l) (a : A) :
    (s.objects a = none ∧ l.holder a = none) ∨
      ∃ p x, s.objects a = some p ∧ l.holder a = some x ∧ p.Hold l.loads x := by
  have ha := h.objects a
  cases hs : s.objects a with
  | none =>
    cases hl : l.holder a with
    | none => exact Or.inl ⟨rfl, rfl⟩
    | some x => rw [hs, hl] at ha; cases ha
  | some p =>
    cases hl : l.holder a with
    | none => rw [hs, hl] at ha; cases ha
    | some x =>
      rw [hs, hl] at ha
      cases ha with
      | some hp => exact Or.inr ⟨p, x, rfl, rfl, hp⟩

theorem Follows.owns_iff (h : s.Follows l) (a : A) (n : Nat) : s.Owns a n ↔ l.Owns a n := by
  unfold Owns Ledger.Owns
  rcases h.cases a with ⟨hs, hl⟩ | ⟨p, x, hs, hl, hp⟩
  · rw [hs, hl]
    exact iff_of_false (fun ⟨p, e, _⟩ => by cases e) (fun e => by cases e)
  · rw [hs, hl]
    constructor
    · rintro ⟨q, e, hm, -⟩
      obtain rfl := Option.some.inj e
      rw [← hp.module, hm]
    · intro e
      obtain rfl := Option.some.inj e
      exact ⟨p, rfl, hp.module, hp.dllModule⟩

variable [DecidableEq A]

theorem Follows.update {objects : A → Option ModulePointers} {holder : A → Option (Option Nat)} {loads : List String}
    (h : ∀ c, Option.Rel (ModulePointers.Hold loads) (objects c) (holder c)) (a : A) {p : Option ModulePointers}
    {x : Option (Option Nat)} (hp : Option.Rel (ModulePointers.Hold loads) p x) (c : A) :
    Option.Rel (ModulePointers.Hold loads) (Function.update objects a p c) (Function.update holder a x c) := by
  rw [Function.update_apply, Function.update_apply]
  split
  · exact hp
  · exact h c

/-- Null pointers own nothing. -/
theorem hold_movedFrom (loads : List String) (p : ModulePointers) : p.movedFrom.Hold loads none :=
  ⟨rfl, rfl, fun _ e => by cases e⟩

/-- **An object that is released lets go of its load.** -/
theorem Follows.letGo (h : s.Follows l) {p : ModulePointers} (ha : s.objects a = some p) {q : Option ModulePointers}
    {x : Option (Option Nat)} (hq : Option.Rel (ModulePointers.Hold l.loads) q x) :
    Follows ⟨Function.update s.objects a q, s.loads, s.releases ++ p.release.2⟩ (l.letGo a x) := by
  rcases h.cases a with ⟨hs, -⟩ | ⟨p', y, hs, hl, hp⟩
  · rw [ha] at hs
    cases hs
  · obtain rfl : p = p' := Option.some.inj (ha.symm.trans hs)
    refine ⟨Follows.update h.objects a hq, h.loads, ?_⟩
    simp only [Ledger.letGo, hl, Option.join_some, List.flatMap_append, h.releases, hp.release]

/-- **A move hands a load on.** -/
theorem Follows.handOn (h : s.Follows l) (a : A) {o : ModulePointers} (hb : s.objects b = some o) :
    Follows ⟨Function.update (Function.update s.objects a (some o)) b (some o.movedFrom), s.loads, s.releases⟩
      (l.handOn a b) := by
  refine ⟨Follows.update (Follows.update h.objects a ?_) b (.some (hold_movedFrom _ o)), h.loads, h.releases⟩
  rw [← hb]
  exact h.objects b

theorem Follows.load (h : s.Follows l) (hi : l.Inv) (a : A) (file : String) :
    Follows ⟨Function.update s.objects a (some ⟨some s.loads.length, some s.loads.length, file⟩), s.loads ++ [file],
        s.releases⟩
      ⟨Function.update l.holder a (some (some l.loads.length)), l.loads ++ [file], l.ended⟩ := by
  refine ⟨fun c => ?_, by rw [h.loads], ?_⟩
  · refine Follows.update (fun c => ?_) a (.some ?_) c
    · -- a load keeps its library
      have hmono : ∀ p x, ModulePointers.Hold l.loads p x → ModulePointers.Hold (l.loads ++ [file]) p x := by
        rintro p x ⟨hd, hm, hdel⟩
        refine ⟨hd, hm, fun n e => ?_⟩
        have hn := hdel n e
        rw [List.getElem?_append_left (List.getElem?_eq_some_iff.1 hn).1, hn]
      rcases h.cases c with ⟨hs, hl⟩ | ⟨p, x, hs, hl, hp⟩
      · rw [hs, hl]
        exact .none
      · rw [hs, hl]
        exact .some (hmono p x hp)
    · rw [h.loads]
      refine ⟨rfl, rfl, ?_⟩
      rintro n e
      obtain rfl := Option.some.inj e
      simp
  · rw [h.releases]
    refine congrArg List.flatten (List.map_congr_left fun n hn => ?_)
    have hlt := hi.ended_lt n hn
    simp [givenBack, List.getD_eq_getElem?_getD, List.getElem?_append_left hlt]

/-- **The step lemma**: one call of the code is one step of the ledger. -/
theorem Follows.step (h : s.Follows l) (hi : l.Inv) (op : OwnerOp A) : (s.step op).Follows (l.step op) := by
  cases op with
  | makeDynamicModule a file =>
    rcases h.cases a with ⟨hs, hl⟩ | ⟨p, x, hs, hl, -⟩
    · simp only [Owners.step, Ledger.step, hs, hl]
      exact h.load hi a file
    · simp only [Owners.step, Ledger.step, hs, hl]
      exact h
  | moveConstruct a b =>
    rcases h.cases a with ⟨hs, hl⟩ | ⟨p, x, hs, hl, -⟩
    · rcases h.cases b with ⟨hsb, hlb⟩ | ⟨o, y, hsb, hlb, -⟩
      · simp only [Owners.step, Ledger.step, hs, hl, hsb, hlb]
        exact h
      · simp only [Owners.step, Ledger.step, hs, hl, hsb, hlb]
        exact h.handOn a hsb
    · simp only [Owners.step, Ledger.step, hs, hl]
      exact h
  | moveAssign a b =>
    rcases h.cases a with ⟨hs, hl⟩ | ⟨p, x, hs, hl, -⟩
    · simp only [Owners.step, Ledger.step, hs, hl]
      exact h
    · rcases h.cases b with ⟨hsb, hlb⟩ | ⟨o, y, hsb, hlb, -⟩
      · simp only [Owners.step, Ledger.step, hs, hl, hsb, hlb]
        exact h
      · have hgo := h.letGo hs (.some (hold_movedFrom l.loads p))
        by_cases hab : a = b
        · -- an object assigned to itself is released, and has the closed handle nulled
          subst hab
          simp only [Owners.step, Ledger.step, hs, hl, Function.update_self, Function.update_idem]
          have hon := hgo.handOn a (b := a) (o := p.movedFrom) (Function.update_self ..)
          rw [ModulePointers.movedFrom_release]
          simp only [Function.update_idem] at hon
          exact hon
        · simp only [Owners.step, Ledger.step, hs, hl, hsb, hlb, Function.update_of_ne (Ne.symm hab), Function.update_idem]
          have hon := hgo.handOn a (b := b) ((Function.update_of_ne (Ne.symm hab) _ _).trans hsb)
          simpa only [Function.update_idem] using hon
  | destroy a =>
    rcases h.cases a with ⟨hs, hl⟩ | ⟨p, x, hs, hl, -⟩
    · simp only [Owners.step, Ledger.step, hs, hl]
      exact h
    · simp only [Owners.step, Ledger.step, hs, hl]
      exact h.letGo hs .none

theorem after_follows (ops : List (OwnerOp A)) : (after ops).Follows (Ledger.after ops) := by
  induction ops using List.reverseRecOn with
  | nil => exact ⟨fun _ => .none, rfl, rfl⟩
  | append_singleton ops op ih =>
    rw [after, Ledger.after, Runs.run_snoc, Runs.run_snoc]
    exact ih.step (Ledger.after_inv ops) op

/-! ## Whole sequences -/

omit [DecidableEq A] in
/-- What is given back of a load, as often as it was let go of. -/
theorem filter_givenBack (loads : List String) (n : Nat) (ended : List Nat) :
    (ended.flatMap (givenBack loads)).filter (fun r => decide (r.load = some n)) =
      (List.replicate (ended.count n) (givenBack loads n)).flatten := by
  induction ended with
  | nil => rfl
  | cons m ended ih =>
    rw [List.flatMap_cons, List.filter_append, ih, List.count_cons]
    by_cases hm : m = n
    · simp [hm, givenBack, Release.load, List.replicate_succ]
    · simp [hm, givenBack, Release.load]

/-- **Every module and every library handle is owned once**: the pointers are where the calls put them.  After any calls,
what a load of these obtained is owned by exactly one object, and nothing of it was given back; or no object owns it, and
its instance was given to its own library's deleter, once, and then its handle was closed, once.  Nothing else was ever
deleted or closed; and when no object is left, every load has been given back. -/
theorem owned_once (ops : List (OwnerOp A)) :
    (after ops).Follows (Ledger.after ops) ∧
      (∀ n file, (Ledger.after ops).loads[n]? = some file →
        ((∃! a, (after ops).Owns a n) ∧ (after ops).releasesOf n = []) ∨
          ((¬ ∃ a, (after ops).Owns a n) ∧ (after ops).releasesOf n = [.deleted file (some n), .closed n])) ∧
      (∀ r ∈ (after ops).releases, ∃ n, r.load = some n ∧ n < (Ledger.after ops).loads.length) ∧
      ((∀ a, (after ops).objects a = none) → ∀ n file, (Ledger.after ops).loads[n]? = some file →
        (after ops).releasesOf n = [.deleted file (some n), .closed n]) := by
  have hf := after_follows ops
  have hi := Ledger.after_inv ops
  have hof : ∀ n file, (Ledger.after ops).loads[n]? = some file →
      ((∃! a, (after ops).Owns a n) ∧ (after ops).releasesOf n = []) ∨
        ((¬ ∃ a, (after ops).Owns a n) ∧ (after ops).releasesOf n = [.deleted file (some n), .closed n]) := by
    intro n file hn
    have hfile : (Ledger.after ops).loads.getD n "" = file := by rw [List.getD_eq_getElem?_getD, hn]; rfl
    simp only [hf.owns_iff, releasesOf, hf.releases, filter_givenBack]
    rcases hi.once n (List.getElem?_eq_some_iff.1 hn).1 with ⟨⟨a, ha⟩, hc⟩ | ⟨hno, hc⟩
    · exact Or.inl ⟨⟨a, ha, fun b hb => hi.unique b a n hb ha⟩, by rw [hc]; rfl⟩
    · refine Or.inr ⟨hno, ?_⟩
      rw [hc, givenBack, hfile]
      rfl
  refine ⟨hf, hof, fun r hr => ?_, fun hnone n file hn => ?_⟩
  · rw [hf.releases] at hr
    obtain ⟨n, hn, hr⟩ := List.mem_flatMap.1 hr
    simp only [givenBack, List.mem_cons, List.not_mem_nil, or_false] at hr
    rcases hr with rfl | rfl <;> exact ⟨n, rfl, hi.ended_lt n hn⟩
  · rcases hof n file hn with ⟨⟨a, ⟨p, ha, -⟩, -⟩, -⟩ | ⟨-, hr⟩
    · rw [hnone a] at ha
      cases ha
    · exact hr

/-- Two modules are loaded; one moves and is assigned to itself, and takes the other over; all objects are destroyed. -/
def handed : List (OwnerOp Nat) :=
  [.makeDynamicModule 0 "Reader.so", .moveConstruct 1 0, .makeDynamicModule 2 "Writer.so", .moveAssign 1 1, .moveAssign 1 2,
    .destroy 0, .destroy 1, .destroy 2]

theorem owned_once_handed :
    (after handed).releases = [.deleted "Reader.so" (some 0), .closed 0, .deleted "Writer.so" (some 1), .closed 1] ∧
      (Ledger.after handed).loads = ["Reader.so", "Writer.so"] ∧
      ∀ n file, (Ledger.after handed).loads[n]? = some file →
        (after handed).releasesOf n = [.deleted file (some n), .closed n] := by
  obtain ⟨hf, -, -, hnone⟩ := owned_once handed
  refine ⟨hf.releases.trans rfl, rfl, hnone fun a => ?_⟩
  match a with
  | 0 | 1 | 2 => rfl
  | a + 3 => rfl

end Owners
end Modules
end NaoFramework
