import NaoFramework.BoardRules
/-!
# BoardFlow — what the accessors of a validated Blackboard return

After the registrations the accessors handed out are called in some order.  The value on a key is the one last stored
there, by a global provision or a provider accessor (`lookup_performAll`), so an accessor returns normally exactly when
that value has its type.  Between threads this holds in every order exactly when each key's first provision agrees with
the requests before it (`global_flow_exact_iff`).
-/
namespace NaoFramework
namespace Comm

variable {Ty : Type} {Val : Ty → Type}

/-- A call of an accessor: a request reads, a provision writes `input`. -/
inductive AccessorCall (Val : Ty → Type) where
  | require (T : Ty) (key : String)
  | provide (T : Ty) (key : String) (input : Val T)

namespace AccessorCall

def key : AccessorCall Val → String
  | require _ k | provide _ k _ => k

def accessor : AccessorCall Val → Accessor Ty
  | require T k => .require T (makeRequireFunction T k)
  | provide T k _ => .provide T (makeProvideFunction T k)

/-- The value the call stores on a key. -/
def storedOn (k : String) : AccessorCall Val → Option (Sigma Val)
  | require .. => none
  | provide T k' v => if k' = k then some ⟨T, v⟩ else none

end AccessorCall

/-- The value a registration stores on a key. -/
def Call.storedOn (k : String) : Call Val → Option (Sigma Val)
  | .globalProvide T k' v => if k' = k then some ⟨T, v⟩ else none
  | _ => none

def Blackboard.perform (b : Blackboard Val) : AccessorCall Val → Blackboard Val
  | .require .. => b
  | .provide T k v => (makeProvideFunction T k).call v b

def Blackboard.performAll (b : Blackboard Val) (as : List (AccessorCall Val)) : Blackboard Val :=
  Runs.run Blackboard.perform b as

/-- **The value most recently stored on a key**, by the accepted calls `A` and then the accessor calls `as`; `none` when
nothing was. -/
def lastStored (k : String) (A : List (Call Val)) (as : List (AccessorCall Val)) : Any Val :=
  (as.filterMap (AccessorCall.storedOn k)).getLast?.or (A.filterMap (Call.storedOn k)).getLast?

/-- What an accepted call does to `board_`. -/
def Call.enter (m : UnorderedMap String (Any Val)) : Call Val → UnorderedMap String (Any Val)
  | .provide _ k => m.emplace k none
  | .globalProvide T k v => m.insert k (some ⟨T, v⟩)
  | _ => m

theorem lookup_enter (m : UnorderedMap String (Any Val)) (c : Call Val) (k : String) :
    (c.enter m).lookup k =
      if c.key = k ∧ c.isProvision = true then some ((c.storedOn k).or ((m.lookup k).getD none)) else m.lookup k := by
  cases c with
  | require T k' | globalRequire T k' => simp [Call.enter, Call.isProvision]
  | provide T k' =>
    simp only [Call.enter, UnorderedMap.lookup_emplace, Call.key, Call.isProvision, Call.storedOn, and_true,
      Option.none_or]
    by_cases h : k = k'
    · subst h; simp
    · simp [h, Ne.symm h]
  | globalProvide T k' v =>
    simp only [Call.enter, UnorderedMap.lookup_insert_if, Call.key, Call.isProvision, Call.storedOn, and_true]
    by_cases h : k = k'
    · subst h; simp
    · simp [h, Ne.symm h]

/-! ## The value on a key -/

theorem lastStored_snoc (k : String) (A : List (Call Val)) (as : List (AccessorCall Val)) (a : AccessorCall Val) :
    lastStored k A (as ++ [a]) = (a.storedOn k).or (lastStored k A as) := by
  unfold lastStored
  rw [List.filterMap_append, List.getLast?_append, Option.or_assoc]
  cases h : a.storedOn k <;> simp [h]

theorem lastStored_snoc_call (k : String) (A : List (Call Val)) (c : Call Val) :
    lastStored k (A ++ [c]) [] = (c.storedOn k).or (lastStored k A []) := by
  unfold lastStored
  rw [List.filterMap_append, List.getLast?_append]
  cases h : c.storedOn k <;> simp [h]

theorem Call.of_storedOn {k : String} {c : Call Val} {x : Sigma Val} (h : c.storedOn k = some x) :
    c.key = k ∧ c.isProvision = true ∧ x.1 = c.type := by
  cases c with
  | globalProvide T k' v =>
    simp only [Call.storedOn, Option.ite_none_right_eq_some, Option.some.injEq] at h
    obtain ⟨hk, rfl⟩ := h
    exact ⟨hk, rfl, rfl⟩
  | _ => cases h

theorem lastStored_eq_none {k : String} {A : List (Call Val)} (h : provisionsOn k A = []) : lastStored k A [] = none := by
  have hn : A.filterMap (Call.storedOn k) = [] := by
    refine List.filterMap_eq_nil_iff.2 (fun c hc => Option.eq_none_iff_forall_ne_some.2 (fun x hx => ?_))
    obtain ⟨hk, hp, -⟩ := Call.of_storedOn hx
    exact absurd h (List.ne_nil_of_mem (mem_provisionsOn.2 ⟨hc, hk, hp⟩))
  simp [lastStored, hn]

theorem lookup_perform (b : Blackboard Val) (a : AccessorCall Val) (k : String) :
    (b.perform a).board.lookup k = ((a.storedOn k).map some).or (b.board.lookup k) := by
  cases a with
  | require T k' => rfl
  | provide T k' v =>
    simp only [Blackboard.perform, ProvideFunction.call, makeProvideFunction, UnorderedMap.lookup_insert_if,
      AccessorCall.storedOn]
    by_cases h : k = k'
    · subst h; simp
    · simp [h, Ne.symm h]

variable [DecidableEq Ty]

/-- The registration leaves `m'` as `board_` when its function is not empty, and `m` otherwise. -/
def Registration.Enters {F : Type} (r : Registration Val F) (m m' : UnorderedMap String (Any Val)) : Prop :=
  r.board.board = match r.result with
    | .ok (some _) => m'
    | _ => m

omit [DecidableEq Ty] in
theorem Registration.enters_same {F : Type} {r : Registration Val F} {m : UnorderedMap String (Any Val)}
    (h : r.board.board = m) : r.Enters m m := by
  unfold Registration.Enters
  split <;> exact h

theorem board_registerRequire (b : Blackboard Val) (T : Ty) (k : String) (e : Option RegistrationError) :
    (b.registerRequire T k e).board.board = b.board := by
  unfold Blackboard.registerRequire
  repeat' split
  all_goals rfl

theorem board_registerGlobalRequire (b : Blackboard Val) (T : Ty) (k : String) (e : Option RegistrationError) :
    (b.registerGlobalRequire T k e).board.board = b.board := by
  unfold Blackboard.registerGlobalRequire
  repeat' split
  all_goals first | rfl | exact board_registerRequire b T k none

omit [DecidableEq Ty] in
theorem registerProvide_enters (b : Blackboard Val) (T : Ty) (k : String) (e : Option RegistrationError) :
    (b.registerProvide T k e).Enters b.board (b.board.emplace k none) := by
  unfold Registration.Enters Blackboard.registerProvide
  by_cases hk : k ∈ b.board
  · have hm : b.board.emplace k none = b.board := if_pos hk
    rw [if_pos hk, hm]
    repeat' split
    all_goals rfl
  · rw [if_neg hk]; rfl

theorem registerGlobalProvide_enters (b : Blackboard Val) (T : Ty) (k : String) (v : Val T)
    (e : Option RegistrationError) :
    (b.registerGlobalProvide T k v e).Enters b.board (b.board.insert k (some ⟨T, v⟩)) := by
  unfold Registration.Enters Blackboard.registerGlobalProvide
  by_cases hk : k ∈ b.board
  · rw [if_pos hk]
    match b.typeCheck.lookup k with
    | none | some (.provided, _) | some (.globalProvided, _) => rfl
    | some (.requested, U) =>
      by_cases hT : T = U
      · simp only [hT, ne_eq, not_true, if_false]; rfl
      · simp only [ne_eq, hT, not_false_eq_true, if_true]; rfl
  · rw [if_neg hk]; rfl

omit [DecidableEq Ty] in
theorem Registration.Enters.map {F G : Type} {r : Registration Val F} {m m' : UnorderedMap String (Any Val)}
    (h : r.Enters m m') (g : F → G) : (r.map g).Enters m m' := by
  unfold Registration.Enters at *
  simp only [Registration.map, h]
  rcases r.result with x | (_ | f) <;> rfl

/-- **A registration changes `board_` only when it is accepted**, and then as its call says. -/
theorem register_enters (b : Blackboard Val) (e : Option RegistrationError) (c : Call Val) :
    (b.register e c).Enters b.board (c.enter b.board) := by
  cases c with
  | require T k => exact (Registration.enters_same (board_registerRequire b T k e)).map _
  | provide T k => exact (registerProvide_enters b T k e).map _
  | globalRequire T k => exact (Registration.enters_same (board_registerGlobalRequire b T k e)).map _
  | globalProvide T k v => exact (registerGlobalProvide_enters b T k v e).map _

theorem board_after (b : Blackboard Val) (c : Call Val) :
    (b.after c).board = if b.accepts c then c.enter b.board else b.board := by
  have h := register_enters b none c
  unfold Registration.Enters at h
  rw [Blackboard.after, h, Blackboard.accepts]
  rcases (b.register none c).result with x | (_ | f) <;> rfl

/-- **After the registrations** a key holds the initial value of its last global provision, or the empty value its local
provisions made. -/
theorem lookup_registerAll (name k : String) (cs : List (Call Val)) :
    ((Blackboard.new name).registerAll cs).board.lookup k =
      if provisionsOn k (accepted (Blackboard.new name) cs) = [] then none
      else some (lastStored k (accepted (Blackboard.new name) cs) []) := by
  induction cs using List.reverseRecOn with
  | nil => rfl
  | append_singleton cs c ih =>
    rw [registerAll_snoc, accepted_snoc, board_after]
    cases ha : ((Blackboard.new name).registerAll cs).accepts c with
    | false => simpa using ih
    | true =>
      simp only [if_true]
      rw [lookup_enter, ih, lastStored_snoc_call, provisionsOn_append, provisionsOn_singleton]
      split
      · simp only [List.append_eq_nil_iff, List.cons_ne_nil, and_false, if_false]
        split
        · rename_i hn
          rw [lastStored_eq_none hn]; rfl
        · rfl
      · rename_i hc
        have hs : c.storedOn k = none := by
          cases c with
          | globalProvide T k' v => exact if_neg (fun e => hc ⟨e, rfl⟩)
          | _ => rfl
        rw [hs, List.append_nil, Option.none_or]

theorem lookup_performAll (name k : String) (cs : List (Call Val)) (as : List (AccessorCall Val))
    (hp : provisionsOn k (accepted (Blackboard.new name) cs) ≠ []) :
    (((Blackboard.new name).registerAll cs).performAll as).board.lookup k =
      some (lastStored k (accepted (Blackboard.new name) cs) as) := by
  induction as using List.reverseRecOn with
  | nil => exact (lookup_registerAll name k cs).trans (if_neg hp)
  | append_singleton as a ih =>
    have hs : ((Blackboard.new name).registerAll cs).performAll (as ++ [a]) =
        (((Blackboard.new name).registerAll cs).performAll as).perform a := Runs.run_snoc _ _ _ _
    rw [hs, lookup_perform, ih, lastStored_snoc]
    cases a.storedOn k <;> rfl

theorem RequireFunction.call_eq_ok {T : Ty} {k : String} {b : Blackboard Val} {v : Val T} :
    (makeRequireFunction T k).call b = .ok v ↔ b.board.lookup k = some (some ⟨T, v⟩) := by
  unfold RequireFunction.call makeRequireFunction
  cases b.board.lookup k with
  | none => simp
  | some a => simp [anyCast_eq_ok]

/-! ## Between threads -/

omit [DecidableEq Ty] in
theorem Call.of_accessor {c : Call Val} {a : AccessorCall Val} (h : a.accessor = c.accessor) :
    c.key = a.key ∧ match a with
      | .require T _ => c.isProvision = false ∧ c.type = T
      | .provide T _ _ => c.isProvision = true ∧ c.type = T := by
  cases a <;> cases c <;> cases h <;> exact ⟨rfl, rfl, rfl⟩

/-- The requests that are served whatever the schedule: the global ones, and the local ones on a key provided
globally. -/
def ServedGlobally (A : List (Call Val)) (T : Ty) (k : String) : Prop :=
  .globalRequire T k ∈ A ∨ (.require T k ∈ A ∧ ∃ p ∈ provisionsOn k A, p.isGlobal = true)

/-- **Every such request returns the value last stored on its key**, in every interleaving of the calls any number of
threads make of the accessors handed out. -/
def DeliversGlobals (name : String) (cs : List (Call Val)) : Prop :=
  ∀ schedule : List (Nat × AccessorCall Val),
    (∀ x ∈ schedule, x.2.accessor ∈ (accepted (Blackboard.new name) cs).map Call.accessor) →
      Runs.AtEvery (fun pre x => ∀ T k, x.2 = .require T k → ServedGlobally (accepted (Blackboard.new name) cs) T k →
        ∃ v, (makeRequireFunction T k).call
            (((Blackboard.new name).registerAll cs).performAll (pre.map Prod.snd)) = .ok v ∧
          lastStored k (accepted (Blackboard.new name) cs) (pre.map Prod.snd) = some ⟨T, v⟩) schedule

/-- **The first provision of a key agrees**: it names the type of every request before it. -/
def FirstProvisionAgrees (pre : List (Call Val)) (p : Call Val) : Prop :=
  p.isProvision = true → provisionsOn p.key pre = [] → ∀ r ∈ requestsOn p.key pre, r.type = p.type

/-- The type a globally provided key is held to. -/
def KeyPast.heldTo : KeyPast Ty → Option Ty
  | globally T | late T _ _ | settled T _ => some T
  | _ => none

theorem KeyPast.heldTo_next {x : KeyPast Ty} (h : x.onBoard = true) (c : Call Val) :
    (x.next c).heldTo = x.heldTo := by
  cases x with
  | late U W g => rcases next_late U W g c with e | e <;> rw [e]; rfl
  | _ => cases c <;> first | rfl | cases h

theorem KeyPast.locally_of_next {x : KeyPast Ty} {c : Call Val} {T : Ty} (hx : x.onBoard = true)
    (h : x.next c = .locally T) : ∃ U, x = .locally U := by
  cases x with
  | locally U => exact ⟨U, rfl⟩
  | late U W g => rcases next_late U W g c with e | e <;> rw [e] at h <;> cases h
  | fresh | requested U => cases hx
  | globally U | settled U g => cases c <;> cases h

theorem KeyPast.type_of_accepts {x : KeyPast Ty} {T : Ty} {c : Call Val} (h : x.heldTo = some T)
    (ha : x.accepts c = true) : c.type = T := by
  cases x <;> cases c <;> simp_all [heldTo, accepts, Call.type]

/-- A key is in `board_` once a provision was called on it. -/
theorem onBoard_keyPast (k : String) (cs : List (Call Val)) :
    (keyPast k cs).onBoard = true ↔ provisionsOn k cs ≠ [] := by
  rcases firstOn_cases k cs with hf | ⟨p, hf, hp⟩ | ⟨r, hf, hr⟩
  · simp [keyPast_eq_fresh hf, KeyPast.onBoard, provisionsOn_eq_nil_of_firstOn hf]
  · have hpast := keyPast_of_provision hf hp
    refine iff_of_true ?_ (provisionsOn_ne_nil hf hp)
    split at hpast
    · rw [hpast]; rfl
    · obtain ⟨U, hU⟩ := hpast
      rw [hU]; rfl
  · rw [keyPast_of_request hf hr]
    cases provisionsOn k cs with
    | nil => simp [requestedPast, KeyPast.onBoard]
    | cons p rest => simp only [requestedPast]; split <;> simp [KeyPast.onBoard]

theorem keyPast_of_unprovided {k : String} {cs : List (Call Val)} (h : provisionsOn k cs = []) :
    (requestsOn k cs = [] ∧ keyPast k cs = .fresh) ∨ ∃ r ∈ requestsOn k cs, keyPast k cs = .requested r.type := by
  rcases firstOn_cases k cs with hf | ⟨p, hf, hp⟩ | ⟨r, hf, hr⟩
  · refine Or.inl ⟨List.eq_nil_iff_forall_not_mem.2 (fun r hr => ?_), keyPast_eq_fresh hf⟩
    exact firstOn_eq_none.1 hf r (mem_requestsOn.1 hr).1 (mem_requestsOn.1 hr).2.1
  · exact absurd h (provisionsOn_ne_nil hf hp)
  · exact Or.inr ⟨r, mem_requestsOn_of_firstOn hf hr, (provisionsOn_of_requested hf hr).1 h⟩

/-- The accepted calls on a key have the type it is held to, and are local on a key provided locally. -/
structure TypesAgree (k : String) (A : List (Call Val)) (x : KeyPast Ty) : Prop where
  heldTo : ∀ T, x.heldTo = some T → ∀ c ∈ A, c.key = k → c.type = T
  locally : ∀ T, x = .locally T → ∀ c ∈ A, c.key = k → c.isGlobal = false

omit [DecidableEq Ty] in
theorem TypesAgree.snoc {k : String} {A : List (Call Val)} {y : KeyPast Ty} {c : Call Val} {a : Bool}
    (hT : ∀ T, y.heldTo = some T → (∀ d ∈ A, d.key = k → d.type = T) ∧ (c.key = k → a = true → c.type = T))
    (hl : ∀ T, y = .locally T → (∀ d ∈ A, d.key = k → d.isGlobal = false) ∧ (c.key = k → a = true → c.isGlobal = false)) :
    TypesAgree k (A ++ if a then [c] else []) y := by
  have hmem : ∀ d ∈ A ++ (if a then [c] else []), d ∈ A ∨ (a = true ∧ d = c) := by
    intro d hd
    rcases List.mem_append.1 hd with hd | hd
    · exact Or.inl hd
    · cases a with
      | false => cases hd
      | true => exact Or.inr ⟨rfl, List.mem_singleton.1 hd⟩
  refine ⟨fun T hy d hd hk => ?_, fun T hy d hd hk => ?_⟩
  · rcases hmem d hd with hd | ⟨ha, rfl⟩
    · exact (hT T hy).1 d hd hk
    · exact (hT T hy).2 hk ha
  · rcases hmem d hd with hd | ⟨ha, rfl⟩
    · exact (hl T hy).1 d hd hk
    · exact (hl T hy).2 hk ha

omit [DecidableEq Ty] in
/-- On a key without an entry in `board_` the accepted calls are the requests that were made. -/
theorem AcceptedAs.of_unprovided {k : String} {cs A : List (Call Val)} {x : KeyPast Ty} (h : AcceptedAs k cs A x)
    (hx : x.onBoard = false) : ∀ d ∈ A, d.key = k → d ∈ requestsOn k cs := by
  have hA : requestsOn k A = requestsOn k cs ∧ provisionsOn k A = [] := by
    cases x with
    | fresh => exact ⟨h.2.1.trans h.1.symm, h.2.2⟩
    | requested T => exact h.2
    | _ => cases hx
  intro d hd hk
  cases hp : d.isProvision with
  | false => exact hA.1 ▸ mem_requestsOn.2 ⟨hd, hk, hp⟩
  | true => exact absurd hA.2 (List.ne_nil_of_mem (mem_provisionsOn.2 ⟨hd, hk, hp⟩))

theorem TypesAgree.onBoard {k : String} {A : List (Call Val)} {x : KeyPast Ty} (h : TypesAgree k A x)
    (hx : x.onBoard = true) (c : Call Val) : TypesAgree k (A ++ if x.accepts c then [c] else []) (x.next c) := by
  refine .snoc (fun T hT => ?_) (fun T hT => ?_)
  · rw [KeyPast.heldTo_next hx] at hT
    exact ⟨h.heldTo T hT, fun _ => KeyPast.type_of_accepts hT⟩
  · obtain ⟨U, rfl⟩ := KeyPast.locally_of_next hx hT
    refine ⟨h.locally U rfl, fun _ ha => ?_⟩
    cases c <;> first | rfl | cases ha

/-- The first provision of a key, in order. -/
theorem TypesAgree.unprovided {k : String} {cs A : List (Call Val)} {c : Call Val} {a : Bool}
    (hn : provisionsOn k cs = []) (hA : ∀ d ∈ A, d.key = k → d ∈ requestsOn k cs)
    (hc : c.isProvision = true → ∀ r ∈ requestsOn k cs, r.type = c.type) :
    TypesAgree k (A ++ if a then [c] else []) ((keyPast k cs).next c) := by
  refine .snoc (fun T hT => ?_) (fun T hT => ?_)
  · have hcT : c.isProvision = true ∧ c.type = T := by
      rcases keyPast_of_unprovided hn with ⟨-, e⟩ | ⟨r, hr, e⟩ <;> rw [e] at hT
      · cases c <;> first | exact ⟨rfl, Option.some.inj hT⟩ | cases hT
      · cases c with
        | require U k' | globalRequire U k' => cases hT
        | provide U k' | globalProvide U k' v => exact ⟨rfl, (hc rfl r hr).symm.trans (Option.some.inj hT)⟩
    exact ⟨fun d hd hk => (hc hcT.1 d (hA d hd hk)).trans hcT.2, fun _ _ => hcT.2⟩
  · rcases keyPast_of_unprovided hn with ⟨hr, e⟩ | ⟨r, hr, e⟩ <;> rw [e] at hT
    · refine ⟨fun d hd hk => ?_, fun _ _ => by cases c <;> first | rfl | cases hT⟩
      have := hA d hd hk
      rw [hr] at this; cases this
    · cases c <;> cases hT

/-- **In order, the accepted calls on a key agree.** -/
theorem typesAgree (name k : String) (cs : List (Call Val)) (h : Runs.AtEvery FirstProvisionAgrees cs) :
    TypesAgree k (accepted (Blackboard.new name) cs) (keyPast k cs) := by
  induction cs using List.reverseRecOn with
  | nil => exact ⟨by simp [KeyPast.heldTo], by simp⟩
  | append_singleton cs c ih =>
    obtain ⟨ho, hc⟩ := Runs.atEvery_snoc.1 h
    have ih := ih ho
    rw [accepted_snoc, accepts_registerAll, keyPast_snoc]
    by_cases hk : c.key = k
    · subst hk
      rw [if_pos rfl]
      by_cases hx : (keyPast c.key cs).onBoard = true
      · exact ih.onBoard hx c
      · have hn : provisionsOn c.key cs = [] := by simpa [onBoard_keyPast] using hx
        exact .unprovided hn ((acceptedAs name c.key cs).of_unprovided (by simpa using hx)) (fun hp => hc hp hn)
    · rw [if_neg hk]
      exact .snoc (fun T hT => ⟨ih.heldTo T hT, fun e => absurd e hk⟩) (fun T hT => ⟨ih.locally T hT, fun e => absurd e hk⟩)

omit [DecidableEq Ty] in
theorem AccessorCall.of_storedOn {k : String} {a : AccessorCall Val} {x : Sigma Val} (h : a.storedOn k = some x) :
    a = .provide x.1 k x.2 := by
  cases a with
  | require T k' => cases h
  | provide T k' v =>
    simp only [AccessorCall.storedOn, Option.ite_none_right_eq_some, Option.some.injEq] at h
    obtain ⟨rfl, rfl⟩ := h
    rfl

omit [DecidableEq Ty] in
/-- A key with a global provision, all of whose calls have type `T`, holds a value of `T` at all times. -/
theorem lastStored_of_type {k : String} {A : List (Call Val)} {T : Ty} (hA : ∀ c ∈ A, c.key = k → c.type = T)
    (hg : ∃ p ∈ provisionsOn k A, p.isGlobal = true) : ∀ as : List (AccessorCall Val),
      (∀ a ∈ as, a.accessor ∈ A.map Call.accessor) → ∃ v, lastStored k A as = some ⟨T, v⟩ := by
  intro as
  induction as using List.reverseRecOn with
  | nil =>
    intro _
    obtain ⟨p, hp, hpg⟩ := hg
    obtain ⟨hp, hk, hpp⟩ := mem_provisionsOn.1 hp
    have hmem : ∃ x, (A.filterMap (Call.storedOn k)).getLast? = some x := by
      cases p with
      | globalProvide U k' v =>
        have hmem : (⟨U, v⟩ : Sigma Val) ∈ A.filterMap (Call.storedOn k) := List.mem_filterMap.2 ⟨_, hp, if_pos hk⟩
        exact Option.isSome_iff_exists.1 (List.getLast?_isSome.2 (List.ne_nil_of_mem hmem))
      | provide U k' => cases hpg
      | require U k' | globalRequire U k' => cases hpp
    obtain ⟨x, hx⟩ := hmem
    obtain ⟨c, hc, hcx⟩ := List.mem_filterMap.1 (List.mem_of_getLast? hx)
    obtain ⟨hck, -, hxT⟩ := Call.of_storedOn hcx
    obtain rfl : x.1 = T := hxT.trans (hA c hc hck)
    exact ⟨x.2, by simp [lastStored, hx]⟩
  | append_singleton as a ih =>
    intro hs
    rw [lastStored_snoc]
    cases hx : a.storedOn k with
    | none => exact ih (fun b hb => hs b (List.mem_append_left _ hb))
    | some x =>
      obtain ⟨c, hc, he⟩ := List.mem_map.1 (hs a (by simp))
      rw [AccessorCall.of_storedOn hx] at he
      obtain ⟨hck, -, hxT⟩ := Call.of_accessor he.symm
      obtain rfl : x.1 = T := hxT.symm.trans (hA c hc hck)
      exact ⟨x.2, rfl⟩

omit [DecidableEq Ty] in
theorem ServedGlobally.exists_global {A : List (Call Val)} {T : Ty} {k : String} (h : ServedGlobally A T k) :
    (∃ c ∈ A, c.key = k ∧ c.type = T) ∧ ∃ c ∈ A, c.key = k ∧ c.isGlobal = true := by
  rcases h with h | ⟨h, p, hp, hg⟩
  · exact ⟨⟨_, h, rfl, rfl⟩, ⟨_, h, rfl, rfl⟩⟩
  · obtain ⟨hp, hk, -⟩ := mem_provisionsOn.1 hp
    exact ⟨⟨_, h, rfl, rfl⟩, ⟨p, hp, hk, hg⟩⟩

/-- A key with an accepted global call that validation passes is provided globally for good. -/
theorem heldTo_of_validated (name : String) {k : String} {cs : List (Call Val)}
    (hv : ((Blackboard.new name).registerAll cs).validateGlobals = true)
    (ht : TypesAgree k (accepted (Blackboard.new name) cs) (keyPast k cs))
    (hg : ∃ c ∈ accepted (Blackboard.new name) cs, c.key = k ∧ c.isGlobal = true) :
    (∃ T, (keyPast k cs).heldTo = some T) ∧
      ∃ p ∈ provisionsOn k (accepted (Blackboard.new name) cs), p.isGlobal = true := by
  have hA := acceptedAs name k cs
  have hc := (validateGlobals_registerAll name cs).1 hv k
  obtain ⟨c, hmem, hk, hcg⟩ := hg
  cases hx : keyPast k cs with
  | fresh =>
    rw [hx] at hA
    have := hA.of_unprovided rfl c hmem hk
    rw [hA.1] at this; cases this
  | requested T | late T U g => rw [hx] at hc; exact absurd rfl (hc T)
  | locally T =>
    have := ht.locally T hx c hmem hk
    rw [hcg] at this; cases this
  | globally T =>
    rw [hx] at hA
    obtain ⟨p, hp, hpg, -⟩ := hA
    exact ⟨⟨T, rfl⟩, p, by simp [hp], hpg⟩
  | settled T g =>
    rw [hx] at hA
    obtain ⟨p, q, hp, -, hqg, -⟩ := hA
    exact ⟨⟨T, rfl⟩, q, by simp [hp], hqg⟩

/-- **In order, every served request is delivered.** -/
theorem deliversGlobals (name : String) (cs : List (Call Val))
    (hv : ((Blackboard.new name).registerAll cs).validateGlobals = true)
    (h : Runs.AtEvery FirstProvisionAgrees cs) : DeliversGlobals name cs := by
  rintro schedule hs pre x post hpre T k hx hserved
  obtain ⟨⟨c, hc, hck, hcT⟩, hg⟩ := hserved.exists_global
  have ht := typesAgree name k cs h
  obtain ⟨⟨U, hU⟩, hp⟩ := heldTo_of_validated name hv ht hg
  obtain rfl : U = T := (ht.heldTo U hU c hc hck).symm.trans hcT
  obtain ⟨v, hv⟩ := lastStored_of_type (ht.heldTo U hU) hp (pre.map Prod.snd) (fun a ha => by
    obtain ⟨y, hy, rfl⟩ := List.mem_map.1 ha
    exact hs y (by rw [hpre]; exact List.mem_append_left _ hy))
  have hne : provisionsOn k (accepted (Blackboard.new name) cs) ≠ [] := by
    obtain ⟨p, hp, -⟩ := hp
    exact List.ne_nil_of_mem hp
  exact ⟨v, RequireFunction.call_eq_ok.2 (by rw [lookup_performAll name k cs _ hne, hv]), hv⟩

/-- A call made while its key has no provision is accepted. -/
theorem mem_accepted_of_unprovided (name : String) {pre post : List (Call Val)} {c : Call Val}
    (hn : provisionsOn c.key pre = []) : c ∈ accepted (Blackboard.new name) (pre ++ c :: post) := by
  have ha : ((Blackboard.new name).registerAll pre).accepts c = true := by
    rw [accepts_registerAll]
    rcases keyPast_of_unprovided hn with ⟨-, e⟩ | ⟨r, -, e⟩ <;> rw [e] <;> rfl
  rw [accepted_append, accepted, if_pos ha]
  exact List.mem_append_right _ List.mem_cons_self

omit [DecidableEq Ty] in
theorem Call.accessor_of_provision {c : Call Val} (h : c.isProvision = true) :
    c.accessor = .provide c.type (makeProvideFunction c.type c.key) := by
  cases c <;> first | rfl | cases h

omit [DecidableEq Ty] in
theorem Call.accessor_of_request {c : Call Val} (h : c.isProvision = false) :
    c.accessor = .require c.type (makeRequireFunction c.type c.key) := by
  cases c <;> first | rfl | cases h

omit [DecidableEq Ty] in
theorem firstOn_append_of_request {k : String} {cs ds : List (Call Val)} (hn : provisionsOn k cs = [])
    (hr : requestsOn k cs ≠ []) : ∃ r, firstOn k (cs ++ ds) = some r ∧ r.isProvision = false := by
  rcases firstOn_cases k cs with hf | ⟨p, hf, hp⟩ | ⟨r, hf, hrp⟩
  · obtain ⟨r, hr⟩ := List.exists_mem_of_ne_nil _ hr
    obtain ⟨hmem, hk, -⟩ := mem_requestsOn.1 hr
    exact absurd hk (firstOn_eq_none.1 hf r hmem)
  · exact absurd hn (provisionsOn_ne_nil hf hp)
  · exact ⟨r, by rw [firstOn, List.find?_append, ← firstOn, hf]; rfl, hrp⟩

/-- **What flows between threads**: on a validated Blackboard every served request returns the value last stored on its
key, in every schedule, exactly when each key's first provision agrees with the requests before it. -/
theorem global_flow_exact_iff [∀ T, Inhabited (Val T)] (name : String) (cs : List (Call Val))
    (hv : ((Blackboard.new name).registerAll cs).validateGlobals = true) :
    DeliversGlobals name cs ↔ Runs.AtEvery FirstProvisionAgrees cs := by
  refine ⟨fun h => ?_, deliversGlobals name cs hv⟩
  rintro pre p post rfl hp hn r hr
  have hfirst : ∃ r₀, firstOn p.key (pre ++ p :: post) = some r₀ ∧ r₀.isProvision = false :=
    firstOn_append_of_request hn (List.ne_nil_of_mem hr)
  obtain ⟨r₀, hf, hr₀⟩ := hfirst
  obtain ⟨hmem, hk, hrp⟩ := mem_requestsOn.1 hr
  have hg := (globalProvider_iff name hf hr₀).2 (Or.inr ((validated_iff_confirmed name _).1 hv p.key r₀ hf hr₀))
  have hpA : p ∈ accepted (Blackboard.new name) (pre ++ p :: post) := mem_accepted_of_unprovided name hn
  have hrA : r ∈ accepted (Blackboard.new name) (pre ++ p :: post) := by
    obtain ⟨pre₁, pre₂, rfl⟩ := List.append_of_mem hmem
    rw [provisionsOn_append, List.append_eq_nil_iff, ← hk] at hn
    rw [List.append_assoc]
    exact mem_accepted_of_unprovided name hn.1
  have hserved : ServedGlobally (accepted (Blackboard.new name) (pre ++ p :: post)) r.type p.key := by
    rw [← hk] at hg ⊢
    cases r with
    | require T k => exact Or.inr ⟨hrA, hg⟩
    | globalRequire T k => exact Or.inl hrA
    | provide T k | globalProvide T k v => cases hrp
  -- the first provider writes, and the request reads
  obtain ⟨v, -, hl⟩ := h [(0, .provide p.type p.key default), (1, .require r.type p.key)]
    (by
      intro x hx
      rcases List.mem_cons.1 hx with rfl | hx
      · exact List.mem_map.2 ⟨p, hpA, Call.accessor_of_provision hp⟩
      · rw [List.mem_singleton.1 hx, ← hk]
        exact List.mem_map.2 ⟨r, hrA, Call.accessor_of_request hrp⟩)
    [(0, .provide p.type p.key default)] _ [] rfl r.type p.key rfl hserved
  simp only [lastStored, List.map_cons, List.map_nil, List.filterMap_cons, AccessorCall.storedOn, if_true,
    List.filterMap_nil, List.getLast?_singleton, Option.some_or, Option.some.injEq] at hl
  exact (congrArg Sigma.fst hl).symm

/-- A key provided globally before it is requested delivers. -/
theorem global_flow_provided :
    DeliversGlobals "wave" ([.globalProvide .int "test" (0 : Int), .globalRequire .int "test"] : List (Call Plain.Value)) :=
  (global_flow_exact_iff "wave" _ rfl).2 (by
    simp only [Runs.atEvery_cons, Runs.atEvery_nil, and_true]
    refine ⟨fun _ _ r hr => ?_, fun h => ?_⟩
    · cases hr
    · cases h)

/-- A key is requested, provided locally with another type and then provided globally: the local provider's value is
not of the requested type. -/
theorem global_flow_not_delivered :
    ((Blackboard.new "wave").registerAll ([.globalRequire .int "test", .provide .bool "test",
      .globalProvide .int "test" (0 : Int)] : List (Call Plain.Value))).validateGlobals = true ∧
    ¬ DeliversGlobals "wave" ([.globalRequire .int "test", .provide .bool "test",
      .globalProvide .int "test" (0 : Int)] : List (Call Plain.Value)) := by
  refine ⟨rfl, fun h => ?_⟩
  obtain ⟨v, hv, -⟩ := h [(0, .provide .bool "test" true), (1, .require .int "test")] (by decide)
    [(0, .provide .bool "test" true)] _ [] rfl .int "test" rfl (Or.inl (by
      show Call.globalRequire Plain.int "test" ∈ [_, _, _]
      exact List.mem_cons_self))
  cases hv

end Comm
end NaoFramework
