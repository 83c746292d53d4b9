import NaoFramework.BoardFlow
/-!
# BoardPasses — local data flow, pass by pass

Within a thread the accessors of a key are called in registration order, over and over.  On a key that is never provided
globally every accepted request followed a provider of its own type (`currentType`); so in every pass it reads what that
provider stored in the same pass (`local_flow`), however often the key was provided again with another type.
-/
namespace NaoFramework
namespace Comm

variable {Ty : Type} {Val : Ty → Type}

/-- The calls on a key. -/
def callsOn (k : String) (cs : List (Call Val)) : List (Call Val) := cs.filter (fun c => decide (c.key = k))

/-- The accessor calls on a key. -/
def performedOn (k : String) (as : List (AccessorCall Val)) : List (AccessorCall Val) :=
  as.filter (fun a => decide (a.key = k))

/-- The accessors of the calls `cs`, called in the order of the calls. -/
def InOrder (as : List (AccessorCall Val)) (cs : List (Call Val)) : Prop :=
  as.map AccessorCall.accessor = cs.map Call.accessor

/-- Any number of passes over the calls, the last one perhaps not complete. -/
inductive Passes (cs : List (Call Val)) : List (AccessorCall Val) → Prop where
  | part (as rest : List (AccessorCall Val)) (h : InOrder (as ++ rest) cs) : Passes cs as
  | pass (as bs : List (AccessorCall Val)) (h : InOrder as cs) (hbs : Passes cs bs) : Passes cs (as ++ bs)

/-- Any number of complete passes over the calls. -/
inductive CompletePasses (cs : List (Call Val)) : List (AccessorCall Val) → Prop where
  | nil : CompletePasses cs []
  | pass (as bs : List (AccessorCall Val)) (h : InOrder as cs) (hbs : CompletePasses cs bs) : CompletePasses cs (as ++ bs)

/-- The calls split at the last provision among them. -/
structure LastProvision (cs before : List (Call Val)) (p : Call Val) (after : List (Call Val)) : Prop where
  split : cs = before ++ p :: after
  provision : p.isProvision = true
  last : ∀ c ∈ after, c.isProvision = false

/-! ## Requests follow their providers -/

theorem provisionsOn_callsOn (k : String) (cs : List (Call Val)) :
    (callsOn k cs).filter Call.isProvision = provisionsOn k cs := by
  unfold callsOn provisionsOn
  rw [List.filter_filter]
  exact List.filter_congr (fun c _ => Bool.and_comm _ _)

theorem LastProvision.exists_of {k : String} {cs ps : List (Call Val)} {p : Call Val}
    (h : provisionsOn k cs = ps ++ [p]) : ∃ before after, LastProvision (callsOn k cs) before p after := by
  rw [← provisionsOn_callsOn, List.filter_eq_append_iff] at h
  obtain ⟨l₁, l₂, hl, -, h⟩ := h
  obtain ⟨l₃, after, rfl, -, hp, hlast⟩ := List.filter_eq_cons_iff.1 h
  refine ⟨l₁ ++ l₃, after, by rw [hl, List.append_assoc], hp, fun c hc => ?_⟩
  simpa using List.filter_eq_nil_iff.1 hlast c hc

theorem callsOn_eq_nil {k : String} {cs : List (Call Val)} (h : firstOn k cs = none) : callsOn k cs = [] :=
  List.filter_eq_nil_iff.2 (fun c hc => by simpa using firstOn_eq_none.1 h c hc)

variable [DecidableEq Ty]

/-- What is accepted on a key is appended to the calls on it. -/
theorem callsOn_accepted_snoc (name k : String) (cs : List (Call Val)) (c : Call Val) :
    callsOn k (accepted (Blackboard.new name) (cs ++ [c])) =
      callsOn k (accepted (Blackboard.new name) cs) ++
        if c.key = k ∧ (keyPast k cs).accepts c = true then [c] else [] := by
  rw [accepted_snoc, accepts_registerAll, callsOn, List.filter_append]
  by_cases hk : c.key = k
  · subst hk
    cases (keyPast c.key cs).accepts c <;> simp [callsOn]
  · cases (keyPast c.key cs).accepts c <;> simp [callsOn, hk]

theorem KeyPast.type_of_locally {T : Ty} {c : Call Val} (hc : c.isProvision = false)
    (ha : (locally T).accepts c = true) : c.type = T := by
  cases c with
  | require U k => exact of_decide_eq_true ha
  | globalRequire U k => cases ha
  | provide U k | globalProvide U k v => cases hc

/-- **On a key provided locally first, every accepted request has the type of the last provider before it.** -/
theorem currentType (name k : String) {cs : List (Call Val)} {f : Call Val} (hf : firstOn k cs = some f)
    (hp : f.isProvision = true) (hl : f.isGlobal = false) :
    Runs.AtEvery (fun pre c => c.isProvision = false →
      ∃ before p after, LastProvision pre before p after ∧ p.type = c.type)
      (callsOn k (accepted (Blackboard.new name) cs)) := by
  induction cs using List.reverseRecOn with
  | nil => cases hf
  | append_singleton cs c ih =>
    rw [firstOn_snoc] at hf
    rw [callsOn_accepted_snoc]
    cases hfo : firstOn k cs with
    | none =>
      rw [callsOn_eq_nil ((firstOn_accepted name k cs).trans hfo), List.nil_append]
      split
      · rename_i hc
        rw [hfo, if_pos hc.1] at hf
        obtain rfl : c = f := Option.some.inj hf
        exact Runs.atEvery_cons.2 ⟨fun h => absurd (hp.symm.trans h) (by simp), Runs.atEvery_nil _⟩
      · exact Runs.atEvery_nil _
    | some f' =>
      rw [hfo] at hf
      obtain rfl : f' = f := Option.some.inj hf
      have ih := ih hfo
      split
      · rename_i hc
        refine Runs.atEvery_snoc.2 ⟨ih, fun hreq => ?_⟩
        have hpast := keyPast_of_provision hfo hp
        rw [if_neg (by simp [hl])] at hpast
        obtain ⟨T, hT⟩ := hpast
        have hA := acceptedAs name k cs
        rw [hT] at hA
        obtain ⟨-, ps, p, hps, hpT⟩ := hA
        obtain ⟨before, after, h⟩ := LastProvision.exists_of hps
        rw [hT] at hc
        exact ⟨before, p, after, h, hpT.trans (KeyPast.type_of_locally hreq hc.2).symm⟩
      · rw [List.append_nil]; exact ih

/-! ## Passes -/

omit [DecidableEq Ty] in
/-- The value on a key is decided by the calls on it. -/
theorem lastStored_performedOn (k : String) (A : List (Call Val)) (as : List (AccessorCall Val)) :
    lastStored k A as = lastStored k A (performedOn k as) := by
  have hf : ∀ a : AccessorCall Val, (if a.key = k then a.storedOn k else none) = a.storedOn k := by
    intro a
    cases a with
    | require T k' => exact ite_self _
    | provide T k' v => by_cases h : k' = k <;> simp [AccessorCall.key, AccessorCall.storedOn, h]
  simp only [lastStored, performedOn, List.filterMap_filter, decide_eq_true_eq, hf]

omit [DecidableEq Ty] in
/-- After a provider's call requests store nothing. -/
theorem lastStored_of_provide (k : String) (A : List (Call Val)) (as bs : List (AccessorCall Val)) (T : Ty) (v : Val T)
    (hbs : ∀ b ∈ bs, b.storedOn k = none) : lastStored k A (as ++ .provide T k v :: bs) = some ⟨T, v⟩ := by
  have hn : bs.filterMap (AccessorCall.storedOn k) = [] := List.filterMap_eq_nil_iff.2 hbs
  have hs : (AccessorCall.provide T k v).storedOn k = some ⟨T, v⟩ := if_pos rfl
  simp [lastStored, List.filterMap_append, hs, hn]

omit [DecidableEq Ty] in
/-- The accessor of a provision is called with a value of its type. -/
theorem AccessorCall.of_provision {a : AccessorCall Val} {c : Call Val} (h : a.accessor = c.accessor)
    (hc : c.isProvision = true) : ∃ v, a = .provide c.type c.key v := by
  obtain ⟨hk, hm⟩ := Call.of_accessor h
  cases a with
  | require T k => rw [hc] at hm; cases hm.1
  | provide T k v =>
    obtain ⟨-, rfl⟩ := hm
    exact ⟨v, by rw [hk]; rfl⟩

omit [DecidableEq Ty] in
theorem AccessorCall.storedOn_of_request {a : AccessorCall Val} {c : Call Val} (h : a.accessor = c.accessor)
    (hc : c.isProvision = false) (k : String) : a.storedOn k = none := by
  obtain ⟨-, hm⟩ := Call.of_accessor h
  cases a with
  | require T k' => rfl
  | provide T k' v => rw [hc] at hm; cases hm.1

omit [DecidableEq Ty] in
/-- **A pass, split as its calls are.** -/
theorem InOrder.split {as : List (AccessorCall Val)} {cs before after : List (Call Val)} {p : Call Val}
    (h : InOrder as cs) (hp : LastProvision cs before p after) :
    ∃ q v q', as = q ++ .provide p.type p.key v :: q' ∧ InOrder q before ∧ InOrder q' after ∧
      ∀ k, ∀ a ∈ q', a.storedOn k = none := by
  unfold InOrder at h
  rw [hp.split, List.map_append, List.map_cons, List.map_eq_append_iff] at h
  obtain ⟨q, q₁, rfl, hq, h⟩ := h
  obtain ⟨a, q', rfl, ha, hq'⟩ := List.map_eq_cons_iff.1 h
  obtain ⟨v, rfl⟩ := AccessorCall.of_provision ha hp.provision
  refine ⟨q, v, q', rfl, hq, hq', fun k b hb => ?_⟩
  obtain ⟨c, hc, he⟩ := List.mem_map.1 (hq' ▸ List.mem_map_of_mem hb)
  exact AccessorCall.storedOn_of_request he.symm (hp.last c hc) k

/-- A validated key without a global provider was provided locally before anything else. -/
theorem firstOn_of_local (name : String) {k : String} {cs : List (Call Val)}
    (hv : ((Blackboard.new name).registerAll cs).validateGlobals = true)
    (hl : ∀ p ∈ provisionsOn k (accepted (Blackboard.new name) cs), p.isGlobal = false) {c : Call Val}
    (hc : c ∈ callsOn k (accepted (Blackboard.new name) cs)) :
    ∃ f, firstOn k cs = some f ∧ f.isProvision = true ∧ f.isGlobal = false := by
  rcases firstOn_cases k cs with hf | ⟨f, hf, hp⟩ | ⟨r, hf, hr⟩
  · rw [callsOn_eq_nil ((firstOn_accepted name k cs).trans hf)] at hc
    cases hc
  · obtain ⟨hmem, hk⟩ := firstOn_eq_some ((firstOn_accepted name k cs).trans hf)
    exact ⟨f, hf, hp, hl f (mem_provisionsOn.2 ⟨hmem, hk, hp⟩)⟩
  · obtain ⟨p, hp, hg⟩ := (globalProvider_iff name hf hr).2 (Or.inr ((validated_iff_confirmed name cs).1 hv k r hf hr))
    rw [hl p hp] at hg; cases hg

omit [DecidableEq Ty] in
/-- The pass a call is made in, after complete ones. -/
theorem Passes.locate {cs : List (Call Val)} {as : List (AccessorCall Val)} (h : Passes cs as) :
    ∀ {pre post : List (AccessorCall Val)} {a : AccessorCall Val}, as = pre ++ a :: post →
      ∃ earlier pass rest, pre = earlier ++ pass ∧ CompletePasses cs earlier ∧ InOrder (pass ++ a :: rest) cs := by
  induction h with
  | part as rest h =>
    rintro pre post a rfl
    exact ⟨[], pre, post ++ rest, rfl, .nil, by rw [← List.cons_append, ← List.append_assoc]; exact h⟩
  | pass as bs h _ ih =>
    intro pre post a he
    rcases List.append_eq_append_iff.1 he with ⟨c, rfl, hc⟩ | ⟨c, rfl, hc⟩
    · obtain ⟨earlier, pass, rest, rfl, he, hp⟩ := ih hc
      exact ⟨as ++ earlier, pass, rest, (List.append_assoc _ _ _).symm, .pass as earlier h he, hp⟩
    · cases c with
      | nil =>
        obtain ⟨earlier, pass, rest, hpre, -, hp⟩ := @ih [] post a hc.symm
        obtain ⟨rfl, rfl⟩ := List.append_eq_nil_iff.1 hpre.symm
        rw [List.append_nil] at h
        exact ⟨pre ++ [], [], rest, by simp, .pass pre [] h .nil, hp⟩
      | cons a' c =>
        obtain ⟨rfl, -⟩ := List.cons.inj hc
        exact ⟨[], pre, c, rfl, .nil, h⟩

/-- **A request of type `T` on `k` reads its provider**: of the calls registered on `k` before it, `p` is the last
provision, and names `T`; and the request returns the value `v` that the call of `p`'s accessor stored in the same
pass, the one after the complete passes `earlier`. -/
def ReadsItsProvider (b : Blackboard Val) (k : String) (calls : List (Call Val)) (pre : List (AccessorCall Val))
    (T : Ty) : Prop :=
  ∃ registered c rest before p after earlier q v q',
    calls = registered ++ c :: rest ∧ c.accessor = .require T (makeRequireFunction T k) ∧
      LastProvision registered before p after ∧ p.type = T ∧ CompletePasses calls earlier ∧
        performedOn k pre = earlier ++ (q ++ .provide T k v :: q') ∧ InOrder q before ∧ InOrder q' after ∧
          (makeRequireFunction T k).call (b.performAll pre) = .ok v

/-- **Local data flow.**  On a validated Blackboard, and a key without a global provider, whose accessors are called in
registration order, pass after pass (the calls of other keys may come anywhere between), every request reads its
provider. -/
theorem local_flow (name k : String) (cs : List (Call Val)) (run : List (AccessorCall Val))
    (hv : ((Blackboard.new name).registerAll cs).validateGlobals = true)
    (hl : ∀ p ∈ provisionsOn k (accepted (Blackboard.new name) cs), p.isGlobal = false)
    (hrun : Passes (callsOn k (accepted (Blackboard.new name) cs)) (performedOn k run)) :
    Runs.AtEvery (fun pre a => ∀ T, a = .require T k →
      ReadsItsProvider ((Blackboard.new name).registerAll cs) k (callsOn k (accepted (Blackboard.new name) cs)) pre T)
      run := by
  rintro pre a post rfl T rfl
  have hsplit : performedOn k (pre ++ .require T k :: post) =
      performedOn k pre ++ .require T k :: performedOn k post := by
    simp [performedOn, List.filter_append, AccessorCall.key]
  obtain ⟨earlier, pass, rest, hpre, hearlier, hpass⟩ := hrun.locate hsplit
  unfold InOrder at hpass
  rw [List.map_append, List.map_cons] at hpass
  obtain ⟨registered, cs', hcs, hreg, h⟩ := List.map_eq_append_iff.1 hpass.symm
  obtain ⟨c, cs', rfl, hc, -⟩ := List.map_eq_cons_iff.1 h
  obtain ⟨-, hcp, hcT⟩ := Call.of_accessor hc.symm
  have hcA : c ∈ callsOn k (accepted (Blackboard.new name) cs) := by rw [hcs]; simp
  obtain ⟨f, hf, hfp, hfl⟩ := firstOn_of_local name hv hl hcA
  obtain ⟨before, p, after, hlast, hpT⟩ := currentType name k hf hfp hfl registered c cs' hcs hcp
  obtain ⟨q, v, q', rfl, hq, hq', hno⟩ := InOrder.split hreg.symm hlast
  have hpk : p ∈ callsOn k (accepted (Blackboard.new name) cs) := by rw [hcs, hlast.split]; simp
  obtain ⟨hpA, hk⟩ := List.mem_filter.1 hpk
  have hk : p.key = k := of_decide_eq_true hk
  obtain rfl : p.type = T := hpT.trans hcT
  rw [hk] at hpre
  refine ⟨registered, c, cs', before, p, after, earlier, q, v, q', hcs, hc, hlast, rfl, hearlier, hpre, hq, hq', ?_⟩
  have hne : provisionsOn k (accepted (Blackboard.new name) cs) ≠ [] :=
    List.ne_nil_of_mem (mem_provisionsOn.2 ⟨hpA, hk, hlast.provision⟩)
  rw [RequireFunction.call_eq_ok, lookup_performAll name k cs pre hne, lastStored_performedOn, hpre, ← List.append_assoc,
    lastStored_of_provide k _ _ q' p.type v (hno k)]

/-- A key provided as `int` and again as `bool`, each read in between, over two passes. -/
theorem local_flow_reprovided :
    Runs.AtEvery (fun pre a => ∀ T, a = .require T "test" →
      ReadsItsProvider ((Blackboard.new "wave").registerAll
          [.provide .int "test", .require .int "test", .provide .bool "test", .require .bool "test"]) "test"
        (callsOn "test" (accepted (Blackboard.new "wave")
          [.provide .int "test", .require .int "test", .provide .bool "test", .require .bool "test"])) pre T)
      ([.provide .int "test" (1 : Int), .require .int "test", .provide .bool "test" true, .require .bool "test",
        .provide .int "test" (2 : Int), .require .int "test"] : List (AccessorCall Plain.Value)) :=
  local_flow "wave" "test" _ _ rfl (by decide)
    (.pass ([.provide .int "test" (1 : Int), .require .int "test", .provide .bool "test" true, .require .bool "test"] :
        List (AccessorCall Plain.Value)) _ rfl
      (.part ([.provide .int "test" (2 : Int), .require .int "test"] : List (AccessorCall Plain.Value))
        [.provide .bool "test" true, .require .bool "test"] rfl))

end Comm
end NaoFramework
