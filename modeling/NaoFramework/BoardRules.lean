import NaoFramework.BoardHistory
/-!
# BoardRules — the documented rules of registration, and where the Blackboard follows them

`Documented A c` is the class comment's verdict on the call `c` after the accepted calls `A`.  The Blackboard decides
from one word in `typeCheck_`, which a request on a key not yet in `board_` writes once and a later provision of that
key does not overwrite; so it follows the rules exactly on the sequences `ProvisionInOrder`, `RequestInOrder` and
`globals_exact_iff` name.
-/
namespace NaoFramework
namespace Comm

variable {Ty : Type} {Val : Ty → Type}

/-! ## The rules -/

/-- **The class comment's rule** for each call, by the calls accepted so far. -/
def Documented (A : List (Call Val)) : Call Val → Prop
  | .provide _ k =>
    (∀ p ∈ provisionsOn k A, p.isGlobal = false) ∧
      ((∃ p ∈ provisionsOn k A, p.isGlobal = false) ∨ requestsOn k A = [])
  | .globalProvide T k _ => provisionsOn k A = [] ∧ ∀ r ∈ requestsOn k A, r.type = T
  | .require T k =>
    match (provisionsOn k A).getLast? with
    | some p => p.type = T
    | none => ∀ r ∈ requestsOn k A, r.type = T
  | .globalRequire T k =>
    (match (provisionsOn k A).getLast? with
     | some p => p.type = T
     | none => ∀ r ∈ requestsOn k A, r.type = T) ∧
      ∀ p ∈ provisionsOn k A, p.isGlobal = true

/-- At most one global provider, and never one of each kind. -/
def ExclusiveOn (k : String) (A : List (Call Val)) : Prop :=
  ((provisionsOn k A).filter Call.isGlobal).length ≤ 1 ∧
    ¬ ((∃ p ∈ provisionsOn k A, p.isGlobal = true) ∧ ∃ p ∈ provisionsOn k A, p.isGlobal = false)

variable [DecidableEq Ty]

/-- The Blackboard's verdict on the next call is the documented one. -/
def DecidedAsDocumented (name : String) (pre : List (Call Val)) (c : Call Val) : Prop :=
  ((Blackboard.new name).registerAll pre).accepts c = true ↔ Documented (accepted (Blackboard.new name) pre) c

/-! ## Provisions -/

/-- **A provision comes in order**: a local one after another provision or before every request; a global one on a
requested key with the type of every request when it is the first, and otherwise not with the type the key was first
requested with. -/
def ProvisionInOrder (pre : List (Call Val)) : Call Val → Prop
  | .provide _ k => requestsOn k pre = [] ∨ provisionsOn k pre ≠ []
  | .globalProvide T k _ =>
    (provisionsOn k pre = [] → ∀ r ∈ requestsOn k pre, r.type = T) ∧
      (provisionsOn k pre ≠ [] → ∀ r, firstOn k pre = some r → r.isProvision = false → r.type ≠ T)
  | _ => True

omit [DecidableEq Ty] in
/-- The three shapes of a key's calls: none, a provision first, a request first. -/
theorem firstOn_cases (k : String) (cs : List (Call Val)) :
    firstOn k cs = none ∨ (∃ p, firstOn k cs = some p ∧ p.isProvision = true) ∨
      ∃ r, firstOn k cs = some r ∧ r.isProvision = false := by
  cases h : firstOn k cs with
  | none => exact Or.inl rfl
  | some c => cases hc : c.isProvision <;> simp [hc]

omit [DecidableEq Ty] in
theorem provisionsOn_ne_nil {k : String} {cs : List (Call Val)} {p : Call Val} (h : firstOn k cs = some p)
    (hp : p.isProvision = true) : provisionsOn k cs ≠ [] :=
  List.ne_nil_of_mem (mem_provisionsOn.2 ⟨(firstOn_eq_some h).1, (firstOn_eq_some h).2, hp⟩)

omit [DecidableEq Ty] in
theorem mem_requestsOn_of_firstOn {k : String} {cs : List (Call Val)} {r : Call Val} (h : firstOn k cs = some r)
    (hr : r.isProvision = false) : r ∈ requestsOn k cs :=
  mem_requestsOn.2 ⟨(firstOn_eq_some h).1, (firstOn_eq_some h).2, hr⟩

theorem provisionsOn_of_requested {k : String} {cs : List (Call Val)} {r : Call Val} (h : firstOn k cs = some r)
    (hr : r.isProvision = false) : provisionsOn k cs = [] ↔ keyPast k cs = .requested r.type := by
  rw [keyPast_of_request h hr]
  cases provisionsOn k cs with
  | nil => simp [requestedPast]
  | cons p rest => simp only [requestedPast]; split <;> simp

/-- **In order, a key requested first is provided late by one global provider**, of the requested type. -/
theorem past_of_provisionInOrder {k : String} : ∀ {cs : List (Call Val)} {r : Call Val},
    Runs.AtEvery ProvisionInOrder cs → firstOn k cs = some r → r.isProvision = false →
      keyPast k cs = .requested r.type ∨ keyPast k cs = .late r.type r.type true := by
  intro cs
  induction cs using List.reverseRecOn with
  | nil => intro r _ h; cases h
  | append_singleton cs c ih =>
    intro r ho h hr
    obtain ⟨ho, hc⟩ := Runs.atEvery_snoc.1 ho
    rw [keyPast_snoc]
    rw [firstOn_snoc] at h
    cases hf : firstOn k cs with
    | none =>
      rw [hf, Option.none_or] at h
      split at h
      · rename_i hk
        obtain rfl : c = r := Option.some.inj h
        rw [keyPast_eq_fresh hf, if_pos hk]
        cases c <;> first | exact Or.inl rfl | cases hr
      · cases h
    | some r' =>
      rw [hf, Option.some_or] at h
      obtain rfl : r' = r := Option.some.inj h
      by_cases hk : c.key = k
      · rw [if_pos hk]
        rcases ih ho hf hr with hp | hp
        · have hn := (provisionsOn_of_requested hf hr).2 hp
          rw [hp]
          cases c with
          | require T k' | globalRequire T k' => exact Or.inl rfl
          | provide T k' =>
            subst hk
            rcases hc with hc | hc
            · exact absurd hc (List.ne_nil_of_mem (mem_requestsOn_of_firstOn hf hr))
            · exact absurd hn hc
          | globalProvide T k' v =>
            subst hk
            have := hc.1 hn r' (mem_requestsOn_of_firstOn hf hr)
            exact Or.inr (by subst this; rfl)
        · rw [hp]
          cases c with
          | require T k' | globalRequire T k' | provide T k' => exact Or.inr rfl
          | globalProvide T k' v =>
            subst hk
            have hn : provisionsOn k' cs ≠ [] := fun hn => by
              have := (provisionsOn_of_requested hf hr).1 hn
              rw [hp] at this; cases this
            exact Or.inr (if_neg (fun e => hc.2 hn r' hf hr e.symm))
      · rw [if_neg hk]; exact ih ho hf hr

/-- **A provision is decided as documented exactly when it comes in order**, everything before it having done so. -/
theorem provision_decided (name : String) {pre : List (Call Val)} {c : Call Val}
    (h : Runs.AtEvery ProvisionInOrder pre) (hc : c.isProvision = true) :
    DecidedAsDocumented name pre c ↔ ProvisionInOrder pre c := by
  unfold DecidedAsDocumented
  rw [accepts_registerAll]
  have hA := acceptedAs name c.key pre
  rcases firstOn_cases c.key pre with hf | ⟨p, hf, hp⟩ | ⟨r, hf, hr⟩
  · rw [keyPast_eq_fresh hf] at hA ⊢
    obtain ⟨hreq, hreqA, hprovA⟩ := hA
    have hprov := provisionsOn_eq_nil_of_firstOn hf
    cases c with
    | require T k | globalRequire T k => cases hc
    | provide T k => simp_all [KeyPast.accepts, Documented, ProvisionInOrder, Call.key]
    | globalProvide T k v => simp_all [KeyPast.accepts, Documented, ProvisionInOrder, Call.key]
  · have hprov := provisionsOn_ne_nil hf hp
    have hpast := keyPast_of_provision hf hp
    split at hpast
    · rw [hpast] at hA ⊢
      obtain ⟨q, hq, hg, -⟩ := hA
      cases c with
      | require T k | globalRequire T k => cases hc
      | provide T k => simp_all [KeyPast.accepts, Documented, ProvisionInOrder, Call.key]
      | globalProvide T k v => simp_all [KeyPast.accepts, Documented, ProvisionInOrder, Call.key]
    · obtain ⟨U, hU⟩ := hpast
      rw [hU] at hA ⊢
      obtain ⟨hl, ps, q, hq, -⟩ := hA
      cases c with
      | require T k | globalRequire T k => cases hc
      | provide T k =>
        have hex : ∃ p ∈ provisionsOn k (accepted (Blackboard.new name) pre), p.isGlobal = false :=
          ⟨q, by rw [show k = (Call.provide T k : Call Val).key from rfl, hq]; simp, hl q (by rw [hq]; simp)⟩
        exact iff_of_true (iff_of_true rfl ⟨hl, Or.inl hex⟩) (Or.inr hprov)
      | globalProvide T k v => simp_all [KeyPast.accepts, Documented, ProvisionInOrder, Call.key]
  · have hreq := mem_requestsOn_of_firstOn hf hr
    rcases past_of_provisionInOrder h hf hr with hpast | hpast
    · have hprov := (provisionsOn_of_requested hf hr).2 hpast
      rw [hpast] at hA ⊢
      obtain ⟨hne, hreqA, hprovA⟩ := hA
      cases c with
      | require T k | globalRequire T k => cases hc
      | provide T k => simp_all [KeyPast.accepts, Documented, ProvisionInOrder, Call.key]
      | globalProvide T k v => simp_all [KeyPast.accepts, Documented, ProvisionInOrder, Call.key]
    · have hprov : provisionsOn c.key pre ≠ [] := fun hn => by
        rw [(provisionsOn_of_requested hf hr).1 hn] at hpast; cases hpast
      rw [hpast] at hA ⊢
      obtain ⟨q, hq, hg, -⟩ := hA
      cases c with
      | require T k | globalRequire T k => cases hc
      | provide T k => simp_all [KeyPast.accepts, Documented, ProvisionInOrder, Call.key]
      | globalProvide T k v =>
        have hd : ¬ Documented (accepted (Blackboard.new name) pre) (.globalProvide T k v) := fun hd =>
          absurd (hq.symm.trans hd.1) (by simp)
        rw [iff_false_right hd]
        constructor
        · intro hn
          refine ⟨fun e => absurd e hprov, fun _ r' hf' _ e => hn ?_⟩
          obtain rfl : r = r' := Option.some.inj (hf.symm.trans hf')
          exact decide_eq_true e.symm
        · rintro ⟨-, hne⟩ ha
          exact hne hprov r hf hr (of_decide_eq_true ha).symm

/-- Provisions are decided as documented, and providers are exclusive. -/
def ProvidersAsDocumented (name : String) (cs : List (Call Val)) : Prop :=
  Runs.AtEvery (fun pre c => c.isProvision = true → DecidedAsDocumented name pre c) cs ∧
    ∀ k, ExclusiveOn k (accepted (Blackboard.new name) cs)

/-- A key has two providers only when a late provision was followed by a global one. -/
theorem exclusiveOn_of_past (name k : String) (cs : List (Call Val)) (h : ∀ T g, keyPast k cs ≠ .settled T g) :
    ExclusiveOn k (accepted (Blackboard.new name) cs) := by
  have hA := acceptedAs name k cs
  unfold ExclusiveOn
  cases hx : keyPast k cs with
  | fresh => rw [hx] at hA; simp [hA.2.2]
  | requested T => rw [hx] at hA; simp [hA.2.2]
  | locally T =>
    rw [hx] at hA
    have hn : (provisionsOn k (accepted (Blackboard.new name) cs)).filter Call.isGlobal = [] :=
      List.filter_eq_nil_iff.2 (fun p hp => by simp [hA.1 p hp])
    refine ⟨by rw [hn]; simp, ?_⟩
    rintro ⟨⟨p, hp, hg⟩, -⟩
    rw [hA.1 p hp] at hg; cases hg
  | globally T =>
    rw [hx] at hA
    obtain ⟨p, hp, hg, -⟩ := hA
    simp [hp, hg]
  | late T U g =>
    rw [hx] at hA
    obtain ⟨p, hp, hg, -⟩ := hA
    rw [hp]
    cases g <;> simp [hg]
  | settled T g => exact absurd hx (h T g)

/-- **Where provider registration follows the rules**: exactly on the sequences whose provisions come in order. -/
theorem provisions_exact_iff (name : String) (cs : List (Call Val)) :
    ProvidersAsDocumented name cs ↔ Runs.AtEvery ProvisionInOrder cs := by
  have hiff : Runs.AtEvery (fun pre c => c.isProvision = true → DecidedAsDocumented name pre c) cs ↔
      Runs.AtEvery ProvisionInOrder cs := by
    refine Runs.atEvery_congr (fun pre c hpre => ?_)
    cases hc : c.isProvision with
    | true => simpa using provision_decided name hpre hc
    | false =>
      cases c with
      | require T k | globalRequire T k => simp [ProvisionInOrder]
      | provide T k | globalProvide T k v => cases hc
  refine ⟨fun h => hiff.1 h.1, fun h => ⟨hiff.2 h, fun k => exclusiveOn_of_past name k cs (fun T g hs => ?_)⟩⟩
  rcases firstOn_cases k cs with hf | ⟨p, hf, hp⟩ | ⟨r, hf, hr⟩
  · rw [keyPast_eq_fresh hf] at hs; cases hs
  · have hpast := keyPast_of_provision hf hp
    split at hpast
    · rw [hpast] at hs; cases hs
    · obtain ⟨U, hU⟩ := hpast
      rw [hU] at hs; cases hs
  · rcases past_of_provisionInOrder h hf hr with e | e <;> rw [e] at hs <;> cases hs

/-- A key that was requested is provided locally, and then globally as well. -/
theorem provisions_not_as_documented :
    ¬ ProvidersAsDocumented "wave"
      ([.require .int "test", .provide .int "test", .globalProvide .int "test" (0 : Int)] : List (Call Plain.Value)) := by
  intro h
  have hex := (h.2 "test").2
  revert hex
  decide

/-! ## Requests -/

/-- **A request comes in order** on a key that a request of type `r.type` was the first call on: with that type while
the key has no provision; not with it when it is global and the first provision was local; and otherwise, until
`r.type` is provided globally, only with both of `r.type` and the type first provided or with neither. -/
def RequestInOrder (pre : List (Call Val)) (c : Call Val) : Prop :=
  c.isProvision = false → ∀ r, firstOn c.key pre = some r → r.isProvision = false →
    match provisionsOn c.key pre with
    | [] => c.type = r.type
    | p :: rest =>
      if c.isGlobal = true ∧ p.isGlobal = false then c.type ≠ r.type
      else (∃ q ∈ rest, q.isGlobal = true ∧ q.type = r.type) ∨ (c.type = r.type ↔ c.type = p.type)

omit [DecidableEq Ty] in
/-- In order, the requests on a key without a provision have one type. -/
theorem type_of_requestInOrder {cs : List (Call Val)} {k : String} {r r' : Call Val} (h : Runs.AtEvery RequestInOrder cs)
    (hf : firstOn k cs = some r) (hr : r.isProvision = false) (hn : provisionsOn k cs = []) (hr' : r' ∈ requestsOn k cs) :
    r'.type = r.type := by
  obtain ⟨hmem, rfl, hp⟩ := mem_requestsOn.1 hr'
  obtain ⟨pre, post, rfl⟩ := List.append_of_mem hmem
  have hn' : provisionsOn r'.key pre = [] := by
    rw [provisionsOn_append, List.append_eq_nil_iff] at hn; exact hn.1
  have hfo : firstOn r'.key (pre ++ r' :: post) = (firstOn r'.key pre).or (some r') := by
    simp [firstOn, List.find?_append]
  rw [hfo] at hf
  have hc := h pre r' post rfl hp
  cases hpre : firstOn r'.key pre with
  | none => rw [hpre] at hf; rw [Option.some.inj hf]
  | some r₀ =>
    rw [hpre] at hf
    obtain rfl : r₀ = r := Option.some.inj hf
    have := hc r₀ hpre hr
    rw [hn'] at this
    exact this

omit [DecidableEq Ty] in
theorem documented_request {A : List (Call Val)} {c : Call Val} (hc : c.isProvision = false) :
    Documented A c ↔
      (match (provisionsOn c.key A).getLast? with
       | some p => c.type = p.type
       | none => ∀ r ∈ requestsOn c.key A, r.type = c.type) ∧
      (c.isGlobal = true → ∀ p ∈ provisionsOn c.key A, p.isGlobal = true) := by
  cases c with
  | provide T k | globalProvide T k v => cases hc
  | require T k | globalRequire T k =>
    simp only [Documented, Call.key, Call.type, Call.isGlobal]
    cases (provisionsOn k A).getLast? with
    | none => simp
    | some p => simp [eq_comm (a := T)]

theorem KeyPast.accepts_request {x : KeyPast Ty} {c : Call Val} (hc : c.isProvision = false) :
    x.accepts c = match x with
      | fresh | requested _ => true
      | locally U => !c.isGlobal && decide (c.type = U)
      | globally U | late U _ _ | settled U _ => decide (c.type = U) := by
  cases c with
  | provide T k | globalProvide T k v => cases hc
  | require T k | globalRequire T k => cases x <;> rfl

/-- **A request is decided as documented exactly when it comes in order**, everything before it having done so. -/
theorem request_decided (name : String) {pre : List (Call Val)} {c : Call Val}
    (h : Runs.AtEvery RequestInOrder pre) (hc : c.isProvision = false) :
    DecidedAsDocumented name pre c ↔ RequestInOrder pre c := by
  unfold DecidedAsDocumented
  rw [accepts_registerAll, KeyPast.accepts_request hc, documented_request hc]
  have hA := acceptedAs name c.key pre
  rcases firstOn_cases c.key pre with hf | ⟨p, hf, hp⟩ | ⟨r, hf, hr⟩
  · rw [keyPast_eq_fresh hf] at hA ⊢
    have hQ : RequestInOrder pre c := fun _ r hr => by rw [hf] at hr; cases hr
    simp [hA.2.1, hA.2.2, hQ]
  · have hQ : RequestInOrder pre c := fun _ r hr hrp => by
      obtain rfl : p = r := Option.some.inj (hf.symm.trans hr)
      rw [hp] at hrp; cases hrp
    rw [iff_true_right hQ]
    have hpast := keyPast_of_provision hf hp
    split at hpast
    · rw [hpast] at hA ⊢
      obtain ⟨q, hq, hg, hT⟩ := hA
      simp [hq, hg, hT]
    · obtain ⟨U, hU⟩ := hpast
      rw [hU] at hA ⊢
      obtain ⟨hl, ps, q, hq, hT⟩ := hA
      have hql := hl q (by rw [hq]; simp)
      cases hg : c.isGlobal with
      | false => simp [hq, hT]
      | true =>
        simp only [Bool.not_true, Bool.false_and, Bool.false_eq_true, false_iff, hq]
        intro hd
        have := hd.2 trivial q (by simp)
        rw [hql] at this; cases this
  · have hQ : RequestInOrder pre c ↔
        match provisionsOn c.key pre with
        | [] => c.type = r.type
        | p :: rest =>
          if c.isGlobal = true ∧ p.isGlobal = false then c.type ≠ r.type
          else (∃ q ∈ rest, q.isGlobal = true ∧ q.type = r.type) ∨ (c.type = r.type ↔ c.type = p.type) := by
      refine ⟨fun hQ => hQ hc r hf hr, fun hQ _ r' hf' _ => ?_⟩
      obtain rfl : r = r' := Option.some.inj (hf.symm.trans hf')
      exact hQ
    rw [hQ, keyPast_of_request hf hr]
    rw [keyPast_of_request hf hr] at hA
    cases hps : provisionsOn c.key pre with
    | nil =>
      rw [hps] at hA
      obtain ⟨-, hreqA, hprovA⟩ := hA
      have hmem := mem_requestsOn_of_firstOn hf hr
      have hall : (∀ r' ∈ requestsOn c.key pre, r'.type = c.type) ↔ c.type = r.type :=
        ⟨fun hr' => (hr' r hmem).symm, fun e r' hr' => (type_of_requestInOrder h hf hr hps hr').trans e.symm⟩
      simp [requestedPast, hprovA, hreqA, hall]
    | cons p rest =>
      rw [hps] at hA
      cases hany : rest.any (fun q => q.isGlobal && decide (q.type = r.type)) with
      | true =>
        simp only [requestedPast, hany, if_true] at hA ⊢
        obtain ⟨p', q', hq, hg, hgq, hT⟩ := hA
        have hex : ∃ q ∈ rest, q.isGlobal = true ∧ q.type = r.type := by simpa using hany
        cases hcg : c.isGlobal <;> cases hpg : p.isGlobal <;> simp [hq, hg, hgq, hT, hex, hpg]
      | false =>
        simp only [requestedPast, hany, Bool.false_eq_true, if_false] at hA ⊢
        obtain ⟨p', hq, hg, hT⟩ := hA
        have hex : ¬ ∃ q ∈ rest, q.isGlobal = true ∧ q.type = r.type := by simpa using hany
        cases hcg : c.isGlobal <;> cases hpg : p.isGlobal <;> simp [hq, hg, hT, hex, hpg]

omit [DecidableEq Ty] in
theorem onBoard_of_unprovided {k : String} {cs A : List (Call Val)} {x : KeyPast Ty} (h : AcceptedAs k cs A x)
    (hn : provisionsOn k A = []) : x.onBoard = false := by
  cases x with
  | fresh | requested T => rfl
  | locally T => obtain ⟨-, ps, p, hp, -⟩ := h; rw [hp] at hn; simp at hn
  | globally T => obtain ⟨p, hp, -⟩ := h; rw [hp] at hn; cases hn
  | late T U g => obtain ⟨p, hp, -⟩ := h; rw [hp] at hn; cases hn
  | settled T g => obtain ⟨p, q, hp, -⟩ := h; rw [hp] at hn; cases hn

/-- Requests are decided as documented, and those accepted on a key before it has a provider have one type. -/
def RequestsAsDocumented (name : String) (cs : List (Call Val)) : Prop :=
  Runs.AtEvery (fun pre c => c.isProvision = false → DecidedAsDocumented name pre c) cs ∧
    ∀ pre post k, cs = pre ++ post → provisionsOn k (accepted (Blackboard.new name) pre) = [] →
      ∀ r ∈ requestsOn k (accepted (Blackboard.new name) pre),
        ∀ r' ∈ requestsOn k (accepted (Blackboard.new name) pre), r.type = r'.type

/-- **Where request registration follows the rules**: exactly on the sequences whose requests come in order. -/
theorem requests_exact_iff (name : String) (cs : List (Call Val)) :
    RequestsAsDocumented name cs ↔ Runs.AtEvery RequestInOrder cs := by
  have hiff : Runs.AtEvery (fun pre c => c.isProvision = false → DecidedAsDocumented name pre c) cs ↔
      Runs.AtEvery RequestInOrder cs := by
    refine Runs.atEvery_congr (fun pre c hpre => ?_)
    cases hc : c.isProvision with
    | true => simp [RequestInOrder, hc]
    | false => simpa using request_decided name hpre hc
  refine ⟨fun h => hiff.1 h.1, fun h => ⟨hiff.2 h, ?_⟩⟩
  rintro pre post k rfl hn r hr r' hr'
  have hA := acceptedAs name k pre
  have hx := onBoard_of_unprovided hA hn
  rcases firstOn_cases k pre with hf | ⟨p, hf, hp⟩ | ⟨r₀, hf, hr₀⟩
  · rw [keyPast_eq_fresh hf] at hA
    rw [hA.2.1] at hr; cases hr
  · have hpast := keyPast_of_provision hf hp
    split at hpast
    · rw [hpast] at hx; cases hx
    · obtain ⟨U, hU⟩ := hpast
      rw [hU] at hx; cases hx
  · rw [keyPast_of_request hf hr₀] at hA hx
    cases hps : provisionsOn k pre with
    | nil =>
      rw [hps] at hA
      rw [hA.2.1] at hr hr'
      have ht : ∀ r ∈ requestsOn k pre, r.type = r₀.type := fun r hr =>
        type_of_requestInOrder h.of_append hf hr₀ hps hr
      rw [ht r hr, ht r' hr']
    | cons p rest =>
      rw [hps, requestedPast] at hx
      split at hx <;> cases hx

/-- On a key without a provision a second type is requested, and accepted. -/
theorem requests_not_as_documented :
    ¬ RequestsAsDocumented "wave" ([.require .int "test", .require .bool "test"] : List (Call Plain.Value)) := by
  intro h
  have hA : requestsOn "test" (accepted (Blackboard.new "wave")
      ([.require .int "test", .require .bool "test"] : List (Call Plain.Value))) =
      [.require .int "test", .require .bool "test"] := rfl
  have ht := h.2 _ [] "test" (List.append_nil _).symm rfl (.require .int "test") (by rw [hA]; simp)
    (.require .bool "test") (by rw [hA]; simp)
  cases ht

/-! ## Validation -/

/-- A request was accepted on the key before any provider: the first call accepted on it is a request. -/
def RequestedBeforeProvided (k : String) (A : List (Call Val)) : Prop :=
  ∃ r, firstOn k A = some r ∧ r.isProvision = false

/-- **What validation is to report**: every key requested before it was provided has a global provider. -/
def ValidatedAsDocumented (name : String) (cs : List (Call Val)) : Prop :=
  ((Blackboard.new name).registerAll cs).validateGlobals = true ↔
    ∀ k, RequestedBeforeProvided k (accepted (Blackboard.new name) cs) →
      ∃ p ∈ provisionsOn k (accepted (Blackboard.new name) cs), p.isGlobal = true

/-- A key's second and later provision calls include a global one of type `T`. -/
def ConfirmedOn (k : String) (T : Ty) (cs : List (Call Val)) : Prop :=
  ∃ q ∈ (provisionsOn k cs).tail, q.isGlobal = true ∧ q.type = T

/-- The key's first provision call is a global one. -/
def FirstProvidedGlobally (k : String) (cs : List (Call Val)) : Prop :=
  ∃ p, (provisionsOn k cs).head? = some p ∧ p.isGlobal = true

/-- The first call on a key is accepted. -/
theorem firstOn_accepted (name k : String) (cs : List (Call Val)) :
    firstOn k (accepted (Blackboard.new name) cs) = firstOn k cs := by
  induction cs using List.reverseRecOn with
  | nil => rfl
  | append_singleton cs c ih =>
    rw [accepted_snoc, accepts_registerAll, firstOn_snoc]
    cases ha : (keyPast c.key cs).accepts c with
    | true => rw [if_pos rfl, firstOn_snoc, ih]
    | false =>
      rw [if_neg (by simp), List.append_nil, ih]
      by_cases hk : c.key = k
      · cases hf : firstOn k cs with
        | some r => rfl
        | none => rw [hk, keyPast_eq_fresh hf] at ha; cases ha
      · rw [if_neg hk, Option.or_none]

/-- Validation passes when no key is left in the state `Requested`. -/
theorem validateGlobals_registerAll (name : String) (cs : List (Call Val)) :
    ((Blackboard.new name).registerAll cs).validateGlobals = true ↔
      ∀ k T, (keyPast k cs).check ≠ some (.requested, T) := by
  rw [Blackboard.validateGlobals_iff]
  have hc : ∀ k, ((Blackboard.new name).registerAll cs).typeCheck.lookup k = (keyPast k cs).check :=
    (recalls_registerAll name cs).check
  constructor
  · intro h k T hk
    exact h k .requested T (by rw [hc k, hk]) rfl
  · rintro h k st T hk rfl
    exact h k T (by rw [← hc k, hk])

theorem requestedPast_check (T U : Ty) (ps : List (Call Val)) :
    (requestedPast T ps).check ≠ some (.requested, U) ↔
      (∃ q ∈ ps.tail, q.isGlobal = true ∧ q.type = T) ∨ T ≠ U := by
  cases ps with
  | nil => simp [requestedPast, KeyPast.check]
  | cons p rest =>
    cases hany : rest.any (fun q => q.isGlobal && decide (q.type = T)) with
    | true =>
      have hex : ∃ q ∈ rest, q.isGlobal = true ∧ q.type = T := by simpa using hany
      simp [requestedPast, hany, KeyPast.check, hex]
    | false =>
      have hex : ¬ ∃ q ∈ rest, q.isGlobal = true ∧ q.type = T := by simpa using hany
      simp [requestedPast, hany, KeyPast.check, hex]

theorem validated_iff_confirmed (name : String) (cs : List (Call Val)) :
    ((Blackboard.new name).registerAll cs).validateGlobals = true ↔
      ∀ k r, firstOn k cs = some r → r.isProvision = false → ConfirmedOn k r.type cs := by
  rw [validateGlobals_registerAll]
  constructor
  · intro h k r hf hr
    have := h k r.type
    rw [keyPast_of_request hf hr, requestedPast_check] at this
    exact this.resolve_right (fun hne => hne rfl)
  · intro h k T
    rcases firstOn_cases k cs with hf | ⟨p, hf, hp⟩ | ⟨r, hf, hr⟩
    · rw [keyPast_eq_fresh hf]; simp [KeyPast.check]
    · have hpast := keyPast_of_provision hf hp
      split at hpast
      · rw [hpast]; simp [KeyPast.check]
      · obtain ⟨U, hU⟩ := hpast
        rw [hU]; simp [KeyPast.check]
    · rw [keyPast_of_request hf hr, requestedPast_check]
      exact Or.inl (h k r hf hr)

/-- A key requested first has a global provider when it was first provided globally, or was confirmed. -/
theorem globalProvider_iff (name : String) {k : String} {cs : List (Call Val)} {r : Call Val} (hf : firstOn k cs = some r)
    (hr : r.isProvision = false) :
    (∃ p ∈ provisionsOn k (accepted (Blackboard.new name) cs), p.isGlobal = true) ↔
      FirstProvidedGlobally k cs ∨ ConfirmedOn k r.type cs := by
  have hA := acceptedAs name k cs
  rw [keyPast_of_request hf hr] at hA
  unfold FirstProvidedGlobally ConfirmedOn
  cases hps : provisionsOn k cs with
  | nil =>
    rw [hps] at hA
    simp [hA.2.2]
  | cons p rest =>
    rw [hps] at hA
    cases hany : rest.any (fun q => q.isGlobal && decide (q.type = r.type)) with
    | true =>
      have hex : ∃ q ∈ rest, q.isGlobal = true ∧ q.type = r.type := by simpa using hany
      simp only [requestedPast, hany, if_true] at hA
      obtain ⟨p', q', hq, hg, hgq, hT⟩ := hA
      simp [hq, hgq, hex]
    | false =>
      have hex : ¬ ∃ q ∈ rest, q.isGlobal = true ∧ q.type = r.type := by simpa using hany
      simp only [requestedPast, hany, Bool.false_eq_true, if_false] at hA
      obtain ⟨p', hq, hg, hT⟩ := hA
      simp [hq, hg, hex]

/-- **Where validation reports what it is to report**: unless a key requested first has no global provider at all,
every such key must be confirmed — given, after its first provision call, a global provision of the type it was first
requested with. -/
theorem validation_exact_iff (name : String) (cs : List (Call Val)) :
    ValidatedAsDocumented name cs ↔
      ((∀ k r, firstOn k cs = some r → r.isProvision = false →
          FirstProvidedGlobally k cs ∨ ConfirmedOn k r.type cs) →
        ∀ k r, firstOn k cs = some r → r.isProvision = false → ConfirmedOn k r.type cs) := by
  unfold ValidatedAsDocumented
  rw [validated_iff_confirmed]
  have hreq : (∀ k, RequestedBeforeProvided k (accepted (Blackboard.new name) cs) →
        ∃ p ∈ provisionsOn k (accepted (Blackboard.new name) cs), p.isGlobal = true) ↔
      ∀ k r, firstOn k cs = some r → r.isProvision = false →
        FirstProvidedGlobally k cs ∨ ConfirmedOn k r.type cs := by
    simp only [RequestedBeforeProvided, firstOn_accepted]
    constructor
    · intro h k r hf hr
      exact (globalProvider_iff name hf hr).1 (h k ⟨r, hf, hr⟩)
    · rintro h k ⟨r, hf, hr⟩
      exact (globalProvider_iff name hf hr).2 (h k r hf hr)
  rw [hreq]
  exact ⟨fun h => h.2, fun h => ⟨fun hc k r hf hr => Or.inr (hc k r hf hr), h⟩⟩

/-- A request and then its global provision are not reported as met. -/
theorem validation_not_as_documented :
    ¬ ValidatedAsDocumented "wave"
      ([.require .int "test", .globalProvide .int "test" (0 : Int)] : List (Call Plain.Value)) := by
  intro h
  have hv : ((Blackboard.new "wave").registerAll
      ([.require .int "test", .globalProvide .int "test" (0 : Int)] : List (Call Plain.Value))).validateGlobals = false :=
    rfl
  rw [ValidatedAsDocumented, hv] at h
  have hA : accepted (Blackboard.new "wave")
      ([.require .int "test", .globalProvide .int "test" (0 : Int)] : List (Call Plain.Value)) =
      [.require .int "test", .globalProvide .int "test" (0 : Int)] := rfl
  refine absurd (h.2 (fun k hk => ?_)) (by simp)
  obtain ⟨r, hr, -⟩ := hk
  have hkey := (firstOn_eq_some hr)
  rw [hA] at hkey
  have : k = "test" := by
    rcases hkey with ⟨hm, rfl⟩
    rcases List.mem_cons.1 hm with rfl | hm
    · rfl
    · rw [List.mem_singleton.1 hm]; rfl
  subst this
  exact ⟨.globalProvide .int "test" (0 : Int), by rw [hA]; simp [provisionsOn, Call.key, Call.isProvision], rfl⟩

end Comm
end NaoFramework
