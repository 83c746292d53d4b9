import NaoFramework.BoardCalls
/-!
# BoardHistory — the calls on one key, made and accepted

`requestsOn` and `provisionsOn` pick the calls on a key out of a sequence.  Read on the calls that were *made*, they
determine the key's past (`keyPast_of_request`, `keyPast_of_provision`); read on the calls that were *accepted*, they are
what the past says (`acceptedAs`).  The rules of the class are about the second list and the Blackboard decides by the
past, so every law about the rules goes through these two.
-/
namespace NaoFramework
namespace Comm

variable {Ty : Type} {Val : Ty → Type}

def requestsOn (k : String) (cs : List (Call Val)) : List (Call Val) :=
  cs.filter (fun c => decide (c.key = k) && !c.isProvision)

def provisionsOn (k : String) (cs : List (Call Val)) : List (Call Val) :=
  cs.filter (fun c => decide (c.key = k) && c.isProvision)

/-- The first call on a key. -/
def firstOn (k : String) (cs : List (Call Val)) : Option (Call Val) := cs.find? (fun c => decide (c.key = k))

theorem mem_requestsOn {k : String} {cs : List (Call Val)} {c : Call Val} :
    c ∈ requestsOn k cs ↔ c ∈ cs ∧ c.key = k ∧ c.isProvision = false := by
  simp [requestsOn, List.mem_filter]

theorem mem_provisionsOn {k : String} {cs : List (Call Val)} {c : Call Val} :
    c ∈ provisionsOn k cs ↔ c ∈ cs ∧ c.key = k ∧ c.isProvision = true := by
  simp [provisionsOn, List.mem_filter]

theorem requestsOn_append (k : String) (cs ds : List (Call Val)) :
    requestsOn k (cs ++ ds) = requestsOn k cs ++ requestsOn k ds := List.filter_append ..

theorem provisionsOn_append (k : String) (cs ds : List (Call Val)) :
    provisionsOn k (cs ++ ds) = provisionsOn k cs ++ provisionsOn k ds := List.filter_append ..

theorem requestsOn_singleton (k : String) (c : Call Val) :
    requestsOn k [c] = if c.key = k ∧ c.isProvision = false then [c] else [] := by
  by_cases h : c.key = k <;> cases hp : c.isProvision <;> simp [requestsOn, h, hp]

theorem provisionsOn_singleton (k : String) (c : Call Val) :
    provisionsOn k [c] = if c.key = k ∧ c.isProvision = true then [c] else [] := by
  by_cases h : c.key = k <;> cases hp : c.isProvision <;> simp [provisionsOn, h, hp]

theorem firstOn_snoc (k : String) (cs : List (Call Val)) (c : Call Val) :
    firstOn k (cs ++ [c]) = (firstOn k cs).or (if c.key = k then some c else none) := by
  unfold firstOn
  rw [List.find?_append]
  by_cases h : c.key = k <;> simp [h]

theorem firstOn_eq_none {k : String} {cs : List (Call Val)} : firstOn k cs = none ↔ ∀ c ∈ cs, c.key ≠ k := by
  simp [firstOn, List.find?_eq_none]

theorem firstOn_eq_some {k : String} {cs : List (Call Val)} {c : Call Val} (h : firstOn k cs = some c) :
    c ∈ cs ∧ c.key = k :=
  ⟨List.mem_of_find?_eq_some h, by simpa using List.find?_some h⟩

variable [DecidableEq Ty]

/-! ## The past, from the calls made -/

/-- The past of a key whose first call is a request of type `T`, from the provisions made on it. -/
def requestedPast (T : Ty) : List (Call Val) → KeyPast Ty
  | [] => .requested T
  | p :: rest =>
    if rest.any (fun q => q.isGlobal && decide (q.type = T)) then .settled T p.isGlobal
    else .late T p.type p.isGlobal

theorem requestedPast_next (T : Ty) (ps : List (Call Val)) (c : Call Val) (hc : c.isProvision = true) :
    (requestedPast T ps).next c = requestedPast T (ps ++ [c]) := by
  cases ps with
  | nil => cases c <;> first | rfl | cases hc
  | cons p rest =>
    simp only [requestedPast, List.cons_append, List.any_append, List.any_cons, List.any_nil, Bool.or_false]
    cases hr : rest.any (fun q => q.isGlobal && decide (q.type = T)) with
    | true => cases c <;> rfl
    | false =>
      cases c with
      | require U k | globalRequire U k => cases hc
      | provide U k => rfl
      | globalProvide U k v => by_cases h : U = T <;> simp [KeyPast.next, Call.isGlobal, Call.type, h]

theorem requestedPast_next_request (T : Ty) (ps : List (Call Val)) (c : Call Val) (hc : c.isProvision = false) :
    (requestedPast T ps).next c = requestedPast T ps := by
  cases ps with
  | nil => cases c <;> first | rfl | cases hc
  | cons p rest =>
    simp only [requestedPast]
    split <;> cases c <;> first | rfl | cases hc

theorem keyPast_eq_fresh {k : String} {cs : List (Call Val)} (h : firstOn k cs = none) : keyPast k cs = .fresh := by
  induction cs using List.reverseRecOn with
  | nil => rfl
  | append_singleton cs c ih =>
    rw [firstOn_snoc, Option.or_eq_none_iff] at h
    have hc : c.key ≠ k := fun e => by rw [if_pos e] at h; cases h.2
    rw [keyPast_snoc, if_neg hc, ih h.1]

omit [DecidableEq Ty] in
theorem provisionsOn_eq_nil_of_firstOn {k : String} {cs : List (Call Val)} (h : firstOn k cs = none) :
    provisionsOn k cs = [] :=
  List.eq_nil_iff_forall_not_mem.2 (fun c hc =>
    firstOn_eq_none.1 h c (mem_provisionsOn.1 hc).1 (mem_provisionsOn.1 hc).2.1)

/-- **A key requested first**: its past is read off the provisions made on it. -/
theorem keyPast_of_request {k : String} {cs : List (Call Val)} {r : Call Val} (h : firstOn k cs = some r)
    (hr : r.isProvision = false) : keyPast k cs = requestedPast r.type (provisionsOn k cs) := by
  induction cs using List.reverseRecOn with
  | nil => cases h
  | append_singleton cs c ih =>
    rw [keyPast_snoc, provisionsOn_append, provisionsOn_singleton]
    rw [firstOn_snoc] at h
    cases hf : firstOn k cs with
    | none =>
      rw [hf, Option.none_or] at h
      split at h
      · rename_i hk
        obtain rfl : c = r := Option.some.inj h
        rw [keyPast_eq_fresh hf, provisionsOn_eq_nil_of_firstOn hf, if_pos hk, if_neg (by simp [hr])]
        cases c <;> first | rfl | cases hr
      · cases h
    | some r' =>
      rw [hf, Option.some_or] at h
      rw [ih (hf.trans h)]
      by_cases hk : c.key = k
      · cases hc : c.isProvision with
        | true => rw [if_pos hk, if_pos ⟨hk, rfl⟩, requestedPast_next _ _ _ hc]
        | false => rw [if_pos hk, if_neg (by simp), List.append_nil, requestedPast_next_request _ _ _ hc]
      · rw [if_neg hk, if_neg (fun e => hk e.1), List.append_nil]

/-- **A key provided first** is provided locally for good, or globally for good. -/
theorem keyPast_of_provision {k : String} {cs : List (Call Val)} {p : Call Val} (h : firstOn k cs = some p)
    (hp : p.isProvision = true) :
    if p.isGlobal then keyPast k cs = .globally p.type else ∃ T, keyPast k cs = .locally T := by
  induction cs using List.reverseRecOn with
  | nil => cases h
  | append_singleton cs c ih =>
    rw [keyPast_snoc]
    rw [firstOn_snoc] at h
    cases hf : firstOn k cs with
    | none =>
      rw [hf, Option.none_or] at h
      split at h
      · rename_i hk
        obtain rfl : c = p := Option.some.inj h
        rw [keyPast_eq_fresh hf, if_pos hk]
        cases c with
        | require T k | globalRequire T k => cases hp
        | provide T k => exact ⟨T, rfl⟩
        | globalProvide T k v => rfl
      · cases h
    | some p' =>
      rw [hf, Option.some_or] at h
      have ih := ih (hf.trans h)
      split at ih
      · rename_i hg
        rw [if_pos hg, ih]
        split
        · cases c <;> rfl
        · rfl
      · rename_i hg
        obtain ⟨T, hT⟩ := ih
        rw [if_neg hg, hT]
        split
        · cases c with
          | provide U k => exact ⟨U, rfl⟩
          | _ => exact ⟨T, rfl⟩
        · exact ⟨T, rfl⟩

/-! ## The past, from the calls accepted -/

/-- What the past of a key says of the accepted calls on it: the providers, and that no request on a key without a
provider was turned away. -/
def AcceptedAs (k : String) (cs A : List (Call Val)) : KeyPast Ty → Prop
  | .fresh => requestsOn k cs = [] ∧ requestsOn k A = [] ∧ provisionsOn k A = []
  | .requested _ => requestsOn k cs ≠ [] ∧ requestsOn k A = requestsOn k cs ∧ provisionsOn k A = []
  | .locally T => (∀ p ∈ provisionsOn k A, p.isGlobal = false) ∧ ∃ ps p, provisionsOn k A = ps ++ [p] ∧ p.type = T
  | .globally T => ∃ p, provisionsOn k A = [p] ∧ p.isGlobal = true ∧ p.type = T
  | .late _ U g => ∃ p, provisionsOn k A = [p] ∧ p.isGlobal = g ∧ p.type = U
  | .settled T g => ∃ p q, provisionsOn k A = [p, q] ∧ p.isGlobal = g ∧ q.isGlobal = true ∧ q.type = T

omit [DecidableEq Ty] in
theorem AcceptedAs.other {k : String} {cs A : List (Call Val)} {x : KeyPast Ty} (h : AcceptedAs k cs A x) {c : Call Val}
    (hk : c.key ≠ k) (b : Bool) : AcceptedAs k (cs ++ [c]) (A ++ if b then [c] else []) x := by
  have hr : ∀ L : List (Call Val), requestsOn k (L ++ [c]) = requestsOn k L := fun L => by
    rw [requestsOn_append, requestsOn_singleton, if_neg (fun e => hk e.1), List.append_nil]
  have hp : ∀ L : List (Call Val), provisionsOn k (L ++ [c]) = provisionsOn k L := fun L => by
    rw [provisionsOn_append, provisionsOn_singleton, if_neg (fun e => hk e.1), List.append_nil]
  cases b <;> cases x <;> simpa [AcceptedAs, hr, hp] using h

/-- A rejected call moves nothing. -/
theorem KeyPast.next_of_rejected {x : KeyPast Ty} {c : Call Val} (h : x.accepts c = false) : x.next c = x := by
  cases x <;> cases c <;> first | rfl | cases h | skip
  rename_i T U g W k v
  exact if_neg (of_decide_eq_false h)

/-- Nor does a request on a key in `board_`. -/
theorem KeyPast.next_of_request {x : KeyPast Ty} {c : Call Val} (hx : x.onBoard = true) (hc : c.isProvision = false) :
    x.next c = x := by
  cases c with
  | provide U k | globalProvide U k v => exact absurd hc (by simp [Call.isProvision])
  | require U k | globalRequire U k => cases x <;> first | rfl | cases hx

omit [DecidableEq Ty] in
/-- On a key in `board_` the past speaks of the providers alone. -/
theorem AcceptedAs.of_provisions {k : String} {cs cs' A A' : List (Call Val)} {x : KeyPast Ty}
    (h : AcceptedAs k cs A x) (hx : x.onBoard = true) (hp : provisionsOn k A' = provisionsOn k A) :
    AcceptedAs k cs' A' x := by
  cases x with
  | fresh | requested T => cases hx
  | _ => simp only [AcceptedAs, hp] at h ⊢; exact h

/-- **One call on the key**, answered as its past answers it. -/
theorem AcceptedAs.next {k : String} {cs A : List (Call Val)} {x : KeyPast Ty} (h : AcceptedAs k cs A x) (c : Call Val)
    (hk : c.key = k) : AcceptedAs k (cs ++ [c]) (A ++ if x.accepts c then [c] else []) (x.next c) := by
  have hr : ∀ L : List (Call Val), requestsOn k (L ++ [c]) = requestsOn k L ++ if c.isProvision = false then [c] else [] :=
    fun L => by rw [requestsOn_append, requestsOn_singleton]; simp [hk]
  have hp : ∀ L : List (Call Val), provisionsOn k (L ++ [c]) = provisionsOn k L ++ if c.isProvision = true then [c] else [] :=
    fun L => by rw [provisionsOn_append, provisionsOn_singleton]; simp [hk]
  by_cases hx : x.onBoard = true
  · cases ha : x.accepts c with
    | false =>
      rw [KeyPast.next_of_rejected ha]
      exact h.of_provisions hx (by simp)
    | true =>
      cases hc : c.isProvision with
      | false =>
        rw [KeyPast.next_of_request hx hc]
        exact h.of_provisions hx (by simp [hp, hc])
      | true =>
        simp only [if_true]
        cases x with
        | fresh | requested T => cases hx
        | globally T | settled T g => cases c <;> first | cases ha | cases hc
        | locally T =>
          cases c with
          | require U k' | globalRequire U k' | globalProvide U k' v => first | cases ha | cases hc
          | provide U k' =>
            refine ⟨fun q hq => ?_, provisionsOn k A, .provide U k', by rw [hp]; rfl, rfl⟩
            rw [hp] at hq
            rcases List.mem_append.1 hq with hq | hq
            · exact h.1 q hq
            · obtain rfl := List.mem_singleton.1 hq; rfl
        | late T U g =>
          obtain ⟨p, hps, hg, -⟩ := h
          cases c with
          | require W k' | globalRequire W k' | provide W k' => first | cases ha | cases hc
          | globalProvide W k' v =>
            obtain rfl := of_decide_eq_true ha
            rw [KeyPast.next, if_pos rfl]
            exact ⟨p, _, by rw [hp, hps]; rfl, hg, rfl, rfl⟩
  · cases x with
    | locally T | globally T | late T U g | settled T g => exact absurd rfl hx
    | fresh | requested T =>
      obtain ⟨hc, hA, hP⟩ := h
      cases c with
      | require U k' | globalRequire U k' =>
        exact ⟨by rw [hr]; simp [Call.isProvision], by simp [KeyPast.accepts, hr, hc, hA], by
          simp [KeyPast.accepts, hp, hP, Call.isProvision]⟩
      | globalProvide U k' v =>
        exact ⟨_, by simp only [KeyPast.accepts, if_true, hp, hP]; rfl, rfl, rfl⟩
      | provide U k' =>
        first
        | exact ⟨_, by simp only [KeyPast.accepts, if_true, hp, hP]; rfl, rfl, rfl⟩
        | refine ⟨fun q hq => ?_, [], .provide U k', by simp only [KeyPast.accepts, if_true, hp, hP]; rfl, rfl⟩
          simp only [KeyPast.accepts, if_true, hp, hP] at hq
          obtain rfl := List.mem_singleton.1 hq; rfl

/-- **The accepted calls on every key are what its past says.** -/
theorem acceptedAs (name k : String) (cs : List (Call Val)) :
    AcceptedAs k cs (accepted (Blackboard.new name) cs) (keyPast k cs) := by
  induction cs using List.reverseRecOn with
  | nil => exact ⟨rfl, rfl, rfl⟩
  | append_singleton cs c ih =>
    rw [accepted_snoc, accepts_registerAll, keyPast_snoc]
    by_cases hk : c.key = k
    · rw [if_pos hk, hk]; exact ih.next c hk
    · rw [if_neg hk]; exact ih.other hk _

end Comm
end NaoFramework
