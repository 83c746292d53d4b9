import NaoFramework.BrainFailure
/-!
# BrainStored — what the Blackboards store, and whose it is

A Blackboard stores what the last accepted global provision or the last call of a provider accessor put there.  A value
is stamped with the library of the module that stored it, so that the stored values say which libraries they need: a
constructor leaves something of its library exactly where a global provision of it was accepted (`stored_built`,
`exists_stored_built`).
-/
namespace NaoFramework

open Comm (Blackboard Call Accessor AccessorCall Registration Any accepted)
open Modules (Thrown AdapterCall Construction Library LoaderEvent DynamicModule constructionOf)

variable {Ty : Type} {Val : Ty → Type}

/-! ## Stamped values -/

/-- A value and the library whose module stored it. -/
abbrev Stored (Val : Ty → Type) (T : Ty) : Type := Val T × String

def Modules.AdapterCall.stamp (file : String) : AdapterCall Val → AdapterCall (Stored Val)
  | .require T key => .require T key
  | .provide T key => .provide T key
  | .globalProvide T key value => .globalProvide T key (value, file)
  | .others wave => .others wave
  | .globalRequire wave T key => .globalRequire wave T key

def Modules.Construction.stamp (file : String) (c : Construction Val) : Construction (Stored Val) :=
  ⟨c.calls.map (AdapterCall.stamp file), c.ending⟩

def Modules.Library.stamp (file : String) (l : Library Val) : Library (Stored Val) :=
  ⟨l.factory.map (Construction.stamp file), l.dump⟩

def Comm.AccessorCall.stamp (file : String) : AccessorCall Val → AccessorCall (Stored Val)
  | .require T key => .require T key
  | .provide T key input => .provide T key (input, file)

/-- What the constructor of a load stores bears the name of the file that is loaded. -/
def Core.Brain.Command.stamp : Core.Brain.Command Val → Core.Brain.Command (Stored Val)
  | .createWave inputs => .createWave inputs
  | .addDynamicModule inputs found => .addDynamicModule inputs (found.map (Library.stamp (inputs.getD 2 "")))
  | .execute inputs => .execute inputs

/-! ## What is stored -/

namespace Comm
namespace Blackboard

/-- The value `board_` holds on a key, if it holds one. -/
def stored (b : Blackboard Val) (k : String) : Any Val := (b.board.lookup k).join

theorem stored_perform (b : Blackboard Val) (a : AccessorCall Val) (k : String) :
    (b.perform a).stored k = (a.storedOn k).or (b.stored k) := by
  unfold stored
  rw [lookup_perform]
  cases a.storedOn k <;> rfl

variable [DecidableEq Ty]

theorem stored_after (b : Blackboard Val) (c : Call Val) (k : String) :
    (b.after c).stored k = if b.accepts c then (c.storedOn k).or (b.stored k) else b.stored k := by
  unfold stored
  rw [board_after]
  split
  · rw [lookup_enter]
    split
    · cases c.storedOn k <;> cases b.board.lookup k <;> rfl
    · rename_i hc
      have hs : c.storedOn k = none := by
        rw [Option.eq_none_iff_forall_ne_some]
        intro x hx
        exact hc ⟨(Call.of_storedOn hx).1, (Call.of_storedOn hx).2.1⟩
      rw [hs, Option.none_or]
  · rfl

/-- **What a sequence of registrations leaves stored**: the value of the last accepted global provision. -/
theorem stored_registerAll (b : Blackboard Val) (cs : List (Call Val)) (k : String) :
    (b.registerAll cs).stored k = ((accepted b cs).filterMap (Call.storedOn k)).getLast?.or (b.stored k) := by
  induction cs using List.reverseRecOn with
  | nil => rfl
  | append_singleton cs c ih =>
    rw [registerAll_snoc, accepted_snoc, stored_after, ih]
    cases (b.registerAll cs).accepts c with
    | false => simp
    | true =>
      rw [if_pos rfl, if_pos rfl, List.filterMap_append, List.getLast?_append, Option.or_assoc]
      cases hs : c.storedOn k <;> simp [hs]

end Blackboard
end Comm

namespace Core
namespace Brain

/-- The value on a key of a Blackboard. -/
def stored (b : Brain Val) (board : Nat) (k : String) : Any Val := (b.blackboards.at? board).bind (·.stored k)

variable {b b' : Brain Val}

theorem stored_of_nil {b : Brain Val} (h : b.blackboards = []) (board : Nat) (k : String) : b.stored board k = none := by
  rw [stored, h]; rfl

theorem stored_modifyAt (b : Brain Val) (it : Nat) (f : Blackboard Val → Blackboard Val) (board : Nat) (k : String)
    (h : board ≠ it ∨ ∀ B, b.blackboards.at? it = some B → (f B).stored k = B.stored k) :
    stored { b with blackboards := b.blackboards.modifyAt it f } board k = b.stored board k := by
  simp only [stored, NodeList.at?_modifyAt]
  split
  · rename_i e
    subst e
    cases hB : b.blackboards.at? board with
    | none => rfl
    | some B => exact (h.resolve_left fun hn => hn rfl) B hB
  · rfl

theorem stored_others (b : Brain Val) (wave : String) (board : Nat) (k : String) :
    (b.others wave).1.stored board k = b.stored board k := by
  simp only [others]
  split
  · rfl
  · simp only [stored, makeWave, NodeList.at?_emplaceFront]
    split
    · rename_i e
      rw [e, NodeList.at?_length]; rfl
    · rfl

theorem stored_createWave (b : Brain Val) (inputs : List String) (board : Nat) (k : String) :
    (b.createWave inputs).2.stored board k = b.stored board k := by
  unfold createWave
  split
  · exact stored_others b _ board k
  · rfl

variable [DecidableEq Ty]

/-- A registration stores nothing on another Blackboard, and a request nothing at all. -/
theorem stored_registerOn (b : Brain Val) (it : Nat) (c : Call Val) (board : Nat) (k : String)
    (h : board ≠ it ∨ c.isProvision = false) : (b.registerOn it c).1.stored board k = b.stored board k := by
  unfold registerOn
  split
  · refine stored_modifyAt b it _ board k (h.imp_right fun hc B' hB' => ?_)
    rename_i B hB
    obtain rfl : B = B' := Option.some.inj (hB.symm.trans hB')
    have hs : c.storedOn k = none := by cases c <;> first | rfl | cases hc
    exact (B.stored_after c k).trans (by rw [hs, Option.none_or, ite_self])
  · rfl

theorem stored_adapterCall (own : Nat) (b : Brain Val) (c : AdapterCall Val) {board : Nat} (h : board ≠ own) (k : String) :
    (adapterCall own b c).1.stored board k = b.stored board k := by
  cases c with
  | require T key => exact stored_registerOn b own _ board k (Or.inl h)
  | provide T key => exact stored_registerOn b own _ board k (Or.inl h)
  | globalProvide T key v => exact stored_registerOn b own _ board k (Or.inl h)
  | others wave => exact stored_others b wave board k
  | globalRequire wave T key =>
    simp only [adapterCall]
    split
    · exact (stored_registerOn _ _ _ board k (Or.inr rfl)).trans (stored_others b wave board k)
    · exact stored_others b wave board k

theorem stored_construct (own : Nat) {board : Nat} (h : board ≠ own) (k : String) :
    ∀ (cs : List (AdapterCall Val)) (b : Brain Val), (construct own b cs).1.stored board k = b.stored board k
  | [], _ => rfl
  | c :: cs, b => (stored_construct own h k cs (adapterCall own b c).1).trans (stored_adapterCall own b c h k)

/-- **What a constructor leaves stored** on its own Blackboard. -/
theorem stored_construct_own (hi : b.Inv) (h : b.OneToOne) {wave : String} {w : BrainWave String (DynamicModule Ty)}
    {own : Nat} (hw : b.waves.lookup wave = some (w, own)) (cs : List (AdapterCall Val)) (k : String) :
    (construct own b cs).1.stored own k =
      ((accepted (b.boardOf wave) (cs.flatMap (onWave wave wave))).filterMap (Call.storedOn k)).getLast?.or
        (b.stored own k) := by
  have hb := (construct_builds own cs b hi.coherent).1
  have hl := construct_leaves own wave w cs b hi h hw
  have hB := boardOf_eq (hb.inv hi) (hb.waves wave _ hw)
  rw [stored, hB, hl.boards wave, stored, boardOf_eq hi hw]
  exact Blackboard.stored_registerAll _ _ k

theorem stored_call (b : Brain Val) (it : Nat) (a : AccessorCall Val) {board : Nat} {k : String} {x : Sigma Val}
    (hx : (b.step (.call it a)).stored board k = some x) : b.stored board k = some x ∨ a.storedOn k = some x := by
  simp only [step] at hx
  split at hx
  · simp only [stored, NodeList.at?_modifyAt] at hx
    split at hx
    · rename_i e
      cases hB : b.blackboards.at? board with
      | none => rw [hB] at hx; cases hx
      | some B =>
        rw [hB] at hx
        have hp := (B.stored_perform a k).symm.trans hx
        rcases Option.or_eq_some_iff.1 hp with ha | ⟨-, hB'⟩
        · exact Or.inr ha
        · exact Or.inl (by rw [stored, hB]; exact hB')
    · exact Or.inl hx
  · exact Or.inl hx

/-! ## Stamped loads -/

omit [DecidableEq Ty] in
theorem constructionOf_stamp (file : String) (found : Except String (Library Val)) :
    constructionOf (found.map (Library.stamp file)) = (constructionOf found).map (Construction.stamp file) := by
  match found with
  | .error message | .ok ⟨.error message, dump⟩ | .ok ⟨.ok c, .error message⟩ | .ok ⟨.ok c, .ok ()⟩ => rfl

omit [DecidableEq Ty] in
/-- A value a module stores bears the name of its library. -/
theorem storedOn_stamp {file k : String} {a : AccessorCall Val} {x : Sigma (Stored Val)}
    (h : (a.stamp file).storedOn k = some x) : x.2.2 = file := by
  cases a with
  | require T key => cases h
  | provide T key v =>
    simp only [Comm.AccessorCall.stamp, AccessorCall.storedOn, Option.ite_none_right_eq_some, Option.some.injEq] at h
    rw [← h.2]

omit [DecidableEq Ty] in
/-- What a constructor stores bears the name of its library. -/
theorem storedOn_of_stamp {file k : String} {x : Sigma (Stored Val)} {wave : String} {c : Construction Val}
    {d : Call (Stored Val)} (hd : d ∈ (c.stamp file).calls.flatMap (onWave wave wave)) (hx : d.storedOn k = some x) :
    x.2.2 = file ∧ d = .globalProvide x.1 k x.2 := by
  obtain ⟨call, hcall, hd⟩ := List.mem_flatMap.1 hd
  obtain ⟨call, -, rfl⟩ := List.mem_map.1 hcall
  cases d with
  | globalProvide T k' v =>
    simp only [Call.storedOn, Option.ite_none_right_eq_some, Option.some.injEq] at hx
    obtain ⟨rfl, rfl⟩ := hx
    refine ⟨?_, rfl⟩
    cases call with
    | globalProvide U key value =>
      simp only [AdapterCall.stamp, onWave, if_true, List.mem_singleton, Call.globalProvide.injEq] at hd
      obtain ⟨rfl, -, hv⟩ := hd
      rw [eq_of_heq hv]
    | _ => simp [AdapterCall.stamp, onWave] at hd
  | _ => cases hx

section

variable {b : Brain (Stored Val)} {wave : String} {w : BrainWave String (DynamicModule Ty)} {own : Nat}

/-- The global provisions of a constructor that a wave's Blackboard accepts. -/
theorem stored_built (hi : b.Inv) (h : b.OneToOne) (hw : b.waves.lookup wave = some (w, own)) {file : String}
    {c : Construction Val} {board : Nat} {k : String} {x : Sigma (Stored Val)}
    (hx : (b.built own file (c.stamp file)).1.stored board k = some x) :
    b.stored board k = some x ∨ (x.2.2 = file ∧
      .globalProvide x.1 k x.2 ∈ accepted (b.boardOf wave) ((c.stamp file).calls.flatMap (onWave wave wave))) := by
  by_cases hb : board = own
  · subst hb
    rw [built, stored_construct_own (hi.logEvent _) ⟨h.size, h.named⟩ hw] at hx
    rcases Option.or_eq_some_iff.1 hx with hl | ⟨-, hx⟩
    · obtain ⟨d, hd, hdx⟩ := List.mem_filterMap.1 (List.mem_of_getLast? hl)
      obtain ⟨hf, rfl⟩ := storedOn_of_stamp (Comm.mem_of_mem_accepted hd) hdx
      exact Or.inr ⟨hf, hd⟩
    · exact Or.inl hx
  · rw [built, stored_construct own hb k] at hx
    exact Or.inl hx

/-- **An accepted global provision leaves something of its library on the Blackboard.** -/
theorem exists_stored_built (hi : b.Inv) (h : b.OneToOne) (hw : b.waves.lookup wave = some (w, own)) {file : String}
    {c : Construction Val} {T : Ty} {k : String} {v : Stored Val T}
    (hc : .globalProvide T k v ∈ accepted (b.boardOf wave) ((c.stamp file).calls.flatMap (onWave wave wave))) :
    ∃ U u, (b.built own file (c.stamp file)).1.stored own k = some ⟨U, u, file⟩ := by
  have hs : (Call.globalProvide T k v).storedOn k = some ⟨T, v⟩ := if_pos rfl
  have hm := List.mem_filterMap.2 ⟨_, hc, hs⟩
  obtain ⟨x, hx⟩ := Option.isSome_iff_exists.1 (List.getLast?_isSome.2 (List.ne_nil_of_mem hm))
  obtain ⟨d, hd, hdx⟩ := List.mem_filterMap.1 (List.mem_of_getLast? hx)
  obtain ⟨hf, -⟩ := storedOn_of_stamp (Comm.mem_of_mem_accepted hd) hdx
  obtain ⟨U, u, f⟩ := x
  obtain rfl : f = file := hf
  refine ⟨U, u, ?_⟩
  rw [built, stored_construct_own (hi.logEvent _) ⟨h.size, h.named⟩ hw]
  exact (congrArg (Option.or · _) hx).trans rfl

end

end Brain
end Core

end NaoFramework
