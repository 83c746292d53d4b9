import NaoFramework.LogFrontend
import Mathlib.Logic.Function.Basic
/-!
# Loggable — objects with a log of their own

A `Loggable` makes the sink of its path when it is constructed and removes it when it is destroyed; a move hands the sink
on by handing on the two strings that name it.  Any number of objects at their addresses go through constructions, moves
and destructions, and each keeps a log of its own exactly as long as no object is constructed under a name that is
itself registered — which a name in a folder never should be — and the file of every object opens (`logs_exact_iff`).

The build is one without `NAO_DEBUG`.
-/
namespace NaoFramework
namespace Log

structure Loggable where
  name : String
  folder : String
  deriving DecidableEq

namespace Loggable

/-- What a move leaves. -/
def movedFrom : Loggable := ⟨"", ""⟩

def path (o : Loggable) : String := folderize o.folder ++ o.name

end Loggable

/-- The live objects, by address. -/
structure Loggables (A : Type) where
  frontend : Frontend
  objects : A → Option Loggable

inductive LoggableOp (A : Type) where
  | construct (a : A) (disk : Disk) (name folder : String)
  | moveConstruct (a other : A)
  | moveAssign (a other : A)
  | destroy (a : A)
  | log (a : A) (message : String) (priority : MessagePriority)

/-- Objects are constructed with a name and a folder. -/
def LoggableOp.Named {A : Type} : LoggableOp A → Prop
  | .construct _ _ name folder => name ≠ "" ∧ folder ≠ ""
  | _ => True

namespace Loggables

variable {A : Type}

/-- One call.  A call on an object that does not exist, a construction over one that does and a move of an object to
itself are skipped; an object whose constructor throws does not come to exist. -/
def step [DecidableEq A] (W : Loggables A) : LoggableOp A → Loggables A
  | .construct a disk name folder =>
    match W.objects a with
    | none =>
      match W.frontend.makeSink false disk name folder with
      | (some _, f) => ⟨f, Function.update W.objects a (some ⟨name, folder⟩)⟩
      | (none, f) => ⟨f, W.objects⟩
    | some _ => W
  | .moveConstruct a other =>
    match W.objects a, W.objects other with
    | none, some o =>
      { W with objects := Function.update (Function.update W.objects other (some .movedFrom)) a (some o) }
    | _, _ => W
  | .moveAssign a other =>
    match W.objects a, W.objects other with
    | some t, some o =>
      if a = other then W
      else
        { frontend := W.frontend.removeSink t.name t.folder
          objects := Function.update (Function.update W.objects other (some .movedFrom)) a (some o) }
    | _, _ => W
  | .destroy a =>
    match W.objects a with
    | some o => ⟨W.frontend.removeSink o.name o.folder, Function.update W.objects a none⟩
    | none => W
  | .log a message priority =>
    match W.objects a with
    | some o => { W with frontend := W.frontend.log o.name o.folder message priority }
    | none => W

def init (opens : String → Bool) (folder : String) : Loggables A := ⟨Frontend.init false opens folder, fun _ => none⟩

def after [DecidableEq A] (opens : String → Bool) (folder : String) (ops : List (LoggableOp A)) : Loggables A :=
  Runs.run step (init opens folder) ops

/-- A live object at `a` that was not moved from, nor given the strings of one that was. -/
def Holds (W : Loggables A) (a : A) (o : Loggable) : Prop := W.objects a = some o ∧ o.name ≠ ""

/-- No two objects have the same path. -/
def Distinct (W : Loggables A) : Prop := ∀ a b o o', W.Holds a o → W.Holds b o' → o.path = o'.path → a = b

/-- The sink `n` is attached, and its file and its filter are those of the path. -/
def Attached (W : Loggables A) (n : Nat) (path : String) : Prop :=
  n ∈ W.frontend.attached ∧
    ∃ s, W.frontend.sinks[n]? = some s ∧ s.file = W.frontend.logFolder ++ path ∧ s.filter = some path

/-- **Every object has its own log**: attached are the root sink and one sink for each object, and a message through an
object is written once, to the file of the object's path. -/
structure HaveTheirLogs [DecidableEq A] (W : Loggables A) : Prop where
  nodup : W.frontend.attached.Nodup
  root : ∃! n, W.Attached n "Log"
  own : ∀ a o, W.Holds a o → ∃! n, W.Attached n o.path
  only : ∀ n ∈ W.frontend.attached, W.Attached n "Log" ∨ ∃ a o, W.Holds a o ∧ W.Attached n o.path
  written : ∀ a o, W.Holds a o → ∀ message priority, (W.step (.log a message priority)).frontend.written =
    W.frontend.written ++ [(W.frontend.logFolder ++ o.path, priority, message)]

/-- An object is constructed under a name that is neither that of the root sink nor the path of another object. -/
def NameIsFree (W : Loggables A) : LoggableOp A → Prop
  | .construct a disk name folder => W.objects a = none →
      disk.creates (W.frontend.logFolder ++ folderize folder) = true →
        name ≠ "Log" ∧ ∀ b o, W.Holds b o → o.path ≠ name
  | _ => True

/-- The file of an object that is constructed opens. -/
def FileOpens (W : Loggables A) : LoggableOp A → Prop
  | .construct a disk name folder => W.objects a = none →
      disk.creates (W.frontend.logFolder ++ folderize folder) = true →
        disk.opens (W.frontend.logFolder ++ (folderize folder ++ name)) = true
  | _ => True

/-! ## Paths -/

/-- A path in a folder has a slash: it is neither the root's name nor empty. -/
theorem slash_mem_path {folder : String} (hf : folder ≠ "") (name : String) : '/' ∈ (folderize folder ++ name).toList := by
  have hlast : '/' ∈ (folderize folder).toList := by
    unfold folderize
    split
    · simp
    · rename_i hs
      cases hl : folder.toList.getLast? with
      | none => exact absurd (String.toList_eq_nil_iff.1 (List.getLast?_eq_none_iff.1 hl)) hf
      | some c =>
        obtain rfl : c = '/' := by simpa [hl] using hs
        exact List.mem_of_getLast? hl
  rw [String.toList_append]
  exact List.mem_append_left _ hlast

/-! ## The invariant -/

/-- **The invariant**: registered are the root and the paths of the objects. -/
structure Inv (W : Loggables A) : Prop where
  frontend : W.frontend.Inv
  registered : ∀ k, k ∈ W.frontend.availableSinks ↔ k = "Log" ∨ ∃ a o, W.Holds a o ∧ o.path = k
  folder : ∀ a o, W.objects a = some o → o = .movedFrom ∨ (o.name ≠ "" ∧ o.folder ≠ "")
  distinct : W.Distinct

variable {W : Loggables A}

theorem holds_iff (h : W.Inv) {a : A} {o : Loggable} (ha : W.objects a = some o) : W.Holds a o ↔ o ≠ .movedFrom := by
  constructor
  · rintro ⟨-, hn⟩ rfl
    exact hn rfl
  · intro hm
    exact ⟨ha, ((h.folder a o ha).resolve_left hm).1⟩

theorem Inv.path_ne (h : W.Inv) {a : A} {o : Loggable} (ho : W.Holds a o) {k : String} (hk : '/' ∉ k.toList) :
    o.path ≠ k := by
  have hm := (holds_iff h ho.1).1 ho
  rintro rfl
  exact hk (slash_mem_path ((h.folder a o ho.1).resolve_left hm).2 _)

/-- An attached sink of a path is the one that is registered under it. -/
theorem Inv.attached_iff (h : W.Inv) {n : Nat} {k : String} :
    W.Attached n k ↔ W.frontend.availableSinks.lookup k = some n := by
  constructor
  · rintro ⟨hn, s, hs, -, hfilter⟩
    obtain ⟨k', hk'⟩ := (h.frontend.attached n).1 hn
    obtain rfl := Option.some.inj (hs.symm.trans (h.frontend.sinks k' n hk'))
    exact Option.some.inj hfilter ▸ hk'
  · intro hk
    exact ⟨(h.frontend.attached n).2 ⟨k, hk⟩, _, h.frontend.sinks k n hk, rfl, rfl⟩

theorem Inv.existsUnique (h : W.Inv) {k : String} (hk : k ∈ W.frontend.availableSinks) : ∃! n, W.Attached n k := by
  obtain ⟨n, hn⟩ := UnorderedMap.exists_lookup hk
  refine ⟨n, h.attached_iff.2 hn, fun n' hn' => ?_⟩
  exact Option.some.inj ((h.attached_iff.1 hn').symm.trans hn)

theorem filterMap_eq_toList {α β : Type} {l : List α} {f : α → Option β} {a : α} (hl : l.Nodup) (ha : a ∈ l)
    (hn : ∀ x ∈ l, x ≠ a → f x = none) : l.filterMap f = (f a).toList := by
  obtain ⟨s, t, rfl⟩ := List.append_of_mem ha
  have hst : a ∉ s ∧ a ∉ t := by
    have := List.nodup_middle.1 hl
    simpa using (List.nodup_cons.1 this).1
  have hs : s.filterMap f = [] :=
    List.filterMap_eq_nil_iff.2 fun x hx => hn x (by simp [hx]) fun e => hst.1 (e ▸ hx)
  have ht : t.filterMap f = [] :=
    List.filterMap_eq_nil_iff.2 fun x hx => hn x (by simp [hx]) fun e => hst.2 (e ▸ hx)
  rw [List.filterMap_append, hs, List.nil_append, List.filterMap_cons, ht]
  cases f a <;> rfl

/-- **A message under a registered path is written once**, to the file of the path, if that opened. -/
theorem Inv.written (h : W.Inv) {client subfolder : String}
    (hk : folderize subfolder ++ client ∈ W.frontend.availableSinks) (message : String) (priority : MessagePriority) :
    (W.frontend.log client subfolder message priority).written = W.frontend.written ++
      if W.frontend.opened (folderize subfolder ++ client) then
        [(W.frontend.logFolder ++ (folderize subfolder ++ client), priority, message)]
      else [] := by
  obtain ⟨n, hn⟩ := UnorderedMap.exists_lookup hk
  refine congrArg (W.frontend.written ++ ·) ?_
  refine (filterMap_eq_toList h.frontend.nodup ((h.frontend.attached n).2 ⟨_, hn⟩) fun n' hn' hne => ?_).trans ?_
  · obtain ⟨k', hk'⟩ := (h.frontend.attached n').1 hn'
    have hkk : k' ≠ folderize subfolder ++ client := by
      rintro rfl
      exact hne (Option.some.inj (hk'.symm.trans hn))
    simp [Frontend.lineOf, h.frontend.sinks k' n' hk', Sink.accepts, hkk]
  · simp only [Frontend.lineOf, h.frontend.sinks _ n hn, Sink.accepts, decide_true, Bool.true_and]
    split <;> rfl

/-- A name that is free is not registered. -/
theorem Inv.notMem_of_free (h : W.Inv) {name : String} (hfree : name ≠ "Log" ∧ ∀ b o, W.Holds b o → o.path ≠ name) :
    name ∉ W.frontend.availableSinks := by
  rw [h.registered]
  rintro (rfl | ⟨b, o, ho, he⟩)
  · exact hfree.1 rfl
  · exact hfree.2 b o ho he

/-- The file of every object is open. -/
def AllOpen (W : Loggables A) : Prop := ∀ k ∈ W.frontend.availableSinks, k ≠ "Log" → W.frontend.opened k = true

variable [DecidableEq A]

theorem Inv.haveTheirLogs_iff (h : W.Inv) : W.HaveTheirLogs ↔ W.AllOpen := by
  have hwritten : ∀ a o, W.Holds a o → ∀ message priority, (W.step (.log a message priority)).frontend.written =
      W.frontend.written ++ if W.frontend.opened o.path then [(W.frontend.logFolder ++ o.path, priority, message)] else [] := by
    intro a o ho message priority
    simp only [step, ho.1]
    exact h.written ((h.registered _).2 (Or.inr ⟨a, o, ho, rfl⟩)) message priority
  constructor
  · intro hl k hk hroot
    obtain ⟨a, o, ho, rfl⟩ := ((h.registered k).1 hk).resolve_left hroot
    have he := (hwritten a o ho "" .info).symm.trans (hl.written a o ho "" .info)
    by_contra hn
    rw [if_neg hn, List.append_right_inj] at he
    cases he
  · intro hopen
    refine ⟨h.frontend.nodup, h.existsUnique ((h.registered _).2 (Or.inl rfl)),
      fun a o ho => h.existsUnique ((h.registered _).2 (Or.inr ⟨a, o, ho, rfl⟩)), fun n hn => ?_, fun a o ho message priority => ?_⟩
    · obtain ⟨k, hk⟩ := (h.frontend.attached n).1 hn
      have hmem : k ∈ W.frontend.availableSinks := AList.lookup_isSome.1 (by rw [hk]; rfl)
      rcases (h.registered k).1 hmem with rfl | ⟨a, o, ho, rfl⟩
      · exact Or.inl (h.attached_iff.2 hk)
      · exact Or.inr ⟨a, o, ho, h.attached_iff.2 hk⟩
    · have hmem := (h.registered _).2 (Or.inr ⟨a, o, ho, rfl⟩)
      rw [hwritten a o ho, if_pos (hopen _ hmem (h.path_ne ho (by decide)))]

/-! ## One call -/

/-- The objects after a destruction. -/
theorem holds_destroy {a : A} {o : Loggable} (ha : W.objects a = some o) (b : A) (x : Loggable) :
    (W.step (.destroy a)).Holds b x ↔ b ≠ a ∧ W.Holds b x := by
  simp only [step, ha, Holds, Function.update_apply]
  by_cases hb : b = a
  · simp [hb]
  · simp [hb]

/-- **A destruction takes one path away.** -/
theorem destroy_inv (h : W.Inv) (a : A) : (W.step (.destroy a)).Inv := by
  cases ha : W.objects a with
  | none =>
    simp only [step, ha]
    exact h
  | some o =>
    have hholds := holds_destroy ha
    have hother : ∀ k, (k = "Log" ∨ ∃ b x, b ≠ a ∧ W.Holds b x ∧ x.path = k) → k ≠ o.path := by
      intro k hk
      by_cases ho : o = .movedFrom
      · rcases hk with rfl | ⟨b, x, -, hx, rfl⟩
        · rw [ho]; decide
        · rw [ho]
          exact h.path_ne hx (by decide)
      · have hoa := (holds_iff h ha).2 ho
        rcases hk with rfl | ⟨b, x, hb, hx, rfl⟩
        · exact (h.path_ne hoa (by decide)).symm
        · exact fun he => hb (h.distinct b a x o hx hoa he)
    have hf : (W.step (.destroy a)).frontend = W.frontend.removeSink o.name o.folder := by simp only [step, ha]
    have hobj : (W.step (.destroy a)).objects = Function.update W.objects a none := by simp only [step, ha]
    refine ⟨?_, fun k => ?_, fun b x hb => ?_, fun b b' x x' hx hx' => ?_⟩
    · rw [hf]
      exact Frontend.removeSink_inv h.frontend _ _
    · rw [hf, Frontend.mem_removeSink, h.registered]
      simp only [hholds]
      constructor
      · rintro ⟨hk, rfl | ⟨b, x, hx, rfl⟩⟩
        · exact Or.inl rfl
        · refine Or.inr ⟨b, x, ⟨?_, hx⟩, rfl⟩
          rintro rfl
          obtain rfl := Option.some.inj (hx.1.symm.trans ha)
          exact hk rfl
      · rintro (rfl | ⟨b, x, ⟨hb, hx⟩, rfl⟩)
        · exact ⟨hother _ (Or.inl rfl), Or.inl rfl⟩
        · exact ⟨hother _ (Or.inr ⟨b, x, hb, hx, rfl⟩), Or.inr ⟨b, x, hx, rfl⟩⟩
    · rw [hobj, Function.update_apply] at hb
      split at hb
      · cases hb
      · exact h.folder b x hb
    · exact h.distinct b b' x x' ((hholds b x).1 hx).2 ((hholds b' x').1 hx').2

/-- **A move hands the path on.** -/
theorem moveConstruct_inv (h : W.Inv) (a other : A) : (W.step (.moveConstruct a other)).Inv := by
  cases ha : W.objects a with
  | some t =>
    simp only [step, ha]
    exact h
  | none =>
    cases hb : W.objects other with
    | none =>
      simp only [step, ha, hb]
      exact h
    | some o =>
      have hholds : ∀ c x, (W.step (.moveConstruct a other)).Holds c x ↔
          (c = a ∧ W.Holds other x) ∨ (c ≠ other ∧ W.Holds c x) := by
        intro c x
        simp only [step, ha, hb, Holds, Function.update_apply]
        by_cases hca : c = a
        · subst hca
          simp [ha]
        · by_cases hcb : c = other
          · subst hcb
            simp [hca, Loggable.movedFrom]
            rintro rfl
            rfl
          · simp [hca, hcb]
      have hf : (W.step (.moveConstruct a other)).frontend = W.frontend := by simp only [step, ha, hb]
      have hobj : (W.step (.moveConstruct a other)).objects =
          Function.update (Function.update W.objects other (some .movedFrom)) a (some o) := by simp only [step, ha, hb]
      refine ⟨by rw [hf]; exact h.frontend, fun k => ?_, fun c x hc => ?_, fun c c' x x' hx hx' he => ?_⟩
      · rw [hf, h.registered]
        simp only [hholds]
        refine or_congr_right ⟨?_, ?_⟩
        · rintro ⟨c, x, hx, rfl⟩
          by_cases hc : c = other
          · exact ⟨a, x, Or.inl ⟨rfl, hc ▸ hx⟩, rfl⟩
          · exact ⟨c, x, Or.inr ⟨hc, hx⟩, rfl⟩
        · rintro ⟨c, x, ⟨-, hx⟩ | ⟨-, hx⟩, rfl⟩
          · exact ⟨other, x, hx, rfl⟩
          · exact ⟨c, x, hx, rfl⟩
      · rw [hobj, Function.update_apply] at hc
        split at hc
        · obtain rfl := Option.some.inj hc
          exact h.folder other o hb
        · rw [Function.update_apply] at hc
          split at hc
          · exact Or.inl (Option.some.inj hc).symm
          · exact h.folder c x hc
      · rcases (hholds c x).1 hx with ⟨rfl, hy⟩ | ⟨hc, hy⟩ <;> rcases (hholds c' x').1 hx' with ⟨rfl, hy'⟩ | ⟨hc', hy'⟩
        · rfl
        · exact absurd (h.distinct _ _ x x' hy hy' he).symm hc'
        · exact absurd (h.distinct _ _ x x' hy hy' he) hc
        · exact h.distinct c c' x x' hy hy' he

/-- A move assignment that does something is a destruction and a move construction. -/
theorem step_moveAssign (W : Loggables A) {a other : A} (hne : a ≠ other) :
    W.step (.moveAssign a other) = (W.step (.destroy a)).step (.moveConstruct a other) ∨
      W.step (.moveAssign a other) = W := by
  cases ha : W.objects a with
  | none => exact Or.inr (by simp only [step, ha])
  | some t =>
    cases hb : W.objects other with
    | none => exact Or.inr (by simp only [step, ha, hb])
    | some o =>
      refine Or.inl ?_
      simp only [step, ha, hb, if_neg hne, Function.update_self, Function.update_of_ne (Ne.symm hne)]
      rw [Function.update_comm hne, Function.update_idem]

theorem moveAssign_inv (h : W.Inv) (a other : A) : (W.step (.moveAssign a other)).Inv := by
  by_cases hne : a = other
  · subst hne
    simp only [step, if_true]
    split <;> exact h
  · rcases step_moveAssign W hne with he | he
    · rw [he]
      exact moveConstruct_inv (destroy_inv h a) a other
    · rw [he]
      exact h

theorem log_inv (h : W.Inv) (a : A) (message : String) (priority : MessagePriority) :
    (W.step (.log a message priority)).Inv := by
  cases ha : W.objects a with
  | none =>
    simp only [step, ha]
    exact h
  | some o =>
    simp only [step, ha]
    exact ⟨⟨h.frontend.nodup, h.frontend.attached, h.frontend.sinks⟩, h.registered, h.folder, h.distinct⟩

/-! ### Constructions -/

section

variable {a : A} {disk : Disk} {name folder : String}

theorem step_construct (name : String) (ha : W.objects a = none) (hd : disk.creates (W.frontend.logFolder ++ folderize folder) = true) :
    W.step (.construct a disk name folder) =
      ⟨(W.frontend.makeSink false disk name folder).2, Function.update W.objects a (some ⟨name, folder⟩)⟩ := by
  have hr := Frontend.makeSink_result false name hd
  simp only [step, ha]
  generalize W.frontend.makeSink false disk name folder = r at hr ⊢
  obtain ⟨result, f⟩ := r
  obtain rfl : result = _ := hr
  rfl

theorem holds_construct (hn : name ≠ "") (ha : W.objects a = none)
    (hd : disk.creates (W.frontend.logFolder ++ folderize folder) = true) (b : A) (x : Loggable) :
    (W.step (.construct a disk name folder)).Holds b x ↔ (b = a ∧ x = ⟨name, folder⟩) ∨ W.Holds b x := by
  rw [step_construct name ha hd]
  simp only [Holds, Function.update_apply]
  by_cases hb : b = a
  · subst hb
    simp only [if_true, true_and, ha, Option.some.injEq, reduceCtorEq, false_and, or_false]
    constructor
    · rintro ⟨rfl, -⟩
      rfl
    · rintro rfl
      exact ⟨rfl, hn⟩
  · simp [hb]

/-- **A construction under a free name** registers the object's path. -/
theorem construct_inv (h : W.Inv) (hn : name ≠ "") (hf : folder ≠ "") (ha : W.objects a = none)
    (hd : disk.creates (W.frontend.logFolder ++ folderize folder) = true)
    (hdist : (W.step (.construct a disk name folder)).Distinct)
    (hfree : name ≠ "Log" ∧ ∀ b o, W.Holds b o → o.path ≠ name) : (W.step (.construct a disk name folder)).Inv := by
  have hholds := holds_construct hn ha hd
  have hname := h.notMem_of_free hfree
  have hpath : folderize folder ++ name ∉ W.frontend.availableSinks := by
    rw [h.registered]
    rintro (he | ⟨b, o, ho, he⟩)
    · exact absurd (he ▸ slash_mem_path hf name) (by decide)
    · obtain rfl := hdist b a o ⟨name, folder⟩ ((hholds b o).2 (Or.inr ho)) ((hholds a _).2 (Or.inl ⟨rfl, rfl⟩)) he
      rw [ho.1] at ha; cases ha
  have hk : W.frontend.LooksForItsKey (.makeSink disk name folder) := fun _ => iff_of_false hname hpath
  have hi := Frontend.makeSink_inv h.frontend false hk
  obtain ⟨lines, he⟩ := Frontend.makeSink_made false hd hname
  have hs := step_construct name ha hd
  have hkeys : ∀ k, k ∈ (W.step (.construct a disk name folder)).frontend.availableSinks ↔
      k = folderize folder ++ name ∨ k ∈ W.frontend.availableSinks := by
    intro k
    rw [hs, he]
    exact AList.mem_insert _
  refine ⟨by rw [hs]; exact hi, fun k => ?_, fun b x hb => ?_, hdist⟩
  · rw [hkeys, h.registered]
    simp only [hholds]
    constructor
    · rintro (rfl | rfl | ⟨b, x, hx, rfl⟩)
      · exact Or.inr ⟨a, ⟨name, folder⟩, Or.inl ⟨rfl, rfl⟩, rfl⟩
      · exact Or.inl rfl
      · exact Or.inr ⟨b, x, Or.inr hx, rfl⟩
    · rintro (rfl | ⟨b, x, ⟨rfl, rfl⟩ | hx, rfl⟩)
      · exact Or.inr (Or.inl rfl)
      · exact Or.inl rfl
      · exact Or.inr (Or.inr ⟨b, x, hx, rfl⟩)
  · simp only [hs, Function.update_apply] at hb
    split at hb
    · obtain rfl := Option.some.inj hb
      exact Or.inr ⟨hn, hf⟩
    · exact h.folder b x hb

/-- **A construction under a name that is registered** finds a sink, and makes none. -/
theorem free_of_haveTheirLogs (h : W.Inv) (hn : name ≠ "") (hf : folder ≠ "") (ha : W.objects a = none)
    (hd : disk.creates (W.frontend.logFolder ++ folderize folder) = true)
    (hdist : (W.step (.construct a disk name folder)).Distinct)
    (hlogs : (W.step (.construct a disk name folder)).HaveTheirLogs) :
    name ≠ "Log" ∧ ∀ b o, W.Holds b o → o.path ≠ name := by
  have hholds := holds_construct hn ha hd
  have hname : name ∉ W.frontend.availableSinks := by
    intro hname
    have hs := step_construct name ha hd
    have hm : (W.frontend.makeSink false disk name folder).2 = W.frontend := by
      simp only [Frontend.makeSink, if_pos hd, if_pos hname]
    rw [hm] at hs
    obtain ⟨n, hn', -⟩ := hlogs.own a ⟨name, folder⟩ ((hholds a _).2 (Or.inl ⟨rfl, rfl⟩))
    have hatt : W.Attached n (folderize folder ++ name) := by
      rw [hs] at hn'
      exact hn'
    have hmem := AList.lookup_isSome.1 (Option.isSome_iff_exists.2 ⟨n, h.attached_iff.1 hatt⟩)
    rcases (h.registered _).1 hmem with he | ⟨b, o, ho, he⟩
    · exact absurd (he ▸ slash_mem_path hf name) (by decide)
    · obtain rfl := hdist b a o ⟨name, folder⟩ ((hholds b o).2 (Or.inr ho)) ((hholds a _).2 (Or.inl ⟨rfl, rfl⟩)) he
      rw [ho.1] at ha; cases ha
  rw [h.registered] at hname
  exact ⟨fun he => hname (Or.inl he), fun b o ho he => hname (Or.inr ⟨b, o, ho, he⟩)⟩

end

/-! ## Whole sequences -/

/-- **The step**: where every object has its log, it stays so exactly when an object is constructed under a free name. -/
theorem step_cases (h : W.Inv) {op : LoggableOp A} (hn : op.Named) (hdist : (W.step op).Distinct) :
    (W.NameIsFree op → (W.step op).Inv) ∧ ((W.step op).HaveTheirLogs → W.NameIsFree op) := by
  cases op with
  | moveConstruct a other => exact ⟨fun _ => moveConstruct_inv h a other, fun _ => trivial⟩
  | moveAssign a other => exact ⟨fun _ => moveAssign_inv h a other, fun _ => trivial⟩
  | destroy a => exact ⟨fun _ => destroy_inv h a, fun _ => trivial⟩
  | log a message priority => exact ⟨fun _ => log_inv h a message priority, fun _ => trivial⟩
  | construct a disk name folder =>
    refine ⟨fun hfree => ?_, fun hlogs ha hd => free_of_haveTheirLogs h hn.1 hn.2 ha hd hdist hlogs⟩
    cases ha : W.objects a with
    | some o =>
      simp only [step, ha]
      exact h
    | none =>
      by_cases hd : disk.creates (W.frontend.logFolder ++ folderize folder) = true
      · exact construct_inv h hn.1 hn.2 ha hd hdist (hfree ha hd)
      · simp only [step, ha, Frontend.makeSink, if_neg hd]
        exact h

/-- A call that constructs nothing leaves the sinks that stay their files. -/
theorem opened_step {op : LoggableOp A} (hop : ∀ a disk name folder, op ≠ .construct a disk name folder) {k : String}
    (hk : k ∈ (W.step op).frontend.availableSinks) :
    k ∈ W.frontend.availableSinks ∧ (W.step op).frontend.opened k = W.frontend.opened k := by
  have hremove : ∀ client subfolder, k ∈ (W.frontend.removeSink client subfolder).availableSinks →
      k ∈ W.frontend.availableSinks ∧ (W.frontend.removeSink client subfolder).opened k = W.frontend.opened k := by
    intro client subfolder hk
    obtain ⟨hne, hk⟩ := (Frontend.mem_removeSink _ _ _ _).1 hk
    exact ⟨hk, Frontend.opened_removeSink _ _ _ hne⟩
  cases op with
  | construct a disk name folder => exact absurd rfl (hop a disk name folder)
  | moveConstruct a other =>
    simp only [step] at hk ⊢
    split at hk
    · exact ⟨hk, rfl⟩
    · exact ⟨hk, rfl⟩
  | moveAssign a other =>
    simp only [step] at hk ⊢
    split at hk
    · split at hk
      · rename_i e
        rw [if_pos e]
        exact ⟨hk, rfl⟩
      · rename_i e
        rw [if_neg e]
        exact hremove _ _ hk
    · exact ⟨hk, rfl⟩
  | destroy a =>
    simp only [step] at hk ⊢
    split at hk
    · exact hremove _ _ hk
    · exact ⟨hk, rfl⟩
  | log a message priority =>
    simp only [step] at hk ⊢
    split at hk
    · exact ⟨hk, rfl⟩
    · exact ⟨hk, rfl⟩

/-- **The files stay open exactly when that of an object that is constructed opens.** -/
theorem step_allOpen (h : W.Inv) (ho : W.AllOpen) {op : LoggableOp A} (hn : op.Named) (hfree : W.NameIsFree op) :
    (W.step op).AllOpen ↔ W.FileOpens op := by
  have hstays : (∀ a disk name folder, op ≠ .construct a disk name folder) → (W.step op).AllOpen := by
    intro hop k hk hroot
    obtain ⟨hk₀, he⟩ := opened_step hop hk
    exact he.trans (ho k hk₀ hroot)
  cases op with
  | moveConstruct a other => exact iff_of_true (hstays fun _ _ _ _ e => by cases e) trivial
  | moveAssign a other => exact iff_of_true (hstays fun _ _ _ _ e => by cases e) trivial
  | destroy a => exact iff_of_true (hstays fun _ _ _ _ e => by cases e) trivial
  | log a message priority => exact iff_of_true (hstays fun _ _ _ _ e => by cases e) trivial
  | construct a disk name folder =>
    cases ha : W.objects a with
    | some o =>
      refine iff_of_true ?_ fun hnone => by rw [ha] at hnone; cases hnone
      simp only [step, ha]
      exact ho
    | none =>
      by_cases hd : disk.creates (W.frontend.logFolder ++ folderize folder) = true
      · have hname := h.notMem_of_free (hfree ha hd)
        have hopened := Frontend.opened_makeSink h.frontend false hd hname
        have hpath : folderize folder ++ name ≠ "Log" := fun he =>
          absurd (he ▸ slash_mem_path hn.2 name) (by decide)
        obtain ⟨lines, hm⟩ := Frontend.makeSink_made false hd hname
        have hkeys : ∀ k, k ∈ (W.frontend.makeSink false disk name folder).2.availableSinks ↔
            k = folderize folder ++ name ∨ k ∈ W.frontend.availableSinks := by
          intro k
          rw [hm]
          exact AList.mem_insert _
        rw [AllOpen, step_construct name ha hd]
        simp only [hkeys, hopened]
        constructor
        · intro hall _ _
          have := hall _ (Or.inl rfl) hpath
          rwa [if_pos rfl] at this
        · intro hopens k hk hroot
          split
          · exact hopens ha hd
          · rename_i hne
            exact ho k (hk.resolve_left hne) hroot
      · refine iff_of_true ?_ fun _ hd' => absurd hd' hd
        simp only [step, ha, Frontend.makeSink, if_neg hd]
        exact ho

omit [DecidableEq A] in
theorem mem_init (opens : String → Bool) (folder : String) (k : String) :
    k ∈ (init opens folder : Loggables A).frontend.availableSinks ↔ k = "Log" := by
  have hf : (init opens folder : Loggables A).frontend.availableSinks =
      AList.insert (folderize "" ++ "Log") 0 (∅ : UnorderedMap String Nat) := rfl
  rw [hf, AList.mem_insert, or_iff_left (AList.notMem_empty k)]
  exact Iff.of_eq (congrArg (k = ·) (by decide))

omit [DecidableEq A] in
theorem init_inv (opens : String → Bool) (folder : String) : (init opens folder : Loggables A).Inv := by
  refine ⟨Frontend.init_inv opens folder, fun k => ?_, fun a o ho => (by cases ho), fun a b o o' ho => (by cases ho.1)⟩
  rw [mem_init]
  refine ⟨Or.inl, fun hk => hk.elim id ?_⟩
  rintro ⟨a, o, ho, -⟩
  cases ho.1

/-- **When every object has its own log**: over every sequence of calls in which no two objects ever have the same path,
exactly when no object is constructed under the root's name or under the path of another object, and the file of every
object that is constructed opens. -/
theorem logs_exact_iff (opens : String → Bool) (folder : String) (ops : List (LoggableOp A)) (hn : ∀ op ∈ ops, op.Named)
    (hd : ∀ pre post, ops = pre ++ post → (after opens folder pre).Distinct) :
    (∀ pre post, ops = pre ++ post → (after opens folder pre).HaveTheirLogs) ↔
      Runs.AtEvery (fun pre op => (after opens folder pre).NameIsFree op ∧ (after opens folder pre).FileOpens op) ops := by
  have hR : Runs.AtEvery (fun pre op => LoggableOp.Named op ∧ ((after opens folder pre).step op).Distinct) ops := by
    intro pre op post hs
    refine ⟨hn op (by simp [hs]), ?_⟩
    have := hd (pre ++ [op]) post (by simp [hs])
    rwa [after, Runs.run_snoc] at this
  have hi : (init opens folder : Loggables A).Inv := init_inv opens folder
  have ho : (init opens folder : Loggables A).AllOpen := fun k hk hroot => absurd ((mem_init opens folder k).1 hk) hroot
  refine (Runs.forall_prefix_iff (hi.haveTheirLogs_iff.2 ho)).trans (Runs.atEvery_congr_of hR fun pre op hpre hG => ?_)
  obtain ⟨hpre, hnamed, hdist⟩ := Runs.atEvery_snoc.1 hpre
  -- the invariant, with every file open
  have hstep : ∀ (W : Loggables A) op, W.Inv ∧ W.AllOpen →
      (LoggableOp.Named op ∧ (W.step op).Distinct) ∧ W.NameIsFree op ∧ W.FileOpens op →
        (W.step op).Inv ∧ (W.step op).AllOpen := fun W op h hG =>
    ⟨(step_cases h.1 hG.1.1 hG.1.2).1 hG.2.1, (step_allOpen h.1 h.2 hG.1.1 hG.2.1).2 hG.2.2⟩
  obtain ⟨hinv, hopen⟩ : (after opens folder pre).Inv ∧ (after opens folder pre).AllOpen :=
    Runs.run_invariant_of_atEvery ⟨hi, ho⟩ hstep (hpre.and hG)
  obtain ⟨hkeeps, hfree⟩ := step_cases hinv hnamed hdist
  constructor
  · intro hlogs
    have hf := hfree hlogs
    exact ⟨hf, (step_allOpen hinv hopen hnamed hf).1 ((hkeeps hf).haveTheirLogs_iff.1 hlogs)⟩
  · rintro ⟨hf, hopens⟩
    exact (hkeeps hf).haveTheirLogs_iff.2 ((step_allOpen hinv hopen hnamed hf).2 hopens)

/-- Two objects of one name, in two folders. -/
theorem logs_two_folders :
    (∀ pre post, ([.construct 0 .good "Reader" "Modules", .construct 1 .good "Reader" "BrainWave"] :
        List (LoggableOp Nat)) = pre ++ post → (after (fun _ => true) "log" pre).HaveTheirLogs) ↔
      Runs.AtEvery (fun pre op => (after (fun _ => true) "log" pre).NameIsFree op ∧
          (after (fun _ => true) "log" pre).FileOpens op)
        ([.construct 0 .good "Reader" "Modules", .construct 1 .good "Reader" "BrainWave"] : List (LoggableOp Nat)) := by
  have hfirst : ∀ c x, ((init (fun _ => true) "log" : Loggables Nat).step (.construct 0 .good "Reader" "Modules")).Holds c x →
      c = 0 ∧ x = ⟨"Reader", "Modules"⟩ := by
    intro c x hx
    rcases (holds_construct (by decide) rfl rfl c x).1 hx with hc | hx
    · exact hc
    · cases hx.1
  refine logs_exact_iff (fun _ => true) "log" _ ?_ ((Runs.forall_prefix_iff ?_).2 ?_)
  · intro op hop
    simp only [List.mem_cons, List.not_mem_nil, or_false] at hop
    rcases hop with rfl | rfl <;> exact ⟨by decide, by decide⟩
  · intro a b o o' ho
    cases ho.1
  · refine Runs.atEvery_cons.2 ⟨fun a b o o' ho ho' _ => ?_, Runs.atEvery_cons.2 ⟨fun a b o o' ho ho' he => ?_,
      Runs.atEvery_nil _⟩⟩
    · exact (hfirst a o ho).1.trans (hfirst b o' ho').1.symm
    · rcases (holds_construct (by decide) rfl rfl a o).1 ho with ⟨rfl, rfl⟩ | ho <;>
        rcases (holds_construct (by decide) rfl rfl b o').1 ho' with ⟨rfl, rfl⟩ | ho'
      · rfl
      · obtain ⟨rfl, rfl⟩ := hfirst b o' ho'
        exact absurd he (by decide)
      · obtain ⟨rfl, rfl⟩ := hfirst a o ho
        exact absurd he (by decide)
      · exact (hfirst a o ho).1.trans (hfirst b o' ho').1.symm

/-- An object is called as the root sink, and gets no sink of its own. -/
theorem logs_not_had :
    ¬ ∀ pre post, ([.construct 0 .good "Log" "Modules"] : List (LoggableOp Nat)) = pre ++ post →
      (after (fun _ => true) "log" pre).HaveTheirLogs := by
  intro h
  obtain ⟨n, ⟨hn, s, hs, -, hf⟩, -⟩ := (h [.construct 0 .good "Log" "Modules"] [] rfl).own 0 ⟨"Log", "Modules"⟩
    ⟨rfl, by decide⟩
  obtain rfl := List.mem_singleton.1 hn
  obtain rfl := Option.some.inj hs
  exact absurd hf (by decide)

end Loggables
end Log
end NaoFramework
