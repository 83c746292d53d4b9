import NaoFramework.Runs
import Mathlib.Data.Option.Basic
import Mathlib.Logic.Function.Basic
/-!
# ConsoleHistory — one terminal, many consoles

The library readline has one history.  A `Console` that is to prompt swaps its own into it, after the console that
prompted last has saved its own out of it: a console's history is in readline or in `history_`, whichever `currentConsole_`
says.  What a console should find there is described by what was entered on it (`Past`), and it does, unless the console
that prompted last has been destroyed: `currentConsole_` still points to it (`histories_exact_iff`).
-/
namespace NaoFramework
namespace Console

/-- Readline's history, the static pointer, and the live consoles with their `history_`, by address. -/
structure Terminal (A : Type) where
  history : List String
  currentConsole : Option A
  consoles : A → Option (Option (List String))

def emptyHistory : List String := []

/-- `readline` gives a line, or nothing at the end of input. -/
inductive ConsoleOp (A : Type) where
  | construct (a : A)
  | readLine (a : A) (input : Option String)
  | destroy (a : A)

variable {A : Type} [DecidableEq A]

namespace Terminal

/-- Where there is no console there is nothing to save into. -/
def saveState (t : Terminal A) (a : A) : Terminal A :=
  match t.consoles a with
  | some _ => { t with consoles := Function.update t.consoles a (some (some t.history)) }
  | none => t

def reserveConsole (t : Terminal A) (a : A) : Terminal A :=
  if t.currentConsole = some a then t
  else
    let t := match t.currentConsole with
      | some b => t.saveState b
      | none => t
    { t with history := (t.consoles a).join.getD emptyHistory, currentConsole := some a }

/-- Up to the execution of the line. -/
def readLine (t : Terminal A) (a : A) (input : Option String) : Terminal A :=
  let t := t.reserveConsole a
  match input with
  | none => t
  | some buffer => if buffer ≠ "" then { t with history := t.history ++ [buffer] } else t

/-- One call.  A construction over a console that exists and a call on one that does not are skipped. -/
def step (t : Terminal A) : ConsoleOp A → Terminal A
  | .construct a => if (t.consoles a).isSome then t else { t with consoles := Function.update t.consoles a (some none) }
  | .readLine a input => if (t.consoles a).isSome then t.readLine a input else t
  | .destroy a => { t with consoles := Function.update t.consoles a none }

def after (ops : List (ConsoleOp A)) : Terminal A := Runs.run step ⟨[], none, fun _ => none⟩ ops

end Terminal

/-! ## What was entered -/

/-- What a sequence of calls says of the consoles: where they live, where the last prompt was, the non-empty lines that
were entered on each, and the lines each inherited, of a console that was destroyed at its address after the last
prompt. -/
structure Past (A : Type) where
  live : A → Bool
  last : Option A
  entered : A → List String
  inherited : A → List String

namespace Past

def step (p : Past A) : ConsoleOp A → Past A
  | .construct a =>
    if p.live a then p
    else
      { p with
        live := Function.update p.live a true
        entered := Function.update p.entered a []
        inherited := Function.update p.inherited a (if p.last = some a then p.inherited a ++ p.entered a else []) }
  | .readLine a input =>
    if p.live a then
      { p with
        last := some a
        entered := Function.update p.entered a (p.entered a ++ input.toList.filter (· ≠ "")) }
    else p
  | .destroy a => { p with live := Function.update p.live a false }

def after (ops : List (ConsoleOp A)) : Past A := Runs.run step ⟨fun _ => false, none, fun _ => [], fun _ => []⟩ ops

/-- Where a console prompts, the console of the last prompt is still there, and it has inherited nothing. -/
def OwnHistory (p : Past A) : ConsoleOp A → Prop
  | .readLine a _ => p.live a = true → (∀ b, p.last = some b → b ≠ a → p.live b = true) ∧ p.inherited a = []
  | _ => True

end Past

/-- **A console prompts with its own history**: what readline holds then are the lines entered on the console, and
`currentConsole_` is followed only to a live console. -/
def Terminal.PromptsRight (t : Terminal A) (p : Past A) : ConsoleOp A → Prop
  | .readLine a _ => (t.consoles a).isSome = true →
      (∀ b, t.currentConsole = some b → b ≠ a → (t.consoles b).isSome = true) ∧
        (t.reserveConsole a).history = p.entered a
  | _ => True

/-! ## The simulation -/

/-- **The invariant**: the truth about a console's lines is in readline for the one that prompted last, and in `history_`
for the others. -/
structure Follows (t : Terminal A) (p : Past A) : Prop where
  live : ∀ a, (t.consoles a).isSome = p.live a
  last : t.currentConsole = p.last
  current : ∀ a, t.currentConsole = some a → t.history = p.inherited a ++ p.entered a
  saved : ∀ a h, t.consoles a = some h → t.currentConsole ≠ some a → h.getD emptyHistory = p.inherited a ++ p.entered a

variable {t : Terminal A} {p : Past A}

/-- Every live console has its lines in `history_`. -/
structure AllSaved (t : Terminal A) (p : Past A) : Prop where
  live : ∀ a, (t.consoles a).isSome = p.live a
  saved : ∀ a h, t.consoles a = some h → h.getD emptyHistory = p.inherited a ++ p.entered a

theorem Follows.saveState (h : Follows t p) {b : A} (hb : t.currentConsole = some b) : AllSaved (t.saveState b) p := by
  cases hc : t.consoles b with
  | none =>
    simp only [Terminal.saveState, hc]
    refine ⟨h.live, fun a saved ha => h.saved a saved ha ?_⟩
    rw [hb]
    rintro ⟨⟩
    rw [hc] at ha; cases ha
  | some saved =>
    simp only [Terminal.saveState, hc]
    refine ⟨fun a => ?_, fun a saved' ha => ?_⟩
    · simp only [← h.live, Function.update_apply]
      split
      · rename_i e
        rw [e, hc]; rfl
      · rfl
    · simp only [Function.update_apply] at ha
      split at ha
      · rename_i e
        obtain rfl := Option.some.inj ha
        exact e ▸ h.current b hb
      · rename_i hne
        refine h.saved a saved' ha ?_
        rw [hb]
        exact fun e => hne (Option.some.inj e).symm

omit [DecidableEq A] in
theorem AllSaved.installed (h : AllSaved t p) {a : A} (ha : (t.consoles a).isSome = true) :
    Follows { t with history := (t.consoles a).join.getD emptyHistory, currentConsole := some a }
      { p with last := some a } where
  live := h.live
  last := rfl
  current b hb := by
    obtain rfl := Option.some.inj hb
    obtain ⟨saved, hs⟩ := Option.isSome_iff_exists.1 ha
    simp only [hs, Option.join_some]
    exact h.saved a saved hs
  saved b saved hs _ := h.saved b saved hs

/-- **A swap**: the console of the last prompt saves its lines, if it is still there, and the one that is to prompt
installs its own. -/
theorem Follows.reserveConsole (h : Follows t p) {a : A} (ha : (t.consoles a).isSome = true) :
    Follows (t.reserveConsole a) { p with last := some a } := by
  unfold Terminal.reserveConsole
  split
  · rename_i hc
    exact ⟨h.live, hc, h.current, h.saved⟩
  · cases hc : t.currentConsole with
    | none =>
      have hs : AllSaved t p := ⟨h.live, fun b saved hb => h.saved b saved hb (by rw [hc]; simp)⟩
      exact hs.installed ha
    | some b =>
      have hs := h.saveState hc
      refine hs.installed ?_
      rw [hs.live, ← h.live]
      exact ha

theorem Follows.readLine (h : Follows t p) {a : A} (ha : (t.consoles a).isSome = true) (input : Option String) :
    Follows (t.readLine a input) { p with
      last := some a
      entered := Function.update p.entered a (p.entered a ++ input.toList.filter (· ≠ "")) } := by
  have hr := h.reserveConsole ha
  have hcur : (t.reserveConsole a).currentConsole = some a := hr.last
  have hnone : Function.update p.entered a (p.entered a ++ []) = p.entered := by
    rw [List.append_nil, Function.update_eq_self]
  cases input with
  | none =>
    simp only [Terminal.readLine, Option.toList_none, List.filter_nil, hnone]
    exact hr
  | some buffer =>
    by_cases hb : buffer = ""
    · simp only [Terminal.readLine, hb, Option.toList_some, ne_eq, not_true_eq_false, if_false, decide_false,
        List.filter_cons_of_neg, Bool.false_eq_true, not_false_eq_true, List.filter_nil, hnone]
      exact hr
    · simp only [Terminal.readLine, hb, Option.toList_some, ne_eq, not_false_eq_true, if_true, decide_true,
        List.filter_cons_of_pos, List.filter_nil]
      refine ⟨hr.live, hr.last, fun b hcb => ?_, fun b saved hs hne => ?_⟩
      · obtain rfl := Option.some.inj (hcur.symm.trans hcb)
        simp only [Function.update_self, ← List.append_assoc, hr.current a hcur]
      · have hba : b ≠ a := fun e => hne (hcur.trans (congrArg some e.symm))
        simp only [Function.update_of_ne hba]
        exact hr.saved b saved hs hne

theorem Follows.construct (h : Follows t p) {a : A} (ha : t.consoles a = none) :
    Follows { t with consoles := Function.update t.consoles a (some none) } { p with
      live := Function.update p.live a true
      entered := Function.update p.entered a []
      inherited := Function.update p.inherited a (if p.last = some a then p.inherited a ++ p.entered a else []) } := by
  refine ⟨fun b => ?_, h.last, fun b hb => ?_, fun b saved hs hne => ?_⟩
  · simp only [Function.update_apply]
    split
    · rfl
    · exact h.live b
  · by_cases hba : b = a
    · subst hba
      have hlast : p.last = some b := h.last.symm.trans hb
      simp only [Function.update_self, List.append_nil, if_pos hlast]
      exact h.current b hb
    · simp only [Function.update_of_ne hba]
      exact h.current b hb
  · by_cases hba : b = a
    · subst hba
      have hlast : ¬ p.last = some b := fun e => hne (h.last.trans e)
      simp only [Function.update_self, Option.some.injEq] at hs
      simp only [← hs, Function.update_self, if_neg hlast]
      rfl
    · simp only [Function.update_of_ne hba] at hs ⊢
      exact h.saved b saved hs hne

theorem Follows.destroy (h : Follows t p) (a : A) :
    Follows { t with consoles := Function.update t.consoles a none } { p with live := Function.update p.live a false } := by
  refine ⟨fun b => ?_, h.last, h.current, fun b saved hs hne => ?_⟩
  · simp only [Function.update_apply]
    split
    · rfl
    · exact h.live b
  · simp only [Function.update_apply] at hs
    split at hs
    · cases hs
    · exact h.saved b saved hs hne

/-- **The step lemma.** -/
theorem Follows.step (h : Follows t p) (op : ConsoleOp A) : Follows (t.step op) (p.step op) := by
  cases op with
  | construct a =>
    simp only [Terminal.step, Past.step, ← h.live]
    split
    · exact h
    · rename_i ha
      exact h.construct (Option.not_isSome_iff_eq_none.1 ha)
  | readLine a input =>
    simp only [Terminal.step, Past.step, ← h.live]
    split
    · rename_i ha
      exact h.readLine ha input
    · exact h
  | destroy a => exact h.destroy a

theorem follows (ops : List (ConsoleOp A)) : Follows (Terminal.after ops) (Past.after ops) := by
  induction ops using List.reverseRecOn with
  | nil => exact ⟨fun _ => rfl, rfl, fun a ha => (by cases ha), fun a saved hs => (by cases hs)⟩
  | append_singleton ops op ih =>
    rw [Terminal.after, Past.after, Runs.run_snoc, Runs.run_snoc]
    exact ih.step op

/-- A prompt is right exactly when the console has a history of its own. -/
theorem Follows.promptsRight_iff (h : Follows t p) (op : ConsoleOp A) : t.PromptsRight p op ↔ p.OwnHistory op := by
  cases op with
  | construct a => exact Iff.rfl
  | destroy a => exact Iff.rfl
  | readLine a input =>
    simp only [Terminal.PromptsRight, Past.OwnHistory, ← h.live, ← h.last]
    refine forall_congr' fun ha => and_congr_right fun _ => ?_
    have hr := h.reserveConsole ha
    rw [hr.current a hr.last]
    simp

/-- **When consoles keep separate histories**: over every sequence of constructions, prompts and destructions, exactly
when no console prompts while the one of the last prompt is destroyed, or after it was put in the place of one that was
destroyed after the last prompt and left it lines. -/
theorem histories_exact_iff (ops : List (ConsoleOp A)) :
    Runs.AtEvery (fun pre op => (Terminal.after pre).PromptsRight (Past.after pre) op) ops ↔
      Runs.AtEvery (fun pre op => (Past.after pre).OwnHistory op) ops :=
  Runs.atEvery_congr fun pre op _ => (follows pre).promptsRight_iff op

/-- A console is destroyed, and the next one at its address prompts with its lines. -/
theorem histories_not_separate :
    ¬ Runs.AtEvery (fun pre op => (Terminal.after pre).PromptsRight (Past.after pre) op)
      ([.construct 0, .readLine 0 (some "help"), .destroy 0, .construct 0, .readLine 0 none] : List (ConsoleOp Nat)) := by
  intro h
  have hp := (h [.construct 0, .readLine 0 (some "help"), .destroy 0, .construct 0] (.readLine 0 none) [] rfl rfl).2
  exact absurd hp (by decide)

end Console
end NaoFramework
