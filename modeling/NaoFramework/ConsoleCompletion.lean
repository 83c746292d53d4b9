import NaoFramework.Console
import Mathlib.Data.List.Infix
import Mathlib.Data.List.TakeWhile
import Mathlib.Data.List.Forall2
/-!
# ConsoleCompletion — the names readline completes to

`commandIterator` is called again and again, and each time searches the commands from where it stopped, for one whose
name contains the text.  It finds each of them once (`completions_iff`), and copies its name, with the terminating zero,
into a buffer that has no room for the zero: completion is right exactly where there is nothing to complete to
(`completes_exact_iff`).
-/
namespace NaoFramework
namespace Console

variable {σ : Type}

/-! ## Zero-terminated strings -/

/-- A string that a zero terminates, up to the zero. -/
structure CString where
  chars : List Char
  noZero : '\x00' ∉ chars

/-- `s.c_str()`, as it is read. -/
def cStr (s : String) : CString where
  chars := s.toList.takeWhile (· ≠ '\x00')
  noZero h := by simpa using List.mem_takeWhile_imp h

/-- An array of `size` characters, and what was written from its start on, inside it and beyond its end. -/
structure Buffer where
  size : Nat
  written : List Char
  deriving DecidableEq

namespace Buffer

/-- `new char[size]`. -/
def allocate (size : Nat) : Buffer := ⟨size, []⟩

/-- The characters of `source` and its zero are written over what there was. -/
def strcpy (b : Buffer) (source : CString) : Buffer :=
  { b with written := source.chars ++ '\x00' :: b.written.drop (source.chars.length + 1) }

/-- It begins with the whole name and a zero. -/
def Holds (b : Buffer) (name : String) : Prop := name.toList ++ ['\x00'] <+: b.written

/-- Nothing was written beyond its end. -/
def InBounds (b : Buffer) : Prop := b.written.length ≤ b.size

instance (b : Buffer) : Decidable b.InBounds := inferInstanceAs (Decidable (_ ≤ _))

end Buffer

/-! ## The iterator -/

/-- `command.find(text) != std::string::npos`. -/
def contains (command : String) (text : CString) : Bool := command.toList.tails.any (text.chars.isPrefixOf ·)

example : contains "create" ⟨"rea".toList, by decide⟩ ∧ ¬ contains "create" ⟨"area".toList, by decide⟩ := by decide

/-- What is returned for a command. -/
def completionOf (command : String) : Buffer := (Buffer.allocate command.length).strcpy (cStr command)

/-- The static `it`: the commands from it on. -/
abbrev Iterator (σ : Type) : Type := List ((_ : String) × CommandFunction σ)

/-- The loop of `commandIterator`. -/
def search (text : CString) : Iterator σ → Option Buffer × Iterator σ
  | [] => (none, [])
  | command :: it => if contains command.1 text then (some (completionOf command.1), it) else search text it

/-- What is returned, and where `it` is then; the commands are those of the current console. -/
def commandIterator (c : Console σ) (text : CString) (state : Nat) (it : Iterator σ) : Option Buffer × Iterator σ :=
  search text (if state = 0 then c.commands.entries else it)

/-- What the calls with `state` and the numbers after it return, until one returns a null pointer. -/
inductive Completions (c : Console σ) (text : CString) : Nat → Iterator σ → List Buffer → Prop where
  | last (state : Nat) (it it' : Iterator σ) (h : c.commandIterator text state it = (none, it')) :
      Completions c text state it []
  | next (state : Nat) (it it' : Iterator σ) (buffer : Buffer) (buffers : List Buffer)
      (h : c.commandIterator text state it = (some buffer, it')) (hs : Completions c text (state + 1) it' buffers) :
      Completions c text state it (buffer :: buffers)

/-- **Completion is right**: wherever `it` was, one buffer is returned for each command whose name contains the text, and
no other; it holds the whole name and a zero, and the copy stays inside it. -/
def CompletesRight (c : Console σ) (text : CString) : Prop :=
  ∀ it, ∃ buffers names, c.Completions text 0 it buffers ∧ names.Nodup ∧
    (∀ name, name ∈ names ↔ name ∈ c.commands ∧ text.chars <:+: name.toList) ∧
      List.Forall₂ (fun name (buffer : Buffer) => buffer.Holds name ∧ buffer.InBounds) names buffers

/-! ## What is returned -/

theorem contains_iff {command : String} {text : CString} : contains command text = true ↔ text.chars <:+: command.toList := by
  simp only [contains, List.any_eq_true, List.mem_tails, List.isPrefixOf_iff_prefix, List.infix_iff_prefix_suffix,
    and_comm]

/-- The commands from `it` on whose names contain the text. -/
def matching (text : CString) (it : Iterator σ) : Iterator σ := it.filter fun command => contains command.1 text

/-- **One search**: it finds the next of the matching commands, if there is one. -/
theorem search_cases (text : CString) : ∀ it : Iterator σ,
    (search text it = (none, []) ∧ matching text it = []) ∨
      ∃ command it', search text it = (some (completionOf command.1), it') ∧
        matching text it = command :: matching text it'
  | [] => Or.inl ⟨rfl, rfl⟩
  | command :: it => by
    rw [search, matching, List.filter_cons]
    cases contains command.1 text with
    | true => exact Or.inr ⟨command, it, rfl, rfl⟩
    | false => exact search_cases text it

variable {c : Console σ} {text : CString} {buffers : List Buffer}

theorem completions_cons {state : Nat} {it it' : Iterator σ} {buffer : Buffer}
    (h : c.commandIterator text state it = (some buffer, it')) :
    c.Completions text state it buffers ↔ ∃ more, buffers = buffer :: more ∧ c.Completions text (state + 1) it' more := by
  constructor
  · rintro (⟨_, _, _, hn⟩ | ⟨_, _, _, buffer', more, hb, hs⟩)
    · rw [h] at hn; cases hn
    · obtain ⟨hbuffer, rfl⟩ := Prod.mk.inj (h.symm.trans hb)
      obtain rfl := Option.some.inj hbuffer
      exact ⟨more, rfl, hs⟩
  · rintro ⟨more, rfl, hs⟩
    exact .next state it it' buffer more h hs

/-- **The calls, from any on**: they return the matching commands that are left, one after another. -/
theorem completions_from (matched : Iterator σ) : ∀ (state : Nat) (it : Iterator σ) (buffers : List Buffer),
    matching text (if state = 0 then c.commands.entries else it) = matched →
      (c.Completions text state it buffers ↔ buffers = matched.map fun command => completionOf command.1) := by
  induction matched with
  | nil =>
    intro state it buffers hm
    have hnone : c.commandIterator text state it = (none, []) := by
      rcases search_cases text (if state = 0 then c.commands.entries else it) with ⟨hs, -⟩ | ⟨command, it', -, hs⟩
      · exact hs
      · rw [hm] at hs; cases hs
    constructor
    · rintro (⟨_, _, _, -⟩ | ⟨_, _, _, buffer, more, hb, -⟩)
      · rfl
      · rw [hnone] at hb; cases hb
    · rintro rfl
      exact .last state it [] hnone
  | cons command matched ih =>
    intro state it buffers hm
    rcases search_cases text (if state = 0 then c.commands.entries else it) with ⟨-, hs⟩ | ⟨command', it', hs, hmore⟩
    · rw [hm] at hs; cases hs
    · obtain ⟨rfl, hrest⟩ := List.cons.inj (hm.symm.trans hmore)
      have hnext : matching text (if state + 1 = 0 then c.commands.entries else it') = matched := by
        rw [if_neg (Nat.succ_ne_zero state), hrest]
      rw [completions_cons hs, List.map_cons]
      constructor
      · rintro ⟨more, rfl, hc⟩
        rw [(ih (state + 1) it' more hnext).1 hc]
      · rintro rfl
        exact ⟨_, rfl, (ih (state + 1) it' _ hnext).2 rfl⟩

/-- The names of the commands that the text completes to. -/
def matchingNames (c : Console σ) (text : CString) : List String := c.commands.keys.filter (contains · text)

theorem mem_matchingNames {name : String} :
    name ∈ c.matchingNames text ↔ name ∈ c.commands ∧ text.chars <:+: name.toList := by
  rw [matchingNames, List.mem_filter, contains_iff, AList.mem_keys]

/-- **What is completed to**: each command whose name contains the text, once. -/
theorem completions_iff (it : Iterator σ) :
    c.Completions text 0 it buffers ↔ buffers = (c.matchingNames text).map completionOf := by
  rw [completions_from _ 0 it buffers rfl]
  have hnames : c.matchingNames text = (matching text c.commands.entries).map Sigma.fst :=
    List.filter_map ..
  rw [hnames, List.map_map]
  rfl

/-! ## What is copied -/

theorem cStr_chars {name : String} (h : '\x00' ∉ name.toList) : (cStr name).chars = name.toList := by
  refine List.takeWhile_eq_self_iff.2 fun c hc => ?_
  refine decide_eq_true ?_
  rintro rfl
  exact h hc

/-- A name that a buffer holds has no zero in it. -/
theorem notMem_of_holds {command name : String} (h : (completionOf command).Holds name) : '\x00' ∉ name.toList := by
  have hwritten : (completionOf command).written = (cStr command).chars ++ ['\x00'] := rfl
  rw [Buffer.Holds, hwritten] at h
  have hlen := h.length_le
  simp only [List.length_append, List.length_singleton, Nat.add_le_add_iff_right] at hlen
  have hname : name.toList <+: (cStr command).chars ++ ['\x00'] := (List.prefix_append _ _).trans h
  have hwhole := List.prefix_of_prefix_length_le hname (List.prefix_append _ _) hlen
  exact fun hz => (cStr command).noZero (hwhole.subset hz)

/-- **The zero has no room**: the copy of a name without one ends outside the buffer. -/
theorem not_inBounds_completionOf {name : String} (h : '\x00' ∉ name.toList) : ¬ (completionOf name).InBounds := by
  have hwritten : (completionOf name).written = (cStr name).chars ++ ['\x00'] := rfl
  have hsize : (completionOf name).size = name.toList.length := name.length_toList.symm
  rw [Buffer.InBounds, hwritten, hsize, cStr_chars h, List.length_append, List.length_singleton]
  exact Nat.not_succ_le_self _

/-- **Where completion is right**: exactly where no command's name contains the text. -/
theorem completes_exact_iff (c : Console σ) (text : CString) :
    c.CompletesRight text ↔ ∀ name ∈ c.commands, ¬ text.chars <:+: name.toList := by
  constructor
  · intro h name hname hin
    obtain ⟨buffers, names, hc, -, hnames, hall⟩ := h []
    obtain rfl := (completions_iff []).1 hc
    obtain ⟨hlength, hall⟩ := List.forall₂_iff_get.1 hall
    -- some buffer holds the name, and so there is no zero in it
    obtain ⟨i, hi, hget⟩ := List.getElem_of_mem ((hnames name).2 ⟨hname, hin⟩)
    have hholds := (hall i hi (hlength ▸ hi)).1
    simp only [List.get_eq_getElem, hget, List.getElem_map] at hholds
    -- the buffer made for the name is the copy of a whole name
    obtain ⟨j, hj, hget⟩ := List.getElem_of_mem (List.mem_map_of_mem (mem_matchingNames.2 ⟨hname, hin⟩))
    have hbounds := (hall j (hlength ▸ hj) hj).2
    simp only [List.get_eq_getElem, hget] at hbounds
    exact not_inBounds_completionOf (notMem_of_holds hholds) hbounds
  · intro h it
    have hnone : c.matchingNames text = [] := by
      refine List.eq_nil_iff_forall_not_mem.2 fun name hname => ?_
      obtain ⟨hm, hin⟩ := mem_matchingNames.1 hname
      exact h name hm hin
    refine ⟨[], [], (completions_iff it).2 (by rw [hnone]; rfl), List.nodup_nil, fun name => ?_, .nil⟩
    refine iff_of_false List.not_mem_nil ?_
    rintro ⟨hm, hin⟩
    exact h name hm hin

/-- A console completes `he`: the copy of `help` has five characters, and its buffer has four. -/
theorem completion_not_right : ¬ (new : Console Unit).CompletesRight ⟨"he".toList, by decide⟩ := by
  intro h
  obtain ⟨buffers, names, hc, -, -, hall⟩ := h []
  have hnames : (new : Console Unit).matchingNames ⟨"he".toList, by decide⟩ = ["help"] := by decide
  obtain rfl := (completions_iff []).1 hc
  rw [hnames] at hall
  obtain ⟨name, -, ⟨-, hbounds⟩, -⟩ := List.forall₂_cons_right_iff.1 hall
  exact absurd hbounds (by decide)

end Console
end NaoFramework
