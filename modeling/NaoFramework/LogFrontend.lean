import NaoFramework.Runs
import NaoFramework.UnorderedMap
/-!
# LogFrontend — sinks and their registry

`makeSink` and `removeSink` change two stores: `availableSinks`, and the sinks attached to the logging core, each with
the file it writes and the client its filter asks for.  A sink is registered under `folderize(subfolder)+client` and
looked for under `client`, so the two stores agree, and the answers are right, exactly while these two names are either
both registered or neither (`registry_exact_iff`).

A record reaches every attached sink whose filter accepts its client, and the sink writes it if its file opened when it was
made.  What is written of it is its severity and its message; the time is left out.  A file is its path as it is written:
`Modules` and `Modules//` are different folders, and files of one folder under two names are two files.
-/
namespace NaoFramework
namespace Log

inductive MessagePriority where
  | trace
  | debug
  | info
  | warning
  | error
  | fatal
  deriving DecidableEq, Repr

/-- The file a sink writes, if it opened, and the client its filter accepts; without one it accepts every record. -/
structure Sink where
  file : String
  filter : Option String
  opened : Bool
  deriving DecidableEq

def Sink.accepts (s : Sink) (client : String) : Bool :=
  match s.filter with
  | some c => decide (c = client)
  | none => true

/-- The static state, and the core.  `sinks` are the sinks ever made, and a sink is referred to by its place there;
`written` is every line that was written, with its file. -/
structure Frontend where
  logFolder : String
  sinks : List Sink
  attached : List Nat
  availableSinks : UnorderedMap String Nat
  written : List (String × MessagePriority × String)

/-- What a call finds: `create_directory` returns for a path, or throws, and the file of a path opens, or does not. -/
structure Disk where
  creates : String → Bool
  opens : String → Bool

/-- Every directory can be created, and every file opens. -/
def Disk.good : Disk := ⟨fun _ => true, fun _ => true⟩

def folderize (name : String) : String := if name.toList.getLast?.any (· ≠ '/') then name ++ "/" else name

example : folderize "Modules" = "Modules/" ∧ folderize "Modules/" = "Modules/" ∧ folderize "" = "" := by decide

namespace Frontend

/-- What a sink writes of a record; without a file it writes nothing. -/
def lineOf (f : Frontend) (client message : String) (priority : MessagePriority) (sink : Nat) :
    Option (String × MessagePriority × String) :=
  match f.sinks[sink]? with
  | some s => if s.accepts client && s.opened then some (s.file, priority, message) else none
  | none => none

def log (f : Frontend) (client subfolder message : String) (priority : MessagePriority) : Frontend :=
  { f with written := f.written ++ f.attached.filterMap (f.lineOf (folderize subfolder ++ client) message priority) }

/-- `none` when `create_directory` throws; whether the file opens is not looked at.  `debug` is a build with `NAO_DEBUG`. -/
def makeSink (debug : Bool) (disk : Disk) (f : Frontend) (client subfolder : String) : Option Bool × Frontend :=
  let subfolderName := folderize subfolder
  if disk.creates (f.logFolder ++ subfolderName) then
    if client ∈ f.availableSinks then (some false, f)
    else
      let sink := f.sinks.length
      let file := f.logFolder ++ subfolderName ++ client
      let f := { f with
        sinks := f.sinks ++ [Sink.mk file (some (subfolderName ++ client)) (disk.opens file)]
        attached := f.attached ++ [sink] }
      let f := f.log "Log" "" ("Set sink for client: " ++ client) .info
      let f := if debug then f.log "Log" "" "Auto Flushing is true" .debug else f
      (some true, { f with availableSinks := f.availableSinks.insert (subfolderName ++ client) sink })
  else (none, f)

def removeSink (f : Frontend) (client subfolder : String) : Frontend :=
  let clientName := folderize subfolder ++ client
  match f.availableSinks.lookup clientName with
  | some sink =>
    let f := f.log "Log" "" ("Removing sink for client: " ++ client) .info
    { f with attached := f.attached.erase sink, availableSinks := f.availableSinks.erase clientName }
  | none => f

/-- The filter of a sink is taken away. -/
def resetFilter (f : Frontend) (sink : Nat) : Frontend :=
  { f with sinks := f.sinks.modify sink fun s => { s with filter := none } }

/-- `init`, when the log folder can be created; its files open, or do not. -/
def init (debug : Bool) (opens : String → Bool) (folder : String) : Frontend :=
  let disk : Disk := ⟨fun _ => true, opens⟩
  let f : Frontend := ⟨folderize folder, [], [], ∅, []⟩
  let f := (f.makeSink debug disk "Log" "").2
  if debug then
    let f := (f.makeSink debug disk "Global" "").2
    match f.availableSinks.lookup "Global" with
    | some sink => f.resetFilter sink
    | none => f
  else f

/-! ## Sequences of calls -/

inductive Call where
  | makeSink (disk : Disk) (client subfolder : String)
  | removeSink (client subfolder : String)

def step (debug : Bool) (f : Frontend) : Call → Frontend
  | .makeSink disk client subfolder => (f.makeSink debug disk client subfolder).2
  | .removeSink client subfolder => f.removeSink client subfolder

def after (debug : Bool) (opens : String → Bool) (folder : String) (calls : List Call) : Frontend :=
  Runs.run (step debug) (init debug opens folder) calls

/-- **The registry and the core agree**: the attached sinks are those of `availableSinks`, one for each key, and each
filters on its key. -/
structure Agrees (f : Frontend) : Prop where
  nodup : f.attached.Nodup
  attached : ∀ n, n ∈ f.attached ↔ ∃ k, f.availableSinks.lookup k = some n
  filters : ∀ k n, f.availableSinks.lookup k = some n → ∃ s, f.sinks[n]? = some s ∧ s.filter = some k

/-- `makeSink` returns true exactly when nothing is registered under its path, and then registers and attaches a new
sink; after `removeSink` no attached sink accepts the client. -/
def DoesRight (debug : Bool) (f : Frontend) : Call → Prop
  | .makeSink disk client subfolder => ∀ result, (f.makeSink debug disk client subfolder).1 = some result →
      (result = true ↔ folderize subfolder ++ client ∉ f.availableSinks) ∧
        (result = true → ∃ n, n ∉ f.attached ∧ n ∈ (f.makeSink debug disk client subfolder).2.attached ∧
          (f.makeSink debug disk client subfolder).2.availableSinks.lookup (folderize subfolder ++ client) = some n)
  | .removeSink client subfolder => ∀ n ∈ (f.removeSink client subfolder).attached, ∀ s,
      (f.removeSink client subfolder).sinks[n]? = some s → s.accepts (folderize subfolder ++ client) = false

/-- The name that `makeSink` looks for and the one it registers are both registered, or neither. -/
def LooksForItsKey (f : Frontend) : Call → Prop
  | .makeSink disk client subfolder => disk.creates (f.logFolder ++ folderize subfolder) = true →
      (client ∈ f.availableSinks ↔ folderize subfolder ++ client ∈ f.availableSinks)
  | .removeSink .. => True

/-! ## One call -/

/-- The sink that is registered under a key has its file open. -/
def opened (f : Frontend) (k : String) : Bool :=
  ((f.availableSinks.lookup k).bind fun n => f.sinks[n]?).any Sink.opened

/-- **The invariant**: every registered sink is attached, and its file and filter are those of its key. -/
structure Inv (f : Frontend) : Prop where
  nodup : f.attached.Nodup
  attached : ∀ n, n ∈ f.attached ↔ ∃ k, f.availableSinks.lookup k = some n
  sinks : ∀ k n, f.availableSinks.lookup k = some n → f.sinks[n]? = some ⟨f.logFolder ++ k, some k, f.opened k⟩

variable {f : Frontend}

theorem Inv.agrees (h : f.Inv) : f.Agrees :=
  ⟨h.nodup, h.attached, fun k n hk => ⟨_, h.sinks k n hk, rfl⟩⟩

/-- Different keys have different sinks. -/
theorem Inv.key_eq (h : f.Inv) {k k' : String} {n : Nat} (hk : f.availableSinks.lookup k = some n)
    (hk' : f.availableSinks.lookup k' = some n) : k = k' := by
  have hs := (h.sinks k n hk).symm.trans (h.sinks k' n hk')
  simp only [Option.some.injEq, Sink.mk.injEq] at hs
  exact hs.2.1

theorem Inv.lt_length (h : f.Inv) {n : Nat} (hn : n ∈ f.attached) : n < f.sinks.length := by
  obtain ⟨k, hk⟩ := (h.attached n).1 hn
  exact (List.getElem?_eq_some_iff.1 (h.sinks k n hk)).1

/-- What `makeSink` does when it finds no sink. -/
theorem makeSink_made (debug : Bool) {disk : Disk} {client subfolder : String}
    (hd : disk.creates (f.logFolder ++ folderize subfolder) = true) (hc : client ∉ f.availableSinks) :
    ∃ lines, f.makeSink debug disk client subfolder = (some true,
      { logFolder := f.logFolder
        sinks := f.sinks ++ [⟨f.logFolder ++ (folderize subfolder ++ client), some (folderize subfolder ++ client),
          disk.opens (f.logFolder ++ (folderize subfolder ++ client))⟩]
        attached := f.attached ++ [f.sinks.length]
        availableSinks := f.availableSinks.insert (folderize subfolder ++ client) f.sinks.length
        written := f.written ++ lines }) := by
  simp only [makeSink, if_pos hd, if_neg hc, String.append_assoc]
  cases debug with
  | false => exact ⟨_, rfl⟩
  | true =>
    simp only [log, if_true, List.append_assoc]
    exact ⟨_, rfl⟩

/-- A sink that is made has its file open if it opens, and leaves the others theirs. -/
theorem opened_makeSink (h : f.Inv) (debug : Bool) {disk : Disk} {client subfolder : String}
    (hd : disk.creates (f.logFolder ++ folderize subfolder) = true) (hc : client ∉ f.availableSinks) (k : String) :
    (f.makeSink debug disk client subfolder).2.opened k =
      if k = folderize subfolder ++ client then disk.opens (f.logFolder ++ (folderize subfolder ++ client))
      else f.opened k := by
  obtain ⟨lines, he⟩ := makeSink_made debug hd hc
  rw [he]
  simp only [opened, UnorderedMap.lookup_insert_if]
  split
  · simp
  · cases hk : f.availableSinks.lookup k with
    | none => rfl
    | some n =>
      have hlt := h.lt_length ((h.attached n).2 ⟨k, hk⟩)
      simp only [Option.bind_some, List.getElem?_append_left hlt]

theorem makeSink_inv (h : f.Inv) (debug : Bool) {disk : Disk} {client subfolder : String}
    (hk : f.LooksForItsKey (.makeSink disk client subfolder)) : (f.makeSink debug disk client subfolder).2.Inv := by
  by_cases hd : disk.creates (f.logFolder ++ folderize subfolder) = true
  · by_cases hc : client ∈ f.availableSinks
    · simp only [makeSink, if_pos hd, if_pos hc]
      exact h
    · have hpath : f.availableSinks.lookup (folderize subfolder ++ client) = none :=
        AList.lookup_eq_none.2 fun hp => hc ((hk hd).2 hp)
      have hopened := opened_makeSink h debug hd hc
      obtain ⟨lines, he⟩ := makeSink_made debug hd hc
      rw [he] at hopened ⊢
      refine ⟨?_, fun n => ?_, fun k n hn => ?_⟩
      · refine List.Nodup.append h.nodup (List.nodup_singleton _) ?_
        rw [List.disjoint_singleton]
        exact fun hn => Nat.lt_irrefl _ (h.lt_length hn)
      · simp only [List.mem_append, List.mem_singleton, h.attached, UnorderedMap.lookup_insert_if]
        constructor
        · rintro (⟨k, hn⟩ | rfl)
          · refine ⟨k, ?_⟩
            rw [if_neg, hn]
            rintro rfl
            rw [hpath] at hn; cases hn
          · exact ⟨_, if_pos rfl⟩
        · rintro ⟨k, hn⟩
          split at hn
          · exact Or.inr (Option.some.inj hn).symm
          · exact Or.inl ⟨k, hn⟩
      · rw [hopened]
        simp only [UnorderedMap.lookup_insert_if] at hn
        simp only [List.getElem?_append]
        split at hn
        · rename_i e
          obtain rfl := Option.some.inj hn
          simp [e]
        · rename_i hne
          have hs := h.sinks k n hn
          rw [if_pos (List.getElem?_eq_some_iff.1 hs).1, if_neg hne]
          exact hs
  · simp only [makeSink, if_neg hd]
    exact h

theorem lookup_removeSink (f : Frontend) (client subfolder k : String) :
    (f.removeSink client subfolder).availableSinks.lookup k =
      if k = folderize subfolder ++ client then none else f.availableSinks.lookup k := by
  simp only [removeSink]
  split
  · split
    · rename_i hk
      rw [hk, AList.lookup_erase]
    · rename_i hk
      exact AList.lookup_erase_ne hk
  · rename_i hn
    split
    · rename_i hk
      rw [hk, hn]
    · rfl

theorem mem_removeSink (f : Frontend) (client subfolder k : String) :
    k ∈ (f.removeSink client subfolder).availableSinks ↔ k ≠ folderize subfolder ++ client ∧ k ∈ f.availableSinks := by
  rw [← AList.lookup_isSome, ← AList.lookup_isSome, lookup_removeSink]
  split
  · rename_i hk
    simp [hk]
  · rename_i hk
    simp [hk]

theorem sinks_removeSink (f : Frontend) (client subfolder : String) : (f.removeSink client subfolder).sinks = f.sinks := by
  simp only [removeSink]
  split <;> rfl

/-- A sink that is removed leaves the others their files. -/
theorem opened_removeSink (f : Frontend) (client subfolder : String) {k : String} (hk : k ≠ folderize subfolder ++ client) :
    (f.removeSink client subfolder).opened k = f.opened k := by
  rw [opened, lookup_removeSink, if_neg hk, sinks_removeSink, opened]

theorem removeSink_inv (h : f.Inv) (client subfolder : String) : (f.removeSink client subfolder).Inv := by
  have hlookup := lookup_removeSink f client subfolder
  have hopened := @opened_removeSink f client subfolder
  cases hs : f.availableSinks.lookup (folderize subfolder ++ client) with
  | none =>
    simp only [removeSink, hs]
    exact h
  | some sink =>
    simp only [removeSink, hs, log] at hlookup hopened ⊢
    refine ⟨h.nodup.erase _, fun n => ?_, fun k n hn => ?_⟩
    · simp only [h.nodup.mem_erase_iff, h.attached, hlookup]
      constructor
      · rintro ⟨hne, k, hn⟩
        refine ⟨k, ?_⟩
        rw [if_neg, hn]
        rintro rfl
        exact hne (Option.some.inj (hn.symm.trans hs))
      · rintro ⟨k, hn⟩
        split at hn
        · cases hn
        · rename_i hk
          refine ⟨?_, k, hn⟩
          rintro rfl
          exact hk (h.key_eq hn hs)
    · rw [hlookup] at hn
      split at hn
      · cases hn
      · rename_i hne
        rw [hopened hne]
        exact h.sinks k n hn

theorem empty_inv (logFolder : String) : Inv ⟨logFolder, [], [], ∅, []⟩ :=
  ⟨List.nodup_nil, fun n => by simp, fun k n hn => by cases hn⟩

theorem init_inv (opens : String → Bool) (folder : String) : (init false opens folder).Inv := by
  have hk : LooksForItsKey ⟨folderize folder, [], [], ∅, []⟩ (.makeSink ⟨fun _ => true, opens⟩ "Log" "") := fun _ =>
    iff_of_false (AList.notMem_empty _) (AList.notMem_empty _)
  exact makeSink_inv (empty_inv _) false hk

/-- The sink that a build with `NAO_DEBUG` makes for `Global` takes every record. -/
theorem init_debug_not_agrees (opens : String → Bool) (folder : String) : ¬ (init true opens folder).Agrees := by
  intro h
  obtain ⟨s, hs, hf⟩ := h.filters "Global" 1 rfl
  have hs' : (init true opens folder).sinks[1]? = some ⟨folderize folder ++ folderize "" ++ "Global", none,
    opens (folderize folder ++ folderize "" ++ "Global")⟩ := rfl
  obtain rfl := Option.some.inj (hs.symm.trans hs')
  cases hf

/-! ## Whole sequences -/

theorem makeSink_result (debug : Bool) {disk : Disk} (client : String) {subfolder : String}
    (hd : disk.creates (f.logFolder ++ folderize subfolder) = true) :
    (f.makeSink debug disk client subfolder).1 = some (decide (client ∉ f.availableSinks)) := by
  by_cases hc : client ∈ f.availableSinks
  · simp [makeSink, hd, hc]
  · simp [makeSink, hd, hc]

theorem doesRight_of_inv (h : f.Inv) (debug : Bool) {c : Call} (hk : f.LooksForItsKey c) : f.DoesRight debug c := by
  cases c with
  | makeSink disk client subfolder =>
    intro result hr
    by_cases hd : disk.creates (f.logFolder ++ folderize subfolder) = true
    · rw [makeSink_result debug client hd] at hr
      obtain rfl := Option.some.inj hr
      refine ⟨by rw [decide_eq_true_eq, hk hd], fun hc => ?_⟩
      obtain ⟨lines, he⟩ := makeSink_made debug hd (of_decide_eq_true hc)
      rw [he]
      exact ⟨f.sinks.length, fun hn => Nat.lt_irrefl _ (h.lt_length hn), by simp, AList.lookup_insert _⟩
    · simp only [makeSink, if_neg hd] at hr
      cases hr
  | removeSink client subfolder =>
    intro n hn s hs
    have hi := removeSink_inv h client subfolder
    obtain ⟨k, hk⟩ := (hi.attached n).1 hn
    obtain rfl := Option.some.inj (hs.symm.trans (hi.sinks k n hk))
    refine decide_eq_false ?_
    rintro rfl
    rw [lookup_removeSink, if_pos rfl] at hk
    cases hk

/-- **When the registry and the core agree**: over every sequence of calls, exactly in a build without `NAO_DEBUG` and
when every `makeSink` looks for a name that is registered if and only if its path is. -/
theorem registry_exact_iff (debug : Bool) (opens : String → Bool) (folder : String) (calls : List Call) :
    ((∀ pre post, calls = pre ++ post → (after debug opens folder pre).Agrees) ∧
        Runs.AtEvery (fun pre c => (after debug opens folder pre).DoesRight debug c) calls) ↔
      debug = false ∧ Runs.AtEvery (fun pre c => (after debug opens folder pre).LooksForItsKey c) calls := by
  constructor
  · rintro ⟨ha, hr⟩
    refine ⟨?_, fun pre c post hs => ?_⟩
    · cases debug with
      | false => rfl
      | true => exact absurd (ha [] calls rfl) (init_debug_not_agrees opens folder)
    · have hc := hr pre c post hs
      cases c with
      | removeSink client subfolder => trivial
      | makeSink disk client subfolder =>
        intro hd
        have hiff := (hc _ (makeSink_result debug client hd)).1
        rw [decide_eq_true_eq] at hiff
        exact not_iff_not.1 hiff
  · rintro ⟨rfl, hk⟩
    have hstep : ∀ (f : Frontend) c, f.Inv → f.LooksForItsKey c → (step false f c).Inv := by
      intro f c h hl
      cases c with
      | makeSink disk client subfolder => exact makeSink_inv h false hl
      | removeSink client subfolder => exact removeSink_inv h client subfolder
    have hinv : ∀ pre post, calls = pre ++ post → (after false opens folder pre).Inv := by
      rintro pre post rfl
      exact Runs.run_invariant_of_atEvery (init_inv opens folder) hstep hk.of_append
    exact ⟨fun pre post hs => (hinv pre post hs).agrees,
      fun pre c post hs => doesRight_of_inv (hinv pre (c :: post) hs) false (hk pre c post hs)⟩

/-- A client of a subfolder is registered twice: its first sink stays attached. -/
theorem registry_not_agreeing :
    ¬ ((∀ pre post, [.makeSink .good "Reader" "Modules", .makeSink .good "Reader" "Modules"] = pre ++ post →
        (after false (fun _ => true) "log" pre).Agrees) ∧
      Runs.AtEvery (fun pre c => (after false (fun _ => true) "log" pre).DoesRight false c)
        [.makeSink .good "Reader" "Modules", .makeSink .good "Reader" "Modules"]) := by
  rintro ⟨-, h⟩
  have hc := (h [.makeSink .good "Reader" "Modules"] (.makeSink .good "Reader" "Modules") [] rfl true rfl).1.1 rfl
  exact hc (by decide)

end Frontend
end Log
end NaoFramework
