import NaoFramework.Loggable
/-!
# LogGlobal — the log of a debug build

A build with `NAO_DEBUG` has a sink without a filter.  Whatever sinks are made and removed beside it, and whether or not
the registry is in order, and whether or not other files open, the file `Global` holds every record there was since, once
and in order, if it opened itself (`global_exact`).
-/
namespace NaoFramework
namespace Log

inductive Traffic where
  | makeSink (disk : Disk) (client subfolder : String)
  | removeSink (client subfolder : String)
  | log (client subfolder message : String) (priority : MessagePriority)

/-- The sink of `Global` is not removed. -/
def Traffic.KeepsGlobal : Traffic → Prop
  | .removeSink client subfolder => folderize subfolder ++ client ≠ "Global"
  | _ => True

namespace Frontend

/-- A call in a build with `NAO_DEBUG`. -/
def serve (f : Frontend) : Traffic → Frontend
  | .makeSink disk client subfolder => (f.makeSink true disk client subfolder).2
  | .removeSink client subfolder => f.removeSink client subfolder
  | .log client subfolder message priority => f.log client subfolder message priority

def served (opens : String → Bool) (folder : String) (calls : List Traffic) : Frontend :=
  Runs.run serve (init true opens folder) calls

/-- The records a call makes, whoever gets them. -/
def records (f : Frontend) : Traffic → List (MessagePriority × String)
  | .makeSink disk client subfolder =>
    if disk.creates (f.logFolder ++ folderize subfolder) = true ∧ client ∉ f.availableSinks then
      [(.info, "Set sink for client: " ++ client), (.debug, "Auto Flushing is true")]
    else []
  | .removeSink client subfolder =>
    if folderize subfolder ++ client ∈ f.availableSinks then [(.info, "Removing sink for client: " ++ client)] else []
  | .log _ _ message priority => [(priority, message)]

def allRecords (f : Frontend) : List Traffic → List (MessagePriority × String)
  | [] => []
  | c :: cs => f.records c ++ allRecords (f.serve c) cs

/-- What was written to the file of `Global`. -/
def globalLines (f : Frontend) : List (MessagePriority × String) :=
  f.written.filterMap fun l => if l.1 = f.logFolder ++ "Global" then some l.2 else none

/-! ## The sink -/

/-- **The sink `n` gets every record**: it is attached, its filter is taken away, and no other sink writes its file, which is
open or not. -/
structure Listens (f : Frontend) (n : Nat) (opened : Bool) : Prop where
  nodup : f.attached.Nodup
  made : ∀ m ∈ f.attached, m < f.sinks.length
  attached : n ∈ f.attached
  sink : f.sinks[n]? = some ⟨f.logFolder ++ "Global", none, opened⟩
  others : ∀ m ∈ f.attached, m ≠ n → ∀ s, f.sinks[m]? = some s → s.file ≠ f.logFolder ++ "Global"

/-- The sink is registered under its own name only. -/
structure HasGlobal (f : Frontend) (opened : Bool) : Prop where
  sink : ∃ n, f.Listens n opened ∧ f.availableSinks.lookup "Global" = some n ∧ ∀ k, f.availableSinks.lookup k = some n → k = "Global"

variable {f : Frontend} {n : Nat} {opened : Bool}

/-- **A record is written to the file once**, if that opened. -/
theorem Listens.written (h : f.Listens n opened) (client subfolder message : String) (priority : MessagePriority) :
    (f.log client subfolder message priority).globalLines =
      f.globalLines ++ if opened then [(priority, message)] else [] := by
  simp only [globalLines, log, List.filterMap_append, List.filterMap_filterMap]
  refine congrArg (_ ++ ·) ((Loggables.filterMap_eq_toList h.nodup h.attached fun m hm hne => ?_).trans ?_)
  · cases hs : f.sinks[m]? with
    | none => simp [lineOf, hs]
    | some s =>
      have hfile := h.others m hm hne s hs
      simp only [lineOf, hs]
      split
      · simp [hfile]
      · rfl
  · cases opened <;> simp [lineOf, h.sink, Sink.accepts]

theorem Listens.log (h : f.Listens n opened) (client subfolder message : String) (priority : MessagePriority) :
    (f.log client subfolder message priority).Listens n opened := ⟨h.nodup, h.made, h.attached, h.sink, h.others⟩

/-- The registry has no part in it. -/
theorem Listens.register (h : f.Listens n opened) (sinks : UnorderedMap String Nat) :
    Listens { f with availableSinks := sinks } n opened := ⟨h.nodup, h.made, h.attached, h.sink, h.others⟩

/-- A new sink, attached. -/
def attach (f : Frontend) (path : String) (opens : Bool) : Frontend :=
  { f with sinks := f.sinks ++ [⟨f.logFolder ++ path, some path, opens⟩], attached := f.attached ++ [f.sinks.length] }

theorem Listens.attach (h : f.Listens n opened) {path : String} (hp : path ≠ "Global") (opens : Bool) :
    (f.attach path opens).Listens n opened := by
  have hlt := h.made n h.attached
  have hlen : (f.attach path opens).sinks.length = f.sinks.length + 1 := by simp [Frontend.attach]
  have hnew : (f.attach path opens).sinks[f.sinks.length]? = some ⟨f.logFolder ++ path, some path, opens⟩ := by
    simp [Frontend.attach]
  refine ⟨?_, fun m hm => ?_, List.mem_append_left _ h.attached, ?_, fun m hm hne s hs => ?_⟩
  · refine List.Nodup.append h.nodup (List.nodup_singleton _) ?_
    rw [List.disjoint_singleton]
    exact fun hn => Nat.lt_irrefl _ (h.made _ hn)
  · rw [hlen]
    rcases List.mem_append.1 hm with hm | hm
    · exact Nat.lt_succ_of_lt (h.made m hm)
    · rw [List.mem_singleton.1 hm]
      exact Nat.lt_succ_self _
  · exact (List.getElem?_append_left hlt).trans h.sink
  · rcases List.mem_append.1 hm with hm | hm
    · exact h.others m hm hne s ((List.getElem?_append_left (h.made m hm)).symm.trans hs)
    · rw [List.mem_singleton.1 hm, hnew] at hs
      obtain rfl := Option.some.inj hs
      exact fun e => hp ((String.append_right_inj _).1 e)

/-- Another sink is detached. -/
theorem Listens.detach (h : f.Listens n opened) {m : Nat} (hne : m ≠ n) :
    Listens { f with attached := f.attached.erase m } n opened :=
  ⟨h.nodup.erase m, fun m hm => h.made m (List.mem_of_mem_erase hm), (List.mem_erase_of_ne (Ne.symm hne)).2 h.attached,
    h.sink, fun m hm => h.others m (List.mem_of_mem_erase hm)⟩

/-! ## One call -/

/-- The path of a sink is `Global` only without a folder. -/
theorem path_eq_global {client subfolder : String} (h : folderize subfolder ++ client = "Global") :
    subfolder = "" ∧ client = "Global" := by
  have hs : subfolder = "" := by
    by_contra hne
    exact absurd (h ▸ Loggables.slash_mem_path hne client) (by decide)
  subst hs
  refine ⟨rfl, ?_⟩
  have he : folderize "" = "" := by decide
  rwa [he, String.empty_append] at h

/-- What `makeSink` does. -/
theorem serve_makeSink (f : Frontend) (disk : Disk) (client subfolder : String) :
    f.serve (.makeSink disk client subfolder) =
      if disk.creates (f.logFolder ++ folderize subfolder) = true ∧ client ∉ f.availableSinks then
        { ((f.attach (folderize subfolder ++ client) (disk.opens (f.logFolder ++ (folderize subfolder ++ client)))).log "Log" ""
            ("Set sink for client: " ++ client) .info).log "Log" "" "Auto Flushing is true" .debug with
          availableSinks := f.availableSinks.insert (folderize subfolder ++ client) f.sinks.length }
      else f := by
  by_cases hd : disk.creates (f.logFolder ++ folderize subfolder) = true
  · by_cases hc : client ∈ f.availableSinks
    · rw [if_neg fun h => h.2 hc]
      simp only [serve, Frontend.makeSink, if_pos hd, if_pos hc]
    · rw [if_pos ⟨hd, hc⟩]
      simp only [serve, Frontend.makeSink, if_pos hd, if_neg hc, if_true, String.append_assoc]
      rfl
  · rw [if_neg fun h => hd h.1]
    simp only [serve, Frontend.makeSink, if_neg hd]

theorem HasGlobal.makeSink (h : f.HasGlobal opened) (disk : Disk) (client subfolder : String) :
    (f.serve (.makeSink disk client subfolder)).HasGlobal opened ∧ (f.serve (.makeSink disk client subfolder)).globalLines =
      f.globalLines ++ if opened then f.records (.makeSink disk client subfolder) else [] := by
  obtain ⟨n, hn, hkey, hone⟩ := h.sink
  rw [serve_makeSink, records]
  split
  · rename_i hmade
    have hp : folderize subfolder ++ client ≠ "Global" := by
      intro e
      refine hmade.2 ?_
      rw [(path_eq_global e).2]
      exact AList.lookup_isSome.1 (by rw [hkey]; rfl)
    have hatt := hn.attach hp (disk.opens (f.logFolder ++ (folderize subfolder ++ client)))
    have hset := hatt.log "Log" "" ("Set sink for client: " ++ client) .info
    have hflush := hset.log "Log" "" "Auto Flushing is true" .debug
    refine ⟨⟨n, hflush.register _, ?_, fun k hk => ?_⟩, ?_⟩
    · rw [UnorderedMap.lookup_insert_if, if_neg (Ne.symm hp)]
      exact hkey
    · rw [UnorderedMap.lookup_insert_if] at hk
      split at hk
      · exact absurd (Option.some.inj hk) (Nat.ne_of_gt (hn.made n hn.attached))
      · exact hone k hk
    · refine (hset.written "Log" "" "Auto Flushing is true" .debug).trans ?_
      rw [hatt.written, List.append_assoc]
      cases opened <;> rfl
  · rw [ite_self, List.append_nil]
    exact ⟨h, rfl⟩

theorem HasGlobal.removeSink (h : f.HasGlobal opened) {client subfolder : String}
    (hne : folderize subfolder ++ client ≠ "Global") :
    (f.serve (.removeSink client subfolder)).HasGlobal opened ∧ (f.serve (.removeSink client subfolder)).globalLines =
      f.globalLines ++ if opened then f.records (.removeSink client subfolder) else [] := by
  obtain ⟨n, hn, hkey, hone⟩ := h.sink
  cases hs : f.availableSinks.lookup (folderize subfolder ++ client) with
  | none =>
    have hnot := AList.lookup_eq_none.1 hs
    rw [records, if_neg hnot, ite_self, List.append_nil, serve]
    simp only [Frontend.removeSink, hs]
    exact ⟨h, trivial⟩
  | some m =>
    have hmem : folderize subfolder ++ client ∈ f.availableSinks := AList.lookup_isSome.1 (by rw [hs]; rfl)
    have hmn : m ≠ n := fun e => hne (hone _ (e ▸ hs))
    have hlog := hn.log "Log" "" ("Removing sink for client: " ++ client) .info
    rw [records, if_pos hmem, serve]
    simp only [Frontend.removeSink, hs]
    refine ⟨⟨n, (hlog.detach hmn).register _, ?_, fun k hk => ?_⟩,
      hn.written "Log" "" ("Removing sink for client: " ++ client) .info⟩
    · exact (AList.lookup_erase_ne (Ne.symm hne)).trans hkey
    · refine hone k ?_
      by_cases hk' : k = folderize subfolder ++ client
      · rw [hk', AList.lookup_erase] at hk
        cases hk
      · rwa [AList.lookup_erase_ne hk'] at hk

theorem HasGlobal.serve (h : f.HasGlobal opened) {c : Traffic} (hc : c.KeepsGlobal) :
    (f.serve c).HasGlobal opened ∧ (f.serve c).globalLines = f.globalLines ++ if opened then f.records c else [] := by
  cases c with
  | makeSink disk client subfolder => exact h.makeSink disk client subfolder
  | removeSink client subfolder => exact h.removeSink hc
  | log client subfolder message priority =>
    obtain ⟨n, hn, hkey⟩ := h.sink
    exact ⟨⟨n, hn.log client subfolder message priority, hkey⟩, hn.written client subfolder message priority⟩

/-! ## Whole sequences -/

theorem run_global : ∀ (calls : List Traffic) {f : Frontend}, f.HasGlobal opened → (∀ c ∈ calls, c.KeepsGlobal) →
    (Runs.run Frontend.serve f calls).globalLines = f.globalLines ++ if opened then f.allRecords calls else []
  | [], f, _, _ => by
    rw [allRecords, ite_self, List.append_nil]
    rfl
  | c :: calls, f, h, hc => by
    obtain ⟨hg, hl⟩ := h.serve (hc c List.mem_cons_self)
    have ih := run_global calls hg fun d hd => hc d (List.mem_cons_of_mem _ hd)
    rw [Runs.run, List.foldl_cons, allRecords]
    refine ih.trans ?_
    rw [hl, List.append_assoc]
    cases opened <;> rfl

/-- A line that is written is of the file of a sink that accepts the client. -/
theorem mem_written_log {client subfolder message : String} {priority : MessagePriority}
    {l : String × MessagePriority × String} (hl : l ∈ (f.log client subfolder message priority).written) :
    l ∈ f.written ∨ ∃ s ∈ f.sinks, s.accepts (folderize subfolder ++ client) = true ∧ l.1 = s.file := by
  refine (List.mem_append.1 hl).imp_right fun hl => ?_
  obtain ⟨n, -, hn⟩ := List.mem_filterMap.1 hl
  unfold lineOf at hn
  split at hn
  · rename_i s hs
    split at hn
    · rename_i ha
      obtain rfl := Option.some.inj hn
      exact ⟨s, List.mem_of_getElem? hs, (Bool.and_eq_true_iff.1 ha).1, rfl⟩
    · cases hn
  · cases hn

theorem mem_written_makeSink {disk : Disk} {client subfolder : String} {l : String × MessagePriority × String}
    (hl : l ∈ (f.serve (.makeSink disk client subfolder)).written) :
    l ∈ f.written ∨
      ∃ s ∈ (f.serve (.makeSink disk client subfolder)).sinks, s.accepts (folderize "" ++ "Log") = true ∧ l.1 = s.file := by
  rw [serve_makeSink] at hl ⊢
  split at hl
  · rename_i hmade
    rw [if_pos hmade]
    rcases mem_written_log hl with hl | hs
    · exact mem_written_log hl
    · exact Or.inr hs
  · exact Or.inl hl

/-- `init` makes the sink, and takes its filter away. -/
theorem init_listens (opens : String → Bool) (folder : String) :
    (init true opens folder).Listens 1 (opens (folderize folder ++ "Global")) := by
  have hempty : folderize "" = "" := by decide
  have hsinks : (init true opens folder).sinks =
      [⟨folderize folder ++ folderize "" ++ "Log", some (folderize "" ++ "Log"), opens (folderize folder ++ folderize "" ++ "Log")⟩,
        ⟨folderize folder ++ folderize "" ++ "Global", none, opens (folderize folder ++ folderize "" ++ "Global")⟩] := rfl
  have hattached : (init true opens folder).attached = [0, 1] := rfl
  have hfolder : (init true opens folder).logFolder = folderize folder := rfl
  rw [hempty, String.append_empty] at hsinks
  refine ⟨?_, ?_, ?_, ?_, ?_⟩
  · rw [hattached]
    decide
  · rw [hattached, hsinks]
    simp
  · rw [hattached]
    decide
  · rw [hsinks, hfolder]
    rfl
  · rw [hattached, hsinks, hfolder]
    intro m hm hm1 s hs
    obtain rfl : m = 0 := by
      simp only [List.mem_cons, List.not_mem_nil, or_false] at hm
      exact hm.resolve_right hm1
    obtain rfl := Option.some.inj hs
    rw [Ne, String.append_right_inj]
    decide

theorem init_hasGlobal (opens : String → Bool) (folder : String) :
    (init true opens folder).HasGlobal (opens (folderize folder ++ "Global")) := by
  have hempty : folderize "" = "" := by decide
  have hkeys : (init true opens folder).availableSinks =
      ((∅ : UnorderedMap String Nat).insert (folderize "" ++ "Log") 0).insert (folderize "" ++ "Global") 1 := rfl
  rw [hempty, String.empty_append, String.empty_append] at hkeys
  refine ⟨1, init_listens opens folder, ?_, fun k hk => ?_⟩
  · rw [hkeys, UnorderedMap.lookup_insert_if, if_pos rfl]
  · rw [hkeys] at hk
    simp only [UnorderedMap.lookup_insert_if] at hk
    split at hk
    · assumption
    · split at hk <;> cases hk

/-- The records that `init` makes come before, when the sink still has its filter. -/
theorem globalLines_init (opens : String → Bool) (folder : String) : (init true opens folder).globalLines = [] := by
  have hempty : folderize "" = "" := by decide
  have hfolder : (init true opens folder).logFolder = folderize folder := rfl
  let first : Frontend := serve ⟨folderize folder, [], [], ∅, []⟩ (.makeSink ⟨fun _ => true, opens⟩ "Log" "")
  let second : Frontend := first.serve (.makeSink ⟨fun _ => true, opens⟩ "Global" "")
  have hfirst : first.sinks = [⟨folderize folder ++ folderize "" ++ "Log", some (folderize "" ++ "Log"), _⟩] := rfl
  have hsecond : second.sinks = [⟨folderize folder ++ folderize "" ++ "Log", some (folderize "" ++ "Log"), _⟩,
      ⟨_, some (folderize "" ++ "Global"), _⟩] := rfl
  have hwritten : ∀ l ∈ (init true opens folder).written, l.1 = folderize folder ++ folderize "" ++ "Log" := by
    intro l hl
    have hl : l ∈ second.written := hl
    rcases mem_written_makeSink hl with hl | ⟨s, hs, ha, hfile⟩
    · rcases mem_written_makeSink hl with hl | ⟨s, hs, -, hfile⟩
      · cases hl
      · obtain rfl := List.mem_singleton.1 (hfirst ▸ hs)
        exact hfile
    · have hs : s ∈ second.sinks := hs
      rw [hsecond] at hs
      rcases List.mem_cons.1 hs with rfl | hs
      · exact hfile
      · -- the filter of `Global` is still there
        obtain rfl := List.mem_singleton.1 hs
        simp [Sink.accepts, hempty] at ha
  rw [hempty, String.append_empty] at hwritten
  refine List.filterMap_eq_nil_iff.2 fun l hl => ?_
  rw [hwritten l hl, hfolder, if_neg]
  rw [String.append_right_inj]
  decide

/-- **`Global` holds every record**: over every sequence of calls in a build with `NAO_DEBUG` that does not remove its sink,
its file holds what was logged by anybody since `init`, once and in order; or it did not open, and holds nothing. -/
theorem global_exact (opens : String → Bool) (folder : String) (calls : List Traffic) (h : ∀ c ∈ calls, c.KeepsGlobal) :
    (served opens folder calls).globalLines =
      if opens (folderize folder ++ "Global") then (init true opens folder).allRecords calls else [] := by
  rw [served, run_global calls (init_hasGlobal opens folder) h, globalLines_init, List.nil_append]

/-- The file of the other client does not open. -/
theorem global_exact_reader :
    (served (fun _ => true) "log" [.makeSink ⟨fun _ => true, fun _ => false⟩ "Reader" "Modules",
        .log "Reader" "Modules" "five" .info, .removeSink "Reader" "Modules"]).globalLines =
      (init true (fun _ => true) "log").allRecords [.makeSink ⟨fun _ => true, fun _ => false⟩ "Reader" "Modules",
        .log "Reader" "Modules" "five" .info, .removeSink "Reader" "Modules"] := by
  refine (global_exact (fun _ => true) "log" _ fun c hc => ?_).trans (if_pos rfl)
  simp only [List.mem_cons, List.not_mem_nil, or_false] at hc
  rcases hc with rfl | rfl | rfl
  · trivial
  · trivial
  · exact fun e => absurd (path_eq_global e).1 (by decide)

end Frontend
end Log
end NaoFramework
