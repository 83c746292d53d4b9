import NaoFramework.FairRuns
import NaoFramework.WaveThread
/-!
# WaveReturns — calls on a wave come to an end

`pause` joins the thread of the wave, and so do `addModule` on a wave that runs and the destructor: the caller waits until
the thread has read the flag again.  The thread starts no further pass by then (`join_waits_for_one_pass`), so that every
call returns, whatever the interleaving, as long as neither thread is kept from going on for ever (`calls_return`).  That
`execute` of every module returns is taken for granted: it is a step here.
-/
namespace NaoFramework
namespace Core

variable {M : Type}

/-- How many steps a thread takes to its end, once the flag is cleared. -/
def Worker.rest : Worker → Nat
  | .ended => 0
  | .loop => 1
  | .pass done size => size - done + 2

namespace Threads

/-- How many steps there are until the call in progress returns, at most, if only those are taken that get it on. -/
def rest (s : Threads M) : Nat :=
  match s.control with
  | .idle | .fault _ => 0
  | .executeAssign _ => 1
  | .executeSpawn => 2
  | .executeStore => 3
  | .executeLoad => 4
  | .addPush _ _ => 5
  | .pauseJoin _ => 6 + ((s.object.wave.bind fun n => s.threads[n]?).elim 0 Worker.rest)
  | .pauseStore _ => s.object.modules.length + 9
  | .pauseLoad _ => s.object.modules.length + 10
  | .addLoad _ => s.object.modules.length + 11

/-- Who gets the call on: the controlling thread, or the one it waits for. -/
def helper (s : Threads M) : Label M :=
  match s.control, s.object.wave with
  | .pauseJoin _, some n => if s.threads[n]? = some .ended then .control else .worker n
  | _, _ => .control

variable {s s' : Threads M}

/-- The thread that may be live, and how far it has to go. -/
theorem Active.last {n : Nat} (h : Active n s.threads s.object.modules s.trace) :
    ∃ w, s.threads[n]? = some w ∧ w.rest ≤ s.object.modules.length + 2 ∧ (∀ done size, w = .pass done size → done ≤ size ∧
      size = s.object.modules.length) := by
  obtain ⟨earlier, w, ht, rfl, -, hw⟩ := h.split
  refine ⟨w, by rw [ht]; simp, ?_, ?_⟩
  · cases w with
    | pass done size =>
      obtain ⟨rfl, -⟩ := hw
      simp only [Worker.rest]
      omega
    | _ => simp [Worker.rest]
  · rintro done size rfl
    exact ⟨hw.2.1, hw.1⟩

/-- **Once the flag is cleared every step of the thread gets nearer to its end**, and none starts a pass. -/
theorem Active.nears {n j : Nat} (h : Active n s.threads s.object.modules s.trace) (hr : s.object.running = false)
    (hs : s.workerStep j = some s') :
    (∃ w w', s.threads[n]? = some w ∧ s'.threads[n]? = some w' ∧ w'.rest < w.rest) ∧
      ∃ ran : List M, s'.trace = s.trace ++ ran.map .ran := by
  unfold workerStep at hs
  cases hj : s.threads[j]? with
  | none => rw [hj] at hs; cases hs
  | some w =>
    rw [hj] at hs
    have hset : ∀ w', (s.threads.set j w')[j]? = some w' := fun w' =>
      List.getElem?_set_self (List.getElem?_eq_some_iff.1 hj).1
    cases w with
    | ended => cases hs
    | loop =>
      obtain rfl := h.live_eq ⟨_, hj, by simp⟩
      simp only [hr, Bool.false_eq_true, if_false] at hs
      obtain rfl := Option.some.inj hs
      exact ⟨⟨_, _, hj, hset _, Nat.one_pos⟩, [], (List.append_nil _).symm⟩
    | pass done size =>
      obtain rfl := h.live_eq ⟨_, hj, by simp⟩
      simp only at hs
      split at hs
      · obtain ⟨m, -, rfl⟩ := Option.map_eq_some_iff.1 hs
        refine ⟨⟨_, _, hj, hset _, ?_⟩, [m], rfl⟩
        simp only [Worker.rest]
        omega
      · obtain rfl := Option.some.inj hs
        refine ⟨⟨_, _, hj, hset _, ?_⟩, [], (List.append_nil _).symm⟩
        simp only [Worker.rest]
        omega

/-- A thread that is waited for can go on. -/
theorem Active.possible {n : Nat} (h : Active n s.threads s.object.modules s.trace) (hn : s.threads[n]? ≠ some .ended) :
    (s.workerStep n).isSome := by
  obtain ⟨w, hw, -, hpass⟩ := h.last
  unfold workerStep
  rw [hw]
  cases w with
  | ended => exact absurd hw hn
  | loop =>
    simp only
    split <;> rfl
  | pass done size =>
    obtain ⟨hle, rfl⟩ := hpass done size rfl
    simp only
    split
    · rename_i hlt
      rw [List.getElem?_eq_getElem hlt]
      rfl
    · rfl

theorem rest_pauseJoin {next : Option M} {n : Nat} {w : Worker} (hc : s.control = .pauseJoin next)
    (hn : s.object.wave = some n) (hw : s.threads[n]? = some w) : s.rest = 6 + w.rest := by
  simp only [rest, hc, hn, Option.bind_some, hw, Option.elim_some]

/-- A launched thread gets a call on that waits for it, and leaves any other where it is. -/
theorem rest_worker {j : Nat} (h : s.Inv) (hs : s.workerStep j = some s') :
    s'.rest < s.rest ∨ ((∀ next, s.control ≠ .pauseJoin next) ∧ s'.rest = s.rest ∧ s'.helper = s.helper) := by
  obtain ⟨ho, hc⟩ := workerStep_frame hs
  cases hcs : s.control with
  | pauseJoin next =>
    unfold Inv at h
    rw [hcs] at h
    obtain ⟨hr, n, hn, ha⟩ := h
    obtain ⟨⟨w, w', hw, hw', hlt⟩, -⟩ := ha.nears hr hs
    refine Or.inl ?_
    rw [rest_pauseJoin hcs hn hw, rest_pauseJoin (hc.trans hcs) (ho ▸ hn) hw']
    omega
  | _ => exact Or.inr ⟨fun next => by simp, by simp only [rest, hc, hcs, ho], by simp only [helper, hc, hcs]⟩

variable [ModuleInterface M]

/-- Every step of the controlling thread gets the call on. -/
theorem rest_control (h : s.Inv) (hs : s.controlStep = some s') : s'.rest < s.rest := by
  obtain ⟨⟨name, modules, indices, running, wave⟩, threads, control, trace⟩ := s
  cases control with
  | idle | fault f => cases hs
  | executeStore | executeSpawn =>
    obtain rfl := Option.some.inj hs
    exact Nat.lt_succ_self _
  | executeLoad =>
    obtain rfl := Option.some.inj hs
    cases running <;> simp [rest]
  | addPush m restart =>
    obtain rfl := Option.some.inj hs
    cases restart <;> simp [rest]
  | executeAssign n =>
    obtain ⟨-, hw, -⟩ := h
    obtain rfl : wave = _ := hw
    obtain rfl := Option.some.inj hs
    exact Nat.one_pos
  | addLoad m =>
    obtain rfl := Option.some.inj hs
    cases running <;> simp [rest]
  | pauseLoad next =>
    obtain rfl := Option.some.inj hs
    cases running <;> cases next <;> simp [rest, returned]
  | pauseStore next =>
    obtain ⟨-, n, hw, ha⟩ := h
    obtain rfl := Option.some.inj hs
    obtain ⟨w, hwn, hle, -⟩ := ha.last
    refine Nat.lt_of_le_of_lt (Nat.le_of_eq (rest_pauseJoin (s := ⟨_, threads, .pauseJoin next, trace⟩) rfl hw hwn)) ?_
    simp only [rest] at hle ⊢
    omega
  | pauseJoin next =>
    obtain ⟨-, n, hw, -⟩ := h
    obtain rfl : wave = _ := hw
    simp only [controlStep] at hs
    split at hs
    · obtain rfl := Option.some.inj hs
      cases next <;> simp only [rest, returned] <;> omega
    · cases hs

/-- Somebody can always get the call on. -/
theorem possible_helper (h : s.Inv) (hidle : s.control ≠ .idle) : (s.step s.helper).isSome := by
  obtain ⟨⟨name, modules, indices, running, wave⟩, threads, control, trace⟩ := s
  cases control with
  | idle => exact absurd rfl hidle
  | fault f => cases h
  | executeAssign n =>
    obtain ⟨-, hw, -⟩ := h
    obtain rfl : wave = _ := hw
    rfl
  | pauseJoin next =>
    obtain ⟨-, n, hw, ha⟩ := h
    obtain rfl : wave = _ := hw
    simp only [helper]
    split
    · rename_i hn
      simp only [step, controlStep, hn, if_true, Option.isSome_some]
    · rename_i hn
      exact ha.possible hn
  | _ => rfl

/-- **There is always someone who gets the call on**, and nobody sets it back. -/
theorem helpful : Runs.Helpful (step (M := M)) (fun l => ∀ c, l ≠ .call c) Inv (fun s => s.control = .idle) rest helper := by
  have hkeeps : ∀ (s : Threads M) (l : Label M) (s' : Threads M), s.Inv → s.control ≠ .idle → s.step l = some s' →
      s'.rest < s.rest ∨ (s'.rest = s.rest ∧ s'.helper = s.helper ∧ l ≠ s.helper) := by
    intro s l s' h hidle hs
    cases l with
    | call c =>
      have hb : s.begin c = none := by
        unfold begin
        split
        · rename_i hc
          exact absurd hc hidle
        · rfl
      rw [step, hb] at hs
      cases hs
    | control => exact Or.inl (rest_control h hs)
    | worker j =>
      rcases rest_worker h hs with hlt | ⟨hj, hr, hh⟩
      · exact Or.inl hlt
      refine Or.inr ⟨hr, hh, ?_⟩
      unfold helper
      split
      · rename_i hc _
        exact absurd hc (hj _)
      · exact fun e => by cases e
  refine ⟨fun s _ _ c => ?_, fun s h hidle => possible_helper h hidle, fun s s' h hidle hs => ?_,
    fun s l s' h hidle hs => (hkeeps s l s' h hidle hs).imp_right fun hk => ⟨hk.1, hk.2.1⟩⟩
  · unfold helper
    split
    · split <;> exact fun e => by cases e
    · exact fun e => by cases e
  · rcases hkeeps s _ s' h hidle hs with hlt | ⟨-, -, hne⟩
    · exact hlt
    · exact absurd rfl hne

/-- **Every call on a wave returns**, in every interleaving that is fair to the controlling thread and to the wave's. -/
theorem calls_return (name : String) (states : ℕ → Threads M) (labels : ℕ → Option (Label M)) (h0 : states 0 = new name)
    (h : Runs.FairRun step (fun l => ∀ c, l ≠ .call c) states labels) (n : ℕ) :
    ∃ m, n ≤ m ∧ (states m).control = .idle := by
  have hi : (states 0).Inv := h0 ▸ reachable_inv ⟨[], rfl⟩
  exact h.eventually helpful (h.invariant (fun _ _ _ => step_inv) hi) n

/-- A wave is executed and paused, and nothing follows. -/
def pausedRun : List (Label String) :=
  [.call .execute, .control, .control, .control, .control, .call .pause, .control, .control, .worker 0, .control]

/-- After eight steps the caller of `pause` waits for the thread. -/
theorem calls_return_paused : ∃ m, 8 ≤ m ∧
    ((Runs.runPossible step (new "wave" : Threads String) (pausedRun.take m)).getD (new "wave")).control = .idle := by
  refine calls_return "wave" _ (fun n => pausedRun[n]?) rfl ⟨fun n l hl => ?_, fun n hn => ?_, fun l hl n hp => ?_⟩ 8
  · match n, hl with
    | 0, rfl | 1, rfl | 2, rfl | 3, rfl | 4, rfl | 5, rfl | 6, rfl | 7, rfl | 8, rfl | 9, rfl => rfl
    | n + 10, hl => cases hl
  · have hlen : pausedRun.length ≤ n := List.getElem?_eq_none_iff.1 hn
    rw [List.take_of_length_le hlen, List.take_of_length_le (Nat.le_succ_of_le hlen)]
  · -- at the end nothing is possible but another call
    have hlast := hp (n + 10) (Nat.le_add_right _ _)
    rw [List.take_of_length_le (Nat.le_add_left 10 n)] at hlast
    match l with
    | .call c => exact absurd rfl (hl c)
    | .control | .worker 0 | .worker (j + 1) => cases hlast

/-- What the thread of the wave does while it is waited for. -/
theorem join_waits {next : Option M} : ∀ (js : List ℕ) (s s' : Threads M), s.Inv → s.control = .pauseJoin next →
    Runs.runPossible step s (js.map .worker) = some s' →
      js.length + s'.rest ≤ s.rest ∧ s'.control = .pauseJoin next ∧ ∃ ran : List M, s'.trace = s.trace ++ ran.map .ran
  | [], s, s', _, hc, hr => by
    obtain rfl := Option.some.inj hr
    exact ⟨by simp, hc, [], (List.append_nil _).symm⟩
  | j :: js, s, s', h, hc, hr => by
    obtain ⟨t, ht, hr⟩ := Option.bind_eq_some_iff.1 hr
    obtain ⟨hle, hc', ran, hran⟩ := join_waits js t s' (step_inv h ht) ((workerStep_frame ht).2.trans hc) hr
    have hlt : t.rest < s.rest := by
      rcases rest_worker h ht with hlt | ⟨hne, -⟩
      · exact hlt
      · exact absurd hc (hne next)
    unfold Inv at h
    rw [hc] at h
    obtain ⟨hflag, n, -, ha⟩ := h
    obtain ⟨-, ran₀, hran₀⟩ := ha.nears hflag ht
    refine ⟨?_, hc', ran₀ ++ ran, by rw [hran, hran₀, List.map_append, List.append_assoc]⟩
    rw [List.length_cons]
    omega

/-- **A caller waits for one pass at most**: while it joins, the thread of the wave takes no more steps than there are
modules, and two, and starts no pass. -/
theorem join_waits_for_one_pass (name : String) (s s' : Threads M) (h : Reachable name s) (next : Option M)
    (hc : s.control = .pauseJoin next) (js : List ℕ) (hr : Runs.runPossible step s (js.map .worker) = some s') :
    js.length ≤ s.object.modules.length + 2 ∧ ∃ ran : List M, s'.trace = s.trace ++ ran.map .ran := by
  have hi := reachable_inv h
  obtain ⟨hle, hc', hran⟩ := join_waits js s s' hi hc hr
  have hsix : 6 ≤ s'.rest := by
    unfold rest
    rw [hc']
    exact Nat.le_add_right _ _
  unfold Inv at hi
  rw [hc] at hi
  obtain ⟨-, n, hn, ha⟩ := hi
  obtain ⟨w, hw, hrest, -⟩ := ha.last
  rw [rest_pauseJoin hc hn hw] at hle
  exact ⟨by omega, hran⟩

/-- The flag is cleared in the middle of a pass. -/
theorem join_waits_in_pass :
    [0, 0].length ≤ 1 + 2 ∧ ∃ ran : List String,
      [.added "Writer", .passStarted, .ran "Writer"] = [.added "Writer", .passStarted] ++ ran.map Event.ran :=
  join_waits_for_one_pass "wave" ⟨⟨"wave", ["Writer"], _, false, some 0⟩, [.pass 0 1], .pauseJoin none, _⟩
    ⟨⟨"wave", ["Writer"], _, false, some 0⟩, [.loop], .pauseJoin none, _⟩
    ⟨[.call (.addModule "Writer"), .control, .control, .call .execute, .control, .control, .control, .control,
      .worker 0, .call .pause, .control, .control], rfl⟩ none rfl [0, 0] rfl

end Threads

end Core
end NaoFramework
