import RustChat.Accept

/-!
# What the accept loop keeps

Permits, ids and handles are three records of the same tasks. At every step of
the loop, and between any two completions, the permits count the live
handlers, the ids grow, and no handle is lost before its task has finished.
-/

set_option autoImplicit false

namespace RustChat.AcceptInvariant
open Runs TaskPool Accept

/-! ## Live handlers -/

/-- The handlers that hold a permit. -/
def live (s : State) : ℕ := s.tasks.count .running

theorem sum_isRunning (tasks : List Task) : (tasks.map isRunning).sum = tasks.count .running := by
  induction tasks with
  | nil => rfl
  | cons t tasks ih =>
    rw [List.map_cons, List.sum_cons, ih, List.count_cons, isRunning]
    simp [Nat.add_comm]

theorem balanced_live (s : State) (hs : Accept.Balanced s) :
    s.permits+ownPermit s.phase+live s = maxConnections := by
  unfold Accept.Balanced at hs
  rwa [sum_isRunning] at hs

/-! ## Handles -/

/-- The contents of `handles`, with the handle that is being pushed and what
`retain` has kept and has still to look at. -/
def tracked (s : State) : List ℕ :=
  match s.phase with
  | .pushing k => s.handles++[k]
  | .retaining kept todo => kept++todo
  | _ => s.handles

structure Tracked (s : State) : Prop where
  unfinished : ∀ (k : ℕ) t, s.tasks[k]? = some t → t ≠ .finished → k ∈ tracked s
  joined : s.phase = .returned → s.handles = []

theorem unfinished_ne (s : State) (j k : ℕ) (u : Task) (hu : s.tasks[j]? = some u) (hne : u ≠ .finished)
    (hk : s.tasks[k]? = some .finished) : j ≠ k := fun e =>
  hne (Option.some.inj (hu.symm.trans (e ▸ hk)))

theorem step_tracked (s : State) (a : Action) (t : State) (hs : Tracked s) (h : step s a = some t) :
    Tracked t := by
  obtain ⟨hs,hj⟩ := hs
  unfold tracked at hs
  cases step_move s a t h with
  | acceptError => exact ⟨hs,hj⟩
  | connect hp | refuse hp _ | acquire hp _ | identify hp | count _ hp | push _ hp | keep _ _ _ hp _
    | retained _ hp | ctrlC hp =>
    rw [hp] at hs
    exact ⟨by simpa [tracked] using hs,by simp⟩
  | spawn id active hp =>
    rw [hp] at hs
    refine ⟨fun j u hu hne => ?_,by simp⟩
    simp only [tracked, List.mem_append, List.mem_singleton]
    rcases Nat.lt_or_ge j s.tasks.length with hlt | hge
    · rw [List.getElem?_append_left hlt] at hu
      exact Or.inl (hs j u hu hne)
    · have hlt := (List.getElem?_eq_some_iff.mp hu).1
      rw [List.length_append, List.length_singleton] at hlt
      exact Or.inr (by omega)
  | drop kept k todo hp hk =>
    rw [hp] at hs
    refine ⟨fun j u hu hne => ?_,by simp⟩
    have hmem := hs j u hu hne
    simp only [List.mem_append, List.mem_cons, unfinished_ne s j k u hu hne hk, false_or] at hmem
    simpa [tracked] using hmem
  | join k rest hp hh hk =>
    rw [hp] at hs
    refine ⟨fun j u hu hne => ?_,by simp [hp]⟩
    have hmem := hs j u hu hne
    simp only [hh, List.mem_cons, unfinished_ne s j k u hu hne hk, false_or] at hmem
    simpa [tracked, hp] using hmem
  | leave hp hh =>
    rw [hp] at hs
    exact ⟨hs,fun _ => hh⟩
  | release k hk =>
    refine ⟨fun j u hu hne => ?_,hj⟩
    rcases getElem?_set_cases s.tasks k j .released u hu with ⟨rfl,_⟩ | ⟨_,hu⟩
    · exact hs j .running hk (by simp)
    · exact hs j u hu hne
  | finish k hk =>
    refine ⟨fun j u hu hne => ?_,hj⟩
    rcases getElem?_set_cases s.tasks k j .finished u hu with ⟨_,rfl⟩ | ⟨_,hu⟩
    · exact absurd rfl hne
    · exact hs j u hu hne

theorem run_tracked (as : List Action) (s : State) (h : run step as init = some s) : Tracked s :=
  run_invariant Tracked step_tracked as init s ⟨by simp [init],by simp [init]⟩ h

/-! ## The loop -/

theorem refused_iff (s t : State) (hb : Accept.Balanced s) (hp : s.phase = .accepted)
    (h : step s .go = some t) :
    (t.phase = .selecting ↔ live s = maxConnections) ∧
      (t.phase = .selecting → t = { s with phase := .selecting }) := by
  have hl := balanced_live s hb
  simp only [hp, ownPermit] at hl
  simp only [step, advance, hp] at h
  split_ifs at h with h0
  · cases h
    exact ⟨⟨fun _ => by omega,fun _ => rfl⟩,fun _ => rfl⟩
  · cases h
    exact ⟨⟨fun hq => by simp at hq,fun hq => by omega⟩,fun hq => by simp at hq⟩

theorem active_exact (s t : State) (id : ℕ) (hb : Accept.Balanced s) (hp : s.phase = .identified id)
    (h : step s .go = some t) : s.permits < maxConnections ∧ t.phase = .counted id (live s+1) := by
  have hl := balanced_live s hb
  simp only [hp, ownPermit] at hl
  simp only [step, advance, hp] at h
  cases h
  exact ⟨by omega,congrArg (Phase.counted id) (by omega)⟩

/-- For any order of accepts, accept errors, completions and Ctrl-C. The live
handlers and the loop's own permit are the permits in use, so `active` is
computed without underflow and counts the new connection. Ids grow, a refused
connection leaves everything as it was, an unfinished task is never lost from
`handles`, and when the loop returns all of them have finished. -/
theorem accept_loop_kept (as : List Action) (s : State) (h : run step as init = some s) :
    (live s ≤ maxConnections ∧ s.permits ≤ maxConnections ∧
      live s+ownPermit s.phase = maxConnections-s.permits) ∧
    (∀ id t, s.phase = .identified id → step s .go = some t →
      s.permits < maxConnections ∧ t.phase = .counted id (live s+1)) ∧
    (s.ids.Pairwise (· < ·) ∧ s.ids.length = s.tasks.length) ∧
    (∀ t, s.phase = .accepted → step s .go = some t →
      (t.phase = .selecting ↔ live s = maxConnections) ∧
        (t.phase = .selecting → t = { s with phase := .selecting })) ∧
    (∀ (k : ℕ) t, s.tasks[k]? = some t → t ≠ .finished → k ∈ tracked s) ∧
    (s.phase = .returned → ∀ t ∈ s.tasks, t = .finished) := by
  have hb := run_balanced as s h
  have hl := balanced_live s hb
  have hids := (run_issued as s h).1
  have htracked := run_tracked as s h
  refine ⟨by omega,fun id t hp ht => active_exact s t id hb hp ht,⟨?_,?_⟩,
    fun t hp ht => refused_iff s t hb hp ht,htracked.unfinished,fun hp t ht => ?_⟩
  · rw [hids]
    exact List.pairwise_lt_range'
  · rw [hids, List.length_range']
  · obtain ⟨k,hk⟩ := List.mem_iff_getElem?.mp ht
    by_contra hne
    have hmem := htracked.unfinished k t hk hne
    simp [tracked, hp, htracked.joined hp] at hmem

/-- Two connections; the first handler ends while the second is accepted. -/
def twoConnections : List Action :=
  [.connect,.go,.go,.go,.spawn,.go,.go,.go,.acceptError,.connect,.go,.go,.release 0,.go,.spawn,
   .finish 0,.go,.go,.go,.go,.ctrlC,.release 1,.finish 1,.go,.go]

def twoConnectionsEnd : State := (run step twoConnections init).get (by decide +kernel)

theorem two_connections_kept :
    twoConnectionsEnd.phase = .returned ∧ twoConnectionsEnd.ids = [1,2] ∧
      ∀ t ∈ twoConnectionsEnd.tasks, t = .finished := by
  have hrun : run step twoConnections init = some twoConnectionsEnd := (Option.some_get _).symm
  exact ⟨by decide +kernel,by decide +kernel,
    (accept_loop_kept twoConnections twoConnectionsEnd hrun).2.2.2.2.2 (by decide +kernel)⟩

end RustChat.AcceptInvariant
