import RustChat.Accept
import RustChat.Hub

/-!
# The server

The accept loop together with the handlers it spawns. The two move
independently but for three steps: a spawn adds a handler, Ctrl-C sends
`Shutdown` to all of them, and a task drops its permit once its handler has
returned.
-/

set_option autoImplicit false

namespace RustChat.Server
open Runs Handler

structure State where
  accept : Accept.State
  hub : Hub.State

def init : State := ⟨Accept.init,Hub.init⟩

inductive Action where
  | accept (a : Accept.Action)
  | conn (k : ℕ) (i : Input)
  | throttle (k clock : ℕ)
  deriving DecidableEq, Repr

/-- The step of the hub in a step of the server. -/
def hubAction : Action → Option Hub.Action
  | .accept .spawn => some .spawn
  | .accept .ctrlC => some .shutdown
  | .accept _ => none
  | .conn k i => some (.conn k i)
  | .throttle k clock => some (.throttle k clock)

/-- The step of the accept loop, or of the tasks it watches. -/
def acceptAction : Action → Option Accept.Action
  | .accept a => some a
  | _ => none

def hasReturned (c : Conn) : Bool :=
  match c.phase with
  | .returned _ => true
  | _ => false

/-- A task ends when its handler has returned. -/
def allowed (s : State) : Action → Bool
  | .accept (.release k) => (s.hub.tasks[k]?).any hasReturned
  | _ => true

def stepOption {σ α : Type*} (step : σ → α → Option σ) (s : σ) : Option α → Option σ
  | some a => step s a
  | none => some s

def step (cap : ℕ) (s : State) (a : Action) : Option State :=
  if allowed s a then
    (stepOption Accept.step s.accept (acceptAction a)).bind fun accept =>
      (stepOption (Hub.step cap) s.hub (hubAction a)).map fun hub => ⟨accept,hub⟩
  else none

theorem step_parts (cap : ℕ) (s : State) (a : Action) (t : State) (h : step cap s a = some t) :
    allowed s a = true ∧ stepOption Accept.step s.accept (acceptAction a) = some t.accept ∧
      stepOption (Hub.step cap) s.hub (hubAction a) = some t.hub := by
  unfold step at h
  split_ifs at h with ha
  obtain ⟨accept,hacc,h⟩ := Option.bind_eq_some_iff.mp h
  obtain ⟨hub,hhub,rfl⟩ := Option.map_eq_some_iff.mp h
  exact ⟨ha,hacc,hhub⟩

theorem run_stepOption {σ α : Type*} (step : σ → α → Option σ) (as : List α) (s t u : σ)
    (a : Option α) (h : run step as s = some t) (hs : stepOption step t a = some u) :
    run step (as++a.toList) s = some u := by
  cases a with
  | none =>
    obtain rfl : t = u := Option.some.inj hs
    simpa using h
  | some a => exact (run_snoc as a s u).mpr ⟨t,h,hs⟩

/-- A run of the server is a run of its accept loop and one of its hub. -/
theorem run_parts (cap : ℕ) (as : List Action) (s : State) (h : run (step cap) as init = some s) :
    run Accept.step (as.filterMap acceptAction) Accept.init = some s.accept ∧
      run (Hub.step cap) (as.filterMap hubAction) Hub.init = some s.hub := by
  refine run_history (fun as s =>
    run Accept.step (as.filterMap acceptAction) Accept.init = some s.accept ∧
      run (Hub.step cap) (as.filterMap hubAction) Hub.init = some s.hub) init ⟨rfl,rfl⟩ ?_ as s h
  rintro as m a t _ ⟨hacc,hhub⟩ ht
  obtain ⟨_,ha,hh⟩ := step_parts cap m a t ht
  have hcons : ∀ {β : Type} (f : Action → Option β),
      (as++[a]).filterMap f = as.filterMap f++(f a).toList := by
    intro β f
    rw [List.filterMap_append]
    cases hf : f a <;> simp [hf]
  rw [hcons, hcons]
  exact ⟨run_stepOption _ _ _ _ _ _ hacc ha,run_stepOption _ _ _ _ _ _ hhub hh⟩

/-! ## Tasks and their handlers -/

theorem moved_returned (cap : ℕ) (s : Hub.State) (a : Hub.Action) (k : ℕ) (c c' : Conn)
    (h : Hub.Moved cap s a k c c') (hc : hasReturned c = true) : hasReturned c' = true := by
  rcases h with ⟨rfl,_⟩ | ⟨i,_,⟨e,hs⟩ | hw⟩
  · exact hc
  · cases hs <;> simp_all [hasReturned]
  · rw [hasReturned, (HandlerSteps.writer_frame cap s.shared c i c' hw).2.1]
    exact hc

/-- There is one task for each handler, under the same id, and a task that is
no longer running has a handler that has returned. -/
structure Joint (s : State) : Prop where
  length : s.accept.tasks.length = s.hub.tasks.length
  ended : ∀ (k : ℕ) t c, s.accept.tasks[k]? = some t → t ≠ .running → s.hub.tasks[k]? = some c →
    hasReturned c = true

theorem hub_backward (cap : ℕ) (s t : Hub.State) (a : Option Hub.Action)
    (h : stepOption (Hub.step cap) s a = some t) :
    t.tasks.length = s.tasks.length+(if a = some .spawn then 1 else 0) ∧
      ∀ (k : ℕ) c', t.tasks[k]? = some c' → k < s.tasks.length →
        ∃ c, s.tasks[k]? = some c ∧ (hasReturned c = true → hasReturned c' = true) := by
  cases a with
  | none =>
    obtain rfl : s = t := Option.some.inj h
    exact ⟨by simp,fun k c' hc' _ => ⟨c',hc',id⟩⟩
  | some b =>
    refine ⟨?_,fun k c' hc' hk => ?_⟩
    · cases Hub.step_hub cap s b t h <;> simp
    · rcases Hub.conn_backward cap s t b h k c' hc' with ⟨c,hc,hm⟩ | ⟨_,rfl,_⟩
      · exact ⟨c,hc,moved_returned cap s b k c c' hm⟩
      · omega

theorem step_joint (cap : ℕ) (s : State) (a : Action) (t : State) (hs : Joint s)
    (h : step cap s a = some t) : Joint t := by
  obtain ⟨hal,ha,hh⟩ := step_parts cap s a t h
  obtain ⟨hlen,hback⟩ := hub_backward cap s.hub t.hub (hubAction a) hh
  obtain ⟨accept,hub⟩ := t
  have hold : ∀ (k : ℕ) u c', s.accept.tasks[k]? = some u → u ≠ .running →
      hub.tasks[k]? = some c' → hasReturned c' = true := by
    intro k u c' hu hne hc'
    have hk := (List.getElem?_eq_some_iff.mp hu).1
    obtain ⟨c,hc,hr⟩ := hback k c' hc' (by rw [← hs.length]; exact hk)
    exact hr (hs.ended k u c hu hne hc)
  cases a with
  | conn k i | throttle k clock =>
    obtain rfl : s.accept = accept := Option.some.inj ha
    exact ⟨by rw [hlen, hs.length]; simp [hubAction],hold⟩
  | accept b =>
    have ha : Accept.step s.accept b = some accept := ha
    rcases Accept.step_tasks s.accept b accept ha with
      ⟨hb,ht⟩ | ⟨rfl,ht⟩ | ⟨j,rfl,hj,ht⟩ | ⟨j,rfl,hj,ht⟩
    · refine ⟨?_,by rw [ht]; exact hold⟩
      rw [ht, hlen, hs.length]
      cases b <;> simp_all [hubAction]
    · refine ⟨by rw [ht, hlen]; simp [hs.length, hubAction],fun k u c' hu hne hc' => ?_⟩
      rw [ht] at hu
      rcases Nat.lt_or_ge k s.accept.tasks.length with hk | hk
      · rw [List.getElem?_append_left hk] at hu
        exact hold k u c' hu hne hc'
      · rw [List.getElem?_append_right hk, List.getElem?_singleton] at hu
        split_ifs at hu
        exact absurd (Option.some.inj hu).symm hne
    · obtain rfl : s.hub = hub := Option.some.inj hh
      refine ⟨by rw [ht, List.length_set, hs.length],fun k u c' hu hne hc' => ?_⟩
      rw [ht] at hu
      rcases TaskPool.getElem?_set_cases s.accept.tasks j k _ u hu with ⟨rfl,rfl⟩ | ⟨_,hu⟩
      · simpa [allowed, hc'] using hal
      · exact hold k u c' hu hne hc'
    · refine ⟨by rw [ht, List.length_set, hlen, hs.length]; simp [hubAction],fun k u c' hu hne hc' => ?_⟩
      rw [ht] at hu
      rcases TaskPool.getElem?_set_cases s.accept.tasks j k _ u hu with ⟨rfl,rfl⟩ | ⟨_,hu⟩
      · exact hold k .released c' hj (by simp) hc'
      · exact hold k u c' hu hne hc'

theorem run_joint (cap : ℕ) (as : List Action) (s : State) (h : run (step cap) as init = some s) :
    Joint s :=
  run_invariant Joint (step_joint cap) as init s ⟨rfl,by simp [init, Accept.init]⟩ h

/-! ## How many handlers are there -/

theorem unfinished_le (tasks : List Accept.Task) (conns : List Conn)
    (h : List.Forall₂ (fun t c => t ≠ .running → hasReturned c = true) tasks conns) :
    (conns.filter fun c => !hasReturned c).length ≤ (tasks.map Accept.isRunning).sum := by
  induction h with
  | nil => simp
  | @cons t c tasks conns hd _ ih =>
    rw [List.filter_cons, List.map_cons, List.sum_cons]
    by_cases ht : t = .running
    · simp only [Accept.isRunning, ht, if_true]
      split_ifs
      · rw [List.length_cons]
        omega
      · omega
    · simp only [hd ht, Bool.not_true, Bool.false_eq_true, if_false]
      omega

theorem run_unfinished (cap : ℕ) (as : List Action) (s : State)
    (h : run (step cap) as init = some s) :
    (s.hub.tasks.filter fun c => !hasReturned c).length ≤ Accept.maxConnections := by
  have hj := run_joint cap as s h
  have hall : List.Forall₂ (fun t c => t ≠ Accept.Task.running → hasReturned c = true)
      s.accept.tasks s.hub.tasks := by
    refine List.forall₂_iff_get.mpr ⟨hj.length,fun k h1 h2 hne => ?_⟩
    exact hj.ended k _ _ (List.getElem?_eq_getElem h1) hne (List.getElem?_eq_getElem h2)
  have hbal := Accept.run_balanced _ s.accept (run_parts cap as s h).1
  have hle := unfinished_le s.accept.tasks s.hub.tasks hall
  unfold Accept.Balanced at hbal
  omega

end RustChat.Server
