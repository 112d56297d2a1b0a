import RustChat.ThrottleInvariant

/-!
# The throttle under a clock

The steps of the throttle in time: the clock never goes back, each step takes
place at one of its values, and a flush task sleeps at least for its delay.
Two facts are recorded on the way: when each snapshot was sent, and whether
the one in the slot was passed over by a call that was sent at once.
-/

set_option autoImplicit false

namespace RustChat.ThrottleClock
open Runs TaskPool Throttle

variable {α : Type*}

/-- `sentAt` and `bypassed` are history that no step reads. -/
structure Timed (α : Type*) where
  room : Throttle.State α
  now : ℕ
  sentAt : List ℕ
  bypassed : Bool

def init : Timed α := ⟨Throttle.init,0,[],false⟩

def due (clock : ℕ) : Thread α → Bool
  | .sleeping sinceMs delayMs => sinceMs+delayMs ≤ clock
  | _ => true

/-- Has a call been sent while the snapshot in the slot was waiting? -/
def bypass (g : Gate α) (b : Bool) : Thread α → Bool
  | .sending _ => b || g.pendingVoteBroadcast.isSome
  | .parking _ | .taking => false
  | _ => b

def step (s : Timed α) : Action α → Option (Timed α)
  | .call m => some { s with room := enter s.room m }
  | .thread k clock =>
    (s.room.tasks[k]?).bind fun t =>
      if s.now ≤ clock ∧ due clock t = true then
        (move next s.room k clock).map fun room =>
          ⟨room,clock,s.sentAt++(emits t).toList.map fun _ => clock,bypass s.room.shared s.bypassed t⟩
      else none

theorem step_thread (s s' : Timed α) (k clock : ℕ) (h : step s (.thread k clock) = some s') :
    ∃ t g t' fs, s.room.tasks[k]? = some t ∧ s.now ≤ clock ∧ due clock t = true ∧
      next s.room.shared t clock = some (g,t',fs) ∧
      s' = ⟨⟨g,s.room.tasks.set k t'++fs⟩,clock,s.sentAt++(emits t).toList.map fun _ => clock,
        bypass s.room.shared s.bypassed t⟩ := by
  obtain ⟨t,ht,h⟩ := Option.bind_eq_some_iff.mp h
  split_ifs at h with hd
  obtain ⟨room,hm,rfl⟩ := Option.map_eq_some_iff.mp h
  obtain ⟨u,g,t',fs,hu,hn,rfl⟩ := move_cases next s.room room k clock hm
  obtain rfl : t = u := Option.some.inj (ht.symm.trans hu)
  exact ⟨t,g,t',fs,ht,hd.1,hd.2,hn,rfl⟩

theorem run_untimed (as : List (Action α)) (s : Timed α) (h : run step as init = some s) :
    run Throttle.step as Throttle.init = some s.room := by
  refine run_history (fun as s => run Throttle.step as Throttle.init = some s.room) init rfl ?_ as s h
  intro as m a s' _ ih hs
  refine (run_snoc as a _ _).mpr ⟨m.room,ih,?_⟩
  cases a with
  | call x =>
    cases hs
    rfl
  | thread k clock =>
    obtain ⟨t,ht,hs⟩ := Option.bind_eq_some_iff.mp hs
    split_ifs at hs
    obtain ⟨room,hm,rfl⟩ := Option.map_eq_some_iff.mp hs
    exact hm

theorem run_timed_inv (as : List (Action α)) (s : Timed α) (h : run step as init = some s) :
    ThrottleInvariant.Inv s.room :=
  ThrottleInvariant.run_inv as s.room (run_untimed as s h)

end RustChat.ThrottleClock
