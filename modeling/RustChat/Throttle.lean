import Mathlib.Algebra.BigOperators.Group.Multiset.Basic
import Mathlib.Tactic.Common
import RustChat.TaskPool

/-!
# The throttled vote broadcast

`Room::broadcast_vote_throttled`, `schedule_vote_flush` and
`flush_pending_vote_snapshot`, cut at every atomic operation, lock section,
clock reading, spawn and send. Callers and flush tasks are tasks of one pool;
how many there are and in which order they move is left open, and so is every
clock reading. The message is any value: the three functions only move it.
-/

set_option autoImplicit false

namespace RustChat.Throttle
open TaskPool

variable {α : Type*}

/-- Minimal distance of two `VoteSnapshot` broadcasts, in milliseconds. -/
def voteBroadcastThrottleMs : ℕ := 50

/-- The argument of one call. The number is that of the call. -/
structure Ticket (α : Type*) where
  call : ℕ
  msg : α
  deriving DecidableEq, Repr

/-- The fields of `Room` the three functions share. The last three are
history that no step reads: the arguments of the calls so far, what was sent,
and what a store found in the slot together with the value that replaced it. -/
structure Gate (α : Type*) where
  lastVoteBroadcastMs : ℕ
  pendingVoteBroadcast : Option (Ticket α)
  voteFlushScheduled : Bool
  passed : List α
  sent : List (Ticket α)
  overwritten : List (Ticket α × Ticket α)
  deriving DecidableEq, Repr

/-- What a caller or a flush task does next. -/
inductive Thread (α : Type*) where
  -- `broadcast_vote_throttled`: clock, load, compare_exchange, then send or store
  | entered (m : Ticket α)
  | clocked (m : Ticket α) (nowMs : ℕ)
  | comparing (m : Ticket α) (nowMs last : ℕ)
  | sending (m : Ticket α)
  | parking (m : Ticket α)
  -- `schedule_vote_flush`: swap, clock, load, spawn
  | swapping
  | scheduling
  | delaying (nowMs : ℕ)
  | spawning (nowMs delayMs : ℕ)
  | returned
  -- the spawned task: sleep, then `flush_pending_vote_snapshot`
  | sleeping (sinceMs delayMs : ℕ)
  | taking
  | reading (m : Ticket α)
  | stamping (m : Ticket α) (nowMs : ℕ)
  | flushing (m : Ticket α)
  | flushed
  deriving DecidableEq, Repr

def scheduleDelay (nowMs last : ℕ) : ℕ := max (voteBroadcastThrottleMs-(nowMs-last)) 1

/-- One step of a thread, with the clock it would read. Every subtraction
saturates, in the source as here. -/
def next (g : Gate α) (t : Thread α) (clock : ℕ) : Option (Gate α × Thread α × List (Thread α)) :=
  match t with
  | .entered m => some (g,.clocked m clock,[])
  | .clocked m now => some (g,.comparing m now g.lastVoteBroadcastMs,[])
  | .comparing m now last =>
    if voteBroadcastThrottleMs ≤ now-last ∧ g.lastVoteBroadcastMs = last then
      some ({ g with lastVoteBroadcastMs := now },.sending m,[])
    else some (g,.parking m,[])
  | .sending m => some ({ g with sent := g.sent++[m] },.returned,[])
  | .parking m =>
    some ({ g with
      pendingVoteBroadcast := some m
      overwritten := g.overwritten++g.pendingVoteBroadcast.toList.map (·,m) },.swapping,[])
  | .swapping =>
    some ({ g with voteFlushScheduled := true },
      if g.voteFlushScheduled then .returned else .scheduling,[])
  | .scheduling => some (g,.delaying clock,[])
  | .delaying now => some (g,.spawning now (scheduleDelay now g.lastVoteBroadcastMs),[])
  | .spawning now delay => some (g,.returned,[.sleeping now delay])
  | .returned => none
  | .sleeping _ _ => some ({ g with voteFlushScheduled := false },.taking,[])
  | .taking =>
    some ({ g with pendingVoteBroadcast := none },
      match g.pendingVoteBroadcast with
      | some m => .reading m
      | none => .flushed,[])
  | .reading m => some (g,.stamping m clock,[])
  | .stamping m now => some ({ g with lastVoteBroadcastMs := now },.flushing m,[])
  | .flushing m => some ({ g with sent := g.sent++[m] },.flushed,[])
  | .flushed => none

abbrev State (α : Type*) := Pool (Gate α) (Thread α)

def init : State α := ⟨⟨0,none,false,[],[],[]⟩,[]⟩

/-- A new call of `broadcast_vote_throttled`. -/
def enter (s : State α) (m : α) : State α :=
  ⟨{ s.shared with passed := s.shared.passed++[m] },
    s.tasks++[.entered ⟨s.shared.passed.length,m⟩]⟩

inductive Action (α : Type*) where
  | call (m : α)
  | thread (k clock : ℕ)
  deriving DecidableEq, Repr

def step (s : State α) : Action α → Option (State α)
  | .call m => some (enter s m)
  | .thread k clock => move next s k clock

/-! ## Where a message is -/

def held : Thread α → Option (Ticket α)
  | .entered m | .clocked m _ | .comparing m _ _ | .sending m | .parking m => some m
  | .reading m | .stamping m _ | .flushing m => some m
  | _ => none

/-- The message the thread's next step puts on the channel. -/
def emits : Thread α → Option (Ticket α)
  | .sending m | .flushing m => some m
  | _ => none

def tickets (passed : List α) : List (Ticket α) := passed.zipIdx.map fun x => ⟨x.2,x.1⟩

def settled (g : Gate α) : Multiset (Ticket α) :=
  g.sent+g.overwritten.map Prod.fst+g.pendingVoteBroadcast.toList

def carried (t : Thread α) : Multiset (Ticket α) := (held t).toList

/-! ## What a step of a thread can be -/

inductive ThreadStep (g : Gate α) (clock : ℕ) : Thread α → Gate α → Thread α → List (Thread α) → Prop where
  | enter (m : Ticket α) : ThreadStep g clock (.entered m) g (.clocked m clock) []
  | load (m : Ticket α) (now : ℕ) :
    ThreadStep g clock (.clocked m now) g (.comparing m now g.lastVoteBroadcastMs) []
  | win (m : Ticket α) (now last : ℕ)
    (h : voteBroadcastThrottleMs ≤ now-last ∧ g.lastVoteBroadcastMs = last) :
    ThreadStep g clock (.comparing m now last) { g with lastVoteBroadcastMs := now } (.sending m) []
  | lose (m : Ticket α) (now last : ℕ) : ThreadStep g clock (.comparing m now last) g (.parking m) []
  | send (m : Ticket α) : ThreadStep g clock (.sending m) { g with sent := g.sent++[m] } .returned []
  | park (m : Ticket α) :
    ThreadStep g clock (.parking m) { g with
      pendingVoteBroadcast := some m
      overwritten := g.overwritten++g.pendingVoteBroadcast.toList.map (·,m) } .swapping []
  | raise (h : g.voteFlushScheduled = false) :
    ThreadStep g clock .swapping { g with voteFlushScheduled := true } .scheduling []
  | rely (h : g.voteFlushScheduled = true) : ThreadStep g clock .swapping g .returned []
  | schedule : ThreadStep g clock .scheduling g (.delaying clock) []
  | delay (now : ℕ) :
    ThreadStep g clock (.delaying now) g (.spawning now (scheduleDelay now g.lastVoteBroadcastMs)) []
  | spawn (now delay : ℕ) : ThreadStep g clock (.spawning now delay) g .returned [.sleeping now delay]
  | wake (since delay : ℕ) :
    ThreadStep g clock (.sleeping since delay) { g with voteFlushScheduled := false } .taking []
  | take (m : Ticket α) (h : g.pendingVoteBroadcast = some m) :
    ThreadStep g clock .taking { g with pendingVoteBroadcast := none } (.reading m) []
  | miss (h : g.pendingVoteBroadcast = none) : ThreadStep g clock .taking g .flushed []
  | read (m : Ticket α) : ThreadStep g clock (.reading m) g (.stamping m clock) []
  | stamp (m : Ticket α) (now : ℕ) :
    ThreadStep g clock (.stamping m now) { g with lastVoteBroadcastMs := now } (.flushing m) []
  | flush (m : Ticket α) : ThreadStep g clock (.flushing m) { g with sent := g.sent++[m] } .flushed []

theorem next_step (g g' : Gate α) (t t' : Thread α) (fs : List (Thread α)) (clock : ℕ)
    (h : next g t clock = some (g',t',fs)) : ThreadStep g clock t g' t' fs := by
  cases t with
  | comparing m now last =>
    simp only [next] at h
    split_ifs at h with hc <;> cases h
    · exact .win m now last hc
    · exact .lose m now last
  | swapping =>
    obtain ⟨last,pending,flag,passed,sent,overwritten⟩ := g
    cases h
    cases flag with
    | false => exact .raise rfl
    | true => exact .rely rfl
  | taking =>
    obtain ⟨last,pending,flag,passed,sent,overwritten⟩ := g
    cases h
    cases pending with
    | none => exact .miss rfl
    | some m => exact .take m rfl
  | returned | flushed => simp [next] at h
  | entered | clocked | sending | parking | scheduling | delaying | spawning | sleeping | reading | stamping
    | flushing =>
    cases h
    constructor

theorem next_sent (g g' : Gate α) (t t' : Thread α) (fs : List (Thread α)) (clock : ℕ)
    (h : next g t clock = some (g',t',fs)) : g'.sent = g.sent++(emits t).toList := by
  cases next_step g g' t t' fs clock h <;> simp [emits]

end RustChat.Throttle
