import RustChat.TaskPool

/-!
# The accept loop

`run_with_listener` on its own: permits, ids, the handles it keeps and prunes,
and the handlers it has spawned, of which it only knows whether they have
ended. A handler may end at any time, for any reason.
-/

set_option autoImplicit false

namespace RustChat.Accept
open Runs TaskPool

def maxConnections : ℕ := 500

inductive Phase where
  -- `select!`; `try_acquire_owned`; `fetch_add`; the load for `active`; spawn
  | selecting
  | accepted
  | permitted
  | identified (id : ℕ)
  | counted (id active : ℕ)
  -- `handles.push`, then `handles.retain`, one `is_finished` at a time
  | pushing (k : ℕ)
  | retaining (kept todo : List ℕ)
  -- after Ctrl-C
  | joining
  | returned
  deriving DecidableEq, Repr

/-- A spawned task: `handle_client` is over when it drops its permit, and a
moment later the task is finished. -/
inductive Task where
  | running
  | released
  | finished
  deriving DecidableEq, Repr

/-- `nextId` is the 64-bit counter, for fewer accepts than it can count. `ids`
is history: the id handed to each task. -/
structure State where
  phase : Phase
  permits : ℕ
  nextId : ℕ
  handles : List ℕ
  tasks : List Task
  ids : List ℕ
  deriving DecidableEq, Repr

def init : State := ⟨.selecting,maxConnections,1,[],[],[]⟩

inductive Action where
  | connect
  | acceptError
  | go
  | spawn
  | ctrlC
  | release (k : ℕ)
  | finish (k : ℕ)
  deriving DecidableEq, Repr

def advance (s : State) : Option State :=
  match s.phase with
  | .accepted =>
    if s.permits = 0 then some { s with phase := .selecting }
    else some { s with phase := .permitted, permits := s.permits-1 }
  | .permitted => some { s with phase := .identified s.nextId, nextId := s.nextId+1 }
  | .identified id => some { s with phase := .counted id (maxConnections-s.permits) }
  | .pushing k => some { s with phase := .retaining [] (s.handles++[k]), handles := [] }
  | .retaining kept [] => some { s with phase := .selecting, handles := kept }
  | .retaining kept (k::todo) =>
    if s.tasks[k]? = some .finished then some { s with phase := .retaining kept todo }
    else some { s with phase := .retaining (kept++[k]) todo }
  | .joining =>
    match s.handles with
    | [] => some { s with phase := .returned }
    | k::rest => if s.tasks[k]? = some .finished then some { s with handles := rest } else none
  | .selecting | .counted _ _ | .returned => none

def step (s : State) : Action → Option State
  | .connect => if s.phase = .selecting then some { s with phase := .accepted } else none
  | .acceptError => if s.phase = .selecting then some s else none
  | .go => advance s
  | .spawn =>
    match s.phase with
    | .counted id _ =>
      some { s with
        phase := .pushing s.tasks.length
        tasks := s.tasks++[.running]
        ids := s.ids++[id] }
    | _ => none
  | .ctrlC => if s.phase = .selecting then some { s with phase := .joining } else none
  | .release k =>
    if s.tasks[k]? = some .running then
      some { s with tasks := s.tasks.set k .released, permits := s.permits+1 }
    else none
  | .finish k =>
    if s.tasks[k]? = some .released then some { s with tasks := s.tasks.set k .finished } else none

/-! ## What a step can be -/

inductive Move (s : State) : Action → State → Prop where
  | connect (hp : s.phase = .selecting) : Move s .connect { s with phase := .accepted }
  | acceptError (hp : s.phase = .selecting) : Move s .acceptError s
  | refuse (hp : s.phase = .accepted) (h0 : s.permits = 0) : Move s .go { s with phase := .selecting }
  | acquire (hp : s.phase = .accepted) (h0 : 0 < s.permits) :
    Move s .go { s with phase := .permitted, permits := s.permits-1 }
  | identify (hp : s.phase = .permitted) :
    Move s .go { s with phase := .identified s.nextId, nextId := s.nextId+1 }
  | count (id : ℕ) (hp : s.phase = .identified id) :
    Move s .go { s with phase := .counted id (maxConnections-s.permits) }
  | spawn (id active : ℕ) (hp : s.phase = .counted id active) :
    Move s .spawn { s with
      phase := .pushing s.tasks.length
      tasks := s.tasks++[.running]
      ids := s.ids++[id] }
  | push (k : ℕ) (hp : s.phase = .pushing k) :
    Move s .go { s with phase := .retaining [] (s.handles++[k]), handles := [] }
  | drop (kept : List ℕ) (k : ℕ) (todo : List ℕ) (hp : s.phase = .retaining kept (k::todo))
    (hk : s.tasks[k]? = some .finished) : Move s .go { s with phase := .retaining kept todo }
  | keep (kept : List ℕ) (k : ℕ) (todo : List ℕ) (hp : s.phase = .retaining kept (k::todo))
    (hk : s.tasks[k]? ≠ some .finished) : Move s .go { s with phase := .retaining (kept++[k]) todo }
  | retained (kept : List ℕ) (hp : s.phase = .retaining kept []) :
    Move s .go { s with phase := .selecting, handles := kept }
  | ctrlC (hp : s.phase = .selecting) : Move s .ctrlC { s with phase := .joining }
  | join (k : ℕ) (rest : List ℕ) (hp : s.phase = .joining) (hh : s.handles = k::rest)
    (hk : s.tasks[k]? = some .finished) : Move s .go { s with handles := rest }
  | leave (hp : s.phase = .joining) (hh : s.handles = []) : Move s .go { s with phase := .returned }
  | release (k : ℕ) (hk : s.tasks[k]? = some .running) :
    Move s (.release k) { s with tasks := s.tasks.set k .released, permits := s.permits+1 }
  | finish (k : ℕ) (hk : s.tasks[k]? = some .released) :
    Move s (.finish k) { s with tasks := s.tasks.set k .finished }

theorem advance_move (s t : State) (h : advance s = some t) : Move s .go t := by
  unfold advance at h
  split at h
  · rename_i hp
    split_ifs at h with h0 <;> cases h
    · exact .refuse hp h0
    · exact .acquire hp (Nat.pos_of_ne_zero h0)
  · rename_i hp
    cases h
    exact .identify hp
  · rename_i id hp
    cases h
    exact .count id hp
  · rename_i k hp
    cases h
    exact .push k hp
  · rename_i kept hp
    cases h
    exact .retained kept hp
  · rename_i kept k todo hp
    split_ifs at h with hk <;> cases h
    · exact .drop kept k todo hp hk
    · exact .keep kept k todo hp hk
  · rename_i hp
    split at h
    · rename_i hh
      cases h
      exact .leave hp hh
    · rename_i k rest hh
      split_ifs at h with hk
      cases h
      exact .join k rest hp hh hk
  all_goals cases h

theorem step_move (s : State) (a : Action) (t : State) (h : step s a = some t) : Move s a t := by
  cases a with
  | go => exact advance_move s t h
  | connect =>
    simp only [step] at h
    split_ifs at h with hp
    cases h
    exact .connect hp
  | acceptError =>
    simp only [step] at h
    split_ifs at h with hp
    cases h
    exact .acceptError hp
  | ctrlC =>
    simp only [step] at h
    split_ifs at h with hp
    cases h
    exact .ctrlC hp
  | spawn =>
    simp only [step] at h
    split at h
    · rename_i id active hp
      cases h
      exact .spawn id active hp
    · cases h
  | release k =>
    simp only [step] at h
    split_ifs at h with hk
    cases h
    exact .release k hk
  | finish k =>
    simp only [step] at h
    split_ifs at h with hk
    cases h
    exact .finish k hk

/-! ## Permits -/

/-- The permit the loop holds for a connection it has not spawned yet. -/
def ownPermit : Phase → ℕ
  | .permitted | .identified _ | .counted _ _ => 1
  | _ => 0

def isRunning (t : Task) : ℕ := if t = .running then 1 else 0

/-- Every permit is free, with the loop, or with a running task. -/
def Balanced (s : State) : Prop :=
  s.permits+ownPermit s.phase+(s.tasks.map isRunning).sum = maxConnections

theorem step_balanced (s : State) (a : Action) (t : State) (hs : Balanced s)
    (h : step s a = some t) : Balanced t := by
  unfold Balanced at hs ⊢
  cases step_move s a t h with
  | connect hp | refuse hp _ | acquire hp h0 | identify hp | count _ hp | push _ hp | drop _ _ _ hp _
    | keep _ _ _ hp _ | retained _ hp | ctrlC hp | leave hp _ =>
    simp only [hp, ownPermit] at hs ⊢
    omega
  | acceptError | join => exact hs
  | spawn id active hp =>
    simp only [hp, ownPermit, List.map_append, List.sum_append] at hs ⊢
    simp only [isRunning, List.map_cons, List.map_nil, List.sum_singleton, if_true]
    omega
  | release k hk =>
    have hset := sum_map_set isRunning s.tasks k .running .released hk
    simp only [isRunning, if_true, reduceCtorEq, if_false] at hs hset ⊢
    omega
  | finish k hk =>
    have hset := sum_map_set isRunning s.tasks k .released .finished hk
    simp only [isRunning, reduceCtorEq, if_false, add_zero] at hs hset ⊢
    omega

theorem run_balanced (as : List Action) (s : State) (h : run step as init = some s) : Balanced s :=
  run_invariant Balanced step_balanced as init s rfl h

/-! ## Tasks and ids -/

theorem step_tasks (s : State) (a : Action) (t : State) (h : step s a = some t) :
    (a ≠ .spawn ∧ t.tasks = s.tasks) ∨ (a = .spawn ∧ t.tasks = s.tasks++[.running]) ∨
      (∃ k, a = .release k ∧ s.tasks[k]? = some .running ∧ t.tasks = s.tasks.set k .released) ∨
      ∃ k, a = .finish k ∧ s.tasks[k]? = some .released ∧ t.tasks = s.tasks.set k .finished := by
  cases step_move s a t h with
  | spawn => exact Or.inr (Or.inl ⟨rfl,rfl⟩)
  | release k hk => exact Or.inr (Or.inr (Or.inl ⟨k,rfl,hk,rfl⟩))
  | finish k hk => exact Or.inr (Or.inr (Or.inr ⟨k,rfl,hk,rfl⟩))
  | _ => exact Or.inl ⟨by simp,rfl⟩

/-- Ids are handed out one after the other, the next one to the next task. -/
def Issued (s : State) : Prop :=
  s.ids = List.range' 1 s.tasks.length ∧
    match s.phase with
    | .identified id | .counted id _ => id = s.tasks.length+1 ∧ s.nextId = s.tasks.length+2
    | _ => s.nextId = s.tasks.length+1

theorem step_issued (s : State) (a : Action) (t : State) (hs : Issued s) (h : step s a = some t) :
    Issued t := by
  unfold Issued at hs ⊢
  cases step_move s a t h with
  | acceptError | join => exact hs
  | identify hp =>
    simp only [hp] at hs
    exact ⟨hs.1,hs.2,congrArg (·+1) hs.2⟩
  | spawn id active hp =>
    simp only [hp] at hs
    simp only [List.length_append, List.length_singleton, List.range'_1_concat, ← hs.1, hs.2.1]
    exact ⟨by rw [Nat.add_comm 1],hs.2.2⟩
  | release | finish => simpa using hs
  | connect hp | refuse hp _ | acquire hp _ | count _ hp | push _ hp | drop _ _ _ hp _ | keep _ _ _ hp _
    | retained _ hp | ctrlC hp | leave hp _ =>
    simpa only [hp] using hs

theorem run_issued (as : List Action) (s : State) (h : run step as init = some s) : Issued s :=
  run_invariant Issued step_issued as init s ⟨rfl,rfl⟩ h

end RustChat.Accept
