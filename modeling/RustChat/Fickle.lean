import RustChat.Protocol
import RustChat.Runs
import RustChat.TaskPool

/-!
# The fickle bots of a scenario

`fickle::run` for every bot of a scenario, the barrier the bots share and the
loop that joins them. Which connects and sends fail is fixed beforehand by a
plan, so a run is an interleaving of the bots under that plan. Bots of other
kinds never touch the barrier; they run in one step.
-/

set_option autoImplicit false

namespace RustChat.Fickle
open Runs TaskPool Protocol

inductive BotType where
  | normal
  | fickle
  | spammer
  | ghost
  | quitter
  deriving DecidableEq, Repr

/-- A barrier of tokio. -/
structure Barrier where
  size : ℕ
  arrived : ℕ
  generation : ℕ
  deriving DecidableEq, Repr

/-- The part of `wait` before it may block. The last one to arrive is the
leader: it opens the barrier for the others and does not block. -/
def arrive (b : Barrier) : Barrier × Bool :=
  if b.arrived+1 < b.size then ({ b with arrived := b.arrived+1 },false)
  else ({ b with arrived := 0, generation := b.generation+1 },true)

structure FickleResult where
  lastVote : Option ℕ
  lastSnapshot : Option Counts
  deriving DecidableEq

/-- What the tasks of a scenario share. `joined` holds what the loop over the
handles has got so far. -/
structure Shared where
  barrier : Barrier
  fickleResults : List FickleResult
  joined : List Bool
  deriving DecidableEq

def reVoteRounds : ℕ := 3

inductive Phase where
  | connecting
  -- the loop of the votes: send, sleep
  | voting (sent : ℕ)
  | pausing (sent : ℕ)
  | waiting (generation : ℕ)
  -- the sleep after the barrier; the leader's votes, or the sleep of the others
  | settling (leader : Bool)
  | revoting (sent : ℕ)
  | repausing (sent : ℕ)
  | lingering
  -- the last sleep, then the push of the result
  | propagating
  | reporting (result : FickleResult)
  | returned (ok : Bool)
  deriving DecidableEq

/-- One spawned task. `waited` is history: it has called `barrier.wait()`. -/
structure Bot where
  botType : BotType
  phase : Phase
  lastVote : Option ℕ
  waited : Bool
  deriving DecidableEq

/-- Which operations of the bot fail: the connect is number 0, the sends follow.
With it what the generator draws and what the receive task has seen last. -/
structure Input where
  fails : ℕ → Bool
  option : Fin nOptions
  snapshot : Option Counts

def next (voteCount : ℕ) (sh : Shared) (b : Bot) (i : Input) : Option (Shared × Bot × List Bot) :=
  match b.phase with
  | .connecting =>
    if b.botType = .fickle then
      if i.fails 0 then some (sh,{ b with phase := .returned false },[])
      else some (sh,{ b with phase := .voting 0 },[])
    else some (sh,{ b with phase := .returned (!i.fails 0) },[])
  | .voting sent =>
    if sent < voteCount then
      if i.fails (sent+1) then some (sh,{ b with phase := .returned false },[])
      else some (sh,{ b with phase := .pausing (sent+1), lastVote := some i.option.val },[])
    else
      let (barrier,leader) := arrive sh.barrier
      some ({ sh with barrier := barrier },{ b with
        phase := if leader then .settling true else .waiting sh.barrier.generation
        waited := true },[])
  | .pausing sent => some (sh,{ b with phase := .voting sent },[])
  | .waiting generation =>
    if sh.barrier.generation = generation then none
    else some (sh,{ b with phase := .settling false },[])
  | .settling leader =>
    some (sh,{ b with
      phase := if leader then if b.lastVote.isSome then .revoting 0 else .propagating
        else .lingering },[])
  | .revoting sent =>
    if sent < reVoteRounds then
      if i.fails (voteCount+1+sent) then some (sh,{ b with phase := .returned false },[])
      else some (sh,{ b with phase := .repausing (sent+1) },[])
    else some (sh,{ b with phase := .propagating },[])
  | .repausing sent => some (sh,{ b with phase := .revoting sent },[])
  | .lingering => some (sh,{ b with phase := .propagating },[])
  | .propagating => some (sh,{ b with phase := .reporting ⟨b.lastVote,i.snapshot⟩ },[])
  | .reporting result =>
    some ({ sh with fickleResults := sh.fickleResults++[result] },
      { b with phase := .returned true },[])
  | .returned _ => none

abbrev State := Pool Shared Bot

inductive Action where
  | bot (k : ℕ) (option : Fin nOptions) (snapshot : Option Counts)
  /-- The next `h.await` of the loop over the handles. -/
  | join
  deriving DecidableEq

def outcome : Phase → Option Bool
  | .returned ok => some ok
  | _ => none

def step (plan : ℕ → ℕ → Bool) (voteCount : ℕ) (s : State) : Action → Option State
  | .bot k option snapshot => move (next voteCount) s k ⟨plan k,option,snapshot⟩
  | .join =>
    ((s.tasks[s.shared.joined.length]?).bind fun b => outcome b.phase).map fun ok =>
      ⟨{ s.shared with joined := s.shared.joined++[ok] },s.tasks⟩

/-! ## The scenarios -/

def spawn (botType : BotType) : Bot := ⟨botType,.connecting,none,false⟩

def start (size : ℕ) (types : List BotType) : State := ⟨⟨⟨size,0,0⟩,[],[]⟩,types.map spawn⟩

/-- In mode `fickle`. -/
def runSingleScenario (count : ℕ) : State := start (max count 1) (List.replicate count .fickle)

def fickleCount (allocation : List (BotType × ℕ)) : ℕ :=
  ((allocation.filter fun x => x.1 = .fickle).map Prod.snd).sum

def runMixedScenario (allocation : List (BotType × ℕ)) : State :=
  start (max (fickleCount allocation) 1) (allocation.flatMap fun x => List.replicate x.2 x.1)

theorem count_fickle (allocation : List (BotType × ℕ)) :
    (allocation.flatMap fun x => List.replicate x.2 x.1).count .fickle = fickleCount allocation := by
  induction allocation with
  | nil => rfl
  | cons x allocation ih =>
    rw [List.flatMap_cons, List.count_append, ih, List.count_replicate, fickleCount, fickleCount,
      List.filter_cons]
    by_cases hx : x.1 = .fickle
    · simp [hx]
    · simp [hx]

/-! ## What a step of a bot can be -/

/-- Past the barrier, and not returned. -/
def Past : Phase → Prop
  | .settling _ | .revoting _ | .repausing _ | .lingering | .propagating | .reporting _ => True
  | _ => False

inductive BotStep (voteCount : ℕ) (sh : Shared) (b : Bot) (fails : ℕ → Bool) : Shared → Bot → Prop where
  | other (ok : Bool) (h : b.phase = .connecting) (ht : b.botType ≠ .fickle) :
    BotStep voteCount sh b fails sh { b with phase := .returned ok }
  | refused (h : b.phase = .connecting) (hf : fails 0 = true) (ht : b.botType = .fickle) :
    BotStep voteCount sh b fails sh { b with phase := .returned false }
  | connected (h : b.phase = .connecting) (hf : fails 0 = false) (ht : b.botType = .fickle) :
    BotStep voteCount sh b fails sh { b with phase := .voting 0 }
  | unsent (sent : ℕ) (h : b.phase = .voting sent) (hs : sent < voteCount) (hf : fails (sent+1) = true) :
    BotStep voteCount sh b fails sh { b with phase := .returned false }
  | vote (sent option : ℕ) (h : b.phase = .voting sent) (hs : sent < voteCount)
    (hf : fails (sent+1) = false) :
    BotStep voteCount sh b fails sh { b with phase := .pausing (sent+1), lastVote := some option }
  | pause (sent : ℕ) (h : b.phase = .pausing sent) :
    BotStep voteCount sh b fails sh { b with phase := .voting sent }
  | wait (sent : ℕ) (h : b.phase = .voting sent) (hs : voteCount ≤ sent)
    (hb : sh.barrier.arrived+1 < sh.barrier.size) :
    BotStep voteCount sh b fails { sh with barrier := (arrive sh.barrier).1 }
      { b with phase := .waiting sh.barrier.generation, waited := true }
  | lead (sent : ℕ) (h : b.phase = .voting sent) (hs : voteCount ≤ sent)
    (hb : sh.barrier.size ≤ sh.barrier.arrived+1) :
    BotStep voteCount sh b fails { sh with barrier := (arrive sh.barrier).1 }
      { b with phase := .settling true, waited := true }
  | release (generation : ℕ) (h : b.phase = .waiting generation)
    (hg : sh.barrier.generation ≠ generation) :
    BotStep voteCount sh b fails sh { b with phase := .settling false }
  | proceed (sh' : Shared) (p : Phase) (h : Past b.phase) (hp : Past p ∨ ∃ ok, p = .returned ok)
    (hb : sh'.barrier = sh.barrier) (hj : sh'.joined = sh.joined) :
    BotStep voteCount sh b fails sh' { b with phase := p }

theorem arrive_leader (b : Barrier) : (arrive b).2 = true ↔ b.size ≤ b.arrived+1 := by
  unfold arrive
  split_ifs with h <;> simp <;> omega

theorem next_step (voteCount : ℕ) (sh : Shared) (b : Bot) (i : Input) (sh' : Shared) (b' : Bot)
    (fs : List Bot) (h : next voteCount sh b i = some (sh',b',fs)) :
    fs = [] ∧ BotStep voteCount sh b i.fails sh' b' := by
  unfold next at h
  cases hp : b.phase with
  | connecting =>
    simp only [hp] at h
    split_ifs at h with ht hf <;> cases h
    · exact ⟨rfl,.refused hp hf ht⟩
    · exact ⟨rfl,.connected hp (by simpa using hf) ht⟩
    · exact ⟨rfl,.other _ hp ht⟩
  | voting sent =>
    simp only [hp] at h
    split_ifs at h with hs hf hl <;> cases h
    · exact ⟨rfl,.unsent sent hp hs hf⟩
    · exact ⟨rfl,.vote sent _ hp hs (by simpa using hf)⟩
    · exact ⟨rfl,.lead sent hp (Nat.le_of_not_lt hs) ((arrive_leader _).mp hl)⟩
    · have hb := Nat.lt_of_not_le fun hb => hl ((arrive_leader sh.barrier).mpr hb)
      exact ⟨rfl,.wait sent hp (Nat.le_of_not_lt hs) hb⟩
  | pausing sent =>
    simp only [hp] at h
    cases h
    exact ⟨rfl,.pause sent hp⟩
  | waiting generation =>
    simp only [hp] at h
    split_ifs at h with hg
    cases h
    exact ⟨rfl,.release generation hp hg⟩
  | settling leader =>
    simp only [hp] at h
    cases h
    refine ⟨rfl,.proceed sh _ (by simp [hp, Past]) (Or.inl ?_) rfl rfl⟩
    split_ifs <;> trivial
  | revoting sent =>
    simp only [hp] at h
    split_ifs at h with hs hf <;> cases h
    · exact ⟨rfl,.proceed sh _ (by simp [hp, Past]) (Or.inr ⟨_,rfl⟩) rfl rfl⟩
    · exact ⟨rfl,.proceed sh _ (by simp [hp, Past]) (Or.inl trivial) rfl rfl⟩
    · exact ⟨rfl,.proceed sh _ (by simp [hp, Past]) (Or.inl trivial) rfl rfl⟩
  | repausing sent | lingering | propagating =>
    simp only [hp] at h
    cases h
    exact ⟨rfl,.proceed sh _ (by simp [hp, Past]) (Or.inl trivial) rfl rfl⟩
  | reporting result =>
    simp only [hp] at h
    cases h
    exact ⟨rfl,.proceed _ _ (by simp [hp, Past]) (Or.inr ⟨_,rfl⟩) rfl rfl⟩
  | returned ok => simp [hp] at h

/-- The only phases in which a bot cannot move. -/
theorem next_blocked (voteCount : ℕ) (sh : Shared) (b : Bot) (i : Input)
    (h : next voteCount sh b i = none) :
    (∃ ok, b.phase = .returned ok) ∨ b.phase = .waiting sh.barrier.generation := by
  unfold next at h
  cases hp : b.phase with
  | returned ok => exact Or.inl ⟨ok,rfl⟩
  | waiting generation =>
    simp only [hp] at h
    split_ifs at h with hg
    exact Or.inr (by rw [hg])
  | connecting | voting sent | revoting sent =>
    simp only [hp] at h
    split_ifs at h
  | _ =>
    simp only [hp] at h
    cases h

end RustChat.Fickle
