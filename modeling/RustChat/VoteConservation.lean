import Mathlib.Algebra.BigOperators.Pi
import Mathlib.Algebra.Order.BigOperators.Group.List
import RustChat.Hub
import RustChat.VoteIntegrity

/-!
# Votes are conserved

The board does not know who voted. What each handler has on it is read off
its program counter: its recorded vote, what it has added and not recorded
yet, what it has taken out of its record and not subtracted yet. The counters
are the sum of these accounts in every reachable state.
-/

set_option autoImplicit false

namespace RustChat.VoteConservation
open Runs TaskPool Protocol Handler HandlerSteps Hub VoteIntegrity

def votes (vote : Option ℕ) (i : Fin nOptions) : ℤ := if vote = some i.val then 1 else 0

/-- The board steps of a vote that are done but not recorded yet, and the
decrement still to come of a vote already taken out of the record. -/
def inProgress (c : Conn) (i : Fin nOptions) : ℤ :=
  match c.phase with
  | .voting option => votes (some option) i
  | .voted option => votes (some option) i-votes c.currentVote i
  | .unvoting prev _ => votes (some prev) i
  | _ => 0

/-- What the handler has on the board. -/
def account (c : Conn) : Fin nOptions → ℤ := fun i => votes c.currentVote i+inProgress c i

def boardChange : Effect → Fin nOptions → ℤ
  | .fetchAdd option d => fun i => if i.val = option then d else 0
  | _ => 0

theorem apply_counts (sh : Shared) (e : Effect) :
    (apply sh e).counts = sh.counts+boardChange e := by
  cases e <;> funext i <;> simp [apply, boardChange, VoteBoard.fetchAdd_apply]

theorem votes_nonneg (vote : Option ℕ) (i : Fin nOptions) : 0 ≤ votes vote i := by
  unfold votes
  split_ifs <;> decide

theorem account_nonneg (c : Conn) (i : Fin nOptions) : 0 ≤ account c i := by
  have hv := votes_nonneg c.currentVote i
  unfold account inProgress
  cases c.phase with
  | voting option | voted option =>
    have ho := votes_nonneg (some option) i
    simp only
    omega
  | unvoting prev after =>
    have hp := votes_nonneg (some prev) i
    simp only
    omega
  | _ => simpa using hv

theorem subtract_change (vote : Option ℕ) (i : Fin nOptions) :
    boardChange (subtract vote) i = -votes vote i := by
  cases vote with
  | none => simp [subtract, boardChange, votes]
  | some prev =>
    by_cases h : i.val = prev
    · simp [subtract, boardChange, votes, h]
    · simp [subtract, boardChange, votes, h, Ne.symm h]

/-- A step of a handler changes the board by what it changes its account. -/
theorem handler_account (sh : Shared) (c : Conn) (i : Input) (e : Effect) (c' : Conn)
    (h : HandlerStep sh c i e c') : account c' = account c+boardChange e := by
  funext j
  rw [Pi.add_apply]
  cases h with
  | replace clock option h =>
    rw [subtract_change]
    simp [account, inProgress, h]
  | add clock option h => simp [account, inProgress, h, boardChange, votes, eq_comm]
  | unvote clock prev after h =>
    by_cases hp : j.val = prev
    · simp [account, inProgress, h, boardChange, votes, hp]
    · simp [account, inProgress, h, boardChange, votes, hp, Ne.symm hp]
  | record clock option h => simp [account, inProgress, h, boardChange]
  | withdraw clock prev h hv => simp [account, inProgress, h, hv, boardChange, votes]
  | disconnect clock prev h hv => simp [account, inProgress, h, hv, boardChange, votes]
  | resume clock call after h hr =>
    cases after <;> simp [account, inProgress, h, boardChange, After.phase]
  | skip h => simp [boardChange]
  | _ => simp [account, inProgress, boardChange, *]

def Conserved (s : State) : Prop := s.shared.counts = (s.tasks.map account).sum

theorem account_spawn (id : ℕ) : account (Handler.spawn id) = 0 := by
  funext i
  simp [account, inProgress, Handler.spawn, votes]

theorem writer_account (cap : ℕ) (sh : Shared) (c : Conn) (i : Input) (c' : Conn)
    (h : WriterStep cap sh c i c') : account c' = account c := by
  obtain ⟨_,hp,hv,_⟩ := writer_frame cap sh c i c' h
  funext j
  simp [account, inProgress, hp, hv]

theorem step_conserved (cap : ℕ) (s : State) (a : Action) (t : State) (hs : Conserved s)
    (h : step cap s a = some t) : Conserved t := by
  unfold Conserved at hs ⊢
  cases step_hub cap s a t h with
  | spawn => simp [account_spawn, hs]
  | handler k i c c' e hc hstep =>
    have hset := sum_map_set account s.tasks k c c' hc
    have hacc := handler_account s.shared c i e c' hstep
    rw [apply_counts, hs]
    apply add_right_cancel (b := account c)
    rw [hset, hacc]
    abel
  | writer k i c c' hc hw =>
    have hset := sum_map_set account s.tasks k c c' hc
    rw [writer_account cap s.shared c i c' hw] at hset
    exact hs.trans (add_right_cancel hset).symm
  | throttle k clock u hu => exact hs
  | shutdown => exact hs

theorem run_conserved (cap : ℕ) (as : List Action) (s : State)
    (h : run (step cap) as init = some s) : Conserved s :=
  run_invariant Conserved (step_conserved cap) as init s rfl h

/-! ## The recorded votes -/

def voteAfter (vote : Option ℕ) : ClientMsg → Option ℕ
  | .vote option => some option
  | .unvote => none
  | _ => vote

/-- The vote a list of messages leaves behind, in range or not. -/
def lastVote (msgs : List ClientMsg) : Option ℕ := msgs.foldl voteAfter none

theorem lastVote_snoc (msgs : List ClientMsg) (msg : ClientMsg) :
    lastVote (msgs++[msg]) = voteAfter (lastVote msgs) msg := by simp [lastVote]

/-- What the record of a handler is, given the messages it has parsed. -/
def Recorded (c : Conn) : Prop :=
  match c.phase with
  | .handling msg => voteAfter c.currentVote msg = lastVote c.parsed
  | .voting option | .voted option => some option = lastVote c.parsed
  | .unvoting _ .leaving | .loading _ _ .leaving | .publishing _ .leaving => c.currentVote = none
  | .leaving | .left | .returned _ => c.currentVote = none
  | .spawned | .subscribed | .joined _ | .welcoming _ => c.currentVote = none ∧ c.parsed = []
  | _ => c.currentVote = lastVote c.parsed

theorem handler_recorded (sh : Shared) (c : Conn) (i : Input) (e : Effect) (c' : Conn)
    (h : HandlerStep sh c i e c') (hc : Recorded c) : Recorded c' := by
  unfold Recorded at hc ⊢
  cases h with
  | parse msg h =>
    simp only [h] at hc ⊢
    rw [lastVote_snoc, hc]
  | welcome clock n h =>
    simp only [h] at hc ⊢
    rw [hc.1, hc.2]
    rfl
  | skip h => exact hc
  | load clock loaded asOf after h hl | resume clock call after h hr =>
    cases after <;> simpa [h, After.phase] using hc
  | publish clock loaded asOf after h hl | unvote clock prev after h =>
    cases after <;> simpa [h] using hc
  | nothing clock h hv => simpa [h, hv, voteAfter] using hc
  | _ => simp_all [voteAfter]

theorem run_recorded (cap : ℕ) (as : List Action) (s : State)
    (h : run (step cap) as init = some s) (k : ℕ) (c : Conn) (hc : s.tasks[k]? = some c) :
    Recorded c := by
  refine run_own cap (fun _ c => Recorded c) (fun _ => ⟨rfl,rfl⟩) ?_ ?_ as s h k c hc
  · intro sh k c i e c' hs hc
    exact handler_recorded sh c i e c' hs hc
  · intro sh k c i c' hw hc
    obtain ⟨_,hp,hv,_,_,_,hm⟩ := writer_frame cap sh c i c' hw
    simpa [Recorded, hp, hv, hm] using hc

/-- The handler is not between the steps of `vote`, or of a vote's withdrawal. -/
def Idle : Phase → Prop
  | .voting _ | .voted _ | .unvoting _ _ => False
  | _ => True

/-- The handler has not ended. -/
def connected (c : Conn) : Bool :=
  match c.phase with
  | .returned _ => false
  | _ => true

theorem sum_votes (tasks : List Conn) (i : Fin nOptions) :
    (tasks.map fun c => votes c.currentVote i).sum =
      tasks.countP fun c => decide (c.currentVote = some i.val) := by
  induction tasks with
  | nil => rfl
  | cons c tasks ih =>
    rw [List.map_cons, List.sum_cons, ih, List.countP_cons, votes]
    by_cases h : c.currentVote = some i.val
    · simp [h]
      omega
    · simp [h]

theorem account_sum_apply (tasks : List Conn) (i : Fin nOptions) :
    (tasks.map account).sum i = (tasks.map fun c => account c i).sum := by
  rw [Pi.list_sum_apply, List.map_map]
  rfl

theorem conserved_apply (s : State) (hs : Conserved s) (i : Fin nOptions) :
    s.shared.counts i = (s.tasks.countP fun c => decide (c.currentVote = some i.val))+
      (s.tasks.map fun c => inProgress c i).sum := by
  rw [hs, account_sum_apply, ← sum_votes, ← List.sum_map_add]
  rfl

theorem conserved_nonneg (s : State) (hs : Conserved s) (i : Fin nOptions) :
    0 ≤ s.shared.counts i := by
  rw [hs, account_sum_apply]
  refine List.sum_nonneg fun x hx => ?_
  obtain ⟨c,_,rfl⟩ := List.mem_map.mp hx
  exact account_nonneg c i

theorem idle_inProgress (c : Conn) (i : Fin nOptions) (h : Idle c.phase) : inProgress c i = 0 := by
  unfold inProgress
  cases hp : c.phase <;> simp_all [Idle]

/-- At rest the counters are the votes of the connected handlers. -/
theorem idle_counts (s : State) (hs : Conserved s)
    (hr : ∀ (k : ℕ) c, s.tasks[k]? = some c → Recorded c) (hi : ∀ c ∈ s.tasks, Idle c.phase)
    (i : Fin nOptions) :
    s.shared.counts i = tallyVotes ((s.tasks.filter connected).map Conn.currentVote) i := by
  have hz : (s.tasks.map fun c => inProgress c i).sum = 0 :=
    List.sum_eq_zero fun x hx => by
      obtain ⟨c,hc,rfl⟩ := List.mem_map.mp hx
      exact idle_inProgress c i (hi c hc)
  have hcount : s.tasks.countP (fun c => decide (c.currentVote = some i.val)) =
      (s.tasks.filter connected).countP fun c => decide (c.currentVote = some i.val) := by
    rw [List.countP_filter]
    refine List.countP_congr fun c hc => ?_
    obtain ⟨k,hk⟩ := List.mem_iff_getElem?.mp hc
    have hrec := hr k c hk
    unfold Recorded at hrec
    unfold connected
    cases hp : c.phase <;> simp_all
  rw [conserved_apply s hs i, hz, add_zero, hcount, tallyVotes_apply, List.count, List.countP_map]
  exact congrArg _ (List.countP_congr fun c _ => by simp)

/-- For any number of handlers and any interleaving of their board steps. The
counters are the recorded votes with the half-done operations accounted for,
they are never negative and the clamp changes none; at rest they are the tally
of the connected handlers, whose records are the last votes they sent; and
when every handler has ended they are zero. -/
theorem votes_conserved (cap : ℕ) (as : List Action) (s : State)
    (h : run (step cap) as init = some s) :
    (∀ i : Fin nOptions,
      s.shared.counts i = (s.tasks.countP fun c => decide (c.currentVote = some i.val))+
          (s.tasks.map fun c => inProgress c i).sum ∧
        0 ≤ s.shared.counts i ∧ (VoteBoard.load s.shared.counts i : ℤ) = s.shared.counts i) ∧
    ((∀ c ∈ s.tasks, Idle c.phase) → ∀ i,
      s.shared.counts i = tallyVotes ((s.tasks.filter connected).map Conn.currentVote) i) ∧
    (∀ c ∈ s.tasks, c.phase = .reading → c.currentVote = lastVote c.parsed) ∧
    ((∀ c ∈ s.tasks, ∃ ok, c.phase = .returned ok) → ∀ i, s.shared.counts i = 0) := by
  have hs := run_conserved cap as s h
  have hr := run_recorded cap as s h
  refine ⟨fun i => ?_,fun hi => idle_counts s hs hr hi,fun c hc hp => ?_,fun hend i => ?_⟩
  · have h0 := conserved_nonneg s hs i
    exact ⟨conserved_apply s hs i,h0,VoteBoard.load_of_nonneg s.shared.counts i h0⟩
  · obtain ⟨k,hk⟩ := List.mem_iff_getElem?.mp hc
    have hrec := hr k c hk
    simpa [Recorded, hp] using hrec
  · have hi : ∀ c ∈ s.tasks, Idle c.phase := fun c hc => by
      obtain ⟨ok,hp⟩ := hend c hc
      simp [hp, Idle]
    have hnone : s.tasks.filter connected = [] := by
      rw [List.filter_eq_nil_iff]
      intro c hc
      obtain ⟨ok,hp⟩ := hend c hc
      simp [connected, hp]
    rw [idle_counts s hs hr hi i, hnone]
    rfl

/-- A handler that joins and votes for option 1, then a second one that is in
the middle of its vote for the same option. -/
def twoVotes : List Action :=
  [.spawn,.conn 0 (.go 0),.conn 0 (.go 0),.conn 0 (.go 0),.conn 0 (.go 0),
   .conn 0 (.line (some (.vote 1))),.conn 0 (.go 0),.conn 0 (.go 0),.conn 0 (.go 0),
   .spawn,.conn 1 (.go 0),.conn 1 (.go 0),.conn 1 (.go 0),.conn 1 (.go 0),
   .conn 1 (.line (some (.vote 1))),.conn 1 (.go 0)]

def twoVotesEnd : State := (run (step 16) twoVotes init).get (by decide +kernel)

theorem two_votes_conserved :
    twoVotesEnd.shared.counts 1 = 2 ∧
      twoVotesEnd.tasks.map (fun c => (c.currentVote,inProgress c 1)) = [(some 1,0),(none,1)] ∧
      0 ≤ twoVotesEnd.shared.counts 1 := by
  have hrun : run (step 16) twoVotes init = some twoVotesEnd := (Option.some_get _).symm
  exact ⟨by decide +kernel,by decide +kernel,
    ((votes_conserved 16 twoVotes twoVotesEnd hrun).1 1).2.1⟩

end RustChat.VoteConservation
