import Mathlib.Algebra.Order.Floor.Semiring
import Mathlib.Data.Nat.Cast.Order.Field
import Mathlib.Data.Rat.Floor
import RustChat.Allocation
import RustChat.ChatBookkeeping
import RustChat.Rounding
import RustChat.Server

/-!
# The metrics reporter

The task of `start_reporter` beside the server. It loads the two counters one
after the other while the handlers go on, and logs them with their rates over
the interval. The load of the machine, which it logs too, is left out.
-/

set_option autoImplicit false

namespace RustChat.Reporter
open Runs TaskPool Handler HandlerSteps Rounding ChatBookkeeping
open Allocation (u64Bound)

/-- `as f64`. -/
def asF64 (n : ℕ) : ℚ := roundTo 53 n

structure Duration where
  secs : ℕ
  nanos : ℕ

def asSecsF64 (d : Duration) : ℚ := roundTo 53 (asF64 d.secs+roundTo 53 (asF64 d.nanos/asF64 1000000000))

/-- `(delta as f64 / interval_secs) as u64`, which saturates. -/
def mps (interval : Duration) (delta : ℕ) : ℕ :=
  min ⌊roundTo 53 (asF64 delta/asSecsF64 interval)⌋₊ (u64Bound-1)

structure Report where
  recv : ℕ
  sent : ℕ
  recvMps : ℕ
  sentMps : ℕ

inductive Phase where
  -- `select!`, then the two loads of `snapshot`
  | waiting
  | ticked
  | loaded (recv : ℕ)
  | stopped
  deriving DecidableEq, Repr

structure Task where
  phase : Phase
  prevRecv : ℕ
  prevSent : ℕ
  logged : List Report

inductive Input where
  | tick
  /-- The sender is used, or dropped. -/
  | shutdown
  | go
  deriving DecidableEq, Repr

def next (interval : Duration) (sh : Shared) (r : Task) : Input → Option Task
  | .tick => if r.phase = .waiting then some { r with phase := .ticked } else none
  | .shutdown => if r.phase = .waiting then some { r with phase := .stopped } else none
  | .go =>
    match r.phase with
    | .ticked => some { r with phase := .loaded sh.recvCount }
    | .loaded recv =>
      let recvMps := mps interval (recv-r.prevRecv)
      let sentMps := mps interval (sh.sentCount-r.prevSent)
      some ⟨.waiting,recv,sh.sentCount,r.logged++[⟨recv,sh.sentCount,recvMps,sentMps⟩]⟩
    | .waiting | .stopped => none

structure State where
  server : Server.State
  task : Task

def init : State := ⟨Server.init,⟨.waiting,0,0,[]⟩⟩

inductive Action where
  | server (a : Server.Action)
  | reporter (i : Input)
  deriving DecidableEq, Repr

def step (cap : ℕ) (interval : Duration) (s : State) : Action → Option State
  | .server a => (Server.step cap s.server a).map fun server => { s with server }
  | .reporter i => (next interval s.server.hub.shared s.task i).map fun task => { s with task }

def serverAction : Action → Option Server.Action
  | .server a => some a
  | .reporter _ => none

/-- The reporter takes part in nothing the server does. -/
theorem run_server (cap : ℕ) (interval : Duration) (as : List Action) (s : State)
    (h : run (step cap interval) as init = some s) :
    run (Server.step cap) (as.filterMap serverAction) Server.init = some s.server := by
  refine run_history (fun as s =>
    run (Server.step cap) (as.filterMap serverAction) Server.init = some s.server) init rfl ?_ as s h
  intro as m a t _ ih ht
  rw [List.filterMap_append]
  cases a with
  | server a =>
    obtain ⟨server,hs,rfl⟩ := Option.map_eq_some_iff.mp ht
    exact (run_snoc _ a _ server).mpr ⟨m.server,ih,hs⟩
  | reporter i =>
    obtain ⟨task,_,rfl⟩ := Option.map_eq_some_iff.mp ht
    rw [show [Action.reporter i].filterMap serverAction = [] from rfl, List.append_nil]
    exact ih

/-! ## The counters -/

/-- Messages that are received and not yet sent on. -/
def inHand (c : Conn) : ℕ :=
  match c.phase with
  | .handling _ | .chatting _ _ _ | .chatted => 1
  | _ => 0

theorem handler_counts (sh : Shared) (c : Conn) (i : Handler.Input) (e : Effect) (c' : Conn)
    (h : HandlerStep sh c i e c') :
    (apply sh e).sentCount+inHand c'+sh.recvCount ≤ sh.sentCount+inHand c+(apply sh e).recvCount := by
  cases h with
  | replace clock option h => cases c.currentVote <;> simp [apply, subtract, inHand, h]
  | resume clock call after h hr => cases after <;> simp [apply, inHand, After.phase, h]
  | skip h => simp [apply]
  | parse msg h =>
    simp [apply, inHand, h]
    omega
  | tally clock h => simp [apply, inHand, h]
  | _ => simp [apply, inHand, *]

/-- No more is sent on than was received. -/
def Covered (s : Hub.State) : Prop :=
  s.shared.sentCount+(s.tasks.map inHand).sum ≤ s.shared.recvCount

theorem step_covered (cap : ℕ) (s : Hub.State) (a : Hub.Action) (t : Hub.State) (hs : Covered s)
    (h : Hub.step cap s a = some t) : Covered t := by
  unfold Covered at hs ⊢
  cases Hub.step_hub cap s a t h with
  | spawn => simpa [Handler.spawn, inHand] using hs
  | handler k i c c' e hc hstep =>
    have hcounts := handler_counts s.shared c i e c' hstep
    have hsum := sum_map_set inHand s.tasks k c c' hc
    simp only at hsum ⊢
    omega
  | writer k i c c' hc hw =>
    obtain ⟨_,hp,_⟩ := writer_frame cap s.shared c i c' hw
    have hsame := map_set_same inHand s.tasks k c c' hc (by simp [inHand, hp])
    simpa [hsame] using hs
  | throttle k clock u hu => exact hs
  | shutdown => exact hs

/-- Neither counter falls, and a step counts one received message at most. -/
structure Rises (sh sh' : Shared) : Prop where
  recv : sh.recvCount ≤ sh'.recvCount
  sent : sh.sentCount ≤ sh'.sentCount
  one : sh'.recvCount ≤ sh.recvCount+1

theorem apply_rises (sh : Shared) (e : Effect) : Rises sh (apply sh e) := by
  cases e <;> constructor <;> simp [apply]

theorem hub_rises (cap : ℕ) (s : Hub.State) (a : Hub.Action) (t : Hub.State)
    (h : Hub.step cap s a = some t) : Rises s.shared t.shared := by
  cases Hub.step_hub cap s a t h with
  | handler k i c c' e hc hstep => exact apply_rises s.shared e
  | _ => exact ⟨le_rfl,le_rfl,Nat.le_succ _⟩

theorem server_rises (cap : ℕ) (s : Server.State) (a : Server.Action) (t : Server.State)
    (h : Server.step cap s a = some t) : Rises s.hub.shared t.hub.shared := by
  have hhub := (Server.step_parts cap s a t h).2.2
  cases hb : Server.hubAction a with
  | none =>
    rw [hb] at hhub
    have hsame : s.hub = t.hub := Option.some.inj hhub
    rw [hsame]
    exact ⟨le_rfl,le_rfl,Nat.le_succ _⟩
  | some b =>
    rw [hb] at hhub
    exact hub_rises cap s.hub b t.hub hhub

theorem run_sent_le_recv (cap : ℕ) (interval : Duration) (as : List Action) (s : State)
    (h : run (step cap interval) as init = some s) :
    s.server.hub.shared.sentCount ≤ s.server.hub.shared.recvCount := by
  have hhub := (Server.run_parts cap _ s.server (run_server cap interval as s h)).2
  have hcov := run_invariant Covered (step_covered cap) _ Hub.init s.server.hub
    (by simp [Covered, Hub.init]) hhub
  exact Nat.le_of_add_right_le hcov

theorem run_recv_le (cap : ℕ) (interval : Duration) (as : List Action) (s : State)
    (h : run (step cap interval) as init = some s) : s.server.hub.shared.recvCount ≤ as.length := by
  refine run_history (fun as s => s.server.hub.shared.recvCount ≤ as.length) init le_rfl ?_ as s h
  intro as m a t _ ih ht
  rw [List.length_append, List.length_singleton]
  cases a with
  | server a =>
    obtain ⟨server,hs,rfl⟩ := Option.map_eq_some_iff.mp ht
    exact (server_rises cap m.server a server hs).one.trans (Nat.succ_le_succ ih)
  | reporter i =>
    obtain ⟨task,_,rfl⟩ := Option.map_eq_some_iff.mp ht
    exact Nat.le_succ_of_le ih

/-! ## A rate -/

theorem asSecsF64_whole (secs : ℕ) (h : secs ≤ 2^53) : asSecsF64 ⟨secs,0⟩ = secs := by
  have hsecs : asF64 secs = secs := roundTo_natCast 53 (by decide) secs h
  have hnanos : asF64 0 = 0 := by simpa [asF64] using roundTo_zero (K := ℚ) 53
  rw [asSecsF64, hsecs, hnanos, zero_div, roundTo_zero, add_zero]
  exact hsecs

/-- Over whole seconds a rate is rounded down as a division of integers is. -/
theorem mps_whole (secs delta : ℕ) (hpos : 0 < secs) (hsecs : secs ≤ 2^53) (hdelta : delta < 2^53) :
    mps ⟨secs,0⟩ delta = delta/secs := by
  have hk : (0:ℚ) < secs := Nat.cast_pos.mpr hpos
  have hexact : asF64 delta = delta := roundTo_natCast 53 (by decide) delta hdelta.le
  have hnonneg : (0:ℚ) ≤ (delta:ℚ)/secs := by positivity
  have hle : delta/secs ≤ delta := Nat.div_le_self delta secs
  have hlow : ((delta/secs : ℕ) : ℚ) ≤ roundTo 53 ((delta:ℚ)/secs) := by
    have hdiv : ((delta/secs : ℕ) : ℚ) ≤ (delta:ℚ)/secs := Nat.cast_div_le
    have hmono := roundTo_mono 53 (by decide) _ _ (Nat.cast_nonneg (delta/secs)) hdiv
    rwa [roundTo_natCast 53 (by decide) _ (by omega)] at hmono
  have hhigh : roundTo 53 ((delta:ℚ)/secs) < ((delta/secs : ℕ) : ℚ)+1 := by
    -- the quotient stays one part of `secs` below the next integer, the error is smaller
    have herror := (abs_le.mp (roundTo_error 53 ((delta:ℚ)/secs) hnonneg)).2
    have hgap : delta+1 ≤ secs*(delta/secs+1) := Nat.lt_mul_div_succ delta hpos
    have hgap : (delta:ℚ)/secs+1/secs ≤ ((delta/secs : ℕ) : ℚ)+1 := by
      rw [← add_div, div_le_iff₀ hk]
      exact_mod_cast (Nat.mul_comm secs _ ▸ hgap)
    have hsmall : (delta:ℚ)/secs/2^53 < 1/secs := by
      rw [div_right_comm]
      have hlt : (delta:ℚ)/2^53 < 1 := (div_lt_one (by positivity)).mpr (by exact_mod_cast hdelta)
      exact (div_lt_div_iff_of_pos_right hk).mpr hlt
    linarith
  have hfloor : ⌊roundTo 53 ((delta:ℚ)/secs)⌋₊ = delta/secs :=
    (Nat.floor_eq_iff (hlow.trans' (Nat.cast_nonneg _))).mpr ⟨hlow,hhigh⟩
  rw [mps, hexact, asSecsF64_whole secs hsecs, hfloor, min_eq_left]
  unfold u64Bound
  omega

/-- Rates over `secs` seconds each add up to `total`, less what the divisions
have dropped. -/
def AddUp (secs : ℕ) (rates : List ℕ) (total : ℕ) : Prop :=
  secs*rates.sum ≤ total ∧ total ≤ secs*rates.sum+(secs-1)*rates.length

theorem addUp_snoc (secs : ℕ) (rates : List ℕ) (before after : ℕ) (hpos : 0 < secs) (hle : before ≤ after)
    (h : AddUp secs rates before) : AddUp secs (rates++[(after-before)/secs]) after := by
  obtain ⟨hlow,hhigh⟩ := h
  have hdiv := Nat.div_add_mod (after-before) secs
  have hmod := Nat.mod_lt (after-before) hpos
  have hsum : secs*(rates.sum+(after-before)/secs) = secs*rates.sum+secs*((after-before)/secs) :=
    Nat.mul_add _ _ _
  have hlen : (secs-1)*(rates.length+1) = (secs-1)*rates.length+(secs-1) := Nat.mul_succ _ _
  rw [AddUp, List.sum_append, List.sum_singleton, List.length_append, List.length_singleton, hsum, hlen]
  constructor <;> omega

/-! ## The reports of a run -/

/-- What a report says of an earlier one. -/
def Later (a b : Report) : Prop := a.recv ≤ b.recv ∧ a.sent ≤ b.sent ∧ a.sent ≤ b.recv

/-- What the next report will have received, at least. -/
def seen (s : State) : ℕ :=
  match s.task.phase with
  | .loaded recv => recv
  | _ => s.server.hub.shared.recvCount

structure Sound (s : State) : Prop where
  recv : s.task.prevRecv ≤ seen s
  crossed : s.task.prevSent ≤ seen s
  seen : seen s ≤ s.server.hub.shared.recvCount
  sent : s.task.prevSent ≤ s.server.hub.shared.sentCount
  earlier : ∀ r ∈ s.task.logged, r.recv ≤ s.task.prevRecv ∧ r.sent ≤ s.task.prevSent
  last : ∀ r, s.task.logged.getLast? = some r → r.recv = s.task.prevRecv ∧ r.sent = s.task.prevSent
  ordered : s.task.logged.Pairwise Later

theorem phase_sound (s : State) (phase : Phase) (hs : Sound s)
    (h : Reporter.seen { s with task := { s.task with phase } } = Reporter.seen s) :
    Sound { s with task := { s.task with phase } } :=
  ⟨h ▸ hs.recv,h ▸ hs.crossed,h ▸ hs.seen,hs.sent,hs.earlier,hs.last,hs.ordered⟩

theorem log_sound (interval : Duration) (s : State) (recv : ℕ) (hs : Sound s)
    (hp : s.task.phase = .loaded recv)
    (hle : s.server.hub.shared.sentCount ≤ s.server.hub.shared.recvCount) (task : Task)
    (h : next interval s.server.hub.shared s.task .go = some task) : Sound { s with task } := by
  have hseen : Reporter.seen s = recv := by simp [Reporter.seen, hp]
  simp only [next, hp, Option.some.injEq] at h
  subst h
  have hrecv : s.task.prevRecv ≤ recv := hseen ▸ hs.recv
  refine ⟨hseen ▸ hs.seen,hle,le_rfl,le_rfl,fun r hr => ?_,fun r hr => ?_,?_⟩
  · rcases List.mem_append.mp hr with hr | hr
    · obtain ⟨h1,h2⟩ := hs.earlier r hr
      exact ⟨h1.trans hrecv,h2.trans hs.sent⟩
    · obtain rfl := List.mem_singleton.mp hr
      exact ⟨le_rfl,le_rfl⟩
  · rw [List.getLast?_concat] at hr
    cases hr
    exact ⟨rfl,rfl⟩
  · refine List.pairwise_append.mpr ⟨hs.ordered,List.pairwise_singleton _ _,fun a ha b hb => ?_⟩
    obtain rfl := List.mem_singleton.mp hb
    obtain ⟨h1,h2⟩ := hs.earlier a ha
    exact ⟨h1.trans hrecv,h2.trans hs.sent,h2.trans (hseen ▸ hs.crossed)⟩

theorem step_sound (cap : ℕ) (interval : Duration) (s : State) (a : Action) (t : State) (hs : Sound s)
    (hle : s.server.hub.shared.sentCount ≤ s.server.hub.shared.recvCount)
    (h : step cap interval s a = some t) : Sound t := by
  cases a with
  | server a =>
    obtain ⟨server,hstep,rfl⟩ := Option.map_eq_some_iff.mp h
    obtain ⟨hrecv,hsent,_⟩ := server_rises cap s.server a server hstep
    have hseen : Reporter.seen s ≤ Reporter.seen { s with server } := by
      unfold Reporter.seen
      cases s.task.phase <;> simp [hrecv]
    refine ⟨hs.recv.trans hseen,hs.crossed.trans hseen,?_,hs.sent.trans hsent,hs.earlier,hs.last,
      hs.ordered⟩
    have hold := hs.seen
    unfold Reporter.seen at hold ⊢
    cases hp : s.task.phase with
    | loaded recv =>
      simp only [hp] at hold ⊢
      exact hold.trans hrecv
    | _ => simp
  | reporter i =>
    obtain ⟨task,hnext,rfl⟩ := Option.map_eq_some_iff.mp h
    cases i with
    | tick | shutdown =>
      simp only [next] at hnext
      split_ifs at hnext with hp
      cases hnext
      exact phase_sound s _ hs (by simp [Reporter.seen, hp])
    | go =>
      cases hp : s.task.phase with
      | waiting | stopped => simp [next, hp] at hnext
      | ticked =>
        simp only [next, hp, Option.some.injEq] at hnext
        subst hnext
        exact phase_sound s _ hs (by simp [Reporter.seen, hp])
      | loaded recv => exact log_sound interval s recv hs hp hle task hnext

theorem run_sound (cap : ℕ) (interval : Duration) (as : List Action) (s : State)
    (h : run (step cap interval) as init = some s) : Sound s := by
  refine run_history (fun _ s => Sound s) init ?_ ?_ as s h
  · exact ⟨by simp [init],by simp [init],by simp [Reporter.seen, init],by simp [init],by simp [init],
      by simp [init],by simp [init]⟩
  · exact fun as m a t hm hs ht =>
      step_sound cap interval m a t hs (run_sent_le_recv cap interval as m hm) ht

structure Rated (secs : ℕ) (s : State) : Prop where
  recv : s.task.prevRecv < 2^53 → AddUp secs (s.task.logged.map Report.recvMps) s.task.prevRecv
  sent : s.task.prevSent < 2^53 → AddUp secs (s.task.logged.map Report.sentMps) s.task.prevSent

theorem log_rated (secs : ℕ) (hpos : 0 < secs) (hsecs : secs ≤ 2^53) (s : State) (recv : ℕ)
    (hs : Sound s) (hr : Rated secs s) (hp : s.task.phase = .loaded recv) (task : Task)
    (h : next ⟨secs,0⟩ s.server.hub.shared s.task .go = some task) : Rated secs { s with task } := by
  have hseen : seen s = recv := by simp [seen, hp]
  simp only [next, hp, Option.some.injEq] at h
  subst h
  refine ⟨fun hlt => ?_,fun hlt => ?_⟩
  · have hrecv : s.task.prevRecv ≤ recv := hseen ▸ hs.recv
    simp only at hlt ⊢
    rw [List.map_append, List.map_singleton, mps_whole secs _ hpos hsecs (by omega)]
    exact addUp_snoc secs _ _ _ hpos hrecv (hr.recv (by omega))
  · have hsent := hs.sent
    simp only at hlt ⊢
    have hrate := mps_whole secs (s.server.hub.shared.sentCount-s.task.prevSent) hpos hsecs (by omega)
    rw [List.map_append, List.map_singleton, hrate]
    exact addUp_snoc secs _ _ _ hpos hsent (hr.sent (by omega))

theorem step_rated (cap secs : ℕ) (hpos : 0 < secs) (hsecs : secs ≤ 2^53) (s : State) (a : Action)
    (t : State) (hs : Sound s) (hr : Rated secs s) (h : step cap ⟨secs,0⟩ s a = some t) :
    Rated secs t := by
  cases a with
  | server a =>
    obtain ⟨server,_,rfl⟩ := Option.map_eq_some_iff.mp h
    exact ⟨hr.recv,hr.sent⟩
  | reporter i =>
    obtain ⟨task,hnext,rfl⟩ := Option.map_eq_some_iff.mp h
    cases i with
    | tick | shutdown =>
      simp only [next] at hnext
      split_ifs at hnext
      cases hnext
      exact ⟨hr.recv,hr.sent⟩
    | go =>
      cases hp : s.task.phase with
      | waiting | stopped => simp [next, hp] at hnext
      | ticked =>
        simp only [next, hp, Option.some.injEq] at hnext
        subst hnext
        exact ⟨hr.recv,hr.sent⟩
      | loaded recv => exact log_rated secs hpos hsecs s recv hs hr hp task hnext

theorem run_rated (cap secs : ℕ) (hpos : 0 < secs) (hsecs : secs ≤ 2^53) (as : List Action) (s : State)
    (h : run (step cap ⟨secs,0⟩) as init = some s) : Rated secs s := by
  refine run_history (fun _ s => Rated secs s) init ⟨by simp [AddUp, init],by simp [AddUp, init]⟩ ?_ as s h
  exact fun as m a t hm hr ht =>
    step_rated cap secs hpos hsecs m a t (run_sound cap ⟨secs,0⟩ as m hm) hr ht

def restReport (interval : Duration) (s : State) : Report :=
  let sh := s.server.hub.shared
  ⟨sh.recvCount,sh.sentCount,mps interval (sh.recvCount-s.task.prevRecv),
    mps interval (sh.sentCount-s.task.prevSent)⟩

theorem two_loads (cap : ℕ) (interval : Duration) (s : State) (hp : s.task.phase = .ticked) :
    run (step cap interval) [.reporter .go,.reporter .go] s =
      some { s with task := ⟨.waiting,s.server.hub.shared.recvCount,s.server.hub.shared.sentCount,
        s.task.logged++[restReport interval s]⟩ } := by
  simp only [run, step, next, hp, Option.map_some, Option.bind_some]
  rfl

/-- For every interval and every run of the server with a reporter beside it,
whatever moves between the two loads of a report. The server runs as it does
alone; `recv_count` is the larger counter and no larger than the run is long.
No count in the log is ever lower than an earlier one, so no subtraction
saturates, and what one report counts as sent the next one counts as received.
If the server rests during the two loads, what is reported is what the handlers
have parsed, and the chats on the channel. Over whole seconds `f64` loses
nothing of a difference below 2^53: the rates of all reports add up to the last
counts, less at most `secs-1` for each report. -/
theorem reports_add_up (cap : ℕ) (interval : Duration) (as : List Action) (s : State)
    (h : run (step cap interval) as init = some s) :
    run (Server.step cap) (as.filterMap serverAction) Server.init = some s.server ∧
    s.server.hub.shared.sentCount ≤ s.server.hub.shared.recvCount ∧
    s.server.hub.shared.recvCount ≤ as.length ∧
    s.task.logged.Pairwise Later ∧
    (∀ r, s.task.logged.getLast? = some r →
      r.recv = s.task.prevRecv ∧ r.sent = s.task.prevSent ∧
      r.recv ≤ s.server.hub.shared.recvCount ∧ r.sent ≤ s.server.hub.shared.sentCount) ∧
    (s.task.phase = .ticked → ∃ t r,
      run (step cap interval) [.reporter .go,.reporter .go] s = some t ∧
      t.task.logged = s.task.logged++[r] ∧
      r.recv = (s.server.hub.tasks.map fun c => c.parsed.length).sum ∧
      r.sent+(s.server.hub.tasks.map uncounted).sum = s.server.hub.shared.tx.countP isChat) ∧
    (∀ secs, interval = ⟨secs,0⟩ → 0 < secs → secs ≤ 2^53 →
      (∀ delta < 2^53, mps interval delta = delta/secs) ∧
      (s.server.hub.shared.recvCount < 2^53 →
        AddUp secs (s.task.logged.map Report.recvMps) s.task.prevRecv ∧
        AddUp secs (s.task.logged.map Report.sentMps) s.task.prevSent)) := by
  have hserver := run_server cap interval as s h
  have hcounted := run_counted cap _ s.server.hub (Server.run_parts cap _ s.server hserver).2
  have hle := run_sent_le_recv cap interval as s h
  have hs := run_sound cap interval as s h
  have hrecv := hs.recv.trans hs.seen
  have hsent := hs.sent
  refine ⟨hserver,hle,run_recv_le cap interval as s h,hs.ordered,fun r hr => ?_,fun hp => ?_,
    fun secs hi hpos hsecs => ?_⟩
  · obtain ⟨h1,h2⟩ := hs.last r hr
    exact ⟨h1,h2,h1 ▸ hrecv,h2 ▸ hsent⟩
  · exact ⟨_,_,two_loads cap interval s hp,rfl,hcounted.recv,hcounted.sent⟩
  · subst hi
    have hr := run_rated cap secs hpos hsecs as s h
    refine ⟨fun delta hdelta => mps_whole secs delta hpos hsecs hdelta,fun hlt => ?_⟩
    exact ⟨hr.recv (by omega),hr.sent (by omega)⟩

/-- A client connects and chats between the two loads of the first report, so
that it shows more sent than received. -/
def chatBetweenLoads : List Action :=
  [.reporter .tick,.reporter .go,
   .server (.accept .connect),.server (.accept .go),.server (.accept .go),.server (.accept .go),
   .server (.accept .spawn),
   .server (.conn 0 (.go 0)),.server (.conn 0 (.go 0)),.server (.conn 0 (.go 0)),.server (.conn 0 (.go 0)),
   .server (.conn 0 (.line (some (.chat "hi" 1)))),
   .server (.conn 0 (.go 2)),.server (.conn 0 (.go 2)),.server (.conn 0 (.go 2)),
   .reporter .go,.reporter .tick,.reporter .go,.reporter .go]

def chatBetweenLoadsEnd : State := (run (step 16 ⟨5,0⟩) chatBetweenLoads init).get (by decide +kernel)

theorem sent_before_received :
    chatBetweenLoadsEnd.task.logged.map (fun r => (r.recv,r.sent)) = [(0,1),(1,1)] ∧
      chatBetweenLoadsEnd.task.logged.Pairwise Later := by
  have hrun : run (step 16 ⟨5,0⟩) chatBetweenLoads init = some chatBetweenLoadsEnd :=
    (Option.some_get _).symm
  have hreports := reports_add_up 16 ⟨5,0⟩ chatBetweenLoads chatBetweenLoadsEnd hrun
  exact ⟨by decide +kernel,hreports.2.2.2.1⟩

end RustChat.Reporter
