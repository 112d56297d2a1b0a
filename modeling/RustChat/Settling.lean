import RustChat.Delivery
import RustChat.SnapshotOrder
import RustChat.VoteConservation

/-!
# The server comes to rest

The moves the server can make with nothing new from outside: its handlers go
on with what they have parsed, throttled calls and flush tasks run, write
tasks copy the log as fast as their sockets take it. Each of them brings the
server nearer to a state in which none is left, and there nothing is pending.
-/

set_option autoImplicit false

namespace RustChat.Settling
open Runs TaskPool Protocol Broadcast Handler HandlerSteps Hub Footprint Delivery VoteConservation
open Throttle hiding step init State Action

/-- Nothing is accepted, read from a socket, aborted or failed, and no signal
comes. -/
def own : Hub.Action → Bool
  | .conn _ (.go _) | .conn _ .recv | .conn _ .written | .conn _ .writerEnded => true
  | .throttle _ _ => true
  | _ => false

/-! ## What is still to be done -/

section Cost
variable {α : Type*}

/-- The steps a thread can still take, with those of the task it may spawn. -/
def threadCost : Thread α → ℕ
  | .entered _ => 13
  | .clocked _ _ => 12
  | .comparing _ _ _ => 11
  | .parking _ => 10
  | .swapping => 9
  | .scheduling => 8
  | .delaying _ => 7
  | .spawning _ _ => 6
  | .sleeping _ _ => 5
  | .taking => 4
  | .reading _ => 3
  | .stamping _ _ => 2
  | .flushing _ | .sending _ => 1
  | .returned | .flushed => 0

theorem thread_cost (g g' : Gate α) (t t' : Thread α) (fs : List (Thread α)) (clock : ℕ)
    (h : Throttle.next g t clock = some (g',t',fs)) :
    threadCost t'+(fs.map threadCost).sum < threadCost t := by
  cases next_step g g' t t' fs clock h <;> simp [threadCost]

theorem thread_stuck (g : Gate α) (t : Thread α) (clock : ℕ) (h : Throttle.next g t clock = none) :
    t = .returned ∨ t = .flushed := by
  cases t with
  | comparing m now last =>
    simp only [Throttle.next] at h
    split_ifs at h
  | returned => exact Or.inl rfl
  | flushed => exact Or.inr rfl
  | _ => simp [Throttle.next] at h

end Cost

/-- The loads, the call and the return that follow a change of the board. -/
def publishCost (loaded rest : ℕ) : ℕ := nOptions-loaded+threadCost (.entered (⟨0,()⟩ : Ticket Unit))+rest+2

/-- The steps from the end of the read loop on. -/
def exitCost : ℕ := publishCost 0 2+2

def afterCost : After → ℕ
  | .reading => exitCost+1
  | .leaving => 2

/-- The steps a handler can still take on what it has read, the end of its read
loop included, with those of the calls it makes. -/
def handlerCost : Handler.Phase → ℕ
  | .spawned => exitCost+5
  | .subscribed => exitCost+4
  | .joined _ => exitCost+3
  | .welcoming _ => exitCost+2
  | .reading => exitCost+1
  | .handling _ => publishCost 0 (exitCost+1)+3
  | .chatting _ _ _ => exitCost+3
  | .chatted => exitCost+2
  | .voting _ => publishCost 0 (exitCost+1)+2
  | .voted _ => publishCost 0 (exitCost+1)+1
  | .unvoting _ after => publishCost 0 (afterCost after)+1
  | .loading loaded _ after => publishCost loaded.length (afterCost after)
  | .publishing _ after => afterCost after+1
  | .exiting => exitCost
  | .leaving => 2
  | .left => 1
  | .returned _ => 0

/-- The events a receiver has not been given. -/
def unread (log : List BroadcastEvent) (c : Conn) : ℕ :=
  match c.rx with
  | some r => log.length-r.next
  | none => 0

/-- The steps of the write task: a `recv` and a write for each event. -/
def backlog (log : List BroadcastEvent) (c : Conn) : ℕ :=
  match c.writer with
  | .stopped => 0
  | .writing _ _ => 2*unread log c+1
  | .notStarted | .waiting => 2*unread log c

def work (s : Hub.State) : ℕ :=
  (s.tasks.map fun c => handlerCost c.phase).sum+(s.shared.throttle.tasks.map threadCost).sum

/-- A step of a handler or of a thread may send, and what is sent is copied by
every write task. -/
def potential (s : Hub.State) : ℕ :=
  (2*s.tasks.length+1)*work s+(s.tasks.map (backlog s.shared.tx)).sum

/-! ## Each part comes nearer -/

/-- The steps of the call an effect makes. -/
def callCost : Effect → ℕ
  | .callThrottled m => threadCost (.entered (⟨0,m⟩ : Ticket Snapshot))
  | _ => 0

theorem handler_cost (k : ℕ) (sh : Handler.Shared) (c : Conn) (i : Input) (e : Effect) (c' : Conn)
    (h : HandlerStep sh c i e c') (hown : own (.conn k i) = true) :
    handlerCost c'.phase+callCost e < handlerCost c.phase := by
  cases h with
  | stop i hi h => simp [h, handlerCost, callCost]
  | replace clock option h =>
    cases c.currentVote <;> simp [h, handlerCost, subtract, callCost]
  | load clock loaded asOf after h hl =>
    simp only [h, handlerCost, callCost, publishCost, List.length_append, List.length_singleton]
    omega
  | publish clock loaded asOf after h hl =>
    simp only [h, handlerCost, callCost, publishCost, threadCost]
    omega
  | resume clock call after h hr =>
    cases after <;> simp [h, handlerCost, After.phase, callCost, afterCost]
  | unvote clock prev after h => simp [h, handlerCost, callCost]
  | stamp clock text clientTs h =>
    simp only [h, handlerCost, callCost, publishCost]
    omega
  | parse | skip => simp [own] at hown
  | fail n h => simp [own] at hown
  | _ => simp [handlerCost, callCost, exitCost, publishCost, afterCost, threadCost, *]

theorem apply_throttle (sh : Handler.Shared) (e : Effect) :
    ((apply sh e).throttle.tasks.map threadCost).sum =
      (sh.throttle.tasks.map threadCost).sum+callCost e := by
  cases e <;> simp [apply, callCost, enter, threadCost]

theorem handler_backlog (cap : ℕ) (sh : Handler.Shared) (c : Conn) (i : Input) (e : Effect) (c' : Conn)
    (h : HandlerStep sh c i e c') (hf : Fed cap sh c) :
    backlog (apply sh e).tx c' ≤ backlog (apply sh e).tx c := by
  cases h with
  | subscribe clock h =>
    cases hw : c.writer <;> simp [backlog, unread, subscribe, apply, hw]
  | welcome clock n h => simp [backlog, unread, hf.before (by simp [h, NotWelcomed])]
  | _ => simp [backlog, unread]

theorem writer_backlog (cap : ℕ) (sh : Handler.Shared) (c : Conn) (k : ℕ) (i : Input) (c' : Conn)
    (h : WriterStep cap sh c i c') (hown : own (.conn k i) = true) :
    backlog sh.tx c' < backlog sh.tx c := by
  cases h with
  | event r r' pos msg hw hr hrecv =>
    obtain ⟨_,rfl,he,rfl⟩ := recv_event cap sh.tx r r' pos _ hrecv
    have hlt := (List.getElem?_eq_some_iff.mp he).1
    simp only [backlog, unread, hw, hr]
    omega
  | shutdown r r' pos hw hr hrecv =>
    obtain ⟨_,rfl,he,rfl⟩ := recv_event cap sh.tx r r' pos _ hrecv
    have hlt := (List.getElem?_eq_some_iff.mp he).1
    simp only [backlog, unread, hw, hr]
    omega
  | lagged r r' n hw hr hrecv =>
    obtain ⟨hfar,rfl,rfl⟩ := recv_lagged cap sh.tx r r' n hrecv
    simp only [backlog, unread, hw, hr]
    omega
  | written pos msg hw => simp [backlog, unread, hw]
  | stop i hi hw => rcases hi with rfl | rfl | rfl <;> simp [own] at hown

theorem backlog_grown (log more : List BroadcastEvent) (c : Conn) :
    backlog (log++more) c ≤ backlog log c+2*more.length := by
  have hun : unread (log++more) c ≤ unread log c+more.length := by
    unfold unread
    cases c.rx with
    | none => simp
    | some r =>
      rw [List.length_append]
      dsimp only
      omega
  unfold backlog
  cases c.writer <;> dsimp only <;> omega

theorem backlogs_grown (log more : List BroadcastEvent) (hmore : more.length ≤ 1) (tasks : List Conn) :
    (tasks.map (backlog (log++more))).sum ≤ (tasks.map (backlog log)).sum+2*tasks.length := by
  induction tasks with
  | nil => simp
  | cons c tasks ih =>
    have hc := backlog_grown log more c
    simp only [List.map_cons, List.sum_cons, List.length_cons]
    omega

/-! ## The whole server comes nearer -/

/-- A piece of work done is worth the events it may send. -/
theorem potential_lower (n w w' b b' : ℕ) (hw : w' < w) (hb : b' ≤ b+2*n) :
    (2*n+1)*w'+b' < (2*n+1)*w+b := by
  have hmul := Nat.mul_le_mul_left (2*n+1) (Nat.succ_le_of_lt hw)
  rw [Nat.mul_succ] at hmul
  omega

theorem emitted_length (e : Effect) : (emitted e).length ≤ 1 := by
  cases e <;> simp [emitted]

theorem sentSnapshots_length (t t' : Throttle.State Snapshot) (k clock : ℕ)
    (h : move Throttle.next t k clock = some t') : (sentSnapshots t t').length ≤ 1 := by
  obtain ⟨u,_,hs⟩ := throttle_sends t t' k clock h
  rw [hs, List.length_map]
  cases emits u <;> simp

theorem step_potential (cap : ℕ) (s : Hub.State) (a : Hub.Action) (t : Hub.State)
    (hf : ∀ (k : ℕ) c, s.tasks[k]? = some c → Fed cap s.shared c) (hown : own a = true)
    (h : step cap s a = some t) : potential t < potential s := by
  unfold potential work
  cases step_hub cap s a t h with
  | spawn | shutdown => simp [own] at hown
  | handler k i c c' e hc hs =>
    have hcost := handler_cost k s.shared c i e c' hs hown
    have hset := sum_map_set (fun c => handlerCost c.phase) s.tasks k c c' hc
    have hback := sum_map_set (backlog (apply s.shared e).tx) s.tasks k c c' hc
    have hle := handler_backlog cap s.shared c i e c' hs (hf k c hc)
    have hgrow := backlogs_grown s.shared.tx (emitted e) (emitted_length e) s.tasks
    rw [← apply_tx] at hgrow
    dsimp only
    rw [apply_throttle, List.length_set]
    exact potential_lower _ _ _ _ _ (by omega) (by omega)
  | writer k i c c' hc hw =>
    have hlow := writer_backlog cap s.shared c k i c' hw hown
    have hset := sum_map_set (backlog s.shared.tx) s.tasks k c c' hc
    have hsame := map_set_same (fun c => handlerCost c.phase) s.tasks k c c' hc
      (congrArg handlerCost (writer_frame cap s.shared c i c' hw).2.1)
    dsimp only
    rw [List.length_set, hsame]
    omega
  | throttle k clock u hu =>
    obtain ⟨v,g,v',fs,hv,hn,rfl⟩ := move_cases Throttle.next s.shared.throttle u k clock hu
    have hcost := thread_cost s.shared.throttle.shared g v v' fs clock hn
    have hset := sum_map_set threadCost s.shared.throttle.tasks k v v' hv
    have hgrow := backlogs_grown s.shared.tx _ (sentSnapshots_length _ _ k clock hu) s.tasks
    dsimp only
    rw [List.map_append, List.sum_append]
    exact potential_lower _ _ _ _ _ (by omega) hgrow

/-! ## Where no move is left -/

/-- The thread entered with a call, not as a flush task. -/
def Caller (t : Thread Snapshot) : Prop := ThrottleInvariant.InCall t ∨ t = .returned

/-- A handler that waits for its call has a thread in it. -/
def Served (sh : Handler.Shared) (c : Conn) : Prop :=
  ∀ call after, c.phase = .publishing call after →
    ∃ t, sh.throttle.tasks[call]? = some t ∧ Caller t

theorem caller_next (g g' : Gate Snapshot) (t t' : Thread Snapshot) (fs : List (Thread Snapshot)) (clock : ℕ)
    (h : Throttle.next g t clock = some (g',t',fs)) (ht : Caller t) : Caller t' := by
  unfold Caller at ht ⊢
  cases next_step g g' t t' fs clock h <;> simp_all [ThrottleInvariant.InCall]

theorem served_frame (sh sh' : Handler.Shared) (c : Conn)
    (h : ∀ (j : ℕ) t, sh.throttle.tasks[j]? = some t → Caller t →
      ∃ t', sh'.throttle.tasks[j]? = some t' ∧ Caller t') (hc : Served sh c) : Served sh' c := by
  intro call after hp
  obtain ⟨t,ht,hcall⟩ := hc call after hp
  exact h call t ht hcall

theorem apply_callers (sh : Handler.Shared) (e : Effect) (j : ℕ) (t : Thread Snapshot)
    (ht : sh.throttle.tasks[j]? = some t) : (apply sh e).throttle.tasks[j]? = some t := by
  cases e with
  | callThrottled m =>
    exact (List.getElem?_append_left (List.getElem?_eq_some_iff.mp ht).1).trans ht
  | _ => exact ht

theorem move_callers (p q : Throttle.State Snapshot) (k clock : ℕ) (h : move Throttle.next p k clock = some q)
    (j : ℕ) (t : Thread Snapshot) (ht : p.tasks[j]? = some t) (hcall : Caller t) :
    ∃ t', q.tasks[j]? = some t' ∧ Caller t' := by
  obtain ⟨u,g,u',fs,hu,hn,rfl⟩ := move_cases Throttle.next p q k clock h
  have hlt := (List.getElem?_eq_some_iff.mp ht).1
  dsimp only
  rw [List.getElem?_append_left (by rwa [List.length_set])]
  by_cases hj : k = j
  · subst hj
    obtain rfl : u = t := Option.some.inj (hu.symm.trans ht)
    exact ⟨u',getElem?_set_same p.tasks k u u' hu,caller_next p.shared g u u' fs clock hn hcall⟩
  · exact ⟨t,(List.getElem?_set_ne hj).trans ht,hcall⟩

theorem handler_served (sh : Handler.Shared) (c : Conn) (i : Input) (e : Effect) (c' : Conn)
    (h : HandlerStep sh c i e c') (hc : Served sh c) : Served (apply sh e) c' := by
  cases h with
  | publish clock loaded asOf after h hl =>
    intro call after' hp
    obtain ⟨rfl,rfl⟩ := Phase.publishing.inj hp
    exact ⟨.entered ⟨_,_⟩,List.getElem?_concat_length,Or.inl trivial⟩
  | resume clock call after h hr =>
    intro call' after' hp
    cases after <;> simp [After.phase] at hp
  | skip h => exact hc
  | _ => simp [Served]

theorem run_served (cap : ℕ) (as : List Hub.Action) (s : Hub.State) (h : run (step cap) as init = some s)
    (k : ℕ) (c : Conn) (hc : s.tasks[k]? = some c) : Served s.shared c := by
  refine run_kept cap (fun _ => True) (fun sh _ c => Served sh c) (fun _ _ _ => trivial) ?_ as s h k c hc
  exact {
    spawned := fun s _ => by simp [Served, Handler.spawn]
    moved := fun s k i c c' e _ _ hs hc => handler_served s.shared c i e c' hs hc
    wrote := fun s k i c c' _ _ hw hc call after hp =>
      hc call after ((writer_frame cap s.shared c i c' hw).2.1 ▸ hp)
    other := fun s k j i c c' e d _ _ _ _ _ hd =>
      served_frame s.shared _ d (fun j t ht hcall => ⟨t,apply_callers s.shared e j t ht,hcall⟩) hd
    throttled := fun s k clock t j d _ hu _ hd =>
      served_frame s.shared _ d (move_callers s.shared.throttle t k clock hu) hd
    shutdown := fun s j d _ _ hd => hd }

/-- Past the Welcome the write task has been spawned, and it has a receiver. -/
def Started (c : Conn) : Prop :=
  (c.phase ≠ .spawned → c.rx ≠ none) ∧
    (NotWelcomed c.phase ∨ c.phase = .returned false ∨ c.writer ≠ .notStarted)

theorem handler_begun (sh : Handler.Shared) (c : Conn) (i : Input) (e : Effect) (c' : Conn)
    (h : HandlerStep sh c i e c') (hc : Started c) : Started c' := by
  unfold Started at hc ⊢
  cases h with
  | resume clock call after h hr => cases after <;> simp_all [After.phase, NotWelcomed]
  | skip h => exact hc
  | _ => simp_all [NotWelcomed]

theorem run_begun (cap : ℕ) (as : List Hub.Action) (s : Hub.State) (h : run (step cap) as init = some s)
    (k : ℕ) (c : Conn) (hc : s.tasks[k]? = some c) : Started c := by
  refine run_own cap (fun _ c => Started c) (fun k => by simp [Started, Handler.spawn, NotWelcomed]) ?_ ?_
    as s h k c hc
  · intro sh k c i e c' hs hc
    exact handler_begun sh c i e c' hs hc
  · intro sh k c i c' hw hc
    unfold Started at hc ⊢
    rw [(writer_frame cap sh c i c' hw).2.1]
    cases hw <;> simp_all

/-- The handler is back in the `select!` of its read loop and its write task
has written all there is. -/
structure Waiting (sh : Handler.Shared) (c : Conn) : Prop where
  reading : c.phase = .reading
  waiting : c.writer = .waiting
  drained : ∃ r, c.rx = some r ∧ r.next = sh.tx.length

/-- Each handler waits for its client or has returned, and no call of the
throttle and no flush task is under way. -/
structure Settled (s : Hub.State) : Prop where
  handlers : ∀ c ∈ s.tasks, Waiting s.shared c ∨ ∃ ok, c.phase = .returned ok
  throttle : ThrottleInvariant.Quiescent s.shared.throttle

theorem recv_stuck (cap : ℕ) (sh : Handler.Shared) (c : Conn) (r : Receiver) (hw : c.writer = .waiting)
    (hr : c.rx = some r) (hle : r.next ≤ sh.tx.length) (h : act cap sh c .recv = none) :
    r.next = sh.tx.length := by
  simp only [act, hw, hr, receive, Option.map_eq_none_iff, recv] at h
  split_ifs at h
  rw [Option.map_eq_none_iff, List.getElem?_eq_none_iff] at h
  omega

theorem caller_ended (t : Thread Snapshot) (hcall : Caller t) (h : t = .returned ∨ t = .flushed) :
    t = .returned := by
  rcases h with rfl | rfl
  · rfl
  · simp [Caller, ThrottleInvariant.InCall] at hcall

theorem advance_stuck (sh : Handler.Shared) (c : Conn) (clock : ℕ)
    (hs : ∀ call after, c.phase = .publishing call after → sh.throttle.tasks[call]? = some .returned)
    (h : advance sh c clock = none) : c.phase = .reading ∨ ∃ ok, c.phase = .returned ok := by
  cases hp : c.phase with
  | reading => exact Or.inl rfl
  | returned ok => exact Or.inr ⟨ok,rfl⟩
  | publishing call after => simp [advance, hp, hs call after hp] at h
  | handling msg =>
    cases msg with
    | unvote => cases hv : c.currentVote <;> simp [advance, hp, hv] at h
    | _ => simp [advance, hp] at h
  | loading loaded asOf after =>
    simp only [advance, hp] at h
    split_ifs at h
  | exiting => cases hv : c.currentVote <;> simp [advance, hp, hv] at h
  | _ => simp [advance, hp] at h

theorem conn_stuck (cap : ℕ) (s : Hub.State) (k : ℕ) (c : Conn) (i : Input) (hc : s.tasks[k]? = some c)
    (h : step cap s (.conn k i) = none) : act cap s.shared c i = none := by
  simpa [step, move, hc, Hub.next] using h

theorem stuck_settled (cap : ℕ) (as : List Hub.Action) (s : Hub.State) (h : run (step cap) as init = some s)
    (hs : Stuck (step cap) (fun _ a => own a = true) s) : Settled s := by
  have hq : ThrottleInvariant.Quiescent s.shared.throttle := by
    intro t ht
    obtain ⟨k,hk⟩ := List.mem_iff_getElem?.mp ht
    have hnone := hs (.throttle k 0) rfl
    refine thread_stuck s.shared.throttle.shared t 0 ?_
    simpa [step, Throttle.step, move, hk] using hnone
  refine ⟨fun c hc => ?_,hq⟩
  obtain ⟨k,hk⟩ := List.mem_iff_getElem?.mp hc
  have hact := fun i hi => conn_stuck cap s k c i hk (hs (.conn k i) hi)
  have hserved : ∀ call after, c.phase = .publishing call after →
      s.shared.throttle.tasks[call]? = some .returned := by
    intro call after hp
    obtain ⟨t,ht,hcall⟩ := run_served cap as s h k c hk call after hp
    rwa [← caller_ended t hcall (hq t (List.mem_of_getElem? ht))]
  rcases advance_stuck s.shared c 0 hserved (hact (.go 0) rfl) with hp | hp
  · obtain ⟨hrx,hst⟩ := run_begun cap as s h k c hk
    obtain ⟨r,hr⟩ := Option.ne_none_iff_exists'.mp (hrx (by simp [hp]))
    have hle := ((run_fed cap as s h k c hk).cursor r hr).1
    have hended := hact .writerEnded rfl
    have hwritten := hact .written rfl
    cases hw : c.writer with
    | notStarted => simp [hp, hw, NotWelcomed] at hst
    | stopped => simp [act, hp, hw] at hended
    | writing pos msg => simp [act, hw] at hwritten
    | waiting => exact Or.inl ⟨hp,hw,r,hr,recv_stuck cap s.shared c r hw hr hle (hact .recv rfl)⟩
  · exact Or.inr hp

/-! ## What is then done -/

def Reachable (cap : ℕ) (s : Hub.State) : Prop := ∃ as, run (step cap) as init = some s

theorem own_descends (cap : ℕ) : Descends (step cap) (fun _ a => own a = true) (Reachable cap) potential where
  kept := fun s a t ⟨as,h⟩ _ ht => ⟨as++[a],(run_snoc as a init t).mpr ⟨s,h,ht⟩⟩
  lower := fun s a t ⟨as,h⟩ hown ht => step_potential cap s a t (run_fed cap as s h) hown ht

theorem own_parsed (cap : ℕ) (bs : List Hub.Action) (s t : Hub.State) (hown : ∀ a ∈ bs, own a = true)
    (h : run (step cap) bs s = some t) (k : ℕ) (c : Conn) (hc : s.tasks[k]? = some c) :
    ∃ d, t.tasks[k]? = some d ∧ d.parsed = c.parsed := by
  refine guarded_history (fun _ a => own a = true) (fun _ t => ∃ d, t.tasks[k]? = some d ∧ d.parsed = c.parsed)
    s ⟨c,hc,rfl⟩ ?_ bs t ((guarded_forall _ bs s t h).mpr hown) h
  rintro _ m a u _ ⟨d,hd,hparsed⟩ hown hu
  obtain ⟨d',hd',⟨rfl,_⟩ | ⟨i,rfl,⟨e,hs⟩ | hw⟩⟩ := conn_forward cap m u a hu k d hd
  · exact ⟨d',hd',hparsed⟩
  · refine ⟨d',hd',Eq.trans ?_ hparsed⟩
    cases hs with
    | parse => simp [own] at hown
    | _ => rfl
  · exact ⟨d',hd',(writer_frame cap m.shared d i d' hw).2.2.2.2.2.2.trans hparsed⟩

theorem settled_chats (sh : Handler.Shared) (c : Conn) (hc : Trace sh c)
    (hp : Waiting sh c ∨ ∃ ok, c.phase = .returned ok) : chats c.id sh.tx = said none c.parsed := by
  have hnone : unsaid c = [] := by
    rcases hp with hp | ⟨ok,hp⟩
    · simp [unsaid, hp.reading]
    · simp [unsaid, hp]
  simpa [hnone] using hc.chat

theorem settled_counts (cap : ℕ) (as : List Hub.Action) (s : Hub.State)
    (h : run (step cap) as init = some s) (hs : Settled s) (i : Fin nOptions) :
    s.shared.counts i =
      VoteIntegrity.tallyVotes ((s.tasks.filter connected).map fun c => lastVote c.parsed) i := by
  obtain ⟨_,hidle,hlast,_⟩ := votes_conserved cap as s h
  rw [hidle (fun c hc => ?_) i]
  · congr 2
    refine List.map_congr_left fun c hc => ?_
    obtain ⟨hmem,hconn⟩ := List.mem_filter.mp hc
    refine hlast c hmem ?_
    rcases hs.handlers c hmem with hp | ⟨ok,hp⟩
    · exact hp.reading
    · simp [connected, hp] at hconn
  · rcases hs.handlers c hc with hp | ⟨ok,hp⟩
    · simp [hp.reading, Idle]
    · simp [hp, Idle]

/-- From every state a run reaches, however its tasks are scheduled. The server
makes only so many moves of its own, it can always come to rest, and it is at
rest as soon as no such move is left. Then nothing is pending in the throttle,
the board is the tally of the last votes of those who are connected, every
chat that was parsed has been broadcast, in order and under the name it was
said under, and who has not lagged has been written the whole log. -/
theorem server_settles (cap : ℕ) (as : List Hub.Action) (s : Hub.State)
    (h : run (step cap) as init = some s) :
    (∀ bs t, (∀ a ∈ bs, own a = true) → run (step cap) bs s = some t →
      bs.length+potential t ≤ potential s) ∧
    (∃ bs t, (∀ a ∈ bs, own a = true) ∧ run (step cap) bs s = some t ∧ Settled t) ∧
    ∀ bs t, (∀ a ∈ bs, own a = true) → run (step cap) bs s = some t →
      (∀ a, own a = true → step cap t a = none) →
      Settled t ∧ t.shared.throttle.shared.pendingVoteBroadcast = none ∧
        t.shared.throttle.shared.voteFlushScheduled = false ∧
        (∀ i, t.shared.counts i =
          VoteIntegrity.tallyVotes ((t.tasks.filter connected).map fun c => lastVote c.parsed) i) ∧
        ∀ (k : ℕ) c, s.tasks[k]? = some c → ∃ d, t.tasks[k]? = some d ∧ d.parsed = c.parsed ∧
          chats d.id t.shared.tx = said none c.parsed ∧
          ∀ r, d.rx = some r → r.skipped = 0 → Waiting t.shared d → events d = t.shared.tx.drop r.start := by
  have hd := own_descends cap
  have hreach : Reachable cap s := ⟨as,h⟩
  have hwhole : ∀ bs t, run (step cap) bs s = some t → run (step cap) (as++bs) init = some t :=
    fun bs t ht => (run_append_some as bs init t).mpr ⟨s,h,ht⟩
  refine ⟨fun bs t hown ht => ?_,?_,fun bs t hown ht hstuck => ?_⟩
  · exact descends_length _ _ _ hd bs s t hreach ((guarded_forall _ bs s t ht).mpr hown) ht
  · obtain ⟨bs,t,hg,ht,hstuck⟩ := descends_stuck _ _ _ hd s hreach
    exact ⟨bs,t,(guarded_forall _ bs s t ht).mp hg,ht,stuck_settled cap (as++bs) t (hwhole bs t ht) hstuck⟩
  · have hrun := hwhole bs t ht
    have hset := stuck_settled cap (as++bs) t hrun hstuck
    have hinv := SnapshotOrder.run_throttle cap (as++bs) t hrun
    refine ⟨hset,ThrottleInvariant.quiescent_slot _ hinv hset.throttle,
      ThrottleInvariant.quiescent_flag _ hinv hset.throttle,settled_counts cap (as++bs) t hrun hset,
      fun k c hc => ?_⟩
    obtain ⟨d,hdk,hparsed⟩ := own_parsed cap bs s t hown ht k c hc
    refine ⟨d,hdk,hparsed,?_,fun r hr h0 hwait => ?_⟩
    · rw [← hparsed]
      exact settled_chats t.shared d (run_trace cap (as++bs) t hrun k d hdk)
        (hset.handlers d (List.mem_of_getElem? hdk))
    · obtain ⟨r',hr',hend⟩ := hwait.drained
      obtain rfl : r = r' := Option.some.inj (hr.symm.trans hr')
      rw [(events_whole cap t.shared d r (run_fed cap (as++bs) t hrun k d hdk) hr h0).2 hwait.waiting,
        hend, List.take_length]

/-- One vote is on the board, a second one half done. -/
theorem two_votes_settle :
    ∃ bs t, bs.length ≤ 446 ∧ run (step 16) bs twoVotesEnd = some t ∧ Settled t := by
  have hrun : run (step 16) twoVotes init = some twoVotesEnd := (Option.some_get _).symm
  have hpot : potential twoVotesEnd = 446 := by decide +kernel
  obtain ⟨hle,⟨bs,t,hown,ht,hset⟩,_⟩ := server_settles 16 twoVotes twoVotesEnd hrun
  have hlen := hle bs t hown ht
  exact ⟨bs,t,by omega,ht,hset⟩

end RustChat.Settling
