import RustChat.ChatRoom
import RustChat.Delivery
import RustChat.VoteConservation

/-!
# The server is a chat room

Every run of the handlers is a run of the abstract room, in which a vote, a
change of name or a leave is one step. A vote takes effect at its increment
and is given up when it is taken out of the record; what the board shows
beyond the ballots are the votes still to be taken back.
-/

set_option autoImplicit false

namespace RustChat.RoomRefinement
open Runs TaskPool Protocol Handler HandlerSteps Hub Footprint VoteConservation VoteIntegrity
open ChatRoom (Stage Member Note)

/-- A text with the time stamps of the server and of the client. -/
abbrev Text := String × ℕ × ℕ

abbrev Room := ChatRoom.State ℕ String Text ℕ

abbrev RoomAction := ChatRoom.Action ℕ String Text ℕ

/-! ## What of a handler the room knows -/

/-- After a failed Welcome the handler is gone and its member is not. -/
def stage : Phase → Stage
  | .spawned | .subscribed => .outside
  | .joined _ => .entered
  | .left => .left
  | .returned true => .gone
  | _ => .present

def ballot (c : Conn) : Option ℕ :=
  match c.phase with
  | .voting option | .voted option => some option
  | _ => c.currentVote

/-- The vote on the board that is no ballot any more. -/
def takenBack (c : Conn) : Option ℕ :=
  match c.phase with
  | .voting _ => c.currentVote
  | .unvoting prev _ => some prev
  | _ => none

def member (c : Conn) : Member String ℕ := ⟨stage c.phase,c.nick,ballot c⟩

def noteOf : BroadcastEvent → Option (Note ℕ String Text)
  | .server (.presence id true) => some (.joined id)
  | .server (.presence id false) => some (.departed id)
  | .server (.chat sender nick text timestamp clientTs) =>
    some (.said sender nick (text,timestamp,clientTs))
  | _ => none

def minutes (log : List BroadcastEvent) : List (Note ℕ String Text) := log.filterMap noteOf

/-- The handlers are numbered from one. -/
def members (tasks : List Conn) : ℕ → Member String ℕ
  | 0 => ChatRoom.newcomer
  | k+1 => (tasks[k]?).elim ChatRoom.newcomer member

def room (s : Hub.State) : Room := ⟨members s.tasks,minutes s.shared.tx⟩

/-! ## One step -/

/-- The step of the room in a step of a handler. -/
def roomAction (c : Conn) : Input → Option RoomAction
  | .go _ =>
    match c.phase with
    | .subscribed => some (.enter c.id)
    | .joined _ => some (.announce c.id)
    | .handling (.setNick name) => some (.rename c.id name)
    | .chatting text clientTs sentAt => some (.say c.id (text,sentAt,clientTs))
    | .handling (.vote option) => some (.cast c.id option)
    | .handling .unvote => if c.currentVote.isSome then some (.retract c.id) else none
    | .exiting => if c.currentVote.isSome then some (.retract c.id) else none
    | .leaving => some (.leave c.id)
    | .left => some (.bow c.id)
    | _ => none
  | _ => none

theorem minutes_append (log more : List BroadcastEvent) :
    minutes (log++more) = minutes log++minutes more := List.filterMap_append

/-- What a handler does is what its member does, or nothing. -/
theorem handler_member (sh : Shared) (c : Conn) (i : Input) (e : Effect) (c' : Conn)
    (h : HandlerStep sh c i e c') (hr : Recorded c) :
    match roomAction c i with
    | some a => a.who = c.id ∧ ChatRoom.act (member c) a = some (member c',minutes (emitted e))
    | none => member c' = member c ∧ minutes (emitted e) = [] := by
  unfold Recorded at hr
  cases h with
  | resume clock call after h hr' =>
    cases after <;> simp [roomAction, h, member, After.phase, stage, ballot, emitted, minutes]
  | replace clock option h =>
    cases c.currentVote <;> simp [roomAction, h, member, stage, ballot, subtract, emitted, minutes]
  | skip h => simp [roomAction, emitted, minutes]
  | stop i hi h =>
    rcases hi with rfl | rfl | ⟨rfl,_⟩ <;> simp [roomAction, h, member, stage, ballot, emitted, minutes]
  | leave clock h =>
    simp only [h] at hr
    simp [roomAction, h, member, stage, ballot, hr, emitted, minutes, ChatRoom.act, ChatRoom.Action.who]
  | announce clock n h | chat clock text clientTs sentAt h | farewell clock h =>
    simp [roomAction, h, member, stage, ballot, emitted, minutes, noteOf, ChatRoom.act, ChatRoom.Action.who]
  | _ =>
    simp [roomAction, member, stage, ballot, emitted, minutes, ChatRoom.act, ChatRoom.Action.who, *]

theorem members_set (tasks : List Conn) (k : ℕ) (c c' : Conn) (hc : tasks[k]? = some c) :
    members (tasks.set k c') = Function.update (members tasks) (k+1) (member c') := by
  funext id
  rcases id with _ | j
  · simp [members]
  · by_cases hj : k = j
    · subst hj
      simp [members, getElem?_set_same tasks k c c' hc]
    · have hne : j+1 ≠ k+1 := by omega
      simp [members, List.getElem?_set_ne hj, Function.update_of_ne hne]

theorem members_spawn (tasks : List Conn) (id : ℕ) :
    members (tasks++[Handler.spawn id]) = members tasks := by
  funext i
  rcases i with _ | j
  · rfl
  · rcases Nat.lt_trichotomy j tasks.length with hj | rfl | hj
    · simp [members, List.getElem?_append_left hj]
    · simp [members, member, Handler.spawn, stage, ballot, ChatRoom.newcomer]
    · simp [members, List.getElem?_eq_none (Nat.le_of_lt hj), List.getElem?_append_right (Nat.le_of_lt hj),
        show j-tasks.length ≠ 0 by omega]

theorem members_at (tasks : List Conn) (k : ℕ) (c : Conn) (hc : tasks[k]? = some c) :
    members tasks (k+1) = member c := by simp [members, hc]

theorem snapshots_minutes (t t' : Throttle.State Snapshot) : minutes (sentSnapshots t t') = [] := by
  refine List.filterMap_eq_nil_iff.mpr fun e he => ?_
  obtain ⟨x,_,rfl⟩ := List.mem_map.mp he
  rfl

/-- A step of the server is at most one step of the room. -/
theorem step_room (cap : ℕ) (s : Hub.State) (a : Hub.Action) (t : Hub.State) (hn : Numbered s)
    (hr : ∀ (k : ℕ) c, s.tasks[k]? = some c → Recorded c) (h : step cap s a = some t) :
    ∃ bs, run ChatRoom.step bs (room s) = some (room t) := by
  cases step_hub cap s a t h with
  | spawn => exact ⟨[],by simp [room, members_spawn]⟩
  | shutdown => exact ⟨[],by simp [room, minutes, noteOf]⟩
  | throttle k clock u hu => exact ⟨[],by simp [room, minutes_append, snapshots_minutes]⟩
  | writer k i c c' hc hw =>
    obtain ⟨_,hp,hv,hnick,_⟩ := writer_frame cap s.shared c i c' hw
    have hsame : member c' = member c := by simp [member, ballot, hp, hv, hnick]
    refine ⟨[],?_⟩
    simp only [run_nil, room, members_set s.tasks k c c' hc, hsame, ← members_at s.tasks k c hc,
      Function.update_eq_self]
  | handler k i c c' e hc hs =>
    have hm := handler_member s.shared c i e c' hs (hr k c hc)
    have hid : c.id = k+1 := hn k c hc
    cases hact : roomAction c i with
    | none =>
      simp only [hact] at hm
      refine ⟨[],?_⟩
      simp only [run_nil, room, members_set s.tasks k c c' hc, hm.1, ← members_at s.tasks k c hc,
        Function.update_eq_self, apply_tx, minutes_append, hm.2, List.append_nil]
    | some b =>
      simp only [hact] at hm
      obtain ⟨hwho,hstep⟩ := hm
      refine ⟨[b],(run_cons b [] _ _).mpr ⟨_,?_,rfl⟩⟩
      simp only [ChatRoom.step, room, hwho, hid, members_at s.tasks k c hc, hstep, Option.map_some,
        ChatRoom.set, members_set s.tasks k c c' hc, apply_tx, minutes_append]

theorem run_room (cap : ℕ) (as : List Hub.Action) (s : Hub.State) (h : run (step cap) as init = some s) :
    ∃ bs, run ChatRoom.step bs ChatRoom.init = some (room s) := by
  have hinit : room init = ChatRoom.init := by
    refine congrArg₂ ChatRoom.State.mk (funext fun id => ?_) rfl
    cases id <;> rfl
  rw [← hinit]
  refine run_history (fun _ m => ∃ bs, run ChatRoom.step bs (room init) = some (room m)) init ⟨[],rfl⟩ ?_ as s h
  rintro bs m a t hm ⟨cs,hcs⟩ ht
  obtain ⟨ds,hds⟩ := step_room cap m a t (run_numbered cap bs m hm) (run_recorded cap bs m hm) ht
  exact ⟨cs++ds,(run_append_some cs ds _ _).mpr ⟨_,hcs,hds⟩⟩

/-! ## The board -/

theorem account_split (c : Conn) (i : Fin nOptions) :
    account c i = votes (ballot c) i+votes (takenBack c) i := by
  unfold account inProgress ballot takenBack
  cases c.phase <;> simp [votes]
  omega

theorem sum_votes_of (f : Conn → Option ℕ) (tasks : List Conn) (i : Fin nOptions) :
    (tasks.map fun c => votes (f c) i).sum = tasks.countP fun c => decide (f c = some i.val) := by
  induction tasks with
  | nil => rfl
  | cons c tasks ih =>
    rw [List.map_cons, List.sum_cons, ih, List.countP_cons, votes]
    by_cases h : f c = some i.val
    · simp [h]
      omega
    · simp [h]

theorem board_split (s : Hub.State) (hs : Conserved s) (i : Fin nOptions) :
    s.shared.counts i = (s.tasks.countP fun c => decide (ballot c = some i.val))+
      (s.tasks.countP fun c => decide (takenBack c = some i.val)) := by
  rw [hs, account_sum_apply, ← sum_votes_of ballot, ← sum_votes_of takenBack, ← List.sum_map_add]
  simp only [account_split]

/-- Every run of the server is a run of the room, and the board shows the
ballots of the room's members and besides them only votes that are being taken
back: it is never below the tally, and it is the tally when no handler is
between the two halves of a change of vote. -/
theorem server_is_room (cap : ℕ) (as : List Hub.Action) (s : Hub.State)
    (h : run (step cap) as init = some s) :
    (∃ bs, run ChatRoom.step bs ChatRoom.init = some (room s)) ∧
    ∀ i : Fin nOptions,
      s.shared.counts i = (s.tasks.countP fun c => decide (((room s).members c.id).ballot = some i.val))+
        (s.tasks.countP fun c => decide (takenBack c = some i.val)) := by
  refine ⟨run_room cap as s h,fun i => ?_⟩
  rw [board_split s (run_conserved cap as s h) i]
  congr 2
  refine List.countP_congr fun c hc => ?_
  obtain ⟨k,hk⟩ := List.mem_iff_getElem?.mp hc
  rw [run_numbered cap as s h k c hk]
  simp [room, members_at s.tasks k c hk, member]

/-- One handler is between the increment and the decrement of a change of vote
from option 1 to option 2. -/
def changing : List Hub.Action :=
  [.spawn,.conn 0 (.go 0),.conn 0 (.go 0),.conn 0 (.go 0),.conn 0 (.go 0),
   .conn 0 (.line (some (.vote 1))),.conn 0 (.go 0),.conn 0 (.go 0),.conn 0 (.go 0),
   .conn 0 (.go 0),.conn 0 (.go 0),.conn 0 (.go 0),.conn 0 (.go 0),.conn 0 (.go 0),
   .throttle 0 1000,.throttle 0 1000,.throttle 0 1000,.throttle 0 1000,.conn 0 (.go 0),
   .conn 0 (.line (some (.vote 2))),.conn 0 (.go 0)]

def changingEnd : Hub.State := (run (step 16) changing init).get (by decide +kernel)

theorem changing_is_room :
    (∃ bs, run ChatRoom.step bs ChatRoom.init = some (room changingEnd)) ∧
      changingEnd.shared.counts 1 = 1 ∧
      (changingEnd.tasks.countP fun c => decide (((room changingEnd).members c.id).ballot = some 1)) = 0 := by
  have hrun : run (step 16) changing init = some changingEnd := (Option.some_get _).symm
  exact ⟨(server_is_room 16 changing changingEnd hrun).1,by decide +kernel,by decide +kernel⟩

/-! ## What is heard of one client -/

theorem noteOf_owner (e : BroadcastEvent) : (noteOf e).map Note.author = owner e := by
  cases e with
  | shutdown => rfl
  | server msg =>
    cases msg with
    | presence id joined => cases joined <;> rfl
    | _ => rfl

theorem minutesOf_log (id : ℕ) (log : List BroadcastEvent) :
    ChatRoom.minutesOf id (minutes log) = minutes (log.filter fun e => owner e = some id) := by
  induction log with
  | nil => rfl
  | cons e log ih =>
    unfold ChatRoom.minutesOf minutes at ih ⊢
    have ho := noteOf_owner e
    cases hn : noteOf e with
    | none =>
      rw [hn, Option.map_none] at ho
      simpa [List.filterMap_cons, hn, List.filter_cons, ← ho] using ih
    | some n =>
      rw [hn, Option.map_some] at ho
      by_cases hid : n.author = id
      · simpa [List.filterMap_cons, hn, List.filter_cons, ← ho, hid] using ih
      · simpa [List.filterMap_cons, hn, List.filter_cons, ← ho, hid] using ih

theorem owned_order (s : Room) (hs : ChatRoom.Sound s) (id : ℕ) (log : List BroadcastEvent)
    (hlog : s.minutes = minutes log) :
    (log.filter fun e => owner e = some id).Pairwise fun a b =>
      a ≠ .server (.presence id false) ∧ b ≠ .server (.presence id true) := by
  have hord := ChatRoom.sound_order s hs id
  rw [hlog, minutesOf_log, minutes, List.pairwise_filterMap] at hord
  have hnote : ∀ e ∈ log.filter fun e => owner e = some id, ∃ n, noteOf e = some n := by
    intro e he
    have ho := noteOf_owner e
    rw [of_decide_eq_true (List.mem_filter.mp he).2] at ho
    obtain ⟨n,hn,_⟩ := Option.map_eq_some_iff.mp ho
    exact ⟨n,hn⟩
  refine hord.imp_of_mem fun {a b} ha hb hab => ⟨?_,?_⟩
  · rintro rfl
    obtain ⟨n,hn⟩ := hnote b hb
    exact (hab _ rfl n hn).1 rfl
  · rintro rfl
    obtain ⟨n,hn⟩ := hnote a ha
    exact (hab n hn _ rfl).2 rfl

/-- On the channel and in the lines of every client, whether it has lagged or
not: nothing is heard of a client before it has joined, and nothing after it
has left. -/
theorem heard_while_present (cap : ℕ) (as : List Hub.Action) (s : Hub.State)
    (h : run (step cap) as init = some s) (id : ℕ) (heard : List BroadcastEvent)
    (hh : heard = s.shared.tx ∨ ∃ c ∈ s.tasks, heard = Delivery.events c) :
    (heard.filter fun e => owner e = some id).Pairwise fun a b =>
      a ≠ .server (.presence id false) ∧ b ≠ .server (.presence id true) := by
  obtain ⟨bs,hbs⟩ := run_room cap as s h
  have hord := owned_order (room s) (ChatRoom.run_sound bs _ hbs) id s.shared.tx rfl
  rcases hh with rfl | ⟨c,hc,rfl⟩
  · exact hord
  · obtain ⟨k,hk⟩ := List.mem_iff_getElem?.mp hc
    have hfed := Delivery.run_fed cap as s h k c hk
    refine hord.sublist (List.Sublist.filter _ ?_)
    cases hr : c.rx with
    | none =>
      have hp := hfed.unsubscribed.mpr hr
      have hnil := hfed.unstarted (hfed.before (by simp [hp, Delivery.NotWelcomed]))
      simp [Delivery.events, hnil]
    | some r => exact (Delivery.events_sublist cap s.shared c r hfed hr).trans (List.drop_sublist _ _)

theorem one_chat_heard :
    (Delivery.oneChatEnd.shared.tx.filter fun e => owner e = some 1).length = 2 ∧
      (Delivery.oneChatEnd.shared.tx.filter fun e => owner e = some 1).Pairwise fun a b =>
        a ≠ .server (.presence 1 false) ∧ b ≠ .server (.presence 1 true) := by
  have hrun : run (step 3) Delivery.oneChat init = some Delivery.oneChatEnd := (Option.some_get _).symm
  exact ⟨by decide +kernel,heard_while_present 3 _ _ hrun 1 _ (Or.inl rfl)⟩

end RustChat.RoomRefinement
