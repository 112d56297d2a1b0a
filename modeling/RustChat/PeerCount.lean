import RustChat.Footprint
import RustChat.Delivery
import RustChat.Tui

/-!
# The participant count

A client takes the room size from its Welcome and then counts Presence lines.
The subscription is older than the size: what other handlers do in between is
counted twice or cancelled. How much that amounts to is known when the client
is inserted, and it stays in its title for good.
-/

set_option autoImplicit false

namespace RustChat.PeerCount
open Runs TaskPool Protocol Broadcast Room Handler HandlerSteps Hub Footprint Delivery Tui

/-! ## Joins and leaves of a log -/

def flag : ServerMsg → Option Bool
  | .presence _ joined => some joined
  | _ => none

def eventFlag : BroadcastEvent → Option Bool
  | .server msg => flag msg
  | .shutdown => none

/-- The `joined` flags of all Presence events. -/
def flags (log : List BroadcastEvent) : List Bool := log.filterMap eventFlag

def net (bs : List Bool) : ℤ := bs.count true-bs.count false

theorem net_append (bs cs : List Bool) : net (bs++cs) = net bs+net cs := by
  simp only [net, List.count_append]
  omega

theorem flags_append (log more : List BroadcastEvent) : flags (log++more) = flags log++flags more :=
  List.filterMap_append

theorem flags_server (msgs : List ServerMsg) :
    flags (msgs.map BroadcastEvent.server) = msgs.filterMap flag := by
  rw [flags, List.filterMap_map]
  rfl

/-! ## The count of a client -/

def countFlag (n : ℕ) (joined : Bool) : ℕ := if joined then n+1 else n-1

/-- After the Welcome only Presence lines count. -/
theorem foldl_flags (msgs : List ServerMsg) (hb : ∀ msg ∈ msgs, broadcasts msg = true) (n : ℕ) :
    msgs.foldl countStep n = (msgs.filterMap flag).foldl countFlag n := by
  induction msgs generalizing n with
  | nil => rfl
  | cons msg msgs ih =>
    have hm := hb msg List.mem_cons_self
    have ih' := ih fun x hx => hb x (List.mem_cons_of_mem _ hx)
    cases msg with
    | welcome peerCount => simp [broadcasts] at hm
    | presence id joined => cases joined <;> simp [flag, countStep, countFlag, ih']
    | _ => simp [List.filterMap_cons, flag, countStep, ih']

theorem countFlag_exact (n : ℕ) (b : Bool) (h : ¬ (b = false ∧ n = 0)) :
    ((countFlag n b : ℕ) : ℤ) = n+net [b] := by
  cases b with
  | true => simp [countFlag, net]
  | false =>
    have hn : n ≠ 0 := fun hn => h ⟨rfl,hn⟩
    simp only [countFlag, Bool.false_eq_true, if_false, net]
    simp
    omega

/-- `saturating_sub` can only raise the count, and what it raises it to comes
from the events after it. -/
theorem foldl_countFlag (bs : List Bool) (n : ℕ) :
    ((bs.foldl countFlag n : ℕ) : ℤ) = n+net bs ∨
      (n : ℤ)+net bs ≤ (bs.foldl countFlag n : ℕ) ∧
        ∃ cs, cs <:+ bs ∧ ((bs.foldl countFlag n : ℕ) : ℤ) = net cs := by
  induction bs generalizing n with
  | nil => exact Or.inl (by simp [net])
  | cons b bs ih =>
    have hnet : net (b::bs) = net [b]+net bs := net_append [b] bs
    rw [List.foldl_cons, hnet]
    by_cases h0 : b = false ∧ n = 0
    · obtain ⟨rfl,rfl⟩ := h0
      have hstep : countFlag 0 false = 0 := rfl
      have hone : net [false] = -1 := rfl
      rw [hstep, hone]
      refine Or.inr ?_
      rcases ih 0 with heq | ⟨hle,cs,hcs,heq⟩
      · exact ⟨by omega,bs,List.suffix_cons _ _,by omega⟩
      · exact ⟨by omega,cs,hcs.trans (List.suffix_cons _ _),heq⟩
    · have hstep := countFlag_exact n b h0
      rcases ih (countFlag n b) with heq | ⟨hle,cs,hcs,heq⟩
      · exact Or.inl (by omega)
      · exact Or.inr ⟨by omega,cs,hcs.trans (List.suffix_cons _ _),heq⟩

/-- Where no end of the events comes to more than `b`, a count of `b+1` is the
exact one. -/
theorem foldl_exact (bs : List Bool) (n b : ℕ) (h : ∀ cs, cs <:+ bs → net cs ≤ b) :
    bs.foldl countFlag n = b+1 ↔ (n : ℤ)+net bs = b+1 := by
  rcases foldl_countFlag bs n with heq | ⟨hge,cs,hcs,heq⟩
  · omega
  · have hle := h cs hcs
    omega

/-! ## The room and the log -/

/-- A handler between its change of the room and its Presence event. -/
def half (c : Conn) : ℤ :=
  match c.phase with
  | .joined _ => 1
  | .left => -1
  | _ => 0

def isJoining (c : Conn) : Bool :=
  match c.phase with
  | .joined _ => true
  | _ => false

def isLeaving (c : Conn) : Bool :=
  match c.phase with
  | .left => true
  | _ => false

theorem half_sum (cs : List Conn) :
    (cs.map half).sum = cs.countP isJoining-cs.countP isLeaving := by
  induction cs with
  | nil => rfl
  | cons c cs ih =>
    rw [List.map_cons, List.sum_cons, ih, List.countP_cons, List.countP_cons]
    cases hp : c.phase <;> simp [half, isJoining, isLeaving, hp] <;> omega

/-- The keys are the joins minus the leaves, up to the handlers in between. -/
def Tallied (s : State) : Prop :=
  (clientCount s.shared.clients : ℤ) = net (flags s.shared.tx)+(s.tasks.map half).sum

theorem clientCount_setNick (clients : Clients) (id : ℕ) (name : String) :
    clientCount (setNick clients id name) = clientCount clients := by
  rw [clientCount, keys_setNick, clientCount]

theorem handler_tallied (sh : Shared) (c : Conn) (i : Input) (e : Effect) (c' : Conn)
    (h : HandlerStep sh c i e c') (hc : Trace sh c) :
    (clientCount (apply sh e).clients : ℤ)+half c =
      clientCount sh.clients+net (flags (emitted e))+half c' := by
  have hkey := hc.key
  cases h with
  | join clock h =>
    have hcount := clientCount_insertClient sh.clients c.id (by simp [hkey, h, present])
    simp only [apply, hcount, half, h]
    simp [emitted, flags, net]
  | leave clock h =>
    have hcount := clientCount_removeClient sh.clients c.id (by simp [hkey, h, present])
    simp only [apply, half, h, emitted, flags, net, List.filterMap_nil, List.count_nil]
    omega
  | rename clock name h =>
    simp [apply, clientCount_setNick, half, h, emitted, flags, net]
  | replace clock option h =>
    cases c.currentVote <;> simp [h, subtract, apply, half, emitted, flags, net]
  | resume clock call after h hr =>
    cases after <;> simp [h, After.phase, apply, half, emitted, flags, net]
  | skip h => simp [apply, emitted, flags, net]
  | _ => simp [apply, half, emitted, flags, eventFlag, flag, List.filterMap_cons, net, *]

theorem flags_sentSnapshots (t t' : Throttle.State Snapshot) : flags (sentSnapshots t t') = [] := by
  refine List.filterMap_eq_nil_iff.mpr fun e he => ?_
  obtain ⟨x,_,rfl⟩ := List.mem_map.mp he
  rfl

theorem half_writer (cap : ℕ) (sh : Shared) (c : Conn) (i : Input) (c' : Conn)
    (h : WriterStep cap sh c i c') : half c' = half c := by
  unfold half
  rw [(writer_frame cap sh c i c' h).2.1]

theorem run_tallied (cap : ℕ) (as : List Action) (s : State) (h : run (step cap) as init = some s) :
    Tallied s := by
  refine run_history (fun _ => Tallied) init rfl ?_ as s h
  intro as m a t hm hk ht
  unfold Tallied at hk ⊢
  cases step_hub cap m a t ht with
  | spawn => simpa [half, Handler.spawn] using hk
  | handler k i c c' e hc hs =>
    have hsum := sum_map_set half m.tasks k c c' hc
    have hloc := handler_tallied m.shared c i e c' hs (run_trace cap as m hm k c hc)
    dsimp only
    rw [apply_tx, flags_append, net_append]
    omega
  | writer k i c c' hc hw =>
    have hsum := sum_map_set half m.tasks k c c' hc
    rw [half_writer cap m.shared c i c' hw] at hsum
    dsimp only
    omega
  | throttle k clock u hu =>
    simp only [flags_append, flags_sentSnapshots, List.append_nil]
    exact hk
  | shutdown =>
    simp only [flags_append, show flags [.shutdown] = [] from rfl, List.append_nil]
    exact hk

/-- Handlers that have yet to announce their join have their keys in the room. -/
theorem joining_le (cap : ℕ) (as : List Action) (s : State) (h : run (step cap) as init = some s) :
    s.tasks.countP isJoining ≤ clientCount s.shared.clients := by
  have hnodup : ((s.tasks.filter isJoining).map Conn.id).Nodup := by
    refine (List.filter_sublist.map Conn.id).nodup ?_
    rw [numbered_ids s (run_numbered cap as s h)]
    exact List.nodup_range'
  have hsub : (s.tasks.filter isJoining).map Conn.id ⊆ s.shared.clients.keys := by
    intro key hkey
    obtain ⟨c,hc,rfl⟩ := List.mem_map.mp hkey
    obtain ⟨hc,hj⟩ := List.mem_filter.mp hc
    obtain ⟨k,hk⟩ := List.mem_iff_getElem?.mp hc
    refine AList.mem_keys.mp ((run_trace cap as s h k c hk).key.mpr ?_)
    cases hp : c.phase <;> simp_all [isJoining, present]
  have hle := (List.subperm_of_subset hnodup hsub).length_le
  rwa [List.length_map, ← List.countP_eq_length_filter] at hle

/-- In no prefix of the log do leaves outnumber joins. -/
theorem run_net_nonneg (cap : ℕ) (as : List Action) (s : State)
    (h : run (step cap) as init = some s) (q : List Bool) (hq : q <+: flags s.shared.tx) : 0 ≤ net q := by
  refine run_history (fun _ s => ∀ q, q <+: flags s.shared.tx → 0 ≤ net q) init (fun q hq => ?_) ?_
    as s h q hq
  · obtain rfl := List.prefix_nil.mp hq
    exact Int.le_refl _
  · intro as m a t hm ih ht q hq
    have hrun := (run_snoc as a init t).mpr ⟨m,hm,ht⟩
    have hnow : 0 ≤ net (flags t.shared.tx) := by
      have htal := run_tallied cap _ t hrun
      have hle := joining_le cap _ t hrun
      unfold Tallied at htal
      rw [half_sum] at htal
      omega
    rcases step_tx cap m t a ht with htx | ⟨_,e,htx,_⟩
    · exact ih q (by rwa [htx] at hq)
    · rw [htx, flags_append] at hq hnow
      cases he : eventFlag e with
      | none =>
        rw [show flags [e] = [] by simp [flags, he], List.append_nil] at hq
        exact ih q hq
      | some b =>
        rw [show flags [e] = [b] by simp [flags, he]] at hq hnow
        rcases List.prefix_concat_iff.mp hq with rfl | hq
        · exact hnow
        · exact ih q hq

theorem run_broadcasts (cap : ℕ) (as : List Action) (s : State)
    (h : run (step cap) as init = some s) (msg : ServerMsg) (hm : .server msg ∈ s.shared.tx) :
    broadcasts msg = true := by
  refine run_history (fun _ s => ∀ msg, .server msg ∈ s.shared.tx → broadcasts msg = true) init
    (by simp [init]) ?_ as s h msg hm
  intro _ m a t _ ih ht msg hmsg
  rcases step_tx cap m t a ht with htx | ⟨_,e,htx,_,he⟩
  · exact ih msg (htx ▸ hmsg)
  · rw [htx] at hmsg
    rcases List.mem_append.mp hmsg with hmsg | hmsg
    · exact ih msg hmsg
    · exact he msg (List.mem_singleton.mp hmsg).symm

/-! ## The size in the Welcome -/

/-- The handler has joined, and `n` is the size it was told. -/
structure Told (n : ℕ) (c : Conn) : Prop where
  inserted : c.phase ≠ .spawned ∧ c.phase ≠ .subscribed
  counted : ∀ m, c.phase = .joined m ∨ c.phase = .welcoming m ∨ c.welcome = some m → m = n

theorem handler_told (sh : Shared) (c : Conn) (i : Input) (e : Effect) (c' : Conn)
    (h : HandlerStep sh c i e c') (n : ℕ) (hc : Told n c) : Told n c' := by
  obtain ⟨⟨h0,h1⟩,hn⟩ := hc
  cases h with
  | subscribe clock h => exact absurd h h0
  | join clock h => exact absurd h h1
  | announce clock k h => exact ⟨by simp,fun m hm => hn m (by simpa [h] using hm)⟩
  | welcome clock k h => exact ⟨by simp,fun m hm => hn m (Or.inr (Or.inl (by simpa [h] using hm)))⟩
  | resume clock call after h hr =>
    cases after <;> exact ⟨by simp [After.phase],fun m hm => hn m (by simpa [After.phase, h] using hm)⟩
  | skip h => exact ⟨⟨h0,h1⟩,hn⟩
  | _ => exact ⟨by simp,fun m hm => hn m (Or.inr (Or.inr (by simpa using hm)))⟩

theorem unwelcomed (cap : ℕ) (as : List Action) (s : State) (h : run (step cap) as init = some s)
    (k : ℕ) (c : Conn) (hc : s.tasks[k]? = some c) (hp : NotWelcomed c.phase) : c.welcome = none := by
  refine run_own cap (fun _ c => NotWelcomed c.phase → c.welcome = none) (fun _ _ => rfl) ?_ ?_
    as s h k c hc hp
  · intro sh k c i e c' hs ih
    cases hs with
    | resume clock call after h hr => cases after <;> simp [After.phase, NotWelcomed]
    | _ => simp_all [NotWelcomed]
  · intro sh k c i c' hw ih
    obtain ⟨_,hp,_,_,_,hwel,_⟩ := writer_frame cap sh c i c' hw
    rw [hp, hwel]
    exact ih

theorem step_told (cap k n : ℕ) (s : State) (a : Action) (t : State)
    (hs : ∃ c, s.tasks[k]? = some c ∧ Told n c) (h : step cap s a = some t) :
    ∃ c, t.tasks[k]? = some c ∧ Told n c := by
  obtain ⟨c,hc,hn⟩ := hs
  obtain ⟨c',hc',⟨rfl,_⟩ | ⟨i,_,⟨e,hstep⟩ | hw⟩⟩ := conn_forward cap s t a h k c hc
  · exact ⟨c',hc',hn⟩
  · exact ⟨c',hc',handler_told s.shared c i e c' hstep n hn⟩
  · obtain ⟨_,hp,_,_,_,hwel,_⟩ := writer_frame cap s.shared c i c' hw
    exact ⟨c',hc',⟨by rw [hp]; exact hn.inserted,by rw [hp, hwel]; exact hn.counted⟩⟩

/-- The insertion of handler `k`: the step by which it enters the room. -/
theorem insert_told (cap : ℕ) (bs : List Action) (m t : State) (k clock : ℕ) (c : Conn)
    (hm : run (step cap) bs init = some m) (hc : m.tasks[k]? = some c) (hp : c.phase = .subscribed)
    (h : step cap m (.conn k (.go clock)) = some t) :
    ∃ c', t.tasks[k]? = some c' ∧ Told (clientCount m.shared.clients+1) c' := by
  obtain ⟨d,sh,c',fs,hd,hn,rfl⟩ := move_cases (next cap) m t k (.go clock) h
  obtain rfl : c = d := Option.some.inj (hc.symm.trans hd)
  simp only [next, act, advance, hp, Option.map_some, Option.some.injEq, Prod.mk.injEq] at hn
  obtain ⟨rfl,rfl,rfl⟩ := hn
  rw [List.append_nil]
  have hnew : c.id ∉ m.shared.clients := by
    rw [(run_trace cap bs m hm k c hc).key, hp]
    simp [present]
  have hwel := unwelcomed cap bs m hm k c hc (by simp [hp, NotWelcomed])
  refine ⟨_,getElem?_set_same m.tasks k c _ hc,by simp,fun n hn => ?_⟩
  rw [← clientCount_insertClient _ _ hnew]
  simpa [hwel, eq_comm] using hn

theorem handler_inserts (sh : Shared) (c : Conn) (i : Input) (e : Effect) (c' : Conn)
    (h : HandlerStep sh c i e c') :
    (c.phase = .spawned → c'.phase = .subscribed) ∧ (c.phase = .subscribed → ∃ clock, i = .go clock) := by
  cases h with
  | subscribe clock h => exact ⟨fun _ => rfl,fun _ => ⟨clock,rfl⟩⟩
  | join clock h => exact ⟨by simp [h],fun _ => ⟨clock,rfl⟩⟩
  | _ => simp [*]

theorem inserted_before (cap : ℕ) (as : List Action) (s : State) (h : run (step cap) as init = some s)
    (k : ℕ) (d : Conn) (hd : s.tasks[k]? = some d)
    (hp : d.phase ≠ .spawned ∧ d.phase ≠ .subscribed) :
    ∃ bs cs clock m c, as = bs++.conn k (.go clock)::cs ∧ run (step cap) bs init = some m ∧
      m.tasks[k]? = some c ∧ c.phase = .subscribed := by
  refine run_history (fun as s => ∀ (k : ℕ) d, s.tasks[k]? = some d →
    d.phase ≠ .spawned ∧ d.phase ≠ .subscribed →
    ∃ bs cs clock m c, as = bs++.conn k (.go clock)::cs ∧ run (step cap) bs init = some m ∧
      m.tasks[k]? = some c ∧ c.phase = .subscribed) init (by simp [init]) ?_ as s h k d hd hp
  intro as m a t hm ih ht k d hd hp
  have hlater : ∀ c, m.tasks[k]? = some c → c.phase ≠ .spawned ∧ c.phase ≠ .subscribed →
      ∃ bs cs clock m c, as++[a] = bs++.conn k (.go clock)::cs ∧ run (step cap) bs init = some m ∧
        m.tasks[k]? = some c ∧ c.phase = .subscribed := fun c hc hp => by
    obtain ⟨bs,cs,clock,m',c',rfl,hrest⟩ := ih k c hc hp
    exact ⟨bs,cs++[a],clock,m',c',by simp,hrest⟩
  rcases conn_backward cap m t a ht k d hd with ⟨c,hc,⟨rfl,_⟩ | ⟨i,rfl,⟨e,hs⟩ | hw⟩⟩ | ⟨_,_,rfl⟩
  · exact hlater d hc hp
  · obtain ⟨h0,h1⟩ := handler_inserts m.shared c i e d hs
    by_cases hsub : c.phase = .subscribed
    · obtain ⟨clock,rfl⟩ := h1 hsub
      exact ⟨as,[],clock,m,c,rfl,hm,hc,hsub⟩
    · exact hlater c hc ⟨fun hp0 => hp.2 (h0 hp0),hsub⟩
  · rw [(writer_frame cap m.shared c i d hw).2.1] at hp
    exact hlater c hc hp
  · exact absurd rfl hp.1

/-! ## The title -/

/-- The length of the log when the handler subscribed. -/
def opened (c : Conn) : ℕ := (c.rx.map Receiver.start).getD 0

/-- The terminal client that has read all the lines of its handler. -/
def screen (c : Conn) : AppState :=
  received (c.welcome.toList.map ServerMsg.welcome++c.lines.map Prod.snd)

/-- No join and no leave is half done. -/
def Settled (s : State) : Prop := ∀ c ∈ s.tasks, isJoining c = false ∧ isLeaving c = false

/-- The client has read its Welcome and a line for each Presence event since
its subscription. -/
def Processed (sh : Shared) (c : Conn) : Prop :=
  c.welcome.isSome ∧ (c.lines.map Prod.snd).filterMap flag = flags (sh.tx.drop (opened c))

/-- Since `c` subscribed as many leaves as joins of others were announced or
are half done. -/
def Balanced (s : State) (c : Conn) : Prop :=
  (flags (s.shared.tx.drop (opened c))).count true+s.tasks.countP isJoining =
    (flags (s.shared.tx.drop (opened c))).count false+s.tasks.countP isLeaving

/-- A handler enters the room in a balanced state only. -/
def JoinsBalanced (s : State) : Action → Prop
  | .conn k (.go _) => ∀ c ∈ s.tasks[k]?, c.phase = .subscribed → Balanced s c
  | _ => True

/-- A receiver that has not lagged and has nothing more to read. -/
theorem drained_processed (cap : ℕ) (sh : Shared) (c : Conn) (r : Receiver) (hc : Fed cap sh c)
    (hr : c.rx = some r) (h0 : r.skipped = 0) (hw : c.writer = .waiting)
    (hend : r.next = sh.tx.length) (hwel : c.welcome.isSome) : Processed sh c := by
  refine ⟨hwel,?_⟩
  have hev := (events_whole cap sh c r hc hr h0).2 hw
  rw [hend, List.take_length] at hev
  rw [← flags_server, List.map_map, show opened c = r.start by simp [opened, hr], ← hev]
  rfl

theorem titleCount_eq (s : AppState) (n : ℕ) : titleCount s = some n ↔ s.clientCount = n+1 := by
  unfold titleCount
  split_ifs with h0
  · simp [h0]
  · rw [Option.some.injEq]
    omega

theorem welcomed_count (n : ℕ) (msgs : List ServerMsg) (hb : ∀ msg ∈ msgs, broadcasts msg = true) :
    (received (.welcome n::msgs)).clientCount = (msgs.filterMap flag).foldl countFlag n := by
  rw [received, foldl_clientCount, List.foldl_cons, foldl_flags _ hb]
  rfl

theorem lines_broadcasts (cap : ℕ) (as : List Action) (s : State)
    (h : run (step cap) as init = some s) (k : ℕ) (c : Conn) (hc : s.tasks[k]? = some c) :
    ∀ msg ∈ c.lines.map Prod.snd, broadcasts msg = true := by
  intro msg hmsg
  obtain ⟨l,hl,rfl⟩ := List.mem_map.mp hmsg
  exact run_broadcasts cap as s h l.2 (List.mem_of_getElem? ((run_fed cap as s h k c hc).lines l hl))

theorem screen_count (cap : ℕ) (as : List Action) (s : State) (h : run (step cap) as init = some s)
    (k : ℕ) (c : Conn) (hc : s.tasks[k]? = some c) (n : ℕ) (hn : c.welcome = some n) :
    (screen c).clientCount = ((c.lines.map Prod.snd).filterMap flag).foldl countFlag n := by
  rw [screen, hn, Option.toList_some, List.map_singleton, List.singleton_append]
  exact welcomed_count n _ (lines_broadcasts cap as s h k c hc)

theorem opened_le (cap : ℕ) (as : List Action) (s : State) (h : run (step cap) as init = some s)
    (k : ℕ) (c : Conn) (hc : s.tasks[k]? = some c) : opened c ≤ s.shared.tx.length := by
  unfold opened
  cases hr : c.rx with
  | none => simp
  | some r => exact ((run_trace cap as s h k c hc).fresh r hr).1

theorem opened_kept (cap : ℕ) (bs as : List Action) (m s : State) (k : ℕ) (c d : Conn)
    (hm : run (step cap) bs init = some m) (h : run (step cap) as m = some s)
    (hc : m.tasks[k]? = some c) (hp : c.phase ≠ .spawned) (hd : s.tasks[k]? = some d) :
    opened d = opened c := by
  obtain ⟨r,hr⟩ := Option.ne_none_iff_exists'.mp fun h0 =>
    hp ((run_fed cap bs m hm k c hc).unsubscribed.mpr h0)
  obtain ⟨d',hd',_,hr'⟩ := run_invariant (Subscribed k r.start)
    (fun s a t hs => step_subscribed cap k _ s a t hs) as m s ⟨c,hc,hp,by rw [hr]; rfl⟩ h
  obtain rfl : d = d' := Option.some.inj (hd.symm.trans hd')
  rw [opened, opened, hr', hr]
  rfl

theorem settled_tallied (s : State) (hs : Tallied s) (hrest : Settled s) :
    (clientCount s.shared.clients : ℤ) = net (flags s.shared.tx) := by
  have h1 : s.tasks.countP isJoining = 0 := List.countP_eq_zero.mpr fun c hc => by simp [hrest c hc]
  have h2 : s.tasks.countP isLeaving = 0 := List.countP_eq_zero.mpr fun c hc => by simp [hrest c hc]
  unfold Tallied at hs
  rw [half_sum, h1, h2] at hs
  omega

theorem balanced_iff (s : State) (c : Conn) (hs : Tallied s) :
    Balanced s c ↔ (clientCount s.shared.clients : ℤ)+net (flags (s.shared.tx.drop (opened c))) =
      net (flags s.shared.tx) := by
  unfold Tallied at hs
  rw [half_sum] at hs
  unfold Balanced
  have hnet : net (flags (s.shared.tx.drop (opened c))) =
      (flags (s.shared.tx.drop (opened c))).count true-
        (flags (s.shared.tx.drop (opened c))).count false := rfl
  omega

/-- In what was sent since any point, joins outnumber leaves by the size of the
room at most. -/
theorem run_suffix_net (cap : ℕ) (as : List Action) (s : State) (h : run (step cap) as init = some s)
    (hrest : Settled s) (cs : List Bool) (hcs : cs <:+ flags s.shared.tx) :
    net cs ≤ clientCount s.shared.clients := by
  obtain ⟨q,hq⟩ := hcs
  have hpos := run_net_nonneg cap as s h q ⟨cs,hq⟩
  have hsum := net_append q cs
  have hall := settled_tallied s (run_tallied cap as s h) hrest
  rw [hq] at hsum
  omega

theorem told_after (cap : ℕ) (bs cs : List Action) (k clock : ℕ) (m s : State) (c d : Conn)
    (hm : run (step cap) bs init = some m) (h : run (step cap) (.conn k (.go clock)::cs) m = some s)
    (hc : m.tasks[k]? = some c) (hp : c.phase = .subscribed) (hd : s.tasks[k]? = some d) :
    Told (clientCount m.shared.clients+1) d := by
  obtain ⟨t,ht,hcs⟩ := (run_cons _ cs m s).mp h
  obtain ⟨d',hd',htold⟩ := run_invariant (fun s => ∃ c, s.tasks[k]? = some c ∧
      Told (clientCount m.shared.clients+1) c)
    (fun s a t hs => step_told cap k _ s a t hs) cs t s (insert_told cap bs m t k clock c hm hc hp ht) hcs
  obtain rfl : d = d' := Option.some.inj (hd.symm.trans hd')
  exact htold

/-- The title is off by what happened between the subscription and the count. -/
theorem title_balanced (cap : ℕ) (bs cs : List Action) (k clock : ℕ) (m s : State) (c d : Conn)
    (hm : run (step cap) bs init = some m) (h : run (step cap) (.conn k (.go clock)::cs) m = some s)
    (hc : m.tasks[k]? = some c) (hp : c.phase = .subscribed) (hd : s.tasks[k]? = some d)
    (hrest : Settled s) (hread : Processed s.shared d) :
    titleCount (screen d) = some (clientCount s.shared.clients) ↔ Balanced m c := by
  have hs : run (step cap) (bs++.conn k (.go clock)::cs) init = some s :=
    (run_append_some bs _ init s).mpr ⟨m,hm,h⟩
  have hopen := opened_kept cap bs _ m s k c d hm h hc (by simp [hp]) hd
  obtain ⟨n,hn⟩ := Option.isSome_iff_exists.mp hread.1
  obtain rfl := (told_after cap bs cs k clock m s c d hm h hc hp hd).counted n (Or.inr (Or.inr hn))
  have hsuffix : flags (s.shared.tx.drop (opened c)) <:+ flags s.shared.tx :=
    (List.drop_suffix _ _).filterMap _
  rw [titleCount_eq, screen_count cap _ s hs k d hd _ hn, hread.2, hopen,
    foldl_exact _ _ _ fun ds hds => run_suffix_net cap _ s hs hrest ds (hds.trans hsuffix),
    balanced_iff m c (run_tallied cap bs m hm)]
  -- the log of the end is that of the insertion and what came after
  obtain ⟨more,hmore⟩ := run_log_prefix cap _ m s h
  have hle := opened_le cap bs m hm k c hc
  have hsize := settled_tallied s (run_tallied cap _ s hs) hrest
  rw [← hmore, flags_append, net_append] at hsize
  rw [← hmore, List.drop_append_of_le_length hle, flags_append, net_append]
  omega

/-- In every run, once no join or leave is half done and a client has read what
is addressed to it, its title shows the size of the room exactly if the client
entered the room in a balanced state; in a run where every handler does, every
title is right. -/
theorem titles_count_room (cap : ℕ) (as : List Action) (s : State)
    (h : run (step cap) as init = some s) (hrest : Settled s) :
    (∀ bs cs k clock m c d, as = bs++.conn k (.go clock)::cs → run (step cap) bs init = some m →
      m.tasks[k]? = some c → c.phase = .subscribed → s.tasks[k]? = some d → Processed s.shared d →
      (titleCount (screen d) = some (clientCount s.shared.clients) ↔ Balanced m c)) ∧
    (Guarded (step cap) JoinsBalanced as init → ∀ (k : ℕ) d, s.tasks[k]? = some d →
      Processed s.shared d → titleCount (screen d) = some (clientCount s.shared.clients)) := by
  have hone : ∀ bs cs k clock m c d, as = bs++.conn k (.go clock)::cs →
      run (step cap) bs init = some m → m.tasks[k]? = some c → c.phase = .subscribed →
      s.tasks[k]? = some d → Processed s.shared d →
      (titleCount (screen d) = some (clientCount s.shared.clients) ↔ Balanced m c) := by
    rintro bs cs k clock m c d rfl hm hc hp hd hread
    exact title_balanced cap bs cs k clock m s c d hm (run_rest bs _ init m s h hm) hc hp hd hrest hread
  refine ⟨hone,fun hg k d hd hread => ?_⟩
  have hin : d.phase ≠ .spawned ∧ d.phase ≠ .subscribed := by
    constructor <;> intro hp <;>
      simpa [unwelcomed cap as s h k d hd (by simp [hp, NotWelcomed])] using hread.1
  obtain ⟨bs,cs,clock,m,c,rfl,hm,hc,hp⟩ := inserted_before cap as s h k d hd hin
  refine (hone bs cs k clock m c d rfl hm hc hp hd hread).mpr ?_
  exact (((guarded_append JoinsBalanced bs _ init).mp hg).2 m hm).1 c hc hp

instance (s : State) (c : Conn) : Decidable (Balanced s c) := by
  unfold Balanced
  infer_instance

instance (s : State) (a : Action) : Decidable (JoinsBalanced s a) := by
  unfold JoinsBalanced
  split <;> infer_instance

instance (s : State) : Decidable (Settled s) := by
  unfold Settled
  infer_instance

/-- Two clients join one after the other and the first reads everything. -/
def oneByOne : List Action :=
  [.spawn,.conn 0 (.go 0),.conn 0 (.go 0),.conn 0 (.go 0),.conn 0 (.go 0),
   .spawn,.conn 1 (.go 0),.conn 1 (.go 0),.conn 1 (.go 0),.conn 1 (.go 0),
   .conn 0 .recv,.conn 0 .written,.conn 0 .recv,.conn 0 .written]

def oneByOneEnd : State := (run (step 16) oneByOne init).get (by decide +kernel)

def oneByOneClient : Conn := oneByOneEnd.tasks.get ⟨0,by decide +kernel⟩

theorem one_by_one_counted : titleCount (screen oneByOneClient) = some 2 := by
  have hrun : run (step 16) oneByOne init = some oneByOneEnd := (Option.some_get _).symm
  have hc : oneByOneEnd.tasks[0]? = some oneByOneClient := List.getElem?_eq_getElem _
  have hread : Processed oneByOneEnd.shared oneByOneClient :=
    drained_processed 16 _ _ ⟨0,2,0⟩ (run_fed 16 oneByOne oneByOneEnd hrun 0 _ hc) (by decide +kernel) rfl
      (by decide +kernel) (by decide +kernel) (by decide +kernel)
  have hall := (titles_count_room 16 oneByOne oneByOneEnd hrun (by decide +kernel)).2
    (by decide +kernel) 0 oneByOneClient hc hread
  exact hall.trans (by decide +kernel)

/-- The second client enters the room before the first one does and announces
itself after: the first counts it in its Welcome and again in its Presence. -/
def overlapping : List Action :=
  [.spawn,.spawn,.conn 0 (.go 0),.conn 1 (.go 0),.conn 1 (.go 0),.conn 0 (.go 0),
   .conn 1 (.go 0),.conn 0 (.go 0),.conn 0 (.go 0),.conn 1 (.go 0),
   .conn 0 .recv,.conn 0 .written,.conn 0 .recv,.conn 0 .written]

def overlappingEnd : State := (run (step 16) overlapping init).get (by decide +kernel)

def overlappingClient : Conn := overlappingEnd.tasks.get ⟨0,by decide +kernel⟩

theorem overlapping_joins_miscounted :
    ¬ ∀ (cap : ℕ) (as : List Action) (s : State), run (step cap) as init = some s → Settled s →
      ∀ (k : ℕ) d r, s.tasks[k]? = some d → d.rx = some r → r.skipped = 0 → d.writer = .waiting →
        r.next = s.shared.tx.length → d.welcome.isSome →
        titleCount (screen d) = some (clientCount s.shared.clients) := by
  intro htitles
  have hrun : run (step 16) overlapping init = some overlappingEnd := (Option.some_get _).symm
  have hcount := htitles 16 overlapping overlappingEnd hrun (by decide +kernel) 0 overlappingClient
    ⟨0,2,0⟩ (List.getElem?_eq_getElem _) (by decide +kernel) rfl (by decide +kernel)
    (by decide +kernel) (by decide +kernel)
  exact absurd hcount (by decide +kernel)

end RustChat.PeerCount
