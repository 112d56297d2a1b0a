import RustChat.Footprint

/-!
# What a client is sent

The write task copies the broadcast log from the point of its subscription.
Its cursor, the line it is writing and the lines it has written fit together
in every reachable state, however the senders and the client are scheduled.
-/

set_option autoImplicit false

namespace RustChat.Delivery
open Runs TaskPool Protocol Broadcast Handler HandlerSteps Hub Footprint

def positions (c : Conn) : List ℕ := c.lines.map Prod.fst

def inflight : Writer → List ℕ
  | .writing pos _ => [pos]
  | _ => []

def NotWelcomed : Phase → Prop
  | .spawned | .subscribed | .joined _ | .welcoming _ => True
  | _ => False

/-- Positions of lines are positions given by the channel, all of them while
the task runs, and the line at a position is the event there. -/
structure Fed (cap : ℕ) (sh : Shared) (c : Conn) : Prop where
  before : NotWelcomed c.phase → c.writer = .notStarted
  unstarted : c.writer = .notStarted → c.lines = []
  unsubscribed : c.phase = .spawned ↔ c.rx = none
  cursor : ∀ r, c.rx = some r → r.next ≤ sh.tx.length ∧
    (r.skipped = 0 ∨ r.start+cap < sh.tx.length) ∧
    ∃ got, Delivered r got ∧ positions c <+: got ∧
      (c.writer ≠ .stopped → got = positions c++inflight c.writer)
  lines : ∀ l ∈ c.lines, sh.tx[l.1]? = some (.server l.2)
  current : ∀ pos msg, c.writer = .writing pos msg → sh.tx[pos]? = some (.server msg)

theorem getElem?_append_some (log more : List BroadcastEvent) (p : ℕ) (e : BroadcastEvent)
    (h : log[p]? = some e) : (log++more)[p]? = some e := by
  rw [List.getElem?_append_left (List.getElem?_eq_some_iff.mp h).1, h]

theorem fed_frame (cap : ℕ) (sh sh' : Shared) (c : Conn) (more : List BroadcastEvent)
    (htx : sh'.tx = sh.tx++more) (hc : Fed cap sh c) : Fed cap sh' c := by
  refine ⟨hc.before,hc.unstarted,hc.unsubscribed,fun r hr => ?_,fun l hl => ?_,fun pos msg hw => ?_⟩
  · obtain ⟨hn,hsk,hgot⟩ := hc.cursor r hr
    rw [htx, List.length_append]
    refine ⟨by omega,hsk.imp_right fun h => by omega,hgot⟩
  · rw [htx]
    exact getElem?_append_some _ _ _ _ (hc.lines l hl)
  · rw [htx]
    exact getElem?_append_some _ _ _ _ (hc.current pos msg hw)

/-! ## One step -/

/-- A handler's own steps never touch the lines, and touch the cursor and the
task only in subscribing and in welcoming. -/
theorem handler_stream (sh : Shared) (c : Conn) (i : Input) (e : Effect) (c' : Conn)
    (h : HandlerStep sh c i e c') :
    c'.lines = c.lines ∧
      ((c.phase ≠ .spawned ∧ c'.rx = c.rx ∧ c'.writer = c.writer ∧
          (NotWelcomed c'.phase → NotWelcomed c.phase)) ∨
        (c.phase = .spawned ∧ c'.rx = some (subscribe sh.tx) ∧ c'.writer = c.writer) ∨
        (c.phase ≠ .spawned ∧ NotWelcomed c.phase ∧ ¬ NotWelcomed c'.phase ∧ c'.rx = c.rx ∧
          c'.writer = .waiting)) := by
  cases h with
  | resume clock call after h hr => cases after <;> simp [h, After.phase, NotWelcomed]
  | subscribe clock h => exact ⟨rfl,Or.inr (Or.inl ⟨h,rfl,rfl⟩)⟩
  | welcome clock n h => exact ⟨rfl,Or.inr (Or.inr (by simp [h, NotWelcomed]))⟩
  | skip h => exact ⟨rfl,Or.inl ⟨by simp [h],rfl,rfl,id⟩⟩
  | _ => simp [NotWelcomed, *]

theorem handler_fed (cap : ℕ) (sh : Shared) (c : Conn) (i : Input) (e : Effect) (c' : Conn)
    (h : HandlerStep sh c i e c') (hc : Fed cap sh c) : Fed cap (apply sh e) c' := by
  refine fed_frame cap sh (apply sh e) c' (emitted e) (apply_tx sh e) ?_
  have hq := (handler_started sh c i e c' h).1
  obtain ⟨hlines,⟨hne,hrx,hw,hp⟩ | ⟨hp,hrx,hw⟩ | ⟨hne,hp,hp',hrx,hw⟩⟩ := handler_stream sh c i e c' h
  · refine ⟨fun hn => ?_,fun hn => ?_,?_,fun r hr => ?_,?_,fun pos msg hm => ?_⟩
    · rw [hw]
      exact hc.before (hp hn)
    · rw [hlines]
      exact hc.unstarted (hw ▸ hn)
    · rw [hrx, ← hc.unsubscribed]
      exact iff_of_false hq hne
    · rw [hrx] at hr
      simpa only [positions, hlines, hw] using hc.cursor r hr
    · rw [hlines]
      exact hc.lines
    · exact hc.current pos msg (hw ▸ hm)
  · have hns : c.writer = .notStarted := hc.before (by simp [hp, NotWelcomed])
    have hnil : c'.lines = [] := hlines.trans (hc.unstarted hns)
    refine ⟨fun _ => hw.trans hns,fun _ => hnil,by simp [hrx, hq],fun r hr => ?_,by simp [hnil],
      fun pos msg hm => by simp [hw, hns] at hm⟩
    obtain rfl : subscribe sh.tx = r := Option.some.inj (hrx.symm.trans hr)
    refine ⟨Nat.le_refl _,Or.inl rfl,[],delivered_subscribe sh.tx,?_,fun _ => ?_⟩
    · simp [positions, hnil]
    · simp [positions, hnil, hw, hns, inflight]
  · have hns : c.writer = .notStarted := hc.before hp
    have hnil : c'.lines = [] := hlines.trans (hc.unstarted hns)
    refine ⟨fun hn => absurd hn hp',fun _ => hnil,?_,fun r hr => ?_,by simp [hnil],
      fun pos msg hm => by simp [hw] at hm⟩
    · rw [hrx, ← hc.unsubscribed]
      exact iff_of_false hq hne
    · rw [hrx] at hr
      simpa only [positions, hlines, hw, hns, inflight, ne_eq, reduceCtorEq, not_false_eq_true] using
        hc.cursor r hr

theorem writer_fed (cap : ℕ) (sh : Shared) (c : Conn) (i : Input) (c' : Conn)
    (h : WriterStep cap sh c i c') (hc : Fed cap sh c) : Fed cap sh c' := by
  have hrun : c.writer ≠ .notStarted → ¬ NotWelcomed c.phase := fun hw hn => hw (hc.before hn)
  have hsub : ∀ r, c.rx = some r → c.phase ≠ .spawned := fun r hr hp => by
    simp [hc.unsubscribed.mp hp] at hr
  cases h with
  | event r r' pos msg hw hr hrecv =>
    obtain ⟨hn,hsk,got,hd,hpre,hgot⟩ := hc.cursor r hr
    have hd' := delivered_event cap sh.tx r r' got pos _ hd hrecv
    obtain ⟨_,rfl,hlog,rfl⟩ := recv_event cap sh.tx r r' pos _ hrecv
    have hlt := (List.getElem?_eq_some_iff.mp hlog).1
    have hall : got = positions c := by simpa [hw, inflight] using hgot (by simp [hw])
    refine ⟨fun hp => absurd hp (hrun (by simp [hw])),by simp,by simp [hsub r hr],fun r hr => ?_,
      hc.lines,?_⟩
    · cases hr
      exact ⟨hlt,hsk,got++[_],hd',hpre.trans (List.prefix_append _ _),fun _ => by rw [hall]; rfl⟩
    · intro pos msg hm
      cases hm
      exact hlog
  | shutdown r r' pos hw hr hrecv =>
    obtain ⟨hn,hsk,got,hd,hpre,_⟩ := hc.cursor r hr
    have hd' := delivered_event cap sh.tx r r' got pos _ hd hrecv
    obtain ⟨_,rfl,hlog,rfl⟩ := recv_event cap sh.tx r r' pos _ hrecv
    have hlt := (List.getElem?_eq_some_iff.mp hlog).1
    refine ⟨fun hp => absurd hp (hrun (by simp [hw])),by simp,by simp [hsub r hr],fun r hr => ?_,
      hc.lines,by simp⟩
    cases hr
    exact ⟨hlt,hsk,got++[_],hd',hpre.trans (List.prefix_append _ _),fun h => absurd rfl h⟩
  | lagged r r' n hw hr hrecv =>
    obtain ⟨hn,hsk,got,hd,hpre,hgot⟩ := hc.cursor r hr
    have hd' := delivered_lagged cap sh.tx r r' got n hd hrecv
    obtain ⟨hfar,rfl,rfl⟩ := recv_lagged cap sh.tx r r' n hrecv
    have ht := hd.total
    refine ⟨hc.before,hc.unstarted,by simp [hsub r hr],fun r hr => ?_,hc.lines,hc.current⟩
    cases hr
    refine ⟨by simp,Or.inr ?_,got,hd',hpre,hgot⟩
    simp only
    omega
  | written pos msg hw =>
    refine ⟨fun hp => absurd hp (hrun (by simp [hw])),by simp,hc.unsubscribed,fun r hr => ?_,?_,by simp⟩
    · obtain ⟨hn,hsk,got,hd,_,hgot⟩ := hc.cursor r hr
      have hall : got = positions c++[pos] := by simpa [hw, inflight] using hgot (by simp [hw])
      refine ⟨hn,hsk,got,hd,?_,fun _ => ?_⟩
      · rw [hall]
        simp [positions]
      · rw [hall]
        simp [positions, inflight]
    · intro l hl
      rcases List.mem_append.mp hl with hl | hl
      · exact hc.lines l hl
      · rw [List.mem_singleton.mp hl]
        exact hc.current pos msg hw
  | stop i hi hw =>
    refine ⟨fun hp => absurd hp (hrun hw),by simp,hc.unsubscribed,fun r hr => ?_,hc.lines,by simp⟩
    obtain ⟨hn,hsk,got,hd,hpre,_⟩ := hc.cursor r hr
    exact ⟨hn,hsk,got,hd,hpre,fun h => absurd rfl h⟩

theorem run_fed (cap : ℕ) (as : List Action) (s : State) (h : run (step cap) as init = some s)
    (k : ℕ) (c : Conn) (hc : s.tasks[k]? = some c) : Fed cap s.shared c := by
  refine run_kept cap (fun _ => True) (fun sh _ c => Fed cap sh c) (fun _ _ _ => trivial) ?_ as s h k c hc
  exact {
    spawned := fun s _ => ⟨fun _ => rfl,fun _ => rfl,by simp [Handler.spawn],by simp [Handler.spawn],
      by simp [Handler.spawn],by simp [Handler.spawn]⟩
    moved := fun s k i c c' e _ _ hs hc => handler_fed cap s.shared c i e c' hs hc
    wrote := fun s k i c c' _ _ hw hc => writer_fed cap s.shared c i c' hw hc
    other := fun s k j i c c' e d _ _ _ _ _ hd => fed_frame cap s.shared _ d _ (apply_tx _ _) hd
    throttled := fun s k clock t j d _ _ _ hd => fed_frame cap s.shared _ d _ rfl hd
    shutdown := fun s j d _ _ hd => fed_frame cap s.shared _ d _ rfl hd }

/-! ## Where the copy begins -/

/-- The handler subscribed when the log had length `n`. -/
def Subscribed (k n : ℕ) (s : State) : Prop :=
  ∃ c, s.tasks[k]? = some c ∧ c.phase ≠ .spawned ∧ c.rx.map Receiver.start = some n

theorem step_subscribed (cap k n : ℕ) (s : State) (a : Action) (t : State) (hs : Subscribed k n s)
    (h : step cap s a = some t) : Subscribed k n t := by
  obtain ⟨c,hc,hp,hr⟩ := hs
  obtain ⟨c',hc',⟨rfl,_⟩ | ⟨i,_,⟨e,hs⟩ | hw⟩⟩ := conn_forward cap s t a h k c hc
  · exact ⟨c',hc',hp,hr⟩
  · obtain ⟨hq,hrx | ⟨h0,_⟩⟩ := handler_started s.shared c i e c' hs
    · exact ⟨c',hc',hq,by rw [hrx, hr]⟩
    · exact absurd h0 hp
  · refine ⟨c',hc',?_,(writer_start cap s.shared c i c' hw).trans hr⟩
    rw [(writer_frame cap s.shared c i c' hw).2.1]
    exact hp

theorem subscribe_subscribed (cap k clock : ℕ) (s t : State) (c : Conn) (hc : s.tasks[k]? = some c)
    (hp : c.phase = .spawned) (h : step cap s (.conn k (.go clock)) = some t) :
    Subscribed k s.shared.tx.length t := by
  obtain ⟨d,sh,c',fs,hd,hn,rfl⟩ := move_cases (next cap) s t k (.go clock) h
  obtain rfl : c = d := Option.some.inj (hc.symm.trans hd)
  simp only [next, act, advance, hp, Option.map_some, Option.some.injEq, Prod.mk.injEq] at hn
  obtain ⟨rfl,rfl,rfl⟩ := hn
  rw [List.append_nil]
  exact ⟨_,getElem?_set_same s.tasks k c _ hc,by simp,rfl⟩

/-- The start of a receiver is the length of the log when its handler made the
step that subscribes. -/
theorem run_start (cap k clock : ℕ) (bs cs : List Action) (s p : State) (c d : Conn) (r : Receiver)
    (h : run (step cap) (bs++.conn k (.go clock)::cs) init = some s)
    (hp : run (step cap) bs init = some p) (hc : p.tasks[k]? = some c) (hph : c.phase = .spawned)
    (hd : s.tasks[k]? = some d) (hr : d.rx = some r) : r.start = p.shared.tx.length := by
  obtain ⟨t,ht,h⟩ := (run_cons _ cs p s).mp (run_rest bs _ init p s h hp)
  have ht' := subscribe_subscribed cap k clock p t c hc hph ht
  obtain ⟨d',hd',_,hr'⟩ := run_invariant (Subscribed k p.shared.tx.length)
    (fun s a t hs => step_subscribed cap k _ s a t hs) cs t s ht' h
  obtain rfl : d = d' := Option.some.inj (hd.symm.trans hd')
  rw [hr, Option.map_some] at hr'
  exact Option.some.inj hr'

/-! ## Falling behind -/

/-- At every point of the run the receiver of handler `k` is at most `cap`
events behind. -/
def NeverBehind (cap k : ℕ) (as : List Action) : Prop :=
  ∀ bs cs p c r, as = bs++cs → run (step cap) bs init = some p → p.tasks[k]? = some c →
    c.rx = some r → p.shared.tx.length ≤ r.next+cap

theorem run_unskipped (cap k : ℕ) (as : List Action) (s : State)
    (h : run (step cap) as init = some s) (hb : NeverBehind cap k as) (c : Conn) (r : Receiver)
    (hc : s.tasks[k]? = some c) (hr : c.rx = some r) : r.skipped = 0 := by
  have hall : NeverBehind cap k as → ∀ c r, s.tasks[k]? = some c → c.rx = some r → r.skipped = 0 := by
    refine run_history (fun as s => NeverBehind cap k as →
      ∀ (c : Conn) r, s.tasks[k]? = some c → c.rx = some r → r.skipped = 0) init
      (fun _ c r hc _ => by simp [init] at hc) ?_ as s h
    intro as m a t hm ih ht hb c' r' hc' hr'
    have hb' : NeverBehind cap k as := fun bs cs p c r has =>
      hb bs (cs++[a]) p c r (by rw [has, List.append_assoc])
    rcases conn_backward cap m t a ht k c' hc' with ⟨c,hc,⟨rfl,_⟩ | ⟨i,_,⟨e,hs⟩ | hw⟩⟩ | ⟨_,_,rfl⟩
    · exact ih hb' c' r' hc hr'
    · obtain ⟨_,hrx | ⟨_,_,hrx⟩⟩ := handler_started m.shared c i e c' hs
      · exact ih hb' c r' hc (hrx.symm.trans hr')
      · obtain rfl := Option.some.inj (hrx.symm.trans hr')
        rfl
    · have hnear := fun r => hb as [a] m c r rfl hm hc
      cases hw with
      | event r r'' pos msg hw hr hrecv | shutdown r r'' pos hw hr hrecv =>
        obtain ⟨_,_,_,rfl⟩ := recv_event cap m.shared.tx r r'' pos _ hrecv
        cases hr'
        exact ih hb' c r hc hr
      | lagged r r'' n hw hr hrecv =>
        have hle := hnear r hr
        have hlt := (recv_lagged cap m.shared.tx r r'' n hrecv).1
        omega
      | written pos msg hw | stop i hi hw => exact ih hb' c r' hc hr'
    · cases hr'
  exact hall hb c r hc hr

/-! ## The lines as events -/

def events (c : Conn) : List BroadcastEvent := c.lines.map fun l => .server l.2

theorem events_positions (cap : ℕ) (sh : Shared) (c : Conn) (hc : Fed cap sh c) :
    events c = (positions c).filterMap (sh.tx[·]?) := by
  have hlines := hc.lines
  unfold events positions
  generalize c.lines = lines at hlines ⊢
  induction lines with
  | nil => rfl
  | cons l lines ih =>
    rw [List.map_cons, List.map_cons, List.filterMap_cons, hlines l List.mem_cons_self,
      ih fun l hl => hlines l (List.mem_cons_of_mem _ hl)]

theorem events_sublist (cap : ℕ) (sh : Shared) (c : Conn) (r : Receiver) (hc : Fed cap sh c)
    (hr : c.rx = some r) : (events c).Sublist (sh.tx.drop r.start) := by
  obtain ⟨_,_,got,hd,hpre,_⟩ := hc.cursor r hr
  rw [events_positions cap sh c hc]
  have hsub := (hpre.sublist.trans (delivered_range r got hd)).filterMap (sh.tx[·]?)
  rw [range'_getElem?] at hsub
  exact hsub.trans (List.take_sublist _ _)

/-- Without a lag the lines are the log from the subscription on, up to the
line being written. -/
theorem events_whole (cap : ℕ) (sh : Shared) (c : Conn) (r : Receiver) (hc : Fed cap sh c)
    (hr : c.rx = some r) (h0 : r.skipped = 0) :
    events c <+: sh.tx.drop r.start ∧
      (c.writer = .waiting → events c = (sh.tx.take r.next).drop r.start) := by
  obtain ⟨_,_,got,hd,hpre,hall⟩ := hc.cursor r hr
  have hgot := delivered_whole r got hd h0
  constructor
  · have hpre' := hpre.filterMap (sh.tx[·]?)
    rw [← events_positions cap sh c hc, hgot, range'_getElem?] at hpre'
    exact hpre'.trans (List.take_prefix _ _)
  · intro hw
    have heq : positions c = List.range' r.start (r.next-r.start) := by
      rw [← hgot, hall (by simp [hw]), hw]
      simp [inflight]
    rw [events_positions cap sh c hc, heq, range'_getElem?, List.drop_take]

/-! ## All clients -/

theorem positions_sorted (cap : ℕ) (sh : Shared) (c : Conn) (hc : Fed cap sh c) :
    (positions c).Pairwise (· < ·) := by
  cases hr : c.rx with
  | none =>
    have hp := hc.unsubscribed.mpr hr
    have hnil := hc.unstarted (hc.before (by simp [hp, NotWelcomed]))
    simp [positions, hnil]
  | some r =>
    obtain ⟨_,_,got,hd,hpre,_⟩ := hc.cursor r hr
    exact hd.sorted.sublist hpre.sublist

theorem trace_drop (sh : Shared) (c : Conn) (r : Receiver) (hc : Trace sh c) (hr : c.rx = some r) :
    presences c.id (sh.tx.drop r.start) = presences c.id sh.tx ∧
      chats c.id (sh.tx.drop r.start) = chats c.id sh.tx := by
  obtain ⟨_,hf⟩ := hc.fresh r hr
  have hsplit := List.take_append_drop r.start sh.tx
  have hp := presences_append c.id (sh.tx.take r.start) (sh.tx.drop r.start)
  have hch := chats_append c.id (sh.tx.take r.start) (sh.tx.drop r.start)
  rw [hsplit, presences_other c.id _ hf, List.nil_append] at hp
  rw [hsplit, chats_other c.id _ hf, List.nil_append] at hch
  exact ⟨hp.symm,hch.symm⟩

theorem announced_once (c : Conn) (h : ¬ NotWelcomed c.phase) : (announced c.phase).count true = 1 := by
  cases hp : c.phase with
  | returned ok => cases ok <;> rfl
  | spawned | subscribed | joined n | welcoming n => simp [hp, NotWelcomed] at h
  | _ => rfl

/-- For every capacity and every interleaving. The lines of a client are a
subsequence of the log from its subscription on, in order and without
repetition; two clients see what they both receive in the same order; a client
that is never more than `cap` events behind, for one because no more than `cap`
were sent since it subscribed, gets the log as it is; and when it has caught
up it has seen its own Presence once and its own chats once each, in order. -/
theorem lines_follow_log (cap : ℕ) (as : List Action) (s : State)
    (h : run (step cap) as init = some s) :
    (∀ (k : ℕ) c r, s.tasks[k]? = some c → c.rx = some r →
      (positions c).Pairwise (· < ·) ∧ (∀ l ∈ c.lines, s.shared.tx[l.1]? = some (.server l.2)) ∧
        (events c).Sublist (s.shared.tx.drop r.start)) ∧
    (∀ bs cs (k : ℕ) clock p c d r, as = bs++.conn k (.go clock)::cs → run (step cap) bs init = some p →
      p.tasks[k]? = some c → c.phase = .spawned → s.tasks[k]? = some d → d.rx = some r →
      r.start = p.shared.tx.length) ∧
    (∀ (j k : ℕ) c d, s.tasks[j]? = some c → s.tasks[k]? = some d →
      (positions c).filter (· ∈ positions d) = (positions d).filter (· ∈ positions c)) ∧
    (∀ (k : ℕ) c r, s.tasks[k]? = some c → c.rx = some r →
      NeverBehind cap k as ∨ s.shared.tx.length ≤ r.start+cap →
      events c <+: s.shared.tx.drop r.start ∧ chats c.id (events c) <+: said none c.parsed ∧
        (c.writer = .waiting →
          events c = (s.shared.tx.take r.next).drop r.start ∧
          (r.next = s.shared.tx.length → (presences c.id (events c)).count true = 1 ∧
            chats c.id (events c)++unsaid c = said none c.parsed))) := by
  have hfed := run_fed cap as s h
  refine ⟨fun k c r hc hr => ?_,fun bs cs k clock p c d r has => ?_,fun j k c d hc hd => ?_,
    fun k c r hc hr hb => ?_⟩
  · exact ⟨positions_sorted cap s.shared c (hfed k c hc),(hfed k c hc).lines,
      events_sublist cap s.shared c r (hfed k c hc) hr⟩
  · subst has
    exact run_start cap k clock bs cs s p c d r h
  · exact sorted_common _ _ (positions_sorted cap s.shared c (hfed j c hc))
      (positions_sorted cap s.shared d (hfed k d hd))
  · have h0 : r.skipped = 0 := by
      rcases hb with hb | hb
      · exact run_unskipped cap k as s h hb c r hc hr
      · obtain ⟨_,h0 | hlt,_⟩ := (hfed k c hc).cursor r hr
        · exact h0
        · omega
    have htr := run_trace cap as s h k c hc
    obtain ⟨hpre,hall⟩ := events_whole cap s.shared c r (hfed k c hc) hr h0
    obtain ⟨hp,hch⟩ := trace_drop s.shared c r htr hr
    refine ⟨hpre,?_,fun hw => ⟨hall hw,fun hend => ?_⟩⟩
    · rw [← htr.chat, ← hch]
      exact (hpre.filterMap _).trans (List.prefix_append _ _)
    · have hev : events c = s.shared.tx.drop r.start := by
        rw [hall hw, hend, List.take_length]
      rw [hev, hp, hch, htr.presence]
      exact ⟨announced_once c fun hn => by simp [(hfed k c hc).before hn] at hw,htr.chat⟩

def oneChat : List Action :=
  [.spawn,.conn 0 (.go 0),.conn 0 (.go 0),.conn 0 (.go 0),.conn 0 (.go 0),
   .conn 0 (.line (some (.chat "hi" 7))),.conn 0 (.go 5),.conn 0 (.go 6),.conn 0 (.go 6),
   .spawn,.conn 1 (.go 0),.conn 1 (.go 0),.conn 1 (.go 0),
   .conn 0 .recv,.conn 0 .written,.conn 0 .recv,.conn 0 .written,.conn 0 .recv,.conn 0 .written]

def oneChatEnd : State := (run (step 3) oneChat init).get (by decide +kernel)

def oneChatClient : Conn := oneChatEnd.tasks.get ⟨0,by decide +kernel⟩

theorem one_chat_delivered :
    events oneChatClient = [.server (.presence 1 true),.server (.chat 1 none "hi" 5 7),
      .server (.presence 2 true)] ∧
    events oneChatClient = (oneChatEnd.shared.tx.take 3).drop 0 := by
  have hrun : run (step 3) oneChat init = some oneChatEnd := (Option.some_get _).symm
  have hc : oneChatEnd.tasks[0]? = some oneChatClient := List.getElem?_eq_getElem _
  have hall := (lines_follow_log 3 oneChat oneChatEnd hrun).2.2.2 0 oneChatClient ⟨0,3,0⟩ hc
    (by decide +kernel) (Or.inr (by decide +kernel))
  exact ⟨by decide +kernel,(hall.2.2 (by decide +kernel)).1⟩

end RustChat.Delivery
