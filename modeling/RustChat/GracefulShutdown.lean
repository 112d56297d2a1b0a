import RustChat.Delivery
import RustChat.Server

/-!
# Who hears the shutdown

`Shutdown` is sent once, on a channel that shows a receiver only what is sent
after it subscribes and keeps only the newest events. A handler that has been
spawned and has not subscribed yet never sees it; one that has can still lose
it to later events.
-/

set_option autoImplicit false

namespace RustChat.GracefulShutdown
open Runs Protocol Broadcast Handler HandlerSteps Hub Footprint Delivery Server

/-- The event at `p` is still to be read, or the write task has left its loop. -/
def Waits (cap : ℕ) (tx : List BroadcastEvent) (p : ℕ) (c : Conn) : Prop :=
  (∃ r, c.rx = some r ∧ Retained cap tx r p) ∨ c.writer = .stopped

/-- No handler that has not returned can miss the signal. -/
def Reached (cap : ℕ) (s : Hub.State) : Prop :=
  ∀ p : ℕ, s.shared.tx[p]? = some .shutdown → ∀ (k : ℕ) c, s.tasks[k]? = some c → hasReturned c = false →
    Waits cap s.shared.tx p c

/-! ## What one handler does to the signal -/

theorem waits_handler (cap : ℕ) (sh : Shared) (p : ℕ) (c : Conn) (i : Input) (e : Effect) (c' : Conn)
    (h : HandlerStep sh c i e c') (hf : Fed cap sh c) (hc : Waits cap sh.tx p c) :
    Waits cap sh.tx p c' := by
  obtain ⟨_,⟨_,hrx,hw,_⟩ | ⟨hp,_,hw⟩ | ⟨_,hp,_,hrx,hw⟩⟩ := handler_stream sh c i e c' h
  · simpa only [Waits, hrx, hw] using hc
  · rcases hc with ⟨r,hr,_⟩ | hs
    · simp [hf.unsubscribed.mp hp] at hr
    · exact Or.inr (hw.trans hs)
  · rcases hc with hr | hs
    · exact Or.inl (by simpa only [hrx] using hr)
    · simp [hf.before hp] at hs

theorem waits_writer (cap : ℕ) (sh : Shared) (p : ℕ) (c : Conn) (i : Input) (c' : Conn)
    (h : WriterStep cap sh c i c') (hp : sh.tx[p]? = some .shutdown) (hc : Waits cap sh.tx p c) :
    Waits cap sh.tx p c' := by
  have hrun : c.writer ≠ .stopped → ∃ r, c.rx = some r ∧ Retained cap sh.tx r p := hc.resolve_right
  cases h with
  | event r r' pos msg hw hr hrecv =>
    obtain ⟨r0,hr0,hle,hlt,hcap⟩ := hrun (by simp [hw])
    obtain rfl : r = r0 := Option.some.inj (hr.symm.trans hr0)
    obtain ⟨_,rfl,he,rfl⟩ := recv_event cap sh.tx r r' pos _ hrecv
    have hne : r.next ≠ p := fun heq => by simp [heq, hp] at he
    exact Or.inl ⟨_,rfl,by simp only; omega,hlt,hcap⟩
  | shutdown r r' pos hw hr hrecv => exact Or.inr rfl
  | lagged r r' n hw hr hrecv =>
    obtain ⟨r0,hr0,hle,hlt,hcap⟩ := hrun (by simp [hw])
    obtain ⟨_,_,rfl⟩ := recv_lagged cap sh.tx r r' n hrecv
    exact Or.inl ⟨_,rfl,by simp only; omega,hlt,hcap⟩
  | written pos msg hw => exact Or.inl (hrun (by simp [hw]))
  | stop i hi hw => exact Or.inr rfl

theorem waits_longer (cap : ℕ) (tx : List BroadcastEvent) (e : BroadcastEvent) (p : ℕ) (c : Conn)
    (hroom : c.writer = .stopped ∨ tx.length < p+cap) (hc : Waits cap tx p c) :
    Waits cap (tx++[e]) p c := by
  rcases hroom with hs | hroom
  · exact Or.inr hs
  · refine hc.imp_left fun ⟨r,hr,hle,hlt,_⟩ => ⟨r,hr,hle,?_,?_⟩
    · rw [List.length_append]
      omega
    · rw [List.length_append, List.length_singleton]
      omega

/-! ## The accept loop is over -/

def Closing : Accept.Phase → Prop
  | .joining | .returned => True
  | _ => False

theorem accept_closing (s : Accept.State) (a : Accept.Action) (t : Accept.State)
    (h : Accept.step s a = some t) :
    (Closing s.phase → Closing t.phase ∧ a ≠ .spawn ∧ a ≠ .ctrlC) ∧ (a = .ctrlC → Closing t.phase) := by
  cases Accept.step_move s a t h with
  | leave => simp [Closing]
  | release | finish => simp
  | join _ _ hp | acceptError hp | ctrlC hp | connect hp | refuse hp | acquire hp | identify hp
    | count _ hp | spawn _ _ hp | push _ hp | drop _ _ _ hp | keep _ _ _ hp | retained _ hp =>
    simp [hp, Closing]

/-- Once `Shutdown` is in the log the accept loop has left `select!` for good. -/
def Closed (s : Server.State) : Prop :=
  ∀ p : ℕ, s.hub.shared.tx[p]? = some .shutdown → Closing s.accept.phase

theorem step_closed (cap : ℕ) (s : Server.State) (a : Server.Action) (t : Server.State)
    (hs : Closed s) (h : Server.step cap s a = some t) : Closed t := by
  obtain ⟨_,ha,hh⟩ := step_parts cap s a t h
  have hkeep : (∃ p : ℕ, s.hub.shared.tx[p]? = some .shutdown) → Closing t.accept.phase := by
    rintro ⟨p,hp⟩
    have hc := hs p hp
    cases hacc : acceptAction a with
    | none =>
      rw [hacc] at ha
      rwa [← Option.some.inj ha]
    | some b =>
      rw [hacc] at ha
      exact ((accept_closing s.accept b t.accept ha).1 hc).1
  intro p hp
  cases hhub : hubAction a with
  | none =>
    rw [hhub] at hh
    exact hkeep ⟨p,by rwa [Option.some.inj hh]⟩
  | some b =>
    rw [hhub] at hh
    rcases step_tx cap s.hub t.hub b hh with htx | ⟨_,e,htx,he,_⟩
    · exact hkeep ⟨p,by rwa [← htx]⟩
    · rw [htx] at hp
      by_cases hlt : p < s.hub.shared.tx.length
      · rw [List.getElem?_append_left hlt] at hp
        exact hkeep ⟨p,hp⟩
      · rw [List.getElem?_append_right (Nat.le_of_not_lt hlt), List.getElem?_singleton] at hp
        split_ifs at hp
        obtain rfl := he.mp (Option.some.inj hp)
        rcases a with a | ⟨k,i⟩ | ⟨k,clock⟩
        · cases a <;> simp [hubAction] at hhub
          exact (accept_closing s.accept .ctrlC t.accept ha).2 rfl
        · simp [hubAction] at hhub
        · simp [hubAction] at hhub

/-! ## Runs in which the signal is in time -/

/-- The step is the last one of handler `k`, the send of `leave`. -/
def bowsOut (a : Server.Action) (k : ℕ) (c : Conn) : Bool :=
  match a with
  | .conn j (.go _) => decide (j = k ∧ c.phase = .left)
  | _ => false

/-- At Ctrl-C every handler that has not returned has subscribed, and from
then on an event is sent only while `Shutdown` stays within the newest `cap`,
or when no write task is left in its loop but for one whose handler returns
by this very send. -/
structure InTime (cap : ℕ) (s : Server.State) (a : Server.Action) : Prop where
  subscribed : a = .accept .ctrlC → ∀ c ∈ s.hub.tasks, hasReturned c = false → c.phase ≠ .spawned
  room : (hubAction a).any (sends s.hub) = true → ∀ p < s.hub.shared.tx.length,
    s.hub.shared.tx[p]? = some .shutdown → s.hub.shared.tx.length < p+cap ∨
      ∀ x ∈ s.hub.tasks.zipIdx, hasReturned x.1 = false →
        x.1.writer = .stopped ∨ bowsOut a x.2 x.1 = true

instance (cap : ℕ) (s : Server.State) (a : Server.Action) : Decidable (InTime cap s a) :=
  decidable_of_iff (_ ∧ _) ⟨fun h => ⟨h.1,h.2⟩,fun h => ⟨h.subscribed,h.room⟩⟩

theorem moved_stopped (cap : ℕ) (s : Hub.State) (a : Hub.Action) (k : ℕ) (c c' : Conn)
    (h : Moved cap s a k c c') (hf : Fed cap s.shared c) (hs : c.writer = .stopped) :
    c'.writer = .stopped := by
  rcases h with ⟨rfl,_⟩ | ⟨i,_,⟨e,hh⟩ | hw⟩
  · exact hs
  · obtain ⟨_,⟨_,_,hw,_⟩ | ⟨_,_,hw⟩ | ⟨_,hp,_⟩⟩ := handler_stream s.shared c i e c' hh
    · exact hw.trans hs
    · exact hw.trans hs
    · simp [hf.before hp] at hs
  · cases hw <;> simp_all

theorem moved_waits (cap : ℕ) (s : Hub.State) (a : Hub.Action) (k p : ℕ) (c c' : Conn)
    (h : Moved cap s a k c c') (hf : Fed cap s.shared c) (hp : s.shared.tx[p]? = some .shutdown)
    (hc : Waits cap s.shared.tx p c) : Waits cap s.shared.tx p c' := by
  rcases h with ⟨rfl,_⟩ | ⟨i,_,⟨e,hh⟩ | hw⟩
  · exact hc
  · exact waits_handler cap s.shared p c i e c' hh hf hc
  · exact waits_writer cap s.shared p c i c' hw hp hc

theorem hub_action (a : Server.Action) (b : Hub.Action) (h : hubAction a = some b) :
    (b = .spawn → a = .accept .spawn) ∧ (b = .shutdown → a = .accept .ctrlC) := by
  rcases a with a | ⟨k,i⟩ | ⟨k,clock⟩
  · cases a <;> simp [hubAction] at h <;> subst h <;> simp
  · obtain rfl := Option.some.inj h
    simp
  · obtain rfl := Option.some.inj h
    simp

theorem bowed_returned (cap : ℕ) (s : Hub.State) (a : Server.Action) (b : Hub.Action) (k : ℕ)
    (c c' : Conn) (hb : hubAction a = some b) (hm : Moved cap s b k c c')
    (h : bowsOut a k c = true) : hasReturned c' = true := by
  unfold bowsOut at h
  split at h
  · rename_i j clock
    obtain ⟨rfl,hp⟩ := of_decide_eq_true h
    obtain rfl := Option.some.inj hb
    rcases hm with ⟨_,hne⟩ | ⟨i,hi,⟨e,hs⟩ | hw⟩
    · exact absurd rfl (hne (.go clock))
    · obtain rfl : .go clock = i := (Action.conn.inj hi).2
      cases hs <;> simp_all [hasReturned]
    · obtain rfl : .go clock = i := (Action.conn.inj hi).2
      cases hw with
      | stop i hi hw => simp at hi
  · cases h

theorem subscribed_waits (cap : ℕ) (hcap : 0 < cap) (sh : Handler.Shared) (c : Conn) (e : BroadcastEvent)
    (hf : Fed cap sh c) (hsub : c.phase ≠ .spawned) : Waits cap (sh.tx++[e]) sh.tx.length c := by
  obtain ⟨r,hr⟩ := Option.ne_none_iff_exists'.mp (mt hf.unsubscribed.mpr hsub)
  have hle := (hf.cursor r hr).1
  refine Or.inl ⟨r,hr,by omega,?_,?_⟩
  · rw [List.length_append, List.length_singleton]
    omega
  · rw [List.length_append, List.length_singleton]
    omega

theorem getElem?_concat_new (log : List BroadcastEvent) (e x : BroadcastEvent) (p : ℕ)
    (h : (log++[e])[p]? = some x) (hnew : log[p]? ≠ some x) : p = log.length ∧ e = x := by
  have hge : log.length ≤ p := by
    by_contra hlt
    rw [List.getElem?_append_left (by omega)] at h
    exact hnew h
  rw [List.getElem?_append_right hge, List.getElem?_singleton] at h
  split_ifs at h with hp
  exact ⟨by omega,Option.some.inj h⟩

theorem step_reached (cap : ℕ) (hcap : 0 < cap) (s : Server.State) (a : Server.Action)
    (t : Server.State) (hf : ∀ (k : ℕ) c, s.hub.tasks[k]? = some c → Fed cap s.hub.shared c)
    (hcl : Closed s) (hs : Reached cap s.hub) (hg : InTime cap s a)
    (h : Server.step cap s a = some t) : Reached cap t.hub := by
  obtain ⟨_,ha,hh⟩ := step_parts cap s a t h
  cases hhub : hubAction a with
  | none =>
    rw [hhub] at hh
    rwa [← Option.some.inj hh]
  | some b =>
    rw [hhub] at hh
    obtain ⟨hspawn,hshut⟩ := hub_action a b hhub
    intro p hp k c' hc' hr'
    have hback := conn_backward cap s.hub t.hub b hh k c' hc'
    have hunret : ∀ c, Moved cap s.hub b k c c' → hasReturned c = false := fun c hm => by
      by_contra hrc
      rw [moved_returned cap s.hub b k c c' hm (by simpa using hrc)] at hr'
      cases hr'
    by_cases hold : s.hub.shared.tx[p]? = some .shutdown
    · -- the signal was sent before
      rcases hback with ⟨c,hc,hm⟩ | ⟨hsp,_⟩
      · have hw := moved_waits cap s.hub b k p c c' hm (hf k c hc) hold (hs p hold k c hc (hunret c hm))
        rcases step_tx cap s.hub t.hub b hh with htx | ⟨hsend,e,htx,_⟩
        · rwa [htx]
        · rw [htx]
          refine waits_longer cap _ e p c' ?_ hw
          have hlt := (List.getElem?_eq_some_iff.mp hold).1
          rcases hg.room (by simpa [hhub] using hsend) p hlt hold with hroom | hstop
          · exact Or.inr hroom
          · have hmem : (c,k) ∈ s.hub.tasks.zipIdx := List.mem_zipIdx_iff_getElem?.mpr hc
            rcases hstop (c,k) hmem (hunret c hm) with hcs | hbow
            · exact Or.inl (moved_stopped cap s.hub b k c c' hm (hf k c hc) hcs)
            · rw [bowed_returned cap s.hub a b k c c' hhub hm hbow] at hr'
              cases hr'
      · rw [hspawn hsp] at ha
        exact absurd rfl ((accept_closing s.accept .spawn t.accept ha).1 (hcl p hold)).2.1
    · -- the signal is sent by this step
      rcases step_tx cap s.hub t.hub b hh with htx | ⟨_,e,htx,he,_⟩
      · exact absurd (by rwa [← htx]) hold
      · rw [htx] at hp ⊢
        obtain ⟨rfl,hsig⟩ := getElem?_concat_new _ e .shutdown p hp hold
        obtain rfl := he.mp hsig
        rcases hback with ⟨c,hc,⟨rfl,_⟩ | ⟨i,hi,_⟩⟩ | ⟨hsp,_⟩
        · have hsub := hg.subscribed (hshut rfl) c' (List.mem_of_getElem? hc) hr'
          exact subscribed_waits cap hcap s.hub.shared c' e (hf k c' hc) hsub
        · cases hi
        · cases hsp

/-- In every run of the server whose steps are in time, once `Shutdown` has
been sent every handler that has not returned still has it to read, or its
write task has left the loop. -/
theorem shutdown_reaches (cap : ℕ) (hcap : 0 < cap) (as : List Server.Action) (s : Server.State)
    (h : run (Server.step cap) as Server.init = some s)
    (hg : Guarded (Server.step cap) (InTime cap) as Server.init) : Reached cap s.hub := by
  have hall : Closed s ∧ Reached cap s.hub := by
    refine guarded_history (InTime cap) (fun _ s => Closed s ∧ Reached cap s.hub) Server.init
      ⟨fun p hp => ?_,fun p hp => ?_⟩ ?_ as s hg h
    · simp [Server.init, Hub.init] at hp
    · simp [Server.init, Hub.init] at hp
    · rintro as m a t hm ⟨hcl,hr⟩ hC ht
      exact ⟨step_closed cap m a t hcl ht,
        step_reached cap hcap m a t (run_fed cap _ m.hub (run_parts cap as m hm).2) hcl hr hC ht⟩
  exact hall.2

/-- A handler joins, Ctrl-C comes, and the write task has still to read both. -/
def timelySignal : List Server.Action :=
  [.accept .connect,.accept .go,.accept .go,.accept .go,.accept .spawn,.accept .go,.accept .go,
   .accept .go,.conn 0 (.go 0),.conn 0 (.go 0),.conn 0 (.go 0),.conn 0 (.go 0),.accept .ctrlC]

def timelySignalEnd : Server.State :=
  (run (Server.step 16) timelySignal Server.init).get (by decide +kernel)

theorem timely_signal_reaches :
    timelySignalEnd.hub.shared.tx = [.server (.presence 1 true),.shutdown] ∧
      Reached 16 timelySignalEnd.hub :=
  ⟨by decide +kernel,shutdown_reaches 16 (by decide) timelySignal timelySignalEnd
    (Option.some_get _).symm (by decide +kernel)⟩

/-- Ctrl-C comes between the spawn of a handler and its subscription. -/
def earlySignal : List Server.Action :=
  [.accept .connect,.accept .go,.accept .go,.accept .go,.accept .spawn,.accept .go,.accept .go,
   .accept .go,.accept .ctrlC,.conn 0 (.go 0)]

def earlySignalEnd : Server.State := (run (Server.step 16) earlySignal Server.init).get (by decide +kernel)

def earlySignalConn : Conn := earlySignalEnd.hub.tasks.get ⟨0,by decide +kernel⟩

theorem early_signal_missed :
    ¬ ∀ (cap : ℕ), 0 < cap → ∀ (as : List Server.Action) (s : Server.State),
      run (Server.step cap) as Server.init = some s → Reached cap s.hub := by
  intro hreached
  have hrun : run (Server.step 16) earlySignal Server.init = some earlySignalEnd :=
    (Option.some_get _).symm
  have hw := hreached 16 (by decide) earlySignal earlySignalEnd hrun 0 (by decide +kernel) 0
    earlySignalConn (List.getElem?_eq_getElem _) (by decide +kernel)
  rcases hw with ⟨r,hr,hle,_⟩ | hs
  · have hrx : earlySignalConn.rx = some ⟨1,1,0⟩ := by decide +kernel
    obtain rfl := Option.some.inj (hr.symm.trans hrx)
    exact absurd hle (by decide)
  · exact absurd hs (by decide +kernel)

end RustChat.GracefulShutdown
