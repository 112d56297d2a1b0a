import RustChat.Terminals
import RustChat.VoteShare

/-!
# The screens of a settled room

A client that falls behind loses the oldest events it has not read, and no
others: its lines end with the newest ones the channel retains. So screens
that have caught up agree on what fits into that window, whatever each of them
has missed before.
-/

set_option autoImplicit false

namespace RustChat.Screens
open Runs TaskPool Protocol Broadcast HandlerSteps Hub Footprint Delivery TitleUnderflow SnapshotOrder
open World Tui TuiInput Terminals Settling VoteShare FrameRoundTrip
open Handler hiding receive

/-! ## The lines of a client that lags -/

/-- The write task has been given the newest events without a gap. -/
def CaughtUp (cap : ℕ) (sh : Handler.Shared) (c : Conn) : Prop :=
  c.writer ≠ .stopped → ∀ r, c.rx = some r → Stretch cap sh.tx.length r (positions c++inflight c.writer)

theorem caughtUp_longer (cap : ℕ) (sh sh' : Handler.Shared) (c : Conn) (h : sh.tx.length ≤ sh'.tx.length)
    (hc : CaughtUp cap sh c) : CaughtUp cap sh' c :=
  fun hw r hr => stretch_longer cap _ _ r _ h (hc hw r hr)

theorem handler_caughtUp (cap : ℕ) (sh : Handler.Shared) (c : Conn) (i : Input) (e : Effect) (c' : Conn)
    (h : HandlerStep sh c i e c') (hf : Fed cap sh c) (hc : CaughtUp cap sh c) :
    CaughtUp cap (apply sh e) c' := by
  refine caughtUp_longer cap sh _ c' (by rw [apply_tx, List.length_append]; omega) fun hw r hr => ?_
  obtain ⟨hlines,⟨_,hrx,hwr,_⟩ | ⟨_,hrx,_⟩ | ⟨_,hp,_,hrx,hwr⟩⟩ := handler_stream sh c i e c' h
  · rw [positions, hlines, hwr]
    exact hc (hwr ▸ hw) r (hrx.symm.trans hr)
  · obtain rfl := Option.some.inj (hrx.symm.trans hr)
    exact stretch_subscribe cap _ _ _
  · have hns := hf.before hp
    have hold := hc (by simp [hns]) r (hrx.symm.trans hr)
    rw [hns] at hold
    rw [positions, hlines, hwr]
    exact hold

theorem writer_caughtUp (cap : ℕ) (sh : Handler.Shared) (c : Conn) (i : Input) (c' : Conn)
    (h : WriterStep cap sh c i c') (hc : CaughtUp cap sh c) : CaughtUp cap sh c' := by
  cases h with
  | event r r' pos msg hw hr hrecv =>
    intro _ r'' hr''
    cases hr''
    have hold := hc (by simp [hw]) r hr
    simp only [hw, inflight, List.append_nil] at hold
    exact stretch_event cap sh.tx r r' _ pos _ hold hrecv
  | shutdown | stop => exact fun h => absurd rfl h
  | lagged r r' n hw hr hrecv =>
    intro _ r'' hr''
    cases hr''
    exact stretch_lagged cap sh.tx r r' _ n hrecv
  | written pos msg hw =>
    intro _ r hr
    have hold := hc (by simp [hw]) r hr
    rw [hw] at hold
    simpa [positions, inflight] using hold

theorem run_caughtUp (cap : ℕ) (as : List Hub.Action) (s : Hub.State)
    (h : run (Hub.step cap) as Hub.init = some s) (k : ℕ) (c : Conn) (hc : s.tasks[k]? = some c) :
    CaughtUp cap s.shared c := by
  refine run_kept cap (fun s => ∀ (k : ℕ) c, s.tasks[k]? = some c → Fed cap s.shared c)
    (fun sh _ c => CaughtUp cap sh c) (fun as s h k c hc => run_fed cap as s h k c hc) ?_ as s h k c hc
  exact {
    spawned := fun s _ _ r hr => by cases hr
    moved := fun s k i c c' e hf hc hs hk => handler_caughtUp cap s.shared c i e c' hs (hf k c hc) hk
    wrote := fun s k i c c' _ _ hw hk => writer_caughtUp cap s.shared c i c' hw hk
    other := fun s k j i c c' e d _ _ _ _ _ hd =>
      caughtUp_longer cap s.shared _ d (by rw [apply_tx, List.length_append]; omega) hd
    throttled := fun s k clock t j d _ _ _ hd => caughtUp_longer cap s.shared _ d (by simp) hd
    shutdown := fun s j d _ _ hd => caughtUp_longer cap s.shared _ d (by simp) hd }

/-- However far behind a client has been, its lines end with the newest events
once it is given nothing more, back to its subscription or to the oldest one
retained. -/
theorem newest_written (cap : ℕ) (as : List Hub.Action) (s : Hub.State)
    (h : run (Hub.step cap) as Hub.init = some s) (k : ℕ) (c : Conn) (r : Receiver)
    (hc : s.tasks[k]? = some c) (hr : c.rx = some r) (hw : Waiting s.shared c) (w : ℕ)
    (hstart : r.start ≤ w) (hcap : s.shared.tx.length ≤ w+cap) : s.shared.tx.drop w <:+ events c := by
  obtain ⟨r',hr',hdrained⟩ := hw.drained
  obtain rfl := Option.some.inj (hr.symm.trans hr')
  have hstretch := run_caughtUp cap as s h k c hc (by simp [hw.waiting]) r hr
  simp only [hw.waiting, inflight, List.append_nil] at hstretch
  have hnew := stretch_newest cap s.shared.tx r _ hstretch hdrained
  rw [← events_positions cap s.shared c (run_fed cap as s h k c hc)] at hnew
  obtain ⟨d,hd⟩ := Nat.exists_eq_add_of_le (show max r.start (s.shared.tx.length-cap) ≤ w by omega)
  refine List.IsSuffix.trans ?_ hnew
  rw [hd, ← List.drop_drop]
  exact List.drop_suffix _ _

/-! ## What the lines leave on a screen -/

/-- What an event puts into the chat panel of a client that gets it. -/
def eventText : BroadcastEvent → Option String
  | .server msg => panelText msg
  | .shutdown => none

theorem sentLines_texts (c : Conn) :
    (sentLines c).filterMap panelText = (events c).filterMap eventText := by
  rw [sentLines, List.filterMap_append, events, List.filterMap_map]
  cases c.welcome <;> simp [panelText, eventText, Function.comp_def]

theorem sentLines_snapshots (c : Conn) :
    voteSnapshots ((sentLines c).map .server) = voteSnapshots (events c) := by
  unfold sentLines voteSnapshots
  rw [List.map_append, List.filterMap_append, List.map_map, List.map_map]
  cases c.welcome <;> simp [snapshotOf, events, Function.comp_def]

theorem panel_suffix (texts new : List String) (h : new <:+ texts) (hfull : maxMessages ≤ new.length) :
    panel texts = panel new := by
  obtain ⟨old,rfl⟩ := h
  have hlen : (old++new).length-maxMessages = old.length+(new.length-maxMessages) := by
    rw [List.length_append]
    omega
  rw [panel, panel, hlen, ← List.drop_drop, List.drop_left]

theorem getLast?_suffix {α : Type*} (l new : List α) (h : new <:+ l) (hne : new ≠ []) :
    l.getLast? = new.getLast? := by
  obtain ⟨old,rfl⟩ := h
  exact List.getLast?_append_of_ne_nil old hne

theorem session_voteCounts (es : List Event) :
    (session es).state.voteCounts = ((voteSnapshots ((nets es).map .server)).getLast?).getD fun _ => 0 := by
  induction es using List.reverseRecOn with
  | nil => rfl
  | append_singleton es e ih =>
    rw [session_snoc]
    cases e with
    | key k now => simpa [handle, nets] using (press_typed now (session es).state k).2.2.2.trans ih
    | net msg =>
      have hnets : nets (es++[.net msg]) = nets es++[msg] := by simp [nets]
      have hstate : (handle (session es) (.net msg)).state = receive (session es).state msg := rfl
      rw [hstate, receive_voteCounts, ih, hnets, List.map_append]
      unfold voteSnapshots
      rw [List.filterMap_append]
      cases hs : snapshotOf (.server msg) <;> simp [hs]

variable {κ π μ : Type*}

/-- Terminals among any other clients, in any run of a world. The lines of any
client that waits for more end with the newest events since its subscription,
as many as the channel keeps. So a terminal that waits and has read its lines
shows the last lines of the room and its last vote snapshot, if these events
hold them, whatever it has missed before, and all such terminals agree. -/
theorem terminals_agree (serde : Serde) (Q : Program κ π μ) (cap : ℕ)
    (as : List (World.Action (Unit ⊕ κ) (Key × ℕ ⊕ μ))) (s : World.State (AppState ⊕ π))
    (h : run (World.step serde (terminal.sum Q) cap) as World.init = some s) (w : ℕ)
    (hcap : s.hub.shared.tx.length ≤ w+cap) :
    (∀ (k : ℕ) c r, s.hub.tasks[k]? = some c → c.rx = some r → Waiting s.hub.shared c → r.start ≤ w →
      s.hub.shared.tx.drop w <:+ events c) ∧
    ∀ (k : ℕ) p a c r, s.peers[k]? = some p → p.prog = .inl a → s.hub.tasks[k]? = some c → c.rx = some r →
      Waiting s.hub.shared c → r.start ≤ w → p.heard = sentLines c →
      (maxMessages ≤ ((s.hub.shared.tx.drop w).filterMap eventText).length →
        a.messages = panel ((s.hub.shared.tx.drop w).filterMap eventText)) ∧
      (voteSnapshots (s.hub.shared.tx.drop w) ≠ [] →
        (voteSnapshots (s.hub.shared.tx.drop w)).getLast? = some a.voteCounts) := by
  obtain ⟨bs,hbs⟩ := run_hub serde (terminal.sum Q) cap as s h
  have hnewest : ∀ (k : ℕ) c r, s.hub.tasks[k]? = some c → c.rx = some r → Waiting s.hub.shared c →
      r.start ≤ w → s.hub.shared.tx.drop w <:+ events c := fun k c r hc hr hw hstart =>
    newest_written cap bs s.hub hbs k c r hc hr hw w hstart hcap
  refine ⟨hnewest,fun k p a c r hp ha hc hr hw hstart hall => ?_⟩
  have hnew := hnewest k c r hc hr hw hstart
  obtain ⟨es,hes⟩ := run_terminal serde Q cap as s h k p hp a ha
  obtain rfl : a = (session es).state := Sum.inl.inj (ha.symm.trans hes.prog)
  have hheard : nets es = sentLines c := hes.heard.symm.trans hall
  constructor
  · intro hfull
    rw [session_panel, hheard, sentLines_texts]
    exact panel_suffix _ _ (hnew.filterMap eventText) hfull
  · intro hne
    have hlast := getLast?_suffix _ _ (hnew.filterMap snapshotOf) hne
    rw [session_voteCounts, hheard, sentLines_snapshots]
    unfold voteSnapshots at hne ⊢
    rw [hlast]
    exact (Option.getD_of_ne_none (by simpa using hne) _).symm

/-- The second user votes. The first one loses both Presence events, and sees
the vote. -/
def lateReader : List (World.Action (Unit ⊕ Empty) (Key × ℕ ⊕ Empty)) :=
  [.connect (.inl ()),.connect (.inl ())]++List.replicate 4 (.hub (.conn 0 (.go 0)))++
  List.replicate 4 (.hub (.conn 1 (.go 0)))++
  "/vote 2".toList.map (fun c => .act 1 (.inl (.char c,3)))++[.act 1 (.inl (.enter,7)),.line 1]++
  List.replicate 8 (.hub (.conn 1 (.go 9)))++List.replicate 4 (.hub (.throttle 0 1000))++
  [.hub (.conn 0 .recv),.hub (.conn 0 .recv),.hub (.conn 0 .written),.hear 0,.hear 0]

def lateReaderEnd : World.State (AppState ⊕ Empty) :=
  (run (World.step tableSerde (terminal.sum nobody) 1) lateReader World.init).get (by decide +kernel)

theorem late_reader_agrees :
    ∃ p a, lateReaderEnd.peers[0]? = some p ∧ p.prog = .inl a ∧ p.heard.length = 2 ∧
      List.ofFn a.voteCounts = [0,1,0,0] ∧
      (voteSnapshots (lateReaderEnd.hub.shared.tx.drop 2)).getLast? = some a.voteCounts := by
  have hpeer : (lateReaderEnd.peers[0]?).map (fun p => (p.prog.isLeft,p.heard.length,
      p.prog.elim (fun a => List.ofFn a.voteCounts) fun _ => [])) = some (true,2,[0,1,0,0]) := by
    decide +kernel
  have hconn : (lateReaderEnd.hub.tasks[0]?).map (fun c => (c.phase,c.writer,c.rx)) =
      some (.reading,.waiting,some ⟨0,3,2⟩) := by decide +kernel
  have hread : (lateReaderEnd.peers[0]?).map Peer.heard = (lateReaderEnd.hub.tasks[0]?).map sentLines := by
    decide +kernel
  obtain ⟨p,hp,hpl⟩ := Option.map_eq_some_iff.mp hpeer
  obtain ⟨c,hc,hcl⟩ := Option.map_eq_some_iff.mp hconn
  simp only [Prod.mk.injEq] at hpl hcl
  obtain ⟨hleft,hlen,hvotes⟩ := hpl
  obtain ⟨hphase,hwriter,hrx⟩ := hcl
  obtain ⟨a,ha⟩ := Sum.isLeft_iff.mp hleft
  rw [hp, hc] at hread
  obtain ⟨_,hcounts⟩ := (terminals_agree tableSerde nobody 1 lateReader lateReaderEnd
    (Option.some_get _).symm 2 (by decide +kernel)).2 0 p a c ⟨0,3,2⟩ hp ha hc hrx
    ⟨hphase,hwriter,_,hrx,by decide +kernel⟩ (by decide) (Option.some.inj hread)
  exact ⟨p,a,hp,ha,hlen,by simpa [ha] using hvotes,hcounts (by decide +kernel)⟩

end RustChat.Screens
