import RustChat.Settling
import RustChat.TuiInput
import RustChat.World

/-!
# From one keyboard to another screen

Terminal clients in a world with any other clients. What a terminal sends is
read off its keys, what it shows is read off the lines it has heard, and in
between are the streams, the handlers and the channel.
-/

set_option autoImplicit false

namespace RustChat.Terminals
open Runs Protocol Text Numeral Footprint Delivery FrameRoundTrip TitleUnderflow World Tui TuiInput
open Handler hiding receive

/-! ## The keyboard -/

def edit (input : String) : Key → String
  | .enter => ""
  | .backspace => String.ofList input.toList.dropLast
  | .char c => input.push c

/-- The line a key sends off: Enter does, if there is more than blanks. -/
def submitted (input : String) : Key → Option String
  | .enter => if trim input.toList = [] then none else some (String.ofList (trim input.toList))
  | _ => none

/-- The lines sent off, each with its time. -/
def typed : String → List Event → List (String × ℕ)
  | _, [] => []
  | input, .key k now::events => ((submitted input k).map (·,now)).toList++typed (edit input k) events
  | input, .net _::events => typed input events

/-- What a line means does not depend on the state it is typed in. -/
def meaning (x : String × ℕ) : Option ClientMsg := (parseInput x.2 x.1 new).1

theorem parseInput_meaning (now : ℕ) (line : String) (s : AppState) :
    (parseInput now line s).1 = meaning (line,now) ∧ (parseInput now line s).2.input = s.input ∧
      (parseInput now line s).2.messages = s.messages ∧
      (parseInput now line s).2.voteCounts = s.voteCounts := by
  unfold meaning
  by_cases hnick : "/nick ".toList <+: line.toList
  · obtain ⟨rest,hrest⟩ := hnick
    rw [parseInput_nick now line _ rest hrest.symm, parseInput_nick now line _ rest hrest.symm]
    exact ⟨rfl,rfl,rfl,rfl⟩
  · by_cases hvote : "/vote ".toList <+: line.toList
    · obtain ⟨rest,hrest⟩ := hvote
      rw [parseInput_vote now line _ rest hrest.symm, parseInput_vote now line _ rest hrest.symm]
      cases parseUnsigned Allocation.u64Bound (trim rest) with
      | none => exact ⟨rfl,rfl,rfl,rfl⟩
      | some n =>
        dsimp only
        split_ifs <;> exact ⟨rfl,rfl,rfl,rfl⟩
    · rw [parseInput_other now line _ hnick hvote, parseInput_other now line _ hnick hvote]
      split_ifs <;> exact ⟨rfl,rfl,rfl,rfl⟩

theorem press_typed (now : ℕ) (s : AppState) (k : Key) :
    (press now s k).1 = (submitted s.input k).bind (fun line => meaning (line,now)) ∧
      (press now s k).2.input = edit s.input k ∧ (press now s k).2.messages = s.messages ∧
      (press now s k).2.voteCounts = s.voteCounts := by
  cases k with
  | backspace | char c => exact ⟨rfl,rfl,rfl,rfl⟩
  | enter =>
    simp only [press, submitted, edit]
    split_ifs with hblank
    · exact ⟨rfl,rfl,rfl,rfl⟩
    · exact parseInput_meaning now _ _

theorem receive_input (s : AppState) (msg : ServerMsg) : (receive s msg).input = s.input := by
  cases msg with
  | presence id joined => cases joined <;> rfl
  | _ => rfl

theorem foldl_sent (events : List Event) (c : Client) :
    (events.foldl handle c).sent = c.sent++(typed c.state.input events).filterMap meaning := by
  induction events generalizing c with
  | nil => simp [typed]
  | cons e events ih =>
    rw [List.foldl_cons, ih]
    cases e with
    | net msg => simp [handle, typed, receive_input]
    | key k now =>
      obtain ⟨hmsg,hinput,_⟩ := press_typed now c.state k
      simp only [handle, typed, hinput, hmsg, List.append_assoc, List.filterMap_append]
      cases submitted c.state.input k with
      | none => simp
      | some line => cases hm : meaning (line,now) <;> simp [hm]

/-! ## The screen -/

/-- What a message puts into the chat panel. -/
def panelText : ServerMsg → Option String
  | .chat sender nick text _ _ => some s!"[{nick.getD (toString sender)}] {text}"
  | .presence id true => some s!"▶ {id} 입장"
  | .presence id false => some s!"◀ {id} 퇴장"
  | .error msg => some s!"⚠ {msg}"
  | _ => none

def panel (texts : List String) : List String := texts.drop (texts.length-maxMessages)

/-- Dropping the first of a full buffer keeps the last ones of all. -/
theorem keep_last {β : Type*} (n : ℕ) (hn : 0 < n) (all buffer : List β) (x : β)
    (h : buffer = all.drop (all.length-n)) :
    (if n ≤ buffer.length then buffer.tail else buffer)++[x] = (all++[x]).drop ((all++[x]).length-n) := by
  have hlen : buffer.length = min all.length n := by
    rw [h, List.length_drop]
    omega
  rw [hlen, List.length_append, List.length_singleton, List.drop_append_of_le_length (by omega)]
  congr 1
  split_ifs with hfull
  · rw [h, List.tail_drop, show all.length-n+1 = all.length+1-n by omega]
  · rw [h, show all.length-n = 0 by omega, show all.length+1-n = 0 by omega]

theorem pushMsg_panel (s : AppState) (texts : List String) (msg : String) (hs : s.messages = panel texts) :
    (pushMsg s msg).messages = panel (texts++[msg]) :=
  keep_last maxMessages (by decide) texts s.messages msg hs

theorem receive_panel (s : AppState) (texts : List String) (msg : ServerMsg) (hs : s.messages = panel texts) :
    (receive s msg).messages = panel (texts++(panelText msg).toList) := by
  cases msg with
  | chat sender nick text sentAt clientTs => exact pushMsg_panel s texts _ hs
  | presence id joined =>
    cases joined
    · exact pushMsg_panel { s with clientCount := s.clientCount-1 } texts _ hs
    · exact pushMsg_panel { s with clientCount := s.clientCount+1 } texts _ hs
  | error msg => exact pushMsg_panel s texts _ hs
  | welcome | voteSnapshot => simpa [panelText, receive] using hs

def nets (events : List Event) : List ServerMsg :=
  events.filterMap fun e => match e with
    | .net msg => some msg
    | .key _ _ => none

theorem session_panel (events : List Event) :
    (session events).state.messages = panel ((nets events).filterMap panelText) := by
  induction events using List.reverseRecOn with
  | nil => rfl
  | append_singleton events e ih =>
    rw [session_snoc, nets, List.filterMap_append, List.filterMap_append]
    cases e with
    | key k now => simpa [handle, nets] using (press_typed now (session events).state k).2.2.1.trans ih
    | net msg =>
      have hpanel := receive_panel (session events).state _ msg ih
      cases htext : panelText msg <;> simpa [handle, nets, htext] using hpanel

theorem session_sent (events : List Event) :
    (session events).sent = (typed "" events).filterMap meaning := by
  rw [session, foldl_sent]
  rfl

/-! ## The terminals of a world -/

/-- `tui::run`: a key with its time, or a message of the network task. -/
def terminal : Program Unit AppState (Key × ℕ) where
  start _ := new
  act s m := some ((press m.2 s m.1).2,(press m.2 s m.1).1.toList.map Item.terminal)
  hear s msg := some (Tui.receive s msg)

variable {κ π μ : Type*}

/-- The client is in the middle of a session. -/
structure AtTerminal (p : Peer (AppState ⊕ π)) (events : List Event) : Prop where
  prog : p.prog = .inl (session events).state
  sent : p.sent = (session events).sent.map Item.terminal
  heard : p.heard = nets events

theorem run_terminal (serde : Serde) (Q : Program κ π μ) (cap : ℕ)
    (as : List (World.Action (Unit ⊕ κ) (Key × ℕ ⊕ μ))) (s : World.State (AppState ⊕ π))
    (h : run (World.step serde (terminal.sum Q) cap) as World.init = some s) (k : ℕ)
    (p : Peer (AppState ⊕ π)) (hp : s.peers[k]? = some p) (a : AppState) (ha : p.prog = .inl a) :
    ∃ events, AtTerminal p events := by
  have hI : ∃ events, a = (session events).state ∧ p.sent = (session events).sent.map Item.terminal ∧
      p.heard = nets events := by
    refine run_left serde terminal Q cap
      (fun p => ∃ events, p.prog = (session events).state ∧ p.sent = (session events).sent.map Item.terminal ∧
        p.heard = nets events) (fun _ => ⟨[],rfl,rfl,rfl⟩) (fun p n hI => hI) ?_ ?_ as s h k p hp a ha
    · rintro p m q items ⟨events,hstate,hsent,hheard⟩ hact
      cases hact
      refine ⟨events++[.key m.1 m.2],?_,?_,?_⟩
      · rw [session_snoc, hstate]
        rfl
      · rw [session_snoc, hsent, hstate]
        simp [handle]
      · simpa [nets] using hheard
    · rintro p msg q ⟨events,hstate,hsent,hheard⟩ hhear
      cases hhear
      refine ⟨events++[.net msg],?_,?_,?_⟩
      · rw [session_snoc, hstate]
        rfl
      · rw [session_snoc, hsent]
        rfl
      · simp [nets, hheard]
  obtain ⟨events,hstate,hsent,hheard⟩ := hI
  exact ⟨events,ha.trans (congrArg Sum.inl hstate),hsent,hheard⟩

/-! ## From the sender to the reader -/

theorem said_append (nick : Option String) (xs ys : List ClientMsg) :
    said nick (xs++ys) = said nick xs++said (xs.foldl nickAfter nick) ys := by
  induction xs generalizing nick with
  | nil => rfl
  | cons x xs ih => simp only [List.cons_append, said, ih, List.foldl_cons, List.append_assoc]

theorem said_mono (nick : Option String) (xs ys : List ClientMsg) (h : xs <+: ys) :
    said nick xs <+: said nick ys := by
  obtain ⟨zs,rfl⟩ := h
  rw [said_append]
  exact List.prefix_append _ _

def shown (id : ℕ) (heard : List ServerMsg) : List Saying := chats id (heard.map .server)

theorem shown_sentLines (id : ℕ) (c : Conn) : shown id (sentLines c) = chats id (events c) := by
  unfold shown sentLines
  rw [List.map_append, chats_append, List.map_map, List.map_map]
  cases c.welcome <;> simp [chats, chatOf, events, Function.comp_def]

theorem shown_prefix (id : ℕ) (heard : List ServerMsg) (c : Conn) (h : heard <+: sentLines c) :
    shown id heard <+: chats id (events c) := by
  rw [← shown_sentLines]
  exact (h.map _).filterMap _

theorem chats_said (cap : ℕ) (serde : Serde) (bs : List Hub.Action) (s : Hub.State)
    (hb : run (Hub.step cap) bs Hub.init = some s) (q : Peer π) (j : ℕ) (d : Conn)
    (hd : s.tasks[j]? = some d) (hq : Linked serde q d) :
    chats d.id s.shared.tx <+: said none ((messages q.sent).filter (fits serde)) := by
  have hparsed : d.parsed <+: (messages q.sent).filter (fits serde) := by
    rw [hq.parsed]
    exact ((List.take_prefix _ _).filterMap message).filter _
  refine List.IsPrefix.trans ?_ (said_mono none _ _ hparsed)
  rw [← (run_trace cap bs s hb j d hd).chat]
  exact List.prefix_append _ _

theorem shown_said (cap : ℕ) (serde : Serde) (bs : List Hub.Action) (s : Hub.State)
    (hb : run (Hub.step cap) bs Hub.init = some s) (p q : Peer π) (i j : ℕ) (c d : Conn)
    (hc : s.tasks[i]? = some c) (hd : s.tasks[j]? = some d) (hp : Linked serde p c) (hq : Linked serde q d) :
    (shown d.id p.heard).Sublist (said none ((messages q.sent).filter (fits serde))) ∧
    ∀ r, c.rx = some r → r.skipped = 0 →
      shown d.id p.heard <:+: said none ((messages q.sent).filter (fits serde)) ∧
      (Settling.Settled s → Settling.Waiting s.shared c → q.taken = q.sent.length → p.heard = sentLines c →
        chats d.id (s.shared.tx.take r.start)++shown d.id p.heard =
          said none ((messages q.sent).filter (fits serde))) := by
  have hfed := run_fed cap bs s hb i c hc
  have htrace := run_trace cap bs s hb j d hd
  have hheard := shown_prefix d.id p.heard c hp.heard
  have hlog := chats_said cap serde bs s hb q j d hd hq
  refine ⟨?_,fun r hr h0 => ⟨?_,fun hset hwait htaken hall => ?_⟩⟩
  · refine hheard.sublist.trans (List.Sublist.trans ?_ hlog.sublist)
    cases hr : c.rx with
    | none =>
      have hphase := hfed.unsubscribed.mpr hr
      simp [events, hfed.unstarted (hfed.before (by simp [hphase, NotWelcomed])), chats]
    | some r => exact ((events_sublist cap s.shared c r hfed hr).trans (List.drop_sublist _ _)).filterMap _
  · have hev := (events_whole cap s.shared c r hfed hr h0).1
    have hdrop : chats d.id (s.shared.tx.drop r.start) <:+ chats d.id s.shared.tx :=
      (List.drop_suffix _ _).filterMap _
    exact ((hheard.trans (hev.filterMap _)).isInfix.trans hdrop.isInfix).trans hlog.isInfix
  · obtain ⟨r',hr',hend⟩ := hwait.drained
    obtain rfl : r = r' := Option.some.inj (hr.symm.trans hr')
    have hev : events c = s.shared.tx.drop r.start := by
      rw [(events_whole cap s.shared c r hfed hr h0).2 hwait.waiting, hend, List.take_length]
    have hsaid := Settling.settled_chats s.shared d htrace (hset.handlers d (List.mem_of_getElem? hd))
    rw [hall, shown_sentLines, hev, ← chats_append, List.take_append_drop, hsaid, hq.parsed, htaken,
      List.take_length]

/-- Two terminals in any run of a world. What the first one has heard of the
second are lines the second user typed, in order, each under the name in force
when it was typed. Without a lag none is missing in between, and once all is
delivered none typed since the first one subscribed is missing at all. The
chat panel shows the last texts of what was heard. -/
theorem typed_is_seen (serde : Serde) (Q : Program κ π μ) (cap : ℕ)
    (as : List (World.Action (Unit ⊕ κ) (Key × ℕ ⊕ μ))) (s : World.State (AppState ⊕ π))
    (h : run (World.step serde (terminal.sum Q) cap) as World.init = some s) (i j : ℕ)
    (p q : Peer (AppState ⊕ π)) (hp : s.peers[i]? = some p) (hq : s.peers[j]? = some q) (a b : AppState)
    (ha : p.prog = .inl a) (hb : q.prog = .inl b) (c : Conn) (hc : s.hub.tasks[i]? = some c) :
    ∃ ei ej, AtTerminal p ei ∧ AtTerminal q ej ∧ a.messages = panel (p.heard.filterMap panelText) ∧
      (shown (j+1) p.heard).Sublist (said none (((typed "" ej).filterMap meaning).filter (fits serde))) ∧
      ∀ r, c.rx = some r → r.skipped = 0 →
        shown (j+1) p.heard <:+: said none (((typed "" ej).filterMap meaning).filter (fits serde)) ∧
        (Settling.Settled s.hub → Settling.Waiting s.hub.shared c → q.taken = q.sent.length →
          p.heard = sentLines c →
          chats (j+1) (s.hub.shared.tx.take r.start)++shown (j+1) p.heard =
            said none (((typed "" ej).filterMap meaning).filter (fits serde))) := by
  obtain ⟨ei,hei⟩ := run_terminal serde Q cap as s h i p hp a ha
  obtain ⟨ej,hej⟩ := run_terminal serde Q cap as s h j q hq b hb
  obtain ⟨hlen,hlink⟩ := run_paired serde (terminal.sum Q) cap as s h
  obtain ⟨bs,hbs⟩ := run_hub serde (terminal.sum Q) cap as s h
  have hj : j < s.hub.tasks.length := hlen ▸ (List.getElem?_eq_some_iff.mp hq).1
  have hd := List.getElem?_eq_getElem hj
  have hid := Hub.run_numbered cap bs s.hub hbs j _ hd
  have hsent : messages q.sent = (typed "" ej).filterMap meaning := by
    rw [hej.sent, session_sent, messages, List.filterMap_map]
    exact List.filterMap_some
  have hmain := shown_said cap serde bs s.hub hbs p q i j c _ hc hd (hlink i p c hp hc) (hlink j q _ hq hd)
  rw [hid, hsent] at hmain
  refine ⟨ei,ej,hei,hej,?_,hmain⟩
  obtain rfl : a = (session ei).state := Sum.inl.inj (ha.symm.trans hei.prog)
  rw [hei.heard]
  exact session_panel ei

def nobody : Program Empty Empty Empty := ⟨Empty.elim,fun p _ => p.elim,fun p _ => p.elim⟩

def greeting : List (World.Action (Unit ⊕ Empty) (Key × ℕ ⊕ Empty)) :=
  [.connect (.inl ()),.connect (.inl ())]++List.replicate 4 (.hub (.conn 0 (.go 0)))++
  List.replicate 4 (.hub (.conn 1 (.go 0)))++
  [.act 1 (.inl (.char 'h',3)),.act 1 (.inl (.char 'i',4)),.act 1 (.inl (.enter,7)),.line 1]++
  List.replicate 3 (.hub (.conn 1 (.go 9)))++
  [.hub (.conn 0 .recv),.hub (.conn 0 .written),.hub (.conn 0 .recv),.hub (.conn 0 .written),
   .hub (.conn 0 .recv),.hub (.conn 0 .written),.hear 0,.hear 0,.hear 0,.hear 0]

def greetingEnd : World.State (AppState ⊕ Empty) :=
  (run (World.step tableSerde (terminal.sum nobody) 16) greeting World.init).get (by decide +kernel)

theorem greeting_seen :
    ∃ p ∈ greetingEnd.peers, ∃ ej, shown 2 p.heard = [(none,"hi",7)] ∧
      (shown 2 p.heard).Sublist (said none (((typed "" ej).filterMap meaning).filter (fits tableSerde))) := by
  have hheard : (greetingEnd.peers[0]?).map (fun p => (p.prog.isLeft,shown 2 p.heard)) =
      some (true,[(none,"hi",7)]) := by decide +kernel
  have hsender : (greetingEnd.peers[1]?).map (fun p => p.prog.isLeft) = some true := by decide +kernel
  have hconn : (greetingEnd.hub.tasks[0]?).isSome = true := by decide +kernel
  obtain ⟨p,hp,hpl⟩ := Option.map_eq_some_iff.mp hheard
  obtain ⟨q,hq,hql⟩ := Option.map_eq_some_iff.mp hsender
  obtain ⟨c,hc⟩ := Option.isSome_iff_exists.mp hconn
  obtain ⟨a,ha⟩ := Sum.isLeft_iff.mp (Prod.mk.inj hpl).1
  obtain ⟨b,hb⟩ := Sum.isLeft_iff.mp hql
  obtain ⟨_,ej,_,_,_,hsub,_⟩ := typed_is_seen tableSerde nobody 16 greeting greetingEnd
    (Option.some_get _).symm 0 1 p q hp hq a b ha hb c hc
  exact ⟨p,List.mem_of_getElem? hp,ej,(Prod.mk.inj hpl).2,hsub⟩

end RustChat.Terminals
