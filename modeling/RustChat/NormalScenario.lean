import RustChat.Cleanup
import RustChat.NormalBots
import RustChat.Terminals

/-!
# A scenario of normal bots

`run_single_scenario` in mode `normal` or `spammer` against the server: every
move brings the bots and the server further, there are only so many of them,
and when none is left each bot has had all of its messages back.
-/

set_option autoImplicit false

namespace RustChat.NormalScenario
open Runs TaskPool Protocol Text ServerLine RecvLoop Hub Footprint Delivery FrameRoundTrip TitleUnderflow
open Handler HandlerSteps World NormalBots

/-! ## The log is short -/

theorem length_le_kinds {β : Type*} (kind : β → ℕ) (b n : ℕ) (l : List β) (h : ∀ x ∈ l, kind x < n)
    (hb : ∀ k < n, l.countP (fun x => kind x = k) ≤ b) : l.length ≤ n*b := by
  induction n generalizing l with
  | zero =>
    cases l with
    | nil => exact Nat.zero_le _
    | cons x l => exact absurd (h x List.mem_cons_self) (Nat.not_lt_zero _)
  | succ n ih =>
    have hsplit := List.length_eq_countP_add_countP (fun x => decide (kind x = n)) (l := l)
    have hlast := hb n (Nat.lt_succ_self n)
    have hrest := ih (l.filter fun x => decide ¬ kind x = n) (fun x hx => ?_) (fun k hk => ?_)
    · rw [← List.countP_eq_length_filter] at hrest
      simp only [decide_eq_true_eq] at hsplit
      rw [Nat.succ_mul]
      omega
    · obtain ⟨hmem,hne⟩ := List.mem_filter.mp hx
      have hlt := h x hmem
      have hne := of_decide_eq_true hne
      omega
    · exact (List.filter_sublist.countP_le).trans (hb k (Nat.lt_succ_of_lt hk))

theorem owned_length (id : ℕ) (log : List BroadcastEvent) (h : ∀ e ∈ log, plainEvent e = true) :
    log.countP (fun e => owner e = some id) = (presences id log).length+(chats id log).length := by
  unfold presences chats
  rw [List.length_filterMap_eq_countP, List.length_filterMap_eq_countP]
  induction log with
  | nil => rfl
  | cons e log ih =>
    have ih := ih fun x hx => h x (List.mem_cons_of_mem _ hx)
    have he := h e List.mem_cons_self
    have hone : (if decide (owner e = some id) = true then 1 else 0) =
        (if (presenceOf id e).isSome = true then 1 else 0)+(if (chatOf id e).isSome = true then 1 else 0) := by
      rcases e with (_ | ⟨sender,_⟩ | _ | ⟨sender,_⟩ | _) | _ <;>
        first | (by_cases hs : sender = id <;> simp [owner, presenceOf, chatOf, hs]) | simp [plainEvent] at he
    rw [List.countP_cons, List.countP_cons, List.countP_cons, hone, ih]
    omega

theorem said_length (nick : Option String) (msgs : List ClientMsg) : (said nick msgs).length ≤ msgs.length := by
  induction msgs generalizing nick with
  | nil => simp [said]
  | cons msg msgs ih =>
    have ih := ih (nickAfter nick msg)
    have hone : (saying nick msg).length ≤ 1 := by cases msg <;> simp [saying]
    simp only [said, List.length_append, List.length_cons]
    omega

theorem announced_length (p : Handler.Phase) : (announced p).length ≤ 2 := by
  cases p with
  | returned ok => cases ok <;> simp [announced]
  | _ => simp [announced]

/-- All facts about the state of a scenario. -/
structure Scene (serde : Serde) (line : ServerMsg → String) (count msgCount cap : ℕ)
    (s : World.State Bot) : Prop where
  scripted : ∀ (k : ℕ) p, s.peers[k]? = some p → Scripted line msgCount p
  paired : Paired serde s
  playing : Playing count s
  hub : ∃ bs, run (Hub.step cap) bs Hub.init = some s.hub

theorem run_scene (serde : Serde) (line : ServerMsg → String) (hserde : Compact serde)
    (count msgCount cap : ℕ) (hz : Sized count msgCount cap) (as : List (World.Action ℕ UInt64))
    (s : World.State Bot)
    (hg : Undisturbed serde line count msgCount cap as World.init)
    (h : run (botStep serde line msgCount cap) as World.init = some s) :
    Scene serde line count msgCount cap s :=
  ⟨fun k p hp => run_scripted serde line msgCount cap hz.some as s h k p hp,
    run_paired serde (normal line msgCount) cap as s h,
    run_playing serde line hserde count msgCount cap hz as s hg h,
    run_hub serde (normal line msgCount) cap as s h⟩

variable {serde : Serde} {line : ServerMsg → String} {count msgCount cap : ℕ} {s : World.State Bot}

theorem scene_conn (hs : Scene serde line count msgCount cap s) (k : ℕ) (p : Peer Bot)
    (hp : s.peers[k]? = some p) : ∃ c, s.hub.tasks[k]? = some c := by
  have hk := (List.getElem?_eq_some_iff.mp hp).1
  exact ⟨_,List.getElem?_eq_getElem (hs.paired.1 ▸ hk)⟩

theorem scene_peer (hs : Scene serde line count msgCount cap s) (k : ℕ) (c : Conn)
    (hc : s.hub.tasks[k]? = some c) : ∃ p, s.peers[k]? = some p := by
  have hk := (List.getElem?_eq_some_iff.mp hc).1
  exact ⟨_,List.getElem?_eq_getElem (hs.paired.1 ▸ hk)⟩

theorem sent_length (p : Peer Bot) (hp : Scripted line msgCount p) : p.sent.length ≤ msgCount := by
  obtain ⟨clocks,hlen,hsent⟩ := hp.sent
  have hcounts := hp.counts
  rw [hsent, List.length_map, botSends, List.length_mapIdx, hlen]
  cases hstage : p.prog.stage <;> simp_all [sentCount, AtStage]

theorem scene_fits (hserde : Compact serde) (hz : Sized count msgCount cap)
    (hs : Scene serde line count msgCount cap s) (k : ℕ) (p : Peer Bot) (hp : s.peers[k]? = some p)
    (msg : ClientMsg) (hmsg : msg ∈ messages p.sent) : fits serde msg = true := by
  obtain ⟨item,hitem,hm⟩ := List.mem_filterMap.mp hmsg
  obtain ⟨i,hi⟩ := List.mem_iff_getElem?.mp hitem
  obtain ⟨seq,clientTs,rfl,hseq,hts⟩ := sent_items line msgCount p (hs.scripted k p hp) i item hi
  have hid := hs.playing.below p (List.mem_of_getElem? hp)
  obtain ⟨hcount,hmsgs⟩ := sized_ids count msgCount cap hz _ hid
  cases hm
  exact chat_fits serde hserde p.prog.id seq clientTs (by omega) (by omega) (by omega)

theorem scene_parsed (hserde : Compact serde) (hz : Sized count msgCount cap)
    (hs : Scene serde line count msgCount cap s) (k : ℕ) (p : Peer Bot) (c : Conn) (hp : s.peers[k]? = some p)
    (hc : s.hub.tasks[k]? = some c) : c.parsed = messages (p.sent.take p.taken) := by
  rw [(hs.paired.2 k p c hp hc).parsed, List.filter_eq_self]
  intro msg hmsg
  exact scene_fits hserde hz hs k p hp msg (((List.take_prefix _ _).filterMap message).subset hmsg)

theorem parsed_length (hserde : Compact serde) (hz : Sized count msgCount cap)
    (hs : Scene serde line count msgCount cap s) (k : ℕ) (c : Conn) (hc : s.hub.tasks[k]? = some c) :
    c.parsed.length ≤ msgCount := by
  obtain ⟨p,hp⟩ := scene_peer hs k c hc
  have hsent := sent_length p (hs.scripted k p hp)
  have htake : (messages (p.sent.take p.taken)).length ≤ (p.sent.take p.taken).length :=
    List.length_filterMap_le _ _
  rw [scene_parsed hserde hz hs k p c hp hc]
  rw [List.length_take] at htake
  omega

theorem peers_few (hs : Scene serde line count msgCount cap s) : s.peers.length ≤ count := by
  have hle := LossCheck.nodup_length_le _ count hs.playing.distinct fun id hid => by
    obtain ⟨p,hp,rfl⟩ := List.mem_map.mp hid
    exact hs.playing.below p hp
  simpa using hle

theorem log_short (hserde : Compact serde) (hz : Sized count msgCount cap)
    (hs : Scene serde line count msgCount cap s) : s.hub.shared.tx.length ≤ count*(msgCount+2) := by
  obtain ⟨bs,hb⟩ := hs.hub
  have hknown := run_known cap bs s.hub hb
  refine (length_le_kinds (fun e => (owner e).getD 0-1) (msgCount+2) s.hub.tasks.length _ ?_ ?_).trans ?_
  · intro e he
    obtain ⟨id,hid⟩ : ∃ id, owner e = some id := by
      have hplain := hs.playing.calm.events e he
      rcases e with (_ | _ | _ | _ | _) | _ <;> simp_all [plainEvent, owner]
    have hrange := hknown.events e he id hid
    simp only [hid, Option.getD_some]
    omega
  · intro k hk
    have hc := List.getElem?_eq_getElem hk
    have htrace := run_trace cap bs s.hub hb k _ hc
    have hcount := owned_length (k+1) s.hub.shared.tx hs.playing.calm.events
    have hsame : s.hub.shared.tx.countP (fun e => (owner e).getD 0-1 = k) =
        s.hub.shared.tx.countP fun e => owner e = some (k+1) := by
      refine List.countP_congr fun e he => ?_
      have hplain := hs.playing.calm.events e he
      have hrange := hknown.events e he
      cases ho : owner e with
      | none => rcases e with (_ | _ | _ | _ | _) | _ <;> simp_all [plainEvent, owner]
      | some id =>
        have hid := hrange id ho
        simp only [Option.getD_some, decide_eq_true_eq, Option.some.injEq]
        omega
    have hpres := announced_length s.hub.tasks[k].phase
    have hsaid := said_length none s.hub.tasks[k].parsed
    have hparsed := parsed_length hserde hz hs k _ hc
    have hpresence := congrArg List.length htrace.presence
    have hchat := congrArg List.length htrace.chat
    rw [hknown.numbered k _ hc] at hpresence hchat
    rw [List.length_append] at hchat
    omega
  · rw [← hs.paired.1]
    exact Nat.mul_le_mul_right _ (peers_few hs)

/-! ## Every move is progress -/

/-- How far a handler has come: four steps for each message, then the exit. -/
def handlerRank (c : Conn) : ℕ :=
  match c.phase with
  | .spawned => 0
  | .subscribed => 1
  | .joined _ => 2
  | .welcoming _ => 3
  | .handling _ => 4*c.parsed.length+1
  | .chatting _ _ _ => 4*c.parsed.length+2
  | .chatted => 4*c.parsed.length+3
  | .reading => 4*c.parsed.length+4
  | .exiting => 4*c.parsed.length+5
  | .leaving => 4*c.parsed.length+6
  | .left => 4*c.parsed.length+7
  | .returned _ => 4*c.parsed.length+8
  | _ => 0

/-- How far its write task has come on a log that stays within `room`. -/
def writerRank (room : ℕ) (c : Conn) : ℕ :=
  if c.writer = .stopped then 2*room+1 else (c.rx.map Broadcast.Receiver.next).getD 0+c.lines.length

def connRank (room : ℕ) (c : Conn) : ℕ := handlerRank c+writerRank room c

def peerRank (msgCount : ℕ) (p : Peer Bot) : ℕ :=
  (match p.prog.stage with
    | .sending seq => seq
    | _ => msgCount+1)+p.heard.length

def rank (msgCount room : ℕ) (s : World.State Bot) : ℕ :=
  s.peers.length+(s.hub.tasks.map (connRank room)).sum+(s.peers.map (peerRank msgCount)).sum

theorem lines_le_next (cap : ℕ) (sh : Shared) (c : Conn) (hf : Fed cap sh c) :
    c.lines.length ≤ (c.rx.map Broadcast.Receiver.next).getD 0 ∧
      (c.rx.map Broadcast.Receiver.next).getD 0 ≤ sh.tx.length := by
  cases hr : c.rx with
  | none =>
    have hp := hf.unsubscribed.mpr hr
    simp [hf.unstarted (hf.before (by simp [hp, NotWelcomed]))]
  | some r =>
    obtain ⟨hle,_,got,hd,hpre,_⟩ := hf.cursor r hr
    have hlen := hpre.length_le
    have htotal := hd.total
    rw [positions, List.length_map] at hlen
    simp only [Option.map_some, Option.getD_some]
    omega

theorem handler_rises (cap room : ℕ) (sh : Shared) (b : Bot) (c : Conn) (i : Input) (e : Effect) (c' : Conn)
    (h : HandlerStep sh c i e c') (hi : mayTake b c i = true) (hc : Attended b c) (hf : Fed cap sh c) :
    connRank room c < connRank room c' := by
  have hphase := hc.phase
  unfold connRank
  cases h with
  | subscribe clock h =>
    have hrx := hf.unsubscribed.mp h
    have hw := hf.before (by simp [h, NotWelcomed])
    simp only [handlerRank, writerRank, h, hw, hrx, reduceCtorEq, if_false, Option.map_none, Option.map_some,
      Option.getD_none, Option.getD_some]
    omega
  | welcome clock n h =>
    have hw := hf.before (by simp [h, NotWelcomed])
    simp only [handlerRank, writerRank, h, hw, reduceCtorEq, if_false]
    omega
  | parse msg h =>
    simp only [handlerRank, writerRank, h, List.length_append, List.length_singleton]
    omega
  | skip h | fail n h => simp [mayTake, Settling.own] at hi
  | disconnect clock prev h hv => simp [hc.vote] at hv
  | rename | add | replace | record | withdraw | nothing | unvote | load | publish | resume =>
    simp_all [chatOnly]
  | _ => simp [handlerRank, writerRank, *]

theorem writer_rises (cap room : ℕ) (sh : Shared) (b : Bot) (c : Conn) (i : Input) (c' : Conn)
    (h : WriterStep cap sh c i c') (hi : mayTake b c i = true) (hf : Fed cap sh c) (hroom : sh.tx.length ≤ room)
    (hlive : i = .writeError → c.writer ≠ .stopped) : connRank room c < connRank room c' := by
  have hlines := lines_le_next cap sh c hf
  unfold connRank
  cases h with
  | event r r' pos msg hw hr hrecv =>
    obtain ⟨_,_,_,rfl⟩ := Broadcast.recv_event cap sh.tx r r' pos _ hrecv
    simp only [handlerRank, writerRank, hw, hr, reduceCtorEq, if_false, Option.map_some, Option.getD_some]
    omega
  | shutdown r r' pos hw hr hrecv =>
    simp only [handlerRank, writerRank, hw, reduceCtorEq, if_false, if_true]
    omega
  | lagged r r' n hw hr hrecv =>
    obtain ⟨hfar,_,rfl⟩ := Broadcast.recv_lagged cap sh.tx r r' n hrecv
    simp only [handlerRank, writerRank, hw, hr, reduceCtorEq, if_false, Option.map_some, Option.getD_some]
    omega
  | written pos msg hw =>
    simp only [handlerRank, writerRank, hw, reduceCtorEq, if_false, List.length_append, List.length_singleton]
    omega
  | stop i hi' hw =>
    have hne : c.writer ≠ .stopped := by
      rcases hi' with rfl | rfl | rfl
      · exact hlive rfl
      · simp [mayTake, Settling.own] at hi
      · simpa [mayTake] using hi
    simp only [handlerRank, writerRank, if_neg hne, if_true]
    omega

theorem conn_bound (cap room m : ℕ) (sh : Shared) (c : Conn) (hf : Fed cap sh c) (hroom : sh.tx.length ≤ room)
    (hparsed : c.parsed.length ≤ m) : connRank room c ≤ 4*m+2*room+9 := by
  have hlines := lines_le_next cap sh c hf
  have hhandler : handlerRank c ≤ 4*c.parsed.length+8 := by
    unfold handlerRank
    split <;> omega
  have hwriter : writerRank room c ≤ 2*room+1 := by
    unfold writerRank
    split_ifs <;> omega
  unfold connRank
  omega

theorem writeError_writing (cap : ℕ) (s t : Hub.State) (k : ℕ) (c : Conn) (hc : s.tasks[k]? = some c)
    (h : Hub.step cap s (.conn k .writeError) = some t) : c.writer ≠ .stopped := by
  obtain ⟨d,sh,c',fs,hd,hn,_⟩ := move_cases (Hub.next cap) s t k .writeError h
  obtain rfl : c = d := Option.some.inj (hc.symm.trans hd)
  intro hw
  simp [Hub.next, act, hw] at hn

theorem hub_rises (cap room : ℕ) (s t : Hub.State) (a : Hub.Action) (h : Hub.step cap s a = some t)
    (hs : Calm s.shared) (hroom : s.shared.tx.length ≤ room) (hspawn : a ≠ .spawn) (hdown : a ≠ .shutdown)
    (hf : ∀ (k : ℕ) c, s.tasks[k]? = some c → Fed cap s.shared c)
    (hmay : ∀ k i c, a = .conn k i → s.tasks[k]? = some c → ∃ b, mayTake b c i = true ∧ Attended b c) :
    t.tasks.length = s.tasks.length ∧
      (s.tasks.map (connRank room)).sum < (t.tasks.map (connRank room)).sum := by
  cases step_hub cap s a t h with
  | spawn => exact absurd rfl hspawn
  | shutdown => exact absurd rfl hdown
  | throttle k clock u hu =>
    obtain ⟨v,_,_,_,hv,_⟩ := move_cases Throttle.next s.shared.throttle u k clock hu
    simp [hs.idle] at hv
  | handler k i c c' e hc hh =>
    obtain ⟨b,hi,hatt⟩ := hmay k i c rfl hc
    have hup := handler_rises cap room s.shared b c i e c' hh hi hatt (hf k c hc)
    have hset := sum_map_set (connRank room) s.tasks k c c' hc
    exact ⟨List.length_set,by dsimp only; omega⟩
  | writer k i c c' hc hw =>
    obtain ⟨b,hi,hatt⟩ := hmay k i c rfl hc
    have hup := writer_rises cap room s.shared b c i c' hw hi (hf k c hc) hroom fun he => by
      subst he
      exact writeError_writing cap s _ k c hc h
    have hset := sum_map_set (connRank room) s.tasks k c c' hc
    exact ⟨List.length_set,by dsimp only; omega⟩

theorem act_rises (p : Peer Bot) (hp : Scripted line msgCount p) (now : UInt64) (q : Bot) (items : List Item)
    (h : (normal line msgCount).act p.prog now = some (q,items)) :
    peerRank msgCount p < peerRank msgCount { p with prog := q, sent := p.sent++items } := by
  have hcounts := hp.counts
  cases hstage : p.prog.stage with
  | receiving n | ended n => simp [normal, hstage] at h
  | sending seq =>
    simp only [hstage, AtStage] at hcounts
    simp only [normal, hstage] at h
    split_ifs at h <;> cases h <;> simp only [peerRank, hstage] <;> omega

theorem hear_rises (p : Peer Bot) (msg : ServerMsg) (q : Bot) (h : (normal line msgCount).hear p.prog msg = some q) :
    peerRank msgCount p < peerRank msgCount { p with prog := q, heard := p.heard++[msg] } := by
  cases hstage : p.prog.stage with
  | sending n | ended n => simp [normal, hstage] at h
  | receiving n =>
    simp only [normal, hstage, Option.some.injEq, onLine] at h
    subst h
    simp only [peerRank, hstage, List.length_append, List.length_singleton]
    split_ifs
    · dsimp only
      omega
    · dsimp only
      omega
    · simp only [hstage]
      omega

theorem step_rises (hserde : Compact serde) (hz : Sized count msgCount cap)
    (hs : Scene serde line count msgCount cap s) (a : World.Action ℕ UInt64) (t : World.State Bot)
    (ha : allowed count s a = true) (h : botStep serde line msgCount cap s a = some t) :
    rank msgCount (count*(msgCount+2)) s < rank msgCount (count*(msgCount+2)) t := by
  obtain ⟨bs,hb⟩ := hs.hub
  have hroom := log_short hserde hz hs
  have hmove : ∀ a hub, Hub.step cap s.hub a = some hub → a ≠ .spawn → a ≠ .shutdown →
      (∀ k i p c, a = .conn k i → s.peers[k]? = some p → s.hub.tasks[k]? = some c →
        mayTake p.prog c i = true) →
      (s.hub.tasks.map (connRank (count*(msgCount+2)))).sum <
        (hub.tasks.map (connRank (count*(msgCount+2)))).sum := by
    intro a hub hh hspawn hdown hmay
    refine (hub_rises cap _ s.hub hub a hh hs.playing.calm hroom hspawn hdown (run_fed cap bs s.hub hb)
      fun k i c ha hc => ?_).2
    obtain ⟨p,hp⟩ := scene_peer hs k c hc
    exact ⟨p.prog,hmay k i p c ha hp hc,hs.playing.attended k p c hp hc⟩
  unfold rank
  cases step_world serde (normal line msgCount) cap s a t h with
  | connect x hub hh =>
    cases Hub.step_hub cap s.hub .spawn hub hh
    simp only [List.length_append, List.length_singleton, List.map_append, List.sum_append]
    omega
  | line k p item hub hp hi hh =>
    obtain ⟨seq,clientTs,hdec⟩ := sent_decoded serde line hserde count msgCount cap hz p (hs.scripted k p hp)
      (hs.playing.below p (List.mem_of_getElem? hp)) _ item hi
    have hup := hmove _ hub hh (by simp) (by simp) fun j i q c hj _ _ => by
      cases hj
      simp [hdec, mayTake]
    have hsame := map_set_same (peerRank msgCount) s.peers k p { p with taken := p.taken+1 } hp rfl
    dsimp only
    rw [hsame, List.length_set]
    omega
  | hub b hub hin hh =>
    have hup := hmove b hub hh (by rintro rfl; simp [World.inner] at hin)
      (by rintro rfl; simp [allowed, Settling.own] at ha)
      fun k i p c hbk hp hc => by
        subst hbk
        exact allowed_mayTake count s k i p c ha hp hc
    dsimp only
    omega
  | act k now p q items hp hact =>
    have hup := act_rises p (hs.scripted k p hp) now q items hact
    have hset := sum_map_set (peerRank msgCount) s.peers k p { p with prog := q, sent := p.sent++items } hp
    dsimp only
    rw [List.length_set]
    omega
  | hear k p c msg q hp hc hm hhear =>
    have hup := hear_rises p msg q hhear
    have hset := sum_map_set (peerRank msgCount) s.peers k p { p with prog := q, heard := p.heard++[msg] } hp
    dsimp only
    rw [List.length_set]
    omega

theorem sum_le_bound {β : Type*} (f : β → ℕ) (b : ℕ) (l : List β) (h : ∀ x ∈ l, f x ≤ b) :
    (l.map f).sum ≤ l.length*b := by
  have hle := List.sum_le_card_nsmul (l.map f) b (List.forall_mem_map.mpr h)
  rwa [List.length_map, smul_eq_mul] at hle

theorem rank_bound (hserde : Compact serde) (hz : Sized count msgCount cap)
    (hs : Scene serde line count msgCount cap s) :
    rank msgCount (count*(msgCount+2)) s ≤ count*(5*msgCount+3*(count*(msgCount+2))+12) := by
  obtain ⟨bs,hb⟩ := hs.hub
  have hroom := log_short hserde hz hs
  have hfew := peers_few hs
  have hconns := sum_le_bound (connRank (count*(msgCount+2))) _ s.hub.tasks fun c hc => by
    obtain ⟨k,hk⟩ := List.mem_iff_getElem?.mp hc
    exact conn_bound cap _ msgCount s.hub.shared c (run_fed cap bs s.hub hb k c hk) hroom
      (parsed_length hserde hz hs k c hk)
  have hpeers := sum_le_bound (peerRank msgCount) (msgCount+2+count*(msgCount+2)) s.peers fun p hp => by
    obtain ⟨k,hk⟩ := List.mem_iff_getElem?.mp hp
    obtain ⟨c,hc⟩ := scene_conn hs k p hk
    have hheard := (hs.paired.2 k p c hk hc).heard.length_le
    have hlines := lines_le_next cap s.hub.shared c (run_fed cap bs s.hub hb k c hc)
    have hstage : (match p.prog.stage with
        | .sending seq => seq
        | _ => msgCount+1) ≤ msgCount+1 := by
      have hcounts := (hs.scripted k p hk).counts
      cases hst : p.prog.stage <;> simp_all only [AtStage] <;> omega
    have hwelcome : (sentLines c).length ≤ 1+c.lines.length := by
      have hone : c.welcome.toList.length ≤ 1 := by cases c.welcome <;> simp
      rw [sentLines, List.length_append, List.length_map, List.length_map]
      omega
    unfold peerRank
    omega
  rw [← hs.paired.1] at hconns
  have hgrow := Nat.mul_le_mul_right (5*msgCount+3*(count*(msgCount+2))+12) hfew
  have hsum : s.peers.length+s.peers.length*(4*msgCount+2*(count*(msgCount+2))+9)+
      s.peers.length*(msgCount+2+count*(msgCount+2)) =
      s.peers.length*(5*msgCount+3*(count*(msgCount+2))+12) := by ring
  unfold rank
  omega

/-! ## Whose echo it is -/

theorem said_chats {β : Type*} (text : β → String) (clientTs : β → ℕ) (nick : Option String) (xs : List β) :
    said nick (xs.map fun x => .chat (text x) (clientTs x)) = xs.map fun x => (nick,text x,clientTs x) := by
  induction xs with
  | nil => rfl
  | cons x xs ih => exact congrArg (_::·) ih

/-- What a bot says: its messages in order, without a name. -/
def sayings (id : ℕ) (clocks : List UInt64) : List Saying :=
  clocks.mapIdx fun seq now => (none,chatText id seq,now.toNat)

theorem said_botSends (id : ℕ) (clocks : List UInt64) : said none (botSends id clocks) = sayings id clocks := by
  rw [botSends, sayings, List.mapIdx_eq_zipIdx_map, List.mapIdx_eq_zipIdx_map]
  exact said_chats (fun x : UInt64 × ℕ => chatText id x.2) (fun x => x.1.toNat) none _

/-- Everything on the channel is a Presence or a message of a bot, under the id
of the handler of that bot. -/
theorem voiced (hserde : Compact serde) (hz : Sized count msgCount cap)
    (hs : Scene serde line count msgCount cap s) (msg : ServerMsg) (hmsg : .server msg ∈ s.hub.shared.tx) :
    (∃ id joined, msg = .presence id joined) ∨ ∃ k p seq sentAt clientTs, s.peers[k]? = some p ∧
      msg = .chat (k+1) none (chatText p.prog.id seq) sentAt clientTs := by
  obtain ⟨bs,hb⟩ := hs.hub
  have hplain := hs.playing.calm.events _ hmsg
  cases msg with
  | welcome | voteSnapshot | error => simp [plainEvent] at hplain
  | presence id joined => exact Or.inl ⟨id,joined,rfl⟩
  | chat sender nick text sentAt clientTs =>
    have hknown := run_known cap bs s.hub hb
    obtain ⟨h1,hle⟩ := hknown.events _ hmsg sender rfl
    have hc := List.getElem?_eq_getElem (by omega : sender-1 < s.hub.tasks.length)
    obtain ⟨p,hp⟩ := scene_peer hs _ _ hc
    have hid := hknown.numbered _ _ hc
    have hmem : (nick,text,clientTs) ∈ chats sender s.hub.shared.tx :=
      List.mem_filterMap.mpr ⟨_,hmsg,by simp [chatOf]⟩
    have hsaid := (run_trace cap bs s.hub hb _ _ hc).chat
    rw [hid, Nat.sub_add_cancel h1] at hsaid
    obtain ⟨clocks,_,hsent⟩ := (hs.scripted _ p hp).sent
    have hparsed := scene_parsed hserde hz hs _ p _ hp hc
    rw [hsent, ← List.map_take, messages_bot] at hparsed
    have hall : (nick,text,clientTs) ∈ sayings p.prog.id clocks := by
      rw [← said_botSends]
      refine (Terminals.said_mono none _ _ (List.take_prefix p.taken _)).subset ?_
      rw [← hparsed, ← hsaid]
      exact List.mem_append_left _ hmem
    obtain ⟨seq,_,heq⟩ := List.mem_mapIdx.mp hall
    obtain ⟨rfl,rfl,rfl⟩ : none = nick ∧ chatText p.prog.id seq = text ∧ _ = clientTs := by
      simpa using heq
    exact Or.inr ⟨sender-1,p,seq,sentAt,_,hp,by rw [Nat.sub_add_cancel h1]⟩

theorem heard_source (hs : Scene serde line count msgCount cap s) (k : ℕ) (p : Peer Bot)
    (hp : s.peers[k]? = some p) (msg : ServerMsg) (hmsg : msg ∈ p.heard) :
    (∃ n, msg = .welcome n) ∨ .server msg ∈ s.hub.shared.tx := by
  obtain ⟨bs,hb⟩ := hs.hub
  obtain ⟨c,hc⟩ := scene_conn hs k p hp
  have hline := (hs.paired.2 k p c hp hc).heard.subset hmsg
  rcases List.mem_append.mp hline with hw | hl
  · obtain ⟨n,_,rfl⟩ := List.mem_map.mp hw
    exact Or.inl ⟨n,rfl⟩
  · obtain ⟨l,hmem,rfl⟩ := List.mem_map.mp hl
    exact Or.inr (List.mem_of_getElem? ((run_fed cap bs s.hub hb k c hc).lines l hmem))

theorem distinct_index (hs : Scene serde line count msgCount cap s) (j k : ℕ) (p q : Peer Bot)
    (hp : s.peers[j]? = some p) (hq : s.peers[k]? = some q) (hid : p.prog.id = q.prog.id) : j = k := by
  have hj := (List.getElem?_eq_some_iff.mp hp).1
  refine (List.getElem?_inj (by simpa using hj) hs.playing.distinct).mp ?_
  simp [hp, hq, hid]

/-- What a bot can hear, and that it is an echo just if its own handler has sent it. -/
theorem heard_echo (hserde : Compact serde) (hz : Sized count msgCount cap)
    (hs : Scene serde line count msgCount cap s) (k : ℕ) (p : Peer Bot) (hp : s.peers[k]? = some p)
    (msg : ServerMsg) (hmsg : msg ∈ p.heard) :
    ∃ x : Heard, x.msg = msg ∧ (ownSeq p.prog.id x).isSome = (chatOf (k+1) (.server msg)).isSome := by
  rcases heard_source hs k p hp msg hmsg with ⟨n,rfl⟩ | hlog
  · exact ⟨.welcome n,rfl,rfl⟩
  · rcases voiced hserde hz hs msg hlog with ⟨id,joined,rfl⟩ | ⟨j,q,seq,sentAt,clientTs,hq,rfl⟩
    · exact ⟨.presence id joined,rfl,rfl⟩
    · refine ⟨.chat q.prog.id seq (j+1) sentAt clientTs,rfl,?_⟩
      by_cases hjk : j = k
      · subst hjk
        obtain rfl : q = p := Option.some.inj (hq.symm.trans hp)
        simp [ownSeq, chatOf]
      · have hne : q.prog.id ≠ p.prog.id := fun hid => hjk (distinct_index hs j k q p hq hp hid)
        simp [ownSeq, chatOf, hne, hjk]

theorem echoed_shown (percentages : Counts → List (List Char)) (hdoc : Documented line percentages)
    (hserde : Compact serde) (hz : Sized count msgCount cap) (hs : Scene serde line count msgCount cap s)
    (k : ℕ) (p : Peer Bot) (hp : s.peers[k]? = some p) :
    echoed line p = (Terminals.shown (k+1) p.heard).length := by
  rw [echoed, Terminals.shown, chats, List.length_filterMap_eq_countP, List.countP_map]
  refine List.countP_congr fun msg hmsg => ?_
  obtain ⟨x,rfl,hx⟩ := heard_echo hserde hz hs k p hp msg hmsg
  rw [contains_target line percentages hdoc, hx]
  rfl

theorem ended_sayings (percentages : Counts → List (List Char)) (hdoc : Documented line percentages)
    (hserde : Compact serde) (hz : Sized count msgCount cap) (hs : Scene serde line count msgCount cap s)
    (k : ℕ) (p : Peer Bot) (hp : s.peers[k]? = some p) (hend : p.prog.stage = .ended msgCount) :
    ∃ clocks, clocks.length = msgCount ∧ p.sent = (botSends p.prog.id clocks).map Item.bot ∧
      Terminals.shown (k+1) p.heard = sayings p.prog.id clocks := by
  obtain ⟨bs,hb⟩ := hs.hub
  obtain ⟨c,hc⟩ := scene_conn hs k p hp
  obtain ⟨⟨clocks,hlen,hsent⟩,hcounts⟩ := hs.scripted k p hp
  simp only [hend, sentCount, AtStage] at hlen hcounts
  have hlink := hs.paired.2 k p c hp hc
  have hsub := (Terminals.shown_said cap serde bs s.hub hb p p k k c c hc hc hlink hlink).1
  rw [List.filter_eq_self.mpr (scene_fits hserde hz hs k p hp), hsent, messages_bot, said_botSends,
    Hub.run_numbered cap bs s.hub hb k c hc] at hsub
  refine ⟨clocks,hlen,hsent,hsub.eq_of_length ?_⟩
  rw [← echoed_shown percentages hdoc hserde hz hs k p hp, sayings, List.length_mapIdx, hlen]
  exact hcounts.1.symm

/-! ## Where no move is left -/

/-- No allowed move is possible. -/
abbrev Over (serde : Serde) (line : ServerMsg → String) (count msgCount cap : ℕ) (s : World.State Bot) : Prop :=
  Stuck (botStep serde line msgCount cap) (fun s a => allowed count s a = true) s

variable (hover : Over serde line count msgCount cap s)
include hover

theorem over_hub (a : Hub.Action) (ha : allowed count s (.hub a) = true) (hin : World.inner a = true) :
    Hub.step cap s.hub a = none := by
  simpa [World.step, hin] using hover (.hub a) ha

theorem over_settled (hs : Scene serde line count msgCount cap s) : Settling.Settled s.hub := by
  obtain ⟨bs,hb⟩ := hs.hub
  refine Settling.stuck_settled cap bs s.hub hb fun a ha => over_hub hover a ?_ ?_
  · cases a with
    | conn k i => cases i <;> simp_all [Settling.own, allowed]
    | _ => simpa [allowed] using ha
  · cases a with
    | conn k i => cases i <;> simp_all [Settling.own, World.inner]
    | _ => simp_all [Settling.own, World.inner]

theorem over_everyone (hs : Scene serde line count msgCount cap s) :
    (s.peers.map fun p => p.prog.id).Perm (List.range count) := by
  refine (List.perm_ext_iff_of_nodup hs.playing.distinct List.nodup_range).mpr fun id => ?_
  rw [List.mem_range]
  constructor
  · intro hid
    obtain ⟨p,hp,rfl⟩ := List.mem_map.mp hid
    exact hs.playing.below p hp
  · intro hid
    by_contra hnew
    have hnone := hover (.connect id) (by simp only [allowed, hid, hnew]; simp)
    simp [World.step, Hub.step] at hnone

/-- A handler that waits has taken all that was sent. -/
theorem over_taken (hs : Scene serde line count msgCount cap s) (k : ℕ) (p : Peer Bot) (c : Conn)
    (hp : s.peers[k]? = some p) (hc : s.hub.tasks[k]? = some c) (hread : c.phase = .reading) :
    p.taken = p.sent.length := by
  have hle := (hs.paired.2 k p c hp hc).taken
  by_contra hne
  have hi := List.getElem?_eq_getElem (by omega : p.taken < p.sent.length)
  have hnone := hover (.line k) rfl
  simp only [World.step, hp, hi, Option.bind_some, Option.map_eq_none_iff] at hnone
  have hact := Settling.conn_stuck cap s.hub k c _ hc hnone
  cases hd : decodedItem serde p.sent[p.taken] <;> simp [act, hread, hd] at hact

theorem over_heard (hs : Scene serde line count msgCount cap s) (k : ℕ) (p : Peer Bot) (c : Conn)
    (hp : s.peers[k]? = some p) (hc : s.hub.tasks[k]? = some c) (n : ℕ)
    (hstage : p.prog.stage = .receiving n) : p.heard = sentLines c := by
  have hpre := (hs.paired.2 k p c hp hc).heard
  by_contra hne
  have hlt : p.heard.length < (sentLines c).length :=
    Nat.lt_of_le_of_ne hpre.length_le fun hlen => hne (hpre.eq_of_length hlen)
  have hnone := hover (.hear k) rfl
  simp [World.step, hp, hc, List.getElem?_eq_getElem hlt, normal, hstage] at hnone

theorem over_ended (percentages : Counts → List (List Char)) (hdoc : Documented line percentages)
    (hserde : Compact serde) (hz : Sized count msgCount cap) (hs : Scene serde line count msgCount cap s)
    (k : ℕ) (p : Peer Bot) (c : Conn) (hp : s.peers[k]? = some p) (hc : s.hub.tasks[k]? = some c) :
    p.prog.stage = .ended msgCount ∧ c.phase = .returned true := by
  obtain ⟨bs,hb⟩ := hs.hub
  have hset := over_settled hover hs
  have hatt := hs.playing.attended k p c hp hc
  have hscript := hs.scripted k p hp
  have hfed := run_fed cap bs s.hub hb k c hc
  cases hstage : p.prog.stage with
  | sending seq =>
    have hnone := hover (.act k 0) rfl
    simp only [World.step, hp, Option.bind_some, normal, hstage, Option.map_eq_none_iff] at hnone
    split_ifs at hnone
  | ended n =>
    have hcounts := hscript.counts
    simp only [hstage, AtStage] at hcounts
    refine ⟨by rw [hcounts.2],?_⟩
    rcases hset.handlers c (List.mem_of_getElem? hc) with hwait | ⟨ok,hok⟩
    · have hnone := over_hub hover (.conn k .eof) (by simp [allowed, hp, hasEnded, hstage]) rfl
      simpa [act, hwait.reading] using Settling.conn_stuck cap s.hub k c .eof hc hnone
    · have hphase := hatt.phase
      cases ok with
      | true => exact hok
      | false => simp [hok, chatOnly] at hphase
  | receiving n =>
    -- all has been sent, taken, said, written and heard, so the count is full
    have hcounts := hscript.counts
    simp only [hstage, AtStage] at hcounts
    obtain ⟨hloop,_,_⟩ := hatt.held (by simp [hasEnded, hstage])
    rcases hset.handlers c (List.mem_of_getElem? hc) with hwait | ⟨ok,hok⟩
    · obtain ⟨clocks,hlen,hsent⟩ := hscript.sent
      obtain ⟨r,hr,hend⟩ := hwait.drained
      have h0 : r.skipped = 0 := by
        rcases (hfed.cursor r hr).2.1 with h0 | hfar
        · exact h0
        · have hshort := log_short hserde hz hs
          have hroom := hz.room
          omega
      have hlink := hs.paired.2 k p c hp hc
      have htrace := run_trace cap bs s.hub hb k c hc
      have hall := (Terminals.shown_said cap serde bs s.hub hb p p k k c c hc hc hlink hlink).2 r hr h0
      have hsaid := hall.2 hset hwait (over_taken hover hs k p c hp hc hwait.reading)
        (over_heard hover hs k p c hp hc n hstage)
      rw [chats_other c.id _ (htrace.fresh r hr).2, List.nil_append,
        List.filter_eq_self.mpr (scene_fits hserde hz hs k p hp), hsent, messages_bot, said_botSends,
        Hub.run_numbered cap bs s.hub hb k c hc] at hsaid
      have hfull := echoed_shown percentages hdoc hserde hz hs k p hp
      simp only [hstage, sentCount] at hlen
      rw [hsaid, sayings, List.length_mapIdx, hlen] at hfull
      omega
    · simp [hok, inLoop] at hloop

omit hover

/-! ## The loss check -/

/-- What the bots meet in a run without failures, when this is what they hear. -/
def Met (s : World.State Bot) (input : ℕ → LossCheck.Input) : Prop :=
  ∀ p ∈ s.peers, (∀ i, (input p.prog.id).fails i = false) ∧ (input p.prog.id).heard.map Heard.msg = p.heard

theorem sendLoop_done (id : ℕ) (i : LossCheck.Input) (hok : ∀ j, i.fails j = false) (seq left : ℕ) :
    ∃ sent, LossCheck.sendLoop id i seq left = some sent := by
  induction left generalizing seq with
  | zero => exact ⟨[],rfl⟩
  | succ left ih =>
    obtain ⟨sent,hsent⟩ := ih (seq+1)
    exact ⟨_,by simp only [LossCheck.sendLoop, hok, hsent]; rfl⟩

theorem run_counts (id : ℕ) (i : LossCheck.Input) (hm : 0 < msgCount) (hok : ∀ j, i.fails j = false)
    (hheard : (i.heard.map Heard.msg).countP (fun msg => contains (line msg) (target id)) = msgCount) :
    ∃ outcome, LossCheck.run line id msgCount i = some outcome ∧ outcome.received.count = msgCount := by
  obtain ⟨sent,hsent⟩ := sendLoop_done id i hok 0 msgCount
  refine ⟨_,by simp only [LossCheck.run, hok, hsent]; rfl,?_⟩
  show (recvLoop (target id) msgCount 0 (LossCheck.arrivals line i)).count = msgCount
  rw [recvLoop_count, recvLoop_matched, LossCheck.arrived_arrivals, List.length_take,
    ← List.countP_eq_length_filter, List.countP_map]
  rw [List.countP_map] at hheard
  have hsame : i.heard.countP ((fun text => contains text (target id)) ∘ fun h => line h.msg) = msgCount := hheard
  omega

theorem recvCounter_full (line : ServerMsg → String) (msgCount : ℕ) (ended : List ℕ) (input : ℕ → LossCheck.Input)
    (hrun : ∀ id ∈ ended, ∃ outcome, LossCheck.run line id msgCount (input id) = some outcome ∧
      outcome.received.count = msgCount) (counter : ℕ)
    (hfit : counter+ended.length*msgCount < Allocation.u64Bound) :
    ended.foldl (LossCheck.addReceived line msgCount input) counter = counter+ended.length*msgCount := by
  induction ended generalizing counter with
  | nil => simp
  | cons id ended ih =>
    obtain ⟨outcome,ho,hcount⟩ := hrun id List.mem_cons_self
    rw [List.length_cons, Nat.succ_mul] at hfit ⊢
    have hadd : LossCheck.addReceived line msgCount input counter id = counter+msgCount := by
      simp only [LossCheck.addReceived, ho, hcount]
      exact Nat.mod_eq_of_lt (by omega)
    rw [List.foldl_cons, hadd, ih (fun j hj => hrun j (List.mem_cons_of_mem _ hj)) _ (by omega)]
    omega

theorem met_exists (hserde : Compact serde) (hz : Sized count msgCount cap)
    (hs : Scene serde line count msgCount cap s) : ∃ input, Met s input := by
  have hone : ∀ id, ∃ i : LossCheck.Input, ∀ p ∈ s.peers, p.prog.id = id →
      (∀ j, i.fails j = false) ∧ i.heard.map Heard.msg = p.heard := by
    intro id
    by_cases hid : ∃ p ∈ s.peers, p.prog.id = id
    · obtain ⟨p,hp,rfl⟩ := hid
      obtain ⟨k,hk⟩ := List.mem_iff_getElem?.mp hp
      have hall : ∀ msg ∈ p.heard, msg ∈ Set.range Heard.msg := fun msg hmsg => by
        obtain ⟨x,hx,_⟩ := heard_echo hserde hz hs k p hk msg hmsg
        exact ⟨x,hx⟩
      obtain ⟨xs,hxs⟩ : ∃ xs : List Heard, xs.map Heard.msg = p.heard := by
        rw [← Set.mem_range, Set.range_list_map]
        exact hall
      refine ⟨⟨fun _ => false,fun _ => 0,fun _ => 0,xs,.timeout⟩,fun q hq hqid => ?_⟩
      obtain ⟨j,hj⟩ := List.mem_iff_getElem?.mp hq
      obtain rfl := distinct_index hs j k q p hj hk hqid
      obtain rfl : q = p := Option.some.inj (hj.symm.trans hk)
      exact ⟨fun _ => rfl,hxs⟩
    · exact ⟨⟨fun _ => false,fun _ => 0,fun _ => 0,[],.timeout⟩,fun p hp hpid => absurd ⟨p,hp,hpid⟩ hid⟩
  choose input hinput using hone
  exact ⟨input,fun p hp => hinput p.prog.id p hp rfl⟩

/-- Every bot has had all of its messages back, once each and in the order in
which it sent them, its handler has gone, the room is empty, and the loss check
passes in whatever order the bots have ended. -/
structure Completed (line : ServerMsg → String) (count msgCount : ℕ) (s : World.State Bot) : Prop where
  everyone : (s.peers.map fun p => p.prog.id).Perm (List.range count)
  echoes : ∀ (k : ℕ) p, s.peers[k]? = some p → p.prog.stage = .ended msgCount ∧
    ∃ clocks, clocks.length = msgCount ∧ p.sent = (botSends p.prog.id clocks).map Item.bot ∧
      Terminals.shown (k+1) p.heard = sayings p.prog.id clocks
  gone : ∀ c ∈ s.hub.tasks, c.phase = .returned true
  empty : Room.clientCount s.hub.shared.clients = 0
  met : ∃ input, Met s input
  passes : ∀ input ended, Met s input → ended.Perm (List.range count) →
    LossCheck.lossCheck count msgCount (LossCheck.recvCounter line msgCount input ended) = true

theorem over_completed (percentages : Counts → List (List Char)) (hdoc : Documented line percentages)
    (hserde : Compact serde) (hz : Sized count msgCount cap) (hs : Scene serde line count msgCount cap s)
    (hover : Over serde line count msgCount cap s) :
    Completed line count msgCount s := by
  obtain ⟨bs,hb⟩ := hs.hub
  have heveryone := over_everyone hover hs
  have hgone : ∀ c ∈ s.hub.tasks, c.phase = .returned true := fun c hc => by
    obtain ⟨k,hk⟩ := List.mem_iff_getElem?.mp hc
    obtain ⟨p,hp⟩ := scene_peer hs k c hk
    exact (over_ended hover percentages hdoc hserde hz hs k p c hp hk).2
  have hend : ∀ (k : ℕ) p, s.peers[k]? = some p → p.prog.stage = .ended msgCount := fun k p hp => by
    obtain ⟨c,hc⟩ := scene_conn hs k p hp
    exact (over_ended hover percentages hdoc hserde hz hs k p c hp hc).1
  refine ⟨heveryone,fun k p hp => ⟨hend k p hp,ended_sayings percentages hdoc hserde hz hs k p hp (hend k p hp)⟩,
    hgone,?_,met_exists hserde hz hs,fun input ended hmet hperm => ?_⟩
  · have hle := Cleanup.count_le s.hub ((Cleanup.keys_owned s.hub (run_known cap bs s.hub hb)
      (run_trace cap bs s.hub hb)).mpr fun k c hc hp => by
        simp [hgone c (List.mem_of_getElem? hc)] at hp)
    have hnone : s.hub.tasks.filter (fun c => !Server.hasReturned c) = [] :=
      List.filter_eq_nil_iff.mpr fun c hc => by simp [Server.hasReturned, hgone c hc]
    rw [hnone] at hle
    exact Nat.le_zero.mp hle
  · have hlen : ended.length = count := by simpa using hperm.length_eq
    have htotal := hz.total
    have hfull := recvCounter_full line msgCount ended input (fun id hid => ?_) 0
      (by rw [hlen, Nat.zero_add]; exact htotal)
    · rw [LossCheck.lossCheck, LossCheck.recvCounter, hfull, hlen]
      simp
    · have hmem := (hperm.trans heveryone.symm).mem_iff.mp hid
      obtain ⟨p,hp,rfl⟩ := List.mem_map.mp hmem
      obtain ⟨k,hk⟩ := List.mem_iff_getElem?.mp hp
      obtain ⟨hok,hheard⟩ := hmet p hp
      have hcounts := (hs.scripted k p hk).counts
      simp only [hend k p hk, AtStage, echoed] at hcounts
      exact run_counts p.prog.id _ hz.some hok (by rw [hheard]; exact hcounts.1.symm)

def Reachable (serde : Serde) (line : ServerMsg → String) (count msgCount cap : ℕ) (s : World.State Bot) : Prop :=
  ∃ as, Undisturbed serde line count msgCount cap as World.init ∧
    run (botStep serde line msgCount cap) as World.init = some s

theorem scenario_descends (serde : Serde) (line : ServerMsg → String) (hserde : Compact serde)
    (count msgCount cap : ℕ) (hz : Sized count msgCount cap) :
    Descends (botStep serde line msgCount cap) (fun s a => allowed count s a = true)
      (Reachable serde line count msgCount cap)
      (fun s => count*(5*msgCount+3*(count*(msgCount+2))+12)-rank msgCount (count*(msgCount+2)) s) := by
  have hscene : ∀ s, Reachable serde line count msgCount cap s → Scene serde line count msgCount cap s := by
    rintro s ⟨as,hg,h⟩
    exact run_scene serde line hserde count msgCount cap hz as s hg h
  refine rising_descends _ _ _ _ ?_ ?_ fun s hs => rank_bound hserde hz (hscene s hs)
  · rintro s a t ⟨as,hg,h⟩ ha ht
    exact ⟨as++[a],(guarded_snoc _ as a World.init s h).mpr ⟨hg,ha⟩,(run_snoc as a World.init t).mpr ⟨s,h,ht⟩⟩
  · intro s a t hs ha ht
    exact step_rises hserde hz (hscene s hs) a t ha ht

/-- A scenario of normal bots, or of spammers, under every schedule of the bots,
the handlers and the write tasks. As long as no socket fails, no timeout strikes
and no one else connects: the moves are few, some run gets to where none is left,
and wherever none is left every bot has counted exactly its own messages, has
heard them in the order it sent them and has gone, and the loss check passes. -/
theorem normal_scenario_completes (serde : Serde) (line : ServerMsg → String)
    (percentages : Counts → List (List Char)) (hdoc : Documented line percentages) (hserde : Compact serde)
    (count msgCount cap : ℕ) (hz : Sized count msgCount cap) (as : List (World.Action ℕ UInt64))
    (s : World.State Bot)
    (hg : Undisturbed serde line count msgCount cap as World.init)
    (h : run (botStep serde line msgCount cap) as World.init = some s) :
    as.length ≤ count*(5*msgCount+3*(count*(msgCount+2))+12) ∧
    (∃ bs t, Undisturbed serde line count msgCount cap bs s ∧
      run (botStep serde line msgCount cap) bs s = some t ∧ Completed line count msgCount t) ∧
    (Over serde line count msgCount cap s →
      Completed line count msgCount s) := by
  have hd := scenario_descends serde line hserde count msgCount cap hz
  have hdone : ∀ as s, Undisturbed serde line count msgCount cap as World.init →
      run (botStep serde line msgCount cap) as World.init = some s → Over serde line count msgCount cap s →
      Completed line count msgCount s := fun as s hg h hover =>
    over_completed percentages hdoc hserde hz (run_scene serde line hserde count msgCount cap hz as s hg h) hover
  refine ⟨?_,?_,hdone as s hg h⟩
  · have hlen := descends_length _ _ _ hd as World.init s ⟨[],trivial,rfl⟩ hg h
    omega
  · obtain ⟨bs,t,hgb,ht,hover⟩ := descends_stuck _ _ _ hd s ⟨as,hg,h⟩
    refine ⟨bs,t,hgb,ht,hdone (as++bs) t ?_ ((run_append_some as bs World.init t).mpr ⟨s,h,ht⟩) hover⟩
    exact (guarded_append _ as bs World.init).mpr ⟨hg,fun m hm => Option.some.inj (h.symm.trans hm) ▸ hgb⟩

/-! ## Two bots -/

/-- Prints what is sent, and decodes what two bots send at one time. -/
def printedClient : Serde where
  toString msg := String.ofList (clientLayout msg)
  fromStr text := ([0,1].map fun id => ClientMsg.chat (chatText id 0) 7).find? fun msg =>
    clientLayout msg = text.toList

theorem printedClient_compact : Compact printedClient := fun _ _ _ => String.toList_ofList

theorem two_bots_complete :
    ∃ bs t, bs.length ≤ 70 ∧ run (botStep printedClient LossCheck.printed 1 16) bs World.init = some t ∧
      Completed LossCheck.printed 2 1 t := by
  have hz : Sized 2 1 16 := ⟨by decide,by decide,by decide⟩
  have hall := normal_scenario_completes printedClient LossCheck.printed LossCheck.zeroPercentages
    LossCheck.printed_documented printedClient_compact 2 1 16 hz
  obtain ⟨bs,t,hg,ht,hdone⟩ := (hall [] World.init trivial rfl).2.1
  exact ⟨bs,t,(hall bs t hg ht).1,ht,hdone⟩

end RustChat.NormalScenario
