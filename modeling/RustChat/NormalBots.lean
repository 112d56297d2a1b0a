import RustChat.LossCheck
import RustChat.Settling
import RustChat.World

/-!
# The bots of mode normal in a world

`normal::run`, and `spammer::run` which does the same, as the client program
of a world: all messages are sent before the first line is read. The handlers
such bots get never vote, rename or fail, and what they put on the channel is
small enough to be retained as a whole.
-/

set_option autoImplicit false

namespace RustChat.NormalBots
open Runs TaskPool Protocol Text Json Utf8 ServerLine Broadcast Hub Footprint Delivery FrameRoundTrip
open Handler HandlerSteps TitleUnderflow World

/-! ## The program -/

inductive Stage where
  | sending (seq : ℕ)
  | receiving (count : ℕ)
  | ended (received : ℕ)
  deriving DecidableEq, Repr

structure Bot where
  id : ℕ
  stage : Stage
  deriving DecidableEq, Repr

/-- One line of the receive loop. -/
def onLine (line : ServerMsg → String) (msgCount : ℕ) (b : Bot) (count : ℕ) (msg : ServerMsg) : Bot :=
  if contains (line msg) (target b.id) then
    if msgCount ≤ count+1 then { b with stage := .ended (count+1) }
    else { b with stage := .receiving (count+1) }
  else b

/-- `normal::run` of a bot that is connected. Its own moves read the clock. -/
def normal (line : ServerMsg → String) (msgCount : ℕ) : Program ℕ Bot UInt64 where
  start id := ⟨id,.sending 0⟩
  act b now :=
    match b.stage with
    | .sending seq =>
      if seq < msgCount then
        some ({ b with stage := .sending (seq+1) },[.bot (.chat (chatText b.id seq) now.toNat)])
      else some ({ b with stage := .receiving 0 },[])
    | _ => none
  hear b msg :=
    match b.stage with
    | .receiving count => some (onLine line msgCount b count msg)
    | _ => none

def hasEnded (b : Bot) : Bool :=
  match b.stage with
  | .ended _ => true
  | _ => false

/-- Only the bots move, each once connected, and the server on its own: nobody
else connects, no socket fails before its bot has ended, no timeout strikes and
no Ctrl-C comes. -/
def allowed (count : ℕ) (s : World.State Bot) : World.Action ℕ UInt64 → Bool
  | .connect id => decide (id < count) && decide (id ∉ s.peers.map fun p => p.prog.id)
  | .line _ | .act _ _ | .hear _ => true
  | .hub (.conn k i) =>
    match i with
    | .eof | .readError | .writeError => (s.peers[k]?).any fun p => hasEnded p.prog
    | .cancelled => (s.hub.tasks[k]?).any fun c => decide (c.writer ≠ .stopped)
    | i => Settling.own (.conn k i)
  | .hub a => Settling.own a

abbrev botStep (serde : Serde) (line : ServerMsg → String) (msgCount cap : ℕ) :
    World.State Bot → World.Action ℕ UInt64 → Option (World.State Bot) :=
  World.step serde (normal line msgCount) cap

abbrev Undisturbed (serde : Serde) (line : ServerMsg → String) (count msgCount cap : ℕ)
    (as : List (World.Action ℕ UInt64)) (s : World.State Bot) : Prop :=
  Guarded (botStep serde line msgCount cap) (fun s a => allowed count s a = true) as s

/-! ## The lines of the bots -/

/-- The layout that is derived for a message to the server. -/
def clientLayout : ClientMsg → List Char
  | .chat text clientTs =>
    object [("type",quote "chat".toList),("text",quote text.toList),("client_ts",decimal clientTs)]
  | .setNick name => object [("type",quote "set_nick".toList),("name",quote name.toList)]
  | .vote option => object [("type",quote "vote".toList),("option",decimal option)]
  | .unvote => object [("type",quote "unvote".toList)]

/-- What the bots rely on of `serde_json::to_string` at `ClientMsg`: a chat whose
text needs no escapes is printed in the derived layout. -/
def Compact (serde : Serde) : Prop :=
  ∀ text clientTs, Plain text.toList →
    (serde.toString (.chat text clientTs)).toList = clientLayout (.chat text clientTs)

theorem decimal_length (n : ℕ) (h : n < 10^20) : (decimal n).length ≤ 20 :=
  (Nat.length_toDigits_le_iff (by decide) (by decide)).mpr h

theorem asBytes_length (s : String) : (asBytes s).length ≤ 4*s.toList.length := by
  obtain ⟨cs,rfl⟩ := s.exists_eq_ofList
  rw [asBytes_ofList, String.toList_ofList]
  induction cs with
  | nil => simp
  | cons c cs ih =>
    have hc : (String.utf8EncodeChar c).length ≤ 4 := by
      rw [String.length_utf8EncodeChar]
      exact Char.utf8Size_le_four c
    rw [List.flatMap_cons, List.length_append, List.length_cons]
    omega

theorem chat_fits (serde : Serde) (hserde : Compact serde) (id seq clientTs : ℕ) (hid : id < 10^20)
    (hseq : seq < 10^20) (hts : clientTs < 10^20) :
    fits serde (.chat (chatText id seq) clientTs) = true := by
  have hplain : Plain (chatText id seq).toList := (heard_printable (.chat id seq 0 0 0)).1
  have hlen := asBytes_length (serde.toString (.chat (chatText id seq) clientTs))
  have hshort : (serde.toString (.chat (chatText id seq) clientTs)).toList.length ≤ 200 := by
    have h1 := decimal_length id hid
    have h2 := decimal_length seq hseq
    have h3 := decimal_length clientTs hts
    rw [hserde _ _ hplain, clientLayout, chatText_toList]
    simp only [object, commas, List.map_cons, List.map_nil, member, quote, List.length_append]
    have hlit : ("\x7b".toList.length = 1 ∧ "\x7d".toList.length = 1 ∧ "\"".toList.length = 1) ∧
      ",".toList.length = 1 ∧ ":".toList.length = 1 ∧ "type".toList.length = 4 ∧
      "chat".toList.length = 4 ∧ "text".toList.length = 4 ∧ "client_ts".toList.length = 9 ∧
      "bot_".toList.length = 4 ∧ "_msg_".toList.length = 5 := by decide
    omega
  refine decide_eq_true ?_
  unfold maxLineLen
  omega

/-! ## What a bot has done -/

/-- The lines heard that contain the target of the bot. -/
def echoed (line : ServerMsg → String) (p : Peer Bot) : ℕ :=
  p.heard.countP fun msg => contains (line msg) (target p.prog.id)

/-- The messages of a bot, with the clock at each. -/
def botSends (id : ℕ) (clocks : List UInt64) : List ClientMsg :=
  clocks.mapIdx fun seq now => .chat (chatText id seq) now.toNat

def sentCount (msgCount : ℕ) : Stage → ℕ
  | .sending seq => seq
  | _ => msgCount

def AtStage (msgCount echoed : ℕ) (heard : List ServerMsg) : Stage → Prop
  | .sending seq => seq ≤ msgCount ∧ heard = []
  | .receiving count => count = echoed ∧ count < msgCount
  | .ended received => received = echoed ∧ received = msgCount

structure Scripted (line : ServerMsg → String) (msgCount : ℕ) (p : Peer Bot) : Prop where
  sent : ∃ clocks, clocks.length = sentCount msgCount p.prog.stage ∧
    p.sent = (botSends p.prog.id clocks).map Item.bot
  counts : AtStage msgCount (echoed line p) p.heard p.prog.stage

theorem botSends_snoc (id : ℕ) (clocks : List UInt64) (now : UInt64) :
    botSends id (clocks++[now]) = botSends id clocks++[.chat (chatText id clocks.length) now.toNat] := by
  simp [botSends]

theorem scripted_act (line : ServerMsg → String) (msgCount : ℕ) (hm : 0 < msgCount) (p : Peer Bot)
    (now : UInt64) (q : Bot) (items : List Item) (hp : Scripted line msgCount p)
    (h : (normal line msgCount).act p.prog now = some (q,items)) :
    Scripted line msgCount { p with prog := q, sent := p.sent++items } := by
  obtain ⟨⟨clocks,hlen,hsent⟩,hcounts⟩ := hp
  cases hstage : p.prog.stage with
  | receiving count | ended received => simp [normal, hstage] at h
  | sending seq =>
    simp only [hstage, sentCount, AtStage] at hlen hcounts
    obtain ⟨hle,hheard⟩ := hcounts
    simp only [normal, hstage] at h
    split_ifs at h with hlt
    · cases h
      refine ⟨⟨clocks++[now],?_,?_⟩,?_⟩
      · simp [sentCount, hlen]
      · simp [botSends_snoc, hsent, hlen]
      · exact ⟨hlt,hheard⟩
    · cases h
      refine ⟨⟨clocks,?_,?_⟩,?_⟩
      · simp only [sentCount]
        omega
      · simp [hsent]
      · simp only [AtStage, echoed, hheard, List.countP_nil]
        exact ⟨trivial,hm⟩

theorem scripted_hear (line : ServerMsg → String) (msgCount : ℕ) (p : Peer Bot) (msg : ServerMsg) (q : Bot)
    (hp : Scripted line msgCount p) (h : (normal line msgCount).hear p.prog msg = some q) :
    Scripted line msgCount { p with prog := q, heard := p.heard++[msg] } := by
  obtain ⟨⟨clocks,hlen,hsent⟩,hcounts⟩ := hp
  cases hstage : p.prog.stage with
  | sending seq | ended received => simp [normal, hstage] at h
  | receiving count =>
    simp only [hstage, sentCount, AtStage, echoed] at hlen hcounts
    obtain ⟨hcount,hlt⟩ := hcounts
    simp only [normal, hstage, Option.some.injEq, onLine] at h
    split_ifs at h with hmatch hquota <;> subst h
    · refine ⟨⟨clocks,by simpa [sentCount] using hlen,hsent⟩,?_⟩
      simp only [AtStage, echoed, List.countP_append, List.countP_singleton, hmatch, if_true]
      omega
    · refine ⟨⟨clocks,by simpa [sentCount] using hlen,hsent⟩,?_⟩
      simp only [AtStage, echoed, List.countP_append, List.countP_singleton, hmatch, if_true]
      omega
    · refine ⟨⟨clocks,by simpa [hstage, sentCount] using hlen,hsent⟩,?_⟩
      simp only [hstage, AtStage, echoed, List.countP_append, List.countP_singleton, hmatch]
      exact ⟨by simpa using hcount,hlt⟩

theorem run_scripted (serde : Serde) (line : ServerMsg → String) (msgCount cap : ℕ) (hm : 0 < msgCount)
    (as : List (World.Action ℕ UInt64)) (s : World.State Bot)
    (h : run (botStep serde line msgCount cap) as World.init = some s) (k : ℕ) (p : Peer Bot)
    (hp : s.peers[k]? = some p) : Scripted line msgCount p :=
  run_peer serde (normal line msgCount) cap (Scripted line msgCount)
    (fun _ => ⟨⟨[],rfl,rfl⟩,Nat.zero_le _,rfl⟩) (fun _ _ hp => ⟨hp.sent,hp.counts⟩)
    (fun p m q items hp hact => scripted_act line msgCount hm p m q items hp hact)
    (fun p msg q hp hhear => scripted_hear line msgCount p msg q hp hhear) as s h k p hp

/-! ## The handlers of the bots -/

/-- The phases of a handler whose client only chats. -/
def chatOnly : Phase → Bool
  | .spawned | .subscribed | .joined _ | .welcoming _ | .reading | .handling (.chat _ _) => true
  | .chatting _ _ _ | .chatted | .exiting | .leaving | .left | .returned true => true
  | _ => false

def inLoop : Phase → Bool
  | .exiting | .leaving | .left | .returned _ => false
  | _ => true

/-- The handler has nothing to do with votes, and stays in its read loop until
the bot has ended. -/
structure Attended (b : Bot) (c : Conn) : Prop where
  phase : chatOnly c.phase = true
  vote : c.currentVote = none
  held : hasEnded b = false → inLoop c.phase = true ∧ c.aborted = false ∧ c.writer ≠ .stopped

def plainEvent : BroadcastEvent → Bool
  | .server (.chat _ _ _ _ _) | .server (.presence _ _) => true
  | _ => false

/-- Nothing is throttled, and there are only chats and Presences on the channel. -/
structure Calm (sh : Shared) : Prop where
  idle : sh.throttle.tasks = []
  events : ∀ e ∈ sh.tx, plainEvent e = true

/-- The inputs a handler gets in an allowed run. -/
def mayTake (b : Bot) (c : Conn) : Input → Bool
  | .line msg => msg.any fun m => match m with
    | .chat _ _ => true
    | _ => false
  | .eof | .readError | .writeError => hasEnded b
  | .cancelled => decide (c.writer ≠ .stopped)
  | i => Settling.own (.conn 0 i)

theorem handler_attended (sh : Shared) (b : Bot) (c : Conn) (i : Input) (e : Effect) (c' : Conn)
    (h : HandlerStep sh c i e c') (hi : mayTake b c i = true) (hc : Attended b c) :
    Attended b c' ∧ (∀ m, e ≠ .callThrottled m) ∧ ∀ x ∈ emitted e, plainEvent x = true := by
  obtain ⟨hphase,hvote,hheld⟩ := hc
  cases h with
  | fail n h | skip h => simp [mayTake, Settling.own] at hi
  | parse msg h =>
    cases msg with
    | chat text clientTs =>
      refine ⟨⟨rfl,hvote,fun hb => ?_⟩,by simp,by simp [emitted]⟩
      exact ⟨rfl,(hheld hb).2⟩
    | _ => simp [mayTake] at hi
  | stop i hi' h =>
    -- a live bot closes nothing, and its write task has not ended
    have hend : hasEnded b = true := by
      rcases hi' with rfl | rfl | ⟨rfl,hw⟩
      · exact hi
      · exact hi
      · by_contra hb
        exact (hheld (by simpa using hb)).2.2 hw
    exact ⟨⟨rfl,hvote,by simp [hend]⟩,by simp,by simp [emitted]⟩
  | disconnect clock prev h hv => simp [hvote] at hv
  | quit clock h hv =>
    refine ⟨⟨rfl,hvote,fun hb => ?_⟩,by simp,by simp [emitted]⟩
    simpa [h, inLoop] using hheld hb
  | leave clock h | farewell clock h =>
    refine ⟨⟨rfl,hvote,fun hb => ?_⟩,by simp,by simp [emitted, plainEvent]⟩
    simpa [h, inLoop] using hheld hb
  | welcome clock n h => exact ⟨⟨rfl,hvote,fun hb => ⟨rfl,(hheld hb).2.1,by simp⟩⟩,by simp,by simp [emitted]⟩
  | subscribe clock h | join clock h | announce clock n h | stamp clock text clientTs h
  | chat clock text clientTs sentAt h | tally clock h =>
    exact ⟨⟨rfl,hvote,fun hb => ⟨rfl,(hheld hb).2⟩⟩,by simp,by simp [emitted, plainEvent]⟩
  | rename | add | replace | record | withdraw | nothing | unvote | load | publish | resume =>
    simp_all [chatOnly]

theorem writer_attended (cap : ℕ) (sh : Shared) (b : Bot) (c : Conn) (i : Input) (c' : Conn)
    (h : WriterStep cap sh c i c') (hi : mayTake b c i = true) (hs : Calm sh)
    (haborted : i = .cancelled → c.aborted = true) (hc : Attended b c) : Attended b c' := by
  obtain ⟨hphase,hvote,hheld⟩ := hc
  cases h with
  | shutdown r r' pos hw hr hrecv =>
    have hlog := (recv_event cap sh.tx r r' pos _ hrecv).2.2.1
    simpa [plainEvent] using hs.events _ (List.mem_of_getElem? hlog)
  | stop i hi' hw =>
    refine ⟨hphase,hvote,fun hb => ?_⟩
    rcases hi' with rfl | rfl | rfl
    · simp [mayTake, hb] at hi
    · simp [mayTake, Settling.own] at hi
    · simp [haborted rfl] at hheld
      simp [hheld] at hb
  | event | lagged | written =>
    exact ⟨hphase,hvote,fun hb => ⟨(hheld hb).1,(hheld hb).2.1,by simp [*]⟩⟩

/-! ## The whole scenario -/

theorem cancelled_aborted (cap : ℕ) (s t : Hub.State) (k : ℕ) (c : Conn) (hc : s.tasks[k]? = some c)
    (h : Hub.step cap s (.conn k .cancelled) = some t) : c.aborted = true := by
  obtain ⟨d,sh,c',fs,hd,hn,_⟩ := move_cases (Hub.next cap) s t k .cancelled h
  obtain rfl : c = d := Option.some.inj (hc.symm.trans hd)
  simp only [Hub.next, act] at hn
  split_ifs at hn with ha
  · exact ha.1
  · cases hn

theorem hub_attended (cap : ℕ) (s t : Hub.State) (a : Hub.Action) (h : Hub.step cap s a = some t)
    (hs : Calm s.shared) (k : ℕ) (b : Bot) (c c' : Conn) (hc : s.tasks[k]? = some c)
    (hm : Moved cap s a k c c') (hmay : ∀ i, a = .conn k i → mayTake b c i = true)
    (hatt : Attended b c) : Attended b c' := by
  rcases hm with ⟨rfl,_⟩ | ⟨i,rfl,⟨e,hh⟩ | hw⟩
  · exact hatt
  · exact (handler_attended s.shared b c i e c' hh (hmay i rfl) hatt).1
  · refine writer_attended cap s.shared b c i c' hw (hmay i rfl) hs (fun hi => ?_) hatt
    subst hi
    exact cancelled_aborted cap s t k c hc h

theorem hub_calm (cap : ℕ) (s t : Hub.State) (a : Hub.Action) (h : Hub.step cap s a = some t)
    (hs : Calm s.shared) (hne : a ≠ .shutdown)
    (hmay : ∀ k i c, a = .conn k i → s.tasks[k]? = some c → ∃ b, mayTake b c i = true ∧ Attended b c) :
    Calm t.shared := by
  cases step_hub cap s a t h with
  | spawn | writer => exact hs
  | shutdown => exact absurd rfl hne
  | throttle k clock u hu =>
    obtain ⟨v,_,_,_,hv,_⟩ := move_cases Throttle.next s.shared.throttle u k clock hu
    simp [hs.idle] at hv
  | handler k i c c' e hc hh =>
    obtain ⟨b,hi,hatt⟩ := hmay k i c rfl hc
    obtain ⟨_,hcall,hsent⟩ := handler_attended s.shared b c i e c' hh hi hatt
    refine ⟨?_,fun x hx => ?_⟩
    · cases e with
      | callThrottled m => exact absurd rfl (hcall m)
      | _ => exact hs.idle
    · dsimp only at hx
      rw [apply_tx] at hx
      exact (List.mem_append.mp hx).elim (hs.events x) (hsent x)

theorem sent_items (line : ServerMsg → String) (msgCount : ℕ) (p : Peer Bot) (hp : Scripted line msgCount p)
    (i : ℕ) (item : Item) (hi : p.sent[i]? = some item) :
    ∃ seq clientTs, item = .bot (.chat (chatText p.prog.id seq) clientTs) ∧ seq < msgCount ∧ clientTs < 2^64 := by
  obtain ⟨clocks,hlen,hsent⟩ := hp.sent
  have hle : clocks.length ≤ msgCount := by
    have hcounts := hp.counts
    cases hstage : p.prog.stage <;> simp_all [sentCount, AtStage]
  rw [hsent, List.getElem?_map, botSends, List.getElem?_mapIdx] at hi
  obtain ⟨msg,hmsg,rfl⟩ := Option.map_eq_some_iff.mp hi
  obtain ⟨now,hnow,rfl⟩ := Option.map_eq_some_iff.mp hmsg
  have hlt := (List.getElem?_eq_some_iff.mp hnow).1
  exact ⟨i,now.toNat,rfl,by omega,now.toNat_lt⟩

/-- The size of a scenario: the room its messages take on the channel, and
that their number is a `u64`. -/
structure Sized (count msgCount cap : ℕ) : Prop where
  some : 0 < msgCount
  room : count*(msgCount+2) ≤ cap
  total : count*msgCount < 2^64

-- the defaults of the command line and `BROADCAST_CAP`
example : Sized 500 100 524288 := ⟨by decide,by decide,by decide⟩

theorem sized_ids (count msgCount cap : ℕ) (hz : Sized count msgCount cap) (id : ℕ) (hid : id < count) :
    count < 10^20 ∧ msgCount < 10^20 := by
  have hn := Nat.le_mul_of_pos_right count hz.some
  have hm := Nat.le_mul_of_pos_left msgCount (Nat.lt_of_le_of_lt (Nat.zero_le id) hid)
  have ht := hz.total
  omega

theorem sent_decoded (serde : Serde) (line : ServerMsg → String) (hserde : Compact serde)
    (count msgCount cap : ℕ) (hz : Sized count msgCount cap) (p : Peer Bot) (hp : Scripted line msgCount p)
    (hid : p.prog.id < count) (i : ℕ) (item : Item) (hi : p.sent[i]? = some item) :
    ∃ seq clientTs, decodedItem serde item = some (.chat (chatText p.prog.id seq) clientTs) := by
  obtain ⟨seq,clientTs,rfl,hseq,hts⟩ := sent_items line msgCount p hp i item hi
  obtain ⟨hcount,hmsg⟩ := sized_ids count msgCount cap hz _ hid
  have hfits := chat_fits serde hserde p.prog.id seq clientTs (by omega) (by omega) (by omega)
  exact ⟨seq,clientTs,by simp [decodedItem, message, hfits]⟩

structure Playing (count : ℕ) (s : World.State Bot) : Prop where
  calm : Calm s.hub.shared
  attended : ∀ (k : ℕ) p c, s.peers[k]? = some p → s.hub.tasks[k]? = some c → Attended p.prog c
  distinct : (s.peers.map fun p => p.prog.id).Nodup
  below : ∀ p ∈ s.peers, p.prog.id < count

theorem allowed_mayTake (count : ℕ) (s : World.State Bot) (k : ℕ) (i : Input) (p : Peer Bot) (c : Conn)
    (ha : allowed count s (.hub (.conn k i)) = true) (hp : s.peers[k]? = some p)
    (hc : s.hub.tasks[k]? = some c) : mayTake p.prog c i = true := by
  cases i <;> simp_all [allowed, mayTake, Settling.own]

theorem act_frame (line : ServerMsg → String) (msgCount : ℕ) (b : Bot) (now : UInt64) (q : Bot)
    (items : List Item) (h : (normal line msgCount).act b now = some (q,items)) :
    q.id = b.id ∧ hasEnded b = false := by
  cases hstage : b.stage with
  | receiving count | ended received => simp [normal, hstage] at h
  | sending seq =>
    simp only [normal, hstage] at h
    split_ifs at h <;> cases h <;> simp [hasEnded, hstage]

theorem hear_frame (line : ServerMsg → String) (msgCount : ℕ) (b : Bot) (msg : ServerMsg) (q : Bot)
    (h : (normal line msgCount).hear b msg = some q) : q.id = b.id ∧ hasEnded b = false := by
  cases hstage : b.stage with
  | sending seq | ended received => simp [normal, hstage] at h
  | receiving count =>
    simp only [normal, hstage, Option.some.injEq, onLine] at h
    subst h
    refine ⟨?_,by simp [hasEnded, hstage]⟩
    split_ifs <;> rfl

theorem playing_peer (count : ℕ) (s : World.State Bot) (k : ℕ) (p p' : Peer Bot) (hp : s.peers[k]? = some p)
    (hid : p'.prog.id = p.prog.id) (hend : p'.prog = p.prog ∨ hasEnded p.prog = false)
    (hs : Playing count s) : Playing count ⟨s.hub,s.peers.set k p'⟩ := by
  refine ⟨hs.calm,fun j q c hq hc => ?_,?_,fun q hq => ?_⟩
  · rcases getElem?_set_cases s.peers k j p' q hq with ⟨rfl,rfl⟩ | ⟨_,hq⟩
    · have hatt := hs.attended j p c hp hc
      rcases hend with heq | hlive
      · rwa [heq]
      · exact ⟨hatt.phase,hatt.vote,fun _ => hatt.held hlive⟩
    · exact hs.attended j q c hq hc
  · show ((s.peers.set k p').map fun p => p.prog.id).Nodup
    rw [map_set_same (fun p : Peer Bot => p.prog.id) s.peers k p p' hp hid]
    exact hs.distinct
  · rcases List.mem_or_eq_of_mem_set hq with hq | rfl
    · exact hs.below q hq
    · rw [hid]
      exact hs.below p (List.mem_of_getElem? hp)

theorem playing_hub (count cap : ℕ) (s : World.State Bot) (a : Hub.Action) (hub : Hub.State)
    (h : Hub.step cap s.hub a = some hub) (hlen : s.peers.length = s.hub.tasks.length)
    (hspawn : a ≠ .spawn) (hdown : a ≠ .shutdown)
    (hmay : ∀ k i p c, a = .conn k i → s.peers[k]? = some p → s.hub.tasks[k]? = some c →
      mayTake p.prog c i = true) (hs : Playing count s) : Playing count ⟨hub,s.peers⟩ := by
  refine ⟨?_,fun k p c' hp hc' => ?_,hs.distinct,hs.below⟩
  · refine hub_calm cap s.hub hub a h hs.calm hdown fun k i c ha hc => ?_
    have hk := (List.getElem?_eq_some_iff.mp hc).1
    have hp := List.getElem?_eq_getElem (hlen ▸ hk : k < s.peers.length)
    exact ⟨_,hmay k i _ c ha hp hc,hs.attended k _ c hp hc⟩
  · rcases conn_backward cap s.hub hub a h k c' hc' with ⟨c,hc,hm⟩ | ⟨ha,_⟩
    · exact hub_attended cap s.hub hub a h hs.calm k p.prog c c' hc hm (fun i ha => hmay k i p c ha hp hc)
        (hs.attended k p c hp hc)
    · exact absurd ha hspawn

theorem step_playing (serde : Serde) (line : ServerMsg → String) (hserde : Compact serde)
    (count msgCount cap : ℕ) (hz : Sized count msgCount cap) (s : World.State Bot)
    (a : World.Action ℕ UInt64) (t : World.State Bot)
    (hscript : ∀ (k : ℕ) p, s.peers[k]? = some p → Scripted line msgCount p) (hpair : Paired serde s)
    (hs : Playing count s) (ha : allowed count s a = true)
    (h : botStep serde line msgCount cap s a = some t) : Playing count t := by
  cases step_world serde (normal line msgCount) cap s a t h with
  | connect x hub hh =>
    simp only [allowed, Bool.and_eq_true, decide_eq_true_eq] at ha
    cases Hub.step_hub cap s.hub .spawn hub hh
    refine ⟨hs.calm,fun k p c hp hc => ?_,?_,fun p hp => ?_⟩
    · rcases Nat.lt_or_ge k s.peers.length with hk | hk
      · rw [List.getElem?_append_left hk] at hp
        rw [List.getElem?_append_left (hpair.1 ▸ hk)] at hc
        exact hs.attended k p c hp hc
      · rw [List.getElem?_append_right (hpair.1 ▸ hk), List.getElem?_singleton] at hc
        split_ifs at hc
        cases hc
        exact ⟨rfl,rfl,fun _ => ⟨rfl,rfl,by simp [Handler.spawn]⟩⟩
    · rw [List.map_append, List.nodup_append]
      refine ⟨hs.distinct,by simp,fun i hi j hj => ?_⟩
      rw [show j = x by simpa [normal] using hj]
      exact fun hij => ha.2 (hij ▸ hi)
    · rcases List.mem_append.mp hp with hp | hp
      · exact hs.below p hp
      · rw [List.mem_singleton.mp hp]
        exact ha.1
  | line k p item hub hp hi hh =>
    have hid := hs.below p (List.mem_of_getElem? hp)
    obtain ⟨seq,clientTs,hdec⟩ := sent_decoded serde line hserde count msgCount cap hz p (hscript k p hp) hid _
      item hi
    have hplay := playing_hub count cap s _ hub hh hpair.1 (by simp) (by simp)
      (fun j i q c hj hq hc => ?_) hs
    · exact playing_peer count ⟨hub,s.peers⟩ k p _ hp rfl (Or.inl rfl) hplay
    · cases hj
      simp [hdec, mayTake]
  | hub b hub hb hh =>
    refine playing_hub count cap s b hub hh hpair.1 ?_ ?_ (fun k i p c hbk hp hc => ?_) hs
    · rintro rfl
      simp [World.inner] at hb
    · rintro rfl
      simp [allowed, Settling.own] at ha
    · subst hbk
      exact allowed_mayTake count s k i p c ha hp hc
  | act k now p q items hp hact =>
    obtain ⟨hid,hlive⟩ := act_frame line msgCount p.prog now q items hact
    exact playing_peer count s k p _ hp hid (Or.inr hlive) hs
  | hear k p c msg q hp hc hm hhear =>
    obtain ⟨hid,hlive⟩ := hear_frame line msgCount p.prog msg q hhear
    exact playing_peer count s k p _ hp hid (Or.inr hlive) hs

theorem run_playing (serde : Serde) (line : ServerMsg → String) (hserde : Compact serde)
    (count msgCount cap : ℕ) (hz : Sized count msgCount cap) (as : List (World.Action ℕ UInt64))
    (s : World.State Bot)
    (hg : Undisturbed serde line count msgCount cap as World.init)
    (h : run (botStep serde line msgCount cap) as World.init = some s) : Playing count s := by
  refine guarded_history (fun s a => allowed count s a = true) (fun _ s => Playing count s) World.init
    ⟨⟨rfl,by simp [World.init, Hub.init]⟩,by simp [World.init],by simp [World.init],by simp [World.init]⟩
    ?_ as s hg h
  intro as m a t hm hp ha ht
  exact step_playing serde line hserde count msgCount cap hz m a t
    (fun k p hk => run_scripted serde line msgCount cap hz.some as m hm k p hk)
    (run_paired serde (normal line msgCount) cap as m hm) hp ha ht

end RustChat.NormalBots
