import RustChat.Hub

/-!
# What a handler leaves in the log and in the room

Events and keys carry the id of the handler they come from. For each handler
its program counter and the messages it has parsed tell which of its events
are in the log, and whether its key is in the room.
-/

set_option autoImplicit false

namespace RustChat.Footprint
open Runs TaskPool Protocol Broadcast Room Handler HandlerSteps Hub

/-- The handler an event comes from. -/
def owner : BroadcastEvent → Option ℕ
  | .server (.presence id _) => some id
  | .server (.chat sender _ _ _ _) => some sender
  | _ => none

def presenceOf (id : ℕ) : BroadcastEvent → Option Bool
  | .server (.presence i joined) => if i = id then some joined else none
  | _ => none

/-- The `joined` flags of the Presence events of `id`, in the order sent. -/
def presences (id : ℕ) (log : List BroadcastEvent) : List Bool := log.filterMap (presenceOf id)

abbrev Saying := Option String × String × ℕ

def chatOf (id : ℕ) : BroadcastEvent → Option Saying
  | .server (.chat sender nick text _ clientTs) => if sender = id then some (nick,text,clientTs) else none
  | _ => none

/-- The Chat events of `id`: nickname, text and client time stamp. -/
def chats (id : ℕ) (log : List BroadcastEvent) : List Saying := log.filterMap (chatOf id)

def nickAfter (nick : Option String) : ClientMsg → Option String
  | .setNick name => some name
  | _ => nick

def lastNick (msgs : List ClientMsg) : Option String := msgs.foldl nickAfter none

def saying (nick : Option String) : ClientMsg → List Saying
  | .chat text clientTs => [(nick,text,clientTs)]
  | _ => []

/-- The chats among the messages of one client, each under the name the client
had given itself last. -/
def said : Option String → List ClientMsg → List Saying
  | _, [] => []
  | nick, msg::msgs => saying nick msg++said (nickAfter nick msg) msgs

theorem said_snoc (nick : Option String) (msgs : List ClientMsg) (msg : ClientMsg) :
    said nick (msgs++[msg]) = said nick msgs++saying (msgs.foldl nickAfter nick) msg := by
  induction msgs generalizing nick with
  | nil => simp [said]
  | cons m msgs ih => simp only [List.cons_append, said, ih, List.foldl_cons, List.append_assoc]

theorem lastNick_snoc (msgs : List ClientMsg) (msg : ClientMsg) :
    lastNick (msgs++[msg]) = nickAfter (lastNick msgs) msg := by simp [lastNick]

/-! ## One event more -/

theorem presences_append (id : ℕ) (log more : List BroadcastEvent) :
    presences id (log++more) = presences id log++presences id more := List.filterMap_append

theorem chats_append (id : ℕ) (log more : List BroadcastEvent) :
    chats id (log++more) = chats id log++chats id more := List.filterMap_append

theorem presences_other (id : ℕ) (log : List BroadcastEvent) (h : ∀ e ∈ log, owner e ≠ some id) :
    presences id log = [] := by
  refine List.filterMap_eq_nil_iff.mpr fun e he => ?_
  have hne := h e he
  rcases e with (_ | _ | _ | _ | _) | _ <;> simp_all [presenceOf, owner]

theorem chats_other (id : ℕ) (log : List BroadcastEvent) (h : ∀ e ∈ log, owner e ≠ some id) :
    chats id log = [] := by
  refine List.filterMap_eq_nil_iff.mpr fun e he => ?_
  have hne := h e he
  rcases e with (_ | _ | _ | _ | _) | _ <;> simp_all [chatOf, owner]

/-- The events an effect puts on the channel. -/
def emitted : Effect → List BroadcastEvent
  | .send event => [event]
  | _ => []

theorem apply_tx (sh : Shared) (e : Effect) : (apply sh e).tx = sh.tx++emitted e := by
  cases e <;> simp [apply, emitted]

theorem apply_mem (sh : Shared) (e : Effect) (key : ℕ) :
    key ∈ (apply sh e).clients ↔
      (key ∈ sh.clients ∧ e ≠ .removeClient key) ∨ e = .insertClient key := by
  cases e with
  | insertClient id =>
    simp only [apply, Room.mem_insertClient, ne_eq, reduceCtorEq, not_false_eq_true, and_true,
      Effect.insertClient.injEq]
    tauto
  | removeClient id =>
    simp only [apply, Room.mem_removeClient, ne_eq, Effect.removeClient.injEq, reduceCtorEq, or_false]
    tauto
  | setNick id name => simp [apply, Room.mem_setNick]
  | _ => simp [apply]

theorem sentSnapshots_owner (t t' : Throttle.State Snapshot) (e : BroadcastEvent)
    (he : e ∈ sentSnapshots t t') : owner e = none := by
  obtain ⟨x,_,rfl⟩ := List.mem_map.mp he
  rfl

/-- Every event a handler sends, and every key it inserts, is its own. -/
theorem handler_owner (sh : Shared) (c : Conn) (i : Input) (e : Effect) (c' : Conn)
    (h : HandlerStep sh c i e c') :
    (∀ x ∈ emitted e, owner x = some c.id) ∧ (∀ id, e = .insertClient id → id = c.id) ∧
      ∀ id, e = .removeClient id → id = c.id := by
  cases h with
  | replace clock option h => cases c.currentVote <;> simp [subtract, emitted]
  | _ => simp [emitted, owner, eq_comm]

/-! ## Who sends -/

/-- The phases in which the next operation is a send. -/
def sending : Phase → Bool
  | .joined _ | .chatting _ _ _ | .left => true
  | _ => false

/-- Does the step put an event on the channel? -/
def sends (s : State) : Action → Bool
  | .conn k (.go _) => (s.tasks[k]?).any fun c => sending c.phase
  | .throttle k _ => (s.shared.throttle.tasks[k]?).any fun t => (Throttle.emits t).isSome
  | .shutdown => true
  | _ => false

/-- The messages that go through the channel: Welcome and Error never do. -/
def broadcasts : ServerMsg → Bool
  | .welcome _ | .error _ => false
  | _ => true

theorem handler_sends (sh : Shared) (c : Conn) (i : Input) (e : Effect) (c' : Conn)
    (h : HandlerStep sh c i e c') :
    emitted e = [] ∨ ∃ msg clock, emitted e = [.server msg] ∧ broadcasts msg = true ∧
      i = .go clock ∧ sending c.phase = true := by
  cases h with
  | announce clock n h => exact Or.inr ⟨_,clock,rfl,rfl,rfl,by simp [h, sending]⟩
  | chat clock text clientTs sentAt h => exact Or.inr ⟨_,clock,rfl,rfl,rfl,by simp [h, sending]⟩
  | farewell clock h => exact Or.inr ⟨_,clock,rfl,rfl,rfl,by simp [h, sending]⟩
  | replace clock option h => cases c.currentVote <;> exact Or.inl rfl
  | _ => exact Or.inl rfl

theorem throttle_sends (t t' : Throttle.State Snapshot) (k clock : ℕ)
    (h : move Throttle.next t k clock = some t') :
    ∃ u, t.tasks[k]? = some u ∧ sentSnapshots t t' =
      (Throttle.emits u).toList.map fun x => .server (.voteSnapshot x.msg.counts) := by
  obtain ⟨u,g,u',fs,hu,hn,rfl⟩ := move_cases Throttle.next t t' k clock h
  have hs := Throttle.next_sent t.shared g u u' fs clock hn
  exact ⟨u,hu,by rw [sentSnapshots, hs, List.drop_left]⟩

theorem step_tx (cap : ℕ) (s t : State) (a : Action) (h : step cap s a = some t) :
    t.shared.tx = s.shared.tx ∨
      (sends s a = true ∧ ∃ e, t.shared.tx = s.shared.tx++[e] ∧ (e = .shutdown ↔ a = .shutdown) ∧
        ∀ msg, e = .server msg → broadcasts msg = true) := by
  cases step_hub cap s a t h with
  | spawn => exact Or.inl rfl
  | writer k i c c' hc hw => exact Or.inl rfl
  | shutdown => exact Or.inr ⟨rfl,_,rfl,by simp,by simp⟩
  | handler k i c c' e hc hs =>
    rcases handler_sends s.shared c i e c' hs with he | ⟨msg,clock,he,hb,rfl,hp⟩
    · exact Or.inl (by rw [apply_tx, he, List.append_nil])
    · exact Or.inr ⟨by simp [sends, hc, hp],.server msg,by rw [apply_tx, he],by simp,by simpa using hb⟩
  | throttle k clock u hu =>
    obtain ⟨v,hv,hs⟩ := throttle_sends s.shared.throttle u k clock hu
    simp only [hs]
    cases he : Throttle.emits v with
    | none => exact Or.inl (by simp)
    | some x => exact Or.inr ⟨by simp [sends, hv, he],_,rfl,by simp,by simp [broadcasts]⟩

theorem run_log_prefix (cap : ℕ) (as : List Action) (s t : State) (h : run (step cap) as s = some t) :
    s.shared.tx <+: t.shared.tx := by
  refine run_history (fun _ t => s.shared.tx <+: t.shared.tx) s (List.prefix_refl _) ?_ as t h
  intro _ m a t _ hm ht
  rcases step_tx cap m t a ht with htx | ⟨_,e,htx,_⟩
  · rwa [htx]
  · rw [htx]
    exact hm.trans (List.prefix_append _ _)

/-! ## Ids in use -/

/-- Ids in the log and in the room are those of handlers spawned before. -/
structure Known (s : State) : Prop where
  numbered : Numbered s
  events : ∀ e ∈ s.shared.tx, ∀ id, owner e = some id → 1 ≤ id ∧ id ≤ s.tasks.length
  keys : ∀ key ∈ s.shared.clients, 1 ≤ key ∧ key ≤ s.tasks.length

theorem known_handler (s : State) (hs : Known s) (k : ℕ) (c : Conn) (hc : s.tasks[k]? = some c) :
    1 ≤ c.id ∧ c.id ≤ s.tasks.length := by
  have hlt := (List.getElem?_eq_some_iff.mp hc).1
  rw [hs.numbered k c hc]
  omega

theorem step_events (cap : ℕ) (s t : State) (a : Action) (h : step cap s a = some t)
    (x : BroadcastEvent) (hx : x ∈ t.shared.tx) :
    x ∈ s.shared.tx ∨ owner x = none ∨ ∃ (k : ℕ) (c : Conn), s.tasks[k]? = some c ∧ owner x = some c.id := by
  cases step_hub cap s a t h with
  | spawn => exact Or.inl hx
  | handler k i c c' e hc hstep =>
    rw [apply_tx] at hx
    refine (List.mem_append.mp hx).imp_right fun hx => Or.inr ⟨k,c,hc,?_⟩
    exact (handler_owner s.shared c i e c' hstep).1 x hx
  | writer k i c c' hc hw => exact Or.inl hx
  | throttle k clock u hu =>
    exact (List.mem_append.mp hx).imp_right fun hx => Or.inl (sentSnapshots_owner _ _ x hx)
  | shutdown =>
    refine (List.mem_append.mp hx).imp_right fun hx => Or.inl ?_
    rw [List.mem_singleton.mp hx]
    rfl

theorem step_keys (cap : ℕ) (s t : State) (a : Action) (h : step cap s a = some t) (key : ℕ)
    (hkey : key ∈ t.shared.clients) :
    key ∈ s.shared.clients ∨ ∃ (k : ℕ) (c : Conn), s.tasks[k]? = some c ∧ key = c.id := by
  cases step_hub cap s a t h with
  | handler k i c c' e hc hstep =>
    rcases (apply_mem s.shared e key).mp hkey with ⟨hkey,_⟩ | he
    · exact Or.inl hkey
    · exact Or.inr ⟨k,c,hc,(handler_owner s.shared c i e c' hstep).2.1 key he⟩
  | spawn | writer | throttle | shutdown => exact Or.inl hkey

theorem step_known (cap : ℕ) (s : State) (a : Action) (t : State) (hn : Numbered t) (hs : Known s)
    (h : step cap s a = some t) : Known t := by
  have hgrow := step_length cap s t a h
  refine ⟨hn,fun x hx id hid => ?_,fun key hkey => ?_⟩
  · rcases step_events cap s t a h x hx with hold | hnone | ⟨k,c,hc,howner⟩
    · have hknown := hs.events x hold id hid
      omega
    · rw [hnone] at hid
      cases hid
    · obtain rfl : c.id = id := Option.some.inj (howner.symm.trans hid)
      have hknown := known_handler s hs k c hc
      omega
  · rcases step_keys cap s t a h key hkey with hold | ⟨k,c,hc,rfl⟩
    · have hknown := hs.keys key hold
      omega
    · have hknown := known_handler s hs k c hc
      omega

theorem run_known (cap : ℕ) (as : List Action) (s : State) (h : run (step cap) as init = some s) :
    Known s := by
  refine run_history (fun _ => Known) init ⟨by simp [Numbered, init],by simp [init],by simp [init]⟩
    ?_ as s h
  intro as m a t hm hk ht
  exact step_known cap m a t (run_numbered cap _ t ((run_snoc as a init t).mpr ⟨m,hm,ht⟩)) hk ht

/-! ## The trace of one handler -/

/-- The Presence events of a handler, by its program counter. -/
def announced : Phase → List Bool
  | .spawned | .subscribed | .joined _ => []
  | .returned true => [true,false]
  | _ => [true]

/-- Is its key in the room? After a failed Welcome it still is. -/
def present : Phase → Bool
  | .spawned | .subscribed | .left | .returned true => false
  | _ => true

/-- The chat a handler has parsed and not sent yet. -/
def unsaid (c : Conn) : List Saying :=
  match c.phase with
  | .handling msg => saying c.nick msg
  | .chatting text clientTs _ => [(c.nick,text,clientTs)]
  | _ => []

def Named (c : Conn) : Prop :=
  match c.phase with
  | .handling msg => nickAfter c.nick msg = lastNick c.parsed
  | _ => c.nick = lastNick c.parsed

structure Trace (sh : Shared) (c : Conn) : Prop where
  presence : presences c.id sh.tx = announced c.phase
  key : c.id ∈ sh.clients ↔ present c.phase = true
  named : Named c
  chat : chats c.id sh.tx++unsaid c = said none c.parsed
  quiet : c.phase = .spawned → ∀ e ∈ sh.tx, owner e ≠ some c.id
  fresh : ∀ r, c.rx = some r → r.start ≤ sh.tx.length ∧ ∀ e ∈ sh.tx.take r.start, owner e ≠ some c.id

/-- Events of others, and keys of others, do not touch it. -/
theorem trace_frame (sh sh' : Shared) (c : Conn) (more : List BroadcastEvent)
    (htx : sh'.tx = sh.tx++more) (hmore : ∀ e ∈ more, owner e ≠ some c.id)
    (hkey : c.id ∈ sh'.clients ↔ c.id ∈ sh.clients) (hc : Trace sh c) : Trace sh' c := by
  refine ⟨?_,hkey.trans hc.key,hc.named,?_,fun hp e he => ?_,fun r hr => ?_⟩
  · rw [htx, presences_append, presences_other c.id more hmore, List.append_nil, hc.presence]
  · rw [htx, chats_append, chats_other c.id more hmore, List.append_nil, hc.chat]
  · rw [htx] at he
    rcases List.mem_append.mp he with he | he
    · exact hc.quiet hp e he
    · exact hmore e he
  · obtain ⟨hle,hf⟩ := hc.fresh r hr
    rw [htx, List.length_append, List.take_append_of_le_length hle]
    exact ⟨by omega,hf⟩

/-! ## One step of the handler -/

theorem handler_announced (sh : Shared) (c : Conn) (i : Input) (e : Effect) (c' : Conn)
    (h : HandlerStep sh c i e c') :
    announced c'.phase = announced c.phase++presences c.id (emitted e) := by
  cases h with
  | replace clock option h =>
    cases c.currentVote <;> simp [h, announced, subtract, emitted, presences]
  | resume clock call after h hr =>
    cases after <;> simp [h, announced, After.phase, emitted, presences]
  | skip h => simp [emitted, presences]
  | _ => simp [announced, emitted, presences, presenceOf, *]

theorem handler_present (sh : Shared) (c : Conn) (i : Input) (e : Effect) (c' : Conn)
    (h : HandlerStep sh c i e c') :
    present c'.phase = true ↔
      (present c.phase = true ∧ e ≠ .removeClient c.id) ∨ e = .insertClient c.id := by
  cases h with
  | replace clock option h => cases c.currentVote <;> simp [h, present, subtract]
  | resume clock call after h hr => cases after <;> simp [h, present, After.phase]
  | skip h => simp
  | _ => simp [present, *]

theorem handler_named (sh : Shared) (c : Conn) (i : Input) (e : Effect) (c' : Conn)
    (h : HandlerStep sh c i e c') (hc : Named c) : Named c' := by
  unfold Named at hc ⊢
  cases h with
  | parse msg h =>
    simp only [h] at hc ⊢
    rw [lastNick_snoc, hc]
  | resume clock call after h hr => cases after <;> simpa [h, After.phase] using hc
  | skip h => exact hc
  | _ => simp_all [nickAfter]

/-- What is sent and what is still to be sent is what was said. -/
theorem handler_chat (sh : Shared) (c : Conn) (i : Input) (e : Effect) (c' : Conn)
    (h : HandlerStep sh c i e c') (hn : Named c) (sent : List Saying)
    (hc : sent++unsaid c = said none c.parsed) :
    sent++chats c.id (emitted e)++unsaid c' = said none c'.parsed := by
  unfold Named at hn
  cases h with
  | parse msg h =>
    simp only [h] at hn
    have h0 : unsaid c = [] := by simp [unsaid, h]
    rw [h0, List.append_nil] at hc
    rw [said_snoc, ← hc, show c.parsed.foldl nickAfter none = c.nick from hn.symm]
    simp [emitted, chats, unsaid]
  | replace clock option h =>
    cases c.currentVote <;> simpa [h, subtract, emitted, chats, unsaid] using hc
  | resume clock call after h hr =>
    cases after <;> simpa [h, After.phase, emitted, chats, unsaid] using hc
  | skip h => simpa [emitted, chats] using hc
  | _ => simpa [emitted, chats, chatOf, List.filterMap_cons, unsaid, saying, *] using hc

theorem handler_started (sh : Shared) (c : Conn) (i : Input) (e : Effect) (c' : Conn)
    (h : HandlerStep sh c i e c') :
    c'.phase ≠ .spawned ∧
      (c'.rx = c.rx ∨ c.phase = .spawned ∧ e = .none ∧ c'.rx = some (subscribe sh.tx)) := by
  cases h with
  | resume clock call after h hr => cases after <;> simp [After.phase]
  | skip h => simp [h]
  | _ => simp [*]

theorem handler_trace (sh : Shared) (c : Conn) (i : Input) (e : Effect) (c' : Conn)
    (h : HandlerStep sh c i e c') (hc : Trace sh c) : Trace (apply sh e) c' := by
  have hid := handler_id sh c i e c' h
  obtain ⟨hq,hrx⟩ := handler_started sh c i e c' h
  refine ⟨?_,?_,handler_named sh c i e c' h hc.named,?_,fun hp => absurd hp hq,fun r hr => ?_⟩
  · rw [hid, apply_tx, presences_append, hc.presence, handler_announced sh c i e c' h]
  · rw [hid, apply_mem, hc.key, handler_present sh c i e c' h]
  · rw [hid, apply_tx, chats_append]
    exact handler_chat sh c i e c' h hc.named _ hc.chat
  · rw [hid, apply_tx, List.length_append]
    rcases hrx with hrx | ⟨hp,rfl,hrx⟩
    · obtain ⟨hle,hf⟩ := hc.fresh r (hrx.symm.trans hr)
      rw [List.take_append_of_le_length hle]
      exact ⟨by omega,hf⟩
    · obtain rfl : subscribe sh.tx = r := Option.some.inj (hrx.symm.trans hr)
      refine ⟨by simp [subscribe],fun x hx => hc.quiet hp x ?_⟩
      simpa [subscribe, emitted] using hx

theorem writer_start (cap : ℕ) (sh : Shared) (c : Conn) (i : Input) (c' : Conn)
    (h : WriterStep cap sh c i c') : c'.rx.map Receiver.start = c.rx.map Receiver.start := by
  cases h with
  | event r r' pos msg hw hr hrecv | shutdown r r' pos hw hr hrecv =>
    obtain ⟨_,_,_,rfl⟩ := recv_event cap sh.tx r _ pos _ hrecv
    simp [hr]
  | lagged r r' n hw hr hrecv =>
    obtain ⟨_,_,rfl⟩ := recv_lagged cap sh.tx r _ n hrecv
    simp [hr]
  | written pos msg hw | stop i hi hw => rfl

theorem writer_trace (cap : ℕ) (sh : Shared) (c : Conn) (i : Input) (c' : Conn)
    (h : WriterStep cap sh c i c') (hc : Trace sh c) : Trace sh c' := by
  obtain ⟨hid,hp,_,hnick,_,_,hm⟩ := writer_frame cap sh c i c' h
  refine ⟨?_,?_,?_,?_,fun hq => ?_,fun r' hr' => ?_⟩
  · rw [hid, hp, hc.presence]
  · rw [hid, hp, hc.key]
  · simpa [Named, hp, hnick, hm] using hc.named
  · simpa [unsaid, hid, hp, hnick, hm] using hc.chat
  · rw [hid]
    exact hc.quiet (hp ▸ hq)
  · have hs := writer_start cap sh c i c' h
    rw [hr', Option.map_some] at hs
    obtain ⟨r,hr,hs⟩ := Option.map_eq_some_iff.mp hs.symm
    rw [hid, ← hs]
    exact hc.fresh r hr

theorem run_trace (cap : ℕ) (as : List Action) (s : State) (h : run (step cap) as init = some s)
    (k : ℕ) (c : Conn) (hc : s.tasks[k]? = some c) : Trace s.shared c := by
  refine run_kept cap Known (fun sh _ c => Trace sh c) (run_known cap) ?_ as s h k c hc
  exact {
    spawned := fun s hI => by
      have hnew : ∀ e ∈ s.shared.tx, owner e ≠ some (s.tasks.length+1) := fun e he ho => by
        have hle := (hI.events e he _ ho).2
        omega
      have hkey : s.tasks.length+1 ∉ s.shared.clients := fun hk => by
        have hle := (hI.keys _ hk).2
        omega
      refine ⟨presences_other _ _ hnew,?_,rfl,?_,fun _ => hnew,?_⟩
      · simpa [Handler.spawn, present] using hkey
      · rw [show (Handler.spawn (s.tasks.length+1)).id = s.tasks.length+1 from rfl,
          chats_other _ _ hnew]
        rfl
      · simp [Handler.spawn]
    moved := fun s k i c c' e _ _ hs hc => handler_trace s.shared c i e c' hs hc
    wrote := fun s k i c c' _ _ hw hc => writer_trace cap s.shared c i c' hw hc
    other := fun s k j i c c' e d hI hck hs hj hd hP => by
      have hne : c.id ≠ d.id := by
        rw [hI.numbered k c hck, hI.numbered j d hd]
        omega
      obtain ⟨ho,hi,hr⟩ := handler_owner s.shared c i e c' hs
      refine trace_frame s.shared _ d (emitted e) (apply_tx _ _) (fun x hx hx' => ?_) ?_ hP
      · exact hne (Option.some.inj ((ho x hx).symm.trans hx'))
      · rw [apply_mem]
        have h1 : e ≠ .removeClient d.id := fun he => hne (hr _ he).symm
        have h2 : e ≠ .insertClient d.id := fun he => hne (hi _ he).symm
        simp [h1, h2]
    throttled := fun s k clock t j d _ _ _ hP =>
      trace_frame s.shared _ d _ rfl (fun x hx => by rw [sentSnapshots_owner _ _ x hx]; simp) Iff.rfl hP
    shutdown := fun s j d _ _ hP =>
      trace_frame s.shared _ d _ rfl (fun x hx => by simp [List.mem_singleton.mp hx, owner]) Iff.rfl hP }

end RustChat.Footprint
