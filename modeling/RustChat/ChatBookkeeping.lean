import RustChat.Footprint

/-!
# Chats, nicknames and the counters of messages

A nickname is kept twice, by the handler and in the room, and the metrics
count what the handlers do. For each handler its phase tells what the entry
under its id is; over all of them the counters are sums of what each has
parsed and sent.
-/

set_option autoImplicit false

namespace RustChat.ChatBookkeeping
open Runs TaskPool Protocol Broadcast Room Handler HandlerSteps Hub Footprint

/-- The handler is carrying out a message it has parsed. -/
def busy : Phase → Bool
  | .handling _ | .chatting _ _ _ | .chatted | .voting _ | .voted _ => true
  | .unvoting _ .reading | .loading _ _ .reading | .publishing _ .reading => true
  | _ => false

/-! ## The entry of a handler -/

theorem lookup_apply (sh : Shared) (e : Effect) (key : ℕ) :
    (apply sh e).clients.lookup key =
      match e with
      | .insertClient id => if key = id then some ⟨id,none⟩ else sh.clients.lookup key
      | .removeClient id => if key = id then none else sh.clients.lookup key
      | .setNick id name =>
        if key = id then (sh.clients.lookup key).map fun entry => { entry with name := some name }
        else sh.clients.lookup key
      | _ => sh.clients.lookup key := by
  cases e with
  | insertClient id => exact lookup_insertClient sh.clients id key
  | removeClient id => exact lookup_removeClient sh.clients id key
  | setNick id name => exact lookup_setNick sh.clients id key name
  | _ => rfl

/-- While the key of a handler is in the room, its entry carries the id and
the nickname the handler has. -/
def Registered (sh : Shared) (c : Conn) : Prop :=
  match c.phase with
  | .spawned | .subscribed => c.nick = none
  | .left | .returned true => True
  | _ => sh.clients.lookup c.id = some ⟨c.id,c.nick⟩

theorem registered_entry (sh : Shared) (c : Conn) (h : Registered sh c) (hp : present c.phase = true) :
    sh.clients.lookup c.id = some ⟨c.id,c.nick⟩ := by
  unfold Registered at h
  cases hc : c.phase with
  | spawned | subscribed | left => simp [hc, present] at hp
  | returned ok => cases ok <;> simp_all [present]
  | _ => simpa [hc] using h

theorem handler_registered (sh : Shared) (c : Conn) (i : Input) (e : Effect) (c' : Conn)
    (h : HandlerStep sh c i e c') (hc : Registered sh c) : Registered (apply sh e) c' := by
  unfold Registered at hc ⊢
  rw [lookup_apply, handler_id sh c i e c' h]
  cases h with
  | join clock h => simp_all
  | rename clock name h => simp_all
  | replace clock option h => cases hv : c.currentVote <;> simp_all [subtract]
  | resume clock call after h hr => cases after <;> simp_all [After.phase]
  | skip h => simp_all
  | _ => simp_all

theorem handler_lookup (sh : Shared) (c : Conn) (i : Input) (e : Effect) (c' : Conn)
    (h : HandlerStep sh c i e c') (key : ℕ) (hkey : key ≠ c.id) :
    (apply sh e).clients.lookup key = sh.clients.lookup key := by
  rw [lookup_apply]
  cases h with
  | replace clock option h => cases c.currentVote <;> rfl
  | _ => simp [hkey]

theorem run_registered (cap : ℕ) (as : List Action) (s : State)
    (h : run (step cap) as init = some s) (k : ℕ) (c : Conn) (hc : s.tasks[k]? = some c) :
    Registered s.shared c := by
  refine run_kept cap Numbered (fun sh _ c => Registered sh c) (run_numbered cap) ?_ as s h k c hc
  exact {
    spawned := fun s _ => rfl
    moved := fun s k i c c' e _ _ hs hc => handler_registered s.shared c i e c' hs hc
    wrote := fun s k i c c' _ _ hw hc => by
      obtain ⟨hid,hp,_,hnick,_⟩ := writer_frame cap s.shared c i c' hw
      unfold Registered at hc ⊢
      rwa [hid, hp, hnick]
    other := fun s k j i c c' e d hn hck hs hj hd hP => by
      have hne : d.id ≠ c.id := by
        rw [hn k c hck, hn j d hd]
        omega
      simpa [Registered, handler_lookup s.shared c i e c' hs d.id hne] using hP
    throttled := fun s k clock t j d _ _ _ hP => hP
    shutdown := fun s j d _ _ hP => hP }

/-! ## Every entry -/

def Keyed (s : State) : Prop := ∀ key entry, s.shared.clients.lookup key = some entry → entry.id = key

theorem step_keyed (cap : ℕ) (s : State) (a : Action) (t : State) (hs : Keyed s)
    (h : step cap s a = some t) : Keyed t := by
  intro key entry hentry
  cases step_hub cap s a t h with
  | handler k i c c' e hc hstep =>
    rw [lookup_apply] at hentry
    cases e with
    | insertClient id =>
      simp only at hentry
      split_ifs at hentry with hk
      · cases hentry
        exact hk.symm
      · exact hs key entry hentry
    | removeClient id =>
      simp only at hentry
      split_ifs at hentry
      exact hs key entry hentry
    | setNick id name =>
      simp only at hentry
      split_ifs at hentry with hk
      · obtain ⟨old,hold,rfl⟩ := Option.map_eq_some_iff.mp hentry
        exact hs key old hold
      · exact hs key entry hentry
    | _ => exact hs key entry hentry
  | spawn | writer | throttle | shutdown => exact hs key entry hentry

/-! ## The counters -/

def isChat : BroadcastEvent → Bool
  | .server (.chat _ _ _ _ _) => true
  | _ => false

/-- A chat that is on the channel and not in the metrics yet. -/
def uncounted (c : Conn) : ℕ := if c.phase = .chatted then 1 else 0

theorem handler_counted (sh : Shared) (c : Conn) (i : Input) (e : Effect) (c' : Conn)
    (h : HandlerStep sh c i e c') :
    (apply sh e).recvCount+c.parsed.length = sh.recvCount+c'.parsed.length ∧
      (apply sh e).sentCount+uncounted c'+sh.tx.countP isChat =
        sh.sentCount+uncounted c+(apply sh e).tx.countP isChat := by
  rw [apply_tx, List.countP_append]
  cases h with
  | replace clock option h =>
    cases c.currentVote <;> simp [apply, subtract, emitted, uncounted, h]
  | resume clock call after h hr =>
    cases after <;> simp [apply, emitted, uncounted, After.phase, h]
  | skip h => simp [apply, emitted]
  | parse msg h =>
    simp [apply, emitted, uncounted, h]
    omega
  | chat clock text clientTs sentAt h =>
    simp [apply, emitted, uncounted, h, isChat]
    omega
  | tally clock h => simp [apply, emitted, uncounted, h]
  | _ => simp [apply, emitted, uncounted, isChat, *]

structure Counted (s : State) : Prop where
  recv : s.shared.recvCount = (s.tasks.map fun c => c.parsed.length).sum
  sent : s.shared.sentCount+(s.tasks.map uncounted).sum = s.shared.tx.countP isChat

theorem snapshots_uncounted (t t' : Throttle.State Snapshot) :
    (sentSnapshots t t').countP isChat = 0 := by
  refine List.countP_eq_zero.mpr fun e he => ?_
  obtain ⟨x,_,rfl⟩ := List.mem_map.mp he
  simp [isChat]

theorem step_counted (cap : ℕ) (s : State) (a : Action) (t : State) (hs : Counted s)
    (h : step cap s a = some t) : Counted t := by
  obtain ⟨hrecv,hsent⟩ := hs
  cases step_hub cap s a t h with
  | spawn => exact ⟨by simpa [Handler.spawn] using hrecv,by simpa [Handler.spawn, uncounted] using hsent⟩
  | handler k i c c' e hc hstep =>
    obtain ⟨hr,ht⟩ := handler_counted s.shared c i e c' hstep
    have hp := sum_map_set (fun c => c.parsed.length) s.tasks k c c' hc
    have hu := sum_map_set uncounted s.tasks k c c' hc
    exact ⟨by simp only at hp ⊢; omega,by simp only at hu ⊢; omega⟩
  | writer k i c c' hc hw =>
    obtain ⟨_,hp,_,_,_,_,hm⟩ := writer_frame cap s.shared c i c' hw
    have h1 := map_set_same (fun c => c.parsed.length) s.tasks k c c' hc (by simp [hm])
    have h2 := map_set_same uncounted s.tasks k c c' hc (by simp [uncounted, hp])
    exact ⟨by simpa [h1] using hrecv,by simpa [h2] using hsent⟩
  | throttle k clock u hu =>
    refine ⟨hrecv,?_⟩
    simpa [List.countP_append, snapshots_uncounted] using hsent
  | shutdown => exact ⟨hrecv,by simpa [isChat] using hsent⟩

theorem run_counted (cap : ℕ) (as : List Action) (s : State)
    (h : run (step cap) as init = some s) : Counted s :=
  run_invariant Counted (step_counted cap) as init s ⟨rfl,rfl⟩ h

/-! ## Between messages -/

theorem unsaid_idle (c : Conn) (h : busy c.phase = false) : unsaid c = [] := by
  unfold unsaid
  cases hp : c.phase <;> simp_all [busy]

theorem named_idle (c : Conn) (hc : Named c) (h : busy c.phase = false) : c.nick = lastNick c.parsed := by
  unfold Named at hc
  cases hp : c.phase <;> simp_all [busy]

theorem uncounted_idle (tasks : List Conn) (h : ∀ c ∈ tasks, busy c.phase = false) :
    (tasks.map uncounted).sum = 0 := by
  refine List.sum_eq_zero fun n hn => ?_
  obtain ⟨c,hc,rfl⟩ := List.mem_map.mp hn
  have hb := h c hc
  unfold uncounted
  split_ifs with hp
  · simp [hp, busy] at hb
  · rfl

theorem rename_others (cap : ℕ) (s t : State) (k clock : ℕ) (c : Conn) (name : String)
    (hc : s.tasks[k]? = some c) (hp : c.phase = .handling (.setNick name))
    (h : step cap s (.conn k (.go clock)) = some t) :
    t.shared.clients.keys = s.shared.clients.keys ∧
      ∀ key ≠ c.id, t.shared.clients.lookup key = s.shared.clients.lookup key := by
  have ht : t.shared = apply s.shared (.setNick c.id name) := by
    simp only [step, move, hc, next, act, advance, hp, Option.bind_some, Option.map_some,
      Option.some.injEq] at h
    rw [← h]
  rw [ht]
  refine ⟨keys_setNick _ _ _,fun key hkey => ?_⟩
  rw [lookup_apply]
  exact if_neg hkey

/-- For any number of handlers and any interleaving. The Chat events of a
handler, with the one it is about to send, are the chats it has parsed, each
under the name it had given itself last. Between messages nothing is about to
be sent and the entry of a handler in the room has the same name. A SetNick
changes no other entry and no key, entries are filed under their own id, and
with no message in progress the metrics count what was parsed and sent. -/
theorem chats_recorded (cap : ℕ) (as : List Action) (s : State)
    (h : run (step cap) as init = some s) :
    (∀ (k : ℕ) c, s.tasks[k]? = some c →
      chats c.id s.shared.tx++unsaid c = said none c.parsed ∧
      (busy c.phase = false →
        chats c.id s.shared.tx = said none c.parsed ∧ c.nick = lastNick c.parsed ∧
        (present c.phase = true → s.shared.clients.lookup c.id = some ⟨c.id,c.nick⟩))) ∧
    (∀ id, chats id s.shared.tx ≠ [] → ∃ c ∈ s.tasks, c.id = id) ∧
    (∀ (k clock : ℕ) c name t, s.tasks[k]? = some c → c.phase = .handling (.setNick name) →
      step cap s (.conn k (.go clock)) = some t →
      t.shared.clients.keys = s.shared.clients.keys ∧
        ∀ key ≠ c.id, t.shared.clients.lookup key = s.shared.clients.lookup key) ∧
    (∀ key entry, s.shared.clients.lookup key = some entry → entry.id = key) ∧
    ((∀ c ∈ s.tasks, busy c.phase = false) →
      s.shared.recvCount = (s.tasks.map fun c => c.parsed.length).sum ∧
        s.shared.sentCount = s.shared.tx.countP isChat) := by
  have hknown := run_known cap as s h
  obtain ⟨hrecv,hsent⟩ := run_counted cap as s h
  refine ⟨fun k c hc => ?_,fun id hid => ?_,fun k clock c name t hc hp ht => ?_,?_,fun hidle => ?_⟩
  · have htrace := run_trace cap as s h k c hc
    refine ⟨htrace.chat,fun hb => ⟨?_,named_idle c htrace.named hb,fun hp => ?_⟩⟩
    · simpa [unsaid_idle c hb] using htrace.chat
    · exact registered_entry s.shared c (run_registered cap as s h k c hc) hp
  · by_contra hno
    refine hid (chats_other id s.shared.tx fun e he ho => hno ?_)
    obtain ⟨h1,hle⟩ := hknown.events e he id ho
    have hk : id-1 < s.tasks.length := by omega
    have hget := List.getElem?_eq_getElem hk
    refine ⟨_,List.mem_of_getElem? hget,?_⟩
    rw [hknown.numbered _ _ hget]
    omega
  · exact rename_others cap s t k clock c name hc hp ht
  · exact run_invariant Keyed (step_keyed cap) as init s (by simp [Keyed, init]) h
  · rw [uncounted_idle s.tasks hidle, Nat.add_zero] at hsent
    exact ⟨hrecv,hsent⟩

/-- The first handler gives itself a name between two chats; the second one
chats without a name. -/
def twoNames : List Action :=
  [.spawn,.spawn,.conn 0 (.go 0),.conn 1 (.go 0),.conn 0 (.go 0),.conn 1 (.go 0),.conn 0 (.go 0),
   .conn 1 (.go 0),.conn 0 (.go 0),.conn 1 (.go 0),
   .conn 0 (.line (some (.chat "hi" 1))),.conn 1 (.line (some (.chat "yo" 2))),.conn 0 (.go 5),
   .conn 1 (.go 6),.conn 1 (.go 7),.conn 0 (.go 7),.conn 0 (.go 7),.conn 1 (.go 7),
   .conn 0 (.line (some (.setNick "ann"))),.conn 0 (.go 8),
   .conn 0 (.line (some (.chat "hi" 3))),.conn 0 (.go 9),.conn 0 (.go 9),.conn 0 (.go 9)]

def twoNamesEnd : State := (run (step 16) twoNames init).get (by decide +kernel)

theorem two_names_recorded :
    chats 1 twoNamesEnd.shared.tx = [(none,"hi",1),(some "ann","hi",3)] ∧
      twoNamesEnd.shared.clients.lookup 1 = some ⟨1,some "ann"⟩ ∧
      twoNamesEnd.shared.clients.lookup 2 = some ⟨2,none⟩ ∧
      twoNamesEnd.shared.sentCount = 3 ∧
      twoNamesEnd.shared.sentCount = twoNamesEnd.shared.tx.countP isChat := by
  have hrun : run (step 16) twoNames init = some twoNamesEnd := (Option.some_get _).symm
  exact ⟨by decide +kernel,by decide +kernel,by decide +kernel,by decide +kernel,
    ((chats_recorded 16 twoNames twoNamesEnd hrun).2.2.2.2 (by decide +kernel)).2⟩

end RustChat.ChatBookkeeping
