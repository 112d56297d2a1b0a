import RustChat.FrameRoundTrip
import RustChat.TitleUnderflow

/-!
# The server with its clients

Each connection has a client program at its other end, and a stream either
way: the handler reads the lines the program has written, in order, and the
program reads the lines the handler has written. What the programs are is a
parameter, and so is when each party moves. The streams are lists of lines
here; their bytes are the subject of `Wire`.
-/

set_option autoImplicit false

namespace RustChat.World
open Runs TaskPool Protocol Handler HandlerSteps Hub FrameRoundTrip TitleUnderflow

/-- A client: how it starts, its own moves with what they write to the socket,
and what a line it reads does to it, if it reads. -/
structure Program (κ π μ : Type*) where
  start : κ → π
  act : π → μ → Option (π × List Item)
  hear : π → ServerMsg → Option π

/-- The far end of a connection. `taken` is the number of its lines that the
handler has read. -/
structure Peer (π : Type*) where
  prog : π
  sent : List Item
  taken : ℕ
  heard : List ServerMsg

structure State (π : Type*) where
  hub : Hub.State
  peers : List (Peer π)

inductive Action (κ μ : Type*) where
  | connect (x : κ)
  /-- Handler `k` reads the next line of its client. -/
  | line (k : ℕ)
  | hub (a : Hub.Action)
  | act (k : ℕ) (m : μ)
  | hear (k : ℕ)

variable {κ π μ : Type*}

def init : State π := ⟨Hub.init,[]⟩

def Program.sum {κ' π' μ' : Type*} (P : Program κ π μ) (Q : Program κ' π' μ') :
    Program (κ ⊕ κ') (π ⊕ π') (μ ⊕ μ') where
  start := Sum.map P.start Q.start
  act
    | .inl p, .inl m => (P.act p m).map fun r => (.inl r.1,r.2)
    | .inr p, .inr m => (Q.act p m).map fun r => (.inr r.1,r.2)
    | _, _ => none
  hear
    | .inl p, msg => (P.hear p msg).map .inl
    | .inr p, msg => (Q.hear p msg).map .inr

/-- The steps that are neither a connect nor the reading of a line. -/
def inner : Hub.Action → Bool
  | .spawn | .conn _ (.line _) => false
  | _ => true

def step (serde : Serde) (P : Program κ π μ) (cap : ℕ) (s : State π) : Action κ μ → Option (State π)
  | .connect x =>
    (Hub.step cap s.hub .spawn).map fun hub => ⟨hub,s.peers++[⟨P.start x,[],0,[]⟩]⟩
  | .line k =>
    (s.peers[k]?).bind fun p => (p.sent[p.taken]?).bind fun item =>
      (Hub.step cap s.hub (.conn k (.line (decodedItem serde item)))).map fun hub =>
        ⟨hub,s.peers.set k { p with taken := p.taken+1 }⟩
  | .hub a => if inner a then (Hub.step cap s.hub a).map fun hub => ⟨hub,s.peers⟩ else none
  | .act k m =>
    (s.peers[k]?).bind fun p => (P.act p.prog m).map fun r =>
      ⟨s.hub,s.peers.set k { p with prog := r.1, sent := p.sent++r.2 }⟩
  | .hear k =>
    (s.peers[k]?).bind fun p => (s.hub.tasks[k]?).bind fun c =>
      ((sentLines c)[p.heard.length]?).bind fun msg => (P.hear p.prog msg).map fun q =>
        ⟨s.hub,s.peers.set k { p with prog := q, heard := p.heard++[msg] }⟩

/-! ## What a step can be -/

inductive WorldStep (serde : Serde) (P : Program κ π μ) (cap : ℕ) (s : State π) :
    Action κ μ → State π → Prop where
  | connect (x : κ) (hub : Hub.State) (h : Hub.step cap s.hub .spawn = some hub) :
    WorldStep serde P cap s (.connect x) ⟨hub,s.peers++[⟨P.start x,[],0,[]⟩]⟩
  | line (k : ℕ) (p : Peer π) (item : Item) (hub : Hub.State) (hp : s.peers[k]? = some p)
    (hi : p.sent[p.taken]? = some item)
    (h : Hub.step cap s.hub (.conn k (.line (decodedItem serde item))) = some hub) :
    WorldStep serde P cap s (.line k) ⟨hub,s.peers.set k { p with taken := p.taken+1 }⟩
  | hub (a : Hub.Action) (hub : Hub.State) (ha : inner a = true) (h : Hub.step cap s.hub a = some hub) :
    WorldStep serde P cap s (.hub a) ⟨hub,s.peers⟩
  | act (k : ℕ) (m : μ) (p : Peer π) (q : π) (items : List Item) (hp : s.peers[k]? = some p)
    (h : P.act p.prog m = some (q,items)) :
    WorldStep serde P cap s (.act k m) ⟨s.hub,s.peers.set k { p with prog := q, sent := p.sent++items }⟩
  | hear (k : ℕ) (p : Peer π) (c : Conn) (msg : ServerMsg) (q : π) (hp : s.peers[k]? = some p)
    (hc : s.hub.tasks[k]? = some c) (hm : (sentLines c)[p.heard.length]? = some msg)
    (h : P.hear p.prog msg = some q) :
    WorldStep serde P cap s (.hear k) ⟨s.hub,s.peers.set k { p with prog := q, heard := p.heard++[msg] }⟩

theorem step_world (serde : Serde) (P : Program κ π μ) (cap : ℕ) (s : State π) (a : Action κ μ) (t : State π)
    (h : step serde P cap s a = some t) : WorldStep serde P cap s a t := by
  cases a with
  | connect x =>
    simp only [step] at h
    obtain ⟨hub,hh,rfl⟩ := Option.map_eq_some_iff.mp h
    exact .connect x hub hh
  | line k =>
    simp only [step] at h
    obtain ⟨p,hp,h⟩ := Option.bind_eq_some_iff.mp h
    obtain ⟨item,hi,h⟩ := Option.bind_eq_some_iff.mp h
    obtain ⟨hub,hh,rfl⟩ := Option.map_eq_some_iff.mp h
    exact .line k p item hub hp hi hh
  | hub a =>
    simp only [step] at h
    split_ifs at h with ha
    obtain ⟨hub,hh,rfl⟩ := Option.map_eq_some_iff.mp h
    exact .hub a hub ha hh
  | act k m =>
    simp only [step] at h
    obtain ⟨p,hp,h⟩ := Option.bind_eq_some_iff.mp h
    obtain ⟨⟨q,items⟩,hq,rfl⟩ := Option.map_eq_some_iff.mp h
    exact .act k m p q items hp hq
  | hear k =>
    simp only [step] at h
    obtain ⟨p,hp,h⟩ := Option.bind_eq_some_iff.mp h
    obtain ⟨c,hc,h⟩ := Option.bind_eq_some_iff.mp h
    obtain ⟨msg,hm,h⟩ := Option.bind_eq_some_iff.mp h
    obtain ⟨q,hq,rfl⟩ := Option.map_eq_some_iff.mp h
    exact .hear k p c msg q hp hc hm hq

/-- A step of the world is at most one step of its server. -/
theorem step_hub (serde : Serde) (P : Program κ π μ) (cap : ℕ) (s : State π) (a : Action κ μ) (t : State π)
    (h : step serde P cap s a = some t) : ∃ bs, run (Hub.step cap) bs s.hub = some t.hub := by
  cases step_world serde P cap s a t h with
  | connect x hub hh | line _ _ _ hub _ _ hh | hub _ hub _ hh =>
    exact ⟨[_],(run_cons _ [] _ _).mpr ⟨hub,hh,rfl⟩⟩
  | act | hear => exact ⟨[],rfl⟩

theorem run_hub (serde : Serde) (P : Program κ π μ) (cap : ℕ) (as : List (Action κ μ)) (s : State π)
    (h : run (step serde P cap) as init = some s) : ∃ bs, run (Hub.step cap) bs Hub.init = some s.hub :=
  run_simulates (Hub.step cap) State.hub (step_hub serde P cap) as init s h

inductive PeerMoved (P : Program κ π μ) (a : Action κ μ) (k : ℕ) (p : Peer π) : Peer π → Prop where
  | same : PeerMoved P a k p p
  | taken (h : a = .line k) : PeerMoved P a k p { p with taken := p.taken+1 }
  | acted (m : μ) (q : π) (items : List Item) (h : a = .act k m) (hq : P.act p.prog m = some (q,items)) :
    PeerMoved P a k p { p with prog := q, sent := p.sent++items }
  | heard (msg : ServerMsg) (q : π) (h : a = .hear k) (hq : P.hear p.prog msg = some q) :
    PeerMoved P a k p { p with prog := q, heard := p.heard++[msg] }

theorem peer_forward (serde : Serde) (P : Program κ π μ) (cap : ℕ) (s : State π) (a : Action κ μ) (t : State π)
    (h : step serde P cap s a = some t) (k : ℕ) (p : Peer π) (hp : s.peers[k]? = some p) :
    ∃ p', t.peers[k]? = some p' ∧ PeerMoved P a k p p' := by
  have hset : ∀ (j : ℕ) q q', s.peers[j]? = some q → (j = k → q = p → PeerMoved P a k p q') →
      ∃ p', (s.peers.set j q')[k]? = some p' ∧ PeerMoved P a k p p' := by
    intro j q q' hq hmoved
    by_cases hj : j = k
    · subst hj
      exact ⟨q',getElem?_set_same s.peers j q q' hq,hmoved rfl (Option.some.inj (hq.symm.trans hp))⟩
    · exact ⟨p,(List.getElem?_set_ne hj).trans hp,.same⟩
  cases step_world serde P cap s a t h with
  | connect x hub hh => exact ⟨p,(List.getElem?_append_left (List.getElem?_eq_some_iff.mp hp).1).trans hp,.same⟩
  | line j q item hub hq hi hh => exact hset j q _ hq (by rintro rfl rfl; exact .taken rfl)
  | hub a hub ha hh => exact ⟨p,hp,.same⟩
  | act j m q r items hq hact => exact hset j q _ hq (by rintro rfl rfl; exact .acted m r items rfl hact)
  | hear j q c msg r hq hc hm hhear => exact hset j q _ hq (by rintro rfl rfl; exact .heard msg r rfl hhear)

/-- The rule for a fact about a client and its own streams. -/
theorem run_peer (serde : Serde) (P : Program κ π μ) (cap : ℕ) (I : Peer π → Prop)
    (hstart : ∀ x, I ⟨P.start x,[],0,[]⟩) (htaken : ∀ p n, I p → I { p with taken := n })
    (hact : ∀ p m q items, I p → P.act p.prog m = some (q,items) →
      I { p with prog := q, sent := p.sent++items })
    (hhear : ∀ p msg q, I p → P.hear p.prog msg = some q → I { p with prog := q, heard := p.heard++[msg] })
    (as : List (Action κ μ)) (s : State π) (h : run (step serde P cap) as init = some s) (k : ℕ) (p : Peer π)
    (hp : s.peers[k]? = some p) : I p := by
  have hall : ∀ p ∈ s.peers, I p := by
    refine run_invariant (fun s => ∀ p ∈ s.peers, I p) ?_ as init s (by simp [init]) h
    intro m a t hm ht
    have hset : ∀ k p p', m.peers[k]? = some p → (I p → I p') → ∀ q ∈ m.peers.set k p', I q := by
      intro k p p' hp hI q hq
      rcases List.mem_or_eq_of_mem_set hq with hq | rfl
      · exact hm q hq
      · exact hI (hm p (List.mem_of_getElem? hp))
    cases step_world serde P cap m a t ht with
    | connect x hub hh =>
      intro q hq
      rcases List.mem_append.mp hq with hq | hq
      · exact hm q hq
      · rw [List.mem_singleton.mp hq]
        exact hstart x
    | line k p item hub hp hi hh => exact hset k p _ hp fun hI => htaken p _ hI
    | hub a hub ha hh => exact hm
    | act k m p q items hp hq => exact hset k p _ hp fun hI => hact p m q items hI hq
    | hear k p c msg q hp hc hmsg hq => exact hset k p _ hp fun hI => hhear p msg q hI hq
  exact hall p (List.mem_of_getElem? hp)

theorem sum_act {κ' π' μ' : Type*} (P : Program κ π μ) (Q : Program κ' π' μ') (v : π) (m : μ ⊕ μ') (q : π ⊕ π')
    (items : List Item) (h : (P.sum Q).act (.inl v) m = some (q,items)) :
    ∃ n w, m = .inl n ∧ q = .inl w ∧ P.act v n = some (w,items) := by
  cases m with
  | inr m => cases h
  | inl n =>
    obtain ⟨⟨w,more⟩,hw,hq⟩ := Option.map_eq_some_iff.mp h
    cases hq
    exact ⟨n,w,rfl,rfl,hw⟩

theorem sum_hear {κ' π' μ' : Type*} (P : Program κ π μ) (Q : Program κ' π' μ') (v : π) (msg : ServerMsg) (q : π ⊕ π')
    (h : (P.sum Q).hear (.inl v) msg = some q) : ∃ w, q = .inl w ∧ P.hear v msg = some w := by
  obtain ⟨w,hw,rfl⟩ := Option.map_eq_some_iff.mp h
  exact ⟨w,rfl,hw⟩

theorem run_left {κ' π' μ' : Type*} (serde : Serde) (P : Program κ π μ) (Q : Program κ' π' μ') (cap : ℕ)
    (I : Peer π → Prop) (hstart : ∀ x, I ⟨P.start x,[],0,[]⟩) (htaken : ∀ p n, I p → I { p with taken := n })
    (hact : ∀ p m q items, I p → P.act p.prog m = some (q,items) →
      I { p with prog := q, sent := p.sent++items })
    (hhear : ∀ p msg q, I p → P.hear p.prog msg = some q → I { p with prog := q, heard := p.heard++[msg] })
    (as : List (Action (κ ⊕ κ') (μ ⊕ μ'))) (s : State (π ⊕ π'))
    (h : run (step serde (P.sum Q) cap) as init = some s) (k : ℕ) (p : Peer (π ⊕ π'))
    (hp : s.peers[k]? = some p) (v : π) (hv : p.prog = .inl v) : I ⟨v,p.sent,p.taken,p.heard⟩ := by
  refine run_peer serde (P.sum Q) cap (fun p => ∀ v, p.prog = .inl v → I ⟨v,p.sent,p.taken,p.heard⟩)
    ?_ ?_ ?_ ?_ as s h k p hp v hv
  · intro x v hx
    cases x with
    | inl x =>
      cases hx
      exact hstart x
    | inr x => cases hx
  · intro p n hI v hv
    exact htaken ⟨v,p.sent,p.taken,p.heard⟩ n (hI v hv)
  · intro p m q items hI hq v hv
    dsimp only at hv
    subst hv
    cases hprog : p.prog with
    | inl w =>
      rw [hprog] at hq
      obtain ⟨n,v',rfl,hv,hn⟩ := sum_act P Q w m _ items hq
      cases hv
      exact hact ⟨w,p.sent,p.taken,p.heard⟩ n v items (hI w hprog) hn
    | inr w =>
      rw [hprog] at hq
      cases m with
      | inl m => cases hq
      | inr m =>
        obtain ⟨r,_,hr⟩ := Option.map_eq_some_iff.mp hq
        cases hr
  · intro p msg q hI hq v hv
    dsimp only at hv
    subst hv
    cases hprog : p.prog with
    | inl w =>
      rw [hprog] at hq
      obtain ⟨v',hv,hn⟩ := sum_hear P Q w msg _ hq
      cases hv
      exact hhear ⟨w,p.sent,p.taken,p.heard⟩ msg v (hI w hprog) hn
    | inr w =>
      rw [hprog] at hq
      obtain ⟨r,_,hr⟩ := Option.map_eq_some_iff.mp hq
      cases hr

/-! ## The two ends of a connection -/

/-- What the handler has taken is what it was sent, and what the client has
heard is what it was written. -/
structure Linked (serde : Serde) (p : Peer π) (c : Conn) : Prop where
  taken : p.taken ≤ p.sent.length
  parsed : c.parsed = (messages (p.sent.take p.taken)).filter (fits serde)
  heard : p.heard <+: sentLines c

def Paired (serde : Serde) (s : State π) : Prop :=
  s.peers.length = s.hub.tasks.length ∧
    ∀ (k : ℕ) p c, s.peers[k]? = some p → s.hub.tasks[k]? = some c → Linked serde p c

theorem handler_lines (cap : ℕ) (sh : Shared) (c : Conn) (i : Input) (e : Effect) (c' : Conn)
    (h : HandlerStep sh c i e c') (hf : Delivery.Fed cap sh c)
    (hw : Delivery.NotWelcomed c.phase → c.welcome = none) : sentLines c <+: sentLines c' := by
  cases h with
  | welcome clock n h =>
    have hn : Delivery.NotWelcomed c.phase := by simp [h, Delivery.NotWelcomed]
    simp [sentLines, hw hn, hf.unstarted (hf.before hn)]
  | _ => exact List.prefix_refl _

theorem writer_lines (cap : ℕ) (sh : Shared) (c : Conn) (i : Input) (c' : Conn)
    (h : WriterStep cap sh c i c') : sentLines c <+: sentLines c' := by
  cases h with
  | written pos msg hw => simp [sentLines]
  | _ => exact List.prefix_refl _

theorem conn_lines (cap : ℕ) (bs : List Hub.Action) (s : Hub.State) (a : Hub.Action)
    (hs : run (Hub.step cap) bs Hub.init = some s) (k : ℕ) (c c' : Conn)
    (hc : s.tasks[k]? = some c) (hm : Moved cap s a k c c') : sentLines c <+: sentLines c' := by
  rcases hm with ⟨rfl,_⟩ | ⟨i,_,⟨e,hh⟩ | hw⟩
  · exact List.prefix_refl _
  · exact handler_lines cap s.shared c i e c' hh (Delivery.run_fed cap bs s hs k c hc)
      (PeerCount.unwelcomed cap bs s hs k c hc)
  · exact writer_lines cap s.shared c i c' hw

theorem parsed_step (cap : ℕ) (s : Hub.State) (a : Hub.Action) (k : ℕ) (c c' : Conn) (hm : Moved cap s a k c c') :
    c'.parsed = c.parsed++(linesOf k [a]).filterMap id := by
  rcases hm with ⟨rfl,hne⟩ | ⟨i,rfl,⟨e,hh⟩ | hw⟩
  · cases a with
    | conn j i =>
      have hj : j ≠ k := fun hj => hne i (by rw [hj])
      cases i <;> simp [linesOf, lineOf, hj]
    | _ => simp [linesOf, lineOf]
  · exact handler_parsed s.shared c i e c' hh k
  · exact writer_parsed cap s.shared c i c' hw k

theorem linesOf_inner (a : Hub.Action) (ha : inner a = true) (k : ℕ) : linesOf k [a] = [] := by
  cases a with
  | conn j i => cases i <;> simp_all [inner, linesOf, lineOf]
  | _ => rfl

/-- What a step of the server leaves of a connection whose client does not move. -/
theorem linked_step (serde : Serde) (cap : ℕ) (bs : List Hub.Action) (s : Hub.State) (a : Hub.Action)
    (hs : run (Hub.step cap) bs Hub.init = some s) (k : ℕ) (p : Peer π) (c c' : Conn)
    (hc : s.tasks[k]? = some c) (hm : Moved cap s a k c c') (hl : linesOf k [a] = [])
    (hlink : Linked serde p c) : Linked serde p c' := by
  refine ⟨hlink.taken,?_,hlink.heard.trans (conn_lines cap bs s a hs k c c' hc hm)⟩
  rw [parsed_step cap s a k c c' hm, hl, List.filterMap_nil, List.append_nil, hlink.parsed]

theorem messages_bot (msgs : List ClientMsg) : messages (msgs.map Item.bot) = msgs := by
  rw [messages, List.filterMap_map]
  exact List.filterMap_some

theorem messages_take (serde : Serde) (sent : List Item) (n : ℕ) (item : Item) (h : sent[n]? = some item) :
    (messages (sent.take (n+1))).filter (fits serde) =
      (messages (sent.take n)).filter (fits serde)++(decodedItem serde item).toList := by
  obtain ⟨hn,rfl⟩ := List.getElem?_eq_some_iff.mp h
  rw [← decodedItem_messages, ← decodedItem_messages, List.take_succ_eq_append_getElem hn, List.map_append,
    List.filterMap_append]
  congr 1

theorem linked_line (serde : Serde) (cap : ℕ) (bs : List Hub.Action) (s : Hub.State) (k : ℕ)
    (hs : run (Hub.step cap) bs Hub.init = some s) (p : Peer π) (item : Item) (c c' : Conn)
    (hc : s.tasks[k]? = some c) (hi : p.sent[p.taken]? = some item)
    (hm : Moved cap s (.conn k (.line (decodedItem serde item))) k c c') (hlink : Linked serde p c) :
    Linked serde { p with taken := p.taken+1 } c' := by
  refine ⟨(List.getElem?_eq_some_iff.mp hi).1,?_,
    hlink.heard.trans (conn_lines cap bs s _ hs k c c' hc hm)⟩
  rw [messages_take serde p.sent p.taken item hi, parsed_step cap s _ k c c' hm, hlink.parsed]
  cases decodedItem serde item <;> simp [linesOf, lineOf]

theorem linesOf_other (a : Hub.Action) (j k : ℕ) (i : Input) (ha : a = .conn j i) (hj : j ≠ k) :
    linesOf k [a] = [] := by
  subst ha
  cases i <;> simp [linesOf, lineOf, hj]

theorem prefix_concat_next {β : Type*} (l m : List β) (x : β) (h : l <+: m) (hx : m[l.length]? = some x) :
    l++[x] <+: m := by
  obtain ⟨rest,rfl⟩ := h
  rw [List.getElem?_append_right (Nat.le_refl _), Nat.sub_self] at hx
  cases rest with
  | nil => simp at hx
  | cons y rest =>
    obtain rfl : y = x := by simpa using hx
    exact ⟨rest,by simp⟩

theorem step_paired (serde : Serde) (P : Program κ π μ) (cap : ℕ) (s : State π) (a : Action κ μ) (t : State π)
    (bs : List Hub.Action) (hb : run (Hub.step cap) bs Hub.init = some s.hub) (hs : Paired serde s)
    (h : step serde P cap s a = some t) : Paired serde t := by
  obtain ⟨hlen,hlink⟩ := hs
  cases step_world serde P cap s a t h with
  | connect x hub hh =>
    have hlt := Hub.step_hub cap s.hub .spawn hub hh
    cases hlt
    refine ⟨by simp [hlen],fun k q c hq hc => ?_⟩
    rcases Nat.lt_or_ge k s.peers.length with hk | hk
    · rw [List.getElem?_append_left hk] at hq
      rw [List.getElem?_append_left (hlen ▸ hk)] at hc
      exact hlink k q c hq hc
    · rw [List.getElem?_append_right hk, List.getElem?_singleton] at hq
      rw [List.getElem?_append_right (hlen ▸ hk), List.getElem?_singleton] at hc
      split_ifs at hq hc
      cases hq
      cases hc
      exact ⟨Nat.le_refl _,rfl,List.nil_prefix⟩
  | line j p item hub hp hi hh =>
    have hgrow : hub.tasks.length = s.hub.tasks.length := by
      cases Hub.step_hub cap s.hub _ hub hh <;> simp
    refine ⟨by rw [List.length_set, hlen, hgrow],fun k q c hq hc => ?_⟩
    rcases conn_backward cap s.hub hub _ hh k c hc with ⟨d,hd,hm⟩ | ⟨hsp,_⟩
    · rcases getElem?_set_cases s.peers j k _ q hq with ⟨rfl,rfl⟩ | ⟨hj,hq⟩
      · exact linked_line serde cap bs s.hub k hb p item d c hd hi hm (hlink k p d hp hd)
      · exact linked_step serde cap bs s.hub _ hb k q d c hd hm (linesOf_other _ j k _ rfl (Ne.symm hj))
          (hlink k q d hq hd)
    · cases hsp
  | hub b hub hb' hh =>
    have hgrow : hub.tasks.length = s.hub.tasks.length := by
      cases Hub.step_hub cap s.hub _ hub hh <;> simp [inner] at hb' ⊢
    refine ⟨hlen.trans hgrow.symm,fun k q c hq hc => ?_⟩
    rcases conn_backward cap s.hub hub _ hh k c hc with ⟨d,hd,hm⟩ | ⟨rfl,_⟩
    · exact linked_step serde cap bs s.hub b hb k q d c hd hm (linesOf_inner b hb' k) (hlink k q d hq hd)
    · simp [inner] at hb'
  | act j m p q items hp hact =>
    refine ⟨by rw [List.length_set, hlen],fun k r c hr hc => ?_⟩
    rcases getElem?_set_cases s.peers j k _ r hr with ⟨rfl,rfl⟩ | ⟨_,hr⟩
    · obtain ⟨htaken,hparsed,hheard⟩ := hlink k p c hp hc
      refine ⟨by rw [List.length_append]; exact Nat.le_add_right_of_le htaken,?_,hheard⟩
      rw [List.take_append_of_le_length htaken]
      exact hparsed
    · exact hlink k r c hr hc
  | hear j p c msg q hp hc hm hhear =>
    refine ⟨by rw [List.length_set, hlen],fun k r d hr hd => ?_⟩
    rcases getElem?_set_cases s.peers j k _ r hr with ⟨rfl,rfl⟩ | ⟨_,hr⟩
    · obtain rfl : c = d := Option.some.inj (hc.symm.trans hd)
      obtain ⟨htaken,hparsed,hheard⟩ := hlink k p c hp hc
      exact ⟨htaken,hparsed,prefix_concat_next p.heard (sentLines c) msg hheard hm⟩
    · exact hlink k r d hr hd

theorem run_paired (serde : Serde) (P : Program κ π μ) (cap : ℕ) (as : List (Action κ μ)) (s : State π)
    (h : run (step serde P cap) as init = some s) : Paired serde s := by
  refine run_history (fun _ => Paired serde) init ⟨rfl,by simp [init]⟩ ?_ as s h
  intro as m a t hm hp ht
  obtain ⟨bs,hb⟩ := run_hub serde P cap as m hm
  exact step_paired serde P cap m a t bs hb hp ht

end RustChat.World
