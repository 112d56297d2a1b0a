import RustChat.World

/-!
# The bytes of a world

A world passes messages. Here both streams of a connection are bytes again:
what a client has written, as its handler cuts and decodes it, and what a
handler has written, as its client does. `serde_json` is a parameter in this
direction too.
-/

set_option autoImplicit false

namespace RustChat.Wire
open Runs TaskPool Protocol Utf8 LineReader LineFraming FrameRoundTrip TitleUnderflow World
open Handler (Conn)

/-! ## The client's reader -/

/-- `serde_json::to_string` and `serde_json::from_str` at `ServerMsg`. -/
structure ServerSerde where
  toString : ServerMsg → String
  fromStr : String → Option ServerMsg

structure ServerFaithful (serde : ServerSerde) (msg : ServerMsg) : Prop where
  line : newline ∉ asBytes (serde.toString msg)
  last : (asBytes (serde.toString msg)).getLast? ≠ some carriageReturn
  decoded : serde.fromStr (serde.toString msg) = some msg

def line (serde : ServerSerde) (msg : ServerMsg) : List UInt8 := asBytes (serde.toString msg)++[newline]

def fromUtf8 (bs : List UInt8) : Option String := String.fromUTF8? bs.toByteArray

/-- The results of `Lines::next_line` on a stream that ends; `none` is an error. -/
def nextLine (stream : List UInt8) : List (Option String) :=
  (stream.splitOn newline).dropLast.map (fun seg => fromUtf8 (withoutReturn seg))++
    let tail := (stream.splitOn newline).getLastD []
    if tail = [] then [] else [fromUtf8 tail]

/-- `while let Ok(Some(line))`. -/
def textLines (stream : List UInt8) : List String := ((nextLine stream).takeWhile Option.isSome).filterMap id

/-- The messages the loop of a client handles; it goes on after what does not decode. -/
def decoded (serde : ServerSerde) (stream : List UInt8) : List ServerMsg :=
  (textLines stream).filterMap serde.fromStr

theorem fromUtf8_asBytes (s : String) : fromUtf8 (asBytes s) = some s := by
  have hback : (asBytes s).toByteArray = s.toByteArray := ByteArray.ext (by simp [asBytes])
  rw [fromUtf8, hback, String.fromUTF8?, dif_pos s.isValidUTF8]
  rfl

theorem splitOn_framed (segs : List (List UInt8)) (h : ∀ seg ∈ segs, newline ∉ seg) :
    (segs.flatMap (·++[newline])).splitOn newline = segs++[[]] := by
  induction segs with
  | nil => rfl
  | cons seg segs ih =>
    rw [List.flatMap_cons, List.append_assoc, List.singleton_append,
      List.splitOn_append_cons_self_of_not_mem (h seg List.mem_cons_self),
      ih fun seg hs => h seg (List.mem_cons_of_mem _ hs)]
    rfl

/-- Every line is read as the text it was made of. -/
theorem textLines_lines (serde : ServerSerde) (msgs : List ServerMsg)
    (h : ∀ msg ∈ msgs, ServerFaithful serde msg) :
    textLines (msgs.flatMap (line serde)) = msgs.map serde.toString := by
  have hframed : msgs.flatMap (line serde) =
      (msgs.map fun msg => asBytes (serde.toString msg)).flatMap (·++[newline]) := by
    rw [List.flatMap_map]
    rfl
  have hsplit := splitOn_framed (msgs.map fun msg => asBytes (serde.toString msg)) (by
    intro seg hs
    obtain ⟨msg,hm,rfl⟩ := List.mem_map.mp hs
    exact (h msg hm).line)
  have hline : ∀ msg ∈ msgs, fromUtf8 (withoutReturn (asBytes (serde.toString msg))) =
      some (serde.toString msg) := by
    intro msg hm
    rw [← dropCarriageReturn_eq, dropCarriageReturn, if_neg (h msg hm).last, fromUtf8_asBytes]
  have hnext : nextLine (msgs.flatMap (line serde)) = (msgs.map serde.toString).map some := by
    have htail : (msgs.map (fun msg => asBytes (serde.toString msg))++[[]]).getLastD [] = [] := by simp
    rw [nextLine, hframed, hsplit, List.dropLast_concat, htail, List.map_map, List.map_map]
    simp only [if_true, List.append_nil]
    exact List.map_congr_left hline
  rw [textLines, hnext]
  simp [List.takeWhile_eq_self_iff.mpr]

theorem decoded_lines (serde : ServerSerde) (msgs : List ServerMsg)
    (h : ∀ msg ∈ msgs, ServerFaithful serde msg) :
    decoded serde (msgs.flatMap (line serde)) = msgs := by
  rw [decoded, textLines_lines serde msgs h, List.filterMap_map]
  induction msgs with
  | nil => rfl
  | cons msg msgs ih =>
    have hmsg : (serde.fromStr ∘ serde.toString) msg = some msg := (h msg List.mem_cons_self).decoded
    rw [List.filterMap_cons_some hmsg, ih fun msg hm => h msg (List.mem_cons_of_mem _ hm)]

/-! ## The handlers' inputs -/

section Inputs
variable {κ π μ : Type*}

/-- The lines handler `k` has read in a run of the server are what its client's
first lines decode to. -/
def Inputs (serde : Serde) (bs : List Hub.Action) (s : State π) : Prop :=
  ∀ (k : ℕ) p, s.peers[k]? = some p → linesOf k bs = (p.sent.take p.taken).map (decodedItem serde)

theorem linesOf_snoc (k : ℕ) (bs : List Hub.Action) (b : Hub.Action) :
    linesOf k (bs++[b]) = linesOf k bs++linesOf k [b] := List.filterMap_append

theorem step_inputs (serde : Serde) (P : Program κ π μ) (cap : ℕ) (s : State π) (a : Action κ μ)
    (t : State π) (bs : List Hub.Action) (hb : run (Hub.step cap) bs Hub.init = some s.hub)
    (hp : Paired serde s) (hs : Inputs serde bs s) (h : step serde P cap s a = some t) :
    ∃ bs', run (Hub.step cap) bs' Hub.init = some t.hub ∧ Inputs serde bs' t := by
  cases step_world serde P cap s a t h with
  | connect x hub hh =>
    refine ⟨bs++[.spawn],(run_snoc bs _ _ _).mpr ⟨s.hub,hb,hh⟩,fun k q hq => ?_⟩
    rw [linesOf_snoc, show linesOf k [.spawn] = [] from rfl, List.append_nil]
    rcases Nat.lt_or_ge k s.peers.length with hk | hk
    · rw [List.getElem?_append_left hk] at hq
      exact hs k q hq
    · -- nothing was read for a handler that was not there
      rw [List.getElem?_append_right hk, List.getElem?_singleton] at hq
      split_ifs at hq
      cases hq
      exact (run_parsed cap bs s.hub hb).2 k (hp.1 ▸ hk)
  | line j p item hub hq hi hh =>
    refine ⟨bs++[_],(run_snoc bs _ _ _).mpr ⟨s.hub,hb,hh⟩,fun k r hr => ?_⟩
    rw [linesOf_snoc]
    rcases getElem?_set_cases s.peers j k _ r hr with ⟨rfl,rfl⟩ | ⟨hj,hr⟩
    · obtain ⟨hlt,rfl⟩ := List.getElem?_eq_some_iff.mp hi
      rw [hs k p hq, List.take_succ_eq_append_getElem hlt, List.map_append]
      simp [linesOf, lineOf]
    · rw [linesOf_other _ j k _ rfl (Ne.symm hj), List.append_nil]
      exact hs k r hr
  | hub b hub hb' hh =>
    refine ⟨bs++[b],(run_snoc bs _ _ _).mpr ⟨s.hub,hb,hh⟩,fun k q hq => ?_⟩
    rw [linesOf_snoc, linesOf_inner b hb' k, List.append_nil]
    exact hs k q hq
  | act j m p q items hq hact =>
    refine ⟨bs,hb,fun k r hr => ?_⟩
    rcases getElem?_set_cases s.peers j k _ r hr with ⟨rfl,rfl⟩ | ⟨_,hr⟩
    · -- what is written now stands behind what is taken
      obtain ⟨hk,_⟩ := List.getElem?_eq_some_iff.mp hq
      have htaken := (hp.2 k p _ hq (List.getElem?_eq_getElem (hp.1 ▸ hk))).taken
      rw [List.take_append_of_le_length htaken]
      exact hs k p hq
    · exact hs k r hr
  | hear j p c msg q hq hc hm hhear =>
    refine ⟨bs,hb,fun k r hr => ?_⟩
    rcases getElem?_set_cases s.peers j k _ r hr with ⟨rfl,rfl⟩ | ⟨_,hr⟩
    · exact hs k p hq
    · exact hs k r hr

theorem run_inputs (serde : Serde) (P : Program κ π μ) (cap : ℕ) (as : List (Action κ μ)) (s : State π)
    (h : run (step serde P cap) as init = some s) :
    ∃ bs, run (Hub.step cap) bs Hub.init = some s.hub ∧ Inputs serde bs s := by
  refine run_history (fun _ s => ∃ bs, run (Hub.step cap) bs Hub.init = some s.hub ∧ Inputs serde bs s)
    init ⟨[],rfl,by simp [Inputs, init]⟩ ?_ as s h
  rintro as m a t hm ⟨bs,hb,hs⟩ ht
  exact step_inputs serde P cap m a t bs hb (run_paired serde P cap as m hm) hs ht

/-- For every run of a world there is one of its server alone in which each
handler reads exactly what `decodedLines` gives of the bytes its client has
written, as far as it has taken them and however they came in chunks; and what
a client has heard is what its own loop gives of the bytes it was written. -/
theorem streams_decoded (serde : Serde) (server : ServerSerde) (P : Program κ π μ) (cap : ℕ)
    (hempty : serde.fromStr "" = none) (as : List (Action κ μ)) (s : State π)
    (h : run (step serde P cap) as init = some s) :
    ∃ bs, run (Hub.step cap) bs Hub.init = some s.hub ∧
      ∀ (k : ℕ) p c, s.peers[k]? = some p → s.hub.tasks[k]? = some c →
        ((∀ msg ∈ messages p.sent, Faithful serde msg) → (∀ line, .junk line ∈ p.sent → Junk serde line) →
          ∀ sizes, linesOf k bs =
            (decodedLines serde ⟨p.sent.flatMap (bytes serde),sizes⟩).take p.taken) ∧
        ((∀ msg ∈ sentLines c, ServerFaithful server msg) →
          textLines ((sentLines c).flatMap (line server)) = (sentLines c).map server.toString ∧
          p.heard = (decoded server ((sentLines c).flatMap (line server))).take p.heard.length) := by
  obtain ⟨bs,hb,hin⟩ := run_inputs serde P cap as s h
  refine ⟨bs,hb,fun k p c hp hc => ⟨fun hmsg hjunk sizes => ?_,fun hserver => ⟨?_,?_⟩⟩⟩
  · rw [decodedLines_items serde p.sent sizes hempty hmsg hjunk, hin k p hp, List.map_take]
  · exact textLines_lines server (sentLines c) hserver
  · rw [decoded_lines server (sentLines c) hserver]
    exact List.prefix_iff_eq_take.mp ((run_paired serde P cap as s h).2 k p c hp hc).heard

end Inputs

/-! ## An instance -/

def serverTexts : List (ServerMsg × String) :=
  [(.welcome 1,"\x7b\"type\":\"welcome\",\"peer_count\":1\x7d"),
   (.presence 1 true,"\x7b\"type\":\"presence\",\"id\":1,\"joined\":true\x7d"),
   (.chat 1 none "a\nb" 9 7,
    "\x7b\"type\":\"chat\",\"from\":1,\"nick\":null,\"text\":\"a\\nb\",\"sent_at\":9,\"client_ts\":7\x7d")]

def tableServer : ServerSerde where
  toString msg := ((serverTexts.find? fun x => x.1 = msg).map Prod.snd).getD ""
  fromStr text := (serverTexts.find? fun x => x.2 = text).map Prod.fst

/-- A client that writes what it is told to and reads everything. -/
def obedient : Program Unit Unit (List Item) :=
  ⟨fun _ => (),fun _ items => some ((),items),fun _ _ => some ()⟩

/-- Of three lines two are taken; the chat comes back. -/
def exchange : List (Action Unit (List Item)) :=
  .connect ()::List.replicate 4 (.hub (.conn 0 (.go 0)))++
  [.act 0 [.junk [0x0D],.bot (.chat "a\nb" 7),.terminal (.vote 1)],.line 0,.line 0]++
  List.replicate 3 (.hub (.conn 0 (.go 9)))++
  [.hub (.conn 0 .recv),.hub (.conn 0 .written),.hub (.conn 0 .recv),.hub (.conn 0 .written),
   .hear 0,.hear 0,.hear 0]

def exchangeEnd : State Unit :=
  (run (step tableSerde obedient 16) exchange init).get (by decide +kernel)

def exchangePeer : Peer Unit := exchangeEnd.peers.get ⟨0,by decide +kernel⟩

def exchangeConn : Conn := exchangeEnd.hub.tasks.get ⟨0,by decide +kernel⟩

theorem exchange_decoded :
    exchangePeer.heard.length = 3 ∧
    exchangePeer.heard = decoded tableServer ((sentLines exchangeConn).flatMap (line tableServer)) ∧
    ∃ bs, run (Hub.step 16) bs Hub.init = some exchangeEnd.hub ∧
      linesOf 0 bs =
        (decodedLines tableSerde ⟨exchangePeer.sent.flatMap (bytes tableSerde),id⟩).take 2 := by
  obtain ⟨bs,hb,hall⟩ := streams_decoded tableSerde tableServer obedient 16 (by decide +kernel) exchange
    exchangeEnd (Option.some_get _).symm
  obtain ⟨htaken,hheard⟩ := hall 0 exchangePeer exchangeConn (List.getElem?_eq_getElem _)
    (List.getElem?_eq_getElem _)
  have hmsg : ∀ msg ∈ messages exchangePeer.sent, Faithful tableSerde msg := by
    intro msg hm
    have hm' : msg ∈ [ClientMsg.chat "a\nb" 7,.vote 1] := hm
    simp only [List.mem_cons, List.not_mem_nil, or_false] at hm'
    rcases hm' with rfl | rfl <;> exact ⟨by decide +kernel,by decide +kernel,by decide +kernel⟩
  have hjunk : ∀ line, .junk line ∈ exchangePeer.sent → Junk tableSerde line := by
    intro line hl
    have hl' : Item.junk line ∈ [Item.junk [0x0D],.bot (.chat "a\nb" 7),.terminal (.vote 1)] := hl
    simp only [List.mem_cons, Item.junk.injEq, reduceCtorEq, List.not_mem_nil, or_false] at hl'
    subst hl'
    exact ⟨by decide,Or.inr (by decide +kernel)⟩
  have hserver : ∀ msg ∈ sentLines exchangeConn, ServerFaithful tableServer msg := by
    intro msg hm
    have hm' : msg ∈ [ServerMsg.welcome 1,.presence 1 true,.chat 1 none "a\nb" 9 7] := hm
    simp only [List.mem_cons, List.not_mem_nil, or_false] at hm'
    rcases hm' with rfl | rfl | rfl <;> exact ⟨by decide +kernel,by decide +kernel,by decide +kernel⟩
  have hthree : exchangePeer.heard.length = 3 := by decide +kernel
  have hwhole := (hheard hserver).2
  have hlength : (decoded tableServer ((sentLines exchangeConn).flatMap (line tableServer))).length ≤ 3 := by
    rw [decoded_lines tableServer _ hserver]
    decide +kernel
  rw [hthree, List.take_of_length_le hlength] at hwhole
  exact ⟨hthree,hwhole,bs,hb,htaken hmsg hjunk id⟩

end RustChat.Wire
