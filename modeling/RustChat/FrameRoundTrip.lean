import RustChat.Hub
import RustChat.LineFraming

/-!
# From the sender's frames to the handler's messages

The bots and the terminal client write a message as its JSON text and a
newline; the handler reads bounded lines and skips what does not decode.
`serde_json` is a parameter, and what is relied on of it is said message by
message.
-/

set_option autoImplicit false

namespace RustChat.FrameRoundTrip
open Runs TaskPool Protocol Utf8 LineReader LineFraming Handler HandlerSteps Hub

/-- `serde_json::to_string` and `serde_json::from_str` at `ClientMsg`. -/
structure Serde where
  toString : ClientMsg → String
  fromStr : String → Option ClientMsg

/-- The text has no raw newline, does not end in a carriage return and decodes
to the message. -/
structure Faithful (serde : Serde) (msg : ClientMsg) : Prop where
  line : newline ∉ asBytes (serde.toString msg)
  last : (asBytes (serde.toString msg)).getLast? ≠ some carriageReturn
  decoded : serde.fromStr (serde.toString msg) = some msg

def frame (serde : Serde) (msg : ClientMsg) : List UInt8 := asBytes (serde.toString msg)++[newline]

def sendMsg (serde : Serde) (msg : ClientMsg) : List UInt8 := frame serde msg

def send (serde : Serde) (msg : ClientMsg) : List UInt8 := frame serde msg

/-- What may stand in a client's stream. -/
inductive Item where
  | bot (msg : ClientMsg)
  | terminal (msg : ClientMsg)
  | junk (line : List UInt8)

def bytes (serde : Serde) : Item → List UInt8
  | .bot msg => sendMsg serde msg
  | .terminal msg => send serde msg
  | .junk line => line++[newline]

def message : Item → Option ClientMsg
  | .bot msg | .terminal msg => some msg
  | .junk _ => none

def messages (items : List Item) : List ClientMsg := items.filterMap message

/-- A complete line that is too long, or whose lossy decoding is not the JSON
of a message. -/
def Junk (serde : Serde) (line : List UInt8) : Prop :=
  newline ∉ line ∧ (maxLineLen < line.length ∨ serde.fromStr (fromUtf8Lossy (withoutReturn line)) = none)

/-- A complete line whose bytes are not the JSON of a message. -/
def NotJson (serde : Serde) (line : List UInt8) : Prop :=
  newline ∉ line ∧ ∀ text, asBytes text = line → serde.fromStr text = none

def fits (serde : Serde) (msg : ClientMsg) : Bool :=
  decide ((asBytes (serde.toString msg)).length ≤ maxLineLen)

/-- The lines of the read loop as it decodes them; the `none` are skipped. -/
def decodedLines (serde : Serde) (r : Reader) : List (Option ClientMsg) :=
  (readAll maxLineLen r).map serde.fromStr

/-! ## Line by line -/

theorem decode_message (serde : Serde) (msg : ClientMsg) (hempty : serde.fromStr "" = none)
    (h : Faithful serde msg) :
    serde.fromStr (terminated maxLineLen (asBytes (serde.toString msg))) =
      if fits serde msg then some msg else none := by
  by_cases hfit : (asBytes (serde.toString msg)).length ≤ maxLineLen
  · have hkeep : dropCarriageReturn (asBytes (serde.toString msg)) = asBytes (serde.toString msg) := by
      rw [dropCarriageReturn, if_neg h.last]
    rw [terminated, if_neg (Nat.not_lt.mpr hfit), ← dropCarriageReturn_eq, hkeep, fromUtf8Lossy_asBytes,
      h.decoded]
    simp [fits, hfit]
  · rw [terminated, if_pos (Nat.lt_of_not_le hfit), hempty]
    simp [fits, hfit]

theorem decode_junk (serde : Serde) (line : List UInt8) (hempty : serde.fromStr "" = none)
    (h : Junk serde line) : serde.fromStr (terminated maxLineLen line) = none := by
  unfold terminated
  split_ifs with hlong
  · exact hempty
  · exact h.2.resolve_left hlong

def decodedItem (serde : Serde) (item : Item) : Option ClientMsg := (message item).filter (fits serde)

theorem decodedLines_items (serde : Serde) (items : List Item) (sizes : ℕ → ℕ)
    (hempty : serde.fromStr "" = none) (hmsg : ∀ msg ∈ messages items, Faithful serde msg)
    (hjunk : ∀ line, .junk line ∈ items → Junk serde line) :
    decodedLines serde ⟨items.flatMap (bytes serde),sizes⟩ = items.map (decodedItem serde) := by
  rw [decodedLines, readAll_reference]
  induction items with
  | nil => simp [reference, unterminated]
  | cons item items ih =>
    have ih' := ih (fun msg hm => hmsg msg (by
      rw [messages, List.filterMap_cons]
      split
      · exact hm
      · exact List.mem_cons_of_mem _ hm)) (fun line hl => hjunk line (List.mem_cons_of_mem _ hl))
    -- every item is one line, and the rest of the stream follows its newline
    have hone : ∀ seg, newline ∉ seg → bytes serde item = seg++[newline] →
        serde.fromStr (terminated maxLineLen seg) = decodedItem serde item →
        (reference maxLineLen ((item::items).flatMap (bytes serde))).map serde.fromStr =
          (item::items).map (decodedItem serde) := fun seg hseg hb hd => by
      rw [List.flatMap_cons, hb, List.append_assoc, List.singleton_append, reference_cons _ _ _ hseg,
        List.map_cons, List.map_cons, hd]
      exact congrArg _ ih'
    have hsent : ∀ msg, message item = some msg → bytes serde item = frame serde msg →
        (reference maxLineLen ((item::items).flatMap (bytes serde))).map serde.fromStr =
          (item::items).map (decodedItem serde) := fun msg hm hb => by
      have hf := hmsg msg (by simp [messages, hm])
      refine hone _ hf.line hb ?_
      rw [decode_message serde msg hempty hf, decodedItem, hm]
      cases hfit : fits serde msg <;> simp [Option.filter, hfit]
    cases item with
    | bot msg | terminal msg => exact hsent msg rfl rfl
    | junk line =>
      have hj := hjunk line List.mem_cons_self
      exact hone line hj.1 rfl (decode_junk serde line hempty hj)

theorem decodedItem_messages (serde : Serde) (items : List Item) :
    (items.map (decodedItem serde)).filterMap id = (messages items).filter (fits serde) := by
  induction items with
  | nil => rfl
  | cons item items ih =>
    cases item with
    | bot msg | terminal msg =>
      cases hfit : fits serde msg <;>
        simpa [messages, List.filterMap_cons, decodedItem, message, Option.filter, hfit] using ih
    | junk line => simpa [messages, List.filterMap_cons, decodedItem, message] using ih

/-! ## The handler that reads them -/

def lineOf (k : ℕ) : Action → Option (Option ClientMsg)
  | .conn j (.line msg) => if j = k then some msg else none
  | _ => none

/-- The decoded lines handler `k` has read in a run. -/
def linesOf (k : ℕ) (as : List Action) : List (Option ClientMsg) := as.filterMap (lineOf k)

def isSkip : Action → Bool
  | .conn _ (.line none) => true
  | _ => false

theorem skip_unchanged (cap : ℕ) (s : State) (a : Action) (t : State) (ha : isSkip a = true)
    (h : step cap s a = some t) : t = s := by
  cases a with
  | conn k i =>
    cases i with
    | line msg =>
      cases msg with
      | some msg => simp [isSkip] at ha
      | none =>
        obtain ⟨c,sh,c',fs,hc,hn,rfl⟩ := move_cases (next cap) s t k (.line none) h
        simp only [next, act] at hn
        split_ifs at hn
        · cases hn
          obtain ⟨hk,rfl⟩ := List.getElem?_eq_some_iff.mp hc
          rw [List.append_nil, List.set_getElem_self]
          rfl
        · simp at hn
    | _ => simp [isSkip] at ha
  | _ => simp [isSkip] at ha

theorem run_without_skips (cap : ℕ) (as : List Action) (s t : State) (h : run (step cap) as s = some t) :
    run (step cap) (as.filter fun a => !isSkip a) s = some t := by
  induction as generalizing s with
  | nil => exact h
  | cons a as ih =>
    obtain ⟨m,hm,hrest⟩ := (run_cons a as s t).mp h
    cases ha : isSkip a with
    | true =>
      obtain rfl := skip_unchanged cap s a m ha hm
      simpa [List.filter_cons, ha] using ih m hrest
    | false =>
      rw [List.filter_cons_of_pos (by simp [ha])]
      exact (run_cons a _ s t).mpr ⟨m,hm,ih m hrest⟩

theorem handler_parsed (sh : Shared) (c : Conn) (i : Input) (e : Effect) (c' : Conn)
    (h : HandlerStep sh c i e c') (k : ℕ) :
    c'.parsed = c.parsed++(linesOf k [.conn k i]).filterMap id := by
  cases h with
  | parse msg h => simp [linesOf, lineOf]
  | skip h => simp [linesOf, lineOf]
  | stop i hi h => rcases hi with rfl | rfl | ⟨rfl,_⟩ <;> exact (List.append_nil c.parsed).symm
  | _ => exact (List.append_nil c.parsed).symm

theorem writer_parsed (cap : ℕ) (sh : Shared) (c : Conn) (i : Input) (c' : Conn)
    (h : WriterStep cap sh c i c') (k : ℕ) :
    c'.parsed = c.parsed++(linesOf k [.conn k i]).filterMap id := by
  cases h with
  | stop i hi hw => rcases hi with rfl | rfl | rfl <;> exact (List.append_nil c.parsed).symm
  | _ => exact (List.append_nil c.parsed).symm

/-- A handler has parsed the lines it read that decode, in order. -/
def Parsed (as : List Action) (s : State) : Prop :=
  (∀ (k : ℕ) c, s.tasks[k]? = some c → c.parsed = (linesOf k as).filterMap id) ∧
    ∀ k, s.tasks.length ≤ k → linesOf k as = []

theorem run_parsed (cap : ℕ) (as : List Action) (s : State) (h : run (step cap) as init = some s) :
    Parsed as s := by
  refine run_history Parsed init ⟨by simp [init],fun k _ => rfl⟩ ?_ as s h
  rintro as m a t _ ⟨hall,hnew⟩ ht
  have hother : ∀ k, (∀ i, a ≠ .conn k i) → linesOf k [a] = [] := fun k hne => by
    cases a with
    | conn j i =>
      have hj : j ≠ k := fun hj => hne i (by rw [hj])
      cases i <;> simp [linesOf, lineOf, hj]
    | _ => rfl
  refine ⟨fun k c' hc' => ?_,fun k hk => ?_⟩
  · rw [linesOf, List.filterMap_append, List.filterMap_append]
    change c'.parsed = (linesOf k as).filterMap id++(linesOf k [a]).filterMap id
    rcases conn_backward cap m t a ht k c' hc' with
      ⟨c,hc,⟨rfl,hne⟩ | ⟨i,rfl,⟨e,hs⟩ | hw⟩⟩ | ⟨rfl,rfl,rfl⟩
    · rw [hother k hne, hall k c' hc]
      simp
    · rw [← hall k c hc]
      exact handler_parsed m.shared c i e c' hs k
    · rw [← hall k c hc]
      exact writer_parsed cap m.shared c i c' hw k
    · rw [hnew _ (Nat.le_refl _)]
      rfl
  · have hlen := step_length cap m t a ht
    have hne : ∀ i, a ≠ .conn k i := by
      rintro i rfl
      obtain ⟨d,_,_,_,hd,_,_⟩ := move_cases (next cap) m t k i ht
      have hlt := (List.getElem?_eq_some_iff.mp hd).1
      omega
    rw [linesOf, List.filterMap_append]
    change linesOf k as++linesOf k [a] = []
    rw [hother k hne, hnew k (by omega)]
    rfl

/-- For all messages and junk lines in any order and any split of the stream
into chunks: each is read as one line, and the lines that decode are the short
messages, in order and each once; a handler that has read some of them, in any
run of the server, has parsed the short messages among these; and all other
lines can be left out of the run without a change in the state it ends in. -/
theorem short_messages_dispatched (serde : Serde) (items : List Item) (sizes : ℕ → ℕ)
    (hempty : serde.fromStr "" = none) (hmsg : ∀ msg ∈ messages items, Faithful serde msg)
    (hjunk : ∀ line, .junk line ∈ items → Junk serde line) :
    decodedLines serde ⟨items.flatMap (bytes serde),sizes⟩ = items.map (decodedItem serde) ∧
      (items.map (decodedItem serde)).filterMap id = (messages items).filter (fits serde) ∧
      ∀ cap as s (k : ℕ) c, run (step cap) as init = some s → s.tasks[k]? = some c →
        linesOf k as <+: decodedLines serde ⟨items.flatMap (bytes serde),sizes⟩ →
        c.parsed <+: (messages items).filter (fits serde) ∧
        (linesOf k as = decodedLines serde ⟨items.flatMap (bytes serde),sizes⟩ →
          c.parsed = (messages items).filter (fits serde)) ∧
        run (step cap) (as.filter fun a => !isSkip a) init = some s := by
  have hlines := decodedLines_items serde items sizes hempty hmsg hjunk
  have hshort := decodedItem_messages serde items
  refine ⟨hlines,hshort,fun cap as s k c h hc hpre => ?_⟩
  have hparsed := (run_parsed cap as s h).1 k c hc
  rw [hlines] at hpre ⊢
  refine ⟨?_,fun hall => ?_,run_without_skips cap as init s h⟩
  · rw [hparsed, ← hshort]
    exact hpre.filterMap id
  · rw [hparsed, hall, hshort]

/-! ## An instance -/

def texts : List (ClientMsg × String) :=
  [(.chat "a\nb" 7,"\x7b\"type\":\"chat\",\"text\":\"a\\nb\",\"client_ts\":7\x7d"),
   (.vote 1,"\x7b\"type\":\"vote\",\"option\":1\x7d"),
   (.unvote,"\x7b\"type\":\"unvote\"\x7d")]

def tableSerde : Serde where
  toString msg := ((texts.find? fun x => x.1 = msg).map Prod.snd).getD ""
  fromStr text := (texts.find? fun x => x.2 = text).map Prod.fst

/-- A vote, an empty line, a chat, a line that is too long, and a withdrawal. -/
def mixed : List Item :=
  [.bot (.vote 1),.junk [],.terminal (.chat "a\nb" 7),.junk (List.replicate 65537 0x61),.bot .unvote]

def readMixed : List Action :=
  .spawn::List.replicate 4 (.conn 0 (.go 1000))++[.conn 0 (.line (some (.vote 1)))]++
  List.replicate 8 (.conn 0 (.go 1000))++List.replicate 4 (.throttle 0 1000)++
  [.conn 0 (.go 1000),.conn 0 (.line none),.conn 0 (.line (some (.chat "a\nb" 7))),
   .conn 0 (.go 1000),.conn 0 (.go 1000),.conn 0 (.go 1000),.conn 0 (.line none),
   .conn 0 (.line (some .unvote))]

def readMixedEnd : State := (run (step 16) readMixed init).get (by decide +kernel)

def readMixedConn : Conn := readMixedEnd.tasks.get ⟨0,by decide +kernel⟩

theorem mixed_dispatched :
    readMixedConn.parsed = [.vote 1,.chat "a\nb" 7,.unvote] ∧
      run (step 16) (readMixed.filter fun a => !isSkip a) init = some readMixedEnd := by
  have hmsg : ∀ msg ∈ messages mixed, Faithful tableSerde msg := by
    intro msg hm
    have hm' : msg ∈ [ClientMsg.vote 1,.chat "a\nb" 7,.unvote] := hm
    simp only [List.mem_cons, List.not_mem_nil, or_false] at hm'
    rcases hm' with rfl | rfl | rfl <;> exact ⟨by decide +kernel,by decide +kernel,by decide +kernel⟩
  have hjunk : ∀ line, .junk line ∈ mixed → Junk tableSerde line := by
    intro line hl
    simp only [mixed, List.mem_cons, reduceCtorEq, Item.junk.injEq, List.not_mem_nil, or_false,
      false_or] at hl
    rcases hl with rfl | rfl
    · exact ⟨by simp,Or.inr (by decide +kernel)⟩
    · refine ⟨fun h => absurd (List.eq_of_mem_replicate h) (by decide),Or.inl ?_⟩
      rw [List.length_replicate]
      decide
  obtain ⟨hlines,_,hrun⟩ := short_messages_dispatched tableSerde mixed (fun i => 3*i)
    (by decide +kernel) hmsg hjunk
  have hread : linesOf 0 readMixed = mixed.map (decodedItem tableSerde) := by decide +kernel
  rw [hlines, ← hread] at hrun
  obtain ⟨_,hall,hskip⟩ := hrun 16 readMixed readMixedEnd 0 readMixedConn (Option.some_get _).symm
    (List.getElem?_eq_getElem _) (List.prefix_refl _)
  exact ⟨(hall rfl).trans (by decide +kernel),hskip⟩

/-! ## A line that is not UTF-8 -/

/-- A chat with a byte in its text that belongs to no character. -/
def brokenChat : List UInt8 :=
  asBytes "\x7b\"type\":\"chat\",\"text\":\""++[0xFF]++asBytes "\",\"client_ts\":1\x7d"

def replacedChat : ClientMsg := .chat "\uFFFD" 1

def replacedText : String := "\x7b\"type\":\"chat\",\"text\":\"\uFFFD\",\"client_ts\":1\x7d"

def replacedSerde : Serde where
  toString _ := replacedText
  fromStr text := if text = replacedText then some replacedChat else none

theorem brokenChat_not_utf8 (text : String) : asBytes text ≠ brokenChat := fun h => by
  have hback : fromUtf8Lossy brokenChat = text := by rw [← h, fromUtf8Lossy_asBytes]
  have hbytes : asBytes (fromUtf8Lossy brokenChat) ≠ brokenChat := by decide +kernel
  exact hbytes (hback ▸ h)

def readBroken : List Action :=
  .spawn::List.replicate 4 (.conn 0 (.go 0))++[.conn 0 (.line (some replacedChat))]

def readBrokenEnd : State := (run (step 16) readBroken init).get (by decide +kernel)

def readBrokenConn : Conn := readBrokenEnd.tasks.get ⟨0,by decide +kernel⟩

/-- The handler dispatches a line that no JSON text has the bytes of. -/
theorem broken_chat_dispatched :
    ¬ ∀ (serde : Serde) (items : List Item) (sizes : ℕ → ℕ), serde.fromStr "" = none →
      (∀ msg ∈ messages items, Faithful serde msg) → (∀ line, .junk line ∈ items → NotJson serde line) →
      ∀ cap as s (k : ℕ) c, run (step cap) as init = some s → s.tasks[k]? = some c →
        linesOf k as = decodedLines serde ⟨items.flatMap (bytes serde),sizes⟩ →
        c.parsed = (messages items).filter (fits serde) := by
  intro hexact
  have hjunk : ∀ line, .junk line ∈ [Item.junk brokenChat] → NotJson replacedSerde line := by
    intro line hl
    obtain rfl : line = brokenChat := by simpa using hl
    exact ⟨by decide +kernel,fun text h => absurd h (brokenChat_not_utf8 text)⟩
  have hlines : linesOf 0 readBroken =
      decodedLines replacedSerde ⟨[Item.junk brokenChat].flatMap (bytes replacedSerde),fun _ => 0⟩ := by
    rw [decodedLines, readAll_reference]
    decide +kernel
  have hparsed := hexact replacedSerde [.junk brokenChat] (fun _ => 0) (by decide +kernel)
    (by simp [messages, message]) hjunk 16 readBroken readBrokenEnd 0 readBrokenConn
    (Option.some_get _).symm (List.getElem?_eq_getElem _) hlines
  exact absurd hparsed (by decide +kernel)

end RustChat.FrameRoundTrip
