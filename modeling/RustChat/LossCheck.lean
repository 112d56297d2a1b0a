import RustChat.Allocation
import RustChat.RecvLoop
import Mathlib.Data.List.Range
import Mathlib.Data.List.Perm.Subperm

/-!
# The loss check

`normal::run` and what `run_single_scenario` makes of the counts of its bots
in mode `normal`. The bots add to the counter in the order in which they end.
-/

set_option autoImplicit false

namespace RustChat.LossCheck
open Protocol Text ServerLine RecvLoop Allocation

inductive Ending where
  | eof
  | failed
  | timeout
  deriving DecidableEq, Repr

def Ending.rest : Ending → List NextLine
  | .eof => [.eof]
  | .failed => [.failed]
  | .timeout => []

/-- What a bot meets: which operations fail (the connect is number 0, the sends
follow), the clock at each send and at each match, and what it hears. -/
structure Input where
  fails : ℕ → Bool
  sentAt : ℕ → ℕ
  matchedAt : ℕ → ℕ
  heard : List Heard
  ending : Ending

def arrivals (serde : ServerMsg → String) (i : Input) : List NextLine :=
  i.heard.map (fun h => .line (serde h.msg))++i.ending.rest

def sendLoop (id : ℕ) (i : Input) : ℕ → ℕ → Option (List ClientMsg)
  | _, 0 => some []
  | seq, left+1 =>
    if i.fails (seq+1) then none
    else (sendLoop id i (seq+1) left).map fun msgs => .chat (chatText id seq) (i.sentAt seq)::msgs

def extractSeq (line target : String) : Option ℕ :=
  (behind target.toList line.toList).bind fun after => parseUnsigned u64Bound (after.takeWhile Char.isDigit)

/-- The round trip that `on_match` records for a line, if it records one. -/
def onMatch (sendTimestamps : List ℕ) (target line : String) (recvTs : ℕ) : Option ℕ :=
  (extractSeq line target).bind fun seq => (sendTimestamps[seq]?).bind fun sendTs =>
    if sendTs ≤ recvTs then some (recvTs-sendTs) else none

structure Outcome where
  sent : List ClientMsg
  received : Received
  rtts : List ℕ
  deriving DecidableEq

/-- `normal::run`, which returns `Err` if it cannot connect or send. -/
def run (serde : ServerMsg → String) (id msgCount : ℕ) (i : Input) : Option Outcome :=
  if i.fails 0 then none
  else (sendLoop id i 0 msgCount).map fun sent =>
    let received := recvUntilCountWithTimeout (arrivals serde i) (target id) msgCount
    let sendTimestamps := (List.range msgCount).map i.sentAt
    ⟨sent,received,received.matched.zipIdx.filterMap fun x =>
      onMatch sendTimestamps (target id) x.1 (i.matchedAt x.2)⟩

/-- One `recv_counter.fetch_add`, which wraps around. -/
def addReceived (serde : ServerMsg → String) (msgCount : ℕ) (input : ℕ → Input) (recvCounter id : ℕ) : ℕ :=
  match run serde id msgCount (input id) with
  | some outcome => (recvCounter+outcome.received.count)%u64Bound
  | none => recvCounter

def recvCounter (serde : ServerMsg → String) (msgCount : ℕ) (input : ℕ → Input) (ended : List ℕ) : ℕ :=
  ended.foldl (addReceived serde msgCount input) 0

def lossCheck (count msgPerBot received : ℕ) : Bool := decide (count*msgPerBot = received)

/-! ## The echoes of a bot -/

def echoes (id : ℕ) (heard : List Heard) : List ℕ := heard.filterMap (ownSeq id)

/-- Each of its own messages comes back at most once. -/
def EchoedOnce (msgPerBot id : ℕ) (heard : List Heard) : Prop :=
  (echoes id heard).Nodup ∧ ∀ seq ∈ echoes id heard, seq < msgPerBot

/-- Of its own messages, those a bot has read: none if it ends in an error. -/
def ownRead (serde : ServerMsg → String) (msgPerBot id : ℕ) (i : Input) : List ℕ :=
  match run serde id msgPerBot i with
  | some outcome => echoes id (i.heard.take outcome.received.read.length)
  | none => []

theorem nodup_subperm_range (l : List ℕ) (n : ℕ) (hn : l.Nodup) (hl : ∀ x ∈ l, x < n) :
    l.Subperm (List.range n) :=
  List.subperm_of_subset hn fun x hx => List.mem_range.mpr (hl x hx)

theorem nodup_length_le (l : List ℕ) (n : ℕ) (hn : l.Nodup) (hl : ∀ x ∈ l, x < n) : l.length ≤ n := by
  simpa using (nodup_subperm_range l n hn hl).length_le

/-- As many different numbers below a bound as there are: all of them. -/
theorem nodup_length_iff (l : List ℕ) (n : ℕ) (hn : l.Nodup) (hl : ∀ x ∈ l, x < n) :
    l.length = n ↔ ∀ x < n, x ∈ l := by
  constructor
  · intro hlen x hx
    have hperm := (nodup_subperm_range l n hn hl).perm_of_length_le (by simp [hlen])
    exact hperm.mem_iff.mpr (List.mem_range.mpr hx)
  · intro hall
    have hsub := List.subperm_of_subset List.nodup_range fun x hx => hall x (List.mem_range.mp hx)
    have hle := nodup_length_le l n hn hl
    have hge : n ≤ l.length := by simpa using hsub.length_le
    omega

theorem sum_eq_iff (l : List ℕ) (f : ℕ → ℕ) (m : ℕ) (h : ∀ i ∈ l, f i ≤ m) :
    (l.map f).sum ≤ l.length*m ∧ ((l.map f).sum = l.length*m ↔ ∀ i ∈ l, f i = m) := by
  induction l with
  | nil => simp
  | cons i l ih =>
    obtain ⟨hle,hiff⟩ := ih fun j hj => h j (List.mem_cons_of_mem _ hj)
    have hi := h i List.mem_cons_self
    rw [List.map_cons, List.sum_cons, List.length_cons, Nat.succ_mul, List.forall_mem_cons, ← hiff]
    omega

/-! ## One bot -/

theorem arrived_arrivals (serde : ServerMsg → String) (i : Input) :
    arrived (arrivals serde i) = i.heard.map fun h => serde h.msg := by
  obtain ⟨fails,sentAt,matchedAt,heard,ending⟩ := i
  induction heard with
  | nil => cases ending <;> rfl
  | cons h heard ih => exact congrArg _ ih

theorem sendLoop_texts (id : ℕ) (i : Input) (seq left : ℕ) (sent : List ClientMsg)
    (h : sendLoop id i seq left = some sent) :
    sent = (List.range' seq left).map fun k => .chat (chatText id k) (i.sentAt k) := by
  induction left generalizing seq sent with
  | zero => simp_all [sendLoop]
  | succ left ih =>
    simp only [sendLoop] at h
    split_ifs at h
    obtain ⟨msgs,hmsgs,rfl⟩ := Option.map_eq_some_iff.mp h
    rw [List.range'_succ, List.map_cons, ih (seq+1) msgs hmsgs]

theorem matching_length (serde : ServerMsg → String) (percentages : Counts → List (List Char))
    (hdoc : Documented serde percentages) (id : ℕ) (heard : List Heard) :
    ((heard.map fun h => serde h.msg).filter fun text => contains text (target id)).length =
      (echoes id heard).length := by
  rw [← List.countP_eq_length_filter, List.countP_map, echoes, List.length_filterMap_eq_countP]
  exact List.countP_congr fun h _ => by simp [contains_target serde percentages hdoc id h]

theorem run_received (serde : ServerMsg → String) (percentages : Counts → List (List Char))
    (hdoc : Documented serde percentages) (id msgPerBot : ℕ) (i : Input)
    (honce : EchoedOnce msgPerBot id i.heard) (outcome : Outcome)
    (hrun : run serde id msgPerBot i = some outcome) :
    outcome.received.read = (i.heard.take outcome.received.read.length).map (fun h => serde h.msg) ∧
      outcome.received.count = (echoes id (i.heard.take outcome.received.read.length)).length ∧
      echoes id (i.heard.take outcome.received.read.length) = echoes id i.heard := by
  simp only [run] at hrun
  split_ifs at hrun
  obtain ⟨sent,hsent,rfl⟩ := Option.map_eq_some_iff.mp hrun
  simp only [recvUntilCountWithTimeout]
  obtain ⟨hread,hfilter⟩ := recvLoop_read (target id) msgPerBot 0 (arrivals serde i)
  have hcount := recvLoop_count (target id) msgPerBot 0 (arrivals serde i)
  have hmatched := recvLoop_matched (target id) msgPerBot 0 (arrivals serde i)
  rw [arrived_arrivals] at hread hmatched
  set r := recvLoop (target id) msgPerBot 0 (arrivals serde i)
  have htake : r.read = (i.heard.take r.read.length).map fun h => serde h.msg := by
    rw [List.map_take]
    exact List.prefix_iff_eq_take.mp hread
  have hpart : r.count = (echoes id (i.heard.take r.read.length)).length := by
    rw [hcount, Nat.zero_add, hfilter, ← matching_length serde percentages hdoc, ← htake]
  have hwhole : r.count = (echoes id i.heard).length := by
    -- the quota is not below the number of echoes, so it cuts none of them off
    have hle := nodup_length_le _ msgPerBot honce.1 honce.2
    rw [hcount, Nat.zero_add, hmatched, List.length_take, matching_length serde percentages hdoc]
    omega
  have hbegin : echoes id (i.heard.take r.read.length) <+: echoes id i.heard :=
    (List.take_prefix _ _).filterMap _
  exact ⟨htake,hpart,hbegin.eq_of_length (hpart.symm.trans hwhole)⟩

/-! ## All bots -/

theorem ownRead_nodup (serde : ServerMsg → String) (msgPerBot id : ℕ) (i : Input)
    (honce : EchoedOnce msgPerBot id i.heard) :
    (ownRead serde msgPerBot id i).Nodup ∧ ∀ seq ∈ ownRead serde msgPerBot id i, seq < msgPerBot := by
  unfold ownRead
  cases run serde id msgPerBot i with
  | none => simp
  | some outcome =>
    have hsub := (List.take_sublist outcome.received.read.length i.heard).filterMap (ownSeq id)
    exact ⟨honce.1.sublist hsub,fun seq hseq => honce.2 seq (hsub.subset hseq)⟩

theorem addReceived_eq (serde : ServerMsg → String) (percentages : Counts → List (List Char))
    (hdoc : Documented serde percentages) (msgPerBot : ℕ) (input : ℕ → Input) (counter id : ℕ)
    (honce : EchoedOnce msgPerBot id (input id).heard) (hc : counter < u64Bound) :
    addReceived serde msgPerBot input counter id =
      (counter+(ownRead serde msgPerBot id (input id)).length)%u64Bound := by
  unfold addReceived ownRead
  cases hrun : run serde id msgPerBot (input id) with
  | none => exact (Nat.mod_eq_of_lt hc).symm
  | some outcome =>
    obtain ⟨_,hcount,_⟩ := run_received serde percentages hdoc id msgPerBot _ honce outcome hrun
    simp only [hcount]

theorem recvCounter_fold (serde : ServerMsg → String) (percentages : Counts → List (List Char))
    (hdoc : Documented serde percentages) (msgPerBot : ℕ) (input : ℕ → Input) (ended : List ℕ)
    (honce : ∀ id ∈ ended, EchoedOnce msgPerBot id (input id).heard) (counter : ℕ) (hc : counter < u64Bound) :
    ended.foldl (addReceived serde msgPerBot input) counter =
      (counter+(ended.map fun id => (ownRead serde msgPerBot id (input id)).length).sum)%u64Bound := by
  induction ended generalizing counter with
  | nil => simp [Nat.mod_eq_of_lt hc]
  | cons id ended ih =>
    have hadd := addReceived_eq serde percentages hdoc msgPerBot input counter id
      (honce id List.mem_cons_self) hc
    have hlt : addReceived serde msgPerBot input counter id < u64Bound :=
      hadd ▸ Nat.mod_lt _ (by decide)
    rw [List.foldl_cons, ih (fun j hj => honce j (List.mem_cons_of_mem _ hj)) _ hlt, hadd, List.map_cons,
      List.sum_cons, Nat.mod_add_mod, Nat.add_assoc]

/-- The counter does not wrap around: no bot reads more than it has sent. -/
theorem recvCounter_eq (serde : ServerMsg → String) (percentages : Counts → List (List Char))
    (hdoc : Documented serde percentages) (msgPerBot : ℕ) (input : ℕ → Input) (ended : List ℕ)
    (honce : ∀ id ∈ ended, EchoedOnce msgPerBot id (input id).heard)
    (hfit : ended.length*msgPerBot < u64Bound) :
    recvCounter serde msgPerBot input ended =
      (ended.map fun id => (ownRead serde msgPerBot id (input id)).length).sum := by
  have hle : (ended.map fun id => (ownRead serde msgPerBot id (input id)).length).sum ≤
      ended.length*msgPerBot := by
    refine (sum_eq_iff ended _ msgPerBot fun id hid => ?_).1
    obtain ⟨hn,hb⟩ := ownRead_nodup serde msgPerBot id (input id) (honce id hid)
    exact nodup_length_le _ msgPerBot hn hb
  rw [recvCounter, recvCounter_fold serde percentages hdoc msgPerBot input ended honce 0 (by decide),
    Nat.zero_add, Nat.mod_eq_of_lt (hle.trans_lt hfit)]

/-- A chat contains the target of the bot that sent it and of no other bot, and
no other line contains a target. So a bot counts its own echoes, and the sum is
what was sent if and only if every bot has read all of its own messages. -/
theorem loss_check_exact (serde : ServerMsg → String) (percentages : Counts → List (List Char))
    (hdoc : Documented serde percentages) (count msgPerBot : ℕ) (hfit : count*msgPerBot < u64Bound)
    (input : ℕ → Input) (honce : ∀ id < count, EchoedOnce msgPerBot id (input id).heard)
    (ended : List ℕ) (hended : ended.Perm (List.range count)) :
    (∀ a b seq sender sentAt clientTs,
      contains (serde (Heard.chat b seq sender sentAt clientTs).msg) (target a) = true ↔ a = b) ∧
    (∀ a h, (∀ b seq sender sentAt clientTs, h ≠ Heard.chat b seq sender sentAt clientTs) →
      contains (serde h.msg) (target a) = false) ∧
    (∀ id < count, ∀ outcome, run serde id msgPerBot (input id) = some outcome →
      outcome.sent = (List.range msgPerBot).map (fun k => .chat (chatText id k) ((input id).sentAt k)) ∧
      outcome.received.read =
        ((input id).heard.take outcome.received.read.length).map (fun h => serde h.msg) ∧
      outcome.received.count = (ownRead serde msgPerBot id (input id)).length) ∧
    (lossCheck count msgPerBot (recvCounter serde msgPerBot input ended) = true ↔
      ∀ id < count, ∀ seq < msgPerBot, seq ∈ ownRead serde msgPerBot id (input id)) := by
  refine ⟨fun a b seq sender sentAt clientTs => ?_,fun a h hother => ?_,fun id hid outcome hrun => ?_,?_⟩
  · rw [contains_target serde percentages hdoc]
    by_cases hab : a = b <;> simp [ownSeq, hab, Ne.symm]
  · rw [contains_target serde percentages hdoc]
    cases h with
    | chat b seq sender sentAt clientTs => exact absurd rfl (hother b seq sender sentAt clientTs)
    | welcome | presence | voteSnapshot | full => rfl
  · obtain ⟨hread,hcount,_⟩ := run_received serde percentages hdoc id msgPerBot _ (honce id hid) outcome hrun
    refine ⟨?_,hread,by simp only [ownRead, hrun, hcount]⟩
    simp only [run] at hrun
    split_ifs at hrun
    obtain ⟨sent,hsent,rfl⟩ := Option.map_eq_some_iff.mp hrun
    rw [sendLoop_texts id _ 0 msgPerBot sent hsent, List.range_eq_range']
  · have hmem : ∀ id, id ∈ ended ↔ id < count := fun id => hended.mem_iff.trans List.mem_range
    have hlen : ended.length = count := by simpa using hended.length_eq
    have hown := fun id (hid : id < count) =>
      ownRead_nodup serde msgPerBot id (input id) (honce id hid)
    have hcounter := recvCounter_eq serde percentages hdoc msgPerBot input ended
      (fun id hid => honce id ((hmem id).mp hid)) (hlen.symm ▸ hfit)
    have hsum := (sum_eq_iff ended (fun id => (ownRead serde msgPerBot id (input id)).length) msgPerBot
      fun id hid => nodup_length_le _ msgPerBot (hown id ((hmem id).mp hid)).1 (hown id ((hmem id).mp hid)).2).2
    rw [lossCheck, decide_eq_true_eq, hcounter, eq_comm, ← hlen, hsum]
    refine forall_congr' fun id => ?_
    rw [hlen, hmem]
    refine forall_congr' fun hid => ?_
    exact nodup_length_iff _ msgPerBot (hown id hid).1 (hown id hid).2

/-! ## Two bots -/

def zeroPercentages : Counts → List (List Char) := fun _ => List.replicate nOptions "0.0".toList

def printed (msg : ServerMsg) : String := String.ofList (layout zeroPercentages msg)

theorem printed_documented : Documented printed zeroPercentages where
  line := fun _ _ => String.toList_ofList
  float := fun _ text htext c hc => by
    obtain ⟨_,rfl⟩ := List.mem_replicate.mp htext
    have hall : "0.0".toList.all (fun c => c.isDigit || c ∈ ".-+enul".toList) = true := by decide
    simpa using List.all_eq_true.mp hall c hc

def twoBots : ℕ → Input
  | 0 => ⟨fun _ => false,id,id,[.welcome 1,.chat 0 0 1 5 0,.voteSnapshot fun _ => 0],.timeout⟩
  | _ => ⟨fun _ => false,id,id,[.chat 0 0 1 5 0,.chat 1 0 2 7 0],.eof⟩

theorem two_bots_nothing_lost : lossCheck 2 1 (recvCounter printed 1 twoBots [1,0]) = true := by
  refine (loss_check_exact printed zeroPercentages printed_documented 2 1 (by decide) twoBots ?_ [1,0]
    (by decide)).2.2.2.mpr ?_
  · unfold EchoedOnce
    decide
  · decide +kernel

end RustChat.LossCheck
