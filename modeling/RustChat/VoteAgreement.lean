import RustChat.FrameRoundTrip
import RustChat.Json
import RustChat.TuiInput
import RustChat.VoteConservation

/-!
# Two copies of one vote

The terminal client keeps the vote it has sent, the handler the vote it has
received. Both follow the same messages, and lines the handler skips carry no
vote. What a connection has on the board is the sum of its own board steps.
-/

set_option autoImplicit false

namespace RustChat.VoteAgreement
open Runs TaskPool Protocol Text Json Utf8 LineReader Handler HandlerSteps Hub FrameRoundTrip
open VoteConservation Tui TuiInput

/-- The JSON that is derived for the two messages about votes. -/
structure VoteJson (serde : Serde) : Prop where
  vote : ∀ option, (serde.toString (.vote option)).toList =
    object [("type",quote "vote".toList),("option",decimal option)]
  unvote : (serde.toString .unvote).toList = object [("type",quote "unvote".toList)]

/-- The bytes of a session. -/
def stream (serde : Serde) (msgs : List ClientMsg) : List UInt8 := msgs.flatMap (send serde)

/-! ## The client's copy -/

theorem parseInput_myVote (now : ℕ) (input : String) (s : AppState) :
    (parseInput now input s).2.myVote = ((parseInput now input s).1.elim s.myVote (voteAfter s.myVote)) ∧
      ∀ option, (parseInput now input s).1 = some (.vote option) → option < nOptions := by
  unfold parseInput
  split
  · split_ifs <;> simp [voteAfter]
  · split
    · split
      · simp only
        split_ifs with hlt
        · simpa [voteAfter] using hlt
        · simp
      · simp
    · split_ifs <;> simp [voteAfter]

theorem press_myVote (now : ℕ) (s : AppState) (k : Key) :
    (press now s k).2.myVote = ((press now s k).1.elim s.myVote (voteAfter s.myVote)) ∧
      ∀ option, (press now s k).1 = some (.vote option) → option < nOptions := by
  cases k with
  | enter =>
    simp only [press]
    split_ifs
    · simp
    · exact parseInput_myVote now _ { s with input := "" }
  | backspace | char c => simp [press]

theorem receive_myVote (s : AppState) (msg : ServerMsg) : (receive s msg).myVote = s.myVote := by
  cases msg with
  | presence id joined => cases joined <;> rfl
  | _ => rfl

theorem session_myVote (events : List Event) :
    (session events).state.myVote = lastVote (session events).sent ∧
      ∀ option, .vote option ∈ (session events).sent → option < nOptions := by
  induction events using List.reverseRecOn with
  | nil => exact ⟨rfl,by simp [session]⟩
  | append_singleton events e ih =>
    obtain ⟨hvote,hrange⟩ := ih
    rw [session_snoc]
    cases e with
    | net msg => exact ⟨(receive_myVote _ msg).trans hvote,hrange⟩
    | key k now =>
      obtain ⟨hnew,hoption⟩ := press_myVote now (session events).state k
      simp only [handle]
      cases hsent : (press now (session events).state k).1 with
      | none =>
        rw [hsent] at hnew
        rw [hnew, Option.toList_none, List.append_nil]
        exact ⟨hvote,hrange⟩
      | some msg =>
        rw [hsent] at hnew hoption
        rw [hnew, Option.toList_some, lastVote_snoc, ← hvote]
        refine ⟨rfl,fun option hm => ?_⟩
        rcases List.mem_append.mp hm with hm | hm
        · exact hrange option hm
        · exact hoption option (congrArg some (List.mem_singleton.mp hm).symm)

/-! ## What is skipped -/

theorem foldl_kept (keep : ClientMsg → Bool) (msgs : List ClientMsg) (vote : Option ℕ)
    (h : ∀ msg ∈ msgs, keep msg = false → ∀ vote, voteAfter vote msg = vote) :
    (msgs.filter keep).foldl voteAfter vote = msgs.foldl voteAfter vote := by
  induction msgs generalizing vote with
  | nil => rfl
  | cons msg msgs ih =>
    have hrest := fun vote => ih vote fun m hm => h m (List.mem_cons_of_mem _ hm)
    cases hk : keep msg with
    | true => rw [List.filter_cons_of_pos hk, List.foldl_cons, List.foldl_cons, hrest]
    | false =>
      rw [List.filter_cons_of_neg (by simp [hk]), List.foldl_cons, hrest,
        h msg List.mem_cons_self hk vote]

theorem fits_of_json (serde : Serde) (msg : ClientMsg) (text : List Char)
    (h : (serde.toString msg).toList = text)
    (hlen : (text.flatMap String.utf8EncodeChar).length ≤ maxLineLen) : fits serde msg = true := by
  have hstring : serde.toString msg = String.ofList text := by rw [← h, String.ofList_toList]
  rw [fits, hstring, asBytes_ofList]
  exact decide_eq_true hlen

theorem vote_fits (serde : Serde) (hjson : VoteJson serde) (option : ℕ) (h : option < nOptions) :
    fits serde (.vote option) = true := by
  refine fits_of_json serde _ _ (hjson.vote option) ?_
  have hall : ∀ option < nOptions, ((object [("type",quote "vote".toList),
      ("option",decimal option)]).flatMap String.utf8EncodeChar).length ≤ maxLineLen := by decide
  exact hall option h

theorem unvote_fits (serde : Serde) (hjson : VoteJson serde) : fits serde .unvote = true :=
  fits_of_json serde _ _ hjson.unvote (by decide)

theorem lastVote_fits (serde : Serde) (hjson : VoteJson serde) (msgs : List ClientMsg)
    (hrange : ∀ option, .vote option ∈ msgs → option < nOptions) :
    lastVote (msgs.filter (fits serde)) = lastVote msgs := by
  refine foldl_kept (fits serde) msgs none fun msg hm hlong vote => ?_
  cases msg with
  | chat | setNick => rfl
  | vote option =>
    rw [vote_fits serde hjson option (hrange option hm)] at hlong
    cases hlong
  | unvote =>
    rw [unvote_fits serde hjson] at hlong
    cases hlong

/-! ## What a connection has on the board -/

def stepOf (k : ℕ) : Action → Bool
  | .conn j _ => decide (j = k)
  | _ => false

/-- The changes of the counters by the steps of one connection, added up. -/
def contributed (cap k : ℕ) : List Action → State → Fin nOptions → ℤ
  | [], _ => 0
  | a::as, s =>
    match step cap s a with
    | none => 0
    | some t =>
      (if stepOf k a then t.shared.counts-s.shared.counts else 0)+contributed cap k as t

def accountOf (s : State) (k : ℕ) : Fin nOptions → ℤ := (s.tasks[k]?).elim 0 account

theorem accountOf_set (s : State) (sh : Shared) (j k : ℕ) (c c' : Conn) (hc : s.tasks[j]? = some c) :
    accountOf ⟨sh,s.tasks.set j c'⟩ k = if j = k then account c' else accountOf s k := by
  have hj := (List.getElem?_eq_some_iff.mp hc).1
  unfold accountOf
  rw [List.getElem?_set]
  split_ifs with hjk
  · rfl
  · rfl

theorem step_accountOf (cap k : ℕ) (s t : State) (a : Action) (h : step cap s a = some t) :
    accountOf t k = accountOf s k+if stepOf k a then t.shared.counts-s.shared.counts else 0 := by
  cases step_hub cap s a t h with
  | spawn =>
    rw [show stepOf k .spawn = false from rfl, if_neg Bool.false_ne_true, add_zero]
    unfold accountOf
    rw [List.getElem?_append]
    split_ifs with hk
    · rfl
    · rw [List.getElem?_singleton, List.getElem?_eq_none (Nat.le_of_not_lt hk)]
      split_ifs <;> simp [account_spawn]
  | handler j i c c' e hc hs =>
    rw [accountOf_set s _ j k c c' hc]
    by_cases hjk : j = k
    · subst hjk
      have hold : accountOf s j = account c := by rw [accountOf, hc]; rfl
      simp only [stepOf, decide_true, if_true, apply_counts, hold, handler_account s.shared c i e c' hs]
      abel
    · simp [stepOf, hjk]
  | writer j i c c' hc hw =>
    rw [accountOf_set s _ j k c c' hc]
    have hsame := writer_account cap s.shared c i c' hw
    by_cases hjk : j = k
    · subst hjk
      simp [accountOf, hc, hsame]
    · simp [stepOf, hjk]
  | throttle j clock u hu => simp [stepOf, accountOf]
  | shutdown => simp [stepOf, accountOf]

/-- The account of a handler is what its own steps have done to the board. -/
theorem run_contributed (cap k : ℕ) (as : List Action) (s t : State) (h : run (step cap) as s = some t) :
    accountOf t k = accountOf s k+contributed cap k as s := by
  induction as generalizing s with
  | nil =>
    obtain rfl : s = t := by simpa using h
    simp [contributed]
  | cons a as ih =>
    obtain ⟨m,hm,hrest⟩ := (run_cons a as s t).mp h
    rw [ih m hrest, step_accountOf cap k s m a hm, contributed, hm, add_assoc]

theorem contributed_account (cap k : ℕ) (as : List Action) (s : State)
    (h : run (step cap) as init = some s) :
    contributed cap k as init = accountOf s k := by
  rw [run_contributed cap k as init s h]
  simp [accountOf, init]

/-- The counters are what the connections have contributed. -/
theorem counts_contributed (cap : ℕ) (as : List Action) (s : State) (h : run (step cap) as init = some s) :
    s.shared.counts = ((List.range s.tasks.length).map fun k => contributed cap k as init).sum := by
  have hmap : s.tasks.map account = (List.range s.tasks.length).map (accountOf s) := by
    refine List.ext_getElem? fun k => ?_
    rw [List.getElem?_map, List.getElem?_map]
    rcases Nat.lt_or_ge k s.tasks.length with hk | hk
    · rw [List.getElem?_eq_getElem hk, List.getElem?_range hk]
      simp [accountOf, List.getElem?_eq_getElem hk]
    · rw [List.getElem?_eq_none hk, List.getElem?_eq_none (by simpa using hk)]
      rfl
  simp only [contributed_account cap _ as s h]
  rw [← hmap]
  exact run_conserved cap as s h

/-- In any session, with the other clients doing whatever they do and the bytes
split in any way: when the handler has dealt with every line sent, it records
the option the client highlights, and the connection has put just that vote on
the board. Lines that are too long for the handler make no difference. -/
theorem tui_and_server_agree (serde : Serde) (hempty : serde.fromStr "" = none) (hjson : VoteJson serde)
    (events : List Event) (hmsg : ∀ msg ∈ (session events).sent, Faithful serde msg) (sizes : ℕ → ℕ)
    (cap : ℕ) (as : List Action) (s : State) (h : run (step cap) as init = some s) (k : ℕ) (c : Conn)
    (hc : s.tasks[k]? = some c)
    (hread : linesOf k as = decodedLines serde ⟨stream serde (session events).sent,sizes⟩)
    (hidle : c.phase = .reading) :
    c.currentVote = (session events).state.myVote ∧
      ∀ i, contributed cap k as init i = if (session events).state.myVote = some i.val then 1 else 0 := by
  obtain ⟨hclient,hrange⟩ := session_myVote events
  have hitems : messages ((session events).sent.map .terminal) = (session events).sent := by
    simp [messages, message, List.filterMap_map, Function.comp_def]
  have hstream : stream serde (session events).sent =
      ((session events).sent.map Item.terminal).flatMap (bytes serde) := by
    rw [List.flatMap_map]
    rfl
  have hjunk : ∀ line, .junk line ∈ (session events).sent.map Item.terminal → Junk serde line := by simp
  have hparsed : c.parsed = (session events).sent.filter (fits serde) := by
    rw [(run_parsed cap as s h).1 k c hc, hread, hstream,
      decodedLines_items serde _ sizes hempty (by rwa [hitems]) hjunk, decodedItem_messages, hitems]
  have hserver : c.currentVote = (session events).state.myVote := by
    have hrec := run_recorded cap as s h k c hc
    simp only [Recorded, hidle] at hrec
    rw [hrec, hparsed, lastVote_fits serde hjson _ hrange, hclient]
  refine ⟨hserver,fun i => ?_⟩
  have haccount : contributed cap k as init = account c := by
    have hsum := run_contributed cap k as init s h
    simpa [accountOf, hc, init] using hsum.symm
  have hnone := idle_inProgress c i (by simp [hidle, Idle])
  rw [haccount, account, hnone, add_zero, votes, hserver]

/-! ## An instance -/

def printed : ClientMsg → List Char
  | .chat text clientTs =>
    object [("type",quote "chat".toList),("text",quote text.toList),("client_ts",decimal clientTs)]
  | .setNick name => object [("type",quote "set_nick".toList),("name",quote name.toList)]
  | .vote option => object [("type",quote "vote".toList),("option",decimal option)]
  | .unvote => object [("type",quote "unvote".toList)]

/-- It reads the two messages of the session. -/
def twoMessages : Serde where
  toString msg := String.ofList (printed msg)
  fromStr text := [ClientMsg.vote 1,.chat "a" 7].find? fun msg => printed msg = text.toList

def typed (text : String) : List Event := text.toList.map (fun c => .key (.char c) 7)++[.key .enter 7]

def voteAndChat : List Event := typed "/vote 2 "++[.net (.presence 2 true)]++typed "a"

def readBoth : List Action :=
  .spawn::List.replicate 4 (.conn 0 (.go 1000))++[.conn 0 (.line (some (.vote 1)))]++
  List.replicate 8 (.conn 0 (.go 1000))++List.replicate 4 (.throttle 0 1000)++
  [.conn 0 (.go 1000),.conn 0 (.line (some (.chat "a" 7)))]++List.replicate 3 (.conn 0 (.go 1000))

def readBothEnd : State := (run (step 16) readBoth init).get (by decide +kernel)

def readBothConn : Conn := readBothEnd.tasks.get ⟨0,by decide +kernel⟩

theorem second_option_agreed :
    readBothConn.currentVote = some 1 ∧ contributed 16 0 readBoth init 1 = 1 := by
  have hsent : (session voteAndChat).sent = [.vote 1,.chat "a" 7] := by decide +kernel
  have hvote : (session voteAndChat).state.myVote = some 1 := by decide +kernel
  have hmsg : ∀ msg ∈ [ClientMsg.vote 1,.chat "a" 7], Faithful twoMessages msg := by
    intro msg hm
    simp only [List.mem_cons, List.not_mem_nil, or_false] at hm
    rcases hm with rfl | rfl <;> exact ⟨by decide +kernel,by decide +kernel,by decide +kernel⟩
  have hlines := decodedLines_items twoMessages [.terminal (.vote 1),.terminal (.chat "a" 7)] (fun i => 3*i)
    (by decide +kernel) hmsg (by simp)
  have hread : linesOf 0 readBoth = decodedLines twoMessages ⟨stream twoMessages (session voteAndChat).sent,
      fun i => 3*i⟩ := by
    rw [hsent]
    exact Eq.trans (by decide +kernel) hlines.symm
  obtain ⟨hserver,hboard⟩ := tui_and_server_agree twoMessages (by decide +kernel)
    ⟨fun option => String.toList_ofList,String.toList_ofList⟩ voteAndChat (hsent ▸ hmsg) (fun i => 3*i) 16
    readBoth readBothEnd (Option.some_get _).symm 0 readBothConn (List.getElem?_eq_getElem _) hread
    (by decide +kernel)
  rw [hvote] at hserver hboard
  exact ⟨hserver,hboard 1⟩

end RustChat.VoteAgreement
