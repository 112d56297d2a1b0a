import RustChat.Broadcast
import RustChat.Room
import RustChat.Throttle
import RustChat.VoteBoard

/-!
# One client handler

`handle_client` with its write task, cut at every atomic operation, lock
section, clock reading, channel operation and socket write. A step reads the
shared state and tells what it does to it; what it reads from the socket, and
how a write goes, is an input.
-/

set_option autoImplicit false

namespace RustChat.Handler
open Protocol Broadcast Room

/-- The argument of `broadcast_vote_throttled`. `asOf` is history: how many
changes of the board had been made when the first counter was loaded. -/
structure Snapshot where
  counts : Counts
  asOf : ℕ
  deriving DecidableEq

/-- The room, the board and the metrics. `tx` is the log of the broadcast
channel and `version` is history: the number of changes of the board. -/
structure Shared where
  clients : Clients
  tx : List BroadcastEvent
  throttle : Throttle.State Snapshot
  counts : VoteBoard.Board
  version : ℕ
  recvCount : ℕ
  sentCount : ℕ
  deriving DecidableEq

inductive After where
  | reading
  | leaving
  deriving DecidableEq, Repr

inductive Phase where
  -- subscribe; insert and count; send Presence; write Welcome
  | spawned
  | subscribed
  | joined (peerCount : ℕ)
  | welcoming (peerCount : ℕ)
  -- the `select!` of the read loop, and a message it has parsed
  | reading
  | handling (msg : ClientMsg)
  -- Chat: the send, the metrics
  | chatting (text : String) (clientTs sentAt : ℕ)
  | chatted
  -- Vote: the decrement, the record; Unvote and disconnect: the decrement
  | voting (option : ℕ)
  | voted (option : ℕ)
  | unvoting (prev : ℕ) (after : After)
  -- the loads of `snapshot_with_percentages`, then the call of the throttle
  | loading (loaded : List ℕ) (asOf : ℕ) (after : After)
  | publishing (call : ℕ) (after : After)
  -- after the loop: abort; remove; send Presence
  | exiting
  | leaving
  | left
  | returned (ok : Bool)
  deriving DecidableEq, Repr

inductive Writer where
  | notStarted
  | waiting
  | writing (pos : ℕ) (msg : ServerMsg)
  | stopped
  deriving DecidableEq

/-- A handler with what it has written: `welcome` is the count in its Welcome
line, `lines` the lines after it, each with its position in the log. Like
`parsed`, the messages it has taken from its socket, they are history. -/
structure Conn where
  id : ℕ
  phase : Phase
  currentVote : Option ℕ
  nick : Option String
  rx : Option Receiver
  writer : Writer
  aborted : Bool
  welcome : Option ℕ
  lines : List (ℕ × ServerMsg)
  parsed : List ClientMsg
  deriving DecidableEq

def spawn (id : ℕ) : Conn := ⟨id,.spawned,none,none,none,.notStarted,false,none,[],[]⟩

inductive Input where
  -- The next operation of the handler, with the clock it would read
  | go (clock : ℕ)
  -- The write of the Welcome line fails
  | fail
  -- The next line, as `serde_json::from_str` decodes it
  | line (msg : Option ClientMsg)
  | eof
  | readError
  -- `select!` sees that the write task has ended
  | writerEnded
  -- The write task: `recv`, the end of a write, the closed channel, the abort
  | recv
  | written
  | writeError
  | closed
  | cancelled
  deriving DecidableEq, Repr

inductive Effect where
  | none
  | insertClient (id : ℕ)
  | removeClient (id : ℕ)
  | setNick (id : ℕ) (name : String)
  | send (event : BroadcastEvent)
  | fetchAdd (option : ℕ) (d : ℤ)
  | callThrottled (m : Snapshot)
  | recordRecv
  | recordSent
  deriving DecidableEq

def apply (sh : Shared) : Effect → Shared
  | .none => sh
  | .insertClient id => { sh with clients := insertClient sh.clients id }
  | .removeClient id => { sh with clients := removeClient sh.clients id }
  | .setNick id name => { sh with clients := setNick sh.clients id name }
  | .send event => { sh with tx := sh.tx++[event] }
  | .fetchAdd option d =>
    { sh with
      counts := VoteBoard.fetchAdd sh.counts option d
      version := if option < nOptions then sh.version+1 else sh.version }
  | .callThrottled m => { sh with throttle := Throttle.enter sh.throttle m }
  | .recordRecv => { sh with recvCount := sh.recvCount+1 }
  | .recordSent => { sh with sentCount := sh.sentCount+1 }

def After.phase : After → Phase
  | .reading => .reading
  | .leaving => .leaving

def subtract : Option ℕ → Effect
  | some prev => .fetchAdd prev (-1)
  | none => .none

def advance (sh : Shared) (c : Conn) (clock : ℕ) : Option (Effect × Conn) :=
  match c.phase with
  | .spawned => some (.none,{ c with phase := .subscribed, rx := some (subscribe sh.tx) })
  | .subscribed =>
    some (.insertClient c.id,
      { c with phase := .joined (clientCount (insertClient sh.clients c.id)) })
  | .joined n => some (.send (.server (.presence c.id true)),{ c with phase := .welcoming n })
  | .welcoming n =>
    some (.none,{ c with phase := .reading, welcome := some n, writer := .waiting })
  | .handling (.setNick name) =>
    some (.setNick c.id name,{ c with phase := .reading, nick := some name })
  | .handling (.chat text clientTs) => some (.none,{ c with phase := .chatting text clientTs clock })
  | .handling (.vote option) => some (.fetchAdd option 1,{ c with phase := .voting option })
  | .handling .unvote =>
    match c.currentVote with
    | some prev => some (.none,{ c with phase := .unvoting prev .reading, currentVote := none })
    | none => some (.none,{ c with phase := .reading })
  | .chatting text clientTs sentAt =>
    some (.send (.server (.chat c.id c.nick text sentAt clientTs)),{ c with phase := .chatted })
  | .chatted => some (.recordSent,{ c with phase := .reading })
  | .voting option => some (subtract c.currentVote,{ c with phase := .voted option })
  | .voted option => some (.none,{ c with phase := .loading [] 0 .reading, currentVote := some option })
  | .unvoting prev after => some (.fetchAdd prev (-1),{ c with phase := .loading [] 0 after })
  | .loading loaded asOf after =>
    if h : loaded.length < nOptions then
      let value := VoteBoard.load sh.counts ⟨loaded.length,h⟩
      let asOf := if loaded = [] then sh.version else asOf
      some (.none,{ c with phase := .loading (loaded++[value]) asOf after })
    else
      some (.callThrottled ⟨fun i => loaded.getD i 0,asOf⟩,
        { c with phase := .publishing sh.throttle.tasks.length after })
  | .publishing call after =>
    if sh.throttle.tasks[call]? = some .returned then some (.none,{ c with phase := after.phase })
    else none
  -- `current_vote` is not read again after this
  | .exiting =>
    match c.currentVote with
    | some prev =>
      some (.none,{ c with phase := .unvoting prev .leaving, currentVote := none, aborted := true })
    | none => some (.none,{ c with phase := .leaving, aborted := true })
  | .leaving => some (.removeClient c.id,{ c with phase := .left })
  | .left => some (.send (.server (.presence c.id false)),{ c with phase := .returned true })
  | .reading | .returned _ => none

def receive (cap : ℕ) (sh : Shared) (c : Conn) (r : Receiver) : Option (Effect × Conn) :=
  (recv cap sh.tx r).map fun
    | (.event pos (.server msg),r) => (.none,{ c with rx := some r, writer := .writing pos msg })
    | (.event _ .shutdown,r) => (.none,{ c with rx := some r, writer := .stopped })
    | (.lagged _,r) => (.none,{ c with rx := some r })

def act (cap : ℕ) (sh : Shared) (c : Conn) : Input → Option (Effect × Conn)
  | .go clock => advance sh c clock
  | .fail =>
    match c.phase with
    | .welcoming _ => some (.none,{ c with phase := .returned false })
    | _ => none
  | .line msg =>
    if c.phase = .reading then
      match msg with
      | some msg => some (.recordRecv,{ c with phase := .handling msg, parsed := c.parsed++[msg] })
      | none => some (.none,c)
    else none
  | .eof | .readError => if c.phase = .reading then some (.none,{ c with phase := .exiting }) else none
  | .writerEnded =>
    if c.phase = .reading ∧ c.writer = .stopped then some (.none,{ c with phase := .exiting }) else none
  | .recv =>
    match c.writer,c.rx with
    | .waiting,some r => receive cap sh c r
    | _,_ => none
  | .written =>
    match c.writer with
    | .writing pos msg => some (.none,{ c with writer := .waiting, lines := c.lines++[(pos,msg)] })
    | _ => none
  | .writeError =>
    match c.writer with
    | .writing _ _ => some (.none,{ c with writer := .stopped })
    | _ => none
  | .closed => if c.writer = .waiting then some (.none,{ c with writer := .stopped }) else none
  | .cancelled =>
    if c.aborted ∧ c.writer ≠ .notStarted then some (.none,{ c with writer := .stopped }) else none

end RustChat.Handler
