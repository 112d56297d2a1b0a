import Mathlib.Tactic.Common
import RustChat.Protocol

/-!
# The terminal client

`AppState` and what the network task does to it for each message received, and
the participant count in the title of the chat panel. The vote percentages are
left out, as they are in the messages; `VoteShare` adds them.
-/

set_option autoImplicit false

namespace RustChat.Tui
open Protocol

def maxMessages : ℕ := 200

structure AppState where
  messages : List String
  voteCounts : Counts
  clientCount : ℕ
  input : String
  myVote : Option ℕ

def new : AppState := ⟨[],fun _ => 0,0,"",none⟩

def pushMsg (s : AppState) (msg : String) : AppState :=
  { s with messages :=
      (if maxMessages ≤ s.messages.length then s.messages.tail else s.messages)++[msg] }

def receive (s : AppState) : ServerMsg → AppState
  | .welcome peerCount => { s with clientCount := peerCount }
  | .chat sender nick text _ _ =>
    let sender := nick.getD (toString sender)
    pushMsg s s!"[{sender}] {text}"
  | .voteSnapshot counts => { s with voteCounts := counts }
  | .presence id joined =>
    if joined then pushMsg { s with clientCount := s.clientCount+1 } s!"▶ {id} 입장"
    else pushMsg { s with clientCount := s.clientCount-1 } s!"◀ {id} 퇴장"
  | .error msg => pushMsg s s!"⚠ {msg}"

def received (msgs : List ServerMsg) : AppState := msgs.foldl receive new

/-- The count `render_chat` puts in the title: the client does not count
itself. There is none where the subtraction would underflow. -/
def titleCount (s : AppState) : Option ℕ := if s.clientCount = 0 then none else some (s.clientCount-1)

/-! ## The count alone -/

/-- What a message does to the count, `saturating_sub` included. -/
def countStep (n : ℕ) : ServerMsg → ℕ
  | .welcome peerCount => peerCount
  | .presence _ true => n+1
  | .presence _ false => n-1
  | _ => n

theorem receive_clientCount (s : AppState) (msg : ServerMsg) :
    (receive s msg).clientCount = countStep s.clientCount msg := by
  cases msg with
  | presence id joined => cases joined <;> rfl
  | _ => rfl

theorem foldl_clientCount (msgs : List ServerMsg) (s : AppState) :
    (msgs.foldl receive s).clientCount = msgs.foldl countStep s.clientCount := by
  induction msgs generalizing s with
  | nil => rfl
  | cons msg msgs ih => rw [List.foldl_cons, List.foldl_cons, ih, receive_clientCount]

end RustChat.Tui
