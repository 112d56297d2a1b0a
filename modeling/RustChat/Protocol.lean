import Mathlib.Data.Fintype.Pi

/-!
# The wire protocol

The messages of both directions and the events of the broadcast channel.
Unsigned counters and ids are natural numbers. The percentages that travel
with the counts of a `VoteSnapshot` are quotients of those counts: they are
left out here, and `VoteShare` computes them.
-/

set_option autoImplicit false

namespace RustChat.Protocol

abbrev nOptions : ℕ := 4

def maxLineLen : ℕ := 65536

abbrev Counts := Fin nOptions → ℕ

/-- Client to server. The option of a vote is any `usize`. -/
inductive ClientMsg where
  | chat (text : String) (clientTs : ℕ)
  | setNick (name : String)
  | vote (option : ℕ)
  | unvote
  deriving DecidableEq, Repr

inductive ServerMsg where
  | welcome (peerCount : ℕ)
  | chat (sender : ℕ) (nick : Option String) (text : String) (sentAt clientTs : ℕ)
  | voteSnapshot (counts : Counts)
  | presence (id : ℕ) (joined : Bool)
  | error (msg : String)
  deriving DecidableEq

inductive BroadcastEvent where
  | server (msg : ServerMsg)
  | shutdown
  deriving DecidableEq

end RustChat.Protocol
