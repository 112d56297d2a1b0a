import RustChat.Allocation
import RustChat.Numeral
import RustChat.Tui

/-!
# What the user types

`parse_input` and the keys of the event loop. A session is any interleaving of
keys with the messages the network task receives.
-/

set_option autoImplicit false

namespace RustChat.TuiInput
open Protocol Text Numeral Allocation Tui

/-- `parse_input`, with the clock it would read. -/
def parseInput (now : ℕ) (input : String) (s : AppState) : Option ClientMsg × AppState :=
  match stripPrefix "/nick ".toList input.toList with
  | some rest => (if trim rest = [] then none else some (.setNick (String.ofList (trim rest))),s)
  | none =>
    match stripPrefix "/vote ".toList input.toList with
    | some rest =>
      match parseUnsigned u64Bound (trim rest) with
      | some n =>
        -- a `saturating_sub`: zero becomes the first option, as one does
        let option := n-1
        if option < nOptions then (some (.vote option),{ s with myVote := some option }) else (none,s)
      | none => (none,s)
    | none =>
      if input = "/unvote" then (some .unvote,{ s with myVote := none })
      else (some (.chat input now),s)

inductive Key where
  | enter
  | backspace
  | char (c : Char)
  deriving DecidableEq, Repr

/-- One key of the event loop, with the message it sends. -/
def press (now : ℕ) (s : AppState) : Key → Option ClientMsg × AppState
  | .enter =>
    let input := trim s.input.toList
    let s := { s with input := "" }
    if input = [] then (none,s) else parseInput now (String.ofList input) s
  | .backspace => (none,{ s with input := String.ofList s.input.toList.dropLast })
  | .char c => (none,{ s with input := s.input.push c })

inductive Event where
  | key (k : Key) (now : ℕ)
  | net (msg : ServerMsg)

structure Client where
  state : AppState
  sent : List ClientMsg

/-- The network task never touches the vote or the input, so a key is one step. -/
def handle (c : Client) : Event → Client
  | .key k now => ⟨(press now c.state k).2,c.sent++(press now c.state k).1.toList⟩
  | .net msg => ⟨receive c.state msg,c.sent⟩

def session (events : List Event) : Client := events.foldl handle ⟨new,[]⟩

theorem session_snoc (events : List Event) (e : Event) :
    session (events++[e]) = handle (session events) e := by
  rw [session, List.foldl_append]
  rfl

/-! ## The vote command -/

/-- The text is the vote command with this number. -/
def Command (input : String) (n : ℕ) : Prop :=
  ∃ blanks numeral, input.toList = "/vote ".toList++blanks++numeral ∧ Blank blanks ∧ Denotes numeral n

/-- What is typed is what is sent: a vote for the option with that number, and
nothing for any other text behind the command. -/
structure MeansTyped (now : ℕ) (input : String) (s : AppState) : Prop where
  sound : ∀ option, (parseInput now input s).1 = some (.vote option) →
    (∃ n, Command input n ∧ 1 ≤ n ∧ n ≤ nOptions ∧ option = n-1) ∧
      (parseInput now input s).2 = { s with myVote := some option }
  complete : ∀ n, Command input n → 1 ≤ n → n ≤ nOptions →
    parseInput now input s = (some (.vote (n-1)),{ s with myVote := some (n-1) })
  refused : "/vote ".toList <+: input.toList → (∀ n, Command input n → ¬ (1 ≤ n ∧ n ≤ nOptions)) →
    parseInput now input s = (none,s)
  unvote : (parseInput now input s).1 = some .unvote ↔ input = "/unvote"
  chat : ¬ "/nick ".toList <+: input.toList → ¬ "/vote ".toList <+: input.toList →
    input ≠ "/unvote" → parseInput now input s = (some (.chat input now),s)

theorem parseInput_nick (now : ℕ) (input : String) (s : AppState) (rest : List Char)
    (h : input.toList = "/nick ".toList++rest) :
    parseInput now input s = (if trim rest = [] then none else some (.setNick (String.ofList (trim rest))),s) := by
  rw [parseInput, h, stripPrefix_append]

theorem parseInput_vote (now : ℕ) (input : String) (s : AppState) (rest : List Char)
    (h : input.toList = "/vote ".toList++rest) :
    parseInput now input s =
      match parseUnsigned u64Bound (trim rest) with
      | some n =>
        if n-1 < nOptions then (some (.vote (n-1)),{ s with myVote := some (n-1) }) else (none,s)
      | none => (none,s) := by
  have hnick : ¬ "/nick ".toList <+: "/vote ".toList++rest := fun hp => by
    have htake := List.prefix_iff_eq_take.mp hp
    rw [show ("/nick ".toList).length = ("/vote ".toList).length by decide, List.take_left] at htake
    exact absurd htake (by decide)
  rw [parseInput, h, stripPrefix_none _ _ hnick, stripPrefix_append]

theorem parseInput_other (now : ℕ) (input : String) (s : AppState) (hnick : ¬ "/nick ".toList <+: input.toList)
    (hvote : ¬ "/vote ".toList <+: input.toList) :
    parseInput now input s =
      if input = "/unvote" then (some .unvote,{ s with myVote := none }) else (some (.chat input now),s) := by
  rw [parseInput, stripPrefix_none _ _ hnick, stripPrefix_none _ _ hvote]

/-- Of a trimmed input, what `trim` leaves behind the command is the numeral. -/
theorem command_iff (input : String) (n : ℕ) (htrim : trim input.toList = input.toList) (rest : List Char)
    (h : input.toList = "/vote ".toList++rest) : Command input n ↔ Denotes (trim rest) n := by
  constructor
  · rintro ⟨blanks,numeral,hinput,hblank,hden⟩
    rw [h, List.append_assoc] at hinput
    rw [List.append_cancel_left hinput, trim_append_left _ _ hblank, trim_solid _ (denotes_solid _ n hden)]
    exact hden
  · intro hden
    obtain ⟨l,r,hrest,hl,hr⟩ := trim_padded rest
    have hwhole : input.toList = "/vote ".toList++l++trim rest++r := by
      rw [h, List.append_assoc, List.append_assoc, ← List.append_assoc l, ← hrest]
    rw [hwhole] at htrim
    rw [trimmed_append_right _ r hr htrim, List.append_nil] at hwhole
    exact ⟨l,trim rest,hwhole,hl,hden⟩

theorem command_starts (input : String) (n : ℕ) (h : Command input n) : "/vote ".toList <+: input.toList := by
  obtain ⟨blanks,numeral,hinput,-⟩ := h
  exact ⟨blanks++numeral,by rw [hinput, List.append_assoc]⟩

theorem parseInput_command (now : ℕ) (input : String) (s : AppState) (n : ℕ)
    (htrim : trim input.toList = input.toList) (h : Command input n) :
    parseInput now input s =
      if n-1 < nOptions then (some (.vote (n-1)),{ s with myVote := some (n-1) }) else (none,s) := by
  obtain ⟨rest,hrest⟩ := command_starts input n h
  have hden := (command_iff input n htrim rest hrest.symm).mp h
  rw [parseInput_vote now input s rest hrest.symm]
  by_cases hn : n < u64Bound
  · rw [(parseUnsigned_iff u64Bound _ n (by decide)).mpr ⟨hden,hn⟩]
  · -- a number too large for the type is not an option either
    have hnone : parseUnsigned u64Bound (trim rest) = none := by
      rw [Option.eq_none_iff_forall_ne_some]
      intro m hm
      obtain ⟨hden',hlt⟩ := (parseUnsigned_iff u64Bound _ m (by decide)).mp hm
      exact hn (denotes_unique _ m n hden' hden ▸ hlt)
    have hbound : nOptions < u64Bound := by decide
    rw [hnone, if_neg (by omega)]

theorem parseInput_no_command (now : ℕ) (input : String) (s : AppState)
    (htrim : trim input.toList = input.toList) (hvote : "/vote ".toList <+: input.toList)
    (h : ∀ n, ¬ Command input n) : parseInput now input s = (none,s) := by
  obtain ⟨rest,hrest⟩ := hvote
  rw [parseInput_vote now input s rest hrest.symm]
  cases hp : parseUnsigned u64Bound (trim rest) with
  | none => rfl
  | some n =>
    obtain ⟨hden,-⟩ := (parseUnsigned_iff u64Bound _ n (by decide)).mp hp
    exact absurd ((command_iff input n htrim rest hrest.symm).mpr hden) (h n)

theorem command_unique (input : String) (m n : ℕ) (htrim : trim input.toList = input.toList)
    (hm : Command input m) (hn : Command input n) : m = n := by
  obtain ⟨rest,hrest⟩ := command_starts input n hn
  exact denotes_unique _ m n ((command_iff input m htrim rest hrest.symm).mp hm)
    ((command_iff input n htrim rest hrest.symm).mp hn)

theorem parseInput_not_vote (now : ℕ) (input : String) (s : AppState)
    (hvote : ¬ "/vote ".toList <+: input.toList) :
    (∀ option, (parseInput now input s).1 ≠ some (.vote option)) ∧
      ((parseInput now input s).1 = some .unvote ↔ input = "/unvote") := by
  by_cases hnick : "/nick ".toList <+: input.toList
  · obtain ⟨rest,hrest⟩ := hnick
    have hne : input ≠ "/unvote" := by
      rintro rfl
      exact absurd ⟨rest,hrest⟩ (by decide : ¬ "/nick ".toList <+: "/unvote".toList)
    rw [parseInput_nick now input s rest hrest.symm]
    split_ifs <;> simp [hne]
  · rw [parseInput_other now input s hnick hvote]
    split_ifs with h <;> simp [h]

theorem vote_ne_unvote (input : String) (hvote : "/vote ".toList <+: input.toList) : input ≠ "/unvote" := by
  rintro rfl
  exact absurd hvote (by decide)

/-! ## The three kinds of input -/

theorem means_command (now : ℕ) (input : String) (s : AppState) (n : ℕ)
    (htrim : trim input.toList = input.toList) (hn : Command input n) (h1 : 1 ≤ n) :
    MeansTyped now input s := by
  have hvote := command_starts input n hn
  have hparse := parseInput_command now input s n htrim hn
  have hunique : ∀ m, Command input m → m = n := fun m hm => command_unique input m n htrim hm hn
  refine ⟨fun option hoption => ?_,fun m hm _ hle => ?_,fun _ hrange => ?_,?_,fun _ h => absurd hvote h⟩
  · rw [hparse] at hoption ⊢
    split_ifs at hoption ⊢ with hlt
    obtain rfl : n-1 = option := by simpa using hoption
    exact ⟨⟨n,hn,h1,by omega,rfl⟩,rfl⟩
  · rw [hunique m hm] at hle ⊢
    rw [hparse, if_pos (by omega)]
  · have hout := hrange n hn
    rw [hparse, if_neg (by omega)]
  · rw [hparse]
    split_ifs <;> simp [vote_ne_unvote input hvote]

theorem means_no_command (now : ℕ) (input : String) (s : AppState)
    (htrim : trim input.toList = input.toList) (hvote : "/vote ".toList <+: input.toList)
    (hnone : ∀ n, ¬ Command input n) : MeansTyped now input s := by
  have hparse := parseInput_no_command now input s htrim hvote hnone
  refine ⟨fun option hoption => ?_,fun n hn => absurd hn (hnone n),fun _ _ => hparse,?_,
    fun _ h => absurd hvote h⟩
  · rw [hparse] at hoption
    cases hoption
  · rw [hparse]
    simp [vote_ne_unvote input hvote]

theorem means_not_vote (now : ℕ) (input : String) (s : AppState)
    (hvote : ¬ "/vote ".toList <+: input.toList) : MeansTyped now input s := by
  obtain ⟨hvotes,hunvote⟩ := parseInput_not_vote now input s hvote
  refine ⟨fun option h => absurd h (hvotes option),fun n hn => ?_,fun h => absurd h hvote,hunvote,?_⟩
  · exact absurd (command_starts input n hn) hvote
  · intro hnick _ hne
    rw [parseInput_other now input s hnick hvote, if_neg hne]

/-- The vote command means what was typed unless the number is zero. -/
theorem vote_command_iff (now : ℕ) (input : String) (s : AppState)
    (htrim : trim input.toList = input.toList) : MeansTyped now input s ↔ ¬ Command input 0 := by
  constructor
  · intro h hzero
    have hnone := h.refused (command_starts input 0 hzero) fun n hn => by
      rw [command_unique input n 0 htrim hn hzero]
      omega
    rw [parseInput_command now input s 0 htrim hzero] at hnone
    cases hnone
  · intro hzero
    by_cases hvote : "/vote ".toList <+: input.toList
    · by_cases hcommand : ∃ n, Command input n
      · obtain ⟨n,hn⟩ := hcommand
        have h1 : 1 ≤ n := Nat.one_le_iff_ne_zero.mpr fun h0 => hzero (h0 ▸ hn)
        exact means_command now input s n htrim hn h1
      · exact means_no_command now input s htrim hvote fun n hn => hcommand ⟨n,hn⟩
    · exact means_not_vote now input s hvote

theorem third_option_voted : MeansTyped 0 "/vote +3" new :=
  (vote_command_iff 0 "/vote +3" new (by decide)).mpr fun h => by
    have hthree : Command "/vote +3" 3 :=
      ⟨[],"+3".toList,by decide,by simp [Blank],"3".toList,Or.inr (by decide),by decide,by simp,by decide⟩
    exact absurd (command_unique "/vote +3" 0 3 (by decide) h hthree) (by decide)

/-- Option zero of the list is not on offer, and typing it casts a vote. -/
theorem zero_votes_for_the_first :
    ¬ MeansTyped 0 "/vote 0" new := fun h => by
  have hnone := h.refused (by decide) fun n hn => by
    have hzero : Command "/vote 0" 0 :=
      ⟨[],"0".toList,by decide,by simp [Blank],"0".toList,Or.inl rfl,by decide,by simp,by decide⟩
    rw [command_unique "/vote 0" n 0 (by decide) hn hzero]
    omega
  exact absurd (congrArg Prod.fst hnone) (by decide)

end RustChat.TuiInput
