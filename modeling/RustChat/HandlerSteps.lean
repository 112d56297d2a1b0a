import RustChat.Handler

/-!
# What a step of a handler can be

The step functions of `handle_client` read backwards: one case for each
operation, with the phase it is taken in, its effect and the handler after it.
Everything later is proved from these cases.
-/

set_option autoImplicit false

namespace RustChat.HandlerSteps
open Protocol Broadcast Room Handler

/-- A step of the handler proper. It leaves the write task to itself. -/
inductive HandlerStep (sh : Shared) (c : Conn) : Input → Effect → Conn → Prop where
  | subscribe (clock : ℕ) (h : c.phase = .spawned) :
    HandlerStep sh c (.go clock) .none { c with phase := .subscribed, rx := some (subscribe sh.tx) }
  | join (clock : ℕ) (h : c.phase = .subscribed) :
    HandlerStep sh c (.go clock) (.insertClient c.id)
      { c with phase := .joined (clientCount (insertClient sh.clients c.id)) }
  | announce (clock n : ℕ) (h : c.phase = .joined n) :
    HandlerStep sh c (.go clock) (.send (.server (.presence c.id true))) { c with phase := .welcoming n }
  | welcome (clock n : ℕ) (h : c.phase = .welcoming n) :
    HandlerStep sh c (.go clock) .none
      { c with phase := .reading, welcome := some n, writer := .waiting }
  | fail (n : ℕ) (h : c.phase = .welcoming n) :
    HandlerStep sh c .fail .none { c with phase := .returned false }
  | parse (msg : ClientMsg) (h : c.phase = .reading) :
    HandlerStep sh c (.line (some msg)) .recordRecv
      { c with phase := .handling msg, parsed := c.parsed++[msg] }
  | skip (h : c.phase = .reading) : HandlerStep sh c (.line none) .none c
  | stop (i : Input) (hi : i = .eof ∨ i = .readError ∨ i = .writerEnded ∧ c.writer = .stopped)
    (h : c.phase = .reading) : HandlerStep sh c i .none { c with phase := .exiting }
  | rename (clock : ℕ) (name : String) (h : c.phase = .handling (.setNick name)) :
    HandlerStep sh c (.go clock) (.setNick c.id name) { c with phase := .reading, nick := some name }
  | stamp (clock : ℕ) (text : String) (clientTs : ℕ) (h : c.phase = .handling (.chat text clientTs)) :
    HandlerStep sh c (.go clock) .none { c with phase := .chatting text clientTs clock }
  | chat (clock : ℕ) (text : String) (clientTs sentAt : ℕ)
    (h : c.phase = .chatting text clientTs sentAt) :
    HandlerStep sh c (.go clock) (.send (.server (.chat c.id c.nick text sentAt clientTs)))
      { c with phase := .chatted }
  | tally (clock : ℕ) (h : c.phase = .chatted) :
    HandlerStep sh c (.go clock) .recordSent { c with phase := .reading }
  | add (clock option : ℕ) (h : c.phase = .handling (.vote option)) :
    HandlerStep sh c (.go clock) (.fetchAdd option 1) { c with phase := .voting option }
  | replace (clock option : ℕ) (h : c.phase = .voting option) :
    HandlerStep sh c (.go clock) (subtract c.currentVote) { c with phase := .voted option }
  | record (clock option : ℕ) (h : c.phase = .voted option) :
    HandlerStep sh c (.go clock) .none
      { c with phase := .loading [] 0 .reading, currentVote := some option }
  | withdraw (clock prev : ℕ) (h : c.phase = .handling .unvote) (hv : c.currentVote = some prev) :
    HandlerStep sh c (.go clock) .none
      { c with phase := .unvoting prev .reading, currentVote := none }
  | nothing (clock : ℕ) (h : c.phase = .handling .unvote) (hv : c.currentVote = none) :
    HandlerStep sh c (.go clock) .none { c with phase := .reading }
  | unvote (clock prev : ℕ) (after : After) (h : c.phase = .unvoting prev after) :
    HandlerStep sh c (.go clock) (.fetchAdd prev (-1)) { c with phase := .loading [] 0 after }
  | load (clock : ℕ) (loaded : List ℕ) (asOf : ℕ) (after : After)
    (h : c.phase = .loading loaded asOf after) (hl : loaded.length < nOptions) :
    HandlerStep sh c (.go clock) .none
      { c with
        phase := .loading (loaded++[VoteBoard.load sh.counts ⟨loaded.length,hl⟩])
          (if loaded = [] then sh.version else asOf) after }
  | publish (clock : ℕ) (loaded : List ℕ) (asOf : ℕ) (after : After)
    (h : c.phase = .loading loaded asOf after) (hl : nOptions ≤ loaded.length) :
    HandlerStep sh c (.go clock) (.callThrottled ⟨fun i => loaded.getD i 0,asOf⟩)
      { c with phase := .publishing sh.throttle.tasks.length after }
  | resume (clock call : ℕ) (after : After) (h : c.phase = .publishing call after)
    (hr : sh.throttle.tasks[call]? = some .returned) :
    HandlerStep sh c (.go clock) .none { c with phase := after.phase }
  | disconnect (clock prev : ℕ) (h : c.phase = .exiting) (hv : c.currentVote = some prev) :
    HandlerStep sh c (.go clock) .none
      { c with phase := .unvoting prev .leaving, currentVote := none, aborted := true }
  | quit (clock : ℕ) (h : c.phase = .exiting) (hv : c.currentVote = none) :
    HandlerStep sh c (.go clock) .none { c with phase := .leaving, aborted := true }
  | leave (clock : ℕ) (h : c.phase = .leaving) :
    HandlerStep sh c (.go clock) (.removeClient c.id) { c with phase := .left }
  | farewell (clock : ℕ) (h : c.phase = .left) :
    HandlerStep sh c (.go clock) (.send (.server (.presence c.id false)))
      { c with phase := .returned true }

/-- A step of the write task. It touches the cursor, the task and the lines. -/
inductive WriterStep (cap : ℕ) (sh : Shared) (c : Conn) : Input → Conn → Prop where
  | event (r r' : Receiver) (pos : ℕ) (msg : ServerMsg) (h : c.writer = .waiting) (hr : c.rx = some r)
    (hrecv : recv cap sh.tx r = some (.event pos (.server msg),r')) :
    WriterStep cap sh c .recv { c with rx := some r', writer := .writing pos msg }
  | shutdown (r r' : Receiver) (pos : ℕ) (h : c.writer = .waiting) (hr : c.rx = some r)
    (hrecv : recv cap sh.tx r = some (.event pos .shutdown,r')) :
    WriterStep cap sh c .recv { c with rx := some r', writer := .stopped }
  | lagged (r r' : Receiver) (n : ℕ) (h : c.writer = .waiting) (hr : c.rx = some r)
    (hrecv : recv cap sh.tx r = some (.lagged n,r')) :
    WriterStep cap sh c .recv { c with rx := some r' }
  | written (pos : ℕ) (msg : ServerMsg) (h : c.writer = .writing pos msg) :
    WriterStep cap sh c .written { c with writer := .waiting, lines := c.lines++[(pos,msg)] }
  | stop (i : Input) (hi : i = .writeError ∨ i = .closed ∨ i = .cancelled)
    (h : c.writer ≠ .notStarted) : WriterStep cap sh c i { c with writer := .stopped }

theorem advance_step (sh : Shared) (c : Conn) (clock : ℕ) (e : Effect) (c' : Conn)
    (h : advance sh c clock = some (e,c')) : HandlerStep sh c (.go clock) e c' := by
  unfold advance at h
  cases hp : c.phase with
  | handling msg =>
    cases msg with
    | chat text clientTs =>
      simp only [hp] at h
      cases h
      exact .stamp clock text clientTs hp
    | setNick name =>
      simp only [hp] at h
      cases h
      exact .rename clock name hp
    | vote option =>
      simp only [hp] at h
      cases h
      exact .add clock option hp
    | unvote =>
      simp only [hp] at h
      split at h
      · rename_i prev hv
        cases h
        exact .withdraw clock prev hp hv
      · rename_i hv
        cases h
        exact .nothing clock hp hv
  | loading loaded asOf after =>
    simp only [hp] at h
    by_cases hl : loaded.length < nOptions
    · rw [dif_pos hl] at h
      cases h
      exact .load clock loaded asOf after hp hl
    · rw [dif_neg hl] at h
      cases h
      exact .publish clock loaded asOf after hp (Nat.le_of_not_lt hl)
  | publishing call after =>
    simp only [hp] at h
    split_ifs at h with hr
    cases h
    exact .resume clock call after hp hr
  | exiting =>
    simp only [hp] at h
    split at h
    · rename_i prev hv
      cases h
      exact .disconnect clock prev hp hv
    · rename_i hv
      cases h
      exact .quit clock hp hv
  | spawned =>
    simp only [hp] at h
    cases h
    exact .subscribe clock hp
  | subscribed =>
    simp only [hp] at h
    cases h
    exact .join clock hp
  | joined n =>
    simp only [hp] at h
    cases h
    exact .announce clock n hp
  | welcoming n =>
    simp only [hp] at h
    cases h
    exact .welcome clock n hp
  | chatting text clientTs sentAt =>
    simp only [hp] at h
    cases h
    exact .chat clock text clientTs sentAt hp
  | chatted =>
    simp only [hp] at h
    cases h
    exact .tally clock hp
  | voting option =>
    simp only [hp] at h
    cases h
    exact .replace clock option hp
  | voted option =>
    simp only [hp] at h
    cases h
    exact .record clock option hp
  | unvoting prev after =>
    simp only [hp] at h
    cases h
    exact .unvote clock prev after hp
  | leaving =>
    simp only [hp] at h
    cases h
    exact .leave clock hp
  | left =>
    simp only [hp] at h
    cases h
    exact .farewell clock hp
  | reading | returned ok => simp [hp] at h

theorem receive_step (cap : ℕ) (sh : Shared) (c : Conn) (r : Receiver) (e : Effect) (c' : Conn)
    (hw : c.writer = .waiting) (hr : c.rx = some r) (h : receive cap sh c r = some (e,c')) :
    e = .none ∧ WriterStep cap sh c .recv c' := by
  obtain ⟨⟨got,r'⟩,hrecv,he⟩ := Option.map_eq_some_iff.mp h
  rcases got with ⟨pos,_ | _⟩ | n
  · cases he
    exact ⟨rfl,.event r r' pos _ hw hr hrecv⟩
  · cases he
    exact ⟨rfl,.shutdown r r' pos hw hr hrecv⟩
  · cases he
    exact ⟨rfl,.lagged r r' n hw hr hrecv⟩

theorem act_step (cap : ℕ) (sh : Shared) (c : Conn) (i : Input) (e : Effect) (c' : Conn)
    (h : act cap sh c i = some (e,c')) :
    HandlerStep sh c i e c' ∨ (e = .none ∧ WriterStep cap sh c i c') := by
  cases i with
  | go clock => exact Or.inl (advance_step sh c clock e c' h)
  | fail =>
    simp only [act] at h
    split at h
    · rename_i n hp
      cases h
      exact Or.inl (.fail n hp)
    · cases h
  | line msg =>
    simp only [act] at h
    split_ifs at h with hp
    cases msg with
    | none =>
      cases h
      exact Or.inl (.skip hp)
    | some msg =>
      cases h
      exact Or.inl (.parse msg hp)
  | eof =>
    simp only [act] at h
    split_ifs at h with hp
    cases h
    exact Or.inl (.stop .eof (Or.inl rfl) hp)
  | readError =>
    simp only [act] at h
    split_ifs at h with hp
    cases h
    exact Or.inl (.stop .readError (Or.inr (Or.inl rfl)) hp)
  | writerEnded =>
    simp only [act] at h
    split_ifs at h with hp
    cases h
    exact Or.inl (.stop .writerEnded (Or.inr (Or.inr ⟨rfl,hp.2⟩)) hp.1)
  | recv =>
    simp only [act] at h
    split at h
    · rename_i r hw hr
      exact Or.inr (receive_step cap sh c r e c' hw hr h)
    · cases h
  | written =>
    simp only [act] at h
    split at h
    · rename_i pos msg hw
      cases h
      exact Or.inr ⟨rfl,.written pos msg hw⟩
    · cases h
  | writeError =>
    simp only [act] at h
    split at h
    · rename_i pos msg hw
      cases h
      exact Or.inr ⟨rfl,.stop _ (Or.inl rfl) (by simp [hw])⟩
    · cases h
  | closed =>
    simp only [act] at h
    split_ifs at h with hw
    cases h
    exact Or.inr ⟨rfl,.stop _ (Or.inr (Or.inl rfl)) (by simp [hw])⟩
  | cancelled =>
    simp only [act] at h
    split_ifs at h with hw
    cases h
    exact Or.inr ⟨rfl,.stop _ (Or.inr (Or.inr rfl)) hw.2⟩

theorem writer_frame (cap : ℕ) (sh : Shared) (c : Conn) (i : Input) (c' : Conn)
    (h : WriterStep cap sh c i c') :
    c'.id = c.id ∧ c'.phase = c.phase ∧ c'.currentVote = c.currentVote ∧ c'.nick = c.nick ∧
      c'.aborted = c.aborted ∧ c'.welcome = c.welcome ∧ c'.parsed = c.parsed := by
  cases h <;> exact ⟨rfl,rfl,rfl,rfl,rfl,rfl,rfl⟩

theorem handler_id (sh : Shared) (c : Conn) (i : Input) (e : Effect) (c' : Conn)
    (h : HandlerStep sh c i e c') : c'.id = c.id := by
  cases h <;> rfl

end RustChat.HandlerSteps
