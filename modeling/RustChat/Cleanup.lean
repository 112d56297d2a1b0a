import RustChat.Footprint
import RustChat.Server
import RustChat.VoteAgreement

/-!
# What a handler leaves behind

Every exit of `handle_client` but one goes through the withdrawal of the vote
and `room.leave`. The one that does not is the `?` on the write of the Welcome
line, which returns between `room.join` and the read loop.
-/

set_option autoImplicit false

namespace RustChat.Cleanup
open Runs Protocol Room Handler HandlerSteps Hub Footprint VoteConservation Server
open VoteAgreement (contributed contributed_account counts_contributed accountOf)

/-- No key, no vote on the board, and one joined followed by one left. What the
handler has done to the counters is undone, and they are what the others have
made of them. -/
structure Clean (cap : ℕ) (as : List Hub.Action) (s : Hub.State) (k : ℕ) (c : Conn) : Prop where
  key : c.id ∉ s.shared.clients
  vote : contributed cap k as Hub.init = 0
  board : s.shared.counts =
    (((List.range s.tasks.length).erase k).map fun j => contributed cap j as Hub.init).sum
  presence : presences c.id s.shared.tx = [true,false]

theorem handler_fail (sh : Shared) (c : Conn) (i : Input) (e : Effect) (c' : Conn)
    (h : HandlerStep sh c i e c') :
    c.phase ≠ .returned false ∧ (c'.phase = .returned false ↔ i = .fail) := by
  cases h with
  | resume clock call after h hr => cases after <;> simp [h, After.phase]
  | skip h => simp [h]
  | stop i hi h =>
    rcases hi with rfl | rfl | ⟨rfl,_⟩ <;> simp [h]
  | _ => simp [*]

/-- The handlers that returned an error are those whose Welcome failed. -/
def Failures (as : List Hub.Action) (s : Hub.State) : Prop :=
  (∀ (k : ℕ) c, s.tasks[k]? = some c → (c.phase = .returned false ↔ .conn k .fail ∈ as)) ∧
    ∀ k, .conn k .fail ∈ as → k < s.tasks.length

theorem run_failures (cap : ℕ) (as : List Hub.Action) (s : Hub.State)
    (h : run (Hub.step cap) as Hub.init = some s) : Failures as s := by
  refine run_history Failures Hub.init ⟨by simp [Hub.init],by simp⟩ ?_ as s h
  rintro as m a t _ ⟨hall,hlt⟩ ht
  have hlen := step_length cap m t a ht
  refine ⟨fun k c' hc' => ?_,fun k hk => ?_⟩
  · rw [List.mem_append, List.mem_singleton]
    rcases conn_backward cap m t a ht k c' hc' with
      ⟨c,hc,⟨rfl,hne⟩ | ⟨i,rfl,⟨e,hs⟩ | hw⟩⟩ | ⟨rfl,rfl,rfl⟩
    · rw [hall k c' hc]
      simp [Ne.symm (hne .fail)]
    · obtain ⟨hc0,hi⟩ := handler_fail m.shared c i e c' hs
      have hno : .conn k .fail ∉ as := fun hk => hc0 ((hall k c hc).mpr hk)
      simp [hi, hno, eq_comm]
    · rw [(writer_frame cap m.shared c i c' hw).2.1, hall k c hc]
      have hi : i ≠ .fail := by
        cases hw with
        | stop i hi hw => rcases hi with rfl | rfl | rfl <;> simp
        | _ => simp
      simp [Ne.symm hi]
    · have hno : .conn m.tasks.length .fail ∉ as := fun hk => Nat.lt_irrefl _ (hlt _ hk)
      simp [Handler.spawn, hno]
  · rcases List.mem_append.mp hk with hk | hk
    · exact Nat.lt_of_lt_of_le (hlt k hk) hlen
    · obtain rfl := List.mem_singleton.mp hk
      obtain ⟨d,_,_,_,hd,_,_⟩ := TaskPool.move_cases (Hub.next cap) m t k .fail ht
      exact Nat.lt_of_lt_of_le (List.getElem?_eq_some_iff.mp hd).1 hlen

/-- A handler without a vote leaves the board to the others. -/
theorem board_of_others (cap : ℕ) (as : List Hub.Action) (s : Hub.State)
    (h : run (Hub.step cap) as Hub.init = some s) (k : ℕ) (hk : k < s.tasks.length)
    (hv : contributed cap k as Hub.init = 0) :
    s.shared.counts =
      (((List.range s.tasks.length).erase k).map fun j => contributed cap j as Hub.init).sum := by
  have hperm := (List.perm_cons_erase (List.mem_range.mpr hk)).map fun j => contributed cap j as Hub.init
  rw [counts_contributed cap as s h, hperm.sum_eq, List.map_cons, List.sum_cons, hv, zero_add]

theorem returned_clean (cap : ℕ) (as : List Hub.Action) (s : Hub.State)
    (h : run (Hub.step cap) as Hub.init = some s) (k : ℕ) (c : Conn) (ok : Bool) (hc : s.tasks[k]? = some c)
    (hp : c.phase = .returned ok) : Clean cap as s k c ↔ ok = true := by
  have ht := run_trace cap as s h k c hc
  cases ok with
  | false =>
    simp only [Bool.false_eq_true, iff_false]
    exact fun hclean => hclean.key (ht.key.mpr (by simp [hp, present]))
  | true =>
    have hr := run_recorded cap as s h k c hc
    have hnone : c.currentVote = none := by simpa [Recorded, hp] using hr
    have hv : contributed cap k as Hub.init = 0 := by
      funext i
      rw [contributed_account cap k as s h]
      simp [accountOf, hc, account, inProgress, hp, hnone, votes]
    refine ⟨fun _ => rfl,fun _ => ⟨fun hk => ?_,hv,?_,?_⟩⟩
    · simpa [hp, present] using ht.key.mp hk
    · exact board_of_others cap as s h k (List.getElem?_eq_some_iff.mp hc).1 hv
    · rw [ht.presence, hp]
      rfl

/-! ## The room -/

/-- Every key of the room belongs to a handler that has not returned. -/
def KeysOwned (s : Hub.State) : Prop :=
  ∀ key ∈ s.shared.clients, ∃ c ∈ s.tasks, c.id = key ∧ hasReturned c = false

theorem keys_owned (s : Hub.State) (hk : Known s)
    (ht : ∀ (k : ℕ) c, s.tasks[k]? = some c → Trace s.shared c) :
    KeysOwned s ↔ ∀ (k : ℕ) c, s.tasks[k]? = some c → c.phase ≠ .returned false := by
  constructor
  · intro ho k c hc hp
    have hkey := (ht k c hc).key.mpr (by simp [hp, present])
    obtain ⟨d,hd,hid,hr⟩ := ho c.id hkey
    obtain ⟨j,hj⟩ := List.mem_iff_getElem?.mp hd
    have hck := hk.numbered k c hc
    have hdj := hk.numbered j d hj
    obtain rfl : j = k := by omega
    obtain rfl : c = d := Option.some.inj (hc.symm.trans hj)
    simp [hasReturned, hp] at hr
  · intro hno key hkey
    obtain ⟨h1,hle⟩ := hk.keys key hkey
    have hlt : key-1 < s.tasks.length := by omega
    have hc := List.getElem?_eq_getElem hlt
    have hid : s.tasks[key-1].id = key := by
      have hn := hk.numbered _ _ hc
      omega
    refine ⟨s.tasks[key-1],List.getElem_mem hlt,hid,?_⟩
    have hp := (ht _ _ hc).key.mp (by rwa [hid])
    have hf := hno _ _ hc
    unfold hasReturned
    split
    · rename_i ok hph
      cases ok <;> simp_all [present]
    · rfl

theorem count_le (s : Hub.State) (ho : KeysOwned s) :
    clientCount s.shared.clients ≤ (s.tasks.filter fun c => !hasReturned c).length := by
  have hsub : s.shared.clients.keys ⊆ (s.tasks.filter fun c => !hasReturned c).map Conn.id := by
    intro key hkey
    obtain ⟨c,hc,hid,hr⟩ := ho key (AList.mem_keys.mpr hkey)
    exact List.mem_map.mpr ⟨c,List.mem_filter.mpr ⟨hc,by simp [hr]⟩,hid⟩
  have hle := (List.subperm_of_subset s.shared.clients.keys_nodup hsub).length_le
  rwa [List.length_map] at hle

/-! ## The failed Welcome -/

def failedWelcome : List Server.Action :=
  [.accept .connect,.accept .go,.accept .go,.accept .go,.accept .spawn,
   .conn 0 (.go 0),.conn 0 (.go 0),.conn 0 (.go 0),.conn 0 .fail]

def failedWelcomeEnd : Server.State := (run (Server.step 16) failedWelcome Server.init).get (by decide +kernel)

def failedWelcomeConn : Conn := failedWelcomeEnd.hub.tasks.get ⟨0,by decide +kernel⟩

theorem failed_welcome_unclean :
    ¬ ∀ (cap : ℕ) (as : List Server.Action) (s : Server.State),
      run (Server.step cap) as Server.init = some s →
        (∀ (k : ℕ) c ok, s.hub.tasks[k]? = some c → c.phase = .returned ok →
          Clean cap (as.filterMap hubAction) s.hub k c) ∧
          KeysOwned s.hub ∧ clientCount s.hub.shared.clients ≤ Accept.maxConnections := by
  intro hclean
  have hrun : run (Server.step 16) failedWelcome Server.init = some failedWelcomeEnd :=
    (Option.some_get _).symm
  have hc := (hclean 16 failedWelcome failedWelcomeEnd hrun).1 0 failedWelcomeConn false
    (List.getElem?_eq_getElem _) (by decide +kernel)
  exact absurd hc.presence (by decide +kernel)

/-- In every run of the server, a handler that has returned is clean exactly
if its Welcome did not fail; every key of the room has a handler that has not
returned exactly if no Welcome failed at all, and then the room holds at most
as many clients as connections are allowed. -/
theorem clean_iff_welcomed (cap : ℕ) (as : List Server.Action) (s : Server.State)
    (h : run (Server.step cap) as Server.init = some s) :
    (∀ (k : ℕ) c ok, s.hub.tasks[k]? = some c → c.phase = .returned ok →
      (Clean cap (as.filterMap hubAction) s.hub k c ↔ .conn k .fail ∉ as)) ∧
    (KeysOwned s.hub ↔ ∀ k, .conn k .fail ∉ as) ∧
    ((∀ k, .conn k .fail ∉ as) → clientCount s.hub.shared.clients ≤ Accept.maxConnections) := by
  have hhub := (run_parts cap as s h).2
  have hmem : ∀ k, Hub.Action.conn k .fail ∈ as.filterMap hubAction ↔ .conn k .fail ∈ as := by
    intro k
    rw [List.mem_filterMap]
    constructor
    · rintro ⟨a,ha,he⟩
      rcases a with a | ⟨j,i⟩ | ⟨j,clock⟩
      · cases a <;> simp [hubAction] at he
      · cases he
        exact ha
      · simp [hubAction] at he
    · exact fun ha => ⟨_,ha,rfl⟩
  obtain ⟨hfail,hlt⟩ := run_failures cap _ s.hub hhub
  have ht := run_trace cap _ s.hub hhub
  have howned : KeysOwned s.hub ↔ ∀ k, .conn k .fail ∉ as := by
    rw [keys_owned s.hub (run_known cap _ s.hub hhub) ht]
    constructor
    · intro hno k hk
      have hk' := (hmem k).mpr hk
      have hc := List.getElem?_eq_getElem (hlt k hk')
      exact hno k _ hc ((hfail k _ hc).mpr hk')
    · exact fun hno k c hc hp => hno k ((hmem k).mp ((hfail k c hc).mp hp))
  refine ⟨fun k c ok hc hp => ?_,howned,fun hno => ?_⟩
  · rw [returned_clean cap _ s.hub hhub k c ok hc hp, ← hmem, ← hfail k c hc, hp]
    cases ok <;> simp
  · exact Nat.le_trans (count_le s.hub (howned.mpr hno)) (run_unfinished cap as s h)

/-- A handler joins, counts a vote, and leaves on end of file. -/
def shortVisit : List Server.Action :=
  [.accept .connect,.accept .go,.accept .go,.accept .go,.accept .spawn]++
  List.replicate 4 (.conn 0 (.go 0))++[.conn 0 (.line (some (.vote 1)))]++
  List.replicate 8 (.conn 0 (.go 1000))++List.replicate 4 (.throttle 0 1000)++
  [.conn 0 (.go 1000),.conn 0 .eof]++List.replicate 7 (.conn 0 (.go 2000))++
  List.replicate 4 (.throttle 1 2000)++List.replicate 3 (.conn 0 (.go 2000))

def shortVisitEnd : Server.State := (run (Server.step 16) shortVisit Server.init).get (by decide +kernel)

theorem short_visit_clean :
    (∃ c, shortVisitEnd.hub.tasks[0]? = some c ∧
      Clean 16 (shortVisit.filterMap hubAction) shortVisitEnd.hub 0 c) ∧ KeysOwned shortVisitEnd.hub := by
  have hrun : run (Server.step 16) shortVisit Server.init = some shortVisitEnd :=
    (Option.some_get _).symm
  obtain ⟨hclean,howned,_⟩ := clean_iff_welcomed 16 shortVisit shortVisitEnd hrun
  have hget : shortVisitEnd.hub.tasks[0]? = some (shortVisitEnd.hub.tasks.get ⟨0,by decide +kernel⟩) :=
    List.getElem?_eq_getElem _
  exact ⟨⟨_,hget,(hclean 0 _ true hget (by decide +kernel)).mpr (by simp [shortVisit])⟩,
    howned.mpr (by simp [shortVisit])⟩

end RustChat.Cleanup
