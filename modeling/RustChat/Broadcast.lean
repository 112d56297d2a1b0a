import Mathlib.Data.List.Perm.Subperm
import Mathlib.Data.List.Sort
import Mathlib.Data.List.Range

/-!
# A broadcast channel with bounded retention

The channel is the log of everything sent on it. A receiver is a cursor that
starts at the end of the log; one that is more than `cap` events behind is
moved up to the oldest retained event and told how many it lost. The library
says which positions a receiver can have been given, whatever the events are.
-/

set_option autoImplicit false

namespace RustChat.Broadcast

variable {ε : Type*}

/-- `next` is the position of the next unread event. The other two are history
that no operation reads: where the receiver began and how many it lost. -/
structure Receiver where
  start : ℕ
  next : ℕ
  skipped : ℕ
  deriving DecidableEq, Repr

inductive Recv (ε : Type*) where
  | event (pos : ℕ) (e : ε)
  | lagged (n : ℕ)

def subscribe (log : List ε) : Receiver := ⟨log.length,log.length,0⟩

/-- `none` while there is nothing to read. -/
def recv (cap : ℕ) (log : List ε) (r : Receiver) : Option (Recv ε × Receiver) :=
  if r.next+cap < log.length then
    some (.lagged (log.length-cap-r.next),
      ⟨r.start,log.length-cap,r.skipped+(log.length-cap-r.next)⟩)
  else (log[r.next]?).map fun e => (.event r.next e,⟨r.start,r.next+1,r.skipped⟩)

theorem recv_event (cap : ℕ) (log : List ε) (r r' : Receiver) (pos : ℕ) (e : ε)
    (h : recv cap log r = some (.event pos e,r')) :
    log.length ≤ r.next+cap ∧ pos = r.next ∧ log[pos]? = some e ∧
      r' = ⟨r.start,r.next+1,r.skipped⟩ := by
  unfold recv at h
  split_ifs at h with hl
  · simp at h
  · obtain ⟨x,hx,he⟩ := Option.map_eq_some_iff.mp h
    simp only [Prod.mk.injEq, Recv.event.injEq] at he
    obtain ⟨⟨rfl,rfl⟩,rfl⟩ := he
    exact ⟨by omega,rfl,hx,rfl⟩

theorem recv_lagged (cap : ℕ) (log : List ε) (r r' : Receiver) (n : ℕ)
    (h : recv cap log r = some (.lagged n,r')) :
    r.next+cap < log.length ∧ n = log.length-cap-r.next ∧
      r' = ⟨r.start,log.length-cap,r.skipped+n⟩ := by
  unfold recv at h
  split_ifs at h with hl
  · simp only [Option.some.injEq, Prod.mk.injEq, Recv.lagged.injEq] at h
    obtain ⟨rfl,rfl⟩ := h
    exact ⟨hl,rfl,rfl⟩
  · obtain ⟨x,hx,he⟩ := Option.map_eq_some_iff.mp h
    simp at he

/-- An event the receiver has still to read and will not lose. -/
def Retained (cap : ℕ) (log : List ε) (r : Receiver) (pos : ℕ) : Prop :=
  r.next ≤ pos ∧ pos < log.length ∧ log.length ≤ pos+cap

/-! ## What a receiver was given -/

/-- The positions given so far: increasing, between start and cursor, and all
of these positions but the ones lost. -/
structure Delivered (r : Receiver) (got : List ℕ) : Prop where
  sorted : got.Pairwise (· < ·)
  within : ∀ p ∈ got, r.start ≤ p ∧ p < r.next
  total : got.length+r.skipped+r.start = r.next

theorem delivered_subscribe (log : List ε) : Delivered (subscribe log) [] :=
  ⟨List.Pairwise.nil,by simp,by simp [subscribe]⟩

theorem delivered_event (cap : ℕ) (log : List ε) (r r' : Receiver) (got : List ℕ) (pos : ℕ) (e : ε)
    (hd : Delivered r got) (h : recv cap log r = some (.event pos e,r')) :
    Delivered r' (got++[pos]) := by
  obtain ⟨_,rfl,_,rfl⟩ := recv_event cap log r r' pos e h
  have ht := hd.total
  refine ⟨?_,?_,?_⟩
  · rw [List.pairwise_append]
    refine ⟨hd.sorted,List.pairwise_singleton _ _,fun p hp q hq => ?_⟩
    obtain rfl := List.mem_singleton.mp hq
    exact (hd.within p hp).2
  · intro p hp
    rcases List.mem_append.mp hp with hp | hp
    · have hw := hd.within p hp
      exact ⟨hw.1,Nat.lt_succ_of_lt hw.2⟩
    · obtain rfl := List.mem_singleton.mp hp
      exact ⟨by show r.start ≤ r.next; omega,Nat.lt_succ_self _⟩
  · rw [List.length_append, List.length_singleton]
    show got.length+1+r.skipped+r.start = r.next+1
    omega

theorem delivered_lagged (cap : ℕ) (log : List ε) (r r' : Receiver) (got : List ℕ) (n : ℕ)
    (hd : Delivered r got) (h : recv cap log r = some (.lagged n,r')) : Delivered r' got := by
  obtain ⟨hl,rfl,rfl⟩ := recv_lagged cap log r r' n h
  have ht := hd.total
  refine ⟨hd.sorted,fun p hp => ?_,?_⟩
  · have hw := hd.within p hp
    exact ⟨hw.1,by show p < log.length-cap; omega⟩
  · show got.length+(r.skipped+(log.length-cap-r.next))+r.start = log.length-cap
    omega

theorem delivered_range (r : Receiver) (got : List ℕ) (hd : Delivered r got) :
    got.Sublist (List.range' r.start (r.next-r.start)) := by
  have hsub : got ⊆ List.range' r.start (r.next-r.start) := by
    intro p hp
    have hw := hd.within p hp
    exact List.mem_range'_1.mpr ⟨hw.1,by omega⟩
  have hnodup : got.Nodup := hd.sorted.imp fun h => Nat.ne_of_lt h
  exact List.sublist_of_subperm_of_pairwise (List.subperm_of_subset hnodup hsub) hd.sorted List.pairwise_lt_range'

/-- A receiver that lost nothing was given every position up to its cursor. -/
theorem delivered_whole (r : Receiver) (got : List ℕ) (hd : Delivered r got) (h0 : r.skipped = 0) :
    got = List.range' r.start (r.next-r.start) := by
  apply (delivered_range r got hd).eq_of_length
  have ht := hd.total
  rw [List.length_range']
  omega

/-- What two receivers were both given, they were given in the same order. -/
theorem sorted_common (xs ys : List ℕ) (hx : xs.Pairwise (· < ·)) (hy : ys.Pairwise (· < ·)) :
    xs.filter (· ∈ ys) = ys.filter (· ∈ xs) := by
  have hperm : (xs.filter (· ∈ ys)).Perm (ys.filter (· ∈ xs)) := by
    refine (List.perm_ext_iff_of_nodup ?_ ?_).mpr fun p => ?_
    · exact (hx.imp fun h => Nat.ne_of_lt h).filter _
    · exact (hy.imp fun h => Nat.ne_of_lt h).filter _
    · simp [and_comm]
  exact hperm.eq_of_pairwise' (hx.filter _) (hy.filter _)

theorem range'_getElem? (log : List ε) (a n : ℕ) :
    (List.range' a n).filterMap (log[·]?) = (log.drop a).take n := by
  induction n generalizing a with
  | zero => rfl
  | succ n ih =>
    rw [List.range'_succ, List.filterMap_cons, ih]
    rcases Nat.lt_or_ge a log.length with ha | ha
    · rw [List.getElem?_eq_getElem ha, List.drop_eq_getElem_cons ha, List.take_succ_cons]
    · rw [List.getElem?_eq_none ha, List.drop_of_length_le ha,
        List.drop_of_length_le (Nat.le_succ_of_le ha)]
      simp

/-! ## The newest events -/

/-- What was given since the last loss begins no later than the oldest event
that is still retained. -/
def Stretch (cap n : ℕ) (r : Receiver) (got : List ℕ) : Prop :=
  ∃ a, a ≤ max r.start (n-cap) ∧ a ≤ r.next ∧ List.range' a (r.next-a) <:+ got

theorem stretch_subscribe (cap n : ℕ) (log : List ε) (got : List ℕ) : Stretch cap n (subscribe log) got :=
  ⟨log.length,le_max_left _ _,Nat.le_refl _,by simp [subscribe]⟩

theorem stretch_longer (cap n m : ℕ) (r : Receiver) (got : List ℕ) (h : n ≤ m) (hs : Stretch cap n r got) :
    Stretch cap m r got := by
  obtain ⟨a,ha,hn,hgot⟩ := hs
  exact ⟨a,by omega,hn,hgot⟩

theorem stretch_event (cap : ℕ) (log : List ε) (r r' : Receiver) (got : List ℕ) (pos : ℕ) (e : ε)
    (hs : Stretch cap log.length r got) (h : recv cap log r = some (.event pos e,r')) :
    Stretch cap log.length r' (got++[pos]) := by
  obtain ⟨_,rfl,_,rfl⟩ := recv_event cap log r r' pos e h
  obtain ⟨a,ha,hn,before,rfl⟩ := hs
  refine ⟨a,ha,Nat.le_succ_of_le hn,before,?_⟩
  have hpos : a+(r.next-a) = r.next := by omega
  rw [List.append_assoc, Nat.succ_sub hn, List.range'_1_concat, hpos]

theorem stretch_lagged (cap : ℕ) (log : List ε) (r r' : Receiver) (got : List ℕ) (n : ℕ)
    (h : recv cap log r = some (.lagged n,r')) : Stretch cap log.length r' got := by
  obtain ⟨_,_,rfl⟩ := recv_lagged cap log r r' n h
  exact ⟨log.length-cap,le_max_right _ _,Nat.le_refl _,by simp⟩

/-- A receiver that has read all there is was given the newest `cap` events,
or all since its start. -/
theorem stretch_newest (cap : ℕ) (log : List ε) (r : Receiver) (got : List ℕ)
    (hs : Stretch cap log.length r got) (h : r.next = log.length) :
    log.drop (max r.start (log.length-cap)) <:+ got.filterMap (log[·]?) := by
  obtain ⟨a,ha,_,before,rfl⟩ := hs
  rw [List.filterMap_append, range'_getElem?, h, List.take_of_length_le (by simp)]
  refine List.IsSuffix.trans ?_ (List.suffix_append _ _)
  obtain ⟨d,hd⟩ := Nat.exists_eq_add_of_le ha
  rw [hd, ← List.drop_drop]
  exact List.drop_suffix _ _

end RustChat.Broadcast
