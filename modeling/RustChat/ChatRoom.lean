import Mathlib.Data.List.Pairwise
import Mathlib.Logic.Function.Basic
import RustChat.Runs

/-!
# A room, its members and its minutes

What a chat room with a ballot is for, each operation a single step. People
come in, are announced, say things under the name they carry, cast a ballot or
take it back, and leave for good once they hold none. The minutes record who
was announced, what was said and who is gone. Ids, names, texts and options
are of any types.
-/

set_option autoImplicit false

namespace RustChat.ChatRoom
open Runs

variable {ι ν χ ο : Type*}

inductive Stage where
  | outside
  | entered
  | present
  | left
  | gone
  deriving DecidableEq, Repr

structure Member (ν ο : Type*) where
  stage : Stage
  nick : Option ν
  ballot : Option ο

def newcomer : Member ν ο := ⟨.outside,none,none⟩

inductive Note (ι ν χ : Type*) where
  | joined (id : ι)
  | said (id : ι) (nick : Option ν) (text : χ)
  | departed (id : ι)

def Note.author : Note ι ν χ → ι
  | .joined id | .said id _ _ | .departed id => id

structure State (ι ν χ ο : Type*) where
  members : ι → Member ν ο
  minutes : List (Note ι ν χ)

def init : State ι ν χ ο := ⟨fun _ => newcomer,[]⟩

inductive Action (ι ν χ ο : Type*) where
  | enter (id : ι)
  | announce (id : ι)
  | rename (id : ι) (name : ν)
  | say (id : ι) (text : χ)
  | cast (id : ι) (option : ο)
  | retract (id : ι)
  | leave (id : ι)
  | bow (id : ι)

/-- The member an action is of, what it takes for the action to be possible,
what becomes of the member and what is put down. -/
def act (m : Member ν ο) : Action ι ν χ ο → Option (Member ν ο × List (Note ι ν χ))
  | .enter _ => if m.stage = .outside then some ({ m with stage := .entered },[]) else none
  | .announce id =>
    if m.stage = .entered then some ({ m with stage := .present },[.joined id]) else none
  | .rename _ name => if m.stage = .present then some ({ m with nick := some name },[]) else none
  | .say id text => if m.stage = .present then some (m,[.said id m.nick text]) else none
  | .cast _ option =>
    if m.stage = .present then some ({ m with ballot := some option },[]) else none
  | .retract _ => if m.stage = .present then some ({ m with ballot := none },[]) else none
  | .leave _ =>
    if m.stage = .present ∧ m.ballot.isNone then some ({ m with stage := .left },[]) else none
  | .bow id => if m.stage = .left then some ({ m with stage := .gone },[.departed id]) else none

def Action.who : Action ι ν χ ο → ι
  | .enter id | .announce id | .rename id _ | .say id _ | .cast id _ | .retract id | .leave id | .bow id => id

theorem act_author (m m' : Member ν ο) (a : Action ι ν χ ο) (notes : List (Note ι ν χ))
    (h : act m a = some (m',notes)) : ∀ n ∈ notes, n.author = a.who := by
  cases a <;> simp only [act] at h <;> split_ifs at h <;> cases h <;> simp [Note.author, Action.who]

theorem act_ballots (m m' : Member ν ο) (a : Action ι ν χ ο) (notes : List (Note ι ν χ))
    (h : act m a = some (m',notes)) (hb : m.ballot.isSome = true → m.stage = .present) :
    m'.ballot.isSome = true → m'.stage = .present := by
  cases a <;> simp only [act] at h <;> split_ifs at h with hst <;> cases h <;> simp_all

variable [DecidableEq ι]

def set (s : State ι ν χ ο) (id : ι) (m : Member ν ο) (notes : List (Note ι ν χ)) : State ι ν χ ο :=
  ⟨Function.update s.members id m,s.minutes++notes⟩

def step (s : State ι ν χ ο) (a : Action ι ν χ ο) : Option (State ι ν χ ο) :=
  (act (s.members a.who) a).map fun r => set s a.who r.1 r.2

theorem step_act (s : State ι ν χ ο) (a : Action ι ν χ ο) (t : State ι ν χ ο) (h : step s a = some t) :
    ∃ m notes, act (s.members a.who) a = some (m,notes) ∧ t = set s a.who m notes := by
  obtain ⟨⟨m,notes⟩,hact,rfl⟩ := Option.map_eq_some_iff.mp h
  exact ⟨m,notes,hact,rfl⟩

/-! ## The minutes of one member -/

def minutesOf (id : ι) (ms : List (Note ι ν χ)) : List (Note ι ν χ) := ms.filter fun n => n.author = id

theorem minutesOf_append (id : ι) (ms more : List (Note ι ν χ)) :
    minutesOf id (ms++more) = minutesOf id ms++minutesOf id more := List.filter_append ms more

theorem minutesOf_own (id : ι) (ms : List (Note ι ν χ)) (h : ∀ n ∈ ms, n.author = id) :
    minutesOf id ms = ms := List.filter_eq_self.mpr fun n hn => decide_eq_true (h n hn)

theorem minutesOf_other (id : ι) (ms : List (Note ι ν χ)) (h : ∀ n ∈ ms, n.author ≠ id) :
    minutesOf id ms = [] := List.filter_eq_nil_iff.mpr fun n hn => by simpa using h n hn

/-- What is put down about a member, given how far it has come. -/
def Kept (id : ι) (m : Member ν ο) (ms : List (Note ι ν χ)) : Prop :=
  ∃ talk : List (Option ν × χ), minutesOf id ms = match m.stage with
    | .outside | .entered => []
    | .present | .left => .joined id::talk.map fun x => .said id x.1 x.2
    | .gone => .joined id::(talk.map fun x => .said id x.1 x.2)++[.departed id]

theorem act_kept (id : ι) (m m' : Member ν ο) (a : Action ι ν χ ο) (notes ms : List (Note ι ν χ))
    (hid : a.who = id) (h : act m a = some (m',notes)) (hk : Kept id m ms) : Kept id m' (ms++notes) := by
  obtain ⟨talk,hms⟩ := hk
  have hown := minutesOf_own id notes (hid ▸ act_author m m' a notes h)
  unfold Kept
  rw [minutesOf_append, hms, hown]
  cases a with
  | say i text =>
    simp only [act] at h
    split_ifs at h with hst
    cases h
    obtain rfl : i = id := hid
    exact ⟨talk++[(m.nick,text)],by simp [hst]⟩
  | announce i =>
    simp only [act] at h
    split_ifs at h with hst
    cases h
    obtain rfl : i = id := hid
    exact ⟨[],by simp [hst]⟩
  | bow i =>
    simp only [act] at h
    split_ifs at h with hst
    cases h
    obtain rfl : i = id := hid
    exact ⟨talk,by simp [hst]⟩
  | enter i | rename i name | cast i option | retract i | leave i =>
    simp only [act] at h
    split_ifs at h with hst
    cases h
    exact ⟨talk,by simp [hst]⟩

/-! ## Every run -/

/-- The minutes of every member are kept, and nobody holds a ballot who is not
present. -/
structure Sound (s : State ι ν χ ο) : Prop where
  kept : ∀ id, Kept id (s.members id) s.minutes
  ballots : ∀ id, (s.members id).ballot.isSome = true → (s.members id).stage = .present

theorem step_sound (s : State ι ν χ ο) (a : Action ι ν χ ο) (t : State ι ν χ ο) (hs : Sound s)
    (h : step s a = some t) : Sound t := by
  obtain ⟨m,notes,hact,rfl⟩ := step_act s a t h
  refine ⟨fun id => ?_,fun id => ?_⟩
  · by_cases hid : a.who = id
    · subst hid
      simpa [set] using act_kept a.who _ m a notes s.minutes rfl hact (hs.kept a.who)
    · have hother := minutesOf_other id notes fun n hn => by rwa [act_author _ m a notes hact n hn]
      obtain ⟨talk,hms⟩ := hs.kept id
      refine ⟨talk,?_⟩
      simp only [set, Function.update_of_ne (Ne.symm hid), minutesOf_append, hother, List.append_nil, hms]
  · by_cases hid : a.who = id
    · subst hid
      simpa [set] using act_ballots _ m a notes hact (hs.ballots a.who)
    · simpa [set, Function.update_of_ne (Ne.symm hid)] using hs.ballots id

theorem run_sound (as : List (Action ι ν χ ο)) (s : State ι ν χ ο) (h : run step as init = some s) : Sound s :=
  run_invariant Sound step_sound as init s ⟨fun _ => ⟨[],rfl⟩,by simp [init, newcomer]⟩ h

/-- Of two notes of a member the first is not its departure and the second is
not its arrival. -/
theorem sound_order (s : State ι ν χ ο) (hs : Sound s) (id : ι) :
    (minutesOf id s.minutes).Pairwise fun a b => a ≠ .departed id ∧ b ≠ .joined id := by
  obtain ⟨talk,hms⟩ := hs.kept id
  rw [hms]
  have hsaid : ∀ n ∈ talk.map fun x => (.said id x.1 x.2 : Note ι ν χ),
      n ≠ .departed id ∧ n ≠ .joined id := by
    intro n hn
    obtain ⟨x,_,rfl⟩ := List.mem_map.mp hn
    simp
  have htalk := List.pairwise_of_forall_mem_list fun a ha b hb => And.intro (hsaid a ha).1 (hsaid b hb).2
  cases (s.members id).stage with
  | outside | entered => exact List.Pairwise.nil
  | present | left => exact List.pairwise_cons.mpr ⟨fun b hb => ⟨by simp,(hsaid b hb).2⟩,htalk⟩
  | gone =>
    rw [List.cons_append]
    refine List.pairwise_cons.mpr ⟨fun b hb => ⟨by simp,?_⟩,List.pairwise_append.mpr
      ⟨htalk,List.pairwise_singleton _ _,fun a ha b hb => ⟨(hsaid a ha).1,?_⟩⟩⟩
    · rcases List.mem_append.mp hb with hb | hb
      · exact (hsaid b hb).2
      · simp [List.mem_singleton.mp hb]
    · simp [List.mem_singleton.mp hb]

end RustChat.ChatRoom
