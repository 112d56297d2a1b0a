import Mathlib.Data.List.AList
import Mathlib.Tactic.Common

/-!
# The clients of the room

`room.clients` under its lock: what `join`, `leave` and `set_nick` do in the
section they hold it for. The order of a hash map's entries is never read, so
an association list with distinct keys stands for it.
-/

set_option autoImplicit false

namespace RustChat.Room

structure ClientMeta where
  id : ℕ
  name : Option String
  deriving DecidableEq, Repr

abbrev Clients := AList fun _ : ℕ => ClientMeta

/-- In `join`. -/
def insertClient (clients : Clients) (id : ℕ) : Clients := clients.insert id (⟨id,none⟩ : ClientMeta)

/-- `clients.len()`. -/
def clientCount (clients : Clients) : ℕ := clients.keys.length

/-- In `leave`. -/
def removeClient (clients : Clients) (id : ℕ) : Clients := clients.erase id

def setNick (clients : Clients) (id : ℕ) (name : String) : Clients :=
  match clients.lookup id with
  | some entry => clients.replace id { entry with name := some name }
  | none => clients

theorem mem_insertClient (clients : Clients) (id key : ℕ) :
    key ∈ insertClient clients id ↔ key = id ∨ key ∈ clients := AList.mem_insert _

theorem mem_removeClient (clients : Clients) (id key : ℕ) :
    key ∈ removeClient clients id ↔ key ≠ id ∧ key ∈ clients := AList.mem_erase

theorem keys_setNick (clients : Clients) (id : ℕ) (name : String) :
    (setNick clients id name).keys = clients.keys := by
  unfold setNick
  cases clients.lookup id with
  | none => rfl
  | some entry => exact AList.keys_replace _ _ _

theorem mem_setNick (clients : Clients) (id key : ℕ) (name : String) :
    key ∈ setNick clients id name ↔ key ∈ clients := by
  rw [AList.mem_keys, AList.mem_keys, keys_setNick]

theorem lookup_insertClient (clients : Clients) (id key : ℕ) :
    (insertClient clients id).lookup key = if key = id then some ⟨id,none⟩ else clients.lookup key := by
  split_ifs with h
  · subst h
    exact AList.lookup_insert clients
  · exact AList.lookup_insert_ne h

theorem lookup_removeClient (clients : Clients) (id key : ℕ) :
    (removeClient clients id).lookup key = if key = id then none else clients.lookup key := by
  split_ifs with h
  · subst h
    exact AList.lookup_erase key clients
  · exact AList.lookup_erase_ne h

theorem dlookup_kreplace (entry : ClientMeta) (id key : ℕ) (l : List (Sigma fun _ : ℕ => ClientMeta)) :
    (l.kreplace id entry).dlookup key =
      if key = id then (l.dlookup key).map fun _ => entry else l.dlookup key := by
  induction l with
  | nil => simp [List.kreplace]
  | cons x l ih =>
    obtain ⟨k,old⟩ := x
    by_cases hk : id = k
    · subst hk
      rw [show (⟨id,old⟩::l : List (Sigma fun _ : ℕ => ClientMeta)).kreplace id entry = ⟨id,entry⟩::l by
        simp [List.kreplace]]
      by_cases hkey : key = id
      · subst hkey
        simp
      · have hcons : ∀ e : ClientMeta,
            (⟨id,e⟩::l : List (Sigma fun _ : ℕ => ClientMeta)).dlookup key = l.dlookup key :=
          fun e => List.dlookup_cons_ne l _ hkey
        rw [if_neg hkey, hcons, hcons]
    · rw [show (⟨k,old⟩::l : List (Sigma fun _ : ℕ => ClientMeta)).kreplace id entry =
        ⟨k,old⟩::l.kreplace id entry by simp [List.kreplace, hk]]
      by_cases hkey : key = k
      · subst hkey
        simp [Ne.symm hk]
      · have hcons : ∀ m : List (Sigma fun _ : ℕ => ClientMeta),
            (⟨k,old⟩::m).dlookup key = m.dlookup key := fun m => List.dlookup_cons_ne m _ hkey
        rw [hcons, hcons, ih]

/-- Only an entry that is there is renamed, and no other is touched. -/
theorem lookup_setNick (clients : Clients) (id key : ℕ) (name : String) :
    (setNick clients id name).lookup key =
      if key = id then (clients.lookup key).map fun entry => { entry with name := some name }
      else clients.lookup key := by
  unfold setNick
  cases hid : clients.lookup id with
  | none =>
    split_ifs with hkey
    · rw [hkey, hid]
      rfl
    · rfl
  | some entry =>
    refine (dlookup_kreplace _ id key clients.entries).trans ?_
    split_ifs with hkey
    · subst hkey
      rw [show clients.entries.dlookup key = some entry from hid, hid]
      rfl
    · rfl

theorem clientCount_insertClient (clients : Clients) (id : ℕ) (h : id ∉ clients) :
    clientCount (insertClient clients id) = clientCount clients+1 := by
  rw [clientCount, insertClient, AList.keys_insert, List.length_cons,
    List.erase_of_not_mem fun hk => h (AList.mem_keys.mpr hk), clientCount]

theorem clientCount_removeClient (clients : Clients) (id : ℕ) (h : id ∈ clients) :
    clientCount (removeClient clients id)+1 = clientCount clients := by
  have hk : id ∈ clients.keys := AList.mem_keys.mp h
  rw [clientCount, removeClient, AList.keys_erase, List.length_erase_of_mem hk, clientCount]
  exact Nat.sub_add_cancel (List.length_pos_of_mem hk)

end RustChat.Room
