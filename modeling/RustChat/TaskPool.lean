import Mathlib.Algebra.BigOperators.Group.List.Basic
import Mathlib.Tactic.Abel
import RustChat.Runs

/-!
# Tasks over a shared state

A pool is a shared state and a list of tasks, each a value of its own. One
move lets one task read and write the shared state, replace itself and fork
further tasks, so an interleaving is a list of moves. The rules below say what
one move does to the list, to a property some task has and to a sum over all.
-/

set_option autoImplicit false

namespace RustChat.TaskPool

variable {σ τ ι M : Type*}

structure Pool (σ τ : Type*) where
  shared : σ
  tasks : List τ
  deriving DecidableEq, Repr

def move (next : σ → τ → ι → Option (σ × τ × List τ)) (p : Pool σ τ) (k : ℕ) (i : ι) :
    Option (Pool σ τ) :=
  (p.tasks[k]?).bind fun t => (next p.shared t i).map fun r => ⟨r.1,p.tasks.set k r.2.1++r.2.2⟩

theorem move_cases (next : σ → τ → ι → Option (σ × τ × List τ)) (p q : Pool σ τ) (k : ℕ) (i : ι)
    (h : move next p k i = some q) :
    ∃ t s t' fs, p.tasks[k]? = some t ∧ next p.shared t i = some (s,t',fs) ∧
      q = ⟨s,p.tasks.set k t'++fs⟩ := by
  obtain ⟨t,ht,hn⟩ := Option.bind_eq_some_iff.mp h
  obtain ⟨⟨s,t',fs⟩,hs,hq⟩ := Option.map_eq_some_iff.mp hn
  exact ⟨t,s,t',fs,ht,hs,hq.symm⟩

/-! ## One place of the list changes -/

theorem getElem?_set_cases (l : List τ) (k j : ℕ) (t u : τ) (h : (l.set k t)[j]? = some u) :
    (j = k ∧ u = t) ∨ (j ≠ k ∧ l[j]? = some u) := by
  rw [List.getElem?_set] at h
  split_ifs at h with hk hl
  · exact Or.inl ⟨hk.symm,(Option.some.inj h).symm⟩
  · exact Or.inr ⟨fun e => hk e.symm,h⟩

theorem getElem?_grown_cases (l fs : List τ) (k j : ℕ) (t u : τ)
    (h : (l.set k t++fs)[j]? = some u) :
    (j = k ∧ u = t) ∨ (j ≠ k ∧ l[j]? = some u) ∨ (l.length ≤ j ∧ fs[j-l.length]? = some u) := by
  rw [List.getElem?_append] at h
  split_ifs at h with hj
  · rcases getElem?_set_cases l k j t u h with hk | hk
    · exact Or.inl hk
    · exact Or.inr (Or.inl hk)
  · rw [List.length_set] at hj h
    exact Or.inr (Or.inr ⟨by omega,h⟩)

theorem getElem?_set_same (l : List τ) (k : ℕ) (t u : τ) (h : l[k]? = some t) :
    (l.set k u)[k]? = some u := by
  obtain ⟨hk,_⟩ := List.getElem?_eq_some_iff.mp h
  exact List.getElem?_set_self hk

theorem mem_set_self (l : List τ) (k : ℕ) (t t' : τ) (ht : l[k]? = some t) : t' ∈ l.set k t' :=
  List.mem_iff_getElem?.mpr ⟨k,getElem?_set_same l k t t' ht⟩

/-- There is still a task with the property wanted, if the task that moved
keeps it or hands it to one it forked. -/
theorem exists_grown (Q R : τ → Prop) (l fs : List τ) (k : ℕ) (t t' : τ) (ht : l[k]? = some t)
    (hkeep : Q t → R t' ∨ ∃ f ∈ fs, R f) (hQR : ∀ u, Q u → R u) (h : ∃ u ∈ l, Q u) :
    ∃ u ∈ l.set k t'++fs, R u := by
  obtain ⟨u,hu,hQ⟩ := h
  obtain ⟨j,hj⟩ := List.mem_iff_getElem?.mp hu
  by_cases hjk : j = k
  · subst hjk
    obtain rfl : t = u := Option.some.inj (ht.symm.trans hj)
    rcases hkeep hQ with hR | ⟨f,hf,hR⟩
    · exact ⟨t',List.mem_append_left _ (mem_set_self l j t t' ht),hR⟩
    · exact ⟨f,List.mem_append_right _ hf,hR⟩
  · refine ⟨u,List.mem_append_left _ (List.mem_iff_getElem?.mpr ⟨j,?_⟩),hQR u hQ⟩
    rw [List.getElem?_set_ne (Ne.symm hjk)]
    exact hj

theorem map_set_same {β : Type*} (f : τ → β) (l : List τ) (k : ℕ) (t t' : τ) (h : l[k]? = some t)
    (hf : f t' = f t) : (l.set k t').map f = l.map f := by
  obtain ⟨hk,rfl⟩ := List.getElem?_eq_some_iff.mp h
  have hk' : k < (l.map f).length := by simpa using hk
  rw [List.map_set, hf, show f l[k] = (l.map f)[k] by simp, List.set_getElem_self]

/-! ## Sums over the tasks -/

theorem sum_map_set [AddCommMonoid M] (f : τ → M) (l : List τ) (k : ℕ) (t t' : τ)
    (h : l[k]? = some t) :
    ((l.set k t').map f).sum+f t = (l.map f).sum+f t' := by
  induction l generalizing k with
  | nil => simp at h
  | cons a l ih =>
    cases k with
    | zero =>
      obtain rfl : a = t := by simpa using h
      simp only [List.set_cons_zero, List.map_cons, List.sum_cons]
      abel
    | succ k =>
      have hs := ih k (by simpa using h)
      simp only [List.set_cons_succ, List.map_cons, List.sum_cons, add_assoc, hs]

/-- Conservation: a move that only shifts weight between the shared state and
the account of the task that moves keeps the total. -/
theorem move_conserved [AddCancelCommMonoid M] (weight : σ → M) (account : τ → M)
    (next : σ → τ → ι → Option (σ × τ × List τ)) (p q : Pool σ τ) (k : ℕ) (i : ι)
    (hlocal : ∀ t s t' fs, p.tasks[k]? = some t → next p.shared t i = some (s,t',fs) →
      weight s+(account t'+(fs.map account).sum) = weight p.shared+account t)
    (h : move next p k i = some q) :
    weight q.shared+(q.tasks.map account).sum = weight p.shared+(p.tasks.map account).sum := by
  obtain ⟨t,s,t',fs,ht,hn,rfl⟩ := move_cases next p q k i h
  have hl := hlocal t s t' fs ht hn
  have hs := sum_map_set account p.tasks k t t' ht
  apply add_right_cancel (b := account t)
  simp only [List.map_append, List.sum_append]
  calc
    _ = weight s+(fs.map account).sum+(((p.tasks.set k t').map account).sum+account t) := by abel
    _ = (weight s+(account t'+(fs.map account).sum))+(p.tasks.map account).sum := by
      rw [hs]; abel
    _ = _ := by rw [hl]; abel

end RustChat.TaskPool
