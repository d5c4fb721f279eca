import Pintos.Support.Machine

/-!
# Support — Depth

A recursive function of a program is a family of machines, one for each bound on the depth of its
recursion; past the bound the machine panics.  A run that returns within one bound returns the same
within every larger one (`Below`, `Below.unique`), so that what the function returns does not
depend on the bound, and a function that does not return within any bound never returns.

The loops of such a function are folds: `Ends.foldlM`, `Returns.foldlM` and `Keeps.foldlM` carry an
invariant of the state through one, and `Ends.foldlM_never` says that a fold over an element whose
step never returns does not return.
-/

namespace Support
open List
namespace Machine

variable {ε σ α β γ : Type} {f : β → α → Machine ε σ β} {P : σ → Prop} {m : Nat → Machine ε σ α}
  {l : List α}

/-! ### Invariants of every run, whether it returns or not -/

/-- A run from a state of `P` leaves a state of `P`, also where it panics. -/
def Keeps (P : σ → Prop) (m : Machine ε σ α) : Prop := ∀ ⦃s⦄, P s → P (m s).2.state

section Keeps

variable {P : σ → Prop} {m : Machine ε σ α}

theorem Keeps.pure (a : α) : Keeps P (Pure.pure a : Machine ε σ α) := fun _ h => h

theorem Keeps.panic : Keeps P (Machine.panic : Machine ε σ α) := fun _ h => h

theorem Keeps.emit (e : ε) : Keeps P (Machine.emit e : Machine ε σ Unit) := fun _ h => h

theorem Keeps.modify {f : σ → σ} (h : ∀ s, P s → P (f s)) :
    Keeps P (Machine.modify f : Machine ε σ Unit) := fun s hs => h s hs

theorem Keeps.get_bind {k : σ → Machine ε σ β} (hk : ∀ s, Keeps P (k s)) :
    Keeps P (Machine.get >>= k) := fun s hs => hk s hs

theorem Keeps.bind {k : α → Machine ε σ β} (h : Keeps P m) (hk : ∀ a, Keeps P (k a)) :
    Keeps P (m >>= k) := by
  intro s hs
  have hm := h hs
  obtain ⟨es, o, hr⟩ : ∃ es o, m s = (es, o) := ⟨_, _, rfl⟩
  rw [hr] at hm
  cases o with
  | panic s' =>
    rw [bind_run_panic hr]
    exact hm
  | done a s' =>
    rw [bind_run_done hr]
    exact hk a hm

theorem Keeps.foldlM {f : β → α → Machine ε σ β} {l : List α} (h : ∀ b a, Keeps P (f b a)) :
    ∀ b, Keeps P (l.foldlM f b) := by
  induction l with
  | nil => exact fun b => Keeps.pure b
  | cons a l ih =>
    intro b
    rw [foldlM_cons]
    exact Keeps.bind (h b a) ih

theorem Keeps.ends (h : Keeps P m) {s : σ} (hs : P s) : m.Ends s fun _ => P := by
  intro es a s' hr
  have hP := h hs
  rwa [hr] at hP

end Keeps

/-! ### Folds -/

theorem Ends.foldlM (h : ∀ b, ∀ a ∈ l, ∀ s, P s → (f b a).Ends s fun _ => P) :
    ∀ {b s}, P s → (l.foldlM f b).Ends s fun _ => P := by
  induction l with
  | nil => exact fun hs => Ends.pure hs
  | cons a l ih =>
    intro b s hs
    rw [foldlM_cons]
    refine Ends.bind (h b a List.mem_cons_self s hs) fun b' s' hs' => ?_
    exact ih (fun b a ha => h b a (List.mem_cons_of_mem _ ha)) hs'

/-- A fold with a step that never returns does not return. -/
theorem Ends.foldlM_never {a : α} (h : ∀ b a s, P s → (f b a).Ends s fun _ => P) (ha : a ∈ l)
    (hnever : ∀ b s, P s → (f b a).Ends s fun _ _ => False) :
    ∀ {b s}, P s → (l.foldlM f b).Ends s fun _ _ => False := by
  obtain ⟨l₁, l₂, rfl⟩ := append_of_mem ha
  intro b s hs
  have := Machine.lawful (ε := ε) (σ := σ)
  rw [foldlM_append]
  refine Ends.bind (Ends.foldlM (fun b a _ => h b a) hs) fun b' s' hs' => ?_
  rw [foldlM_cons]
  exact Ends.bind (hnever b' s' hs') fun _ _ hf => hf.elim

theorem Returns.foldlM (h : ∀ b, ∀ a ∈ l, ∀ s, P s → (f b a).Returns s fun _ => P) :
    ∀ {b s}, P s → (l.foldlM f b).Returns s fun _ => P := by
  induction l with
  | nil => exact fun hs => Returns.pure hs
  | cons a l ih =>
    intro b s hs
    rw [foldlM_cons]
    refine Returns.bind (h b a List.mem_cons_self s hs) fun b' s' hs' => ?_
    exact ih (fun b a ha => h b a (List.mem_cons_of_mem _ ha)) hs'

/-! ### Growing the bound -/

/-- Where `m` returns, `m'` does the same. -/
def Below (m m' : Machine ε σ α) : Prop :=
  ∀ ⦃s es a s'⦄, m s = (es, .done a s') → m' s = (es, .done a s')

theorem Below.refl (m : Machine ε σ α) : Below m m := fun _ _ _ _ h => h

theorem Below.panic (m : Machine ε σ α) : Below Machine.panic m := by
  intro s es a s' h
  cases h

theorem Below.trans {m₁ m₂ m₃ : Machine ε σ α} (h : Below m₁ m₂) (h' : Below m₂ m₃) :
    Below m₁ m₃ := fun _ _ _ _ hr => h' (h hr)

theorem Below.bind {m m' : Machine ε σ α} {k k' : α → Machine ε σ β} (h : Below m m')
    (hk : ∀ a, Below (k a) (k' a)) : Below (m >>= k) (m' >>= k') := by
  intro s es b s'' hr
  obtain ⟨es₁, a, s', es₂, h₁, h₂, rfl⟩ := bind_done hr
  rw [bind_run_done (h h₁), hk a h₂]

theorem Below.foldlM {f f' : β → α → Machine ε σ β} (h : ∀ b a, Below (f b a) (f' b a))
    (l : List α) : ∀ b, Below (l.foldlM f b) (l.foldlM f' b) := by
  induction l with
  | nil => exact fun b => .refl _
  | cons a l ih =>
    intro b
    rw [foldlM_cons, foldlM_cons]
    exact .bind (h b a) ih

theorem Below.of_le (h : ∀ d, Below (m d) (m (d + 1))) {d d' : Nat} (hd : d ≤ d') :
    Below (m d) (m d') := by
  induction hd with
  | refl => exact .refl _
  | step _ ih => exact ih.trans (h _)

/-- Two bounds within which a run returns give the same run. -/
theorem Below.unique (h : ∀ d, Below (m d) (m (d + 1))) {d d' : Nat} {s : σ} {Q Q' : α → σ → Prop}
    (hd : (m d).Returns s Q) (hd' : (m d').Returns s Q') :
    (m d).Returns s fun a s' => Q a s' ∧ Q' a s' := by
  obtain ⟨es, a, s₁, hr, hQ⟩ := hd
  obtain ⟨es', a', s₁', hr', hQ'⟩ := hd'
  have h₁ := Below.of_le h (Nat.le_max_left d d') hr
  have h₂ := Below.of_le h (Nat.le_max_right d d') hr'
  cases h₁.symm.trans h₂
  exact ⟨es, a, s₁, hr, hQ, hQ'⟩

end Machine
end Support
