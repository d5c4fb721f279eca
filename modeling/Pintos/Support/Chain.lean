import Mathlib.Tactic

/-!
# Support — Chain

Doubly linked chains.  `Links α` gives every node a predecessor and a successor, or none; a list of
nodes is `Chained` when each node and the next one point at each other.  `join a b` makes `a` and
`b` neighbours, and is the only change that inserting and removing need: a chain falls into pieces
where links are about to change, each piece is kept (`Chained.join_frame`), and the pieces are
joined again (`Chained.join_append`).
-/

namespace Support
open Function List

/-- The links of every node. -/
@[ext]
structure Links (α : Type) where
  prev : α → Option α
  next : α → Option α

namespace Links

variable {α : Type} {m m' : Links α} {l : List α}

/-- `b` follows `a`, both ways. -/
def Joined (m : Links α) (a b : α) : Prop := m.next a = some b ∧ m.prev b = some a

/-- Each node of `l` is joined to the next one. -/
def Chained (m : Links α) (l : List α) : Prop := l.IsChain m.Joined

/-- A chain falls into pieces between any two of its nodes. -/
theorem chained_append {m : Links α} {l₁ l₂ : List α} {a b : α} :
    m.Chained (l₁ ++ a :: b :: l₂) ↔ m.Chained (l₁ ++ [a]) ∧ m.Joined a b ∧ m.Chained (b :: l₂) :=
  isChain_append_cons_cons

/-- A chain is about the successors of all nodes but the last, and the predecessors of all but the
first. -/
theorem Chained.congr (h : m.Chained l) (hnext : ∀ a ∈ l.dropLast, m'.next a = m.next a)
    (hprev : ∀ a ∈ l.tail, m'.prev a = m.prev a) :
    m'.Chained l := by
  induction l with
  | nil => exact .nil
  | cons x l ih =>
    cases l with
    | nil => exact .singleton x
    | cons y l =>
      obtain ⟨⟨h₁, h₂⟩, h⟩ := List.isChain_cons_cons.mp h
      refine List.isChain_cons_cons.mpr ⟨⟨?_, ?_⟩, ih h (fun a ha => hnext a ?_) fun a ha =>
        hprev a (List.mem_cons_of_mem _ ha)⟩
      · rw [hnext x (by simp), h₁]
      · rw [hprev y (by simp), h₂]
      · rw [dropLast_cons_cons]
        exact List.mem_cons_of_mem _ ha

theorem Chained.of_agree (h : m.Chained l)
    (hm : ∀ a ∈ l, m'.next a = m.next a ∧ m'.prev a = m.prev a) : m'.Chained l :=
  h.congr (fun a ha => (hm a (mem_of_mem_dropLast ha)).1)
    fun a ha => (hm a (mem_of_mem_tail ha)).2

/-- Swapping the two links of every node turns a chain around. -/
theorem Chained.swapped (h : m.Chained l)
    (hm : ∀ a ∈ l, m'.next a = m.prev a ∧ m'.prev a = m.next a) : m'.Chained l.reverse := by
  refine List.isChain_reverse.mpr (IsChain.imp_of_mem_imp (fun a b ha hb hab => ?_) h)
  exact ⟨(hm b hb).1.trans hab.2, (hm a ha).2.trans hab.1⟩

section Update

variable [DecidableEq α]

/-- `a`'s `prev` becomes `p`. -/
def setPrev (m : Links α) (a : α) (p : Option α) : Links α :=
  { m with prev := update m.prev a p }

/-- `a`'s `next` becomes `n`. -/
def setNext (m : Links α) (a : α) (n : Option α) : Links α :=
  { m with next := update m.next a n }

/-- Make `a` and `b` neighbours. -/
def join (m : Links α) (a b : α) : Links α := (m.setNext a (some b)).setPrev b (some a)

variable {m : Links α} {l l₁ l₂ : List α} {a b x : α}

@[simp] theorem setPrev_prev_self (v : Option α) : (m.setPrev a v).prev a = v :=
  update_self ..

@[simp] theorem setPrev_next (v : Option α) : (m.setPrev a v).next = m.next := rfl

@[simp] theorem setNext_next_self (v : Option α) : (m.setNext a v).next a = v :=
  update_self ..

@[simp] theorem setNext_prev (v : Option α) : (m.setNext a v).prev = m.prev := rfl

theorem setPrev_prev {v : Option α} (h : x ≠ a) : (m.setPrev a v).prev x = m.prev x :=
  update_of_ne h ..

theorem setNext_next {v : Option α} (h : x ≠ a) : (m.setNext a v).next x = m.next x :=
  update_of_ne h ..

theorem joined_join : (m.join a b).Joined a b := ⟨setNext_next_self _, setPrev_prev_self _⟩

theorem join_next (h : x ≠ a) : (m.join a b).next x = m.next x := setNext_next h

theorem join_prev (h : x ≠ b) : (m.join a b).prev x = m.prev x := setPrev_prev h

/-- A piece that ends in `a` or begins with `b`, or has neither, is kept. -/
theorem Chained.join_frame (h : m.Chained l) (ha : a ∉ l.dropLast) (hb : b ∉ l.tail) :
    (m.join a b).Chained l :=
  h.congr (fun _ hx => join_next fun e => ha (e ▸ hx)) fun _ hx => join_prev fun e => hb (e ▸ hx)

/-- The pieces before and after are joined. -/
theorem Chained.join_append (h₁ : m.Chained (l₁ ++ [a])) (h₂ : m.Chained (b :: l₂))
    (hnd : (l₁ ++ a :: b :: l₂).Nodup) : (m.join a b).Chained (l₁ ++ a :: b :: l₂) := by
  obtain ⟨-, hn, hd⟩ := List.nodup_append.mp hnd
  obtain ⟨ha, hn⟩ := List.nodup_cons.mp hn
  obtain ⟨hb, -⟩ := List.nodup_cons.mp hn
  rw [List.mem_cons, not_or] at ha
  refine chained_append.mpr ⟨h₁.join_frame ?_ ?_, joined_join, h₂.join_frame ?_ hb⟩
  · rw [dropLast_concat]
    exact fun h => hd a h a (List.mem_cons_self ..) rfl
  · intro h
    rcases List.mem_append.mp (mem_of_mem_tail h) with h | h
    · exact hd b h b (List.mem_cons_of_mem _ (List.mem_cons_self ..)) rfl
    · exact ha.1 (List.mem_singleton.mp h).symm
  · intro h
    rcases List.mem_cons.mp (mem_of_mem_dropLast h) with h | h
    · exact ha.1 h
    · exact ha.2 h

end Update

end Links

end Support
