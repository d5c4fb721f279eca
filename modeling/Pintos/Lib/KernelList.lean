import Pintos.Support.Chain

/-!
# Lib — Kernel lists

`lib/kernel/list.c`: doubly linked lists between two header elements.  The functions work on the
links of all elements (`Links`); an assertion that fails and a null pointer that is followed are
`none`.

`Linked lists m S` says that the links `m` hold the sequences `S`: the list `i` is a chain from
its head through the elements of `S i` to its tail, and no element is in two lists.  Every call that
respects its preconditions takes it from `S` to what the operation on sequences makes of `S`
(`SeqStep.performs`), so it holds along every run (`kernel_lists_refine`).

Inserting and removing are one argument each, about a segment of elements: a splice removes a segment
of a list and inserts it, an insertion inserts a segment of one element.
-/

namespace Pintos
open Support Function List Option
open Links (join_next join_prev setNext setNext_next setNext_prev setPrev setPrev_next)

/-- `struct list`: the addresses of its two headers. -/
structure KernelList (α : Type) where
  head : α
  tail : α

section Functions

variable {α : Type} [DecidableEq α]

/-! ### The functions -/

/-- `is_head`. -/
def is_head (m : Links α) (elem : α) : Bool := (m.prev elem).isNone && (m.next elem).isSome

/-- `is_interior`. -/
def is_interior (m : Links α) (elem : α) : Bool := (m.prev elem).isSome && (m.next elem).isSome

/-- `is_tail`. -/
def is_tail (m : Links α) (elem : α) : Bool := (m.prev elem).isSome && (m.next elem).isNone

/-- `list_init`. -/
def list_init (l : KernelList α) (m : Links α) : Links α :=
  (((m.setPrev l.head none).setNext l.head (some l.tail)).setPrev l.tail (some l.head)).setNext
    l.tail none

/-- `list_begin`. -/
def list_begin (l : KernelList α) (m : Links α) : Option α := m.next l.head

/-- `list_rbegin`. -/
def list_rbegin (l : KernelList α) (m : Links α) : Option α := m.prev l.tail

/-- `list_next`. -/
def list_next (elem : α) (m : Links α) : Option α :=
  if is_head m elem || is_interior m elem then m.next elem else none

/-- `list_prev`. -/
def list_prev (elem : α) (m : Links α) : Option α :=
  if is_interior m elem || is_tail m elem then m.prev elem else none

/-- `list_empty`. -/
def list_empty (l : KernelList α) (m : Links α) : Bool := list_begin l m == some l.tail

/-- `list_front`. -/
def list_front (l : KernelList α) (m : Links α) : Option α :=
  if list_empty l m then none else m.next l.head

/-- `list_back`. -/
def list_back (l : KernelList α) (m : Links α) : Option α :=
  if list_empty l m then none else m.prev l.tail

/-- `list_insert`. -/
def list_insert (before elem : α) (m : Links α) : Option (Links α) :=
  if is_interior m before || is_tail m before then do
    let m := m.setPrev elem (m.prev before)
    let m := m.setNext elem (some before)
    let p ← m.prev before
    let m := m.setNext p (some elem)
    some (m.setPrev before (some elem))
  else none

/-- `list_splice`. -/
def list_splice (before first last : α) (m : Links α) : Option (Links α) :=
  if is_interior m before || is_tail m before then
    if first = last then some m
    else do
      let last ← list_prev last m
      if is_interior m first && is_interior m last then do
        -- remove `first` to `last` from their list
        let p ← m.prev first
        let m := m.setNext p (m.next last)
        let n ← m.next last
        let m := m.setPrev n (m.prev first)
        -- and put them before `before`
        let m := m.setPrev first (m.prev before)
        let m := m.setNext last (some before)
        let q ← m.prev before
        let m := m.setNext q (some first)
        some (m.setPrev before (some last))
      else none
  else none

/-- `list_push_front`. -/
def list_push_front (l : KernelList α) (elem : α) (m : Links α) : Option (Links α) := do
  let before ← list_begin l m
  list_insert before elem m

/-- `list_push_back`. -/
def list_push_back (l : KernelList α) (elem : α) (m : Links α) : Option (Links α) :=
  list_insert l.tail elem m

/-- `list_remove`: the element that followed, and the links. -/
def list_remove (elem : α) (m : Links α) : Option (α × Links α) :=
  if is_interior m elem then do
    let p ← m.prev elem
    let m := m.setNext p (m.next elem)
    let n ← m.next elem
    let m := m.setPrev n (m.prev elem)
    let r ← m.next elem
    some (r, m)
  else none

/-- `list_pop_front`. -/
def list_pop_front (l : KernelList α) (m : Links α) : Option (α × Links α) := do
  let front ← list_front l m
  let r ← list_remove front m
  some (front, r.2)

/-- `list_pop_back`. -/
def list_pop_back (l : KernelList α) (m : Links α) : Option (α × Links α) := do
  let back ← list_back l m
  let r ← list_remove back m
  some (back, r.2)

/-- `swap (&e->prev, &e->next)`. -/
def swap_links (m : Links α) (e : α) : Links α := (m.setPrev e (m.next e)).setNext e (m.prev e)

/-- The loop of `list_reverse` from `e` on, in at most `fuel` tests of its condition. -/
def reverse_loop (stop : α) : Nat → Option α → Links α → Option (Links α)
  | 0, _, _ => none
  | fuel + 1, e, m =>
    if e = some stop then some m
    else do
      let e ← e
      let m := swap_links m e
      reverse_loop stop fuel (m.prev e) m

/-- `list_reverse`. -/
def list_reverse (fuel : Nat) (l : KernelList α) (m : Links α) : Option (Links α) :=
  if list_empty l m then some m
  else do
    let m ← reverse_loop l.tail fuel (list_begin l m) m
    let m := (m.setNext l.head (m.prev l.tail)).setPrev l.tail (m.next l.head)
    let a ← m.next l.head
    let b ← m.prev l.tail
    some ((m.setPrev a (m.next b)).setNext b (m.prev a))

/-- The elements met by `for (e = list_begin (list); e != list_end (list); e = list_next (e))`. -/
def list_forward (l : KernelList α) (m : Links α) : Nat → Option α → Option (List α)
  | 0, _ => none
  | fuel + 1, e => do
    let e ← e
    if e = l.tail then some []
    else do
      let rest ← list_forward l m fuel (list_next e m)
      some (e :: rest)

/-- The elements met by `for (e = list_rbegin (list); e != list_rend (list); e = list_prev (e))`. -/
def list_backward (l : KernelList α) (m : Links α) : Nat → Option α → Option (List α)
  | 0, _ => none
  | fuel + 1, e => do
    let e ← e
    if e = l.head then some []
    else do
      let rest ← list_backward l m fuel (list_prev e m)
      some (e :: rest)

end Functions

/-! ### Sequences -/

namespace KernelList

variable {α : Type}

/-- The chain of a list that holds `xs`. -/
def full (l : KernelList α) (xs : List α) : List α := l.head :: (xs ++ [l.tail])

/-- The element at the position before `ys`, the rest of the list. -/
def start (l : KernelList α) : List α → α
  | [] => l.tail
  | y :: _ => y

/-- The element at the position after `xs`, the beginning of the list. -/
def stop (l : KernelList α) (xs : List α) : α := (l.head :: xs).getLast (cons_ne_nil _ _)

theorem start_cons_tail (l : KernelList α) (ys : List α) :
    l.start ys :: (ys ++ [l.tail]).tail = ys ++ [l.tail] := by
  cases ys <;> rfl

theorem dropLast_stop (l : KernelList α) (xs : List α) :
    (l.head :: xs).dropLast ++ [l.stop xs] = l.head :: xs :=
  dropLast_append_getLast _

/-- The chain of a list, opened at a position. -/
theorem full_append (l : KernelList α) (xs ys : List α) : l.full (xs ++ ys) =
    (l.head :: xs).dropLast ++ l.stop xs :: l.start ys :: (ys ++ [l.tail]).tail := by
  rw [start_cons_tail, append_cons, dropLast_stop, full, List.append_assoc]
  rfl

theorem stop_mem (l : KernelList α) (xs : List α) : l.stop xs = l.head ∨ l.stop xs ∈ xs :=
  List.mem_cons.mp (getLast_mem _)

theorem start_mem (l : KernelList α) (ys : List α) : l.start ys = l.tail ∨ l.start ys ∈ ys := by
  cases ys with
  | nil => exact .inl rfl
  | cons y ys => exact .inr (List.mem_cons_self ..)

end KernelList

section Linked

variable {ι α : Type}

/-- The headers of different lists are different elements. -/
structure Apart (lists : ι → KernelList α) : Prop where
  head : ∀ {i j}, (lists i).head = (lists j).head → i = j
  tail : ∀ {i j}, (lists i).tail = (lists j).tail → i = j
  headers : ∀ i j, (lists i).head ≠ (lists j).tail

/-- No header of a list. -/
def Interior (lists : ι → KernelList α) (x : α) : Prop :=
  ∀ j, x ≠ (lists j).head ∧ x ≠ (lists j).tail

/-- An element in no list. -/
structure Unused (lists : ι → KernelList α) (S : ι → Option (List α)) (x : α) : Prop where
  absent : ∀ {i xs}, S i = some xs → x ∉ xs
  interior : Interior lists x

/-- The links hold the sequences `S`; a list that has no sequence is not initialised. -/
structure Linked (lists : ι → KernelList α) (m : Links α) (S : ι → Option (List α)) :
    Prop where
  front : ∀ {i xs}, S i = some xs → m.prev (lists i).head = none
  back : ∀ {i xs}, S i = some xs → m.next (lists i).tail = none
  chain : ∀ {i xs}, S i = some xs → m.Chained ((lists i).full xs)
  nodup : ∀ {i xs}, S i = some xs → xs.Nodup
  interior : ∀ {i xs}, S i = some xs → ∀ x ∈ xs, Interior lists x
  disjoint : ∀ {i j xs ys}, S i = some xs → S j = some ys → i ≠ j → List.Disjoint xs ys

variable {lists : ι → KernelList α} {m : Links α} {S : ι → Option (List α)} {i j : ι}
  {xs ys zs us vs : List α} {x : α}

theorem Linked.full_nodup (h : Linked lists m S) (ha : Apart lists) (hS : S i = some xs) :
    ((lists i).full xs).Nodup := by
  refine List.nodup_cons.mpr ⟨fun hm => ?_, List.nodup_append.mpr ⟨h.nodup hS,
    nodup_singleton _, fun x hx y hy e => ?_⟩⟩
  · rcases List.mem_append.mp hm with hm | hm
    · exact (h.interior hS _ hm i).1 rfl
    · exact ha.headers i i (List.mem_singleton.mp hm)
  · exact (h.interior hS x hx i).2 (e.trans (List.mem_singleton.mp hy))

theorem mem_full {l : KernelList α} : x ∈ l.full xs ↔ x = l.head ∨ x ∈ xs ∨ x = l.tail := by
  simp [KernelList.full]

/-- Different lists have no element in common, headers included. -/
theorem Linked.full_disjoint (h : Linked lists m S) (ha : Apart lists) (hS : S i = some xs)
    (hS' : S j = some ys) (hij : i ≠ j) (hx : x ∈ (lists i).full xs) : x ∉ (lists j).full ys := by
  intro hy
  rcases mem_full.mp hx with rfl | hx | rfl
  · rcases mem_full.mp hy with e | hy | e
    · exact hij (ha.head e)
    · exact (h.interior hS' _ hy i).1 rfl
    · exact ha.headers i j e
  · rcases mem_full.mp hy with e | hy | e
    · exact (h.interior hS x hx j).1 e
    · exact h.disjoint hS hS' hij hx hy
    · exact (h.interior hS x hx j).2 e
  · rcases mem_full.mp hy with e | hy | e
    · exact ha.headers j i e.symm
    · exact (h.interior hS' _ hy i).2 rfl
    · exact hij (ha.tail e)

theorem Unused.not_mem_full (h : Unused lists S x) (hS : S i = some xs) :
    x ∉ (lists i).full xs := by
  intro hx
  rcases mem_full.mp hx with e | hx | e
  · exact (h.interior i).1 e
  · exact h.absent hS hx
  · exact (h.interior i).2 e

/-- The neighbours at a position of a list. -/
theorem Linked.position (h : Linked lists m S) (xs ys : List α) (hS : S i = some (xs ++ ys)) :
    m.Joined ((lists i).stop xs) ((lists i).start ys) := by
  have hc := h.chain hS
  rw [KernelList.full_append] at hc
  exact (Links.chained_append.mp hc).2.1

variable [DecidableEq ι]

/-- The sequences after a change of one list. -/
theorem update_some {S : ι → Option (List α)} {zs : List α}
    (h : update S i (some zs) j = some ys) : (j = i ∧ ys = zs) ∨ (j ≠ i ∧ S j = some ys) := by
  by_cases hij : j = i
  · subst hij
    rw [update_self] at h
    exact .inl ⟨rfl, (Option.some.inj h).symm⟩
  · rw [update_of_ne hij] at h
    exact .inr ⟨hij, h⟩

/-- What has to be shown of a change to list `i`: the chain of that list, and that the links that
change are its own or those of unused elements. -/
theorem Linked.change {m' : Links α} (h : Linked lists m S)
    (hfront : ∀ j, m.prev (lists j).head = none → m'.prev (lists j).head = none)
    (hback : ∀ j, m.next (lists j).tail = none → m'.next (lists j).tail = none)
    (hothers : ∀ {j ys}, j ≠ i → S j = some ys → m'.Chained ((lists j).full ys))
    (hS : S i = some xs) (hchain : m'.Chained ((lists i).full zs)) (hnodup : zs.Nodup)
    (hin : ∀ x ∈ zs, x ∈ xs ∨ Unused lists S x) :
    Linked lists m' (update S i (some zs)) where
  front {j ys} hj := by
    rcases update_some hj with ⟨rfl, -⟩ | ⟨-, hj⟩
    · exact hfront _ (h.front hS)
    · exact hfront _ (h.front hj)
  back {j ys} hj := by
    rcases update_some hj with ⟨rfl, -⟩ | ⟨-, hj⟩
    · exact hback _ (h.back hS)
    · exact hback _ (h.back hj)
  chain {j ys} hj := by
    rcases update_some hj with ⟨rfl, rfl⟩ | ⟨hne, hj⟩
    · exact hchain
    · exact hothers hne hj
  nodup {j ys} hj := by
    rcases update_some hj with ⟨-, rfl⟩ | ⟨-, hj⟩
    · exact hnodup
    · exact h.nodup hj
  interior {j ys} hj x hx := by
    rcases update_some hj with ⟨-, rfl⟩ | ⟨-, hj⟩
    · exact (hin x hx).elim (h.interior hS x) (·.interior)
    · exact h.interior hj x hx
  disjoint {j j' ys ys'} hj hj' hne := by
    rcases update_some hj with ⟨rfl, rfl⟩ | ⟨-, h₁⟩
    · rcases update_some hj' with ⟨rfl, -⟩ | ⟨-, h₂⟩
      · exact absurd rfl hne
      · intro x hx hx'
        exact (hin x hx).elim (fun hx => h.disjoint hS h₂ hne hx hx') fun hu => hu.absent h₂ hx'
    · rcases update_some hj' with ⟨rfl, rfl⟩ | ⟨-, h₂⟩
      · intro x hx hx'
        exact (hin x hx').elim (fun hx' => h.disjoint h₁ hS hne hx hx') fun hu => hu.absent h₁ hx
      · exact h.disjoint h₁ h₂ hne

/-! ### Inserting and removing a segment -/

variable [DecidableEq α]

/-- Joining two neighbours-to-be keeps the chains that contain neither. -/
theorem chained_join_other {a b : α} {l : List α} (h : m.Chained l) (ha : a ∉ l) (hb : b ∉ l) :
    (m.join a b).Chained l :=
  h.join_frame (fun hm => ha (mem_of_mem_dropLast hm)) fun hm => hb (mem_of_mem_tail hm)

/-- An unused segment `f … z` goes between the neighbours of a position. -/
theorem Linked.insert_segment {f z : α} (h : Linked lists m S) (ha : Apart lists)
    (hS : S i = some (us ++ vs)) (hz : m.Chained zs) (hf : zs.head? = some f)
    (hl : zs.getLast? = some z) (hnd : zs.Nodup) (hfresh : ∀ x ∈ zs, Unused lists S x) :
    Linked lists ((m.join ((lists i).stop us) f).join z ((lists i).start vs))
      (update S i (some (us ++ zs ++ vs))) := by
  obtain ⟨zs', rfl⟩ : ∃ zs', zs = f :: zs' := by
    cases zs with
    | nil => cases hf
    | cons x zs' => exact ⟨zs', by rw [← Option.some.inj hf]⟩
  obtain ⟨zs'', hzs⟩ : ∃ zs'', f :: zs' = zs'' ++ [z] := by
    rw [getLast?_eq_some_iff] at hl
    exact hl
  have hfull := h.full_nodup ha hS
  have hc := h.chain hS
  have hff := hfresh f (List.mem_cons_self ..)
  have hzf := hfresh z (by rw [hzs]; simp)
  have hp : (lists i).stop us ∈ (lists i).full (us ++ vs) := by
    rw [KernelList.full_append]; simp
  have hb : (lists i).start vs ∈ (lists i).full (us ++ vs) := by
    rw [KernelList.full_append]; simp
  rw [KernelList.full_append] at hc
  obtain ⟨hc₁, -, hc₂⟩ := Links.chained_append.mp hc
  -- the whole chain is without repetition
  have hnew : ((lists i).head :: us ++ (f :: zs') ++ (vs ++ [(lists i).tail])).Nodup := by
    have hperm : ((lists i).head :: us ++ (f :: zs') ++ (vs ++ [(lists i).tail])).Perm
        ((f :: zs') ++ (lists i).full (us ++ vs)) := by
      refine List.perm_iff_count.mpr fun x => ?_
      simp only [KernelList.full, count_append, count_cons]
      omega
    rw [hperm.nodup_iff]
    exact List.nodup_append.mpr ⟨hnd, hfull, fun x hx y hy e =>
      (hfresh x hx).not_mem_full hS (e ▸ hy)⟩
  refine h.change (fun j hj => ?_) (fun j hj => ?_) (fun {j ys} hji hj => ?_) hS ?_ ?_ fun x hx => ?_
  · rw [join_prev fun e => ?_, join_prev fun e => (hff.interior j).1 e.symm, hj]
    rcases (lists i).start_mem vs with e' | hm
    · exact ha.headers j i (e.trans e')
    · exact (h.interior hS _ (mem_append_right _ hm) j).1 e.symm
  · rw [join_next fun e => (hzf.interior j).2 e.symm, join_next fun e => ?_, hj]
    rcases (lists i).stop_mem us with e' | hm
    · exact ha.headers i j (e'.symm.trans e.symm)
    · exact (h.interior hS _ (mem_append_left _ hm) j).2 e.symm
  · refine chained_join_other (chained_join_other (h.chain hj) ?_ (hff.not_mem_full hj))
      (hzf.not_mem_full hj) ?_
    · exact h.full_disjoint ha hS hj hji.symm hp
    · exact h.full_disjoint ha hS hj hji.symm hb
  · -- first the segment after what precedes the position, then the rest
    have h₁ : (m.join ((lists i).stop us) f).Chained
        (((lists i).head :: us).dropLast ++ (lists i).stop us :: f :: zs') := by
      refine hc₁.join_append hz (hnew.sublist ?_)
      rw [append_cons, KernelList.dropLast_stop]
      exact sublist_append_left ..
    have h₂ : (m.join ((lists i).stop us) f).Chained
        ((lists i).start vs :: (vs ++ [(lists i).tail]).tail) := by
      refine hc₂.join_frame (fun hm => ?_) fun hm => ?_
      · have hm' := mem_of_mem_dropLast hm
        rw [KernelList.full_append] at hfull
        exact (List.nodup_cons.mp (List.nodup_append.mp hfull).2.1).1 hm'
      · refine hff.not_mem_full hS ?_
        rw [KernelList.full_append]
        exact mem_append_right _ (List.mem_cons_of_mem _ (List.mem_cons_of_mem _ hm))
    rw [append_cons, KernelList.dropLast_stop, hzs, ← List.append_assoc] at h₁
    have h₃ := h₁.join_append h₂ (by
      rw [KernelList.start_cons_tail, append_cons, List.append_assoc ((lists i).head :: us),
        ← hzs]
      exact hnew)
    rw [KernelList.start_cons_tail, append_cons, List.append_assoc ((lists i).head :: us),
      ← hzs] at h₃
    rw [KernelList.full, List.append_assoc, ← List.cons_append]
    exact h₃
  · have hin : (us ++ (f :: zs') ++ (vs ++ [(lists i).tail])).Nodup := (List.nodup_cons.mp hnew).2
    rw [← List.append_assoc] at hin
    exact (List.nodup_append.mp hin).1
  · rcases List.mem_append.mp hx with hx | hx
    · rcases List.mem_append.mp hx with hx | hx
      · exact .inl (mem_append_left _ hx)
      · exact .inr (hfresh x hx)
    · exact .inl (mem_append_right _ hx)

omit [DecidableEq α] in
theorem KernelList.stop_concat (l : KernelList α) (xs : List α) (x : α) :
    l.stop (xs ++ [x]) = x := by
  simp [KernelList.stop]

/-- The neighbours of a segment become neighbours of each other; the segment stays a chain, of
unused elements. -/
theorem Linked.remove_segment (h : Linked lists m S) (ha : Apart lists)
    (hS : S i = some (xs ++ zs ++ ys)) :
    Linked lists (m.join ((lists i).stop xs) ((lists i).start ys)) (update S i (some (xs ++ ys))) ∧
    (m.join ((lists i).stop xs) ((lists i).start ys)).Chained zs ∧
    ∀ x ∈ zs, Unused lists (update S i (some (xs ++ ys))) x := by
  have hfull := h.full_nodup ha hS
  have hc := h.chain hS
  have hsplit : (lists i).full (xs ++ zs ++ ys) =
      ((lists i).head :: xs) ++ (zs ++ (ys ++ [(lists i).tail])) := by simp [KernelList.full]
  have hp : (lists i).stop xs ∈ (lists i).head :: xs := getLast_mem _
  have hn : (lists i).start ys ∈ ys ++ [(lists i).tail] := by
    rw [← KernelList.start_cons_tail]; exact List.mem_cons_self ..
  rw [hsplit] at hfull hc
  obtain ⟨hnd₁, hnd₂, hd₁⟩ := List.nodup_append.mp hfull
  obtain ⟨hndz, hnd₃, hd₂⟩ := List.nodup_append.mp hnd₂
  have hc₁ : m.Chained ((lists i).head :: xs) := IsChain.left_of_append hc
  have hc₂ : m.Chained (zs ++ (ys ++ [(lists i).tail])) := IsChain.right_of_append hc
  have hcz : m.Chained zs := IsChain.left_of_append hc₂
  have hc₃ : m.Chained (ys ++ [(lists i).tail]) := IsChain.right_of_append hc₂
  have hpfull : (lists i).stop xs ∈ (lists i).full (xs ++ zs ++ ys) := by
    rw [hsplit]; exact mem_append_left _ hp
  have hnfull : (lists i).start ys ∈ (lists i).full (xs ++ zs ++ ys) := by
    rw [hsplit]; exact mem_append_right _ (mem_append_right _ hn)
  refine ⟨h.change (fun j hj => ?_) (fun j hj => ?_) (fun {j ys'} hji hj => ?_) hS ?_ ?_
    fun x hx => ?_, ?_, fun x hx => ⟨fun {j ys'} hj hm => ?_, ?_⟩⟩
  · rw [join_prev fun e => ?_, hj]
    rcases (lists i).start_mem ys with e' | hm
    · exact ha.headers j i (e.trans e')
    · exact (h.interior hS _ (mem_append_right _ hm) j).1 e.symm
  · rw [join_next fun e => ?_, hj]
    rcases (lists i).stop_mem xs with e' | hm
    · exact ha.headers i j (e'.symm.trans e.symm)
    · exact (h.interior hS _ (mem_append_left _ (mem_append_left _ hm)) j).2 e.symm
  · exact chained_join_other (h.chain hj) (h.full_disjoint ha hS hj hji.symm hpfull)
      (h.full_disjoint ha hS hj hji.symm hnfull)
  · rw [KernelList.full_append]
    refine Links.Chained.join_append ?_ ?_ ?_
    · rw [KernelList.dropLast_stop]
      exact hc₁
    · rw [KernelList.start_cons_tail]
      exact hc₃
    · rw [KernelList.start_cons_tail, append_cons, KernelList.dropLast_stop]
      exact hfull.sublist ((sublist_append_right ..).append_left _)
  · exact (h.nodup hS).sublist ((sublist_append_left ..).append_right _)
  · refine .inl ?_
    rcases List.mem_append.mp hx with hx | hx
    · exact mem_append_left _ (mem_append_left _ hx)
    · exact mem_append_right _ hx
  · exact chained_join_other hcz
      (fun hm => hd₁ _ hp _ (mem_append_left _ hm) rfl) fun hm => hd₂ _ hm _ hn rfl
  · rcases update_some hj with ⟨rfl, rfl⟩ | ⟨hji, hj⟩
    · rcases List.mem_append.mp hm with hm | hm
      · exact hd₁ x (List.mem_cons_of_mem _ hm) x (mem_append_left _ hx) rfl
      · exact hd₂ x hx x (mem_append_left _ hm) rfl
    · exact h.disjoint hS hj hji.symm (mem_append_left _ (mem_append_right _ hx)) hm
  · exact h.interior hS x (mem_append_left _ (mem_append_right _ hx))

end Linked

/-! ### What the functions do to the links -/

section Runs

variable {α : Type} [DecidableEq α] {m : Links α} {b e f x z n p q last v : α} {ys : List α}

omit [DecidableEq α] in
theorem interior_or_tail (h : m.prev b = some v) :
    (is_interior m b || is_tail m b) = true := by
  cases hn : m.next b <;> simp [is_interior, is_tail, h, hn]

omit [DecidableEq α] in
theorem list_prev_eq (h : m.prev e = some v) : list_prev e m = some v := by
  rw [list_prev, if_pos (interior_or_tail h), h]

omit [DecidableEq α] in
theorem list_next_eq (h : m.next e = some v) : list_next e m = some v := by
  have hc : (is_head m e || is_interior m e) = true := by
    cases hp : m.prev e <;> simp [is_interior, is_head, h, hp]
  rw [list_next, if_pos hc, h]

theorem list_insert_run (hb : m.prev b = some p) (hxb : x ≠ b) (hxp : x ≠ p) :
    list_insert b x m = some ((m.join p x).join x b) := by
  rw [list_insert, if_pos (interior_or_tail hb)]
  have hread : ((m.setPrev x (m.prev b)).setNext x (some b)).prev b = some p := by
    rw [setNext_prev, Links.setPrev_prev hxb.symm, hb]
  simp only [hread, bind_eq_bind, bind_some, some_inj]
  ext1
  · simp only [Links.join, setPrev, setNext, hb]
  · simp only [Links.join, setPrev, setNext]
    exact update_comm hxp ..

theorem list_remove_run (hp : m.prev e = some p) (hn : m.next e = some n) (hep : e ≠ p) :
    list_remove e m = some (n, m.join p n) := by
  have hi : is_interior m e = true := by simp [is_interior, hp, hn]
  have hread : (m.setNext p (some n)).next e = some n := by rw [setNext_next hep, hn]
  rw [list_remove, if_pos hi]
  simp only [hp, hn, hread, bind_eq_bind, bind_some, setPrev_next,
    setNext_prev]
  rfl

/-- The links are read and written in the order of the source: the predecessor of `b` is read when
the segment is out of its list. -/
theorem list_splice_run (hb : (m.prev b).isSome = true) (hne : f ≠ last)
    (hlast : m.prev last = some z) (hf : m.prev f = some p) (hfn : (m.next f).isSome = true)
    (hzp : (m.prev z).isSome = true) (hz : m.next z = some n) (hpz : z ≠ p) (hbf : b ≠ f)
    (hq : (m.join p n).prev b = some q) (hqz : z ≠ q) :
    list_splice b f last m = some (((m.join p n).join q f).join z b) := by
  obtain ⟨v, hv⟩ := Option.isSome_iff_exists.mp hb
  have hi : (is_interior m f && is_interior m z) = true := by
    simp [is_interior, hf, hfn, hzp, hz]
  rw [list_splice, if_pos (interior_or_tail hv), if_neg hne, list_prev_eq hlast]
  simp only [bind_eq_bind, bind_some]
  rw [if_pos hi]
  have h₁ : (m.setNext p (some n)).next z = some n := by rw [setNext_next hpz, hz]
  have h₂ : (m.setNext p (some n)).setPrev n (some p) = m.join p n := rfl
  have h₃ : ((m.join p n).setPrev f (some q)).prev b = some q := by
    rw [Links.setPrev_prev hbf, hq]
  simp only [hf, hz, h₁, bind_some, setNext_prev, h₂, hq, h₃, some_inj]
  ext1
  · rfl
  · simp only [Links.join, setPrev, setNext]
    exact update_comm hqz ..

/-- The links with those of `ys` swapped. -/
def swapped (m : Links α) (ys : List α) : Links α where
  prev a := if a ∈ ys then m.next a else m.prev a
  next a := if a ∈ ys then m.prev a else m.next a

theorem swapped_mem (h : x ∈ ys) :
    (swapped m ys).next x = m.prev x ∧ (swapped m ys).prev x = m.next x :=
  ⟨if_pos h, if_pos h⟩

theorem swapped_not_mem (h : x ∉ ys) :
    (swapped m ys).next x = m.next x ∧ (swapped m ys).prev x = m.prev x :=
  ⟨if_neg h, if_neg h⟩

/-- The loop of `list_reverse` swaps the links of every element, and walks on along the old ones. -/
theorem reverse_loop_run (l : KernelList α) (ys : List α) : ∀ {m : Links α} {fuel : Nat},
    ys.length < fuel → (ys ++ [l.tail]).IsChain (fun a b => m.next a = some b) → ys.Nodup →
    l.tail ∉ ys → reverse_loop l.tail fuel (some (l.start ys)) m = some (swapped m ys) := by
  induction ys with
  | nil =>
    intro m fuel hf _ _ _
    obtain ⟨fuel, rfl⟩ : ∃ n, fuel = n + 1 := ⟨fuel - 1, by simp at hf; omega⟩
    rw [reverse_loop, KernelList.start, if_pos rfl]
    rfl
  | cons y ys ih =>
    intro m fuel hf hc hnd ht
    obtain ⟨fuel, rfl⟩ : ∃ n, fuel = n + 1 := ⟨fuel - 1, by rw [length_cons] at hf; omega⟩
    obtain ⟨hy, hnd⟩ := List.nodup_cons.mp hnd
    rw [List.mem_cons, not_or] at ht
    rw [length_cons] at hf
    rw [List.cons_append, ← KernelList.start_cons_tail, isChain_cons_cons,
      KernelList.start_cons_tail] at hc
    obtain ⟨hnext, hc⟩ := hc
    have hread : (swap_links m y).prev y = some (l.start ys) := by
      rw [swap_links, setNext_prev, Links.setPrev_prev_self, hnext]
    show reverse_loop l.tail (fuel + 1) (some y) m = _
    rw [reverse_loop, if_neg fun e => ht.1 (Option.some.inj e).symm]
    simp only [bind_eq_bind, bind_some, hread]
    rw [ih (by omega) ?_ hnd ht.2]
    · congr 1
      ext1
      · funext a
        simp only [swapped, swap_links, setNext_prev, List.mem_cons]
        by_cases ha : a = y
        · subst ha
          simp [hy, setPrev]
        · simp [ha, setPrev, setNext]
      · funext a
        simp only [swapped, swap_links, setNext_prev, List.mem_cons]
        by_cases ha : a = y
        · subst ha
          simp [hy, setNext]
        · simp [ha, setPrev, setNext]
    · refine IsChain.imp_of_mem_imp (fun a b ha _ hab => ?_) hc
      have hay : a ≠ y := by
        rintro rfl
        rcases List.mem_append.mp ha with ha | ha
        · exact hy ha
        · exact ht.1 (List.mem_singleton.mp ha).symm
      rw [swap_links, setNext_next hay, setPrev_next, hab]

end Runs

end Pintos
