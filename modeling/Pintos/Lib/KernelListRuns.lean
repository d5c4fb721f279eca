import Pintos.Lib.KernelList

/-!
# Lib — Kernel lists refine sequences

`SeqStep lists c S r S'` is a call as an operation on sequences: under its precondition it takes the
sequences from `S` to `S'` and returns `r`.  A position of a list is given by what precedes and what
follows it.

`SeqStep.performs`: on links that represent `S`, the call of the source does not fail, returns `r`
and leaves links that represent `S'`.  `kernel_lists_refine` is the same for every run of calls
from any links.
-/

namespace Pintos
open Support Function List Option
open KernelList (full_append stop_concat start_cons_tail dropLast_stop)
open Links (setNext_next setPrev_next setNext_prev setPrev_prev join_prev join_next)

/-- The calls of `list.c` that change lists. -/
inductive ListCall (ι α : Type) where
  | init (i : ι)
  | insert (before elem : α)
  | push_front (i : ι) (elem : α)
  | push_back (i : ι) (elem : α)
  | remove (elem : α)
  | pop_front (i : ι)
  | pop_back (i : ι)
  | splice (before first last : α)
  | reverse (i : ι)

section Calls

variable {ι α : Type} [DecidableEq ι] [DecidableEq α]

/-- Make a call: the element it returns, if any, and the links. -/
def ListCall.perform (lists : ι → KernelList α) (fuel : Nat) (m : Links α) :
    ListCall ι α → Option (Option α × Links α)
  | .init i => some (none, list_init (lists i) m)
  | .insert before elem => (list_insert before elem m).map (none, ·)
  | .push_front i elem => (list_push_front (lists i) elem m).map (none, ·)
  | .push_back i elem => (list_push_back (lists i) elem m).map (none, ·)
  | .remove elem => (list_remove elem m).map fun r => (some r.1, r.2)
  | .pop_front i => (list_pop_front (lists i) m).map fun r => (some r.1, r.2)
  | .pop_back i => (list_pop_back (lists i) m).map fun r => (some r.1, r.2)
  | .splice before first last => (list_splice before first last m).map (none, ·)
  | .reverse i => (list_reverse fuel (lists i) m).map (none, ·)

/-- Calls in turn: what they return, and the links they leave. -/
def performs (lists : ι → KernelList α) (fuel : Nat) :
    List (ListCall ι α) → Links α → Option (List (Option α) × Links α)
  | [], m => some ([], m)
  | c :: cs, m => do
    let r ← c.perform lists fuel m
    let rs ← performs lists fuel cs r.2
    some (r.1 :: rs.1, rs.2)

/-- The operations on sequences, with their preconditions. -/
inductive SeqStep (lists : ι → KernelList α) (S : ι → Option (List α)) :
    ListCall ι α → Option α → (ι → Option (List α)) → Prop
  | init (i : ι) : SeqStep lists S (.init i) none (update S i (some []))
  | insert {i : ι} {xs ys : List α} {x : α} (seq : S i = some (xs ++ ys))
      (unused : Unused lists S x) :
      SeqStep lists S (.insert ((lists i).start ys) x) none
        (update S i (some (xs ++ x :: ys)))
  | push_front {i : ι} {xs : List α} {x : α} (seq : S i = some xs) (unused : Unused lists S x) :
      SeqStep lists S (.push_front i x) none (update S i (some (x :: xs)))
  | push_back {i : ι} {xs : List α} {x : α} (seq : S i = some xs) (unused : Unused lists S x) :
      SeqStep lists S (.push_back i x) none (update S i (some (xs ++ [x])))
  | remove {i : ι} {xs ys : List α} {x : α} (seq : S i = some (xs ++ x :: ys)) :
      SeqStep lists S (.remove x) (some ((lists i).start ys))
        (update S i (some (xs ++ ys)))
  | pop_front {i : ι} {xs : List α} {x : α} (seq : S i = some (x :: xs)) :
      SeqStep lists S (.pop_front i) (some x) (update S i (some xs))
  | pop_back {i : ι} {xs : List α} {x : α} (seq : S i = some (xs ++ [x])) :
      SeqStep lists S (.pop_back i) (some x) (update S i (some xs))
  /-- The elements `zs` of list `i` go to a position that is not among them. -/
  | splice {i j : ι} {xs zs ys us vs : List α} (seq : S i = some (xs ++ zs ++ ys))
      (target : update S i (some (xs ++ ys)) j = some (us ++ vs)) :
      SeqStep lists S
        (.splice ((lists j).start vs) ((lists i).start (zs ++ ys)) ((lists i).start ys)) none
        (update (update S i (some (xs ++ ys))) j (some (us ++ zs ++ vs)))
  | reverse {i : ι} {xs : List α} (seq : S i = some xs) :
      SeqStep lists S (.reverse i) none (update S i (some xs.reverse))

/-- A run of calls that respect their preconditions, from lists not yet initialised. -/
inductive SeqRun (lists : ι → KernelList α) :
    List (ListCall ι α) → List (Option α) → (ι → Option (List α)) → Prop
  | start : SeqRun lists [] [] fun _ => none
  | step {cs : List (ListCall ι α)} {rs : List (Option α)} {S S' : ι → Option (List α)}
      {c : ListCall ι α} {r : Option α} (run : SeqRun lists cs rs S)
      (call : SeqStep lists S c r S') : SeqRun lists (cs ++ [c]) (rs ++ [r]) S'

/-! ### The single calls -/

variable {lists : ι → KernelList α} {m : Links α} {S : ι → Option (List α)} {i j : ι}
  {xs ys zs us vs : List α} {x : α}

theorem linked_init (h : Linked lists m S) (ha : Apart lists) :
    Linked lists (list_init (lists i) m) (update S i (some [])) := by
  have hht := ha.headers i i
  have hnext : (list_init (lists i) m).next (lists i).head = some (lists i).tail := by
    rw [list_init, setNext_next hht, setPrev_next, Links.setNext_next_self]
  have hprev : (list_init (lists i) m).prev (lists i).tail = some (lists i).head := by
    rw [list_init, setNext_prev, Links.setPrev_prev_self]
  have hkeep : ∀ x, x ≠ (lists i).head → x ≠ (lists i).tail →
      (list_init (lists i) m).next x = m.next x ∧ (list_init (lists i) m).prev x = m.prev x :=
    fun x h₁ h₂ => ⟨by rw [list_init, setNext_next h₂, setPrev_next,
      setNext_next h₁, setPrev_next], by rw [list_init, setNext_prev,
      setPrev_prev h₂, setNext_prev, setPrev_prev h₁]⟩
  have hother : ∀ {j}, j ≠ i → ∀ x, x = (lists j).head ∨ x = (lists j).tail ∨ Interior lists x →
      x ≠ (lists i).head ∧ x ≠ (lists i).tail := by
    rintro j hj x (rfl | rfl | hx)
    · exact ⟨fun e => hj (ha.head e), ha.headers j i⟩
    · exact ⟨fun e => ha.headers i j e.symm, fun e => hj (ha.tail e)⟩
    · exact hx i
  refine ⟨fun {j xs} hj => ?_, fun {j xs} hj => ?_, fun {j xs} hj => ?_, fun {j xs} hj => ?_,
    fun {j xs} hj x hx => ?_, fun {j j' xs xs'} hj hj' hne => ?_⟩
  · rcases update_some hj with ⟨rfl, -⟩ | ⟨hji, hj⟩
    · rw [list_init, setNext_prev, setPrev_prev hht, setNext_prev, Links.setPrev_prev_self]
    · obtain ⟨h₁, h₂⟩ := hother hji _ (.inl rfl)
      rw [(hkeep _ h₁ h₂).2, h.front hj]
  · rcases update_some hj with ⟨rfl, -⟩ | ⟨hji, hj⟩
    · rw [list_init, Links.setNext_next_self]
    · obtain ⟨h₁, h₂⟩ := hother hji _ (.inr (.inl rfl))
      rw [(hkeep _ h₁ h₂).1, h.back hj]
  · rcases update_some hj with ⟨rfl, rfl⟩ | ⟨hji, hj⟩
    · exact List.isChain_cons_cons.mpr ⟨⟨hnext, hprev⟩, .singleton _⟩
    · refine (h.chain hj).of_agree fun x hx => ?_
      obtain ⟨h₁, h₂⟩ := hother hji x (by
        rcases mem_full.mp hx with hx | hx | hx
        · exact .inl hx
        · exact .inr (.inr (h.interior hj x hx))
        · exact .inr (.inl hx))
      exact hkeep x h₁ h₂
  · rcases update_some hj with ⟨-, rfl⟩ | ⟨-, hj⟩
    · exact nodup_nil
    · exact h.nodup hj
  · rcases update_some hj with ⟨-, rfl⟩ | ⟨-, hj⟩
    · cases hx
    · exact h.interior hj x hx
  · rcases update_some hj with ⟨-, rfl⟩ | ⟨-, h₁⟩
    · exact disjoint_nil_left _
    · rcases update_some hj' with ⟨-, rfl⟩ | ⟨-, h₂⟩
      · exact disjoint_nil_right _
      · exact h.disjoint h₁ h₂ hne

theorem list_insert_linked (h : Linked lists m S) (ha : Apart lists)
    (hS : S i = some (xs ++ ys)) (hx : Unused lists S x) :
    ∃ m', list_insert ((lists i).start ys) x m = some m' ∧
      Linked lists m' (update S i (some (xs ++ x :: ys))) := by
  have hm : ∀ y, y = (lists i).stop xs ∨ y = (lists i).start ys → x ≠ y := by
    rintro y hy rfl
    refine hx.not_mem_full hS ?_
    rw [full_append]
    rcases hy with rfl | rfl <;> simp
  refine ⟨_, list_insert_run (h.position xs ys hS).2 (hm _ (.inr rfl)) (hm _ (.inl rfl)), ?_⟩
  have hz : m.Chained [x] := .singleton x
  have hi := h.insert_segment ha hS hz rfl rfl (nodup_singleton x) (by simpa using hx)
  rwa [List.append_assoc, singleton_append] at hi

theorem list_remove_linked (h : Linked lists m S) (ha : Apart lists)
    (hS : S i = some (xs ++ x :: ys)) :
    ∃ m', list_remove x m = some ((lists i).start ys, m') ∧
      Linked lists m' (update S i (some (xs ++ ys))) := by
  have hS' : S i = some (xs ++ [x] ++ ys) := by rw [hS]; simp
  have hp : m.prev x = some ((lists i).stop xs) := (h.position xs (x :: ys) hS).2
  have hn : m.next x = some ((lists i).start ys) := by
    have := (h.position (xs ++ [x]) ys hS').1
    rwa [stop_concat] at this
  have hne : x ≠ (lists i).stop xs := fun e => by
    have hnd := h.full_nodup ha hS
    rw [full_append, ← e] at hnd
    have := (List.nodup_cons.mp (List.nodup_append.mp hnd).2.1).1
    simp [KernelList.start] at this
  exact ⟨_, list_remove_run hp hn hne, (h.remove_segment ha hS').1⟩

theorem list_splice_linked (h : Linked lists m S) (ha : Apart lists)
    (hS : S i = some (xs ++ zs ++ ys))
    (hT : update S i (some (xs ++ ys)) j = some (us ++ vs)) :
    ∃ m', list_splice ((lists j).start vs) ((lists i).start (zs ++ ys)) ((lists i).start ys) m =
        some m' ∧
      Linked lists m' (update (update S i (some (xs ++ ys))) j (some (us ++ zs ++ vs))) := by
  rcases zs.eq_nil_or_concat' with rfl | ⟨zs'', z, hzs⟩
  · -- an empty range: nothing happens
    rw [append_nil] at hS
    have hsame : update S i (some (xs ++ ys)) = S := by rw [← hS, update_eq_self]
    rw [hsame] at hT ⊢
    refine ⟨m, ?_, ?_⟩
    · rw [nil_append, list_splice, if_pos (interior_or_tail (h.position us vs hT).2), if_pos rfl]
    · rw [append_nil, ← hT, update_eq_self]
      exact h
  · obtain ⟨f, zs', hzs'⟩ : ∃ f zs', zs = f :: zs' := by
      cases zs with
      | nil => simp at hzs
      | cons f zs' => exact ⟨f, zs', rfl⟩
    obtain ⟨h₁, hz₁, hfresh⟩ := h.remove_segment ha hS
    have hTi : update S i (some (xs ++ ys)) i = some (xs ++ ys) := update_self ..
    have hfm : f ∈ zs := by rw [hzs']; exact List.mem_cons_self ..
    have hzm : z ∈ zs := by rw [hzs]; simp
    have hnd : zs.Nodup := (List.nodup_append.mp (List.nodup_append.mp (h.nodup hS)).1).2.1
    -- the links around the segment
    have hpos : m.Joined ((lists i).stop xs) f := by
      have := h.position xs (zs ++ ys) (by rw [hS, List.append_assoc])
      rwa [hzs'] at this
    have hend : m.Joined z ((lists i).start ys) := by
      have := h.position (xs ++ zs) ys hS
      rwa [hzs, ← List.append_assoc, stop_concat] at this
    have hfn : (m.next f).isSome = true := by
      have := (h.position (xs ++ [f]) (zs' ++ ys) (by rw [hS, hzs']; simp)).1
      rw [stop_concat] at this
      rw [this]
      rfl
    have hzp : (m.prev z).isSome = true := by
      have := (h.position (xs ++ zs'') (z :: ys) (by rw [hS, hzs]; simp)).2
      rw [show (lists i).start (z :: ys) = z from rfl] at this
      rw [this]
      rfl
    have hq := (h₁.position us vs hT).2
    have hout : ∀ x ∈ zs, ∀ y, y = (lists i).stop xs ∨ y = (lists i).start ys → x ≠ y := by
      rintro x hx y hy rfl
      refine (hfresh x hx).not_mem_full hTi ?_
      rw [full_append]
      rcases hy with rfl | rfl <;> simp
    have hout' : ∀ x ∈ zs, ∀ y, y = (lists j).stop us ∨ y = (lists j).start vs → x ≠ y := by
      rintro x hx y hy rfl
      refine (hfresh x hx).not_mem_full hT ?_
      rw [full_append]
      rcases hy with rfl | rfl <;> simp
    have hb : (m.prev ((lists j).start vs)).isSome = true := by
      by_cases e : (lists j).start vs = (lists i).start ys
      · rw [e, hend.2]
        rfl
      · rw [← join_prev e, hq]
        rfl
    have hstart : (lists i).start (zs ++ ys) = f := by rw [hzs']; rfl
    rw [hstart]
    refine ⟨_, list_splice_run hb (hout f hfm _ (.inr rfl)) hend.2 hpos.2 hfn hzp hend.1
      (hout z hzm _ (.inl rfl)) (hout' f hfm _ (.inr rfl)).symm hq (hout' z hzm _ (.inl rfl)), ?_⟩
    exact h₁.insert_segment ha hT hz₁ (by rw [hzs']; rfl) (by rw [hzs]; simp) hnd hfresh

theorem list_reverse_linked (h : Linked lists m S) (ha : Apart lists) (hS : S i = some xs) :
    ∃ m', (∀ fuel, xs.length < fuel → list_reverse fuel (lists i) m = some m') ∧
      Linked lists m' (update S i (some xs.reverse)) := by
  have hbegin : list_begin (lists i) m = some ((lists i).start xs) :=
    (h.position [] xs hS).1
  rcases xs.eq_nil_or_concat' with rfl | ⟨xs'', z, hxs⟩
  · refine ⟨m, fun fuel hf => ?_, ?_⟩
    · rw [list_reverse, list_empty, hbegin, if_pos (by simp [KernelList.start])]
    · rw [reverse_nil, ← hS, update_eq_self]
      exact h
  · obtain ⟨f, xs', hxs'⟩ : ∃ f xs', xs = f :: xs' := by
      cases xs with
      | nil => simp at hxs
      | cons f xs' => exact ⟨f, xs', rfl⟩
    have hfm : f ∈ xs := by rw [hxs']; exact List.mem_cons_self ..
    have hzm : z ∈ xs := by rw [hxs]; simp
    have hhead : (lists i).head ∉ xs := fun hm => (h.interior hS _ hm i).1 rfl
    have htail : (lists i).tail ∉ xs := fun hm => (h.interior hS _ hm i).2 rfl
    have hht := ha.headers i i
    have hpos : m.Joined (lists i).head f := by
      have := h.position [] xs hS
      rwa [hxs'] at this
    have hend : m.Joined z (lists i).tail := by
      have := h.position xs [] (by rw [hS, append_nil])
      rwa [hxs, stop_concat] at this
    have hchain : m.Chained xs := by
      have := IsChain.tail (h.chain hS)
      exact IsChain.left_of_append this
    have hnexts : (xs ++ [(lists i).tail]).IsChain fun a b => m.next a = some b :=
      IsChain.imp (fun _ _ hab => hab.1) (IsChain.tail (h.chain hS))
    have hne : ¬ (list_begin (lists i) m == some (lists i).tail) = true := by
      rw [hbegin, hxs']
      simp only [KernelList.start, beq_iff_eq, some_inj]
      rintro rfl
      exact htail hfm
    have h₁ := (swapped_not_mem (m := m) hhead).1.trans hpos.1
    have h₂ := (swapped_not_mem (m := m) htail).2.trans hend.2
    have h₃ := (swapped_mem (m := m) hfm).1.trans hpos.2
    have h₄ := (swapped_mem (m := m) hzm).2.trans hend.1
    have hfh : f ≠ (lists i).head := fun e => hhead (e ▸ hfm)
    have hzt : z ≠ (lists i).tail := fun e => htail (e ▸ hzm)
    have hrun : ∀ fuel, xs.length < fuel → list_reverse fuel (lists i) m =
        some (((swapped m xs).join (lists i).head z).join f (lists i).tail) := fun fuel hf => by
      rw [list_reverse, list_empty, if_neg hne, hbegin,
        reverse_loop_run (lists i) xs hf hnexts (h.nodup hS) htail]
      simp only [bind_eq_bind, bind_some, h₁, h₂, setPrev_next,
        Links.setNext_next_self, Links.setPrev_prev_self, setNext_next hfh,
        setPrev_prev hzt, setNext_prev, h₃, h₄, some_inj]
      ext1
      · exact update_comm hzt.symm ..
      · rfl
    refine ⟨_, hrun, h.change (fun j hj => ?_) (fun j hj => ?_) (fun {j ys} hji hj => ?_) hS ?_
      (List.nodup_reverse.mpr (h.nodup hS)) fun x hx => .inl (List.mem_reverse.mp hx)⟩
    · have hj' : (lists j).head ∉ xs := fun hm => (h.interior hS _ hm j).1 rfl
      have hjz : (lists j).head ≠ z := fun e => hj' (e ▸ hzm)
      rw [join_prev (ha.headers j i), join_prev hjz, (swapped_not_mem hj').2, hj]
    · have hj' : (lists j).tail ∉ xs := fun hm => (h.interior hS _ hm j).2 rfl
      have hjf : (lists j).tail ≠ f := fun e => hj' (e ▸ hfm)
      rw [join_next hjf, join_next (ha.headers i j).symm, (swapped_not_mem hj').1, hj]
    · have hout : ∀ x ∈ (lists i).full xs, x ∉ (lists j).full ys :=
        fun x hx => h.full_disjoint ha hS hj hji.symm hx
      refine chained_join_other (chained_join_other ((h.chain hj).of_agree fun x hx => ?_)
        (hout _ ?_) (hout _ ?_)) (hout _ ?_) (hout _ ?_)
      · exact swapped_not_mem fun hm => hout x (mem_full.mpr (.inr (.inl hm))) hx
      · exact mem_full.mpr (.inl rfl)
      · exact mem_full.mpr (.inr (.inl hzm))
      · exact mem_full.mpr (.inr (.inl hfm))
      · exact mem_full.mpr (.inr (.inr rfl))
    · have hrev : (swapped m xs).Chained xs.reverse := hchain.swapped fun a ha => swapped_mem ha
      have hz : xs.reverse = z :: xs''.reverse := by rw [hxs]; simp
      have hf' : xs.reverse = xs'.reverse ++ [f] := by rw [hxs']; simp
      have hnd : ((lists i).head :: (xs.reverse ++ [(lists i).tail])).Nodup := by
        have hperm : ((lists i).head :: (xs.reverse ++ [(lists i).tail])).Perm
            ((lists i).full xs) := (xs.reverse_perm.append_right _).cons _
        exact hperm.nodup_iff.mpr (h.full_nodup ha hS)
      have hj₁ : ((swapped m xs).join (lists i).head z).Chained
          ([] ++ (lists i).head :: z :: xs''.reverse) := by
        refine Links.Chained.join_append (.singleton _) (hz ▸ hrev) ?_
        rw [nil_append, ← hz]
        exact hnd.sublist ((sublist_append_left ..).cons_cons _)
      rw [nil_append, ← hz, hf', ← List.cons_append] at hj₁
      rw [hf', List.append_assoc, singleton_append, ← List.cons_append] at hnd
      have hj₂ := hj₁.join_append (.singleton (lists i).tail) hnd
      rwa [KernelList.full, hf', List.append_assoc, singleton_append, ← List.cons_append]

/-! ### Every call, and every run -/

/-- A call that respects its precondition does to the links what the operation does to the
sequences. -/
theorem SeqStep.performs {S' : ι → Option (List α)} {c : ListCall ι α} {r : Option α}
    (hc : SeqStep lists S c r S') (h : Linked lists m S) (ha : Apart lists) :
    ∃ m' n, (∀ fuel, n < fuel → c.perform lists fuel m = some (r, m')) ∧ Linked lists m' S' := by
  cases hc with
  | init i => exact ⟨_, 0, fun _ _ => rfl, linked_init h ha⟩
  | insert seq unused =>
    obtain ⟨m', hr, h'⟩ := list_insert_linked h ha seq unused
    exact ⟨m', 0, fun _ _ => congrArg (Option.map _) hr, h'⟩
  | @push_front i xs x seq unused =>
    have seq' : S i = some ([] ++ xs) := seq
    obtain ⟨m', hr, h'⟩ := list_insert_linked h ha seq' unused
    have hb : list_begin (lists i) m = some ((lists i).start xs) := (h.position [] xs seq).1
    refine ⟨m', 0, fun _ _ => ?_, h'⟩
    show (list_push_front (lists i) x m).map _ = _
    rw [list_push_front, hb]
    exact congrArg (Option.map _) hr
  | @push_back i xs x seq unused =>
    rw [← append_nil xs] at seq
    obtain ⟨m', hr, h'⟩ := list_insert_linked h ha seq unused
    exact ⟨m', 0, fun _ _ => congrArg (Option.map _) hr, h'⟩
  | remove seq =>
    obtain ⟨m', hr, h'⟩ := list_remove_linked h ha seq
    exact ⟨m', 0, fun _ _ => congrArg (Option.map _) hr, h'⟩
  | @pop_front i xs x seq =>
    have seq' : S i = some ([] ++ x :: xs) := seq
    obtain ⟨m', hr, h'⟩ := list_remove_linked h ha seq'
    have hb : m.next (lists i).head = some x := (h.position [] (x :: xs) seq).1
    have hne : ¬ (some x == some (lists i).tail) = true := by
      rw [beq_iff_eq, some_inj]
      exact (h.interior seq x (List.mem_cons_self ..) i).2
    refine ⟨m', 0, fun _ _ => ?_, h'⟩
    show (list_pop_front (lists i) m).map _ = _
    rw [list_pop_front, list_front, list_empty, list_begin, hb, if_neg hne]
    simp only [bind_eq_bind, bind_some, hr]
    rfl
  | @pop_back i xs x seq =>
    obtain ⟨m', hr, h'⟩ := list_remove_linked h ha seq
    have hb : m.next (lists i).head = some ((lists i).start (xs ++ [x])) :=
      (h.position [] (xs ++ [x]) seq).1
    have he : m.prev (lists i).tail = some x := by
      have := (h.position (xs ++ [x]) [] (by rw [seq, append_nil])).2
      rwa [stop_concat] at this
    have hne : ¬ (some ((lists i).start (xs ++ [x])) == some (lists i).tail) = true := by
      rw [beq_iff_eq, some_inj]
      refine (h.interior seq _ ?_ i).2
      cases xs <;> simp [KernelList.start]
    rw [append_nil] at h'
    refine ⟨m', 0, fun _ _ => ?_, h'⟩
    show (list_pop_back (lists i) m).map _ = _
    rw [list_pop_back, list_back, list_empty, list_begin, hb, if_neg hne, he]
    simp only [bind_eq_bind, bind_some, hr]
    rfl
  | splice seq target =>
    obtain ⟨m', hr, h'⟩ := list_splice_linked h ha seq target
    exact ⟨m', 0, fun _ _ => congrArg (Option.map _) hr, h'⟩
  | @reverse i xs seq =>
    obtain ⟨m', hr, h'⟩ := list_reverse_linked h ha seq
    exact ⟨m', xs.length, fun fuel hf => congrArg (Option.map _) (hr fuel hf), h'⟩

/-- Walking a list forward meets its sequence. -/
theorem list_forward_eq (l : KernelList α) (ys : List α) : ∀ {fuel : Nat}, ys.length < fuel →
    m.Chained (ys ++ [l.tail]) → l.tail ∉ ys →
    list_forward l m fuel (some (l.start ys)) = some ys := by
  induction ys with
  | nil =>
    intro fuel hf _ _
    obtain ⟨fuel, rfl⟩ : ∃ n, fuel = n + 1 := ⟨fuel - 1, by rw [length_nil] at hf; omega⟩
    simp [list_forward, KernelList.start]
  | cons y ys ih =>
    intro fuel hf hc ht
    obtain ⟨fuel, rfl⟩ : ∃ n, fuel = n + 1 := ⟨fuel - 1, by omega⟩
    rw [List.mem_cons, not_or] at ht
    rw [length_cons] at hf
    rw [List.cons_append, ← start_cons_tail] at hc
    obtain ⟨hj, hc⟩ := List.isChain_cons_cons.mp hc
    rw [start_cons_tail] at hc
    show list_forward l m (fuel + 1) (some y) = _
    simp only [list_forward, bind_eq_bind, bind_some, list_next_eq hj.1]
    rw [if_neg fun e => ht.1 e.symm, @ih fuel (by omega) hc ht.2]
    rfl

/-- Walking a list backward meets it in reverse. -/
theorem list_backward_eq (l : KernelList α) (xs : List α) : ∀ {fuel : Nat}, xs.length < fuel →
    m.Chained (l.head :: xs) → l.head ∉ xs →
    list_backward l m fuel (some (l.stop xs)) = some xs.reverse := by
  induction xs using reverseRecOn with
  | nil =>
    intro fuel hf _ _
    obtain ⟨fuel, rfl⟩ : ∃ n, fuel = n + 1 := ⟨fuel - 1, by rw [length_nil] at hf; omega⟩
    simp [list_backward, KernelList.stop]
  | append_singleton xs x ih =>
    intro fuel hf hc hh
    obtain ⟨fuel, rfl⟩ : ∃ n, fuel = n + 1 := ⟨fuel - 1, by omega⟩
    rw [length_append, length_singleton] at hf
    rw [mem_append, not_or, List.mem_singleton] at hh
    rw [← List.cons_append, ← dropLast_stop, List.append_assoc, singleton_append] at hc
    obtain ⟨hc, hj, -⟩ := Links.chained_append.mp hc
    rw [dropLast_stop] at hc
    rw [stop_concat]
    simp only [list_backward, bind_eq_bind, bind_some, list_prev_eq hj.2]
    rw [if_neg fun e => hh.2 e.symm, List.reverse_append, @ih fuel (by omega) hc hh.1]
    rfl

omit [DecidableEq ι] in
theorem performs_concat (fuel : Nat) (cs : List (ListCall ι α)) (c : ListCall ι α)
    (m : Links α) : performs lists fuel (cs ++ [c]) m = (performs lists fuel cs m).bind fun rs =>
        (c.perform lists fuel rs.2).map fun r => (rs.1 ++ [r.1], r.2) := by
  induction cs generalizing m with
  | nil =>
    simp only [nil_append, performs, bind_eq_bind, bind_some]
    cases c.perform lists fuel m <;> rfl
  | cons c' cs ih =>
    simp only [List.cons_append, performs, bind_eq_bind]
    cases h : c'.perform lists fuel m with
    | none => rfl
    | some r =>
      simp only [bind_some, ih]
      cases performs lists fuel cs r.2 with
      | none => rfl
      | some rs =>
        simp only [bind_some]
        cases c.perform lists fuel rs.2 <;> rfl

/-- The lists as the kernel walks them are the sequences: every run of calls that respect their
preconditions succeeds, returns what the operations return, and leaves each list a chain that reads
forward as its sequence and backward as the reverse. -/
theorem kernel_lists_refine (ha : Apart lists) (m₀ : Links α) {cs : List (ListCall ι α)}
    {rs : List (Option α)} (hrun : SeqRun lists cs rs S) :
    ∃ m n, (∀ fuel, n < fuel → performs lists fuel cs m₀ = some (rs, m)) ∧
      Linked lists m S ∧ ∀ i xs, S i = some xs → ∀ fuel, xs.length < fuel →
        list_forward (lists i) m fuel (list_begin (lists i) m) = some xs ∧
        list_backward (lists i) m fuel (list_rbegin (lists i) m) = some xs.reverse := by
  suffices hrep : ∃ m n, (∀ fuel, n < fuel → performs lists fuel cs m₀ = some (rs, m)) ∧
      Linked lists m S by
    obtain ⟨m, n, hp, h⟩ := hrep
    refine ⟨m, n, hp, h, fun i xs hS fuel hf => ⟨?_, ?_⟩⟩
    · have hb : list_begin (lists i) m = some ((lists i).start xs) := (h.position [] xs hS).1
      rw [hb]
      exact list_forward_eq _ xs hf (IsChain.tail (h.chain hS))
        fun hm => (h.interior hS _ hm i).2 rfl
    · have hb : list_rbegin (lists i) m = some ((lists i).stop xs) :=
        (h.position xs [] (by rw [hS, append_nil])).2
      have hc : m.Chained (((lists i).head :: xs) ++ [(lists i).tail]) := h.chain hS
      rw [hb]
      exact list_backward_eq _ xs hf (IsChain.left_of_append hc)
        fun hm => (h.interior hS _ hm i).1 rfl
  induction hrun with
  | start => exact ⟨m₀, 0, fun _ _ => rfl, by constructor <;> intros <;> contradiction⟩
  | step _ call ih =>
    obtain ⟨m, n, hp, h⟩ := ih
    obtain ⟨m', n', hc, h'⟩ := call.performs h ha
    refine ⟨m', max n n', fun fuel hf => ?_, h'⟩
    rw [performs_concat, hp fuel (by omega), bind_some, hc fuel (by omega)]
    rfl

end Calls

/-- Two lists, with the elements 0 to 3 for headers. -/
def twoLists : Bool → KernelList Nat
  | false => ⟨0, 1⟩
  | true => ⟨2, 3⟩

theorem apart_twoLists : Apart twoLists := by
  refine ⟨fun {i j} h => ?_, fun {i j} h => ?_, fun i j => ?_⟩
  · cases i <;> cases j <;> first | rfl | cases h
  · cases i <;> cases j <;> first | rfl | cases h
  · cases i <;> cases j <;> decide

theorem unused_twoLists {S : Bool → Option (List Nat)} {xs ys : List Nat} {x : Nat}
    (hf : S false = some xs) (ht : S true = some ys) (hx : x ∉ xs ++ ys) (hlt : 3 < x) :
    Unused twoLists S x := by
  rw [mem_append, not_or] at hx
  refine ⟨fun {i zs} h => ?_, fun j => ?_⟩
  · cases i
    · cases hf.symm.trans h
      exact hx.1
    · cases ht.symm.trans h
      exact hx.2
  · cases j <;> constructor <;> simp only [twoLists] <;> omega

/-- An element goes from one list to the end of the other, which is then reversed. -/
theorem kernel_lists_refine_twoLists : ∃ m n,
    (∀ fuel, n < fuel → performs twoLists fuel [.init false, .init true, .push_back false 10,
      .push_back false 11, .push_front true 12, .splice 3 11 1, .reverse true]
      ⟨fun _ => none, fun _ => none⟩ = some (List.replicate 7 none, m)) ∧
    list_forward (twoLists false) m 3 (list_begin (twoLists false) m) = some [10] ∧
    list_forward (twoLists true) m 3 (list_begin (twoLists true) m) = some [11, 12] := by
  have h₁ := (SeqRun.start.step (.init false)).step (@SeqStep.init Bool Nat _ twoLists _ true)
  have h₂ := h₁.step (.push_back (x := 10) (i := false) rfl
    (unused_twoLists rfl rfl (by decide) (by decide)))
  have h₃ := h₂.step (.push_back (x := 11) (i := false) rfl
    (unused_twoLists rfl rfl (by decide) (by decide)))
  have h₄ := h₃.step (.push_front (x := 12) (i := true) rfl
    (unused_twoLists rfl rfl (by decide) (by decide)))
  have h₅ := h₄.step (@SeqStep.splice _ _ _ twoLists _ false true [10] [11] [] [12] [] rfl rfl)
  have h₆ := h₅.step (.reverse (i := true) rfl)
  obtain ⟨m, n, hp, -, hwalk⟩ := kernel_lists_refine apart_twoLists _ h₆
  exact ⟨m, n, hp, (hwalk false [10] rfl 3 (by decide)).1, (hwalk true [11, 12] rfl 3 (by decide)).1⟩

end Pintos
