import Mathlib.Tactic
import Pintos.Devices.Intq

/-!
# Devices — waiting on an interrupt queue

Runs with threads on one side of a queue and handlers on the other, as the keyboard has readers and
an interrupt that writes, and the serial port a writer and an interrupt that reads.

`lock` is there so that one thread waits at a time, but a thread tests the queue before it acquires
the lock, and `wait` asserts that the test is still true.  A thread that had to sleep for the lock
finds out too late that it is not.

* `OneWaiter` is what holds as long as no thread calls on an unmet condition while another holds
  the lock (`Calm`): the lock is free and no thread is inside, or its holder is the only thread
  inside and waits, or has been woken.  Every calm move keeps it and trips no assertion
  (`OneWaiter.step`).
* `reader_safe_iff`: for readers, being calm is also needed.  After a call that is not, two bytes
  that arrive before the holder runs make an assertion fail.
* `single_thread_fifo`: with one thread on its side every move is calm, so that the queue is a
  lossless queue, a registered waiter's condition is unmet, and no sleeper is forgotten.
-/

namespace Pintos
open Support Function Option
open RingBuffer (count_pop count_push empty_iff_count full_iff_count)
namespace Intq

variable {q q' : Intq} {t : Tid} {c : IntqCall} {w : IntqWaiter} {m : Move} {P : Tid → Prop}
  {u : Tid}

/-- The threads of `P` are on the side that waits for `w`, the handlers on the other. -/
def Side (P : Tid → Prop) (w : IntqWaiter) : Move → Prop
  | .call t c => P t ∧ c.waiter = w
  | .resume _ => True
  | .interrupt c => c.waiter = w.other

/-- No thread calls on an unmet condition while another holds the lock. -/
def Calm (q : Intq) : Move → Prop
  | .call _ c => ¬ (q.Unmet c.waiter ∧ q.holder.isSome)
  | _ => True

/-- No thread is in the functions. -/
structure Free (w : IntqWaiter) (q : Intq) : Prop where
  holder : q.holder = none
  value : q.value = 1
  waiter : q.waiter w = none
  outside : ∀ t, q.pc t = .outside

/-- `t` is the only thread in the functions: it holds the lock and waits, or is woken. -/
structure Held (w : IntqWaiter) (t : Tid) (c : IntqCall) (q : Intq) : Prop where
  call : c.waiter = w
  holder : q.holder = some t
  value : q.value = 0
  others : ∀ u, u ≠ t → q.pc u = .outside
  inside : q.pc t = .waiting c ∧ q.waiter w = some t ∧ q.Unmet w ∨
    q.pc t = .wait_woken c ∧ q.waiter w = none

structure OneWaiter (P : Tid → Prop) (w : IntqWaiter) (q : Intq) : Prop where
  waiters : q.waiters = []
  other : q.waiter w.other = none
  threads : Free w q ∨ ∃ t c, P t ∧ Held w t c q

/-! ### The functions, as they run here -/

/-- Moving a byte makes the condition of the other side true. -/
theorem not_unmet_move_byte (h : ¬ q.Unmet c.waiter) : ¬ (q.move_byte c).Unmet c.waiter.other := by
  cases c with
  | intq_getc => exact RingBuffer.not_full_pop h
  | intq_putc byte => exact RingBuffer.not_empty_push h byte

theorem move_byte_waiter (q : Intq) (c : IntqCall) : (q.move_byte c).waiter = q.waiter := by
  cases c <;> rfl

theorem move_byte_pc (q : Intq) (c : IntqCall) : (q.move_byte c).pc = q.pc := by
  cases c <;> rfl

theorem move_byte_lock (q : Intq) (c : IntqCall) : (q.move_byte c).holder = q.holder ∧
    (q.move_byte c).value = q.value ∧ (q.move_byte c).waiters = q.waiters := by
  cases c <;> exact ⟨rfl, rfl, rfl⟩

/-- Without a waiter on the other side. -/
theorem transfer_alone (h : ¬ q.Unmet c.waiter) (hw : q.waiter c.waiter.other = none) :
    q.transfer c = some (q.move_byte c) := by
  rw [transfer, signal, if_neg (not_unmet_move_byte h), move_byte_waiter, hw]

/-- With a waiter on the other side. -/
theorem transfer_waiter {c' : IntqCall} (h : ¬ q.Unmet c.waiter)
    (hw : q.waiter c.waiter.other = some t) (hpc : q.pc t = .waiting c') :
    q.transfer c = some ({ q.move_byte c with
      waiter := update q.waiter c.waiter.other none }.goto t (.wait_woken c')) := by
  rw [transfer, signal, if_neg (not_unmet_move_byte h), move_byte_waiter, hw]
  simp only [move_byte_pc, hpc]

/-- A thread that finds the lock free waits with it. -/
theorem lock_acquire_free (hunmet : q.Unmet c.waiter) (hh : q.holder = none) (hv : q.value = 1) :
    q.lock_acquire t c = some ({ q with
      value := 0
      holder := some t
      waiter := update q.waiter c.waiter (some t) }.goto t (.waiting c)) := by
  have hsame : SameBytes q { q with value := 0, holder := some t } := ⟨rfl, rfl, rfl⟩
  rw [lock_acquire, if_neg (by rw [hh]; nofun), sema_down, if_neg (by omega), hv, wait,
    if_pos ((hsame.unmet _).mpr hunmet)]

/-! ### Calm moves -/

/-- A thread that finds the lock free, and the others outside, becomes the one that waits. -/
theorem oneWaiter_acquire (ht : P t) (hholder : q.holder = none) (hvalue : q.value = 1)
    (hwaiters : q.waiters = []) (hother : q.waiter c.waiter.other = none)
    (houtside : ∀ u, u ≠ t → q.pc u = .outside) (hunmet : q.Unmet c.waiter) :
    ∃ q', q.lock_acquire t c = some q' ∧ OneWaiter P c.waiter q' := by
  refine ⟨_, lock_acquire_free hunmet hholder hvalue, hwaiters, ?_, .inr ⟨t, c, ht, ?_⟩⟩
  · exact (update_of_ne (IntqWaiter.other_ne _) _ _).trans hother
  · refine ⟨rfl, rfl, rfl, fun u hu => ?_, .inl ⟨update_self .., ?_, ?_⟩⟩
    · exact (update_of_ne hu _ _).trans (houtside u hu)
    · exact update_self ..
    · exact (SameBytes.unmet ⟨rfl, rfl, rfl⟩ _).mpr hunmet

/-- A thread of the side moves a byte while no other thread is inside, or the holder is woken. -/
theorem Free.move_byte (h : Free w q) (c : IntqCall) : Free w (q.move_byte c) := by
  obtain ⟨hh, hv, -⟩ := move_byte_lock q c
  refine ⟨hh.trans h.holder, hv.trans h.value, ?_, ?_⟩
  · rw [move_byte_waiter]
    exact h.waiter
  · rw [move_byte_pc]
    exact h.outside

theorem Held.move_byte {c' : IntqCall} (h : Held w t c' q) (c : IntqCall)
    (hwoken : q.pc t = .wait_woken c' ∧ q.waiter w = none) : Held w t c' (q.move_byte c) := by
  obtain ⟨hh, hv, -⟩ := move_byte_lock q c
  refine ⟨h.call, hh.trans h.holder, hv.trans h.value, ?_, .inr ?_⟩
  · rw [move_byte_pc]
    exact h.others
  · rw [move_byte_pc, move_byte_waiter]
    exact hwoken

theorem OneWaiter.call (h : OneWaiter P w q) (ht : P t) (hc : c.waiter = w)
    (hpc : q.pc t = .outside) (hcalm : ¬ (q.Unmet c.waiter ∧ q.holder.isSome)) :
    ∃ q', q.loop t c = some q' ∧ OneWaiter P w q' := by
  subst hc
  by_cases hunmet : q.Unmet c.waiter
  · rcases h.threads with hfree | ⟨u, c', hu, hheld⟩
    · rw [loop, if_pos hunmet]
      exact oneWaiter_acquire ht hfree.holder hfree.value h.waiters h.other
        (fun u _ => hfree.outside u) hunmet
    · exact absurd ⟨hunmet, by rw [hheld.holder]; rfl⟩ hcalm
  · have hgoto : q.goto t .outside = q := by
      rw [goto, ← hpc, update_eq_self]
    obtain ⟨-, -, hwaiters⟩ := move_byte_lock q c
    refine ⟨q.move_byte c, ?_, hwaiters.trans h.waiters, ?_, ?_⟩
    · rw [loop, if_neg hunmet, hgoto]
      exact transfer_alone hunmet h.other
    · rw [move_byte_waiter]
      exact h.other
    · rcases h.threads with hfree | ⟨u, c', hu, hheld⟩
      · exact .inl (hfree.move_byte c)
      · refine .inr ⟨u, c', hu, hheld.move_byte c (hheld.inside.resolve_left ?_)⟩
        rintro ⟨-, -, hun⟩
        exact hunmet hun

/-- A handler moves a byte, and wakes up the thread that waits. -/
theorem OneWaiter.interrupt (h : OneWaiter P w q) (hc : c.waiter = w.other)
    (hmet : ¬ q.Unmet c.waiter) : ∃ q', q.transfer c = some q' ∧ OneWaiter P w q' := by
  have hback : c.waiter.other = w := by rw [hc, IntqWaiter.other_other]
  obtain ⟨hh, hv, hwaiters⟩ := move_byte_lock q c
  have halone : q.waiter w = none → (Free w q ∨ ∃ t c', P t ∧ Held w t c' q ∧
      (q.pc t = .wait_woken c' ∧ q.waiter w = none)) →
      ∃ q', q.transfer c = some q' ∧ OneWaiter P w q' := by
    intro hnone hthreads
    refine ⟨q.move_byte c, transfer_alone hmet (hback ▸ hnone), hwaiters.trans h.waiters, ?_, ?_⟩
    · rw [move_byte_waiter]
      exact h.other
    · rcases hthreads with hfree | ⟨t, c', ht, hheld, hwoken⟩
      · exact .inl (hfree.move_byte c)
      · exact .inr ⟨t, c', ht, hheld.move_byte c hwoken⟩
  rcases h.threads with hfree | ⟨t, c', ht, hheld⟩
  · exact halone hfree.waiter (.inl hfree)
  · rcases hheld.inside with ⟨hpc, hwaiter, -⟩ | hwoken
    · have hrun := transfer_waiter hmet (hback ▸ hwaiter) hpc
      rw [hback] at hrun
      refine ⟨_, hrun, hwaiters.trans h.waiters, ?_, .inr ⟨t, c', ht, ?_⟩⟩
      · exact (update_of_ne (IntqWaiter.other_ne _) _ _).trans h.other
      · refine ⟨hheld.call, hh.trans hheld.holder, hv.trans hheld.value, fun u hu => ?_,
          .inr ⟨?_, ?_⟩⟩
        · refine (update_of_ne hu _ _).trans ?_
          rw [move_byte_pc]
          exact hheld.others u hu
        · exact update_self ..
        · exact update_self ..
    · exact halone hwoken.2 (.inr ⟨t, c', ht, hheld, hwoken⟩)

/-- The woken holder releases the lock, and goes on at the top of its loop. -/
theorem Held.release (h : Held w t c q) (hwaiters : q.waiters = []) :
    q.lock_release t = some { q with holder := none, value := 1 } := by
  rw [lock_release, if_pos h.holder, sema_up]
  simp only [hwaiters, h.value]

/-- The thread that is woken, if one is, holds the lock. -/
theorem OneWaiter.woken (h : OneWaiter P w q) (he : (q.pc t).Woken) :
    P t ∧ ∃ c, Held w t c q ∧ q.pc t = .wait_woken c ∧ q.waiter w = none := by
  rcases h.threads with hfree | ⟨u, c, ht, hheld⟩
  · rw [hfree.outside t] at he
    exact he.elim
  · by_cases hu : t = u
    · subst hu
      rcases hheld.inside with ⟨hpc, -, -⟩ | hwoken
      · rw [hpc] at he
        exact he.elim
      · exact ⟨ht, c, hheld, hwoken⟩
    · rw [hheld.others t hu] at he
      exact he.elim

theorem OneWaiter.resume (h : OneWaiter P w q) (he : (q.pc t).Woken) :
    ∃ q', q.perform (.resume t) = some q' ∧ OneWaiter P w q' := by
  obtain ⟨ht, c, hheld, hpc, hnone⟩ := h.woken he
  have hcall := hheld.call
  subst hcall
  have hperform : q.perform (.resume t) = loop { q with holder := none, value := 1 } t c := by
    simp only [perform, hpc, hheld.release h.waiters, bind_some]
  have hsame : SameBytes q { q with holder := none, value := 1 } := ⟨rfl, rfl, rfl⟩
  rw [hperform, loop]
  by_cases hunmet : q.Unmet c.waiter
  · rw [if_pos ((hsame.unmet _).mpr hunmet)]
    exact oneWaiter_acquire ht rfl rfl h.waiters h.other hheld.others ((hsame.unmet _).mpr hunmet)
  · rw [if_neg ((hsame.unmet _).not.mpr hunmet)]
    have hfree : Free c.waiter (goto { q with holder := none, value := 1 } t .outside) := by
      refine ⟨rfl, rfl, hnone, fun u => ?_⟩
      by_cases hu : u = t
      · rw [hu]
        exact update_self ..
      · exact (update_of_ne hu _ _).trans (hheld.others u hu)
    have hrun := transfer_alone (q := goto { q with holder := none, value := 1 } t .outside)
      ((SameBytes.unmet ⟨rfl, rfl, rfl⟩ _).not.mpr hunmet) h.other
    obtain ⟨-, -, hwaiters⟩ :=
      move_byte_lock (goto { q with holder := none, value := 1 } t .outside) c
    refine ⟨_, hrun, hwaiters.trans h.waiters, ?_, .inl (hfree.move_byte c)⟩
    rw [move_byte_waiter]
    exact h.other

/-- Calm moves trip no assertion and keep the invariant. -/
theorem OneWaiter.step (h : OneWaiter P w q) (hside : Side P w m) (he : q.Enabled m)
    (hcalm : q.Calm m) : ∃ q', q.perform m = some q' ∧ OneWaiter P w q' := by
  cases m with
  | call t c => exact h.call hside.1 hside.2 he hcalm
  | resume t => exact h.resume he
  | interrupt c => exact h.interrupt hside he

theorem oneWaiter_init (P : Tid → Prop) (w : IntqWaiter) (buf : Fin INTQ_BUFSIZE → UInt8) :
    OneWaiter P w (intq_init buf) := ⟨rfl, rfl, .inl ⟨rfl, rfl, rfl, fun _ => rfl⟩⟩

/-- The invariant of every run of calm moves. -/
theorem OneWaiter.run (h : OneWaiter P w q) (hrun : Run (fun q m => Side P w m ∧ q.Calm m) q q') :
    OneWaiter P w q' := by
  induction hrun with
  | start => exact h
  | move run m allowed enabled step ih =>
    obtain ⟨q₁, hperform, hq₁⟩ := ih.step allowed.1 enabled allowed.2
    cases step.symm.trans hperform
    exact hq₁

/-! ### A reader that sleeps for the lock -/

/-- `u` holds the lock, waiting or woken, and `t` sleeps for the lock. -/
structure Crowd (t u : Tid) (q : Intq) : Prop where
  ne : t ≠ u
  waiters : q.waiters = [t]
  value : q.value = 0
  holder : q.holder = some u
  asleep : q.pc t = .acquiring .intq_getc
  inside : q.pc u = .waiting .intq_getc ∧ q.waiter .not_empty = some u ∨
    q.pc u = .wait_woken .intq_getc ∧ q.waiter .not_empty = none
  not_full : q.waiter .not_full = none

/-- A call on an empty queue while another reader holds the lock. -/
theorem OneWaiter.crowd (h : OneWaiter P .not_empty q) (hempty : q.queue.Empty)
    (hheld : Held .not_empty u c q) (hpc : q.pc t = .outside) :
    ∃ q', q.loop t .intq_getc = some q' ∧ Crowd t u q' ∧ q'.queue = q.queue := by
  have hne : t ≠ u := by
    rintro rfl
    rcases hheld.inside with ⟨hin, -⟩ | ⟨hin, -⟩ <;> rw [hpc] at hin <;> cases hin
  have hc : c = .intq_getc := by
    have := hheld.call
    cases c with
    | intq_getc => rfl
    | intq_putc => cases this
  subst hc
  refine ⟨goto { q with waiters := q.waiters ++ [t] } t (.acquiring .intq_getc), ?_, ?_, rfl⟩
  · have hunmet : q.Unmet IntqCall.intq_getc.waiter := hempty
    rw [loop, if_pos hunmet, lock_acquire, if_neg, sema_down, if_pos hheld.value]
    rw [hheld.holder]
    exact fun heq => hne (Option.some.inj heq).symm
  · refine ⟨hne, ?_, hheld.value, hheld.holder, update_self .., ?_, h.other⟩
    · exact congrArg (· ++ [t]) h.waiters
    · have hpc' : update q.pc t (.acquiring .intq_getc) u = q.pc u :=
        update_of_ne hne.symm _ _
      rcases hheld.inside with ⟨hin, hw, -⟩ | ⟨hin, hw⟩
      · exact .inl ⟨hpc'.trans hin, hw⟩
      · exact .inr ⟨hpc'.trans hin, hw⟩

/-- A byte arrives, and the holder is woken if it was not. -/
theorem Crowd.interrupt (h : Crowd t u q) (hfull : ¬ q.queue.Full) (byte : UInt8) :
    ∃ q', q.perform (.interrupt (.intq_putc byte)) = some q' ∧ Crowd t u q' ∧
      q'.queue = q.queue.push byte ∧ q'.pc u = .wait_woken .intq_getc := by
  rcases h.inside with ⟨hpc, hw⟩ | ⟨hpc, hw⟩
  · refine ⟨_, transfer_waiter (c := .intq_putc byte) hfull hw hpc, ?_, rfl, update_self ..⟩
    refine ⟨h.ne, h.waiters, h.value, h.holder, ?_, .inr ⟨update_self .., ?_⟩, ?_⟩
    · exact (update_of_ne h.ne _ _).trans h.asleep
    · exact update_self IntqWaiter.not_empty none q.waiter
    · exact (update_of_ne (IntqWaiter.other_ne .not_empty) none q.waiter).trans h.not_full
  · refine ⟨_, transfer_alone (c := .intq_putc byte) hfull hw, ?_, rfl, hpc⟩
    exact ⟨h.ne, h.waiters, h.value, h.holder, h.asleep, .inr ⟨hpc, hw⟩, h.not_full⟩

/-- The holder runs: it wakes the sleeper up, and takes a byte. -/
theorem Crowd.resume (h : Crowd t u q) (hpc : q.pc u = .wait_woken .intq_getc)
    (hempty : ¬ q.queue.Empty) : ∃ q', q.perform (.resume u) = some q' ∧ q'.value = 1 ∧
      q'.pc t = .acquire_woken .intq_getc ∧ q'.queue = q.queue.pop := by
  have hrelease : q.lock_release u = some (goto { q with holder := none, waiters := [], value := 1 }
      t (.acquire_woken .intq_getc)) := by
    rw [lock_release, if_pos h.holder, sema_up]
    simp only [h.waiters, h.asleep, h.value]
  refine ⟨move_byte (goto (goto { q with holder := none, waiters := [], value := 1 } t
    (.acquire_woken .intq_getc)) u .outside) .intq_getc, ?_, rfl, ?_, rfl⟩
  · simp only [perform, hpc, hrelease, bind_some]
    rw [loop, if_neg]
    · exact transfer_alone hempty h.not_full
    · exact hempty
  · exact (update_of_ne h.ne _ _).trans (update_self ..)

/-- The sleeper runs: it acquires the lock and calls `wait`, which finds a byte in the queue. -/
theorem wait_fails (hvalue : q.value = 1) (hpc : q.pc t = .acquire_woken .intq_getc)
    (hempty : ¬ q.queue.Empty) : q.perform (.resume t) = none := by
  simp only [perform, hpc]
  rw [sema_down, if_neg (by omega), wait, if_neg]
  exact hempty

/-- The moves of readers and of an interrupt that writes, the calls being calm. -/
def ReaderMove (q : Intq) (m : Move) : Prop := Side (fun _ => True) .not_empty m ∧ q.Calm m

/-- No assertion fails from here on, as long as readers are calm. -/
def NoFault (q : Intq) : Prop :=
  ∀ q', Run ReaderMove q q' → ∀ m, ReaderMove q' m → q'.Enabled m → (q'.perform m).isSome

/-- Two bytes, then the holder, then the sleeper. -/
theorem Crowd.fault (h : Crowd t u q) (hempty : q.queue.Empty) : ¬ NoFault q := by
  intro hsafe
  have hcount : q.queue.count = 0 := (empty_iff_count _).mp hempty
  have hroom : ¬ q.queue.Full := by
    rw [full_iff_count, hcount]
    decide
  obtain ⟨q₁, hs₁, h₁, hq₁, -⟩ := h.interrupt hroom 0
  have hcount₁ : q₁.queue.count = 1 := by rw [hq₁, count_push hroom, hcount]
  have hroom₁ : ¬ q₁.queue.Full := by
    rw [full_iff_count, hcount₁]
    decide
  obtain ⟨q₂, hs₂, h₂, hq₂, hpc₂⟩ := h₁.interrupt hroom₁ 0
  have hcount₂ : q₂.queue.count = 2 := by rw [hq₂, count_push hroom₁, hcount₁]
  have hne₂ : ¬ q₂.queue.Empty := by
    rw [empty_iff_count, hcount₂]
    decide
  obtain ⟨q₃, hs₃, hvalue, hpc₃, hq₃⟩ := h₂.resume hpc₂ hne₂
  have hne₃ : ¬ q₃.queue.Empty := by
    have := count_pop hne₂
    rw [empty_iff_count, hq₃]
    omega
  have hrun₁ : Run ReaderMove q q₁ :=
    Run.start.move (.interrupt (.intq_putc 0)) ⟨rfl, trivial⟩ hroom hs₁
  have hrun₂ : Run ReaderMove q q₂ :=
    hrun₁.move (.interrupt (.intq_putc 0)) ⟨rfl, trivial⟩ hroom₁ hs₂
  have hrun : Run ReaderMove q q₃ :=
    hrun₂.move (.resume u) ⟨trivial, trivial⟩ (show (q₂.pc u).Woken by rw [hpc₂]; trivial) hs₃
  have hsome := hsafe q₃ hrun (.resume t) ⟨trivial, trivial⟩
    (show (q₃.pc t).Woken by rw [hpc₃]; trivial)
  rw [wait_fails hvalue hpc₃ hne₃] at hsome
  cases hsome

/-- In every run of any number of readers with an interrupt that writes: a further move trips no
assertion, and none of the calm moves after it does, exactly if it is calm. -/
theorem reader_safe_iff (buf : Fin INTQ_BUFSIZE → UInt8) (q : Intq)
    (run : Run ReaderMove (intq_init buf) q) (m : Move) (hside : Side (fun _ => True) .not_empty m)
    (he : q.Enabled m) : (∃ q', q.perform m = some q' ∧ NoFault q') ↔ q.Calm m := by
  have hone : OneWaiter (fun _ => True) .not_empty q := (oneWaiter_init _ _ buf).run run
  constructor
  · rintro ⟨q', hperform, hsafe⟩
    cases m with
    | resume t => trivial
    | interrupt c => trivial
    | call t c =>
      rintro ⟨hunmet, hholder⟩
      have hc : c = .intq_getc := by
        cases c with
        | intq_getc => rfl
        | intq_putc => cases hside.2
      subst hc
      rcases hone.threads with hfree | ⟨u, c', -, hheld⟩
      · rw [hfree.holder] at hholder
        cases hholder
      · obtain ⟨q₁, hloop, hcrowd, hqueue⟩ := hone.crowd hunmet hheld he
        cases hperform.symm.trans hloop
        exact hcrowd.fault (by rw [hqueue]; exact hunmet) hsafe
  · intro hcalm
    obtain ⟨q', hperform, hq'⟩ := hone.step hside he hcalm
    refine ⟨q', hperform, fun q₁ hrun m hm hen => ?_⟩
    obtain ⟨q₂, hperform₂, -⟩ := (hq'.run hrun).step hm.1 hen hm.2
    rw [hperform₂]
    rfl

/-- A reader that finds the queue empty sleeps, two bytes arrive and it takes one; then a second
reader may call. -/
theorem reader_safe_second : ∃ q q', perform_all (intq_init fun _ => 0) [.call 1 .intq_getc,
      .interrupt (.intq_putc 97), .interrupt (.intq_putc 98), .resume 1] = some q ∧
    q.perform (.call 2 .intq_getc) = some q' ∧ NoFault q' := by
  have run : Run ReaderMove (intq_init fun _ => 0) _ :=
    Run.start.move (.call 1 .intq_getc) ⟨⟨trivial, rfl⟩, fun h => nomatch h.2⟩ rfl rfl
  have run := run.move (.interrupt (.intq_putc 97)) ⟨rfl, trivial⟩ (by decide) rfl
  have run := run.move (.interrupt (.intq_putc 98)) ⟨rfl, trivial⟩ (by decide) rfl
  have run := run.move (.resume 1) ⟨trivial, trivial⟩ (by decide) rfl
  obtain ⟨q', hq', hsafe⟩ := (reader_safe_iff _ _ run (.call 2 .intq_getc) ⟨trivial, rfl⟩ rfl).mpr
    fun h => nomatch h.2
  exact ⟨_, q', rfl, hq', hsafe⟩

/-- Two readers find the queue empty, and the second sleeps for the lock; two bytes arrive, the
first reader returns one of them, and the second acquires the lock and trips the assertion of
`wait`. -/
theorem second_reader_faults : ∃ q, perform_all (intq_init fun _ => 0) [.call 1 .intq_getc,
      .call 2 .intq_getc, .interrupt (.intq_putc 97), .interrupt (.intq_putc 98), .resume 1] =
        some q ∧ q.pc 2 = .acquire_woken .intq_getc ∧ q.value = 1 ∧ q.queue.contents = [98] ∧
    q.perform (.resume 2) = none :=
  ⟨_, rfl, rfl, rfl, rfl, rfl⟩

/-! ### One thread -/

/-- With one thread on its side every move is calm. -/
theorem OneWaiter.calm_single (h : OneWaiter (· = t) w q) (hside : Side (· = t) w m)
    (he : q.Enabled m) : q.Calm m := by
  cases m with
  | resume u => trivial
  | interrupt c => trivial
  | call u c =>
    rintro ⟨-, hholder⟩
    rcases h.threads with hfree | ⟨x, c', rfl, hheld⟩
    · rw [hfree.holder] at hholder
      cases hholder
    · obtain ⟨rfl, -⟩ := hside
      have hpc : q.pc u = .outside := he
      rcases hheld.inside with ⟨hin, -⟩ | ⟨hin, -⟩ <;> rw [hpc] at hin <;> cases hin

theorem OneWaiter.run_single (h : OneWaiter (· = t) w q)
    (hrun : Run (fun _ => Side (· = t) w) q q') : OneWaiter (· = t) w q' := by
  induction hrun with
  | start => exact h
  | move run m allowed enabled step ih =>
    obtain ⟨q₁, hperform, hq₁⟩ := ih.step allowed enabled (ih.calm_single allowed enabled)
    cases step.symm.trans hperform
    exact hq₁

/-- A registered waiter's condition is unmet. -/
theorem OneWaiter.unmet_of_waiter (h : OneWaiter P w q) {x : IntqWaiter} (hx : q.waiter x = some u)
    : q.Unmet x := by
  by_cases hxw : x = w
  · subst hxw
    rcases h.threads with hfree | ⟨t, c, -, hheld⟩
    · rw [hfree.waiter] at hx
      cases hx
    · rcases hheld.inside with ⟨-, -, hunmet⟩ | ⟨-, hnone⟩
      · exact hunmet
      · rw [hnone] at hx
        cases hx
  · have hxo : x = w.other := by
      cases x <;> cases w <;> first | rfl | exact absurd rfl hxw
    rw [hxo, h.other] at hx
    cases hx

/-- A thread that is blocked is registered. -/
theorem OneWaiter.registered (h : OneWaiter P w q) :
    (∀ c, q.pc u ≠ .acquiring c) ∧ ∀ c, q.pc u = .waiting c → q.waiter c.waiter = some u := by
  rcases h.threads with hfree | ⟨t, c', -, hheld⟩
  · rw [hfree.outside u]
    exact ⟨fun c => nofun, fun c => nofun⟩
  · by_cases hu : u = t
    · subst hu
      rcases hheld.inside with ⟨hpc, hwaiter, -⟩ | ⟨hpc, -⟩
      · rw [hpc]
        refine ⟨fun c => nofun, fun c hc => ?_⟩
        cases hc
        rw [hheld.call]
        exact hwaiter
      · rw [hpc]
        exact ⟨fun c => nofun, fun c => nofun⟩
    · rw [hheld.others u hu]
      exact ⟨fun c => nofun, fun c => nofun⟩

/-- With a single thread on one side and handlers on the other, in every state of every run: the
bytes returned are the first of those stored, and the others, at most 63, are in the queue; a
registered waiter for `not_empty` means an empty queue, and one for `not_full` a full one; a
blocked thread is registered, so that the next byte wakes it up; and no assertion fails next. -/
theorem single_thread_fifo (w : IntqWaiter) (t : Tid) (buf : Fin INTQ_BUFSIZE → UInt8) (q : Intq)
    (run : Run (fun _ => Side (· = t) w) (intq_init buf) q) :
    q.returned <+: q.stored ∧ q.stored = q.returned ++ q.queue.contents ∧
    q.queue.contents.length ≤ 63 ∧
    (∀ u, q.waiter .not_empty = some u → q.queue.Empty) ∧
    (∀ u, q.waiter .not_full = some u → q.queue.Full) ∧
    (∀ u c, q.pc u ≠ .acquiring c ∧ (q.pc u = .waiting c → q.waiter c.waiter = some u)) ∧
    ∀ m, Side (· = t) w m → q.Enabled m → ∃ q', q.perform m = some q' := by
  have hone := (oneWaiter_init (· = t) w buf).run_single run
  have hfifo : q.stored = q.returned ++ q.queue.contents := run.fifo
  refine ⟨⟨_, hfifo.symm⟩, hfifo, Nat.le_of_lt_succ q.queue.length_contents_lt, ?_, ?_, ?_, ?_⟩
  · exact fun u hu => hone.unmet_of_waiter hu
  · exact fun u hu => hone.unmet_of_waiter hu
  · exact fun u c => ⟨hone.registered.1 c, hone.registered.2 c⟩
  · intro m hside he
    obtain ⟨q', hperform, -⟩ := hone.step hside he (hone.calm_single hside he)
    exact ⟨q', hperform⟩

/-- A thread waits for a key, which comes with another. -/
theorem single_thread_fifo_keys : ∃ q, perform_all (intq_init fun _ => 0) [.call 1 .intq_getc,
      .interrupt (.intq_putc 97), .interrupt (.intq_putc 98), .resume 1] = some q ∧
    q.returned = [97] ∧ q.stored = [97, 98] ∧ q.returned <+: q.stored := by
  have hside : ∀ m ∈ [Move.call 1 .intq_getc, .interrupt (.intq_putc 97),
      .interrupt (.intq_putc 98), .resume 1], Intq → Side (· = 1) .not_empty m := by
    simp [Side, IntqCall.waiter, IntqWaiter.other]
  obtain ⟨q, hq, hreturned, hstored⟩ : ∃ q, perform_all (intq_init fun _ => 0)
      [.call 1 .intq_getc, .interrupt (.intq_putc 97), .interrupt (.intq_putc 98), .resume 1] =
        some q ∧ q.returned = [97] ∧ q.stored = [97, 98] := ⟨_, rfl, rfl, rfl⟩
  exact ⟨q, hq, hreturned, hstored,
    (single_thread_fifo .not_empty 1 _ q (Run.of_perform_all hside .start hq)).1⟩

end Intq
end Pintos
