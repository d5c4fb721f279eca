import Pintos.Support.RingBuffer
import Pintos.Threads.Scheduler

/-!
# Devices — interrupt queues

`intq.c`: a circular buffer of 64 bytes shared by threads and interrupt handlers, a lock of which
`synch.c` keeps the semaphore and the holder, and the two members that name the thread waiting for
the queue to be not empty or not full.

The functions run with interrupts off, so what a thread does between two calls of `thread_block` is
one move: from a call of `intq_getc` or `intq_putc` to its return or to the first block, and from
there to the next.  Between two moves any other thread may run, and any interrupt may come.  A
handler calls the functions only on a queue that is not empty, or not full; so does
`serial.c` where it empties a queue with interrupts off.

Each function is `none` where an assertion fails.  `stored` and `returned` record the bytes that
`intq_putc` has put into the queue and that `intq_getc` has returned.

`Intq.perform_fifo`: whatever threads and handlers do, the bytes come out in the order in which
they went in.
-/

namespace Pintos
open Support Function

/-- `INTQ_BUFSIZE`. -/
abbrev INTQ_BUFSIZE : Nat := 64

/-- The members that `wait` and `signal` are called with. -/
inductive IntqWaiter where
  | not_empty
  | not_full
  deriving DecidableEq

/-- The other one. -/
def IntqWaiter.other : IntqWaiter → IntqWaiter
  | .not_empty => .not_full
  | .not_full => .not_empty

theorem IntqWaiter.other_ne (w : IntqWaiter) : w.other ≠ w := by
  cases w <;> decide

theorem IntqWaiter.other_other (w : IntqWaiter) : w.other.other = w := by
  cases w <;> rfl

inductive IntqCall where
  | intq_getc
  | intq_putc (byte : UInt8)
  deriving DecidableEq

/-- What a call waits for. -/
def IntqCall.waiter : IntqCall → IntqWaiter
  | .intq_getc => .not_empty
  | .intq_putc _ => .not_full

/-- Where a thread is. -/
inductive IntqPc where
  /-- In none of the functions. -/
  | outside
  /-- Blocked in `sema_down`, called by `lock_acquire`. -/
  | acquiring (c : IntqCall)
  /-- There, and unblocked by `sema_up`. -/
  | acquire_woken (c : IntqCall)
  /-- Blocked in `wait`. -/
  | waiting (c : IntqCall)
  /-- There, and unblocked by `signal`. -/
  | wait_woken (c : IntqCall)
  deriving DecidableEq

/-- The thread is unblocked, and inside. -/
def IntqPc.Woken : IntqPc → Prop
  | .acquire_woken _ => True
  | .wait_woken _ => True
  | _ => False

instance : ∀ pc : IntqPc, Decidable pc.Woken
  | .outside => inferInstanceAs (Decidable False)
  | .acquiring _ => inferInstanceAs (Decidable False)
  | .acquire_woken _ => inferInstanceAs (Decidable True)
  | .waiting _ => inferInstanceAs (Decidable False)
  | .wait_woken _ => inferInstanceAs (Decidable True)

/-- `struct intq`, the threads, and the bytes that have gone through. -/
structure Intq where
  /-- `buf`, `head` and `tail`. -/
  queue : RingBuffer UInt8 INTQ_BUFSIZE
  /-- `not_empty` and `not_full`. -/
  waiter : IntqWaiter → Option Tid
  /-- `lock.holder`. -/
  holder : Option Tid
  /-- `lock.semaphore.value`. -/
  value : Nat
  /-- `lock.semaphore.waiters`. -/
  waiters : List Tid
  pc : Tid → IntqPc
  stored : List UInt8
  returned : List UInt8

theorem bufsize_pos : 0 < INTQ_BUFSIZE := by decide

/-- `intq_init`, of a queue in memory that holds `buf`. -/
def intq_init (buf : Fin INTQ_BUFSIZE → UInt8) : Intq where
  queue := ⟨buf, ⟨0, bufsize_pos⟩, ⟨0, bufsize_pos⟩⟩
  waiter := fun _ => none
  holder := none
  value := 1
  waiters := []
  pc := fun _ => .outside
  stored := []
  returned := []

namespace Intq

/-- `intq_empty` or `intq_full`: what a thread waits at. -/
def Unmet (q : Intq) : IntqWaiter → Prop
  | .not_empty => q.queue.Empty
  | .not_full => q.queue.Full

instance (q : Intq) : ∀ w, Decidable (q.Unmet w)
  | .not_empty => inferInstanceAs (Decidable q.queue.Empty)
  | .not_full => inferInstanceAs (Decidable q.queue.Full)

/-- `t` goes on at `pc`. -/
def goto (q : Intq) (t : Tid) (pc : IntqPc) : Intq := { q with pc := update q.pc t pc }

/-- `wait`, up to `thread_block`. -/
def wait (q : Intq) (t : Tid) (c : IntqCall) : Option Intq :=
  if q.Unmet c.waiter then
    some ({ q with waiter := update q.waiter c.waiter (some t) }.goto t (.waiting c))
  else none

/-- `signal`; `thread_unblock` asserts that the thread is blocked. -/
def signal (q : Intq) (w : IntqWaiter) : Option Intq :=
  if q.Unmet w then none
  else match q.waiter w with
    | none => some q
    | some t => match q.pc t with
      | .waiting c =>
        some ({ q with waiter := update q.waiter w none }.goto t (.wait_woken c))
      | _ => none

/-- The loop of `sema_down` in `lock_acquire`, from a test of the value on: the thread blocks, or
holds the lock and calls `wait`. -/
def sema_down (q : Intq) (t : Tid) (c : IntqCall) : Option Intq :=
  if q.value = 0 then some ({ q with waiters := q.waiters ++ [t] }.goto t (.acquiring c))
  else wait { q with value := q.value - 1, holder := some t } t c

/-- `lock_acquire`, and what follows. -/
def lock_acquire (q : Intq) (t : Tid) (c : IntqCall) : Option Intq :=
  if q.holder = some t then none else q.sema_down t c

/-- `sema_up`. -/
def sema_up (q : Intq) : Option Intq :=
  match q.waiters with
  | [] => some { q with value := q.value + 1 }
  | u :: rest => match q.pc u with
    | .acquiring c =>
      some ({ q with waiters := rest, value := q.value + 1 }.goto u (.acquire_woken c))
    | _ => none

/-- `lock_release`. -/
def lock_release (q : Intq) (t : Tid) : Option Intq :=
  if q.holder = some t then sema_up { q with holder := none } else none

/-- A byte is taken out of the queue or put into it. -/
def move_byte (q : Intq) : IntqCall → Intq
  | .intq_getc => { q with queue := q.queue.pop, returned := q.returned ++ [q.queue.first] }
  | .intq_putc byte => { q with queue := q.queue.push byte, stored := q.stored ++ [byte] }

/-- After the loop: the byte, and `signal` to the other side. -/
def transfer (q : Intq) (c : IntqCall) : Option Intq := (q.move_byte c).signal c.waiter.other

/-- A call by a thread, from the test of the loop on. -/
def loop (q : Intq) (t : Tid) (c : IntqCall) : Option Intq :=
  if q.Unmet c.waiter then q.lock_acquire t c else (q.goto t .outside).transfer c

/-! ### Moves -/

/-- What can happen next. -/
inductive Move where
  /-- A thread calls a function. -/
  | call (t : Tid) (c : IntqCall)
  /-- A thread that was unblocked runs again. -/
  | resume (t : Tid)
  /-- A handler calls a function. -/
  | interrupt (c : IntqCall)

def Enabled (q : Intq) : Move → Prop
  | .call t _ => q.pc t = .outside
  | .resume t => (q.pc t).Woken
  | .interrupt c => ¬ q.Unmet c.waiter

instance (q : Intq) : ∀ m, Decidable (q.Enabled m)
  | .call t _ => inferInstanceAs (Decidable (q.pc t = .outside))
  | .resume t => inferInstanceAs (Decidable (q.pc t).Woken)
  | .interrupt c => inferInstanceAs (Decidable ¬ q.Unmet c.waiter)

/-- A move; `none` if an assertion fails. -/
def perform (q : Intq) : Move → Option Intq
  | .call t c => q.loop t c
  | .resume t => match q.pc t with
    | .acquire_woken c => q.sema_down t c
    | .wait_woken c => (q.lock_release t).bind fun q => q.loop t c
    | _ => none
  | .interrupt c => q.transfer c

/-- The states that moves of `ok` lead to. -/
inductive Run (ok : Intq → Move → Prop) (q₀ : Intq) : Intq → Prop
  | start : Run ok q₀ q₀
  | move {q q' : Intq} (run : Run ok q₀ q) (m : Move) (allowed : ok q m) (enabled : q.Enabled m)
      (step : q.perform m = some q') : Run ok q₀ q'

/-- The moves of a list, one after the other. -/
def perform_all (q : Intq) (ms : List Move) : Option Intq :=
  ms.foldlM (fun q m => if q.Enabled m then q.perform m else none) q

variable {ok : Intq → Move → Prop}

theorem Run.of_perform_all {ms : List Move} (hok : ∀ m ∈ ms, ∀ q, ok q m) :
    ∀ {q₀ q q'}, Run ok q₀ q → q.perform_all ms = some q' → Run ok q₀ q' := by
  induction ms with
  | nil =>
    intro q₀ q q' h heq
    cases heq
    exact h
  | cons m ms ih =>
    intro q₀ q q' h heq
    rw [perform_all, List.foldlM_cons] at heq
    obtain ⟨q₁, hstep, hrest⟩ := Option.bind_eq_some_iff.mp heq
    split at hstep
    · exact ih (fun m hm => hok m (List.mem_cons_of_mem _ hm))
        (h.move m (hok m List.mem_cons_self q) ‹_› hstep) hrest
    · cases hstep

/-! ### Bytes in order -/

/-- The bytes in the queue are those stored and not returned. -/
def Fifo (q : Intq) : Prop := q.stored = q.returned ++ q.queue.contents

/-- `q'` has the bytes of `q`. -/
structure SameBytes (q q' : Intq) : Prop where
  queue : q'.queue = q.queue
  stored : q'.stored = q.stored
  returned : q'.returned = q.returned

variable {q q' : Intq} {t : Tid} {c : IntqCall} {w : IntqWaiter}

theorem SameBytes.fifo (h : SameBytes q q') (hq : q.Fifo) : q'.Fifo := by
  rw [Fifo, h.queue, h.stored, h.returned]
  exact hq

theorem SameBytes.unmet (h : SameBytes q q') (w : IntqWaiter) : q'.Unmet w ↔ q.Unmet w := by
  cases w with
  | not_empty => rw [Unmet, Unmet, h.queue]
  | not_full => rw [Unmet, Unmet, h.queue]

/-- `signal` finds its condition true, and wakes the waiter up if there is one. -/
theorem signal_cases (h : q.signal w = some q') : ¬ q.Unmet w ∧
    (q.waiter w = none ∧ q' = q ∨ ∃ t c, q.waiter w = some t ∧ q.pc t = .waiting c ∧
      q' = { q with waiter := update q.waiter w none }.goto t (.wait_woken c)) := by
  unfold signal at h
  split at h
  · cases h
  · refine ⟨‹_›, ?_⟩
    split at h
    · cases h
      exact .inl ⟨‹_›, rfl⟩
    · split at h
      · cases h
        exact .inr ⟨_, _, ‹_›, ‹_›, rfl⟩
      · cases h

theorem signal_same (h : q.signal w = some q') : SameBytes q q' := by
  obtain ⟨-, ⟨-, rfl⟩ | ⟨u, c, -, -, rfl⟩⟩ := signal_cases h <;> exact ⟨rfl, rfl, rfl⟩

theorem wait_same (h : q.wait t c = some q') : SameBytes q q' := by
  unfold wait at h
  split at h <;> cases h
  exact ⟨rfl, rfl, rfl⟩

theorem sema_down_same (h : q.sema_down t c = some q') : SameBytes q q' := by
  unfold sema_down at h
  split at h
  · cases h
    exact ⟨rfl, rfl, rfl⟩
  · obtain ⟨hq, hs, hr⟩ := wait_same h
    exact ⟨hq, hs, hr⟩

theorem lock_acquire_same (h : q.lock_acquire t c = some q') : SameBytes q q' := by
  unfold lock_acquire at h
  split at h
  · cases h
  · exact sema_down_same h

theorem sema_up_same (h : q.sema_up = some q') : SameBytes q q' := by
  unfold sema_up at h
  split at h
  · cases h
    exact ⟨rfl, rfl, rfl⟩
  · split at h <;> cases h
    exact ⟨rfl, rfl, rfl⟩

theorem lock_release_same (h : q.lock_release t = some q') : SameBytes q q' := by
  unfold lock_release at h
  split at h
  · obtain ⟨hq, hs, hr⟩ := sema_up_same h
    exact ⟨hq, hs, hr⟩
  · cases h

/-- A byte that is moved is put at the end, or was the first. -/
theorem move_byte_fifo (hq : q.Fifo) (hc : ¬ q.Unmet c.waiter) : (q.move_byte c).Fifo := by
  cases c with
  | intq_getc =>
    rw [Fifo, RingBuffer.contents_pop hc] at hq
    rw [Fifo, move_byte, List.append_assoc]
    exact hq
  | intq_putc byte =>
    rw [Fifo] at hq
    rw [Fifo, move_byte, hq, RingBuffer.contents_push hc, List.append_assoc]

theorem transfer_fifo (hq : q.Fifo) (hc : ¬ q.Unmet c.waiter) (h : q.transfer c = some q') :
    q'.Fifo := (signal_same h).fifo (move_byte_fifo hq hc)

theorem loop_fifo (hq : q.Fifo) (h : q.loop t c = some q') : q'.Fifo := by
  unfold loop at h
  split at h
  · exact (lock_acquire_same h).fifo hq
  · have hsame : SameBytes q (q.goto t .outside) := ⟨rfl, rfl, rfl⟩
    exact transfer_fifo (hsame.fifo hq) ((hsame.unmet _).not.mpr ‹_›) h

/-- Whatever happens, the bytes stay in order. -/
theorem perform_fifo {m : Move} (hq : q.Fifo) (he : q.Enabled m) (h : q.perform m = some q') :
    q'.Fifo := by
  cases m with
  | call t c => exact loop_fifo hq h
  | interrupt c => exact transfer_fifo hq he h
  | resume t =>
    simp only [perform] at h
    split at h
    · exact (sema_down_same h).fifo hq
    · obtain ⟨q₁, hr, hl⟩ := Option.bind_eq_some_iff.mp h
      exact loop_fifo ((lock_release_same hr).fifo hq) hl
    · cases h

theorem Run.fifo {buf : Fin INTQ_BUFSIZE → UInt8} (h : Run ok (intq_init buf) q) : q.Fifo := by
  induction h with
  | start =>
    have hempty : (intq_init buf).queue.contents = [] := (RingBuffer.empty_iff _).mp rfl
    rw [Fifo, hempty]
    rfl
  | move run m _ enabled step ih => exact perform_fifo ih enabled step

end Intq

end Pintos
