import Mathlib.Data.List.Nodup
import Mathlib.Logic.Function.Basic

/-!
# Threads — the scheduler

`thread.c` and the semaphores of `synch.c`.  The state has the threads that exist, the run queue,
the waiters of every semaphore and the thread whose stack the processor is on.  A section with
interrupts off is one move; where a section spans a thread switch, the thread switched to goes on
from the point where it lost the processor (its `Code`), and no other move is enabled until it has
turned interrupts on again.

A move is `none` where the code fails an assertion.
-/

namespace Pintos

/-- The address of a `struct thread`, the page it lies in. -/
abbrev Tid : Type := Nat

/-- `enum thread_status`. -/
inductive Status where
  | running
  | ready
  | blocked
  | dying
  deriving DecidableEq, Repr

/-- Where a thread is, as far as the scheduler can tell. -/
inductive Code (Sema : Type) where
  /-- Anywhere with interrupts on. -/
  | run
  /-- At the test of the loop of `sema_down`, with interrupts off. -/
  | sema_down (x : Sema)
  /-- At the start of `idle`. -/
  | idle_begin
  /-- In `idle`, before `sema_up`. -/
  | idle_up
  /-- In the loop of `idle`. -/
  | idle_loop
  deriving DecidableEq, Repr

/-- The thread runs `idle`. -/
def Code.idle {Sema : Type} : Code Sema → Bool
  | .idle_begin | .idle_up | .idle_loop => true
  | _ => false

/-- `struct thread`. -/
structure Thread (Sema : Type) where
  status : Status
  code : Code Sema
  /-- The thread that a `thread_create` under way has initialised and not yet unblocked. -/
  creating : Option Tid

/-- `struct semaphore`. -/
structure Semaphore where
  value : Nat
  waiters : List Tid

/-- The state of the scheduler. -/
structure Sched (Sema : Type) where
  threads : Tid → Option (Thread Sema)
  ready_list : List Tid
  idle_thread : Option Tid
  initial_thread : Tid
  /-- The thread whose stack the processor is on. -/
  cur : Tid
  sema : Sema → Semaphore
  /-- The semaphore on the stack of `thread_start`. -/
  idle_started : Sema

namespace Sched

variable {Sema : Type}

/-- `t->status`. -/
def status (s : Sched Sema) (t : Tid) : Option Status := (s.threads t).map (·.status)

/-- Where `t` is. -/
def code (s : Sched Sema) (t : Tid) : Option (Code Sema) := (s.threads t).map (·.code)

/-- The thread that `t` is creating. -/
def creating (s : Sched Sema) (t : Tid) : Option Tid := (s.threads t).bind (·.creating)

/-- `s` with the structure of `t` changed by `f`. -/
def update (s : Sched Sema) (t : Tid) (f : Thread Sema → Thread Sema) : Sched Sema :=
  { s with threads := Function.update s.threads t ((s.threads t).map f) }

/-- `t->status = status`. -/
def setStatus (s : Sched Sema) (t : Tid) (status : Status) : Sched Sema :=
  s.update t fun th => { th with status := status }

/-- `t` goes on at `code`. -/
def setCode (s : Sched Sema) (t : Tid) (code : Code Sema) : Sched Sema :=
  s.update t fun th => { th with code := code }

/-- `t` is creating `c`. -/
def setCreating (s : Sched Sema) (t : Tid) (c : Option Tid) : Sched Sema :=
  s.update t fun th => { th with creating := c }

/-- `*x = sema`. -/
def setSema [DecidableEq Sema] (s : Sched Sema) (x : Sema) (sema : Semaphore) : Sched Sema :=
  { s with sema := Function.update s.sema x sema }

/-- `palloc_free_page (t)`. -/
def free_page (s : Sched Sema) (t : Tid) : Sched Sema :=
  { s with threads := Function.update s.threads t none }

/-! ### `thread.c` -/

/-- `next_thread_to_run`. -/
def next_thread_to_run (s : Sched Sema) : Option Tid × Sched Sema :=
  match s.ready_list with
  | [] => (s.idle_thread, s)
  | t :: rest => (some t, { s with ready_list := rest })

/-- `thread_schedule_tail`, in the thread switched to. -/
def thread_schedule_tail (prev : Option Tid) (s : Sched Sema) : Sched Sema :=
  let s := s.setStatus s.cur .running
  match prev with
  | none => s
  | some p => if s.status p = some .dying ∧ p ≠ s.initial_thread then s.free_page p else s

/-- `schedule`. -/
def schedule (s : Sched Sema) : Option (Sched Sema) :=
  let r := s.next_thread_to_run
  if s.status s.cur = some .running then none
  else match r.1 with
    | none => none
    | some next =>
      if (s.threads next).isNone then none
      else if s.cur = next then some (thread_schedule_tail none r.2)
      else some (thread_schedule_tail (some s.cur) { r.2 with cur := next })

/-- `thread_block`. -/
def thread_block (s : Sched Sema) : Option (Sched Sema) := (s.setStatus s.cur .blocked).schedule

/-- `thread_unblock`. -/
def thread_unblock (s : Sched Sema) (t : Tid) : Option (Sched Sema) :=
  if s.status t = some .blocked then
    some ({ s with ready_list := s.ready_list ++ [t] }.setStatus t .ready)
  else none

/-- `thread_yield`. -/
def thread_yield (s : Sched Sema) : Option (Sched Sema) :=
  let s := if s.idle_thread = some s.cur then s
    else { s with ready_list := s.ready_list ++ [s.cur] }
  (s.setStatus s.cur .ready).schedule

/-- The end of `thread_exit`. -/
def thread_exit (s : Sched Sema) : Option (Sched Sema) := (s.setStatus s.cur .dying).schedule

/-- `init_thread` of the new page `t`, in `thread_create`. -/
def init_thread (s : Sched Sema) (t : Tid) : Sched Sema :=
  { s with threads := Function.update s.threads t (some ⟨.blocked, .run, none⟩) }.setCreating
    s.cur (some t)

/-! ### `synch.c` -/

variable [DecidableEq Sema]

/-- A turn of the loop of `sema_down`, and its end. -/
def sema_down_turn (s : Sched Sema) (x : Sema) : Option (Sched Sema) :=
  let sema := s.sema x
  if sema.value = 0 then
    (s.setSema x { sema with waiters := sema.waiters ++ [s.cur] }).thread_block
  else some ((s.setSema x { sema with value := sema.value - 1 }).setCode s.cur .run)

/-- `sema_up`. -/
def sema_up (s : Sched Sema) (x : Sema) : Option (Sched Sema) :=
  let sema := s.sema x
  match sema.waiters with
  | [] => some (s.setSema x { sema with value := (sema.value + 1) % 4294967296 })
  | t :: rest =>
    (s.setSema x ⟨(sema.value + 1) % 4294967296, rest⟩).thread_unblock t

/-! ### Moves -/

/-- What can happen next. -/
inductive Move (Sema : Type) where
  /-- `thread_yield`, called or at the end of a timer interrupt. -/
  | thread_yield
  /-- The running thread calls `sema_down`. -/
  | sema_down (x : Sema)
  /-- The running thread tests the value in the loop of `sema_down`. -/
  | sema_down_turn (x : Sema)
  /-- `sema_up`, by the running thread or by an interrupt handler. -/
  | sema_up (x : Sema)
  | thread_exit
  /-- `thread_create` up to the initialised thread. -/
  | init_thread (t : Tid)
  /-- `thread_create` from there on. -/
  | thread_unblock (t : Tid)
  /-- `idle_thread = thread_current ()`. -/
  | idle_begin
  /-- `sema_up (idle_started)`. -/
  | idle_up
  /-- `thread_block`, in the loop of `idle`. -/
  | idle_block

/-- Interrupts are on. -/
def interruptible (s : Sched Sema) : Prop := ∀ x, s.code s.cur ≠ some (.sema_down x)

/-- The move fits where the running thread is. -/
def Enabled (s : Sched Sema) : Move Sema → Prop
  | .thread_yield | .sema_up _ => s.interruptible
  | .sema_down _ => s.code s.cur = some .run
  | .sema_down_turn x => s.code s.cur = some (.sema_down x)
  | .thread_exit => s.code s.cur = some .run ∧ s.creating s.cur = none
  | .init_thread t => s.code s.cur = some .run ∧ s.creating s.cur = none ∧ s.threads t = none
  | .thread_unblock t => s.code s.cur = some .run ∧ s.creating s.cur = some t
  | .idle_begin => s.code s.cur = some .idle_begin
  | .idle_up => s.code s.cur = some .idle_up
  | .idle_block => s.code s.cur = some .idle_loop

/-- What the move does. -/
def perform (s : Sched Sema) : Move Sema → Option (Sched Sema)
  | .thread_yield => s.thread_yield
  | .sema_down x => some (s.setCode s.cur (.sema_down x))
  | .sema_down_turn x => s.sema_down_turn x
  | .sema_up x => s.sema_up x
  | .thread_exit => s.thread_exit
  | .init_thread t => some (s.init_thread t)
  | .thread_unblock t => (s.setCreating s.cur none).thread_unblock t
  | .idle_begin => some ({ s with idle_thread := some s.cur }.setCode s.cur .idle_up)
  | .idle_up => (s.setCode s.cur .idle_loop).sema_up s.idle_started
  | .idle_block => s.thread_block

/-- `thread_start` has created the idle thread and turned interrupts on. -/
def boot (main idle : Tid) (value : Sema → Nat) (idle_started : Sema) : Sched Sema where
  threads := Function.update (Function.update (fun _ => none) idle
    (some ⟨.ready, .idle_begin, none⟩)) main (some ⟨.running, .run, none⟩)
  ready_list := [idle]
  idle_thread := none
  initial_thread := main
  cur := main
  sema x := ⟨value x, []⟩
  idle_started := idle_started

/-- The states after `thread_start`. -/
inductive Reachable : Sched Sema → Prop where
  | boot {main idle : Tid} (h : main ≠ idle) (value : Sema → Nat) (idle_started : Sema) :
      Reachable (boot main idle value idle_started)
  | step {s s' : Sched Sema} (h : Reachable s) (m : Move Sema) (hm : s.Enabled m)
      (hs : s.perform m = some s') : Reachable s'

end Sched

end Pintos
