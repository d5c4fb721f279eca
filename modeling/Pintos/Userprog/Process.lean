import Pintos.Threads.SchedulerRuns

/-!
# Userprog — processes

`exec`, `exit` and `get_child` of `syscall.c`, `start_process`, `process_wait` and `process_exit` of
`process.c`, and of `thread_create` what they need, over the scheduler.  They run with interrupts
on, so that a thread can lose the processor between any two statements that touch shared data: `Pc`
is the statement a thread is at, and `System.statement` runs it.  A call of `list.c` is one
statement.

A thread is named by its `tid`, which is never reused, and so is its `struct child_process`, which
`thread_create` allocates and nothing frees.  The list `child_processes` and the two semaphores lie
in the page of the thread.  A statement that touches a page that has been released, or a null
record, is a `Fault`, and nothing moves after it.
-/

namespace Pintos
open Sched (Move)

/-- The semaphores of `struct thread`, and any others that threads block on. -/
inductive KSema where
  | sema_proc_exec (t : Tid)
  | sema_proc_wait (t : Tid)
  | other (n : Nat)
  deriving DecidableEq

/-- `CHILD_ALIVE`, `CHILD_KILLED` and `CHILD_EXITED`. -/
inductive ChildStatus where
  | alive
  | killed
  | exited
  deriving DecidableEq

/-- `CHILD_NOT_EXITED`. -/
def CHILD_NOT_EXITED : Int := 2

/-- `struct child_process`; `child_pid` and `child_proc_thread` are the name of the thread. -/
structure ChildProcess where
  cur_status : ChildStatus
  is_awaited : Bool
  is_loaded : Bool
  exit_status : Int

/-- `create_child_process`. -/
def create_child_process : ChildProcess := ⟨.alive, false, false, CHILD_NOT_EXITED⟩

/-- The statement a thread is at. -/
inductive Pc where
  /-- In user mode, or in kernel code that touches none of the shared data. -/
  | user
  /-- In `thread_create`, before `thread_unblock`; `exec` says whether `exec` is the caller. -/
  | created (c : Tid) (exec : Bool)
  /-- In `exec`, before `get_child`. -/
  | exec_get_child (c : Tid)
  /-- In `exec`, before `sema_down`. -/
  | exec_down (c : Tid)
  /-- In `exec`, inside `sema_down`. -/
  | exec_downing (c : Tid)
  /-- In `exec`, after `sema_down`. -/
  | exec_is_loaded (c : Tid)
  /-- In `process_wait`, before `get_child`. -/
  | wait_get_child (c : Tid)
  /-- In `process_wait`, before the test of `is_awaited`. -/
  | wait_is_awaited (c : Tid)
  /-- In `process_wait`, before `is_awaited = true`. -/
  | wait_set_awaited (c : Tid)
  /-- In `process_wait`, before the test of `cur_status`. -/
  | wait_cur_status (c : Tid)
  /-- In `process_wait`, before `sema_down`. -/
  | wait_down (c : Tid)
  /-- In `process_wait`, inside `sema_down`. -/
  | wait_downing (c : Tid)
  /-- In `process_wait`, before `return child->exit_status`. -/
  | wait_exit_status (c : Tid)
  /-- In `start_process`, in `load`. -/
  | load
  /-- In `start_process`, before `get_child`. -/
  | start_get_child (success : Bool)
  /-- In `start_process`, before `child->is_loaded = success`. -/
  | start_set_loaded (success : Bool)
  /-- In `start_process`, before `sema_up`. -/
  | start_up (success : Bool)
  /-- In `exit`, before `get_child`. -/
  | exit_get_child (status : Int)
  /-- In `exit`, before `child->exit_status = status`. -/
  | exit_set_status (status : Int)
  /-- In `exit`, before `child->cur_status = …`. -/
  | exit_set_cur (status : Int)
  /-- In `process_exit`, before `get_child`. -/
  | pexit_get_child
  /-- In `process_exit`, before `list_remove`. -/
  | pexit_remove
  /-- In `process_exit`, before the test of `cur_status`. -/
  | pexit_test
  /-- In `process_exit`, before `child->cur_status = CHILD_KILLED`. -/
  | pexit_set_cur
  /-- In `process_exit`, before `child->exit_status = -1`. -/
  | pexit_set_status
  /-- In `process_exit`, before `sema_up`. -/
  | pexit_up
  /-- In `thread_exit`, before the last switch. -/
  | pexit_switch
  deriving DecidableEq

/-- What stops the machine. -/
inductive Fault where
  /-- An assertion of the scheduler fails. -/
  | assertion
  /-- The thread uses the record that `get_child` did not find. -/
  | null_record (t : Tid)
  /-- The thread uses the list of its parent, whose page has been released. -/
  | dead_parent (t : Tid)
  /-- The thread uses a semaphore in a page that has been released. -/
  | dead_sema (t : Tid)
  deriving DecidableEq

/-- A call that has returned to `t`. -/
inductive Returned where
  /-- `process_execute` has created `c`. -/
  | process_execute (t c : Tid)
  /-- `exec`, which has created `c`, has returned `r`. -/
  | exec (t c : Tid) (r : Int)
  /-- `process_wait (c)` has returned `r`. -/
  | wait (t c : Tid) (r : Int)
  deriving DecidableEq

/-- The processes, and what has become of them. -/
structure System where
  sched : Sched KSema
  pc : Tid → Pc
  parent : Tid → Option Tid
  child_processes : Tid → List Tid
  record : Tid → ChildProcess
  next_tid : Tid
  fault : Option Fault
  /-- History: whether the program of the thread was loaded, once `load` has returned. -/
  loaded : Tid → Option Bool
  /-- History: the status that the thread passed to `exit`, or -1 if it was killed. -/
  ended : Tid → Option Int
  /-- History: the calls that have returned, the last first. -/
  log : List Returned

namespace System

/-- `t` goes on at `pc`. -/
def goto (s : System) (t : Tid) (pc : Pc) : System := { s with pc := Function.update s.pc t pc }

/-- The record of `t`, changed by `f`. -/
def setRecord (s : System) (t : Tid) (f : ChildProcess → ChildProcess) : System :=
  { s with record := Function.update s.record t (f (s.record t)) }

/-- The page of `t` has not been released. -/
def exists_page (s : System) (t : Tid) : Bool := (s.sched.threads t).isSome

/-- The machine stops. -/
def stop (s : System) (f : Fault) : System := { s with fault := some f }

/-- A move of the scheduler, and `k` after it. -/
def schedule (s : System) (m : Move KSema) (k : System → System) : System :=
  match s.sched.perform m with
  | some sched => k { s with sched := sched }
  | none => s.stop .assertion

/-- `process_execute`, up to the new thread in the list of its parent. -/
def process_execute (s : System) (t : Tid) (exec : Bool) : System :=
  let c := s.next_tid
  s.schedule (.init_thread c) fun s =>
    { s with
      pc := Function.update (Function.update s.pc c .load) t (.created c exec)
      parent := Function.update s.parent c (some t)
      child_processes := Function.update s.child_processes t (s.child_processes t ++ [c])
      record := Function.update s.record c create_child_process
      next_tid := c + 1 }

/-- `get_child (t, &t->parent->child_processes)` and the first use of the record. -/
def own_record (s : System) (t p : Tid) (pc : Pc) : System :=
  if s.exists_page p then
    if t ∈ s.child_processes p then s.goto t pc else s.stop (.null_record t)
  else s.stop (.dead_parent t)

/-- `list_remove (&child->proc_list_elem)`, of the record of `t` in the list of `p`. -/
def list_remove (s : System) (t p : Tid) : System :=
  { s with child_processes :=
    Function.update s.child_processes p ((s.child_processes p).erase t) }

/-- A call returns to `t`. -/
def return_to (s : System) (t : Tid) (e : Returned) : System :=
  { s with log := e :: s.log }.goto t .user

/-- `t` runs the statement it is at. -/
def statement (s : System) (t : Tid) : Pc → System
  | .created c exec => s.schedule (.thread_unblock c) fun s =>
    if exec then s.goto t (.exec_get_child c)
    else s.return_to t (.process_execute t c)
  | .exec_get_child c =>
    if c ∈ s.child_processes t then s.goto t (.exec_down c) else s.stop (.null_record t)
  | .exec_down c =>
    if s.exists_page c then
      s.schedule (.sema_down (.sema_proc_exec c)) fun s => s.goto t (.exec_downing c)
    else s.stop (.dead_sema t)
  | .exec_is_loaded c =>
    s.return_to t (.exec t c (if (s.record c).is_loaded then (c : Int) else -1))
  | .wait_get_child c =>
    if c ∈ s.child_processes t then s.goto t (.wait_is_awaited c)
    else s.return_to t (.wait t c (-1))
  | .wait_is_awaited c =>
    if (s.record c).is_awaited then s.return_to t (.wait t c (-1))
    else s.goto t (.wait_set_awaited c)
  | .wait_set_awaited c =>
    (s.setRecord c fun r => { r with is_awaited := true }).goto t (.wait_cur_status c)
  | .wait_cur_status c =>
    if (s.record c).cur_status = .alive then s.goto t (.wait_down c)
    else s.goto t (.wait_exit_status c)
  | .wait_down c =>
    if s.exists_page c then
      s.schedule (.sema_down (.sema_proc_wait c)) fun s => s.goto t (.wait_downing c)
    else s.stop (.dead_sema t)
  | .wait_exit_status c => s.return_to t (.wait t c (s.record c).exit_status)
  | .start_get_child success =>
    match s.parent t with
    | none => s.goto t (.start_up success)
    | some p => s.own_record t p (.start_set_loaded success)
  | .start_set_loaded success =>
    (s.setRecord t fun r => { r with is_loaded := success }).goto t (.start_up success)
  | .start_up success => s.schedule (.sema_up (.sema_proc_exec t)) fun s =>
    if success then s.goto t .user
    else { s with ended := Function.update s.ended t (some (-1)) }.goto t .pexit_get_child
  | .exit_get_child status =>
    match s.parent t with
    | none => s.stop (.null_record t)
    | some p => s.own_record t p (.exit_set_status status)
  | .exit_set_status status =>
    (s.setRecord t fun r => { r with exit_status := status }).goto t (.exit_set_cur status)
  | .exit_set_cur status =>
    (s.setRecord t fun r => { r with
      cur_status := if status = -1 then .killed else .exited }).goto t .pexit_get_child
  | .pexit_get_child =>
    match s.parent t with
    | none => s.goto t .pexit_up
    | some p => s.own_record t p .pexit_remove
  | .pexit_remove =>
    match s.parent t with
    | none => s.goto t .pexit_up
    | some p =>
      if s.exists_page p then (s.list_remove t p).goto t .pexit_test
      else s.stop (.dead_parent t)
  | .pexit_test =>
    if (s.record t).cur_status = .alive then s.goto t .pexit_set_cur else s.goto t .pexit_up
  | .pexit_set_cur =>
    (s.setRecord t fun r => { r with cur_status := .killed }).goto t .pexit_set_status
  | .pexit_set_status =>
    (s.setRecord t fun r => { r with exit_status := -1 }).goto t .pexit_up
  | .pexit_up => s.schedule (.sema_up (.sema_proc_wait t)) fun s => s.goto t .pexit_switch
  | .pexit_switch => s.schedule .thread_exit id
  -- the processor is in user mode, in `load` or inside `sema_down`
  | .user | .load | .exec_downing _ | .wait_downing _ => s

/-- A turn of the loop of `sema_down` in `process_wait` or `exec`, at the semaphore `x` in the page
of `c`; `pc` follows. -/
def down_turn (s : System) (t c : Tid) (x : KSema) (pc : Pc) : System :=
  if s.exists_page c then
    let v := (s.sched.sema x).value
    s.schedule (.sema_down_turn x) fun s => if v = 0 then s else s.goto t pc
  else s.stop (.dead_sema t)

/-- What can happen next. -/
inductive Act where
  /-- The running thread runs the statement it is at. -/
  | statement
  /-- The running thread tests the value in the loop of `sema_down`. -/
  | turn
  /-- The running thread calls `exec`, and the new thread has been created. -/
  | exec
  /-- The running thread calls `exec`, and there is no memory for a thread. -/
  | exec_fails
  /-- The initial thread calls `process_execute`. -/
  | process_execute
  | process_wait (c : Tid)
  /-- A process calls `exit`. -/
  | exit (status : Int)
  /-- The running thread is killed: it calls `thread_exit` without `exit`. -/
  | kill
  /-- `load` returns. -/
  | load (success : Bool)
  /-- `thread_yield`, called or at the end of a timer interrupt. -/
  | thread_yield
  | sema_down (n : Nat)
  | sema_up (n : Nat)
  | idle_begin
  | idle_up
  | idle_block
  deriving DecidableEq

/-- The move fits where the running thread is. -/
def Enabled (s : System) (a : Act) : Prop :=
  let t := s.sched.cur
  s.fault = none ∧ match a with
  | .statement => s.sched.code t = some .run ∧ s.pc t ≠ .user ∧ s.pc t ≠ .load
  | .turn => ∃ x, s.sched.code t = some (.sema_down x)
  | .exec | .exec_fails | .exit _ =>
    s.sched.code t = some .run ∧ s.pc t = .user ∧ t ≠ s.sched.initial_thread
  | .process_execute => s.sched.code t = some .run ∧ s.pc t = .user ∧ t = s.sched.initial_thread
  | .process_wait _ | .kill => s.sched.code t = some .run ∧ s.pc t = .user
  | .load _ => s.sched.code t = some .run ∧ s.pc t = .load
  | .thread_yield | .sema_up _ => s.sched.interruptible
  | .sema_down _ => s.sched.code t = some .run
  | .idle_begin => s.sched.code t = some .idle_begin
  | .idle_up => s.sched.code t = some .idle_up
  | .idle_block => s.sched.code t = some .idle_loop

/-- The turn of the running thread in `sema_down`. -/
def turn (s : System) (t : Tid) : System :=
  match s.pc t with
  | .exec_downing c => s.down_turn t c (.sema_proc_exec c) (.exec_is_loaded c)
  | .wait_downing c => s.down_turn t c (.sema_proc_wait c) (.wait_exit_status c)
  | _ =>
    match s.sched.code t with
    | some (.sema_down x) => s.schedule (.sema_down_turn x) id
    | _ => s

/-- What the move does. -/
def perform (s : System) (a : Act) : System :=
  let t := s.sched.cur
  match a with
  | .statement => s.statement t (s.pc t)
  | .turn => s.turn t
  | .exec => s.process_execute t true
  | .exec_fails => { s with ended := Function.update s.ended t (some (-1)) }.goto t
      (.exit_get_child (-1))
  | .process_execute => s.process_execute t false
  | .process_wait c => s.goto t (.wait_get_child c)
  | .exit status => { s with ended := Function.update s.ended t (some status) }.goto t
      (.exit_get_child status)
  | .kill => { s with ended := Function.update s.ended t (some (-1)) }.goto t .pexit_get_child
  | .load success => { s with loaded := Function.update s.loaded t (some success) }.goto t
      (.start_get_child success)
  | .thread_yield => s.schedule .thread_yield id
  | .sema_down n => s.schedule (.sema_down (.other n)) id
  | .sema_up n => s.schedule (.sema_up (.other n)) id
  | .idle_begin => s.schedule .idle_begin id
  | .idle_up => s.schedule .idle_up id
  | .idle_block => s.schedule .idle_block id

/-- `thread_start` has created the idle thread, a child of the initial one. -/
def boot : System where
  sched := Sched.boot 1 2 (fun _ => 0) (.other 0)
  pc _ := .user
  parent := Function.update (fun _ => none) 2 (some 1)
  child_processes := Function.update (fun _ => []) 1 [2]
  record _ := create_child_process
  next_tid := 3
  fault := none
  loaded _ := none
  ended _ := none
  log := []

/-- The states that moves lead to, each of which meets `ok` in the state before it. -/
inductive Reachable (ok : System → Act → Prop) : System → Prop where
  | boot : Reachable ok boot
  | step {s : System} (h : Reachable ok s) (a : Act) (ha : s.Enabled a) (hok : ok s a) :
      Reachable ok (s.perform a)

end System

end Pintos
