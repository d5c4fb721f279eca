import Pintos.Userprog.ProcessInv

/-!
# Userprog — what one move can do

`Base.performs` goes through the moves once.  Each keeps what holds in every run (`Base`), and its
`Outcome` says what it does to the statement that each thread is at, to the pages, to `is_awaited`
and to the history: it stops the machine (`Stops`), creates a thread (`Creates`), or takes the
running thread along an edge of the code (`Moves`).  The results about whole runs are inductions
over it.
-/

namespace Pintos
open Function
open Sched (Move)

/-- The statements that can follow. -/
def Pc.Flows : Pc → Pc → Prop
  | .user, b => (∃ c, b = .wait_get_child c) ∨ (∃ st, b = .exit_get_child st) ∨ b = .pexit_get_child
  | .created c exec, b => b = if exec then .exec_get_child c else .user
  | .exec_get_child c, b => b = .exec_down c
  | .exec_down c, b => b = .exec_downing c
  | .exec_downing c, b => b = .exec_is_loaded c
  | .exec_is_loaded _, b => b = .user
  | .wait_get_child c, b => b = .wait_is_awaited c ∨ b = .user
  | .wait_is_awaited c, b => b = .wait_set_awaited c ∨ b = .user
  | .wait_set_awaited c, b => b = .wait_cur_status c
  | .wait_cur_status c, b => b = .wait_down c ∨ b = .wait_exit_status c
  | .wait_down c, b => b = .wait_downing c
  | .wait_downing c, b => b = .wait_exit_status c
  | .wait_exit_status _, b => b = .user
  | .load, b => ∃ x, b = .start_get_child x
  | .start_get_child x, b => b = .start_set_loaded x ∨ b = .start_up x
  | .start_set_loaded x, b => b = .start_up x
  | .start_up x, b => b = if x then .user else .pexit_get_child
  | .exit_get_child st, b => b = .exit_set_status st
  | .exit_set_status st, b => b = .exit_set_cur st
  | .exit_set_cur _, b => b = .pexit_get_child
  | .pexit_get_child, b => b = .pexit_remove ∨ b = .pexit_up
  | .pexit_remove, b => b = .pexit_test ∨ b = .pexit_up
  | .pexit_test, b => b = .pexit_set_cur ∨ b = .pexit_up
  | .pexit_set_cur, b => b = .pexit_set_status
  | .pexit_set_status, b => b = .pexit_up
  | .pexit_up, b => b = .pexit_switch
  | .pexit_switch, _ => False

/-- The thread is not at a statement of its own. -/
def Pc.idles : Pc → Bool
  | .user | .load | .exec_downing _ | .wait_downing _ => true
  | _ => false

/-- The statement is reached without a call that returns, and says nothing about another thread. -/
def Pc.simple : Pc → Bool
  | .user | .wait_cur_status _ | .wait_down _ | .exec_downing _ | .wait_downing _ => false
  | _ => true

theorem Pc.Flows.listed {pc b : Pc} (h : pc.Flows b) (hb : b.listed) : pc.listed := by
  cases pc <;> first | rfl | (simp only [Pc.Flows] at h <;> grind [Pc.listed])

/-- The edges into `exec`. -/
theorem Pc.Flows.exec {pc b : Pc} {c : Tid} (h : pc.Flows b) : (∀ x, b ≠ .created c x) ∧
    (b = .exec_get_child c → pc = .created c true) ∧ (b = .exec_down c → pc = .exec_get_child c) ∧
    (b = .exec_downing c → pc = .exec_down c) := by
  cases pc <;> simp only [Pc.Flows] at h <;> grind

namespace System

/-- The statement that the running thread is at makes the machine stop. -/
def Stops (s : System) : Fault → Prop
  | .assertion => False
  | .null_record t => t = s.sched.cur ∧
      ((∃ c, s.pc t = .exec_get_child c ∧ c ∉ s.child_processes t) ∨
        (s.pc t).listed ∧ (s.pc t).active = false)
  | .dead_parent t => t = s.sched.cur ∧ (s.pc t).listed ∧
      ∃ p, s.parent t = some p ∧ s.sched.code p = none
  | .dead_sema t => t = s.sched.cur ∧ ∃ c, s.sched.code c = none ∧
      (s.pc t = .exec_down c ∨ s.pc t = .exec_downing c ∨ s.pc t = .wait_down c ∨
        s.pc t = .wait_downing c)

/-- A call of the running thread returns. -/
def Returns (s : System) : Returned → Prop
  | .process_execute t c => t = s.sched.cur ∧ s.pc t = .created c false
  | .exec t c r => t = s.sched.cur ∧ s.pc t = .exec_is_loaded c ∧
      r = if (s.record c).is_loaded then (c : Int) else -1
  | .wait t c r => t = s.sched.cur ∧
      (s.pc t = .wait_get_child c ∧ c ∉ s.child_processes t ∧ r = -1 ∨
        s.pc t = .wait_is_awaited c ∧ (s.record c).is_awaited ∧ r = -1 ∨
        s.pc t = .wait_exit_status c ∧ r = (s.record c).exit_status)

/-- The running thread goes on to the next statement, or nothing but the scheduler moves. -/
structure Moves (s : System) (a : Act) (s' : System) : Prop where
  fault : s'.fault = s.fault
  next : s'.next_tid = s.next_tid
  parent : s'.parent = s.parent
  initial : s'.sched.initial_thread = s.sched.initial_thread
  others : ∀ u, u ≠ s.sched.cur → s'.pc u = s.pc u
  code : ∀ u, s'.sched.code u = none → s.sched.code u = none ∨
    u = s.sched.cur ∧ u ≠ s.sched.initial_thread ∧ a = .statement ∧ s.pc u = .pexit_switch
  flows : s'.pc s.sched.cur = s.pc s.sched.cur ∨
    (s.pc s.sched.cur).Flows (s'.pc s.sched.cur) ∧ (a = .statement ∨ (s.pc s.sched.cur).idles)
  listed : (s.pc s.sched.cur).listed → (s'.pc s.sched.cur).listed ∨ s.parent s.sched.cur = none ∨
    s.pc s.sched.cur = .pexit_remove
  alive : ∀ c, s'.pc s.sched.cur = .wait_down c → s.pc s.sched.cur = .wait_down c ∨
    (s.record c).cur_status = .alive
  page : ∀ c, s'.pc s.sched.cur = .exec_downing c ∨ s'.pc s.sched.cur = .wait_downing c →
    s'.pc s.sched.cur = s.pc s.sched.cur ∨ s.sched.code c ≠ none
  awaited : ∀ c, (s'.record c).is_awaited = ((s.record c).is_awaited ||
    decide (s.pc s.sched.cur = .wait_set_awaited c ∧ s'.pc s.sched.cur = .wait_cur_status c))
  log : s'.log = s.log ∧ (s'.pc s.sched.cur = .user → s.pc s.sched.cur = .user ∨
      ∃ x, s.pc s.sched.cur = .start_up x) ∨
    ∃ e, s'.log = e :: s.log ∧ s.Returns e ∧ s'.pc s.sched.cur = .user ∧ a = .statement

/-- What a move comes to. -/
inductive Outcome (s : System) (a : Act) (s' : System) : Prop where
  | stops (f : Fault) (hf : s.Stops f) (hs : s' = s.stop f)
  | moves (h : s.Moves a s')
  | creates (exec : Bool) (h : Creates s s' s.sched.cur exec)
      (hsame : s'.fault = s.fault ∧ s'.log = s.log ∧
        s'.sched.initial_thread = s.sched.initial_thread)

/-- The move keeps what holds, and comes to something. -/
structure Performs (s : System) (act : Act) (s' : System) : Prop where
  base : s'.Base
  outcome : Outcome s act s'

variable {s s' : System} {act : Act} {a b : Pc} {c : Tid} {x : KSema} {sc : Sched KSema}

/-- A thread that is in a list has been there. -/
theorem Moves.listed_before (h : s.Moves act s') (hl : (s'.pc c).listed) : (s.pc c).listed := by
  by_cases hc : c = s.sched.cur
  · subst hc
    obtain he | ⟨hf, -⟩ := h.flows
    · rwa [he] at hl
    · exact hf.listed hl
  · rwa [h.others c hc] at hl

/-- Nothing follows the last switch. -/
theorem Moves.stays (h : s.Moves act s') (hpc : s.pc s.sched.cur = .pexit_switch) :
    s'.pc s.sched.cur = .pexit_switch := by
  obtain he | ⟨hf, -⟩ := h.flows
  · exact he.trans hpc
  · rw [hpc] at hf
    cases hf

/-- Nothing but the scheduler moves. -/
theorem Moves.sched (hinit : sc.initial_thread = s.sched.initial_thread)
    (hcode : ∀ u, sc.code u = none → s.sched.code u = none ∨
      u = s.sched.cur ∧ u ≠ s.sched.initial_thread ∧ act = .statement ∧ s.pc u = .pexit_switch) :
    s.Moves act { s with sched := sc } where
  fault := rfl
  next := rfl
  parent := rfl
  initial := hinit
  others _ _ := rfl
  code := hcode
  flows := .inl rfl
  listed := .inl
  alive _ := .inl
  page _ _ := .inl rfl
  awaited c := by
    have hne : ¬ (s.pc s.sched.cur = .wait_set_awaited c ∧ s.pc s.sched.cur = .wait_cur_status c) :=
      fun ⟨h, h'⟩ => nomatch h.symm.trans h'
    simp [hne]
  log := .inl ⟨rfl, .inl⟩

theorem Moves.same (hsame : Sched.Same s.sched sc) : s.Moves act { s with sched := sc } :=
  .sched hsame.initial fun _ hu => .inl (hsame.code ▸ hu)

section Step

variable (hs : Step s s' s.sched.cur a b)
include hs

/-- The running thread goes on at `b`. -/
theorem Moves.goto (hfault : s'.fault = s.fault)
    (hsched : s'.sched.initial_thread = s.sched.initial_thread ∧
      ∀ u, s'.sched.code u = none → s.sched.code u = none)
    (hflows : a.Flows b) (hact : act = .statement ∨ a.idles)
    (hlisted : (s.parent s.sched.cur = none ∨ b.listed = a.listed) ∨ a = .pexit_remove)
    (halive : ∀ c, b = .wait_down c → (s.record c).cur_status = .alive)
    (hpage : ∀ c, b = .exec_downing c ∨ b = .wait_downing c → s.sched.code c ≠ none)
    (hawaited : ∀ c, (s'.record c).is_awaited = ((s.record c).is_awaited ||
      decide (a = .wait_set_awaited c ∧ b = .wait_cur_status c)))
    (hlog : s'.log = s.log ∧ (b = .user → a = .user ∨ ∃ x, a = .start_up x) ∨
      ∃ e, s'.log = e :: s.log ∧ s.Returns e ∧ b = .user ∧ act = .statement) : s.Moves act s' := by
  have hcur : s'.pc s.sched.cur = b := (hs.pc _).trans (if_pos rfl)
  refine ⟨hfault, hs.next, hs.parent, hsched.1, fun u hu => (hs.pc u).trans (if_neg hu),
    fun u hu => .inl (hsched.2 u hu), .inr ⟨?_, hs.here ▸ hact⟩, fun hl => ?_,
    fun c hc => .inr (halive c (hcur ▸ hc)), fun c hc => .inr (hpage c (hcur ▸ hc)), ?_, ?_⟩
  · rw [hs.here, hcur]
    exact hflows
  · rw [hs.here] at hl ⊢
    grind
  · rw [hs.here, hcur]
    exact hawaited
  · rw [hs.here, hcur]
    exact hlog

/-- The running thread goes on at a statement that says nothing about another thread. -/
theorem Moves.plain (hsame : s'.fault = s.fault ∧ s'.log = s.log)
    (hsched : s'.sched.initial_thread = s.sched.initial_thread ∧
      ∀ u, s'.sched.code u = none → s.sched.code u = none)
    (hflows : a.Flows b) (hact : act = .statement ∨ a.idles)
    (hlisted : (s.parent s.sched.cur = none ∨ b.listed = a.listed) ∨ a = .pexit_remove)
    (hb : b.simple) (hawaited : ∀ c, (s'.record c).is_awaited = (s.record c).is_awaited) :
    s.Moves act s' := by
  refine .goto hs hsame.1 hsched hflows hact hlisted ?_ ?_ (fun c => ?_) (.inl ⟨hsame.2, ?_⟩)
  · rintro c rfl
    cases hb
  · rintro c (rfl | rfl) <;> cases hb
  · have hne : ¬ (a = .wait_set_awaited c ∧ b = .wait_cur_status c) := by
      rintro ⟨-, rfl⟩
      cases hb
    simp [hawaited, hne]
  · rintro rfl
    cases hb

end Step

/-! ### Statements -/

theorem exists_page_iff : s.exists_page c ↔ s.sched.code c ≠ none := by
  simp [System.exists_page, Sched.code, Option.isSome_iff_ne_none]

section Statement

variable (h : s.Base) (hrun : s.sched.code s.sched.cur = some .run) (hpc : s.pc s.sched.cur = a)
include h

theorem Base.performs_stop {f : Fault} (hf : s.Stops f) : Performs s act (s.stop f) :=
  ⟨h.stop f, .stops f hf rfl⟩

include hrun hpc

/-- A statement that only reads goes on at `b`. -/
theorem Base.performs_goto (hflows : a.Flows b) (hfrom : a.quiet) (hto : b.apart) (hb : b.simple)
    (hlisted : s.parent s.sched.cur = none ∨ b.listed = a.listed) (hstarted : b.started = a.started)
    (hown : ∀ p, s.parent s.sched.cur = some p → s.OwnAt s.sched.cur a → s.OwnAt s.sched.cur b) :
    Performs s .statement (s.goto s.sched.cur b) :=
  ⟨h.goto hrun hpc hfrom hto hlisted hstarted hown,
    .moves (.plain (h.shape.goes s.sched b (by rw [hrun]; nofun) hpc) ⟨rfl, rfl⟩ ⟨rfl, fun _ => id⟩
      hflows (.inl rfl) (.inl hlisted) hb fun _ => rfl)⟩

/-- `get_child` for the own record. -/
theorem Base.performs_own_record {p : Tid} (hp : s.parent s.sched.cur = some p) (hflows : a.Flows b)
    (ha : a.quiet ∧ a.listed ∧ a.active = false) (hb : b.apart ∧ b.simple ∧ b.listed)
    (hstarted : b.started = a.started)
    (hown : ∀ p, s.parent s.sched.cur = some p → s.OwnAt s.sched.cur a → s.OwnAt s.sched.cur b) :
    Performs s .statement (s.own_record s.sched.cur p b) := by
  unfold System.own_record
  split
  · split
    · exact h.performs_goto hrun hpc hflows ha.1 hb.1 hb.2.1 (.inr (hb.2.2.trans ha.2.1.symm))
        hstarted hown
    · exact h.performs_stop (f := .null_record _) ⟨rfl, .inr (hpc ▸ ha.2)⟩
  · rename_i hpage
    exact h.performs_stop (f := .dead_parent _)
      ⟨rfl, hpc ▸ ha.2.1, p, hp, not_not.mp (hpage ∘ exists_page_iff.mpr)⟩

/-- A statement writes to the own record and goes on at `b`. -/
theorem Base.performs_write {f : ChildProcess → ChildProcess}
    (hf : ∀ r, (f r).is_awaited = r.is_awaited ∧
      (r.cur_status ≠ .alive → (f r).cur_status ≠ .alive)) (hflows : a.Flows b) (hfrom : a.quiet)
    (hto : b.apart) (hb : b.simple) (hlisted : b.listed = a.listed) (hstarted : b.started = a.started)
    (hown : ∀ p, s.parent s.sched.cur = some p → s.OwnAt s.sched.cur a →
      Own b (f (s.record s.sched.cur)) (s.ended s.sched.cur) (s.loaded s.sched.cur))
    (hloaded : b.started → (f (s.record s.sched.cur)).is_loaded =
      (s.record s.sched.cur).is_loaded) :
    Performs s .statement ((s.setRecord s.sched.cur f).goto s.sched.cur b) := by
  refine ⟨h.write_own hrun hf hpc hfrom hto hlisted hstarted hown hloaded,
    .moves (.plain ⟨hpc, pc_goto, rfl, rfl, h.shape.born_of_run hrun⟩ ⟨rfl, rfl⟩
      ⟨rfl, fun _ => id⟩ hflows (.inl rfl) (.inl (.inr hlisted)) hb fun c => ?_)⟩
  show ((s.setRecord _ f).record c).is_awaited = _
  rw [record_setRecord]
  split
  · rename_i hc
    rw [(hf _).1, hc]
  · rfl

/-- A call returns. -/
theorem Base.performs_return {e : Returned} (he : s.Returns e) (hflows : a.Flows .user)
    (hfrom : a.quiet) (ha : a.active) : Performs s .statement (s.return_to s.sched.cur e) :=
  ⟨h.return_to hrun hpc hfrom ha,
    .moves (.goto ⟨hpc, pc_goto, rfl, rfl, h.shape.born_of_run hrun⟩ rfl ⟨rfl, fun _ => id⟩ hflows
      (.inl rfl) (.inl (.inr (Pc.listed_of_active ha).symm)) nofun nofun
      (fun c => by simp [System.return_to, System.goto]) (.inr ⟨e, rfl, he, rfl, rfl⟩))⟩

/-- A statement of `process_wait` that only reads. -/
theorem Base.performs_wait (hflows : a.Flows b) (hfrom : a.quiet) (ha : a.active) (hto : b.quiet)
    (hb : b.waiting = some c) (hsimple : b.simple) (hparent : s.parent c = some s.sched.cur)
    (hset : b = .wait_set_awaited c → (s.record c).is_awaited = false)
    (hdone : b = .wait_exit_status c → (s.record c).cur_status ≠ .alive) :
    Performs s .statement (s.goto s.sched.cur b) := by
  refine ⟨h.wait_goto hrun hpc hfrom ha hto hb hparent hset (fun hc => ?_) hdone,
    .moves (.plain (h.shape.goes s.sched b (by rw [hrun]; nofun) hpc) ⟨rfl, rfl⟩ ⟨rfl, fun _ => id⟩
      hflows (.inl rfl) (.inl (.inr ?_)) hsimple fun _ => rfl)⟩
  · cases b <;> first | cases hsimple; done | cases hc
  · rw [Pc.listed_of_active ha, Pc.listed_of_active (Pc.active_of_waiting hb)]

end Statement

/-- `sema_down` is called, in `exec` or `process_wait`. -/
theorem Moves.enter (h : s.Base) (hrun : s.sched.code s.sched.cur = some .run)
    (hpc : s.pc s.sched.cur = a) (hflows : a.Flows b) (hlisted : b.listed = a.listed)
    (hb : b = .exec_downing c ∨ b = .wait_downing c) (hpage : s.exists_page c) :
    s.Moves .statement
      ({ s with sched := s.sched.setCode s.sched.cur (.sema_down x) }.goto s.sched.cur b) := by
  obtain ⟨hcode, -⟩ := Sched.setCode_frame (s := s.sched) (c := .sema_down x) (by rw [hrun]; nofun)
  have hne : (∀ c, b ≠ .wait_down c ∧ b ≠ .wait_cur_status c) ∧ b ≠ .user := by
    obtain rfl | rfl := hb <;> simp
  refine .goto (h.shape.goes _ b (by rw [hrun]; nofun) hpc) rfl ⟨rfl, fun u hu => ?_⟩ hflows
    (.inl rfl) (.inl (.inr hlisted)) (fun e he => absurd he (hne.1 e).1) (fun e he => ?_)
    (fun e => by simp [System.goto, (hne.1 e).2]) (.inl ⟨rfl, fun he => absurd he hne.2⟩)
  · replace hu : (s.sched.setCode s.sched.cur (.sema_down x)).code u = none := hu
    rw [hcode, update_apply] at hu
    grind
  · have hc := exists_page_iff.mp hpage
    grind

/-- What a statement comes to. -/
theorem Base.performs_statement {pc : Pc} (h : s.Base)
    (hrun : s.sched.code s.sched.cur = some .run) (hpc : s.pc s.sched.cur = pc) :
    Performs s .statement (s.statement s.sched.cur pc) := by
  have hcur : s.sched.code s.sched.cur ≠ none := by simp [hrun]
  have hup : ∀ x, s.sched.Enabled (.sema_up x) := fun x y => by simp [hrun]
  have hsema : ∀ {c}, ¬ s.exists_page c → s.sched.code c = none := fun hpage =>
    not_not.mp (hpage ∘ exists_page_iff.mpr)
  cases pc with
  | user | load | exec_downing _ | wait_downing _ => exact ⟨h, .moves (.same (.refl _))⟩
  | created c exec =>
    obtain ⟨sc, hsc, hinv, heq⟩ := h.shape.schedule (m := .thread_unblock c)
      ⟨hrun, (h.shape.creating _ c).mpr ⟨exec, hpc⟩⟩
    obtain ⟨hcode, -, -, hinit, -⟩ := Sched.create_unblock_frame hsc
    simp only [System.statement, heq]
    cases exec with
    | true =>
      have hs := h.shape.goes sc (.exec_get_child c) hcur hpc
      exact ⟨h.created hs hinv hrun hsc ⟨rfl, rfl, rfl, rfl⟩ (.inr ⟨rfl, rfl⟩),
        .moves (.plain hs ⟨rfl, rfl⟩ ⟨hinit, fun u hu => hcode ▸ hu⟩ rfl (.inl rfl) (.inl (.inr rfl))
          rfl fun _ => rfl)⟩
    | false =>
      have hs : Step s ({ s with sched := sc }.return_to _ (.process_execute s.sched.cur c)) _
          (.created c false) .user := { h.shape.goes sc .user hcur hpc with }
      exact ⟨h.created hs hinv hrun hsc ⟨rfl, rfl, rfl, rfl⟩ (.inl rfl),
        .moves (.goto hs rfl ⟨hinit, fun u hu => hcode ▸ hu⟩ rfl (.inl rfl) (.inl (.inr rfl)) (by simp)
          (by simp) (fun e => by simp [System.return_to, System.goto])
          (.inr ⟨_, rfl, ⟨rfl, hpc⟩, rfl, rfl⟩))⟩
  | exec_get_child c =>
    simp only [System.statement]
    split
    · exact ⟨h.exec_found hrun hpc, .moves (.plain (h.shape.goes s.sched _ hcur hpc) ⟨rfl, rfl⟩
        ⟨rfl, fun _ => id⟩ rfl (.inl rfl) (.inl (.inr rfl)) rfl fun _ => rfl)⟩
    · rename_i hc
      exact h.performs_stop (f := .null_record _) ⟨rfl, .inl ⟨c, hpc, hc⟩⟩
  | exec_down c =>
    simp only [System.statement]
    split
    · rename_i hpage
      obtain ⟨sc, hsc, hinv, heq⟩ := h.shape.schedule (m := .sema_down (.sema_proc_exec c)) hrun
      cases hsc
      rw [heq]
      exact ⟨h.enter_exec hrun hpc hinv rfl, .moves (.enter h hrun hpc rfl rfl (.inl rfl) hpage)⟩
    · rename_i hpage
      exact h.performs_stop (f := .dead_sema _) ⟨rfl, c, hsema hpage, .inl hpc⟩
  | exec_is_loaded c => exact h.performs_return hrun hpc ⟨rfl, hpc, rfl⟩ rfl rfl rfl
  | wait_get_child c =>
    simp only [System.statement]
    split
    · rename_i hc
      exact h.performs_wait hrun hpc (.inl rfl) rfl rfl rfl rfl rfl ((h.shape.listed _ c).mp hc).1
        (by simp) (by simp)
    · rename_i hc
      exact h.performs_return hrun hpc ⟨rfl, .inl ⟨hpc, hc, rfl⟩⟩ (.inr rfl) rfl rfl
  | wait_is_awaited c =>
    simp only [System.statement]
    split
    · rename_i hw
      exact h.performs_return hrun hpc ⟨rfl, .inr (.inl ⟨hpc, hw, rfl⟩)⟩ (.inr rfl) rfl rfl
    · rename_i hw
      exact h.performs_wait hrun hpc (.inl rfl) rfl rfl rfl rfl rfl
        (h.wait.waiting _ c (by rw [hpc]; rfl)) (fun _ => Bool.eq_false_iff.mpr hw) (by simp)
  | wait_set_awaited c =>
    have hp := h.wait.waiting s.sched.cur c (by rw [hpc]; rfl)
    refine ⟨h.wait_step hrun (fun _ => .inr ⟨rfl, rfl⟩) hpc rfl rfl rfl rfl hp (by simp)
        (fun _ => ⟨rfl, .inr (h.wait.set_awaited _ c hpc)⟩) (by simp),
      .moves (.goto ⟨hpc, pc_goto, rfl, rfl, h.shape.born_of_run hrun⟩ rfl ⟨rfl, fun _ => id⟩ rfl
        (.inl rfl) (.inl (.inr rfl)) (by simp) (by simp) (fun e => ?_) (.inl ⟨rfl, by simp⟩))⟩
    show ((s.setRecord c fun r => { r with is_awaited := true }).record e).is_awaited = _
    rw [record_setRecord]
    by_cases he : e = c
    · simp [he]
    · simp [he, Ne.symm he]
  | wait_cur_status c =>
    have hp := h.wait.waiting s.sched.cur c (by rw [hpc]; rfl)
    simp only [System.statement]
    split
    · rename_i halive
      refine ⟨h.wait_goto hrun hpc rfl rfl rfl rfl hp (by simp)
          (fun _ => ⟨h.wait.awaiting _ c (by rw [hpc]; rfl), .inl rfl⟩) (by simp),
        .moves (.goto (h.shape.goes s.sched _ hcur hpc) rfl ⟨rfl, fun _ => id⟩ (.inl rfl) (.inl rfl)
          (.inl (.inr rfl)) (fun e he => ?_) (by simp) (fun e => by simp [System.goto])
          (.inl ⟨rfl, by simp⟩))⟩
      cases he
      exact halive
    · rename_i hdead
      exact h.performs_wait hrun hpc (.inr rfl) rfl rfl rfl rfl rfl hp (by simp) fun _ => hdead
  | wait_down c =>
    simp only [System.statement]
    split
    · rename_i hpage
      obtain ⟨sc, hsc, hinv, heq⟩ := h.shape.schedule (m := .sema_down (.sema_proc_wait c)) hrun
      cases hsc
      rw [heq]
      exact ⟨h.enter_wait hrun hpc hinv rfl, .moves (.enter h hrun hpc rfl rfl (.inr rfl) hpage)⟩
    · rename_i hpage
      exact h.performs_stop (f := .dead_sema _)
        ⟨rfl, c, hsema hpage, .inr (.inr (.inl hpc))⟩
  | wait_exit_status c =>
    exact h.performs_return hrun hpc ⟨rfl, .inr (.inr ⟨hpc, rfl⟩)⟩ rfl rfl rfl
  | start_get_child x =>
    simp only [System.statement]
    split
    · rename_i hp
      exact h.performs_goto hrun hpc (.inr rfl) rfl rfl rfl (.inl hp) rfl
        (by simp [hp])
    · rename_i p hp
      exact h.performs_own_record hrun hpc hp (.inl rfl) ⟨rfl, rfl, rfl⟩ ⟨rfl, rfl, rfl⟩ rfl
        fun _ _ => id
  | start_set_loaded x =>
    exact h.performs_write hrun hpc (fun _ => ⟨rfl, id⟩) rfl rfl rfl rfl rfl rfl
      (fun _ _ ho => ⟨ho.1, ho.2.1, ho.2.2, rfl⟩) fun hb => absurd hb Bool.false_ne_true
  | start_up x =>
    obtain ⟨sc, hsc, hinv, heq⟩ := h.shape.schedule (hup (.sema_proc_exec s.sched.cur))
    obtain ⟨hsame, -⟩ := Sched.sema_up_frame hsc
    simp only [System.statement, heq]
    cases x with
    | true =>
      have hs := h.shape.goes sc .user hcur hpc
      exact ⟨h.start_up hs hinv hsc hrun ⟨rfl, rfl, rfl, fun _ _ => rfl⟩ (.inl ⟨rfl, rfl⟩),
        .moves (.goto hs rfl ⟨hsame.initial, fun u hu => hsame.code ▸ hu⟩ rfl (.inl rfl)
          (.inl (.inr rfl)) (by simp) (by simp) (fun e => by simp [System.goto])
          (.inl ⟨rfl, fun _ => .inr ⟨true, rfl⟩⟩))⟩
    | false =>
      have hs : Step s ({ s with sched := sc, ended := update s.ended s.sched.cur (some (-1)) }.goto
          s.sched.cur .pexit_get_child) _ (.start_up false) .pexit_get_child :=
        { h.shape.goes sc .pexit_get_child hcur hpc with }
      exact ⟨h.start_up hs hinv hsc hrun ⟨rfl, rfl, rfl, fun c hc => update_of_ne hc ..⟩
          (.inr ⟨rfl, update_self ..⟩),
        .moves (.plain hs ⟨rfl, rfl⟩ ⟨hsame.initial, fun u hu => hsame.code ▸ hu⟩ rfl (.inl rfl)
          (.inl (.inr rfl)) rfl fun _ => rfl)⟩
  | exit_get_child st =>
    simp only [System.statement]
    split
    · exact h.performs_stop (f := .null_record _) ⟨rfl, .inr (by rw [hpc]; exact ⟨rfl, rfl⟩)⟩
    · rename_i p hp
      exact h.performs_own_record hrun hpc hp rfl ⟨rfl, rfl, rfl⟩ ⟨rfl, rfl, rfl⟩ rfl fun _ _ => id
  | exit_set_status st =>
    exact h.performs_write hrun hpc (fun _ => ⟨rfl, id⟩) rfl rfl rfl rfl rfl rfl
      (fun _ _ ho => ⟨ho.1, ho.2, rfl⟩) fun _ => rfl
  | exit_set_cur st =>
    have hne : (if st = -1 then ChildStatus.killed else .exited) ≠ .alive := by
      split <;> simp
    exact h.performs_write hrun hpc (fun _ => ⟨rfl, fun _ => hne⟩) rfl rfl rfl rfl rfl rfl
      (fun _ _ ho => (ho.2.1.trans (congrArg some ho.2.2.symm)).trans (if_neg hne).symm)
      fun _ => rfl
  | pexit_get_child =>
    simp only [System.statement]
    split
    · rename_i hp
      exact h.performs_goto hrun hpc (.inr rfl) rfl rfl rfl (.inl hp) rfl
        (by simp [hp])
    · rename_i p hp
      exact h.performs_own_record hrun hpc hp (.inl rfl) ⟨rfl, rfl, rfl⟩ ⟨rfl, rfl, rfl⟩ rfl
        fun _ _ => id
  | pexit_remove =>
    simp only [System.statement]
    split
    · rename_i hp
      exact h.performs_goto hrun hpc (.inr rfl) rfl rfl rfl (.inl hp) rfl
        (by simp [hp])
    · rename_i p hp
      split
      · exact ⟨h.list_remove hrun hpc hp,
          .moves (.plain ⟨hpc, pc_goto, rfl, rfl, h.shape.born_of_run hrun⟩ ⟨rfl, rfl⟩
            ⟨rfl, fun _ => id⟩ (.inl rfl) (.inl rfl) (.inr rfl) rfl fun _ => rfl)⟩
      · rename_i hpage
        exact h.performs_stop (f := .dead_parent _) ⟨rfl, by rw [hpc]; rfl, p, hp, hsema hpage⟩
  | pexit_test =>
    simp only [System.statement]
    split
    · rename_i ha
      exact h.performs_goto hrun hpc (.inl rfl) rfl rfl rfl (.inr rfl) rfl
        fun _ _ ho => ⟨ha, ho.trans (if_pos ha)⟩
    · rename_i ha
      exact h.performs_goto hrun hpc (.inr rfl) rfl rfl rfl (.inr rfl) rfl
        fun _ _ ho => ⟨ha, ho.trans (if_neg ha)⟩
  | pexit_set_cur =>
    exact h.performs_write hrun hpc (fun _ => ⟨rfl, by simp⟩) rfl rfl rfl rfl rfl rfl
      (fun _ _ ho => ⟨rfl, ho.2⟩) fun _ => rfl
  | pexit_set_status =>
    exact h.performs_write hrun hpc (fun _ => ⟨rfl, id⟩) rfl rfl rfl rfl rfl rfl
      (fun _ _ ho => ⟨by simp [ho.1], ho.2⟩) fun _ => rfl
  | pexit_up =>
    obtain ⟨sc, hsc, hinv, heq⟩ := h.shape.schedule (hup (.sema_proc_wait s.sched.cur))
    obtain ⟨hsame, -⟩ := Sched.sema_up_frame hsc
    simp only [System.statement, heq]
    exact ⟨h.pexit_up hinv hsc hrun hpc, .moves (.plain (h.shape.goes sc _ hcur hpc) ⟨rfl, rfl⟩
      ⟨hsame.initial, fun u hu => hsame.code ▸ hu⟩ rfl (.inl rfl) (.inl (.inr rfl)) rfl
      fun _ => rfl)⟩
  | pexit_switch =>
    have hcreating := h.shape.not_creating (t := s.sched.cur) (by simp [hpc])
    obtain ⟨sc, hsc, hinv, heq⟩ := h.shape.schedule (m := .thread_exit) ⟨hrun, hcreating⟩
    obtain ⟨-, -, hinit, -, hcode⟩ := Sched.thread_exit_frame hsc hcreating
    simp only [System.statement, heq]
    refine ⟨h.thread_exit hinv hsc hpc hrun, .moves (.sched hinit fun u hu => ?_)⟩
    obtain hcode | ⟨hne, hcode⟩ := hcode
    · exact .inl (hcode ▸ hu)
    · by_cases he : u = s.sched.cur
      · subst he
        exact .inr ⟨rfl, hne, rfl, hpc⟩
      · rw [hcode, update_of_ne he] at hu
        exact .inl hu

/-! ### Turns of `sema_down` -/

/-- A turn of `sema_down` that finds the value zero. -/
theorem Base.performs_zero (h : s.Base) (hinv : sc.Inv (some sc.cur))
    (hcode : s.sched.code s.sched.cur = some (.sema_down x))
    (hturn : s.sched.sema_down_turn x = some sc) (hv : (s.sched.sema x).value = 0) :
    Performs s act { s with sched := sc } :=
  ⟨h.turn_zero hinv hcode hturn hv, .moves (.same (Sched.sema_down_turn_zero hturn hv).1)⟩

/-- A turn of `sema_down` in `exec` or `process_wait`. -/
theorem Base.performs_down_turn (h : s.Base)
    (hcode : s.sched.code s.sched.cur = some (.sema_down x)) (hpc : s.pc s.sched.cur = a)
    (hb : a = .exec_downing c ∧ b = .exec_is_loaded c ∧ x = .sema_proc_exec c ∨
      a = .wait_downing c ∧ b = .wait_exit_status c ∧ x = .sema_proc_wait c) :
    Performs s act (s.down_turn s.sched.cur c x b) := by
  have hcur : s.sched.code s.sched.cur ≠ none := by rw [hcode]; nofun
  obtain ⟨sc, hsc, hinv, heq⟩ := h.shape.schedule (m := .sema_down_turn x) hcode
  unfold System.down_turn
  split
  · simp only [heq]
    split
    · rename_i hv
      exact h.performs_zero hinv hcode hsc hv
    · rename_i hv
      obtain ⟨hframe, -, -, hinit, -⟩ := Sched.sema_down_turn_pos hsc hv hcur
      have hnone : ∀ u, sc.code u = none → s.sched.code u = none := by
        intro u hu
        rw [hframe, update_apply] at hu
        grind
      have hs := h.shape.goes sc b hcur hpc
      obtain ⟨rfl, rfl, rfl⟩ | ⟨rfl, rfl, rfl⟩ := hb
      · exact ⟨h.leave_exec hinv hpc hsc hv, .moves (.plain hs ⟨rfl, rfl⟩ ⟨hinit, hnone⟩ rfl
          (.inr rfl) (.inl (.inr rfl)) rfl fun _ => rfl)⟩
      · exact ⟨h.leave_wait hinv hpc hsc hv, .moves (.plain hs ⟨rfl, rfl⟩ ⟨hinit, hnone⟩ rfl
          (.inr rfl) (.inl (.inr rfl)) rfl fun _ => rfl)⟩
  · rename_i hpage
    refine h.performs_stop (f := .dead_sema _)
      ⟨rfl, c, not_not.mp (hpage ∘ exists_page_iff.mpr), ?_⟩
    obtain ⟨rfl, -⟩ | ⟨rfl, -⟩ := hb
    · exact .inr (.inl hpc)
    · exact .inr (.inr (.inr hpc))

/-- What a turn of `sema_down` comes to. -/
theorem Base.performs_turn (h : s.Base) (hcode : s.sched.code s.sched.cur = some (.sema_down x)) :
    Performs s act (s.turn s.sched.cur) := by
  unfold System.turn
  split
  · rename_i c hpc
    exact h.performs_down_turn ((h.shape.exec_code _ c).mp hpc) hpc (.inl ⟨rfl, rfl, rfl⟩)
  · rename_i c hpc
    exact h.performs_down_turn ((h.shape.wait_code _ c).mp hpc) hpc (.inr ⟨rfl, rfl, rfl⟩)
  · rename_i hexec hwait
    obtain ⟨n, rfl⟩ : ∃ n, x = .other n := by
      cases x with
      | sema_proc_exec c => exact absurd ((h.shape.exec_code _ c).mpr hcode) (hexec c)
      | sema_proc_wait c => exact absurd ((h.shape.wait_code _ c).mpr hcode) (hwait c)
      | other n => exact ⟨n, rfl⟩
    obtain ⟨sc, hsc, hinv, heq⟩ := h.shape.schedule (m := .sema_down_turn (.other n)) hcode
    simp only [hcode, heq]
    by_cases hv : (s.sched.sema (.other n)).value = 0
    · exact h.performs_zero hinv hcode hsc hv
    · obtain ⟨hframe, hcr, hidle, hinit, hsema⟩ :=
        Sched.sema_down_turn_pos hsc hv (by rw [hcode]; nofun)
      refine ⟨h.recode hinv hidle hcode hframe (fun x hx => ?_) hcr fun x hx => ?_,
        .moves (.sched hinit fun u hu => .inl ?_)⟩
      · obtain hx | hx := hx <;> cases hx
        exact ⟨n, rfl⟩
      · rw [hsema, update_of_ne (hx n)]
      · rw [hframe, update_apply] at hu
        grind

/-! ### Every move -/

/-- The running thread goes on elsewhere, outside of `exec` and `process_wait`. -/
theorem Base.performs_code {c d : Code KSema} (h : s.Base) (hinv : sc.Inv (some sc.cur))
    (hd : s.sched.code s.sched.cur = some d)
    (hx : ∀ x, c = .sema_down x ∨ d = .sema_down x → ∃ n, x = .other n)
    (hsc : Sched.Same (s.sched.setCode s.sched.cur c) sc)
    (hsema : ∀ x, (∀ n, x ≠ .other n) → sc.sema x = s.sched.sema x) :
    Performs s act { s with sched := sc } := by
  obtain ⟨hcode, hcreating⟩ := Sched.setCode_frame (s := s.sched) (c := c) (by rw [hd]; nofun)
  refine ⟨h.recode hinv hsc.idle_started hd (hsc.code.trans hcode) hx
    (hsc.creating.trans hcreating) hsema, .moves (.sched hsc.initial fun u hu => .inl ?_)⟩
  rw [hsc.code, hcode, update_apply] at hu
  grind

theorem Base.performs_create {exec : Bool} (h : s.Base)
    (hcode : s.sched.code s.sched.cur = some .run) (hpc : s.pc s.sched.cur = .user) :
    Performs s act (s.process_execute s.sched.cur exec) := by
  obtain ⟨hc, sc, hinv, hidle, hinit, rfl, hfault, hlog⟩ := h.shape.process_execute exec hcode hpc
  exact ⟨h.create hc hinv hidle, .creates exec hc ⟨hfault, hlog, hinit⟩⟩

/-- The running thread comes to an end. -/
theorem Base.performs_end {st : Int} (h : s.Base) (hrun : s.sched.code s.sched.cur = some .run)
    (hpc : s.pc s.sched.cur = .user)
    (hb : b = .exit_get_child st ∨ b = .pexit_get_child ∧ st = -1) :
    Performs s act ({ s with ended := update s.ended s.sched.cur (some st) }.goto s.sched.cur b) := by
  have hto : Pc.user.Flows b ∧ b.listed ∧ b.simple := by
    obtain rfl | ⟨rfl, -⟩ := hb
    · exact ⟨.inr (.inl ⟨st, rfl⟩), rfl, rfl⟩
    · exact ⟨.inr (.inr rfl), rfl, rfl⟩
  exact ⟨h.end_with hrun hpc hb,
    .moves (.plain ⟨hpc, pc_goto, rfl, rfl, h.shape.born_of_run hrun⟩ ⟨rfl, rfl⟩
      ⟨rfl, fun _ => id⟩ hto.1 (.inr rfl) (.inl (.inr hto.2.1)) hto.2.2 fun _ => rfl)⟩

/-- Every move keeps what holds, and what it comes to. -/
theorem Base.performs (h : s.Base) (ha : s.Enabled act) : Performs s act (s.perform act) := by
  obtain ⟨-, ha⟩ := ha
  cases act with
  | statement => exact h.performs_statement ha.1 rfl
  | turn =>
    obtain ⟨x, hx⟩ := ha
    exact h.performs_turn hx
  | exec | process_execute => exact h.performs_create ha.1 ha.2.1
  | exec_fails | exit st => exact h.performs_end ha.1 ha.2.1 (.inl rfl)
  | kill => exact h.performs_end ha.1 ha.2 (.inr ⟨rfl, rfl⟩)
  | process_wait c =>
    exact ⟨h.goto ha.1 ha.2 rfl rfl (.inr rfl) rfl fun _ _ => id,
      .moves (.plain (h.shape.goes s.sched _ (by rw [ha.1]; nofun) ha.2) ⟨rfl, rfl⟩ ⟨rfl, fun _ => id⟩
        (.inl ⟨c, rfl⟩) (.inr rfl) (.inl (.inr rfl)) rfl fun _ => rfl)⟩
  | load success =>
    exact ⟨h.load ha.1 ha.2, .moves (.plain ⟨ha.2, pc_goto, rfl, rfl, h.shape.born_of_run ha.1⟩
      ⟨rfl, rfl⟩ ⟨rfl, fun _ => id⟩ ⟨_, rfl⟩ (.inr rfl) (.inl (.inr rfl)) rfl fun _ => rfl)⟩
  | thread_yield =>
    obtain ⟨sc, hsc, hinv, heq⟩ := h.shape.schedule (m := .thread_yield) ha
    obtain ⟨hsame, hsema⟩ := Sched.thread_yield_same hsc
    simp only [System.perform, heq]
    exact ⟨h.same hinv hsame fun x _ => hsema ▸ ⟨rfl, fun _ => .inl⟩, .moves (.same hsame)⟩
  | idle_block =>
    obtain ⟨sc, hsc, hinv, heq⟩ := h.shape.schedule (m := .idle_block) ha
    obtain ⟨hsame, hsema⟩ := Sched.thread_block_same hsc
    simp only [System.perform, heq]
    exact ⟨h.same hinv hsame fun x _ => hsema ▸ ⟨rfl, fun _ => .inl⟩, .moves (.same hsame)⟩
  | sema_up n =>
    obtain ⟨sc, hsc, hinv, heq⟩ := h.shape.schedule (m := .sema_up (.other n)) ha
    obtain ⟨hsame, hsema⟩ := Sched.sema_up_frame hsc
    simp only [System.perform, heq]
    refine ⟨h.same hinv hsame fun x hx => ?_, .moves (.same hsame)⟩
    rw [hsema, update_of_ne (hx n)]
    exact ⟨rfl, fun _ => .inl⟩
  | sema_down n =>
    obtain ⟨sc, hsc, hinv, heq⟩ := h.shape.schedule (m := .sema_down (.other n)) ha
    cases hsc
    simp only [System.perform, heq]
    refine h.performs_code hinv ha (fun x hx => ?_) (.refl _) fun _ _ => rfl
    obtain hx | hx := hx <;> cases hx
    exact ⟨n, rfl⟩
  | idle_begin =>
    obtain ⟨sc, hsc, hinv, heq⟩ := h.shape.schedule (m := .idle_begin) ha
    cases hsc
    simp only [System.perform, heq]
    exact h.performs_code hinv ha (by simp)
      { Sched.Same.refl (s.sched.setCode s.sched.cur .idle_up) with } fun _ _ => rfl
  | idle_up =>
    obtain ⟨sc, hsc, hinv, heq⟩ := h.shape.schedule (m := .idle_up) ha
    obtain ⟨hsame, hsema⟩ := Sched.sema_up_frame hsc
    simp only [System.perform, heq]
    refine h.performs_code hinv ha (by simp) hsame fun x hx => ?_
    rw [hsema, h.shape.idle_started, update_of_ne (hx 0)]
    rfl

/-- What holds in every run. -/
theorem Reachable.base {ok : System → Act → Prop} (h : Reachable ok s) : s.Base := by
  induction h with
  | boot => exact Base.boot
  | step _ a ha _ ih => exact (ih.performs ha).base

end System
end Pintos
