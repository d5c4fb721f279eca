import Mathlib.Tactic
import Pintos.Threads.SchedulerFrame

/-!
# Threads — Semaphores lose no wake-up

Runs of the scheduler in which threads and interrupt handlers use semaphores, with a tally of each
semaphore: how often `sema_up` has been called, how many downs have completed, and which threads
`sema_up` has unblocked that have not tested the value since.

A woken thread and the value that was meant for it are apart: the thread takes it only when it runs
again, and another may have been faster.  `semaphores_lose_no_wakeup`: the value is what the calls
make it, and while threads sleep it is at most the number of woken threads on their way.
-/

namespace Pintos
open List
open Function (update_self update_of_ne)

/-- The semaphore of the loop of `sema_down`. -/
def Code.downing {Sema : Type} : Code Sema → Option Sema
  | .sema_down x => some x
  | _ => none

namespace Sched

variable {Sema : Type}

/-! ### Where threads wait -/

/-- The semaphore whose value `t` tests in the loop of `sema_down`. -/
def downing (s : Sched Sema) (t : Tid) : Option Sema := (s.code t).bind Code.downing

theorem downing_eq_some {s : Sched Sema} {t : Tid} {x : Sema} :
    s.downing t = some x ↔ s.code t = some (.sema_down x) := by
  rw [downing, Option.bind_eq_some_iff]
  constructor
  · rintro ⟨c, hc, hx⟩
    cases c <;> cases hx
    exact hc
  · exact fun h => ⟨_, h, rfl⟩

theorem downing_congr {s s' : Sched Sema} (h : s'.code = s.code) : s'.downing = s.downing := by
  funext t
  rw [downing, downing, h]

/-- A thread goes on at `c`. -/
theorem downing_update {s s' : Sched Sema} {t : Tid} {c : Option (Code Sema)}
    (h : s'.code = Function.update s.code t c) :
    s'.downing = Function.update s.downing t (c.bind Code.downing) := by
  funext u
  by_cases hu : u = t
  · rw [hu, update_self, downing, h, update_self]
  · rw [update_of_ne hu, downing, downing, h, update_of_ne hu]

variable [DecidableEq Sema]

/-! ### The calls and their tally -/

/-- `sema_try_down`. -/
def sema_try_down (s : Sched Sema) (x : Sema) : Bool × Sched Sema :=
  let sema := s.sema x
  if sema.value > 0 then (true, s.setSema x { sema with value := sema.value - 1 })
  else (false, s)

/-- What has become of the semaphores. -/
structure Tally (Sema : Type) where
  /-- The calls of `sema_up`. -/
  ups : Sema → Nat
  /-- The completed downs: `sema_down`, and `sema_try_down` where it returned true. -/
  downs : Sema → Nat
  /-- The threads unblocked by `sema_up` that have not tested the value since. -/
  woken : Sema → List Tid

namespace Tally

/-- `sema_up (x)`. -/
def up (n : Tally Sema) (s : Sched Sema) (x : Sema) : Tally Sema :=
  { n with
    ups := Function.update n.ups x (n.ups x + 1)
    woken := Function.update n.woken x (n.woken x ++ (s.sema x).waiters.head?.toList) }

/-- A down of `x` completes if the value is positive. -/
def down (n : Tally Sema) (s : Sched Sema) (x : Sema) : Tally Sema :=
  { n with downs := Function.update n.downs x (n.downs x + if (s.sema x).value = 0 then 0 else 1) }

/-- `t` has tested the value of `x`. -/
def tested (n : Tally Sema) (t : Tid) (x : Sema) : Tally Sema :=
  { n with woken := Function.update n.woken x ((n.woken x).erase t) }

/-- The tally after a move. -/
def after (n : Tally Sema) (s : Sched Sema) : Move Sema → Tally Sema
  | .sema_up x => n.up s x
  | .idle_up => n.up s s.idle_started
  | .sema_down_turn x => (n.down s x).tested s.cur x
  | _ => n

end Tally

/-- The value of the semaphore that the move raises, if any, stays below 2^32. -/
def InRange (s : Sched Sema) : Move Sema → Prop
  | .sema_up x => (s.sema x).value + 1 < 2 ^ 32
  | .idle_up => (s.sema s.idle_started).value + 1 < 2 ^ 32
  | _ => True

/-- A run in which the semaphores have been initialised to `v`, with its tally. -/
inductive SemaRun (v : Sema → Nat) : Sched Sema → Tally Sema → Prop
  | boot {main idle : Tid} (h : main ≠ idle) (idle_started : Sema) :
      SemaRun v (boot main idle v idle_started) ⟨fun _ => 0, fun _ => 0, fun _ => []⟩
  | move {s s' : Sched Sema} {n : Tally Sema} (run : SemaRun v s n) (m : Move Sema)
      (enabled : s.Enabled m) (range : s.InRange m) (call : s.perform m = some s') :
      SemaRun v s' (n.after s m)
  | try_down {s : Sched Sema} {n : Tally Sema} (run : SemaRun v s n) (x : Sema)
      (enabled : s.interruptible) : SemaRun v (s.sema_try_down x).2 (n.down s x)

/-! ### What a move does to a thread in `sema_down` -/

variable {s s' : Sched Sema} {n n' : Tally Sema} {v : Sema → Nat} {m : Move Sema} {x : Sema}
  {t : Tid}

omit [DecidableEq Sema] in
theorem schedule_dying (h : s.schedule = some s') (ht : s'.status t = some .dying) :
    s.status t = some .dying := by
  have hresume : ∀ {u rest}, (s.resume u rest).status t = some .dying →
      s.status t = some .dying := by
    intro u rest h
    rw [resume, status_setStatus] at h
    split at h
    · obtain ⟨-, -, he⟩ := Option.map_eq_some_iff.mp h
      cases he
    · exact h
  obtain ⟨u, rest, ⟨rfl, -⟩ | ⟨rfl, -⟩⟩ := schedule_cases h
  · exact hresume ht
  · rw [status_free_page] at ht
    split at ht
    · cases ht
    · exact hresume ht

omit [DecidableEq Sema] in
theorem setStatus_dying {u : Tid} {st : Status} (ht : (s.setStatus u st).status t = some .dying)
    (hst : st ≠ .dying) : s.status t = some .dying := by
  rw [status_setStatus] at ht
  split at ht
  · obtain ⟨-, -, he⟩ := Option.map_eq_some_iff.mp ht
    exact absurd he hst
  · exact ht

omit [DecidableEq Sema] in
theorem thread_unblock_dying {u : Tid} (h : s.thread_unblock u = some s')
    (ht : s'.status t = some .dying) : s.status t = some .dying := by
  unfold thread_unblock at h
  split at h
  · cases h
    exact setStatus_dying (s := { s with ready_list := s.ready_list ++ [u] }) ht nofun
  · cases h

theorem sema_up_dying (h : s.sema_up x = some s') (ht : s'.status t = some .dying) :
    s.status t = some .dying := by
  cases hw : (s.sema x).waiters with
  | nil =>
    simp only [sema_up, hw] at h
    cases h
    exact ht
  | cons u rest =>
    simp only [sema_up, hw] at h
    exact thread_unblock_dying (s := s.setSema x _) h ht

/-- Only `thread_exit` makes a thread die. -/
theorem perform_dying (hs : s.perform m = some s') (ht : s'.status t = some .dying) :
    s.status t = some .dying ∨ m = .thread_exit ∧ t = s.cur := by
  cases m with
  | thread_yield =>
    simp only [perform, thread_yield] at hs
    have h := setStatus_dying (schedule_dying hs ht) nofun
    split at h <;> exact .inl h
  | sema_down x =>
    cases hs
    exact .inl (by rwa [status_setCode] at ht)
  | sema_down_turn x =>
    simp only [perform, sema_down_turn] at hs
    split at hs
    · exact .inl (setStatus_dying (s := s.setSema x _) (schedule_dying hs ht) nofun)
    · cases hs
      rw [status_setCode] at ht
      exact .inl ht
  | sema_up x => exact .inl (sema_up_dying hs ht)
  | thread_exit =>
    have h := schedule_dying hs ht
    rw [status_setStatus] at h
    split at h
    · exact .inr ⟨rfl, ‹_›⟩
    · exact .inl h
  | init_thread c =>
    cases hs
    rw [init_thread, status_setCreating] at ht
    by_cases hc : t = c
    · simp [status, hc] at ht
    · exact .inl (by simpa [status, hc] using ht)
  | thread_unblock c =>
    have h := thread_unblock_dying hs ht
    exact .inl (by rwa [status_setCreating] at h)
  | idle_begin =>
    cases hs
    rw [status_setCode] at ht
    exact .inl ht
  | idle_up =>
    have h := sema_up_dying hs ht
    exact .inl (by rwa [status_setCode] at h)
  | idle_block => exact .inl (setStatus_dying (schedule_dying hs ht) nofun)

/-- The semaphores after a move. -/
def semaAfter (s : Sched Sema) : Move Sema → Sema → Semaphore
  | .sema_up x => Function.update s.sema x
      ⟨((s.sema x).value + 1) % 4294967296, (s.sema x).waiters.tail⟩
  | .idle_up => Function.update s.sema s.idle_started
      ⟨((s.sema s.idle_started).value + 1) % 4294967296, (s.sema s.idle_started).waiters.tail⟩
  | .sema_down_turn x =>
    if (s.sema x).value = 0 then
      Function.update s.sema x ⟨(s.sema x).value, (s.sema x).waiters ++ [s.cur]⟩
    else Function.update s.sema x ⟨(s.sema x).value - 1, (s.sema x).waiters⟩
  | _ => s.sema

/-- Who is in the loop of `sema_down` after a move. -/
def downingAfter (s : Sched Sema) : Move Sema → Tid → Option Sema
  | .sema_down x => Function.update s.downing s.cur (some x)
  | .sema_down_turn x =>
    if (s.sema x).value = 0 then s.downing else Function.update s.downing s.cur none
  | _ => s.downing

/-- What a move does to the semaphores and to the threads in `sema_down`. -/
theorem perform_effect (hm : s.Enabled m) (hs : s.perform m = some s') :
    s'.sema = s.semaAfter m ∧ s'.downing = s.downingAfter m := by
  have hcur : ∀ {c : Code Sema}, s.code s.cur = some c → s.code s.cur ≠ none :=
    fun h => by simp [h]
  -- a thread that stays outside of `sema_down`
  have hout : ∀ {t}, s.downing t = none → Function.update s.downing t none = s.downing :=
    fun h => by rw [← h, Function.update_eq_self]
  have hnone : ∀ {t c}, s.code t = some c → (∀ x, c ≠ .sema_down x) → s.downing t = none := by
    intro t c h hc
    refine Option.eq_none_iff_forall_ne_some.mpr fun x hx => hc x ?_
    exact Option.some.inj (h.symm.trans (downing_eq_some.mp hx))
  cases m with
  | thread_yield =>
    obtain ⟨hsame, hsema⟩ := thread_yield_same hs
    exact ⟨hsema, downing_congr hsame.code⟩
  | sema_down x =>
    cases hs
    exact ⟨rfl, downing_update (setCode_frame (hcur hm)).1⟩
  | sema_down_turn x =>
    by_cases hv : (s.sema x).value = 0
    · obtain ⟨hsame, hsema⟩ := sema_down_turn_zero hs hv
      rw [semaAfter, downingAfter, if_pos hv, if_pos hv]
      exact ⟨hsema, downing_congr hsame.code⟩
    · obtain ⟨hcode, -, -, -, hsema⟩ := sema_down_turn_pos hs hv (hcur hm)
      rw [semaAfter, downingAfter, if_neg hv, if_neg hv]
      exact ⟨hsema, downing_update hcode⟩
  | sema_up x =>
    obtain ⟨hsame, hsema⟩ := sema_up_frame hs
    exact ⟨hsema, downing_congr hsame.code⟩
  | thread_exit =>
    obtain ⟨hc, hn⟩ := hm
    obtain ⟨-, -, -, hsema, hcode | ⟨-, hcode⟩⟩ := thread_exit_frame hs hn
    · exact ⟨hsema, downing_congr hcode⟩
    · exact ⟨hsema, (downing_update hcode).trans (hout (hnone hc (by simp)))⟩
  | init_thread c =>
    obtain ⟨hc, hn, hfree⟩ := hm
    cases hs
    have hcode : s.code c = none := by simp [code, hfree]
    have hne : s.cur ≠ c := fun e => hcur hc (e ▸ hcode)
    refine ⟨rfl, (downing_update (init_thread_frame (hcur hc) hne hfree).1).trans (hout ?_)⟩
    rw [downing, hcode]
    rfl
  | thread_unblock c =>
    obtain ⟨hcode, -, -, -, hsema⟩ := create_unblock_frame hs
    exact ⟨hsema, downing_congr hcode⟩
  | idle_begin =>
    cases hs
    have hcode := (setCode_frame (s := { s with idle_thread := some s.cur }) (c := .idle_up)
      (hcur hm)).1
    exact ⟨rfl, (downing_update (s := s) hcode).trans (hout (hnone hm (by simp)))⟩
  | idle_up =>
    obtain ⟨hsame, hsema⟩ := sema_up_frame hs
    have hcode := hsame.code.trans (setCode_frame (hcur hm)).1
    exact ⟨hsema, (downing_update hcode).trans (hout (hnone hm (by simp)))⟩
  | idle_block =>
    obtain ⟨hsame, hsema⟩ := thread_block_same hs
    exact ⟨hsema, downing_congr hsame.code⟩

/-- A thread in the loop of `sema_down` stays there until it tests the value. -/
theorem perform_downing (hm : s.Enabled m) (hs : s.perform m = some s')
    (hd : s.downing t = some x) (hne : t = s.cur → m ≠ .sema_down_turn x) :
    s'.downing t = some x := by
  rw [(perform_effect hm hs).2]
  cases m with
  | sema_down y =>
    have hcur : t ≠ s.cur := by
      rintro rfl
      cases (show s.code s.cur = some .run from hm).symm.trans (downing_eq_some.mp hd)
    rw [downingAfter, update_of_ne hcur, hd]
  | sema_down_turn y =>
    rw [downingAfter]
    split
    · exact hd
    · rw [update_of_ne ?_, hd]
      rintro rfl
      cases (show s.code s.cur = some (.sema_down y) from hm).symm.trans (downing_eq_some.mp hd)
      exact hne rfl rfl
  | _ => exact hd

/-! ### The invariant -/

/-- The value of `x` is what the calls make it, and whoever has been woken is on the way. -/
structure CountedAt (v : Sema → Nat) (s : Sched Sema) (n : Tally Sema) (x : Sema) : Prop where
  count : (s.sema x).value + n.downs x = v x + n.ups x
  enough : (s.sema x).waiters ≠ [] → (s.sema x).value ≤ (n.woken x).length
  nodup : (n.woken x).Nodup
  apart : ∀ t ∈ n.woken x, t ∉ (s.sema x).waiters
  woken : ∀ t ∈ n.woken x, s.downing t = some x ∧ s.status t ≠ some .dying

/-- A thread that has been woken stays so until it tests the value. -/
theorem CountedAt.stays (h : CountedAt v s n x) (hm : s.Enabled m) (hs : s.perform m = some s')
    (ht : t ∈ n.woken x) (hne : t = s.cur → m ≠ .sema_down_turn x) :
    s'.downing t = some x ∧ s'.status t ≠ some .dying := by
  obtain ⟨hd, hlive⟩ := h.woken t ht
  refine ⟨perform_downing hm hs hd hne, fun hdying => ?_⟩
  obtain hdying | ⟨rfl, rfl⟩ := perform_dying hs hdying
  · exact hlive hdying
  · cases hm.1.symm.trans (downing_eq_some.mp hd)

/-- Nothing has happened to `x`. -/
theorem CountedAt.keep (h : CountedAt v s n x) (hm : s.Enabled m) (hs : s.perform m = some s')
    (hsema : s'.sema x = s.sema x) (hups : n'.ups x = n.ups x) (hdowns : n'.downs x = n.downs x)
    (hwoken : n'.woken x = n.woken x) (hne : m ≠ .sema_down_turn x) : CountedAt v s' n' x where
  count := by rw [hsema, hups, hdowns, h.count]
  enough := by rw [hsema, hwoken]; exact h.enough
  nodup := by rw [hwoken]; exact h.nodup
  apart := by rw [hsema, hwoken]; exact h.apart
  woken t ht := h.stays hm hs (hwoken ▸ ht) fun _ => hne

/-- `sema_up (x)`: the first waiter joins the woken threads. -/
theorem CountedAt.up (h : CountedAt v s n x) (hinv : Inv (some s.cur) s) (hm : s.Enabled m)
    (hs : s.perform m = some s')
    (hsema : s'.sema x = ⟨((s.sema x).value + 1) % 4294967296, (s.sema x).waiters.tail⟩)
    (hr : (s.sema x).value + 1 < 2 ^ 32) (hne : m ≠ .sema_down_turn x) :
    CountedAt v s' (n.up s x) x := by
  rw [Nat.mod_eq_of_lt (show _ < 4294967296 from hr)] at hsema
  have hcount := h.count
  cases hw : (s.sema x).waiters with
  | nil =>
    have hwoken : (n.up s x).woken x = n.woken x := by simp [Tally.up, hw]
    refine ⟨?_, ?_, ?_, ?_, fun t ht => h.stays hm hs (hwoken ▸ ht) fun _ => hne⟩
    · simp only [hsema, Tally.up, update_self]
      omega
    · simp [hsema, hw]
    · rw [hwoken]
      exact h.nodup
    · simp [hsema, hw]
  | cons u rest =>
    have hwoken : (n.up s x).woken x = n.woken x ++ [u] := by simp [Tally.up, hw]
    obtain ⟨hb, hc⟩ := (hinv.waiters x u).mp (by simp [hw])
    have hu : u ∉ n.woken x := fun hu => h.apart u hu (by simp [hw])
    have hnodup := hinv.waiters_nodup x
    rw [hw, nodup_cons] at hnodup
    refine ⟨?_, fun _ => ?_, ?_, ?_, fun t ht => ?_⟩
    · simp only [hsema, Tally.up, update_self]
      omega
    · have := h.enough (by simp [hw])
      rw [hsema, hwoken, length_append]
      exact Nat.add_le_add_right this 1
    · rw [hwoken]
      exact List.nodup_append_comm.mp (List.nodup_cons.mpr ⟨hu, h.nodup⟩)
    · intro t ht
      rw [hsema, hw, tail_cons]
      rcases List.mem_append.mp (hwoken ▸ ht) with ht | ht
      · exact fun hr => h.apart t ht (by simp [hw, hr])
      · rw [List.mem_singleton.mp ht]
        exact hnodup.1
    · rcases List.mem_append.mp (hwoken ▸ ht) with ht | ht
      · exact h.stays hm hs ht fun _ => hne
      · obtain rfl := List.mem_singleton.mp ht
        refine ⟨perform_downing hm hs (downing_eq_some.mpr hc) fun _ => hne, fun hdying => ?_⟩
        obtain hdying | ⟨rfl, rfl⟩ := perform_dying hs hdying
        · cases hb.symm.trans hdying
        · cases hm.1.symm.trans hc

/-- A test of the value of `x`. -/
theorem CountedAt.turn (h : CountedAt v s n x) (hm : s.Enabled (.sema_down_turn x))
    (hs : s.perform (.sema_down_turn x) = some s') :
    CountedAt v s' ((n.down s x).tested s.cur x) x := by
  have hwoken : ((n.down s x).tested s.cur x).woken x = (n.woken x).erase s.cur := by
    simp [Tally.tested, Tally.down]
  have hmem : ∀ {t}, t ∈ ((n.down s x).tested s.cur x).woken x → t ∈ n.woken x ∧ t ≠ s.cur := by
    intro t ht
    rw [hwoken, h.nodup.mem_erase_iff] at ht
    exact ht.symm
  have hstays : ∀ t ∈ ((n.down s x).tested s.cur x).woken x,
      s'.downing t = some x ∧ s'.status t ≠ some .dying := fun t ht =>
    h.stays hm hs (hmem ht).1 fun e => absurd e (hmem ht).2
  have hnodup : (((n.down s x).tested s.cur x).woken x).Nodup := by
    rw [hwoken]
    exact h.nodup.erase _
  have hcount := h.count
  by_cases hv : (s.sema x).value = 0
  · have hsema := congrFun (perform_effect hm hs).1 x
    rw [semaAfter, if_pos hv, update_self] at hsema
    refine ⟨?_, fun _ => ?_, hnodup, fun t ht => ?_, hstays⟩
    · simpa [hsema, Tally.tested, Tally.down, hv] using hcount
    · rw [hsema]
      exact hv.trans_le (Nat.zero_le _)
    · have := h.apart t (hmem ht).1
      simpa [hsema, (hmem ht).2] using this
  · have hsema := congrFun (perform_effect hm hs).1 x
    rw [semaAfter, if_neg hv, update_self] at hsema
    refine ⟨?_, fun hw => ?_, hnodup, fun t ht => ?_, hstays⟩
    · simp only [hsema, Tally.tested, Tally.down, hv, if_false, update_self]
      omega
    · rw [hsema] at hw ⊢
      have hle := h.enough hw
      have hlen : (n.woken x).length ≤ ((n.woken x).erase s.cur).length + 1 := by
        rw [length_erase]
        split <;> omega
      rw [hwoken]
      show (s.sema x).value - 1 ≤ _
      omega
    · rw [hsema]
      exact h.apart t (hmem ht).1

/-- `sema_try_down (x)`. -/
theorem CountedAt.try_down (h : ∀ y, CountedAt v s n y) (x y : Sema) :
    CountedAt v (s.sema_try_down x).2 (n.down s x) y := by
  obtain ⟨hcount, henough, hnodup, hapart, hwoken⟩ := h y
  by_cases hv : (s.sema x).value = 0
  · have hs : (s.sema_try_down x).2 = s := by simp [sema_try_down, hv]
    have hn : n.down s x = n := by simp [Tally.down, hv]
    rw [hs, hn]
    exact h y
  · have hs : (s.sema_try_down x).2 = s.setSema x ⟨(s.sema x).value - 1, (s.sema x).waiters⟩ := by
      simp [sema_try_down, Nat.pos_of_ne_zero hv]
    rw [hs]
    by_cases hyx : y = x
    · subst hyx
      have hsema : (s.setSema y ⟨(s.sema y).value - 1, (s.sema y).waiters⟩).sema y = _ :=
        update_self ..
      refine ⟨?_, fun hw => ?_, hnodup, ?_, hwoken⟩
      · simp only [hsema, Tally.down, hv, if_false, update_self]
        omega
      · rw [hsema] at hw ⊢
        exact (Nat.sub_le ..).trans (henough hw)
      · rw [hsema]
        exact hapart
    · have hsema : (s.setSema x ⟨(s.sema x).value - 1, (s.sema x).waiters⟩).sema y = s.sema y :=
        update_of_ne hyx ..
      refine ⟨?_, ?_, hnodup, ?_, hwoken⟩
      · simp only [hsema, Tally.down, update_of_ne hyx]
        exact hcount
      · rwa [hsema]
      · rwa [hsema]

theorem Inv.try_down (h : Inv (some s.cur) s) (x : Sema) :
    Inv (some (s.sema_try_down x).2.cur) (s.sema_try_down x).2 := by
  unfold sema_try_down
  dsimp only
  split
  · have hw : ∀ y, (Function.update s.sema x
        ⟨(s.sema x).value - 1, (s.sema x).waiters⟩ y).waiters = (s.sema y).waiters := by
      intro y
      by_cases hy : y = x
      · rw [hy, update_self]
      · rw [update_of_ne hy]
    exact { h with
      waiters := fun y t => by rw [setSema, hw]; exact h.waiters y t
      waiters_nodup := fun y => by rw [setSema, hw]; exact h.waiters_nodup y }
  · exact h

theorem SemaRun.counted (run : SemaRun v s n) : Inv (some s.cur) s ∧ ∀ x, CountedAt v s n x := by
  induction run with
  | boot h idle_started =>
    exact ⟨Inv.boot h v idle_started, fun x => ⟨rfl, by simp [Sched.boot], .nil, by simp [Sched.boot], by simp [Sched.boot]⟩⟩
  | @move s s' n run m hm hr hs ih =>
    obtain ⟨hinv, hcount⟩ := ih
    obtain ⟨s₁, hs₁, hinv'⟩ := hinv.perform hm
    obtain rfl := Option.some.inj (hs₁.symm.trans hs)
    refine ⟨hinv', fun y => ?_⟩
    have hsema := (perform_effect hm hs).1
    -- `sema_up (x)` concerns `x` alone
    have hup : ∀ x, s₁.sema = Function.update s.sema x
          ⟨((s.sema x).value + 1) % 4294967296, (s.sema x).waiters.tail⟩ →
        (s.sema x).value + 1 < 2 ^ 32 → (∀ z, m ≠ .sema_down_turn z) →
        CountedAt v s₁ (n.up s x) y := by
      intro x hsema hr hne
      by_cases hyx : y = x
      · subst hyx
        exact (hcount y).up hinv hm hs (by rw [hsema, update_self]) hr (hne y)
      · refine (hcount y).keep hm hs ?_ ?_ rfl ?_ (hne y)
        · rw [hsema, update_of_ne hyx]
        · exact update_of_ne hyx ..
        · exact update_of_ne hyx ..
    cases m with
    | sema_up x => exact hup x hsema hr (by simp)
    | idle_up => exact hup s.idle_started hsema hr (by simp)
    | sema_down_turn x =>
      by_cases hyx : y = x
      · subst hyx
        exact (hcount y).turn hm hs
      · refine (hcount y).keep hm hs ?_ rfl (update_of_ne hyx ..)
          (update_of_ne hyx ..) fun e => hyx (by cases e; rfl)
        rw [hsema, semaAfter]
        split <;> rw [update_of_ne hyx]
    | _ => exact (hcount y).keep hm hs (congrFun hsema y) rfl rfl rfl (by simp)
  | try_down _ x _ ih => exact ⟨ih.1.try_down x, CountedAt.try_down ih.2 x⟩

/-- The value of a semaphore that was initialised to `v x` is `v x` and the calls of `sema_up` less
the completed downs.  While threads wait, it is at most the number of threads that have been woken
and have not tested it since; these are other threads than the waiting ones, and each runs or is on
the run queue.  So no thread sleeps at a positive value with no wake-up on its way. -/
theorem semaphores_lose_no_wakeup (run : SemaRun v s n) (x : Sema) :
    (s.sema x).value + n.downs x = v x + n.ups x ∧ n.downs x ≤ v x + n.ups x ∧
    ((s.sema x).waiters ≠ [] → (s.sema x).value ≤ (n.woken x).length) ∧ (n.woken x).Nodup ∧
    (∀ t ∈ n.woken x, s.code t = some (.sema_down x) ∧ t ∉ (s.sema x).waiters ∧
      (t = s.cur ∨ t ∈ s.ready_list)) ∧
    ¬ (0 < (s.sema x).value ∧ (s.sema x).waiters ≠ [] ∧ n.woken x = []) := by
  obtain ⟨hinv, hcount⟩ := run.counted
  obtain ⟨hval, henough, hnodup, hapart, hwoken⟩ := hcount x
  refine ⟨hval, by omega, henough, hnodup, fun t ht => ?_, ?_⟩
  · obtain ⟨hd, hlive⟩ := hwoken t ht
    rw [downing_eq_some] at hd
    refine ⟨hd, hapart t ht, ?_⟩
    cases hth : s.threads t with
    | none => simp [code, hth] at hd
    | some th =>
      have hst : s.status t = some th.status := by simp [status, hth]
      cases hcase : th.status with
      | running => exact .inl (Option.some.inj ((hinv.running t).mp (hcase ▸ hst))).symm
      | ready =>
        refine .inr ((hinv.ready t).mpr ⟨hcase ▸ hst, fun hi => ?_⟩)
        obtain ⟨i, c, hic, hci, -, hbegin, hset⟩ := hinv.idle
        grind [Code.idle]
      | blocked => exact absurd ((hinv.waiters x t).mpr ⟨hcase ▸ hst, hd⟩) (hapart t ht)
      | dying => exact absurd (hcase ▸ hst) hlive
  · rintro ⟨hpos, hw, hnone⟩
    have := henough hw
    rw [hnone, length_nil] at this
    omega

/-- The initial thread sleeps at a semaphore of value zero, and the idle thread, which runs first,
wakes it. -/
theorem semaphores_lose_no_wakeup_idle : ∃ (s : Sched Unit) (n : Tally Unit),
    (s.sema ()).value = 1 ∧ n.woken () = [1] ∧ n.ups () = 1 ∧ n.downs () = 0 ∧
    ((s.sema ()).waiters ≠ [] → (s.sema ()).value ≤ (n.woken ()).length) := by
  have h₀ : SemaRun (fun _ : Unit => 0) (boot 1 2 _ ()) _ := .boot (by decide) ()
  have h₁ := h₀.move (.sema_down ()) rfl trivial rfl
  have h₂ := h₁.move (.sema_down_turn ()) rfl trivial rfl
  have h₃ := h₂.move .idle_begin rfl trivial rfl
  have h₄ := h₃.move .idle_up rfl (show 0 + 1 < 2 ^ 32 by norm_num) rfl
  exact ⟨_, _, rfl, rfl, rfl, rfl, (semaphores_lose_no_wakeup h₄ ()).2.2.1⟩

end Sched
end Pintos
