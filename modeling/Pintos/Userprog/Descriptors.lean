import Pintos.Userprog.Denial

/-!
# Userprog — file descriptors

`allocate_fd` takes the descriptor after the last one of `file_struct_list`, and `k_open` appends
it there.  So the list stays sorted, and its descriptors are different from each other, until an
`int` would overflow.

A run is any sequence of `k_open` and `k_close` calls of a process that return, on any file system,
with anything else between them that leaves the list alone (`FdRun`).  Its history says which
descriptor got which file; `descriptors_sound` says that the list is what the history says it is.
-/

namespace Pintos
open Support List
open Prog (ends_bind ends_pure ends_op)

variable {K : Type} {I : FsApi K} {env : Env} {c c' : Caller K}
  {files : List (Int × OpenFile)} {fd : Int} {file : OpenFile}

/-! ### Histories -/

inductive FdEvent where
  | opened (fd : Int) (file : OpenFile)
  | closed (fd : Int)

namespace FdEvent

/-- The file of a descriptor after a history, the last event first. -/
def table : List FdEvent → Int → Option OpenFile
  | [], _ => none
  | opened fd file :: events, x => if x = fd then some file else table events x
  | closed fd :: events, x => if x = fd then none else table events x

/-- The number of files opened. -/
def opens : List FdEvent → Nat
  | [] => 0
  | opened _ _ :: events => opens events + 1
  | closed _ :: events => opens events

end FdEvent

/-- `filesys_open`, as `k_open` calls it from `c`, returns `file`. -/
def OpensFile (I : FsApi K) (env : Env) (c : Caller K) (file_name : Nat)
    (file : OpenFile) : Prop :=
  ∃ es path c₁ es' k, (load_string file_name).run (sys_api I env) { c with file_lock := true } =
      (es, .done path c₁) ∧
    (filesys_open c.current_dir path).run I c.fs = (es', .done (some file) k)

/-- Calls of one process, from an empty list on. -/
inductive FdRun (I : FsApi K) : List FdEvent → Caller K → Prop where
  | start {c : Caller K} (h : c.file_struct_list = []) : FdRun I [] c
  | elsewhere {events : List FdEvent} {c c' : Caller K} (run : FdRun I events c)
      (h : c'.file_struct_list = c.file_struct_list) : FdRun I events c'
  | open_fails {events : List FdEvent} {c c' : Caller K} {env : Env} {file_name : Nat}
      {es : List Event} (run : FdRun I events c)
      (h : (k_open file_name).run (sys_api I env) c = (es, .done (-1) c')) : FdRun I events c'
  | opens {events : List FdEvent} {c c' : Caller K} {env : Env} {file_name : Nat}
      {es : List Event} {fd : Int} {file : OpenFile} (run : FdRun I events c)
      (h : (k_open file_name).run (sys_api I env) c = (es, .done fd c')) (hfd : fd ≠ -1)
      (hfile : OpensFile I env c file_name file) : FdRun I (.opened fd file :: events) c'
  | closes {events : List FdEvent} {c c' : Caller K} {env : Env} {fd : Int} {es : List Event}
      (run : FdRun I events c) (h : (k_close fd).run (sys_api I env) c = (es, .done () c')) :
      FdRun I (.closed fd :: events) c'

/-! ### One call -/

theorem OpensFile.unique {file' : OpenFile} {file_name : Nat}
    (h : OpensFile I env c file_name file) (h' : OpensFile I env c file_name file') :
    file = file' := by
  obtain ⟨_, _, _, _, _, hpath, hopen⟩ := h
  obtain ⟨_, _, _, _, _, hpath', hopen'⟩ := h'
  obtain ⟨-, hdone⟩ := Prod.mk.inj (hpath.symm.trans hpath')
  obtain ⟨rfl, -⟩ := Outcome.done.inj hdone
  obtain ⟨-, hdone⟩ := Prod.mk.inj (hopen.symm.trans hopen')
  exact Option.some.inj (Outcome.done.inj hdone).1

/-- What a run returns is what it returns. -/
theorem ends_self {ε σ α : Type} (m : Machine ε σ α) (s : σ) :
    m.Ends s fun a s' => ∃ es, m s = (es, .done a s') := fun es _ _ h => ⟨es, h⟩

/-- `k_open` leaves the list, or appends the file that `filesys_open` returns. -/
theorem k_open_appends (file_name : Nat) :
    ((k_open file_name).run (sys_api I env)).Ends c fun fd c' =>
      (fd = -1 ∧ c'.file_struct_list = c.file_struct_list) ∨
      ∃ file, OpensFile I env c file_name file ∧ fd = allocate_fd c.file_struct_list ∧
        c'.file_struct_list = c.file_struct_list ++ [(fd, file)] := by
  refine ends_bind (Reads.ends (reads_is_valid_filename file_name) c) ?_
  rintro value c rfl
  split
  · exact ends_pure (.inl ⟨rfl, rfl⟩)
  refine ends_bind (ends_op lock_acquire_ends) ?_
  rintro - _ rfl
  have hload : ((load_string file_name).run (sys_api I env)).Ends { c with file_lock := true }
      fun path c' => c' = { c with file_lock := true } ∧ ∃ es, (load_string file_name).run
        (sys_api I env) { c with file_lock := true } = (es, .done path c') :=
    fun es path c' h => ⟨Reads.ends (reads_load_string_loop _ _) _ h, es, h⟩
  refine ends_bind hload ?_
  rintro path _ ⟨rfl, es, hpath⟩
  have hdir : (sys_api I env .current_dir).Ends { c with file_lock := true } fun dir c' =>
      c' = { c with file_lock := true } ∧ dir = c.current_dir :=
    Machine.Ends.get_bind (Machine.Ends.pure ⟨rfl, rfl⟩)
  refine ends_bind (ends_op hdir) ?_
  rintro _ _ ⟨rfl, rfl⟩
  refine ends_bind (on_fs_ends (Q := fun r c' => c'.file_struct_list = c.file_struct_list ∧
    ∃ es' k, (filesys_open c.current_dir path).run I c.fs = (es', .done r k))
    ((ends_self _ _).mono fun r k ⟨es', h⟩ => ⟨rfl, es', k, h⟩)) ?_
  rintro r c₁ ⟨hfiles, es', k, hopen⟩
  cases r with
  | none =>
    refine ends_bind (ends_op lock_release_ends) ?_
    rintro - _ rfl
    exact ends_pure (.inl ⟨rfl, hfiles⟩)
  | some file =>
    refine ends_bind (ends_op file_struct_list_ends) ?_
    rintro _ c₁ ⟨rfl, rfl⟩
    refine ends_bind (ends_op (set_file_struct_list_ends _)) ?_
    rintro - _ rfl
    refine ends_bind (ends_op lock_release_ends) ?_
    rintro - _ rfl
    refine ends_pure (.inr ⟨file, ⟨es, path, _, es', k, hpath, hopen⟩, ?_, ?_⟩)
    · rw [hfiles]
    · show c₁.file_struct_list ++ _ = _
      rw [hfiles]

/-- `k_close` removes the first entry of its descriptor, if there is one. -/
theorem k_close_erases : ((k_close fd).run (sys_api I env)).Ends c fun _ c' =>
    c'.file_struct_list = c.file_struct_list.eraseP fun e => e.1 == fd := by
  refine ends_bind file_of_ends ?_
  rintro r c ⟨rfl, hr⟩
  cases r with
  | none =>
    refine ends_pure (eraseP_of_forall_not ?_).symm
    have hnone := Option.map_eq_none_iff.mp hr.symm
    simpa using hnone
  | some o =>
    refine ends_bind (ends_op lock_acquire_ends) ?_
    rintro - _ rfl
    refine ends_bind (Reads.ends (reads_sys rfl) _) ?_
    rintro byte _ rfl
    refine ends_bind (on_fs_ends (Q := fun _ c' =>
      c'.file_struct_list = c.file_struct_list) fun _ _ _ _ => rfl) ?_
    rintro - c₁ hfiles
    refine ends_bind (ends_op file_struct_list_ends) ?_
    rintro _ c₁ ⟨rfl, rfl⟩
    refine ends_bind (ends_op (set_file_struct_list_ends _)) ?_
    rintro - _ rfl
    refine (ends_op lock_release_ends).mono ?_
    rintro - _ rfl
    show c₁.file_struct_list.eraseP _ = _
    rw [hfiles]

/-! ### The list -/

theorem get_file_eq_none : get_file_struct_for_fd files fd = none ↔ ∀ e ∈ files, e.1 ≠ fd := by
  simp [get_file_struct_for_fd]

theorem get_file_append (h : ∀ e ∈ files, e.1 ≠ fd) (x : Int) :
    get_file_struct_for_fd (files ++ [(fd, file)]) x =
      if x = fd then some file else get_file_struct_for_fd files x := by
  unfold get_file_struct_for_fd
  rw [find?_append]
  by_cases hx : x = fd
  · subst hx
    have hnone : files.find? (fun e => e.1 == x) = none := by simpa using h
    simp [hnone]
  · have hne : (fd == x) = false := beq_false_of_ne (Ne.symm hx)
    simp [hx, hne]

theorem get_file_erase (h : files.Pairwise fun a b => a.1 < b.1) (x : Int) :
    get_file_struct_for_fd (files.eraseP fun e => e.1 == fd) x =
      if x = fd then none else get_file_struct_for_fd files x := by
  induction files with
  | nil => split <;> rfl
  | cons e files ih =>
    obtain ⟨hlt, htail⟩ := List.pairwise_cons.mp h
    by_cases he : e.1 = fd
    · rw [eraseP_cons_of_pos (by simpa using he)]
      by_cases hx : x = fd
      · -- the rest of the list has greater descriptors
        rw [if_pos hx, get_file_eq_none]
        intro e' he'
        have := hlt e' he'
        omega
      · have hne : (e.1 == x) = false := beq_false_of_ne fun h => hx (h.symm.trans he)
        simp [hx, get_file_struct_for_fd, hne]
    · rw [eraseP_cons_of_neg (by simpa using he)]
      by_cases hx : e.1 = x
      · have hne : x ≠ fd := fun h => he (hx.trans h)
        simp [get_file_struct_for_fd, hx, hne]
      · have hskip (l : List (Int × OpenFile)) :
            get_file_struct_for_fd (e :: l) x = get_file_struct_for_fd l x := by
          simp [get_file_struct_for_fd, hx]
        rw [hskip, hskip, ih htail]

/-- The list agrees with the history. -/
structure FdTable (events : List FdEvent) (files : List (Int × OpenFile)) : Prop where
  sorted : files.Pairwise fun a b => a.1 < b.1
  bounds : ∀ e ∈ files, 2 ≤ e.1 ∧ e.1 ≤ FdEvent.opens events + 1
  table : ∀ fd, get_file_struct_for_fd files fd = FdEvent.table events fd

namespace FdTable

variable {events : List FdEvent}

/-- `allocate_fd` takes a descriptor above all others. -/
theorem allocate (h : FdTable events files) (hopens : FdEvent.opens events < 2147483645) :
    (∀ e ∈ files, e.1 < allocate_fd files) ∧ 2 ≤ allocate_fd files ∧
      allocate_fd files ≤ FdEvent.opens events + 2 := by
  cases hlast : files.getLast? with
  | none =>
    rw [getLast?_eq_none_iff] at hlast
    subst hlast
    exact ⟨nofun, le_rfl, by simp [allocate_fd]⟩
  | some e =>
    obtain ⟨front, rfl⟩ := List.getLast?_eq_some_iff.mp hlast
    obtain ⟨hlo, hhi⟩ := h.bounds e (by simp)
    have hfd : allocate_fd (front ++ [e]) = e.1 + 1 := by
      rw [allocate_fd, hlast]
      exact Int.bmod_eq_of_le (by omega) (by omega)
    rw [hfd]
    refine ⟨fun e' he' => ?_, by omega, by omega⟩
    rcases List.mem_append.mp he' with hfront | hlast'
    · have := (List.pairwise_append.mp h.sorted).2.2 e' hfront e List.mem_cons_self
      omega
    · rw [List.mem_singleton.mp hlast']
      omega

theorem opened (h : FdTable events files) (hopens : FdEvent.opens events < 2147483645)
    (file : OpenFile) :
    FdTable (.opened (allocate_fd files) file :: events) (files ++ [(allocate_fd files, file)]) := by
  obtain ⟨habove, hlo, hhi⟩ := h.allocate hopens
  refine ⟨?_, ?_, fun x => ?_⟩
  · refine List.pairwise_append.mpr ⟨h.sorted, pairwise_singleton .., fun e he e' he' => ?_⟩
    rw [List.mem_singleton.mp he']
    exact habove e he
  · intro e he
    rw [FdEvent.opens]
    push_cast
    rcases List.mem_append.mp he with hfile | hlast
    · have := h.bounds e hfile
      omega
    · rw [List.mem_singleton.mp hlast]
      exact ⟨hlo, by omega⟩
  · rw [get_file_append fun e he => (habove e he).ne, FdEvent.table, h.table]

theorem closed (h : FdTable events files) (fd : Int) :
    FdTable (.closed fd :: events) (files.eraseP fun e => e.1 == fd) := by
  refine ⟨h.sorted.sublist eraseP_sublist, fun e he => ?_, fun x => ?_⟩
  · exact h.bounds e (mem_of_mem_eraseP he)
  · rw [get_file_erase h.sorted, FdEvent.table, h.table]

end FdTable

/-! ### Runs -/

theorem FdRun.table {events : List FdEvent} (run : FdRun I events c) :
    FdEvent.opens events < 2147483645 → FdTable events c.file_struct_list := by
  induction run with
  | start h =>
    intro _
    rw [h]
    exact ⟨Pairwise.nil, nofun, fun _ => rfl⟩
  | elsewhere _ h ih => rw [h]; exact ih
  | open_fails _ h ih =>
    intro hopens
    have htable := ih hopens
    rcases k_open_appends _ h with ⟨-, hfiles⟩ | ⟨_, -, hfd, -⟩
    · rwa [hfiles]
    · have := (htable.allocate hopens).2.1
      omega
  | opens _ h hfd hfile ih =>
    intro hopens
    rw [FdEvent.opens] at hopens
    have htable := ih (by omega)
    rcases k_open_appends _ h with ⟨hfail, -⟩ | ⟨_, hfile', rfl, hfiles⟩
    · exact absurd hfail hfd
    · rw [hfiles, hfile'.unique hfile]
      exact htable.opened (by omega) _
  | closes _ h ih =>
    intro hopens
    rw [k_close_erases h]
    exact (ih hopens).closed _

/-- **The descriptors of a process are a map.**  With fewer than `2 ^ 31 - 3` files opened, the list
is sorted and holds what the history says; `k_open` returns a descriptor that is not in use, and
`k_close` leaves the others alone. -/
theorem descriptors_sound {events : List FdEvent} (run : FdRun I events c)
    (hopens : FdEvent.opens events < 2 ^ 31 - 3) :
    c.file_struct_list.Pairwise (fun a b => a.1 < b.1) ∧
    (∀ e ∈ c.file_struct_list, 2 ≤ e.1) ∧
    (∀ fd, get_file_struct_for_fd c.file_struct_list fd = FdEvent.table events fd) ∧
    (∀ env file_name es fd c', (k_open file_name).run (sys_api I env) c = (es, .done fd c') →
      fd ≠ -1 → get_file_struct_for_fd c.file_struct_list fd = none) ∧
    (∀ env fd es c', (k_close fd).run (sys_api I env) c = (es, .done () c') → ∀ x, x ≠ fd →
      get_file_struct_for_fd c'.file_struct_list x =
        get_file_struct_for_fd c.file_struct_list x) := by
  have h := run.table hopens
  refine ⟨h.sorted, fun e he => (h.bounds e he).1, h.table, ?_, ?_⟩
  · intro env file_name es fd c' hcall hfd
    rcases k_open_appends _ hcall with ⟨hfail, -⟩ | ⟨_, -, rfl, -⟩
    · exact absurd hfail hfd
    · exact get_file_eq_none.mpr fun e he => ((h.allocate hopens).1 e he).ne
  · intro env fd es c' hcall x hx
    rw [k_close_erases hcall, get_file_erase h.sorted, if_neg hx]

/-- The root directory, opened twice by a process and closed at the first descriptor. -/
theorem descriptors_sound_root : ∃ file file' c',
    FdRun disk_api [.closed 2, .opened 3 file', .opened 2 file] c' ∧
    get_file_struct_for_fd c'.file_struct_list 2 = none ∧
    get_file_struct_for_fd c'.file_struct_list 3 = some file' := by
  let c := (rootUsers.process 0).onFs rootUsers.fs
  have hcalls : ((returned ((k_open 4096).run (sys_api disk_api quietEnv) c)).bind fun r =>
      (returned ((k_open 4096).run (sys_api disk_api quietEnv) r.2.2)).bind fun r₂ =>
      (returned ((k_close 2).run (sys_api disk_api quietEnv) r₂.2.2)).map fun r₃ =>
        (r.2.1, r₂.2.1)) = some (2, 3) := by decide +kernel
  obtain ⟨⟨es, fd, c₁⟩, h₁, hcalls⟩ := Option.bind_eq_some_iff.mp hcalls
  obtain ⟨⟨es₂, fd₂, c₂⟩, h₂, hcalls⟩ := Option.bind_eq_some_iff.mp hcalls
  obtain ⟨⟨es₃, ⟨⟩, c₃⟩, h₃, he⟩ := Option.map_eq_some_iff.mp hcalls
  obtain ⟨rfl, rfl⟩ : fd = 2 ∧ fd₂ = 3 := by simpa using he
  have h₁ := returned_eq_some h₁
  have h₂ := returned_eq_some h₂
  rcases k_open_appends _ h₁ with ⟨hfail, -⟩ | ⟨file, hfile, -, -⟩
  · cases hfail
  rcases k_open_appends _ h₂ with ⟨hfail, -⟩ | ⟨file', hfile', -, -⟩
  · cases hfail
  have run : FdRun disk_api [.closed 2, .opened 3 file', .opened 2 file] c₃ :=
    .closes (.opens (.opens (.start rfl) h₁ (by decide) hfile) h₂ (by decide) hfile')
      (returned_eq_some h₃)
  obtain ⟨-, -, htable, -⟩ := descriptors_sound run (show 2 < 2 ^ 31 - 3 by decide)
  exact ⟨file, file', c₃, run, htable 2, htable 3⟩

end Pintos
