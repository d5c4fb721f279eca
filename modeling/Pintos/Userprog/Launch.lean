import Pintos.Userprog.Arguments

/-!
# Userprog — Launching a program

What `process_execute` and `load` do with a command line before the program is looked for and after
it has been loaded: they copy it to a block of the heap, cut it with `strtok_r`, pass the first
token on and free a pointer.  The pointer is the one that `strtok_r` returned, which is that of the
block only if the command line begins with its first token, and null if it has none.

`launch_clean_iff` says when the launcher comes to no harm: a kernel thread gets a name, a file is
looked for by a name, and what is freed has been allocated.

Which memory there is, and whether the program can be loaded, is left to an environment.  Of the
memory of the kernel only the bytes of the command line matter here; what else is on the heap, and
what the later calls of `strtok_r` write into the block, is left out.
-/

namespace Pintos
open Support List Function
open Machine (bind_run_silent bind_run_done emit_run bind_run_panic)
open Machine (emit)

/-- What the launcher asks others to do. -/
inductive LaunchEvent where
  /-- `malloc` has returned `p`. -/
  | malloc (p : Nat)
  | free (p : Nat)
  | thread_create (name : Nat)
  | filesys_open (name : Nat)
  deriving DecidableEq

/-- What it is answered. -/
structure LaunchEnv where
  /-- The block that `malloc` returns for a size, or null. -/
  malloc : Nat → Nat
  /-- Whether there is a page for the copy of the command line. -/
  palloc_get_page : Bool
  /-- Whether there is a page for the thread. -/
  thread_page : Bool
  tid : Nat
  pagedir_create : Bool
  /-- Whether the file could be opened. -/
  filesys_open : Bool
  /-- Whether the rest of `load` goes well. -/
  load_rest : Bool

/-- Code that works on the bytes of memory.  Null is 0. -/
abbrev Launcher : Type → Type := Machine LaunchEvent (Nat → UInt8)

/-- `TID_ERROR`. -/
abbrev TID_ERROR : Int := -1

namespace Launch

/-! ### `string.c` -/

/-- `strlcpy`. -/
def strlcpy (dst : Nat) (src : List UInt8) (size : Nat) : Launcher Unit :=
  -- `ASSERT (dst != NULL)`
  if dst = 0 then Machine.panic
  else Machine.modify fun m => poke m dst (Pintos.strlcpy src size ++ [0])

/-- `strchr (string, c) != NULL`.  Every string has a null byte. -/
def strchr (string : List UInt8) (c : UInt8) : Bool := string.contains c || c == 0

/-- The first loop of `strtok_r`: the token, or null.  A loop that does not end with `turns` does
not end. -/
def skip_delimiters (delimiters : List UInt8) : Nat → Nat → Launcher Nat
  | 0, _ => Machine.panic
  | turns + 1, s => do
    let m ← Machine.get
    if strchr delimiters (m s) then
      if m s = 0 then pure 0 else skip_delimiters delimiters turns (s + 1)
    else pure s

/-- The second loop: the end of the token. -/
def skip_token (delimiters : List UInt8) : Nat → Nat → Launcher Nat
  | 0, _ => Machine.panic
  | turns + 1, s => do
    let m ← Machine.get
    if strchr delimiters (m s) then pure s else skip_token delimiters turns (s + 1)

/-- `strtok_r (s, delimiters, …)`, for a string of less than `turns` bytes. -/
def strtok_r (turns s : Nat) (delimiters : List UInt8) : Launcher Nat := do
  let token ← skip_delimiters delimiters turns s
  if token = 0 then pure 0
  else do
    let s ← skip_token delimiters turns token
    Machine.modify fun m => if m s = 0 then m else update m s 0
    pure token

/-! ### `process.c` -/

def malloc (env : LaunchEnv) (size : Nat) : Launcher Nat := do
  emit (.malloc (env.malloc size))
  pure (env.malloc size)

/-- `thread_create (name, …)`.  `init_thread` asserts that there is a name. -/
def thread_create (env : LaunchEnv) (name : Nat) : Launcher Int := do
  emit (.thread_create name)
  if env.thread_page then
    if name = 0 then Machine.panic else pure env.tid
  else pure TID_ERROR

/-- `filesys_open (name)`.  `dir_from_path` takes the length of the name, and `strlen` asserts that
there is one. -/
def filesys_open (env : LaunchEnv) (name : Nat) : Launcher Bool := do
  emit (.filesys_open name)
  if name = 0 then Machine.panic else pure env.filesys_open

/-- The first token of a string, in a new block. -/
def first_token (env : LaunchEnv) (file_name : List UInt8) : Launcher Nat := do
  let size := (c_string file_name).length + 1
  let name ← malloc env size
  strlcpy name file_name size
  strtok_r size name [32]

/-- `process_execute`. -/
def process_execute (env : LaunchEnv) (file_name : List UInt8) : Launcher Int := do
  let name ← first_token env file_name
  if env.palloc_get_page then do
    let tid ← thread_create env name
    emit (.free name)
    pure tid
  else pure TID_ERROR

/-- `load`: whether it succeeds. -/
def load (env : LaunchEnv) (file_name : List UInt8) : Launcher Bool :=
  if env.pagedir_create then do
    let fn_copy ← first_token env file_name
    let file ← filesys_open env fn_copy
    if file && env.load_rest then do
      emit (.free fn_copy)
      pure true
    else pure false
  else pure false

/-! ### The first token -/

section Token

variable {m : Nat → UInt8} {p : Nat} {s delimiters : List UInt8}

/-- Where `strtok_r` finds the first token of a string at `p`; null if there is none. -/
def token_at (s delimiters : List UInt8) (p : Nat) : Nat :=
  if s.all delimiters.contains then 0 else p + (s.takeWhile delimiters.contains).length

theorem token_at_cons {c : UInt8} (hc : delimiters.contains c = true) :
    token_at (c :: s) delimiters p = token_at s delimiters (p + 1) := by
  rw [token_at, token_at, all_cons, hc, Bool.true_and, takeWhile_cons_of_pos hc,
    length_cons]
  split
  · rfl
  · omega

theorem stringAt_cons {c : UInt8} (h : StringAt m p (c :: s)) :
    m p = c ∧ c ≠ 0 ∧ StringAt m (p + 1) s := by
  refine ⟨h.bytes 0 (Nat.succ_pos _), h.nonzero c List.mem_cons_self, fun i hi => ?_,
    fun x hx => h.nonzero x (List.mem_cons_of_mem _ hx), ?_⟩
  · rw [show p + 1 + i = p + (i + 1) by omega, h.bytes (i + 1) (Nat.succ_lt_succ hi)]
    rfl
  · have hnull := h.null
    rwa [length_cons, show p + (s.length + 1) = p + 1 + s.length by omega] at hnull

theorem skip_delimiters_run {p : Nat} (h : StringAt m p s) :
    skip_delimiters delimiters (s.length + 1) p m = ([], .done (token_at s delimiters p) m) := by
  induction s generalizing p with
  | nil =>
    have hnull : m p = 0 := h.null
    have hchr : strchr delimiters (m p) = true := by rw [hnull, strchr]; simp
    exact bind_run_silent rfl (by rw [if_pos hchr, if_pos hnull]; rfl)
  | cons c s ih =>
    obtain ⟨hp, hc, hrest⟩ := stringAt_cons h
    refine bind_run_silent rfl ?_
    by_cases hd : delimiters.contains c = true
    · have hchr : strchr delimiters (m p) = true := by rw [hp, strchr, hd, Bool.true_or]
      rw [if_pos hchr, if_neg (hp ▸ hc), token_at_cons hd]
      exact ih hrest
    · have hchr : ¬ strchr delimiters (m p) = true := by
        rw [hp, strchr, Bool.or_eq_true, beq_iff_eq]
        exact fun h => h.elim hd hc
      rw [if_neg hchr, token_at, all_cons, Bool.eq_false_iff.mpr hd, Bool.false_and,
        takeWhile_cons_of_neg hd]
      rfl

theorem skip_token_run {turns : Nat} : ∀ {s : List UInt8} {p : Nat}, StringAt m p s →
    s.length < turns → ∃ e, skip_token delimiters turns p m = ([], .done e m) := by
  induction turns with
  | zero => exact fun _ h => absurd h (Nat.not_lt_zero _)
  | succ turns ih =>
    intro s p h hlen
    by_cases hchr : strchr delimiters (m p) = true
    · exact ⟨p, bind_run_silent rfl (by rw [if_pos hchr]; rfl)⟩
    · cases s with
      | nil =>
        have hnull : m p = 0 := h.null
        rw [hnull, strchr] at hchr
        simp at hchr
      | cons c s =>
        obtain ⟨-, -, hrest⟩ := stringAt_cons h
        obtain ⟨e, he⟩ := ih hrest (Nat.lt_of_succ_lt_succ hlen)
        exact ⟨e, bind_run_silent rfl (by rw [if_neg hchr]; exact he)⟩

theorem stringAt_drop (h : StringAt m p s) {k : Nat} (hk : k ≤ s.length) :
    StringAt m (p + k) (s.drop k) := by
  refine ⟨fun i hi => ?_, fun c hc => h.nonzero c (mem_of_mem_drop hc), ?_⟩
  · rw [length_drop] at hi
    rw [Nat.add_assoc, h.bytes (k + i) (by omega), getD_eq_getElem?_getD,
      getD_eq_getElem?_getD, getElem?_drop]
  · rw [length_drop, Nat.add_assoc, Nat.add_sub_cancel' hk]
    exact h.null

/-- `strtok_r` returns the first token of a string. -/
theorem strtok_r_run (h : StringAt m p s) : ∃ m',
    strtok_r (s.length + 1) p delimiters m = ([], .done (token_at s delimiters p) m') := by
  by_cases hzero : token_at s delimiters p = 0
  · refine ⟨m, bind_run_silent (skip_delimiters_run h) ?_⟩
    rw [if_pos hzero, hzero]
    rfl
  · have htoken : token_at s delimiters p = p + (s.takeWhile delimiters.contains).length := by
      rw [token_at] at hzero ⊢
      split_ifs at hzero ⊢
      · exact absurd rfl hzero
      · rfl
    have hle : (s.takeWhile delimiters.contains).length ≤ s.length :=
      (takeWhile_sublist _).length_le
    obtain ⟨e, he⟩ : ∃ e, skip_token delimiters (s.length + 1) (token_at s delimiters p) m =
        ([], .done e m) := by
      rw [htoken]
      exact skip_token_run (stringAt_drop h hle) (by rw [length_drop]; omega)
    refine ⟨if m e = 0 then m else update m e 0,
      bind_run_silent (skip_delimiters_run h) ?_⟩
    rw [if_neg hzero]
    exact bind_run_silent he (bind_run_silent rfl rfl)

end Token

/-! ### The launcher -/

section Clean

variable {env : LaunchEnv} {m : Nat → UInt8} {file_name : List UInt8} {p : Nat}

theorem strlcpy_run {dst : Nat} (h : dst ≠ 0) : ∃ m',
    strlcpy dst file_name ((c_string file_name).length + 1) m = ([], .done () m') ∧
      StringAt m' dst (c_string file_name) := by
  have hcopy : Pintos.strlcpy file_name ((c_string file_name).length + 1) = c_string file_name :=
    take_length
  have hlen : (c_string file_name ++ [0]).length = (c_string file_name).length + 1 := by simp
  refine ⟨poke m dst (c_string file_name ++ [0]), ?_, fun i hi => ?_, fun c hc => ?_, ?_⟩
  · rw [strlcpy, if_neg h, hcopy]
    rfl
  · rw [poke_of_lt (by omega), getD_append _ _ _ _ hi]
  · simpa using mem_takeWhile_imp hc
  · rw [poke_of_lt (by omega), getD_append_right _ _ _ _ le_rfl, Nat.sub_self]
    rfl

/-- The block of a command line. -/
def block (env : LaunchEnv) (file_name : List UInt8) : Nat :=
  env.malloc ((c_string file_name).length + 1)

theorem first_token_null (h : block env file_name = 0) :
    first_token env file_name m = ([.malloc 0], .panic m) := by
  have hmalloc : malloc env ((c_string file_name).length + 1) m = ([.malloc 0], .done 0 m) := by
    rw [block] at h
    rw [malloc, h]
    rfl
  rw [first_token, bind_run_done hmalloc]
  rfl

theorem first_token_run (h : block env file_name ≠ 0) : ∃ m', first_token env file_name m =
    ([.malloc (block env file_name)],
      .done (token_at (c_string file_name) [32] (block env file_name)) m') := by
  have hmalloc : malloc env ((c_string file_name).length + 1) m =
    ([.malloc (block env file_name)], .done (block env file_name) m) := rfl
  obtain ⟨m₁, hcopy, hstring⟩ : ∃ m₁, strlcpy (block env file_name) file_name
      ((c_string file_name).length + 1) m = ([], .done () m₁) ∧
      StringAt m₁ (block env file_name) (c_string file_name) := strlcpy_run h
  obtain ⟨m₂, htoken⟩ : ∃ m₂, strtok_r ((c_string file_name).length + 1) (block env file_name) [32]
      m₁ = ([], .done _ m₂) := strtok_r_run hstring
  refine ⟨m₂, ?_⟩
  rw [first_token, bind_run_done hmalloc, bind_run_silent hcopy htoken]
  rfl

/-- The command line begins with its first token. -/
def launchable (file_name : List UInt8) : Bool := (c_string file_name).head?.any (· != 32)

theorem token_at_launchable (h : launchable file_name = true) :
    token_at (c_string file_name) [32] p = p := by
  rw [launchable] at h
  cases hs : c_string file_name with
  | nil => rw [hs] at h; nomatch h
  | cons c s =>
    rw [hs] at h
    have hc : ([32] : List UInt8).contains c = false := by simpa using h
    rw [token_at, all_cons, hc, Bool.false_and, takeWhile_cons_of_neg (by rw [hc]; nofun)]
    rfl

/-- Another command line gets null, or a pointer into the block. -/
theorem token_at_not_launchable (h : launchable file_name = false) :
    token_at (c_string file_name) [32] p = 0 ∨ p < token_at (c_string file_name) [32] p := by
  rw [launchable] at h
  cases hs : c_string file_name with
  | nil => exact .inl rfl
  | cons c s =>
    rw [hs] at h
    have hc : ([32] : List UInt8).contains c = true := by simpa using h
    rw [token_at]
    split
    · exact .inl rfl
    · rw [takeWhile_cons_of_pos hc, length_cons]
      exact .inr (by omega)

/-- What is freed is one of the blocks allocated before, and not freed since. -/
def FreesOwn (blocks : List Nat) : List LaunchEvent → Prop
  | [] => True
  | .malloc p :: es => FreesOwn (p :: blocks) es
  | .free p :: es => p ∈ blocks ∧ FreesOwn (blocks.erase p) es
  | .thread_create _ :: es | .filesys_open _ :: es => FreesOwn blocks es

/-- The code returns; it frees what it has allocated; and it passes on no null for a name, unless it
fails. -/
def Clean {α : Type} (failed : α → Prop) (code : Launcher α) (m : Nat → UInt8) : Prop :=
  ∃ es r m', code m = (es, .done r m') ∧ FreesOwn [] es ∧
    (.thread_create 0 ∈ es ∨ .filesys_open 0 ∈ es → failed r)

/-- Only a command line that begins with a token gets the pointer to the block. -/
theorem token_at_eq_iff (hp : p ≠ 0) :
    token_at (c_string file_name) [32] p = p ↔ launchable file_name = true := by
  refine ⟨fun h => ?_, token_at_launchable⟩
  by_contra hl
  rcases token_at_not_launchable (p := p) (Bool.not_eq_true _ ▸ hl) with h' | h' <;> omega

theorem thread_create_run (env : LaunchEnv) (name : Nat) (m : Nat → UInt8) :
    thread_create env name m = ([.thread_create name], .panic m) ∧ name = 0 ∨
    ∃ tid, thread_create env name m = ([.thread_create name], .done tid m) ∧
      (name = 0 → tid = TID_ERROR) := by
  have hrun : thread_create env name m = ([.thread_create name], (if env.thread_page then
      if name = 0 then Machine.panic else pure (env.tid : Int)
      else pure TID_ERROR : Launcher Int) m |>.2) := by
    rw [thread_create, bind_run_done (emit_run _ _)]
    split <;> [split; skip] <;> rfl
  rw [hrun]
  by_cases hpage : env.thread_page = true
  · by_cases hname : name = 0
    · exact .inl ⟨by rw [if_pos hpage, if_pos hname]; rfl, hname⟩
    · exact .inr ⟨env.tid, by rw [if_pos hpage, if_neg hname]; rfl, fun h => absurd h hname⟩
  · exact .inr ⟨TID_ERROR, by rw [if_neg hpage]; rfl, fun _ => rfl⟩

theorem process_execute_clean_iff :
    Clean (fun tid => tid = TID_ERROR) (process_execute env file_name) m ↔
      block env file_name ≠ 0 ∧ (launchable file_name = true ∨ env.palloc_get_page = false) := by
  by_cases hblock : block env file_name = 0
  · have hrun : process_execute env file_name m = ([.malloc 0], .panic m) :=
      bind_run_panic (first_token_null hblock)
    refine ⟨fun ⟨_, _, _, h, _⟩ => ?_, fun h => absurd hblock h.1⟩
    rw [hrun] at h
    nomatch h
  obtain ⟨m', htoken⟩ : ∃ m', first_token env file_name m = (_, .done _ m') :=
    first_token_run hblock
  rw [← token_at_eq_iff hblock, Clean, process_execute, bind_run_done htoken]
  generalize token_at (c_string file_name) [32] (block env file_name) = name
  generalize block env file_name = p at hblock ⊢
  cases env.palloc_get_page with
  | false => exact ⟨fun _ => ⟨hblock, .inr rfl⟩, fun _ => ⟨_, _, _, rfl, trivial, by simp⟩⟩
  | true =>
    rw [if_pos rfl]
    rcases thread_create_run env name m' with ⟨hrun, rfl⟩ | ⟨tid, hrun, htid⟩
    · rw [bind_run_panic hrun]
      refine ⟨fun ⟨_, _, _, h, _⟩ => (nomatch h), fun ⟨hne, h⟩ => ?_⟩
      exact h.elim (fun h => absurd h.symm hne) nofun
    · have hfree : (emit (.free name) >>= fun _ => pure tid : Launcher Int) m' =
        ([.free name], .done tid m') := rfl
      rw [bind_run_done hrun, hfree]
      constructor
      · rintro ⟨_, _, _, h, hfree, -⟩
        cases h
        exact ⟨hblock, .inl (List.mem_singleton.mp hfree.1)⟩
      · rintro ⟨-, rfl | h⟩
        · exact ⟨_, tid, m', rfl, ⟨List.mem_singleton_self _, trivial⟩,
            fun h => htid (by simpa [eq_comm] using h)⟩
        · nomatch h

/-- The command line has no token. -/
def blank (file_name : List UInt8) : Bool := (c_string file_name).all ([32] : List UInt8).contains

theorem token_at_eq_zero_iff (hp : p ≠ 0) :
    token_at (c_string file_name) [32] p = 0 ↔ blank file_name = true := by
  rw [token_at, blank]
  split
  · exact ⟨fun _ => ‹_›, fun _ => rfl⟩
  · refine ⟨fun h => ?_, fun h => absurd h ‹_›⟩
    omega

theorem load_clean_iff : Clean (fun success => success = false) (load env file_name) m ↔
    env.pagedir_create = false ∨ block env file_name ≠ 0 ∧ (launchable file_name = true ∨
      blank file_name = false ∧ (env.filesys_open && env.load_rest) = false) := by
  cases hdir : env.pagedir_create with
  | false =>
    refine ⟨fun _ => .inl rfl, fun _ => ⟨[], false, m, ?_, trivial, by simp⟩⟩
    rw [load, hdir]
    rfl
  | true =>
  rw [load, hdir, if_pos rfl]
  by_cases hblock : block env file_name = 0
  · rw [Clean, bind_run_panic (first_token_null hblock)]
    exact ⟨fun ⟨_, _, _, h, _⟩ => (nomatch h), fun h => h.elim nofun fun h => absurd hblock h.1⟩
  obtain ⟨m', htoken⟩ : ∃ m', first_token env file_name m = (_, .done _ m') :=
    first_token_run hblock
  rw [← token_at_eq_iff hblock, ← Bool.not_eq_true (blank file_name),
    ← token_at_eq_zero_iff hblock, Clean, bind_run_done htoken]
  generalize token_at (c_string file_name) [32] (block env file_name) = name
  generalize block env file_name = p at hblock ⊢
  by_cases hname : name = 0
  · -- no file is looked for by a null pointer
    have hrun : filesys_open env name m' = ([.filesys_open name], .panic m') := by
      rw [filesys_open, bind_run_done (emit_run _ _), if_pos hname]
      rfl
    rw [bind_run_panic hrun]
    refine ⟨fun ⟨_, _, _, h, _⟩ => (nomatch h), fun h => ?_⟩
    rcases h with h | ⟨-, rfl | ⟨h, -⟩⟩
    · nomatch h
    · exact absurd hname hblock
    · exact absurd hname h
  · have hrun : filesys_open env name m' = ([.filesys_open name], .done env.filesys_open m') := by
      rw [filesys_open, bind_run_done (emit_run _ _), if_neg hname]
      rfl
    rw [bind_run_done hrun]
    cases env.filesys_open && env.load_rest with
    | false => exact ⟨fun _ => .inr ⟨hblock, .inr ⟨hname, rfl⟩⟩,
        fun _ => ⟨_, false, m', rfl, trivial, fun _ => rfl⟩⟩
    | true =>
      have hfree : (emit (.free name) >>= fun _ => pure true : Launcher Bool) m' =
        ([.free name], .done true m') := rfl
      rw [if_pos rfl, hfree]
      constructor
      · rintro ⟨_, _, _, h, hfree, -⟩
        cases h
        exact .inr ⟨hblock, .inl (List.mem_singleton.mp hfree.1)⟩
      · rintro (h | ⟨-, rfl | ⟨-, h⟩⟩)
        · nomatch h
        · exact ⟨_, true, m', rfl, ⟨List.mem_singleton_self _, trivial⟩,
            fun h => absurd (by simpa [eq_comm] using h) hname⟩
        · nomatch h

/-- The copy that `load` gets begins as the command line does. -/
theorem launchable_strlcpy :
    launchable (Pintos.strlcpy file_name PGSIZE) = launchable file_name := by
  rw [launchable, launchable, Pintos.strlcpy]
  cases hs : c_string file_name with
  | nil => rfl
  | cons c s =>
    have hc : c ≠ 0 := by
      have hmem : c ∈ c_string file_name := hs ▸ List.mem_cons_self
      simpa using mem_takeWhile_imp hmem
    rw [show PGSIZE - 1 = 4094 + 1 from rfl, take_succ_cons, c_string,
      takeWhile_cons_of_pos (by simpa using hc)]
    rfl

/-- **The launcher.**  `process_execute` and the `load` of what it passes on come to no harm exactly
if there is memory for the copies of the command line, unless nothing is copied, and the command
line begins with its first token, unless the launch fails before the pointer is used. -/
theorem launch_clean_iff (env env' : LaunchEnv) (m m' : Nat → UInt8) (file_name : List UInt8) :
    Clean (fun tid => tid = TID_ERROR) (process_execute env file_name) m ∧
      Clean (fun success => success = false) (load env' (Pintos.strlcpy file_name PGSIZE)) m' ↔
    (block env file_name ≠ 0 ∧ (launchable file_name = true ∨ env.palloc_get_page = false)) ∧
      (env'.pagedir_create = false ∨ block env' (Pintos.strlcpy file_name PGSIZE) ≠ 0 ∧
        (launchable file_name = true ∨ blank (Pintos.strlcpy file_name PGSIZE) = false ∧
          (env'.filesys_open && env'.load_rest) = false)) := by
  rw [process_execute_clean_iff, load_clean_iff, launchable_strlcpy]

/-- A machine with memory to spare, on which every program can be loaded. -/
def plentyEnv : LaunchEnv := ⟨fun _ => 4108, true, true, 3, true, true, true⟩

/-- A command line that begins with a space, and the empty one. -/
theorem launch_breaks :
    ¬ Clean (fun tid => tid = TID_ERROR) (process_execute plentyEnv [32, 120]) (fun _ => 0) ∧
    ¬ Clean (fun success => success = false) (load plentyEnv [32, 120]) (fun _ => 0) ∧
    ¬ Clean (fun tid => tid = TID_ERROR) (process_execute plentyEnv []) (fun _ => 0) := by
  rw [process_execute_clean_iff, process_execute_clean_iff, load_clean_iff]
  decide

end Clean

end Launch

end Pintos
